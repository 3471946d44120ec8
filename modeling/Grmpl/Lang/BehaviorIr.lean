import Grmpl.Core.Value

/-!
# The plan of a behavior

Handlers and stored behaviors are lists of operations over named locals: lookups,
bindings, branches, and the entries of the patch they answer with. A stored behavior is
such a list with a guard on the message and names for the message's columns.

* `ValueExpr`, `BoolExpr`, `ExprIr`: scalar expressions.
* `BehaviorOp`: the operations.
* `RowExpr`, `PredExpr`: a guard.
* `StoredBehavior`.
* `Occurs`: an operation is in a list, or in a branch of one there.
-/

namespace Grmpl

/-- A pure scalar expression. -/
inductive ValueExpr where
  | local_ (name : String)
  | literal (v : Value)
  | intrinsic (name : String) (arguments : List ValueExpr)

inductive CompareOp where
  | eq
  | ne
  | lt
  | le
  | gt
  | ge
  deriving DecidableEq

inductive BoolExpr where
  | value (v : ValueExpr)
  | compare (op : CompareOp) (left right : ValueExpr)
  | not (b : BoolExpr)
  | and (left right : BoolExpr)
  | or (left right : BoolExpr)

inductive ExprIr where
  | value (v : ValueExpr)
  | bool (b : BoolExpr)

/-- A column of a lookup: matched, bound to a new local, or both. -/
inductive FindArg where
  | match_ (e : ExprIr)
  | bind (local_ : String)
  | matchBind (value : ExprIr) (local_ : String)

/-- How a column is matched against a value. -/
inductive MatchOp where
  | exact_
  | word
  deriving DecidableEq

inductive BehaviorOp where
  | resolve (view : String) (arguments : List ExprIr) (column : String) (op : MatchOp) (rhs : ExprIr)
      (destinations : List String)
  | find (relation : String) (arguments : List FindArg)
  | letOp (local_ : String) (value : ExprIr)
  | ifOp (condition : BoolExpr) (thenOps elseOps : List BehaviorOp)
  | expect (relation : String) (arguments : List ExprIr)
  | assert (relation : String) (arguments : List ExprIr)
  | retract (relation : String) (arguments : List ExprIr)
  | emit (relation : String) (arguments : List ExprIr)
  | invokeCapability (capability : String) (arguments : List ExprIr) (destinations : List String)

/-- A scalar over the columns of a row. -/
inductive RowExpr where
  | col (i : Nat)
  | lit (v : Value)
  deriving DecidableEq

/-- A guard: equalities and their conjunctions. -/
inductive PredExpr where
  | eq (a b : RowExpr)
  | and (ps : List PredExpr)

/-- A behavior stored as data: the messages it handles, the locals their columns are
bound to, and its operations. -/
structure StoredBehavior where
  guard : PredExpr
  parameters : List String
  body : List BehaviorOp

/-- An operation stands in a list, or in a branch of an operation there. -/
inductive Occurs (op : BehaviorOp) : List BehaviorOp → Prop
  | head (ops : List BehaviorOp) : Occurs op (op :: ops)
  | tail (o : BehaviorOp) {ops : List BehaviorOp} : Occurs op ops → Occurs op (o :: ops)
  | inThen (c : BoolExpr) {t : List BehaviorOp} (e ops : List BehaviorOp) : Occurs op t →
      Occurs op (.ifOp c t e :: ops)
  | inElse (c : BoolExpr) (t : List BehaviorOp) {e : List BehaviorOp} (ops : List BehaviorOp) :
      Occurs op e → Occurs op (.ifOp c t e :: ops)

theorem not_occurs_nil {op : BehaviorOp} : ¬ Occurs op [] := nofun

theorem occurs_of_mem {op : BehaviorOp} : ∀ {ops : List BehaviorOp}, op ∈ ops → Occurs op ops := by
  intro ops
  induction ops with
  | nil => exact fun h => absurd h (by simp)
  | cons o ops ih =>
    intro h
    rcases List.mem_cons.1 h with rfl | h
    · exact .head ops
    · exact .tail o (ih h)

end Grmpl

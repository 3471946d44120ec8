import Grmpl.Core.Schema
import Grmpl.Lang.QueryIr

/-!
# The row types of plans

A plan's row type is synthesized from the schemas of its base relations, operator by
operator; an iteration's is the type its seed and its step settle on. A column past the
end, a comparison of two types that share no value, operands of different widths and a
sum of what is no number are errors.

* `RowTy`, `TypeError`: the types, and what is wrong with a plan.
* `synth`, `checkQuery`: the checker.
-/

namespace Grmpl

/-- The type of a value. -/
def valueTy : Value → Ty
  | .ent _ => .ent
  | .int _ => .int
  | .float _ => .float
  | .text _ => .text
  | .bool _ => .bool
  | .tuple _ => .tuple
  | .bytes _ => .bytes
  | .code _ => .code

/-- Whether values of two types can be equal. -/
def Ty.compatible (a b : Ty) : Bool := a = b || a = .any || b = .any

/-- The least type above two. -/
def Ty.lub (a b : Ty) : Ty := if a = b then a else .any

/-- The types of a row's columns, in order. -/
abbrev RowTy := List Ty

def RowTy.fromSchema (s : Schema) : RowTy := s.columns.map (·.ty)

/-- Why a plan has no type. -/
inductive TypeError where
  | unschemaedRelation (r : RelId)
  | columnOutOfRange (index arity : Nat)
  | incomparable (left right : Ty)
  | keyArityMismatch (left right : Nat)
  | joinKeyMismatch (pos : Nat) (left right : Ty)
  | unionArityMismatch (left right : Nat)
  | iterateArityMismatch (init step : Nat)
  | sumNonNumeric (col : Nat) (ty : Ty)
  | recurOutsideIterate
  | registry (msg : String)
  deriving DecidableEq

abbrev Typed (α : Type) := Except TypeError α

/-- The type of a column. -/
def colTy (row : RowTy) (i : Nat) : Typed Ty :=
  match row[i]? with
  | some t => .ok t
  | none => .error (.columnOutOfRange i row.length)

def RowExpr.ty (input : RowTy) : RowExpr → Typed Ty
  | .col i => colTy input i
  | .lit v => .ok (valueTy v)

mutual

/-- A predicate compares only types that share values. -/
def checkPred (input : RowTy) : PredExpr → Typed Unit
  | .eq a b => do
      let ta ← a.ty input
      let tb ← b.ty input
      if ta.compatible tb then .ok () else .error (.incomparable ta tb)
  | .and ps => checkPreds input ps

def checkPreds (input : RowTy) : List PredExpr → Typed Unit
  | [] => .ok ()
  | p :: ps => do
      checkPred input p
      checkPreds input ps

end

/-- The type of an aggregate's column. -/
def Agg.ty (input : RowTy) : Agg → Typed Ty
  | .count => .ok .int
  | .sum c => do
      let t ← colTy input c
      if t = .int ∨ t = .any then .ok .int else .error (.sumNonNumeric c t)
  | .min c | .max c => colTy input c

/-- Two row types of one width, column by column. -/
def unionTy (a b : RowTy) : Typed RowTy :=
  if a.length ≠ b.length then .error (.unionArityMismatch a.length b.length)
  else .ok (a.zipWith Ty.lub b)

/-- The key columns of a join, pair by pair. -/
def checkJoinKeys (tl tr : RowTy) : Nat → List Nat → List Nat → Typed Unit
  | pos, li :: ls, ri :: rs => do
      let lt ← colTy tl li
      let rt ← colTy tr ri
      if lt.compatible rt then checkJoinKeys tl tr (pos + 1) ls rs
      else .error (.joinKeyMismatch pos lt rt)
  | _, _, _ => .ok ()

/-- Where the checker finds a base relation's row type: the schemas as of its edition,
and the widths of relations without one, if it goes on without. -/
structure TypeEnv where
  schemaAt : RelId → Result (Option Schema)
  untyped : Option (RelId → Option Nat)

def TypeEnv.rel (env : TypeEnv) (r : RelId) : Typed RowTy :=
  match env.schemaAt r with
  | .error e => .error (.registry e.message)
  | .ok (some schema) => .ok (RowTy.fromSchema schema)
  | .ok none => match env.untyped.bind (· r) with
      | some arity => .ok (List.replicate arity .any)
      | none => .error (.unschemaedRelation r)

/-- The step of an iteration typed again under what it came to, until nothing changes.
A column widens once at most, so there are no more rounds than columns to widen. -/
def settle (step : RowTy → Typed RowTy) (init : RowTy) : Nat → RowTy → Typed RowTy
  | 0, t => .ok t
  | rounds + 1, t => do
      let tStep ← step t
      if init.length ≠ tStep.length then .error (.iterateArityMismatch init.length tStep.length)
      else
        let next ← unionTy init tStep
        if next = t then .ok next else settle step init rounds next

/-- A plan's row type, the recursion variable's given. -/
def synth (env : TypeEnv) (recur : Option RowTy) : QueryIr → Typed RowTy
  | .rel r => env.rel r
  | .map input f => do
      let ti ← synth env recur input
      f.out.mapM fun e => e.ty ti
  | .filter input pred => do
      let ti ← synth env recur input
      checkPred ti pred
      pure ti
  | .project input cols => do
      let ti ← synth env recur input
      cols.mapM (colTy ti)
  | .join left right leftKey rightKey => do
      let tl ← synth env recur left
      let tr ← synth env recur right
      if leftKey.length ≠ rightKey.length then
        .error (.keyArityMismatch leftKey.length rightKey.length)
      else
        checkJoinKeys tl tr 0 leftKey rightKey
        pure (tl ++ tr)
  | .union a b => do
      let ta ← synth env recur a
      let tb ← synth env recur b
      unionTy ta tb
  | .negate a | .distinct a => synth env recur a
  | .reduce input key agg => do
      let ti ← synth env recur input
      let cols ← key.mapM (colTy ti)
      let t ← agg.ty ti
      pure (cols ++ [t])
  | .recur => match recur with
      | some t => .ok t
      | none => .error .recurOutsideIterate
  | .inherit input .. => do
      let t ← synth env recur input
      pure (t ++ [.any])
  | .materialized plan .. => synth env recur plan
  | .iterate init step => do
      let tInit ← synth env recur init
      settle (fun t => synth env (some t) step) tInit (tInit.length + 1) tInit

/-- The row type of a plan over relations that all have schemas. -/
def checkQuery (q : QueryIr) (schemaAt : RelId → Result (Option Schema)) : Typed RowTy :=
  synth ⟨schemaAt, none⟩ none q

end Grmpl

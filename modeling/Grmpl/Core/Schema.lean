import Grmpl.Core.Value
import Mathlib.Data.List.Forall2

/-!
# Relation schemas

A schema types a relation's rows column by column and grows only by appending
columns. The column order is the row's layout.

* `Ty`, `Ty.admits`: the column types and the values that inhabit them.
* `Column`, `Schema`, `Schema.check`: what a row must be.
* `Schema.isAdditiveOver`: the only evolution allowed, a reflexive and transitive one.
* `Schema.Conforms`, `check_eq_ok`: a row passes the check exactly when every cell has
  its column's type.
-/

namespace Grmpl

/-- A column's value type. -/
inductive Ty where
  | ent
  | int
  | float
  | text
  | bool
  | tuple
  | bytes
  | code
  | any
  deriving DecidableEq

namespace Ty

/-- Whether a value inhabits the type. -/
def admits : Ty → Value → Bool
  | .any, _ => true
  | .ent, .ent _ => true
  | .int, .int _ => true
  | .float, .float _ => true
  | .text, .text _ => true
  | .bool, .bool _ => true
  | .tuple, .tuple _ => true
  | .bytes, .bytes _ => true
  | .code, .code _ => true
  | _, _ => false

/-- The spelling in diagnostics and in the surface grammar. -/
def name : Ty → String
  | .ent => "Ent"
  | .int => "Int"
  | .float => "Float"
  | .text => "Text"
  | .bool => "Bool"
  | .tuple => "Tuple"
  | .bytes => "Bytes"
  | .code => "Code"
  | .any => "Any"

end Ty

/-- One named, typed column. -/
structure Column where
  name : String
  ty : Ty
  deriving DecidableEq

/-- An ordered list of columns. -/
structure Schema where
  columns : List Column
  deriving DecidableEq

/-- The first violation of a schema by a row. -/
inductive Violation where
  | arity (columns cells : Nat)
  | column (i : Nat) (column : Column) (got : Value)

namespace Schema

def arity (s : Schema) : Nat := s.columns.length

/-- The first cell that does not inhabit its column, counted from an index. -/
def checkCells : Nat → List Column → List Value → Except Violation Unit
  | i, c :: cs, v :: vs => if c.ty.admits v then checkCells (i + 1) cs vs else .error (.column i c v)
  | _, _, _ => .ok ()

/-- The arity first, then the types. -/
def check (s : Schema) (t : Tuple) : Except Violation Unit :=
  if t.arity ≠ s.arity then .error (.arity s.arity t.arity)
  else checkCells 0 s.columns t.cells

/-- The columns of another schema with more appended. -/
def isAdditiveOver (s prev : Schema) : Bool :=
  prev.columns.length ≤ s.columns.length && s.columns.take prev.columns.length == prev.columns

/-- Every cell has its column's type, and there is a cell for every column. -/
def Conforms (s : Schema) (t : Tuple) : Prop :=
  List.Forall₂ (fun (c : Column) v => c.ty.admits v = true) s.columns t.cells

theorem checkCells_eq_ok : ∀ (cs : List Column) (vs : List Value) (i : Nat),
    cs.length = vs.length → (checkCells i cs vs = .ok () ↔
      List.Forall₂ (fun (c : Column) v => c.ty.admits v = true) cs vs) := by
  intro cs
  induction cs with
  | nil =>
    intro vs i hlen
    obtain rfl := List.length_eq_zero_iff.1 hlen.symm
    exact ⟨fun _ => .nil, fun _ => rfl⟩
  | cons c cs ih =>
    intro vs i hlen
    cases vs with
    | nil => simp at hlen
    | cons v vs =>
      rw [List.forall₂_cons, checkCells]
      split_ifs with hc
      · rw [ih vs (i + 1) (by simpa using hlen)]
        exact ⟨fun h => ⟨hc, h⟩, fun h => h.2⟩
      · exact ⟨fun h => (nomatch h), fun h => absurd h.1 hc⟩

/-- A row passes the check exactly when it conforms. -/
theorem check_eq_ok {s : Schema} {t : Tuple} : s.check t = .ok () ↔ s.Conforms t := by
  unfold check
  split_ifs with h
  · refine ⟨fun hc => (nomatch hc), fun hc => absurd hc.length_eq (Ne.symm h)⟩
  · exact checkCells_eq_ok _ _ 0 (not_not.1 h).symm

theorem Conforms.arity {s : Schema} {t : Tuple} (h : s.Conforms t) : t.arity = s.arity :=
  h.length_eq.symm

theorem isAdditiveOver_iff {s prev : Schema} :
    s.isAdditiveOver prev = true ↔ prev.columns <+: s.columns := by
  rw [isAdditiveOver, Bool.and_eq_true, decide_eq_true_eq, beq_iff_eq, List.prefix_iff_eq_take]
  refine ⟨fun h => h.2.symm, fun h => ⟨?_, h.symm⟩⟩
  have hlen := congrArg List.length h
  rw [List.length_take] at hlen
  omega

theorem isAdditiveOver_refl (s : Schema) : s.isAdditiveOver s = true :=
  isAdditiveOver_iff.2 (List.prefix_refl _)

theorem isAdditiveOver_trans {a b c : Schema} (hab : b.isAdditiveOver a = true)
    (hbc : c.isAdditiveOver b = true) : c.isAdditiveOver a = true :=
  isAdditiveOver_iff.2 ((isAdditiveOver_iff.1 hab).trans (isAdditiveOver_iff.1 hbc))

end Schema

end Grmpl

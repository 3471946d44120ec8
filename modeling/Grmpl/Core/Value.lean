import Grmpl.Lib.Compare
import Mathlib

/-!
# Values, entities and tuples

The domain values of the engine, in the derived order of the source: the
constructors in their declared order, cells of one constructor by content, and
rows lexicographically. Identity is structural.

* `Entity`: a 64-bit identity.
* `FiniteF64`: the bits of a finite binary64 number, negative zero excluded.
* `Value`, `Tuple`: the cells and the rows, each with its linear order.
-/

open Compare

namespace Grmpl

/-- A stable identity in the modelled world. -/
structure Entity where
  id : UInt64
deriving DecidableEq, Repr

/-- The bits of a finite IEEE-754 binary64 value: the exponent is not all ones,
and negative zero is normalised away. -/
structure FiniteF64 where
  bits : UInt64
  finite : bits &&& 0x7FF0000000000000 ≠ 0x7FF0000000000000
  canonical : bits ≠ 0x8000000000000000
deriving DecidableEq

/-- The position of a float in `total_cmp`'s order: the magnitude above zero for
a clear sign bit, below it for a set one. -/
def FiniteF64.totalKey (x : FiniteF64) : Int :=
  if x.bits.toNat < 2 ^ 63 then x.bits.toNat else 2 ^ 63 - 1 - (x.bits.toNat : Int)

theorem FiniteF64.totalKey_inj (x y : FiniteF64) (h : x.totalKey = y.totalKey) : x = y := by
  have hbits : x.bits.toNat = y.bits.toNat := by
    unfold totalKey at h
    split at h <;> split at h <;> omega
  cases x
  cases y
  simpa [UInt64.toNat_inj] using hbits

/-- A domain value. -/
inductive Value where
  | ent (e : Entity)
  | int (i : Int64)
  | float (x : FiniteF64)
  | text (s : String)
  | bool (b : Bool)
  | tuple (cells : List Value)
  | bytes (b : List UInt8)
  | code (b : List UInt8)

/-- A row of a relation, identified by its content. -/
structure Tuple where
  cells : List Value

/-- The number of cells of a row. -/
def Tuple.arity (t : Tuple) : Nat := t.cells.length

/-! ## The derived order -/

/-- The position of a value's constructor in the declared order. -/
def Value.rank : Value → Nat
  | .ent _ => 0
  | .int _ => 1
  | .float _ => 2
  | .text _ => 3
  | .bool _ => 4
  | .tuple _ => 5
  | .bytes _ => 6
  | .code _ => 7

def cmpEntity (a b : Entity) : Ordering := compare a.id.toNat b.id.toNat

def cmpInt (a b : Int64) : Ordering := compare a.toInt b.toInt

def cmpFloat (a b : FiniteF64) : Ordering := compare a.totalKey b.totalKey

/-- Strings compare by their scalar values, which is the order of their UTF-8
bytes. -/
def cmpText (a b : String) : Ordering :=
  lexCmp (fun x y : Char => compare x.toNat y.toNat) a.toList b.toList

def cmpBytes : List UInt8 → List UInt8 → Ordering :=
  lexCmp (fun x y => compare x.toNat y.toNat)

mutual

/-- The derived comparison of two values. -/
def Value.cmp : Value → Value → Ordering
  | .ent a, .ent b => cmpEntity a b
  | .int a, .int b => cmpInt a b
  | .float a, .float b => cmpFloat a b
  | .text a, .text b => cmpText a b
  | .bool a, .bool b => compare a.toNat b.toNat
  | .tuple a, .tuple b => Value.cmpCells a b
  | .bytes a, .bytes b => cmpBytes a b
  | .code a, .code b => cmpBytes a b
  | a, b => compare a.rank b.rank

/-- The derived comparison of two cell lists. -/
def Value.cmpCells : List Value → List Value → Ordering
  | [], [] => .eq
  | [], _ :: _ => .lt
  | _ :: _, [] => .gt
  | a :: as, b :: bs => (Value.cmp a b).then (Value.cmpCells as bs)

end

theorem cmpEntity_lawful : LawfulCmp cmpEntity :=
  LawfulCmp.onKey (fun a : Entity => a.id.toNat) fun a b h => by
    cases a
    cases b
    simpa [UInt64.toNat_inj] using h

theorem cmpInt_lawful : LawfulCmp cmpInt :=
  LawfulCmp.onKey Int64.toInt fun _ _ h => Int64.toInt_inj.1 h

theorem cmpFloat_lawful : LawfulCmp cmpFloat :=
  LawfulCmp.onKey FiniteF64.totalKey FiniteF64.totalKey_inj

theorem cmpText_lawful : LawfulCmp cmpText := by
  have hchar : LawfulCmp (fun x y : Char => compare x.toNat y.toNat) :=
    LawfulCmp.onKey Char.toNat fun _ _ h => Char.toNat_inj.1 h
  have hlex := hchar.lex
  exact ⟨fun a b => (hlex.eq_iff _ _).trans String.toList_inj, fun a b => hlex.swap _ _,
    fun a b c => hlex.lt_trans _ _ _⟩

theorem cmpBytes_lawful : LawfulCmp cmpBytes :=
  (LawfulCmp.onKey UInt8.toNat fun _ _ h => UInt8.toNat_inj.1 h).lex

theorem cmpBool_lawful : LawfulCmp (fun a b : Bool => compare a.toNat b.toNat) :=
  LawfulCmp.onKey Bool.toNat fun a b h => by cases a <;> cases b <;> simp_all

/-- Cell lists compare lexicographically. -/
theorem Value.cmpCells_eq_lexCmp (as bs : List Value) :
    Value.cmpCells as bs = lexCmp Value.cmp as bs := by
  induction as generalizing bs with
  | nil => cases bs <;> simp [Value.cmpCells, lexCmp]
  | cons a as ih => cases bs <;> simp [Value.cmpCells, lexCmp, ih]

/-- Values of different constructors compare by the constructors' order. -/
theorem Value.cmp_of_rank_ne {a b : Value} (h : a.rank ≠ b.rank) :
    Value.cmp a b = compare a.rank b.rank := by
  cases a <;> cases b <;> first | rfl | exact absurd rfl h

/-- Induction over a value through the cells of its tuples. -/
theorem Value.cellsInduction {P : Value → Prop}
    (atom : ∀ v, (∀ cells, v ≠ .tuple cells) → P v)
    (tuple : ∀ cells, (∀ c ∈ cells, P c) → P (.tuple cells)) (v : Value) : P v := by
  match v with
  | .tuple cells =>
    refine tuple cells fun c hc => ?_
    have : sizeOf c < sizeOf cells := List.sizeOf_lt_of_mem hc
    exact Value.cellsInduction atom tuple c
  | .ent _ | .int _ | .float _ | .text _ | .bool _ | .bytes _ | .code _ =>
    exact atom _ (by simp)
termination_by sizeOf v
decreasing_by simp; omega

theorem Value.cmp_eq_iff (a b : Value) : Value.cmp a b = .eq ↔ a = b := by
  induction a using Value.cellsInduction generalizing b with
  | atom a ha =>
    by_cases hr : a.rank = b.rank
    · cases a <;> cases b <;> simp_all [rank, cmp, cmpEntity_lawful.eq_iff, cmpInt_lawful.eq_iff,
        cmpFloat_lawful.eq_iff, cmpText_lawful.eq_iff, cmpBool_lawful.eq_iff,
        cmpBytes_lawful.eq_iff]
    · rw [cmp_of_rank_ne hr, compare_eq_iff_eq]
      exact ⟨fun h => absurd h hr, fun h => h ▸ rfl⟩
  | tuple cells ih =>
    by_cases hr : (Value.tuple cells).rank = b.rank
    · cases b with
      | tuple bs => simp only [cmp, cmpCells_eq_lexCmp, lexCmp_eq_iff ih, tuple.injEq]
      | _ => simp [rank] at hr
    · rw [cmp_of_rank_ne hr, compare_eq_iff_eq]
      exact ⟨fun h => absurd h hr, fun h => h ▸ rfl⟩

theorem Value.cmp_swap (a b : Value) : (Value.cmp a b).swap = Value.cmp b a := by
  have rank_swap : ∀ a b : Value, a.rank ≠ b.rank → (Value.cmp a b).swap = Value.cmp b a := by
    intro a b hr
    rw [cmp_of_rank_ne hr, cmp_of_rank_ne (Ne.symm hr)]
    exact (LawfulCmp.onKey (fun n : Nat => n) fun _ _ h => h).swap _ _
  induction a using Value.cellsInduction generalizing b with
  | atom a ha =>
    by_cases hr : a.rank = b.rank
    · cases a <;> cases b <;> simp_all [rank, cmp, cmpEntity_lawful.swap, cmpInt_lawful.swap,
        cmpFloat_lawful.swap, cmpText_lawful.swap, cmpBool_lawful.swap, cmpBytes_lawful.swap]
    · exact rank_swap a b hr
  | tuple cells ih =>
    by_cases hr : (Value.tuple cells).rank = b.rank
    · cases b with
      | tuple bs => simp only [cmp, cmpCells_eq_lexCmp, lexCmp_swap ih]
      | _ => simp [rank] at hr
    · exact rank_swap _ b hr

/-- The constructors' order is respected: a smaller value has no greater rank. -/
theorem Value.rank_le_of_cmp_lt {a b : Value} (h : Value.cmp a b = .lt) : a.rank ≤ b.rank := by
  by_cases hr : a.rank = b.rank
  · exact hr.le
  · rw [cmp_of_rank_ne hr, compare_lt_iff_lt] at h
    exact h.le

theorem Value.cmp_lt_trans (a b c : Value) (hab : Value.cmp a b = .lt)
    (hbc : Value.cmp b c = .lt) : Value.cmp a c = .lt := by
  have rank_lt : ∀ a b c : Value, Value.cmp a b = .lt → Value.cmp b c = .lt →
      ¬ (a.rank = b.rank ∧ b.rank = c.rank) → Value.cmp a c = .lt := by
    intro a b c hab hbc hr
    have h₁ := rank_le_of_cmp_lt hab
    have h₂ := rank_le_of_cmp_lt hbc
    have h₃ : a.rank < c.rank := by omega
    rw [cmp_of_rank_ne (by omega), compare_lt_iff_lt]
    exact h₃
  induction a using Value.cellsInduction generalizing b c with
  | atom a ha =>
    by_cases hr : a.rank = b.rank ∧ b.rank = c.rank
    · obtain ⟨hr₁, hr₂⟩ := hr
      cases a <;> cases b <;> try (simp [rank] at hr₁; done)
      all_goals cases c <;> try (simp [rank] at hr₂; done)
      · exact cmpEntity_lawful.lt_trans _ _ _ hab hbc
      · exact cmpInt_lawful.lt_trans _ _ _ hab hbc
      · exact cmpFloat_lawful.lt_trans _ _ _ hab hbc
      · exact cmpText_lawful.lt_trans _ _ _ hab hbc
      · exact cmpBool_lawful.lt_trans _ _ _ hab hbc
      · exact absurd rfl (ha _)
      · exact cmpBytes_lawful.lt_trans _ _ _ hab hbc
      · exact cmpBytes_lawful.lt_trans _ _ _ hab hbc
    · exact rank_lt a b c hab hbc hr
  | tuple cells ih =>
    by_cases hr : (Value.tuple cells).rank = b.rank ∧ b.rank = c.rank
    · obtain ⟨hr₁, hr₂⟩ := hr
      cases b <;> try (simp [rank] at hr₁; done)
      cases c <;> try (simp [rank] at hr₂; done)
      simp only [cmp, cmpCells_eq_lexCmp] at hab hbc ⊢
      exact lexCmp_lt_trans cmp_eq_iff ih _ _ hab hbc
    · exact rank_lt _ b c hab hbc hr

theorem Value.cmp_lawful : LawfulCmp Value.cmp :=
  ⟨Value.cmp_eq_iff, Value.cmp_swap, Value.cmp_lt_trans⟩

instance : LinearOrder Value := Value.cmp_lawful.linearOrder

/-- The derived comparison of two rows. -/
def Tuple.cmp (a b : Tuple) : Ordering := Value.cmpCells a.cells b.cells

theorem Tuple.cmp_lawful : LawfulCmp Tuple.cmp := by
  have hcmp : Tuple.cmp = fun a b => lexCmp Value.cmp a.cells b.cells := by
    funext a b
    exact Value.cmpCells_eq_lexCmp _ _
  have hlex := Value.cmp_lawful.lex
  rw [hcmp]
  refine ⟨fun a b => (hlex.eq_iff _ _).trans ?_, fun a b => hlex.swap _ _,
    fun a b c => hlex.lt_trans _ _ _⟩
  cases a
  cases b
  simp

instance : LinearOrder Tuple := Tuple.cmp_lawful.linearOrder

theorem Value.compare_def (a b : Value) : compare a b = Value.cmp a b := rfl

theorem Tuple.compare_def (a b : Tuple) : compare a b = lexCmp Value.cmp a.cells b.cells :=
  Value.cmpCells_eq_lexCmp _ _

/-! ### Rows cell by cell -/

theorem Tuple.cells_lt_cons {v v' : Value} {vs vs' : List Value} :
    (⟨v :: vs⟩ : Tuple) < ⟨v' :: vs'⟩ ↔ v < v' ∨ v = v' ∧ (⟨vs⟩ : Tuple) < ⟨vs'⟩ := by
  show Value.cmpCells (v :: vs) (v' :: vs') = .lt ↔ Value.cmp v v' = .lt ∨ v = v' ∧ Value.cmpCells vs vs' = .lt
  rw [Value.cmpCells, ← Value.cmp_eq_iff]
  cases Value.cmp v v' <;> simp [Ordering.then]

theorem Tuple.nil_lt {v : Value} {vs : List Value} : (⟨[]⟩ : Tuple) < ⟨v :: vs⟩ := rfl

theorem Tuple.not_lt_nil {vs : List Value} : ¬ (⟨vs⟩ : Tuple) < ⟨[]⟩ := by
  intro h
  cases vs with
  | nil => exact lt_irrefl _ h
  | cons v vs => exact lt_asymm h Tuple.nil_lt

end Grmpl

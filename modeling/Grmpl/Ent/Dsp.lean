import Grmpl.Core.Value

/-!
# Displacements of the key coordinate space

Every handle on a subtree carries a *dsp*, the subtree's position relative to
whatever points at it. `Displace` says what a displacement does to a key, how a
displaced key compares, and how keys step along a run; its laws are fields, so
a coordinate space that breaks them cannot be built.

* `Displace`: the key operations and their laws.
* `instDisplaceTuple`: rows move by shifting every entity cell together.
-/

open Compare

namespace Grmpl

/-- A displacement: a wrapping 64-bit shift. -/
abbrev Dsp := Int64

/-- A key coordinate space that displacements act on. `fits k s` says that `s`
is a stride a run through `k` may have. -/
class Displace (K : Type) extends LinearOrder K where
  /-- The key moved by a displacement. -/
  displace : K → Dsp → K
  /-- The displaced key compared with another. -/
  cmpDisplaced : K → Dsp → K → Ordering
  /-- How a key's column compares with a stored pivot moved up by `by`. -/
  cmpColumn : K → Nat → K → Dsp → Ordering
  /-- The stride taking a key to the next one of a run, if there is one. -/
  strideTo : K → K → Option K
  /-- The key some steps along a run. -/
  step : K → K → Int → K
  fits : K → K → Prop
  displace_zero : ∀ k, displace k 0 = k
  displace_displace : ∀ k a b, displace (displace k a) b = displace k (a + b)
  cmpDisplaced_eq : ∀ k a other, cmpDisplaced k a other = compare (displace k a) other
  cmpColumn_eq : ∀ k col p a, cmpColumn k col p a = cmpColumn k col (displace p a) 0
  strideTo_fits : ∀ k k' s, strideTo k k' = some s → fits k s
  strideTo_lt : ∀ k k' s, strideTo k k' = some s → k < k'
  strideTo_step : ∀ k k' s, strideTo k k' = some s → step k s 1 = k'
  fits_step : ∀ k s i, fits k s → fits (step k s i) s
  fits_displace : ∀ k s a, fits k s → fits (displace k a) s
  step_zero : ∀ k s, fits k s → step k s 0 = k
  step_step : ∀ k s i j, fits k s → step (step k s i) s j = step k s (i + j)
  displace_step : ∀ k s i a, fits k s → displace (step k s i) a = step (displace k a) s i

export Displace (displace cmpDisplaced cmpColumn strideTo step fits)

attribute [simp] Displace.displace_zero Displace.displace_displace Displace.cmpDisplaced_eq

/-! ## Rows -/

/-- An entity cell shifts, wrapping; any other cell stays. -/
def Value.displace (d : Dsp) : Value → Value
  | .ent e => .ent ⟨e.id + d.toUInt64⟩
  | v => v

/-- A row moves by shifting every entity cell together. -/
def Tuple.displace (t : Tuple) (d : Dsp) : Tuple :=
  if d = 0 then t else ⟨t.cells.map (Value.displace d)⟩

/-- The comparison of one cell moved by `d` with another. -/
def Value.cmpDisplaced (d : Dsp) (x y : Value) : Ordering :=
  match x, y with
  | .ent x, .ent y => compare (x.id + d.toUInt64).toNat y.id.toNat
  | _, _ => compare x y

/-- Cell by cell, as the derived order compares. -/
def Tuple.cmpDisplaced (t : Tuple) (d : Dsp) (other : Tuple) : Ordering :=
  if d = 0 then compare t other
  else lexCmp (Value.cmpDisplaced d) t.cells other.cells

/-- A pivot is a one-column row; a row without the column sorts below it. -/
def Tuple.cmpColumn (t : Tuple) (col : Nat) (pivot : Tuple) (d : Dsp) : Ordering :=
  match t.cells[col]?, pivot.cells.head? with
  | some (.ent x), some (.ent p) => compare x.id.toNat (p.id + d.toUInt64).toNat
  | some x, some p => compare x p
  | _, _ => .lt

/-- The stride of one column, if the cell can step there. -/
def Value.strideTo (x y : Value) : Option Value :=
  if x = y then some (.int 0)
  else match x, y with
    | .ent x, .ent y =>
        let s := (y.id.toNat : Int) - x.id.toNat
        if -2 ^ 63 ≤ s ∧ s < 2 ^ 63 then some (.int (Int64.ofInt s)) else none
    | .int x, .int y =>
        let s := y.toInt - x.toInt
        if -2 ^ 63 ≤ s ∧ s < 2 ^ 63 then some (.int (Int64.ofInt s)) else none
    | _, _ => none

/-- Entity and integer cells step by an integer stride per column; every other
cell stays fixed. -/
def Tuple.strideTo (t next : Tuple) : Option Tuple :=
  if t.cells.length ≠ next.cells.length ∨ next ≤ t then none
  else ((t.cells.zip next.cells).mapM fun (x, y) => Value.strideTo x y).map Tuple.mk

/-- One cell stepped `i` times, wrapping. -/
def Value.step (cell s : Value) (i : Int) : Value :=
  if s = .int 0 then cell
  else match cell, s with
    | .ent e, .int s => .ent ⟨e.id + (s * Int64.ofInt i).toUInt64⟩
    | .int x, .int s => .int (x + s * Int64.ofInt i)
    | _, _ => cell

/-- The row `i` steps along a run. -/
def Tuple.step (t stride : Tuple) (i : Int) : Tuple :=
  ⟨List.zipWith (fun c s => Value.step c s i) t.cells stride.cells⟩

/-! ### The laws of rows -/

theorem toUInt64_zero : Int64.toUInt64 0 = 0 := rfl

@[simp] theorem Value.displace_zero (v : Value) : v.displace 0 = v := by
  cases v <;> simp [Value.displace, toUInt64_zero]

@[simp] theorem Value.displace_displace (v : Value) (a b : Dsp) :
    (v.displace a).displace b = v.displace (a + b) := by
  cases v <;> simp [Value.displace, UInt64.add_assoc]

/-- The branch on a zero displacement is only a shortcut. -/
theorem Tuple.displace_eq (t : Tuple) (d : Dsp) :
    t.displace d = ⟨t.cells.map (Value.displace d)⟩ := by
  unfold Tuple.displace
  split
  · rename_i h
    subst h
    have : (Value.displace 0) = id := by funext v; simp
    simp [this]
  · rfl

theorem Tuple.displace_displace (t : Tuple) (a b : Dsp) :
    (t.displace a).displace b = t.displace (a + b) := by
  simp only [Tuple.displace_eq, List.map_map, Tuple.mk.injEq]
  refine List.map_congr_left fun v _ => ?_
  simp

theorem Value.cmpDisplaced_eq (d : Dsp) (x y : Value) :
    Value.cmpDisplaced d x y = compare (x.displace d) y := by
  cases x <;> cases y <;> rfl

/-- Comparing without building the displaced row is comparing the displaced row. -/
theorem Tuple.cmpDisplaced_eq (t : Tuple) (d : Dsp) (other : Tuple) :
    t.cmpDisplaced d other = compare (t.displace d) other := by
  unfold Tuple.cmpDisplaced
  split
  · rename_i h
    simp [h, Tuple.displace]
  · rw [Tuple.compare_def, Tuple.displace_eq]
    generalize t.cells = as
    generalize other.cells = bs
    induction as generalizing bs with
    | nil => cases bs <;> rfl
    | cons a as ih => cases bs with
        | nil => rfl
        | cons b bs => simp [lexCmp, ih, Value.cmpDisplaced_eq, Value.compare_def]

theorem Tuple.cmpColumn_eq (t : Tuple) (col : Nat) (p : Tuple) (d : Dsp) :
    t.cmpColumn col p d = t.cmpColumn col (p.displace d) 0 := by
  unfold Tuple.cmpColumn
  rw [Tuple.displace_eq]
  cases hx : t.cells[col]? with
  | none => rfl
  | some x =>
    cases p with
    | mk cells => cases cells with
        | nil => cases x <;> rfl
        | cons c cs => cases x <;> cases c <;> first | rfl | simp [Value.displace, toUInt64_zero]

theorem ofInt_add (i j : Int) : Int64.ofInt (i + j) = Int64.ofInt i + Int64.ofInt j := by
  rw [← Int64.toBitVec_inj]
  simp

/-- The wrapped difference of two 64-bit words carries one to the other. -/
theorem add_ofInt_sub (x y : UInt64) :
    x + (Int64.ofInt ((y.toNat : Int) - x.toNat)).toUInt64 = y := by
  rw [Int.sub_eq_add_neg, ofInt_add, ← Int64.neg_ofInt, ← UInt64.toBitVec_inj]
  simp only [Int64.toUInt64_add, Int64.toUInt64_neg, UInt64.toBitVec_add, Int64.toBitVec_toUInt64,
    Int64.toBitVec_ofInt, BitVec.ofInt_natCast, BitVec.ofNat_uInt64ToNat, UInt64.toBitVec_neg]
  grind

theorem add_ofInt_toInt_sub (x y : Int64) : x + Int64.ofInt (y.toInt - x.toInt) = y := by
  rw [Int.sub_eq_add_neg, ofInt_add, ← Int64.neg_ofInt]
  simp
  grind

/-- A stride of a cell takes it to the next one. -/
theorem Value.strideTo_step {x y s : Value} (h : Value.strideTo x y = some s) :
    Value.step x s 1 = y := by
  unfold Value.strideTo at h
  split at h
  · rename_i hxy
    cases h
    simp [Value.step, hxy]
  · rename_i hxy
    have hone : Int64.ofInt 1 = 1 := rfl
    split at h
    · rename_i x y
      simp only [Option.ite_none_right_eq_some, Option.some.injEq] at h
      obtain ⟨-, rfl⟩ := h
      unfold Value.step
      split
      · rename_i hs
        rw [Value.int.injEq] at hs
        have hadd := add_ofInt_sub x.id y.id
        rw [hs, toUInt64_zero, UInt64.add_zero] at hadd
        cases x
        cases y
        simp_all
      · simp only [hone, Int64.mul_one, add_ofInt_sub]
    · rename_i x y
      simp only [Option.ite_none_right_eq_some, Option.some.injEq] at h
      obtain ⟨-, rfl⟩ := h
      unfold Value.step
      split
      · rename_i hs
        rw [Value.int.injEq] at hs
        have hadd := add_ofInt_toInt_sub x y
        rw [hs, Int64.add_zero] at hadd
        rw [hadd]
      · simp only [hone, Int64.mul_one, add_ofInt_toInt_sub]
    · cases h

theorem Value.step_zero (x s : Value) : Value.step x s 0 = x := by
  have hzero : Int64.ofInt 0 = 0 := rfl
  unfold Value.step
  split
  · rfl
  · split <;> simp [hzero, toUInt64_zero]

theorem Value.step_step (x s : Value) (i j : Int) :
    Value.step (Value.step x s i) s j = Value.step x s (i + j) := by
  by_cases hs : s = .int 0
  · simp [Value.step, hs]
  · cases x <;> cases s <;> simp_all [Value.step]
    · grind
    · grind

theorem Value.displace_step (x s : Value) (i : Int) (d : Dsp) :
    (Value.step x s i).displace d = Value.step (x.displace d) s i := by
  by_cases hs : s = .int 0
  · simp [Value.step, hs]
  · cases x <;> cases s <;> simp_all [Value.step, Value.displace]
    grind

/-- A row and a stride of as many columns. -/
def Tuple.fits (t stride : Tuple) : Prop := t.cells.length = stride.cells.length

/-- The columns' strides take a cell list to the next one. -/
theorem strideTo_cells {as bs ss : List Value} (hlen : as.length = bs.length)
    (h : (as.zip bs).mapM (fun (x, y) => Value.strideTo x y) = some ss) :
    as.length = ss.length ∧ List.zipWith (fun c s => Value.step c s 1) as ss = bs := by
  induction as generalizing bs ss with
  | nil => cases bs <;> simp_all
  | cons a as ih => cases bs with
      | nil => simp at hlen
      | cons b bs =>
        simp only [List.zip_cons_cons, List.mapM_cons, Option.bind_eq_bind,
          Option.bind_eq_some_iff] at h
        obtain ⟨s, hs, ss', hss, h⟩ := h
        cases h
        obtain ⟨h₁, h₂⟩ := ih (by simpa using hlen) hss
        simp [h₁, h₂, Value.strideTo_step hs]

theorem Tuple.strideTo_spec {t next s : Tuple} (h : t.strideTo next = some s) :
    t.fits s ∧ t < next ∧ t.step s 1 = next := by
  unfold Tuple.strideTo at h
  split at h
  · cases h
  · rename_i hcond
    rw [not_or, not_not, not_le] at hcond
    rw [Option.map_eq_some_iff] at h
    obtain ⟨ss, hss, rfl⟩ := h
    obtain ⟨h₁, h₂⟩ := strideTo_cells hcond.1 hss
    exact ⟨h₁, hcond.2, by simp [Tuple.step, h₂]⟩

theorem Tuple.step_zero {t s : Tuple} (h : t.fits s) : t.step s 0 = t := by
  have cells_zero : ∀ as ss : List Value, as.length = ss.length →
      List.zipWith (fun c s => Value.step c s 0) as ss = as := by
    intro as
    induction as with
    | nil => simp
    | cons a as ih =>
      intro ss hlen
      cases ss with
      | nil => simp at hlen
      | cons s ss => rw [List.zipWith_cons_cons, ih ss (by simpa using hlen), Value.step_zero]
  simp [Tuple.step, cells_zero _ _ h]

theorem Tuple.step_step (t s : Tuple) (i j : Int) : (t.step s i).step s j = t.step s (i + j) := by
  have cells_step : ∀ as ss : List Value,
      List.zipWith (fun c s => Value.step c s j) (List.zipWith (fun c s => Value.step c s i) as ss)
        ss = List.zipWith (fun c s => Value.step c s (i + j)) as ss := by
    intro as
    induction as with
    | nil => simp
    | cons a as ih =>
      intro ss
      cases ss with
      | nil => simp
      | cons s ss => simp [Value.step_step, ih ss]
  simp [Tuple.step, cells_step]

theorem Tuple.displace_step (t s : Tuple) (i : Int) (d : Dsp) :
    (t.step s i).displace d = (t.displace d).step s i := by
  have cells_step : ∀ as ss : List Value,
      (List.zipWith (fun c s => Value.step c s i) as ss).map (Value.displace d)
        = List.zipWith (fun c s => Value.step c s i) (as.map (Value.displace d)) ss := by
    intro as
    induction as with
    | nil => simp
    | cons a as ih =>
      intro ss
      cases ss with
      | nil => simp
      | cons s ss => simp [Value.displace_step, ih ss]
  simp [Tuple.step, Tuple.displace_eq, cells_step]

/-- Rows move by their entity cells and step column by column. -/
instance instDisplaceTuple : Displace Tuple where
  displace := Tuple.displace
  cmpDisplaced := Tuple.cmpDisplaced
  cmpColumn := Tuple.cmpColumn
  strideTo := Tuple.strideTo
  step := Tuple.step
  fits := Tuple.fits
  displace_zero t := by simp [Tuple.displace]
  displace_displace := Tuple.displace_displace
  cmpDisplaced_eq := Tuple.cmpDisplaced_eq
  cmpColumn_eq := Tuple.cmpColumn_eq
  strideTo_fits _ _ _ h := (Tuple.strideTo_spec h).1
  strideTo_lt _ _ _ h := (Tuple.strideTo_spec h).2.1
  strideTo_step _ _ _ h := (Tuple.strideTo_spec h).2.2
  fits_step t s i h := by
    simp only [Tuple.fits, Tuple.step] at h ⊢
    simp [h]
  fits_displace t s d h := by
    simp only [Tuple.fits, Tuple.displace_eq] at h ⊢
    simpa using h
  step_zero _ _ h := Tuple.step_zero h
  step_step t s i j _ := Tuple.step_step t s i j
  displace_step t s i d _ := Tuple.displace_step t s i d

end Grmpl

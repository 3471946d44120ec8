import Mathlib.Data.List.Basic
import Mathlib.Order.Basic

/-!
# Bisection

The point where a predicate that holds on an initial segment stops holding,
found by halving an interval, on indices and on lists.

* `point n p`: bisection of `[0, n)`.
* `partitionPoint l p`: the length of the initial segment of `l` on which `p`
  holds, when `l` is divided by `p`.
-/

namespace Bisect

/-- Bisection of `[lo, hi)`, with fuel for its halvings. -/
def pointIn (p : Nat → Bool) : Nat → Nat → Nat → Nat
  | 0, lo, _ => lo
  | fuel + 1, lo, hi =>
      if lo < hi then
        let mid := lo + (hi - lo) / 2
        if p mid then pointIn p fuel (mid + 1) hi else pointIn p fuel lo mid
      else lo

/-- The first index of `[0, n)` at which `p` fails. -/
def point (n : Nat) (p : Nat → Bool) : Nat := pointIn p n 0 n

/-- The number of leading elements of a divided list on which `p` holds. -/
def partitionPoint {α : Type*} (l : List α) (p : α → Bool) : Nat :=
  point l.length fun i => l[i]?.any p

/-- Bisection keeps its boundary invariant: `p` holds below the lower end and
fails from the upper end on. -/
theorem pointIn_spec {n : Nat} {p : Nat → Bool}
    (mono : ∀ i j, i ≤ j → j < n → p j = true → p i = true) :
    ∀ fuel lo hi, hi - lo ≤ fuel → lo ≤ hi → hi ≤ n →
      (∀ i, i < lo → p i = true) → (∀ i, hi ≤ i → i < n → p i = false) →
      pointIn p fuel lo hi ≤ n ∧ (∀ i, i < pointIn p fuel lo hi → p i = true) ∧
        ∀ i, pointIn p fuel lo hi ≤ i → i < n → p i = false := by
  intro fuel
  induction fuel with
  | zero =>
    intro lo hi hfuel hle hn hlo hhi
    have heq : lo = hi := by omega
    subst heq
    exact ⟨hn, hlo, hhi⟩
  | succ fuel ih =>
    intro lo hi hfuel hle hn hlo hhi
    unfold pointIn
    split
    · rename_i hlt
      dsimp only
      generalize hmid : lo + (hi - lo) / 2 = mid
      split
      · rename_i hp
        refine ih _ _ (by omega) (by omega) hn ?_ hhi
        intro i hi'
        exact mono i mid (by omega) (by omega) hp
      · rename_i hp
        refine ih _ _ (by omega) (by omega) (by omega) hlo ?_
        intro i hi' hin
        by_contra hpi
        rw [Bool.not_eq_false] at hpi
        exact hp (mono mid i hi' hin hpi)
    · have heq : lo = hi := by omega
      subst heq
      exact ⟨hn, hlo, hhi⟩

theorem point_spec {n : Nat} {p : Nat → Bool}
    (mono : ∀ i j, i ≤ j → j < n → p j = true → p i = true) :
    point n p ≤ n ∧ (∀ i, i < point n p → p i = true) ∧
      ∀ i, point n p ≤ i → i < n → p i = false :=
  pointIn_spec mono n 0 n (by omega) (by omega) (by omega) (by omega) (by omega)

/-- Bisection stays in its range, whatever the predicate. -/
theorem pointIn_le {p : Nat → Bool} : ∀ {fuel lo hi : Nat}, lo ≤ hi → pointIn p fuel lo hi ≤ hi := by
  intro fuel
  induction fuel with
  | zero => exact fun hle => hle
  | succ fuel ih =>
    intro lo hi hle
    unfold pointIn
    split
    · rename_i hlt
      dsimp only
      split
      · exact ih (by omega)
      · have hmid : lo + (hi - lo) / 2 ≤ hi := by omega
        exact Nat.le_trans (ih (Nat.le_add_right _ _)) hmid
    · exact hle

theorem point_le (n : Nat) (p : Nat → Bool) : point n p ≤ n := pointIn_le (Nat.zero_le n)

/-- The boundary is the only one. -/
theorem point_eq {n m : Nat} {p : Nat → Bool} (hm : m ≤ n) (hlo : ∀ i, i < m → p i = true)
    (hhi : ∀ i, m ≤ i → i < n → p i = false) : point n p = m := by
  have mono : ∀ i j, i ≤ j → j < n → p j = true → p i = true := by
    intro i j hij hj hp
    by_cases hjm : j < m
    · exact hlo i (by omega)
    · rw [hhi j (by omega) hj] at hp
      cases hp
  obtain ⟨h₁, h₂, h₃⟩ := point_spec mono
  by_contra hne
  rcases Nat.lt_or_gt_of_ne hne with h | h
  · have hlast := h₃ (point n p) (Nat.le_refl _) (by omega)
    rw [hlo _ h] at hlast
    cases hlast
  · have hfirst := h₂ m h
    rw [hhi m (Nat.le_refl m) (by omega)] at hfirst
    cases hfirst

/-- A list divided by `p` is cut where `p` stops holding. -/
theorem partitionPoint_append {α : Type*} {p : α → Bool} {a b : List α}
    (ha : ∀ x ∈ a, p x = true) (hb : ∀ x ∈ b, p x = false) :
    partitionPoint (a ++ b) p = a.length := by
  refine point_eq (by simp) ?_ ?_
  · intro i hi
    rw [List.getElem?_append_left hi, List.getElem?_eq_getElem hi]
    exact ha _ (List.getElem_mem hi)
  · intro i hi hlen
    rw [List.getElem?_append_right hi]
    cases hx : b[i - a.length]? with
    | none => rfl
    | some x => exact hb x (List.mem_of_getElem? hx)

/-- A list along which `p` only turns false is divided by it. -/
theorem exists_divided {α : Type*} {p : α → Bool} {l : List α}
    (h : l.Pairwise fun x y => p y = true → p x = true) :
    ∃ a b, l = a ++ b ∧ (∀ x ∈ a, p x = true) ∧ ∀ x ∈ b, p x = false := by
  induction l with
  | nil => exact ⟨[], [], rfl, by simp, by simp⟩
  | cons x l ih =>
    rw [List.pairwise_cons] at h
    cases hp : p x with
    | true =>
      obtain ⟨a, b, rfl, ha, hb⟩ := ih h.2
      exact ⟨x :: a, b, rfl, by simpa [hp] using ha, hb⟩
    | false =>
      refine ⟨[], x :: l, rfl, by simp, ?_⟩
      intro y hy
      rcases List.mem_cons.1 hy with rfl | hy
      · exact hp
      · by_contra hpy
        rw [Bool.not_eq_false] at hpy
        rw [h.1 y hy hpy] at hp
        cases hp

theorem pointIn_pos {p : Nat → Bool} (hfirst : p 0 = true) : ∀ {fuel lo hi : Nat}, hi - lo ≤ fuel → lo ≤ hi → 0 < hi →
    0 < pointIn p fuel lo hi := by
  intro fuel
  induction fuel with
  | zero =>
    intro lo hi hfuel hle hhi
    show 0 < lo
    omega
  | succ fuel ih =>
    intro lo hi hfuel hle hhi
    unfold pointIn
    split
    · dsimp only
      generalize hmid : lo + (hi - lo) / 2 = mid
      split
      · exact ih (by omega) (by omega) hhi
      · rename_i hp
        have hne : mid ≠ 0 := by
          rintro rfl
          exact hp hfirst
        exact ih (by omega) (by omega) (by omega)
    · omega

theorem pointIn_lt {n : Nat} {p : Nat → Bool} (hlast : p (n - 1) = false) : ∀ {fuel lo hi : Nat}, lo < n → hi ≤ n →
    pointIn p fuel lo hi < n := by
  intro fuel
  induction fuel with
  | zero => exact fun hlo _ => hlo
  | succ fuel ih =>
    intro lo hi hlo hhi
    unfold pointIn
    split
    · dsimp only
      generalize hmid : lo + (hi - lo) / 2 = mid
      split
      · rename_i hp
        have hne : mid ≠ n - 1 := by
          rintro rfl
          exact absurd hp (by rw [hlast]; decide)
        exact ih (by omega) hhi
      · exact ih hlo (by omega)
    · exact hlo

/-- Bisection of a range whose ends a predicate tells apart stops inside it. -/
theorem point_inside {n : Nat} {p : Nat → Bool} (hn : 0 < n) (hfirst : p 0 = true) (hlast : p (n - 1) = false) :
    0 < point n p ∧ point n p < n :=
  ⟨pointIn_pos hfirst (by omega) (Nat.zero_le n) hn, pointIn_lt hlast hn (Nat.le_refl n)⟩

end Bisect

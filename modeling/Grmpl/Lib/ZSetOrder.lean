import Grmpl.Lib.ZSet
import Mathlib.Algebra.Order.BigOperators.Group.Finset
import Mathlib.Algebra.Order.Module.Defs
import Mathlib.Data.Finsupp.Order
import Mathlib.LinearAlgebra.Finsupp.LSum
import Mathlib.LinearAlgebra.Span.Basic

/-!
# Signed collections in order

One signed collection is below another if no key weighs more in it. What sends each key on,
or each pair of keys, is linear in what the collections denote, and so keeps the order
where nothing weighs less than nothing.

* `ZSet.spread`, `ZSet.cross`: every key sent on, every pair of keys sent on.
* `ZSet.spread_mono`, `ZSet.cross_mono`: what they keep.
* `ZSet.positive_mono`: more weight, more present.
-/

namespace ZSet

section Linear

variable {K L M : Type*}

/-- Every key sent on with its weight, or dropped. -/
noncomputable def spread (h : K → Option M) : (K →₀ ℤ) →ₗ[ℤ] (M →₀ ℤ) :=
  Finsupp.lsum ℤ fun k => match h k with
    | some m => Finsupp.lsingle m
    | none => 0

/-- Every pair of keys sent on with the product of their weights, or dropped. -/
noncomputable def cross (h : K → L → Option M) : (K →₀ ℤ) →ₗ[ℤ] (L →₀ ℤ) →ₗ[ℤ] (M →₀ ℤ) :=
  Finsupp.lsum ℤ fun k => LinearMap.toSpanSingleton ℤ _ (spread (h k))

theorem spread_single (h : K → Option M) (k : K) (w : ℤ) :
    spread h (Finsupp.single k w) = match h k with
      | some m => Finsupp.single m w
      | none => 0 := by
  rw [spread, Finsupp.lsum_single]
  cases h k <;> simp

theorem cross_single (h : K → L → Option M) (k : K) (w : ℤ) (v : L →₀ ℤ) :
    cross h (Finsupp.single k w) v = w • spread (h k) v := by
  rw [cross, Finsupp.lsum_single, LinearMap.toSpanSingleton_apply]
  rfl

/-- What a list of keys sent on sums to. -/
theorem total_filterMap (h : K → Option M) (l : List (K × ℤ)) :
    total (l.filterMap fun e => (h e.1).map (·, e.2)) = spread h (total l) := by
  induction l with
  | nil => simp
  | cons e l ih =>
    rw [total_cons, map_add, spread_single, ← ih]
    cases he : h e.1 with
    | none => simp [he]
    | some m => simp [he]

theorem spread_nonneg (h : K → Option M) {v : K →₀ ℤ} (hv : 0 ≤ v) : 0 ≤ spread h v := by
  rw [spread, Finsupp.lsum_apply]
  refine Finset.sum_nonneg fun k _ => ?_
  dsimp only
  cases h k with
  | none => exact le_refl (0 : M →₀ ℤ)
  | some m => exact Finsupp.single_nonneg.2 (hv k)

theorem spread_mono (h : K → Option M) {v v' : K →₀ ℤ} (hv : v ≤ v') : spread h v ≤ spread h v' := by
  have hdiff := spread_nonneg h (sub_nonneg.2 hv)
  rwa [map_sub, sub_nonneg] at hdiff

theorem cross_nonneg (h : K → L → Option M) {v : K →₀ ℤ} {u : L →₀ ℤ} (hv : 0 ≤ v) (hu : 0 ≤ u) :
    0 ≤ cross h v u := by
  rw [cross, Finsupp.lsum_apply, Finsupp.sum, LinearMap.sum_apply]
  refine Finset.sum_nonneg fun k _ => ?_
  rw [LinearMap.toSpanSingleton_apply]
  exact smul_nonneg (hv k) (spread_nonneg (h k) hu)

/-- More on the left is more, beside what weighs nothing less than nothing. -/
theorem cross_mono_left (h : K → L → Option M) {v v' : K →₀ ℤ} {u : L →₀ ℤ} (hv : v ≤ v') (hu : 0 ≤ u) :
    cross h v u ≤ cross h v' u := by
  have hdiff := cross_nonneg h (sub_nonneg.2 hv) hu
  rwa [map_sub, LinearMap.sub_apply, sub_nonneg] at hdiff

theorem cross_mono_right (h : K → L → Option M) {v : K →₀ ℤ} {u u' : L →₀ ℤ} (hv : 0 ≤ v) (hu : u ≤ u') :
    cross h v u ≤ cross h v u' := by
  have hdiff := cross_nonneg h hv (sub_nonneg.2 hu)
  rwa [map_sub, sub_nonneg] at hdiff

end Linear

section Order

variable {K : Type*} [LinearOrder K] {m n : ZSet K}

/-- No key weighs more. -/
noncomputable instance : Preorder (ZSet K) := Preorder.lift den

theorem le_iff : m ≤ n ↔ ∀ k, m.weight k ≤ n.weight k := by
  simp only [← den_apply]
  exact Iff.rfl

/-- The more a key weighs, the sooner it is present. -/
theorem positive_mono (h : m ≤ n) : m.positive ≤ n.positive := by
  refine le_iff.2 fun k => ?_
  have hk := le_iff.1 h k
  rw [weight_positive, weight_positive]
  split_ifs <;> omega

theorem positive_nonneg (m : ZSet K) : 0 ≤ m.positive.den := fun k => by
  rw [den_apply, weight_positive]
  split_ifs <;> simp

/-- Collections in order with nothing between them are one, if neither keeps a zero. -/
theorem eq_of_le_of_le (hm : m.Clean) (hn : n.Clean) (h : m ≤ n) (h' : n ≤ m) : m = n :=
  ext_of_den hm hn (le_antisymm (show m.den ≤ n.den from h) h')

end Order

end ZSet

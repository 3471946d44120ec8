import Grmpl.Lib.ZSetOrder

/-!
# Changes of signed collections

What takes one signed collection to another is the difference of what they denote. What
sends keys on, alone or in pairs, sends a change on to a change, and only the keys that are
sent on somewhere matter to it.

* `ZSet.difference`: both ends in hand, one taken from the other.
* `ZSet.Change`: what takes one collection to another.
* `ZSet.spread_spread`, `ZSet.spread_filter`: keys sent on twice, and keys sent nowhere.
* `ZSet.cross_filter_right`, `ZSet.cross_filter_left`: keys that pair with none.
* `ZSet.cross_change`: the rule of products.
-/

open OrdMap

namespace ZSet

section Linear

variable {K L M : Type*}

theorem spread_eq_sum (h : K → Option M) (v : K →₀ ℤ) :
    spread h v = v.sum fun k w => match h k with
      | some m => Finsupp.single m w
      | none => 0 := by
  rw [spread, Finsupp.lsum_apply]
  refine Finsupp.sum_congr fun k _ => ?_
  cases h k <;> rfl

theorem cross_eq_sum (h : K → L → Option M) (v : K →₀ ℤ) (u : L →₀ ℤ) :
    cross h v u = v.sum fun k w => w • spread (h k) u := by
  rw [cross, Finsupp.lsum_apply, Finsupp.sum, LinearMap.sum_apply]
  rfl

/-- Only the keys that weigh something are sent on. -/
theorem spread_congr {h h' : K → Option M} {v : K →₀ ℤ} (hv : ∀ k, v k ≠ 0 → h k = h' k) :
    spread h v = spread h' v := by
  rw [spread_eq_sum, spread_eq_sum]
  exact Finsupp.sum_congr fun k hk => by rw [hv k (Finsupp.mem_support_iff.1 hk)]

/-- Every key sent where it is, or dropped. -/
theorem filter_eq_spread (p : K → Prop) [DecidablePred p] (v : K →₀ ℤ) :
    v.filter p = spread (fun k => if p k then some k else none) v := by
  induction v using Finsupp.induction_linear with
  | zero => rw [Finsupp.filter_zero, map_zero]
  | add v u hv hu => rw [Finsupp.filter_add, map_add, hv, hu]
  | single k w =>
    rw [spread_single]
    by_cases hk : p k
    · rw [Finsupp.filter_single_of_pos p hk, if_pos hk]
    · rw [Finsupp.filter_single_of_neg p hk, if_neg hk]

/-- Keys sent on, and on again. -/
theorem spread_spread (g : L → Option M) (h : K → Option L) (v : K →₀ ℤ) :
    spread g (spread h v) = spread (fun k => (h k).bind g) v := by
  induction v using Finsupp.induction_linear with
  | zero => simp
  | add v u hv hu => rw [map_add, map_add, map_add, hv, hu]
  | single k w =>
    rw [spread_single, spread_single]
    cases h k with
    | none => simp
    | some l => rw [spread_single]; rfl

/-- Keys that are sent nowhere may be left out. -/
theorem spread_filter (h : K → Option M) (p : K → Prop) [DecidablePred p] {v : K →₀ ℤ}
    (hp : ∀ k, v k ≠ 0 → ¬ p k → h k = none) : spread h (v.filter p) = spread h v := by
  rw [filter_eq_spread, spread_spread]
  refine spread_congr fun k hk => ?_
  by_cases hpk : p k
  · rw [if_pos hpk, Option.bind_some]
  · rw [if_neg hpk, Option.bind_none, hp k hk hpk]

/-- What no key is sent to weighs nothing. -/
theorem spread_apply_of_none (h : K → Option M) {v : K →₀ ℤ} {m : M} (hm : ∀ k, v k ≠ 0 → h k ≠ some m) :
    spread h v m = 0 := by
  rw [spread_eq_sum, Finsupp.sum, Finsupp.finsetSum_apply]
  refine Finset.sum_eq_zero fun k hk => ?_
  have hne := hm k (Finsupp.mem_support_iff.1 hk)
  cases hh : h k with
  | none => rfl
  | some m' => exact Finsupp.single_eq_of_ne fun heq => hne (by rw [hh, heq])

/-- Only the keys that are sent to it matter to what a key weighs. -/
theorem spread_filter_apply (h : K → Option M) (p : K → Prop) [DecidablePred p] {v : K →₀ ℤ} {m : M}
    (hp : ∀ k, v k ≠ 0 → h k = some m → p k) : spread h (v.filter p) m = spread h v m := by
  have hrest : spread h (v.filter fun k => ¬ p k) m = 0 := spread_apply_of_none h fun k hk hm => by
    rw [Finsupp.filter_apply] at hk
    split_ifs at hk with hnot
    · exact hk rfl
    · exact hnot (hp k hk hm)
  have hsplit := congrArg (spread h · m) (Finsupp.filter_add_filter_not v p)
  rw [map_add, Finsupp.add_apply, hrest, add_zero] at hsplit
  exact hsplit

/-- What one key alone is sent to weighs what the key does. -/
theorem spread_apply_of_iff {h : K → Option M} {k : K} {m : M} (hk : ∀ k', h k' = some m ↔ k' = k)
    (v : K →₀ ℤ) : spread h v m = v k := by
  classical
  induction v using Finsupp.induction_linear with
  | zero => simp
  | add v u hv hu => rw [map_add, Finsupp.add_apply, Finsupp.add_apply, hv, hu]
  | single k' w =>
    rw [spread_single, Finsupp.single_apply]
    by_cases hkk : k' = k
    · rw [(hk k').2 hkk, if_pos hkk]
      exact Finsupp.single_eq_same
    · rw [if_neg hkk]
      cases hh : h k' with
      | none => rfl
      | some m' =>
        exact Finsupp.single_eq_of_ne fun hm => hkk ((hk k').1 (by rw [hh, hm]))

/-- Keys on the right that pair with none may be left out. -/
theorem cross_filter_right (h : K → L → Option M) (p : L → Prop) [DecidablePred p] {v : K →₀ ℤ}
    {u : L →₀ ℤ} (hp : ∀ k, v k ≠ 0 → ∀ l, u l ≠ 0 → ¬ p l → h k l = none) :
    cross h v (u.filter p) = cross h v u := by
  rw [cross_eq_sum, cross_eq_sum]
  exact Finsupp.sum_congr fun k hk => by
    rw [spread_filter (h k) p (hp k (Finsupp.mem_support_iff.1 hk))]

theorem spread_none (h : K → Option M) {v : K →₀ ℤ} (hv : ∀ k, v k ≠ 0 → h k = none) : spread h v = 0 := by
  rw [spread_eq_sum, Finsupp.sum]
  exact Finset.sum_eq_zero fun k hk => by rw [hv k (Finsupp.mem_support_iff.1 hk)]

/-- Keys on the left that pair with none may be left out. -/
theorem cross_filter_left (h : K → L → Option M) (p : K → Prop) [DecidablePred p] {v : K →₀ ℤ}
    {u : L →₀ ℤ} (hp : ∀ k, v k ≠ 0 → ¬ p k → ∀ l, u l ≠ 0 → h k l = none) :
    cross h (v.filter p) u = cross h v u := by
  classical
  rw [cross_eq_sum, cross_eq_sum, Finsupp.sum, Finsupp.sum, Finsupp.support_filter]
  refine Finset.sum_subset_zero_on_sdiff (Finset.filter_subset _ _) (fun k hk => ?_) fun k hk => ?_
  · obtain ⟨hmem, hnot⟩ := Finset.mem_sdiff.1 hk
    have hpk : ¬ p k := fun hpk => hnot (Finset.mem_filter.2 ⟨hmem, hpk⟩)
    rw [spread_none (h k) (hp k (Finsupp.mem_support_iff.1 hmem) hpk), smul_zero]
  · rw [Finsupp.filter_apply_pos p v (Finset.mem_filter.1 hk).2]

/-- **The rule of products**: the change of one side against the other as it ends, and the
other way round, less the change of both. -/
theorem cross_change (h : K → L → Option M) (v v' : K →₀ ℤ) (u u' : L →₀ ℤ) :
    cross h (v' - v) u' + cross h v' (u' - u) - cross h (v' - v) (u' - u) = cross h v' u' - cross h v u := by
  simp only [map_sub, LinearMap.sub_apply]
  abel

end Linear

section Lists

variable {K : Type*}

/-- A key listed once sums to its weight. -/
theorem total_apply_of_mem {l : List (K × ℤ)} (hl : l.Pairwise fun a b => a.1 ≠ b.1) {e : K × ℤ}
    (he : e ∈ l) : total l e.1 = e.2 := by
  induction l with
  | nil => exact absurd he (by simp)
  | cons a l ih =>
    obtain ⟨ha, hl⟩ := List.pairwise_cons.1 hl
    rw [total_cons, Finsupp.add_apply]
    rcases List.mem_cons.1 he with rfl | he
    · rw [Finsupp.single_eq_same, total_apply_of_absent fun x hx => (ha x hx).symm, add_zero]
    · rw [Finsupp.single_eq_of_ne (ha e he).symm, ih hl he, zero_add]

end Lists

variable {K : Type*} [LinearOrder K] {l : List (K × ℤ)} {d d' m n : ZSet K}

/-- A raise by nothing is as good as none. -/
theorem addAll_nonzero (m : ZSet K) (l : List (K × ℤ)) : m.addAll (l.filter fun e => e.2 ≠ 0) = m.addAll l := by
  induction l generalizing m with
  | nil => rfl
  | cons e l ih =>
    by_cases he : e.2 = 0
    · rw [List.filter_cons_of_neg (by simpa using he), ih, addAll, addAll, List.foldl_cons, add, if_pos he]
    · rw [List.filter_cons_of_pos (by simpa using he)]
      exact ih _

/-- Keys added once each leave no zero entry. -/
theorem clean_addAll (hl : l.Pairwise fun a b => a.1 ≠ b.1) : (empty.addAll l).Clean := by
  rw [← addAll_nonzero]
  have hnd := hl.filter fun e => e.2 ≠ 0
  intro e he
  rcases mem_addAll he with ⟨x, hx, -⟩ | ⟨x, hx, hxe⟩
  · exact absurd hx (by simp [empty])
  · rw [← weight_of_mem he, ← den_apply, den_addAll, den_empty, zero_add, ← hxe, total_apply_of_mem hnd hx]
    simpa using (List.mem_filter.1 hx).2

/-- One collection taken from another. -/
def difference (n m : ZSet K) : ZSet K := (n.merge m.negate).strip

/-- What takes one collection to another, without zero entries. -/
structure Change (d m n : ZSet K) : Prop where
  clean : d.Clean
  den : d.den = n.den - m.den

theorem change_difference (n m : ZSet K) : Change (n.difference m) m n :=
  ⟨clean_strip _, by rw [difference, den_strip, den_merge, den_negate, sub_eq_add_neg]⟩

theorem Change.unique (h : Change d m n) (h' : Change d' m n) : d = d' :=
  ext_of_den h.clean h'.clean (h.den.trans h'.den.symm)

theorem Change.self (m : ZSet K) : Change empty m m := ⟨clean_empty, by rw [den_empty, sub_self]⟩

theorem Change.weight (h : Change d m n) (k : K) : d.weight k = n.weight k - m.weight k := by
  rw [← den_apply, h.den, Finsupp.sub_apply, den_apply, den_apply]

theorem Change.of_weight (hd : d.Clean) (h : ∀ k, d.weight k = n.weight k - m.weight k) : Change d m n :=
  ⟨hd, Finsupp.ext fun k => by
    rw [Finsupp.sub_apply, den_apply, den_apply, den_apply, h]⟩

/-- A key that changed is at one of the ends. -/
theorem Change.mem (h : Change d m n) {e : K × ℤ} (he : e ∈ d.rows) :
    (∃ w, (e.1, w) ∈ m.rows) ∨ ∃ w, (e.1, w) ∈ n.rows := by
  have hw := h.weight e.1
  rw [weight_of_mem he] at hw
  by_cases hn : n.weight e.1 = 0
  · refine .inl ⟨_, mem_of_weight (m := m) (k := e.1) fun hm => h.clean e he ?_⟩
    rw [hw, hn, hm, sub_zero]
  · exact .inr ⟨_, mem_of_weight hn⟩

end ZSet

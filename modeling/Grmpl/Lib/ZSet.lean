import Grmpl.Lib.OrdMap
import Mathlib.Algebra.BigOperators.Finsupp.Basic
import Mathlib.Data.Finsupp.Basic

/-!
# Signed collections

A finite map from keys to integer weights, its entries in ascending key order.
An entry of weight zero may stand until it is stripped, so two maps can agree on
every key and still differ; the finitely supported function a map denotes forgets
such entries.

* `ZSet`: the map, with its order.
* `ZSet.add`, `ZSet.merge`, `ZSet.strip`, `ZSet.ofPairs`: building one up.
* `ZSet.den`: what a map denotes, in which every operation is linear algebra.
* `ZSet.Clean`, `ZSet.ext_of_den`: without zero entries, what it denotes is all there is.
* `ZSet.positive`: the keys present, each at weight one.
-/

open OrdMap

namespace ZSet

section Total

variable {K L : Type*}

/-! ## What a list of weighted keys sums to -/

/-- The sum of a list of weighted keys. -/
noncomputable def total (l : List (K × ℤ)) : K →₀ ℤ := (l.map fun e => Finsupp.single e.1 e.2).sum

@[simp] theorem total_nil : total ([] : List (K × ℤ)) = 0 := rfl

@[simp] theorem total_cons (e : K × ℤ) (l : List (K × ℤ)) :
    total (e :: l) = Finsupp.single e.1 e.2 + total l := rfl

@[simp] theorem total_append (l l' : List (K × ℤ)) : total (l ++ l') = total l + total l' := by
  simp [total]

theorem total_perm {l l' : List (K × ℤ)} (h : l.Perm l') : total l = total l' :=
  (h.map _).sum_eq

theorem total_filter (p : K → Bool) (l : List (K × ℤ)) :
    total (l.filter fun e => p e.1) = (total l).filter (p · = true) := by
  induction l with
  | nil => exact (Finsupp.filter_zero _).symm
  | cons e l ih =>
    by_cases he : p e.1 = true
    · rw [List.filter_cons_of_pos (by simpa using he), total_cons, total_cons, ih,
        Finsupp.filter_add, Finsupp.filter_single_of_pos (p · = true) he]
    · rw [List.filter_cons_of_neg (by simpa using he), total_cons, ih, Finsupp.filter_add,
        Finsupp.filter_single_of_neg (p · = true) he, zero_add]

theorem total_neg (l : List (K × ℤ)) : total (l.map fun e => (e.1, -e.2)) = -total l := by
  induction l with
  | nil => simp
  | cons e l ih => simp [ih, add_comm]

theorem total_nonzero (l : List (K × ℤ)) : total (l.filter fun e => e.2 ≠ 0) = total l := by
  induction l with
  | nil => rfl
  | cons e l ih =>
    by_cases he : e.2 = 0
    · rw [List.filter_cons_of_neg (by simpa using he), total_cons, he, Finsupp.single_zero,
        zero_add, ih]
    · rw [List.filter_cons_of_pos (by simpa using he), total_cons, total_cons, ih]

/-- A key the list does not name sums to nothing. -/
theorem total_apply_of_absent {l : List (K × ℤ)} {k : K} (h : ∀ e ∈ l, e.1 ≠ k) :
    total l k = 0 := by
  induction l with
  | nil => rfl
  | cons e l ih =>
    rw [total_cons, Finsupp.add_apply, Finsupp.single_eq_of_ne (h e (by simp)).symm,
      ih fun e' he' => h e' (by simp [he']), zero_add]

end Total

end ZSet

/-- Weighted keys in strictly ascending order. -/
@[ext] structure ZSet (K : Type*) [LinearOrder K] where
  rows : List (K × ℤ)
  sorted : Sorted rows

namespace ZSet

variable {K L : Type*} [LinearOrder K] [LinearOrder L]

instance : DecidableEq (ZSet K) := fun a b =>
  decidable_of_iff (a.rows = b.rows) ZSet.ext_iff.symm

/-- The weight of a key, zero where the map has no entry. -/
def weight (m : ZSet K) (k : K) : ℤ := (lookup k m.rows).getD 0

def empty : ZSet K := ⟨[], List.Pairwise.nil⟩

instance : Inhabited (ZSet K) := ⟨empty⟩

/-- A key's weight raised; a raise by nothing leaves no entry behind. -/
def add (m : ZSet K) (k : K) (d : ℤ) : ZSet K :=
  if d = 0 then m else ⟨put k (m.weight k + d) m.rows, sorted_put m.sorted⟩

/-- Weighted keys added one after another. -/
def addAll (m : ZSet K) (l : List (K × ℤ)) : ZSet K := l.foldl (fun m e => m.add e.1 e.2) m

def merge (m n : ZSet K) : ZSet K := m.addAll n.rows

/-- The entries that pass a test on the key. -/
def filter (p : K → Bool) (m : ZSet K) : ZSet K := ⟨m.rows.filter fun e => p e.1, m.sorted.filter _⟩

/-- Zero entries dropped. -/
def strip (m : ZSet K) : ZSet K := ⟨m.rows.filter fun e => e.2 ≠ 0, m.sorted.filter _⟩

def ofPairs (l : List (K × ℤ)) : ZSet K := (empty.addAll l).strip

theorem sorted_map_weight {l : List (K × ℤ)} (h : Sorted l) (g : ℤ → ℤ) :
    Sorted (l.map fun e => (e.1, g e.2)) := List.pairwise_map.2 h

def negate (m : ZSet K) : ZSet K :=
  ⟨m.rows.map fun e => (e.1, -e.2), sorted_map_weight m.sorted _⟩

/-- The keys of positive weight, each at weight one. -/
def positive (m : ZSet K) : ZSet K :=
  ⟨(m.rows.filter fun e => 0 < e.2).map fun e => (e.1, 1),
    sorted_map_weight (m.sorted.filter _) fun _ => 1⟩

/-! ## What a map denotes -/

/-- The finitely supported function a map stands for. -/
noncomputable def den (m : ZSet K) : K →₀ ℤ := total m.rows

theorem den_apply (m : ZSet K) (k : K) : m.den k = m.weight k := by
  obtain ⟨rows, hs⟩ := m
  show total rows k = (lookup k rows).getD 0
  induction rows with
  | nil => rfl
  | cons e l ih =>
    have hs' : ∀ x ∈ l, e.1 < x.1 := (List.pairwise_cons.1 hs).1
    rw [total_cons, Finsupp.add_apply]
    by_cases hk : e.1 = k
    · subst hk
      rw [total_apply_of_absent fun x hx => (hs' x hx).ne', lookup_of_mem (v := e.2) hs (by simp)]
      simp
    · have hskip := lookup_append (b := l) (a := [e]) (k := k) (by simpa using hk)
      rw [Finsupp.single_eq_of_ne (Ne.symm hk), zero_add, ih (List.pairwise_cons.1 hs).2]
      exact congrArg (·.getD 0) hskip.symm

@[simp] theorem den_empty : (empty : ZSet K).den = 0 := rfl

theorem weight_add (m : ZSet K) (k k' : K) (d : ℤ) :
    (m.add k d).weight k' = m.weight k' + if k' = k then d else 0 := by
  unfold add
  split_ifs with hd hk hk
  · rw [hd, add_zero]
  · rw [add_zero]
  · show (lookup k' (put _ _ _)).getD 0 = _
    rw [hk, lookup_put_self]
    rfl
  · show (lookup k' (put _ _ _)).getD 0 = _
    rw [lookup_put_ne hk, add_zero]
    rfl

@[simp] theorem den_add (m : ZSet K) (k : K) (d : ℤ) :
    (m.add k d).den = m.den + Finsupp.single k d := by
  ext k'
  rw [den_apply, weight_add, Finsupp.add_apply, den_apply, Finsupp.single_apply]
  by_cases hk : k' = k
  · rw [if_pos hk, if_pos hk.symm]
  · rw [if_neg hk, if_neg (Ne.symm hk)]

@[simp] theorem den_addAll (l : List (K × ℤ)) (m : ZSet K) :
    (m.addAll l).den = m.den + total l := by
  induction l generalizing m with
  | nil => exact (add_zero _).symm
  | cons e l ih =>
    show ((m.add e.1 e.2).addAll l).den = _
    rw [ih, den_add, total_cons, add_assoc]

@[simp] theorem den_merge (m n : ZSet K) : (m.merge n).den = m.den + n.den := den_addAll _ _

@[simp] theorem den_strip (m : ZSet K) : m.strip.den = m.den := total_nonzero _

@[simp] theorem den_ofPairs (l : List (K × ℤ)) : (ofPairs l).den = total l := by
  simp [ofPairs]

@[simp] theorem den_negate (m : ZSet K) : m.negate.den = -m.den := total_neg _

@[simp] theorem den_filter (p : K → Bool) (m : ZSet K) :
    (m.filter p).den = m.den.filter (p · = true) := total_filter _ _

/-! ## The keys of what is added -/

theorem mem_add {m : ZSet K} {k : K} {d : ℤ} {e : K × ℤ} (h : e ∈ (m.add k d).rows) :
    k = e.1 ∨ ∃ x ∈ m.rows, x.1 = e.1 := by
  unfold add at h
  split_ifs at h
  · exact .inr ⟨e, h, rfl⟩
  · rcases mem_put h with rfl | h
    · exact .inl rfl
    · exact .inr ⟨e, h, rfl⟩

theorem mem_addAll {l : List (K × ℤ)} {e : K × ℤ} : ∀ {m : ZSet K}, e ∈ (m.addAll l).rows →
    (∃ x ∈ m.rows, x.1 = e.1) ∨ ∃ x ∈ l, x.1 = e.1 := by
  induction l with
  | nil => exact fun h => .inl ⟨e, h, rfl⟩
  | cons x l ih =>
    intro m h
    rcases ih (m := m.add x.1 x.2) h with ⟨y, hy, hye⟩ | ⟨y, hy, hye⟩
    · rcases mem_add hy with hx | ⟨z, hz, hzy⟩
      · exact .inr ⟨x, List.mem_cons_self, hx.trans hye⟩
      · exact .inl ⟨z, hz, hzy.trans hye⟩
    · exact .inr ⟨y, List.mem_cons_of_mem x hy, hye⟩

theorem mem_ofPairs {l : List (K × ℤ)} {e : K × ℤ} (h : e ∈ (ofPairs l).rows) :
    ∃ x ∈ l, x.1 = e.1 := by
  rcases mem_addAll (List.mem_filter.1 h).1 with ⟨x, hx, -⟩ | hx
  · exact absurd hx (by simp [empty])
  · exact hx

theorem mem_positive_rows {m : ZSet K} {e : K × ℤ} (h : e ∈ m.positive.rows) : ∃ x ∈ m.rows, x.1 = e.1 := by
  obtain ⟨x, hx, rfl⟩ := List.mem_map.1 h
  exact ⟨x, (List.mem_filter.1 hx).1, rfl⟩

/-! ## Maps without zero entries -/

/-- Every entry weighs something. -/
def Clean (m : ZSet K) : Prop := ∀ e ∈ m.rows, e.2 ≠ 0

theorem clean_empty : (empty : ZSet K).Clean := fun _ he => absurd he (by simp [empty])

theorem clean_strip (m : ZSet K) : m.strip.Clean := fun e he => by
  simpa using (List.mem_filter.1 he).2

theorem clean_ofPairs (l : List (K × ℤ)) : (ofPairs l).Clean := clean_strip _

theorem Clean.filter {m : ZSet K} (h : m.Clean) (p : K → Bool) : (m.filter p).Clean :=
  fun e he => h e (List.mem_filter.1 he).1

theorem Clean.negate {m : ZSet K} (h : m.Clean) : m.negate.Clean := by
  intro e he
  obtain ⟨e', he', rfl⟩ := List.mem_map.1 he
  simpa using h e' he'

theorem clean_positive (m : ZSet K) : m.positive.Clean := by
  intro e he
  obtain ⟨e', _, rfl⟩ := List.mem_map.1 he
  exact one_ne_zero

/-- An entry is a key with its weight. -/
theorem weight_of_mem {m : ZSet K} {e : K × ℤ} (h : e ∈ m.rows) : m.weight e.1 = e.2 := by
  rw [weight, lookup_of_mem m.sorted h]
  rfl

theorem mem_of_weight {m : ZSet K} {k : K} (h : m.weight k ≠ 0) : (k, m.weight k) ∈ m.rows := by
  cases hl : lookup k m.rows with
  | none =>
    rw [weight, hl] at h
    exact absurd rfl h
  | some w =>
    rw [weight, hl]
    exact mem_of_lookup hl

theorem Clean.mem_rows {m : ZSet K} (h : m.Clean) {e : K × ℤ} :
    e ∈ m.rows ↔ e.2 ≠ 0 ∧ m.weight e.1 = e.2 := by
  constructor
  · exact fun he => ⟨h e he, weight_of_mem he⟩
  · rintro ⟨hne, hw⟩
    have hmem := mem_of_weight (m := m) (k := e.1) (by rwa [hw])
    rwa [hw] at hmem

/-- A map without zero entries is what it denotes. -/
theorem ext_of_den {m n : ZSet K} (hm : m.Clean) (hn : n.Clean) (h : m.den = n.den) : m = n := by
  have hw : ∀ k, m.weight k = n.weight k := fun k => by rw [← den_apply, h, den_apply]
  have hmem : ∀ e, e ∈ m.rows ↔ e ∈ n.rows := fun e => by
    rw [hm.mem_rows, hn.mem_rows, hw]
  exact ZSet.ext (m.sorted.ext n.sorted hmem)

theorem rows_eq_nil_iff {m : ZSet K} (h : m.Clean) : m.rows = [] ↔ m.den = 0 := by
  constructor
  · intro hnil
    rw [den, hnil, total_nil]
  · intro hz
    have hmz : m = empty := ext_of_den h clean_empty hz
    rw [hmz]
    rfl

/-! ## The keys present -/

theorem mem_positive {m : ZSet K} {e : K × ℤ} :
    e ∈ m.positive.rows ↔ e.2 = 1 ∧ 0 < m.weight e.1 := by
  obtain ⟨k, w⟩ := e
  constructor
  · intro h
    obtain ⟨e', he', heq⟩ := List.mem_map.1 h
    obtain ⟨rfl, rfl⟩ := Prod.mk.inj heq
    obtain ⟨hmem, hpos⟩ := List.mem_filter.1 he'
    exact ⟨rfl, by simpa [weight_of_mem hmem] using hpos⟩
  · rintro ⟨rfl, hpos⟩
    have hmem := mem_of_weight (m := m) (k := k) (ne_of_gt hpos)
    exact List.mem_map.2 ⟨_, List.mem_filter.2 ⟨hmem, by simpa using hpos⟩, rfl⟩

theorem weight_positive (m : ZSet K) (k : K) :
    m.positive.weight k = if 0 < m.weight k then 1 else 0 := by
  split_ifs with h
  · exact weight_of_mem (m := m.positive) (e := (k, 1)) (mem_positive.2 ⟨rfl, h⟩)
  · by_contra hne
    exact h (mem_positive.1 (mem_of_weight hne)).2

@[simp] theorem positive_pos {m : ZSet K} {k : K} :
    0 < m.positive.weight k ↔ 0 < m.weight k := by
  rw [weight_positive]
  split_ifs with h <;> simp [h]

theorem positive_positive (m : ZSet K) : m.positive.positive = m.positive := by
  refine ext_of_den (clean_positive _) (clean_positive _) ?_
  ext k
  rw [den_apply, den_apply, weight_positive, weight_positive]
  split_ifs with h h' h' <;> simp_all

end ZSet

import Grmpl.Lib.OrdMap
import Mathlib.Data.List.Nodup
import Mathlib.Data.List.Sort

/-!
# Differences of maps

The difference of two maps lists each key the maps disagree on, once, with its
value on either side. For sorted maps it is a merge; for maps in any order it is
assembled from the differences of their parts.

* `ExactDiff a b out`: `out` is the difference of `a` and `b`.
* `mergeDiff`: the merge of two sorted maps, and the rules a walk of two maps in
  step follows.
* `ExactDiff.parts`, `ExactDiff.shared`: assembling differences.
-/

namespace OrdMap

variable {K V : Type*} [LinearOrder K]

/-- A changed key, with its value on either side. -/
abbrev Change (K V : Type*) := K × Option V × Option V

/-- No key is bound twice. -/
def Distinct (l : List (K × V)) : Prop := (l.map Prod.fst).Nodup

/-- `out` holds each key `a` and `b` disagree on, once, with its two values. -/
structure ExactDiff (a b : List (K × V)) (out : List (Change K V)) : Prop where
  once : (out.map Prod.fst).Nodup
  mem_iff : ∀ k x y, (k, x, y) ∈ out ↔ x = lookup k a ∧ y = lookup k b ∧ x ≠ y

/-! ## Lookup in maps of any order -/

theorem lookup_cons (k : K) (e : K × V) (l : List (K × V)) :
    lookup k (e :: l) = if e.1 = k then some e.2 else lookup k l := by
  by_cases h : e.1 = k <;> simp [lookup, h]

theorem Sorted.distinct {l : List (K × V)} (h : Sorted l) : Distinct l := by
  rw [Distinct, List.Nodup, List.pairwise_map]
  exact h.imp fun hlt => hlt.ne

omit [LinearOrder K] in
theorem Distinct.sublist {l l' : List (K × V)} (h : Distinct l) (hl : l'.Sublist l) :
    Distinct l' := (hl.map Prod.fst).nodup h

theorem lookup_eq_some {k : K} {v : V} {l : List (K × V)} (h : Distinct l) :
    lookup k l = some v ↔ (k, v) ∈ l := by
  refine ⟨mem_of_lookup, fun hmem => ?_⟩
  obtain ⟨a, c, rfl⟩ := List.append_of_mem hmem
  rw [Distinct, List.map_append, List.map_cons, List.nodup_append] at h
  have ha : ∀ e ∈ a, e.1 ≠ k := fun e he =>
    h.2.2 e.1 (List.mem_map_of_mem he) k (by simp)
  simp [lookup_append ha, lookup_cons]

theorem lookup_eq_none {k : K} {l : List (K × V)} : lookup k l = none ↔ ∀ e ∈ l, e.1 ≠ k := by
  refine ⟨fun h e he hk => ?_, lookup_absent⟩
  have hnone := List.find?_eq_none.1 (Option.map_eq_none_iff.1 h) e he
  simp [hk] at hnone

/-- The order of a map's entries does not matter to a lookup. -/
theorem lookup_perm {a b : List (K × V)} (ha : Distinct a) (hab : a.Perm b) (k : K) :
    lookup k a = lookup k b := by
  have hb : Distinct b := (hab.map Prod.fst).nodup_iff.1 ha
  refine Option.ext fun v => ?_
  rw [lookup_eq_some ha, lookup_eq_some hb, hab.mem_iff]

theorem lookup_filter (p : K → Bool) (k : K) (l : List (K × V)) :
    lookup k (l.filter fun e => p e.1) = if p k then lookup k l else none := by
  induction l with
  | nil => simp [lookup]
  | cons e l ih =>
    by_cases hp : p e.1 = true <;> by_cases hk : e.1 = k
    · subst hk
      simp [lookup_cons, hp]
    · simp [lookup_cons, hp, hk, ih]
    · subst hk
      simp [hp, ih]
    · simp [lookup_cons, hp, hk, ih]

/-- Entries in key order, those of one key as they come. -/
def sortKeys {β : Type*} (l : List (K × β)) : List (K × β) :=
  l.insertionSort fun p q => p.1 ≤ q.1

theorem sortKeys_perm {β : Type*} (l : List (K × β)) : (sortKeys l).Perm l :=
  List.perm_insertionSort _ l

/-- Entries with distinct keys, put in key order. -/
theorem sorted_sortKeys {β : Type*} {l : List (K × β)} (h : (l.map Prod.fst).Nodup) :
    (sortKeys l).Pairwise fun p q => p.1 < q.1 := by
  have : Std.Total fun p q : K × β => p.1 ≤ q.1 := ⟨fun p q => le_total p.1 q.1⟩
  have : IsTrans (K × β) fun p q => p.1 ≤ q.1 := ⟨fun _ _ _ => le_trans⟩
  have hle := List.pairwise_insertionSort (fun p q : K × β => p.1 ≤ q.1) l
  have hne : (sortKeys l).Pairwise fun p q => p.1 ≠ q.1 := by
    have hnodup := ((sortKeys_perm l).map Prod.fst).nodup_iff.2 h
    rwa [List.Nodup, List.pairwise_map] at hnodup
  exact hle.imp₂ (fun _ _ hpq hnpq => lt_of_le_of_ne hpq hnpq) hne

/-! ## Assembling differences -/

variable {a b a' b' c : List (K × V)} {out o₁ o₂ : List (Change K V)}

/-- A difference is about what is bound to each key. -/
theorem ExactDiff.congr (h : ExactDiff a b out) (ha : ∀ k, lookup k a = lookup k a')
    (hb : ∀ k, lookup k b = lookup k b') : ExactDiff a' b' out :=
  ⟨h.once, fun k x y => by rw [h.mem_iff, ha, hb]⟩

theorem ExactDiff.perm (h : ExactDiff a b o₁) (ho : o₁.Perm o₂) : ExactDiff a b o₂ :=
  ⟨(ho.map Prod.fst).nodup_iff.1 h.once, fun k x y => by rw [← ho.mem_iff, h.mem_iff]⟩

/-- Maps are compared part by part, the parts told apart by their keys. -/
theorem ExactDiff.parts (p : K → Bool)
    (h₁ : ExactDiff (a.filter fun e => p e.1) (b.filter fun e => p e.1) o₁)
    (h₂ : ExactDiff (a.filter fun e => !p e.1) (b.filter fun e => !p e.1) o₂) :
    ExactDiff a b (o₁ ++ o₂) := by
  have hkey₁ : ∀ k x y, (k, x, y) ∈ o₁ → p k = true := by
    intro k x y hmem
    rw [h₁.mem_iff, lookup_filter, lookup_filter] at hmem
    by_contra hp
    simp [hp] at hmem
    exact hmem.2.2 (hmem.1.trans hmem.2.1.symm)
  have hkey₂ : ∀ k x y, (k, x, y) ∈ o₂ → p k = false := by
    intro k x y hmem
    rw [h₂.mem_iff, lookup_filter (fun k => !p k), lookup_filter (fun k => !p k)] at hmem
    by_contra hp
    simp [hp] at hmem
    exact hmem.2.2 (hmem.1.trans hmem.2.1.symm)
  refine ⟨?_, fun k x y => ?_⟩
  · rw [List.map_append, List.nodup_append]
    refine ⟨h₁.once, h₂.once, ?_⟩
    intro k hk l hl
    obtain ⟨⟨_, x, y⟩, hmem, rfl⟩ := List.mem_map.1 hk
    obtain ⟨⟨_, z, w⟩, hmem', rfl⟩ := List.mem_map.1 hl
    intro heq
    have := hkey₁ _ _ _ hmem
    have := hkey₂ _ _ _ hmem'
    simp_all
  · rw [List.mem_append, h₁.mem_iff, h₂.mem_iff, lookup_filter, lookup_filter,
      lookup_filter (fun k => !p k), lookup_filter (fun k => !p k)]
    cases hp : p k
    · constructor
      · rintro (⟨rfl, rfl, hne⟩ | h)
        · simp at hne
        · simpa using h
      · exact fun h => Or.inr (by simpa using h)
    · constructor
      · rintro (h | ⟨rfl, rfl, hne⟩)
        · simpa using h
        · simp at hne
      · exact fun h => Or.inl (by simpa using h)

/-- Entries both maps hold may be left out of the comparison. -/
theorem ExactDiff.shared (h : ExactDiff a' b' out) (ha : Distinct a) (hb : Distinct b)
    (hpa : a.Perm (a' ++ c)) (hpb : b.Perm (b' ++ c)) : ExactDiff a b out := by
  have split : ∀ {l l' : List (K × V)}, Distinct l → l.Perm (l' ++ c) → ∀ k,
      lookup k l = (lookup k c).or (lookup k l') ∧ ∀ v, lookup k c = some v → lookup k l' = none := by
    intro l l' hl hp k
    have hl' : Distinct (l' ++ c) := (hp.map Prod.fst).nodup_iff.1 hl
    rw [lookup_perm hl hp]
    have hdis : Distinct l' ∧ Distinct c ∧ ∀ x ∈ l', ∀ y ∈ c, x.1 ≠ y.1 := by
      rw [Distinct, List.map_append, List.nodup_append] at hl'
      exact ⟨hl'.1, hl'.2.1, fun x hx y hy =>
        hl'.2.2 _ (List.mem_map_of_mem hx) _ (List.mem_map_of_mem hy)⟩
    cases hc : lookup k c with
    | none =>
      rw [lookup_append_right (lookup_eq_none.1 hc)]
      simp
    | some v =>
      have habs : ∀ e ∈ l', e.1 ≠ k := fun e he => hdis.2.2 e he (k, v) (mem_of_lookup hc)
      rw [lookup_append habs, hc]
      exact ⟨rfl, fun _ _ => lookup_absent habs⟩
  refine ⟨h.once, fun k x y => ?_⟩
  obtain ⟨ha₁, ha₂⟩ := split ha hpa k
  obtain ⟨hb₁, hb₂⟩ := split hb hpb k
  rw [h.mem_iff, ha₁, hb₁]
  cases hc : lookup k c with
  | none => simp
  | some v =>
    rw [ha₂ v hc, hb₂ v hc]
    constructor
    · rintro ⟨rfl, rfl, hne⟩
      exact absurd rfl hne
    · rintro ⟨rfl, rfl, hne⟩
      simp at hne

/-! ## The merge of sorted maps -/

variable [DecidableEq V]

/-- One entry merged into the rest of a map's merge with another. -/
def mergeEntry (x : K × V) (rest : List (K × V) → List (Change K V)) :
    List (K × V) → List (Change K V)
  | [] => (x.1, some x.2, none) :: rest []
  | y :: ys =>
      if x.1 < y.1 then (x.1, some x.2, none) :: rest (y :: ys)
      else if y.1 < x.1 then (y.1, none, some y.2) :: mergeEntry x rest ys
      else if x.2 = y.2 then rest ys
      else (x.1, some x.2, some y.2) :: rest ys

/-- The keys two sorted maps disagree on, by stepping along both. -/
def mergeDiff : List (K × V) → List (K × V) → List (Change K V)
  | [], ys => ys.map fun e => (e.1, none, some e.2)
  | x :: xs, ys => mergeEntry x (mergeDiff xs) ys

theorem mergeDiff_cons (x y : K × V) (xs ys : List (K × V)) :
    mergeDiff (x :: xs) (y :: ys) =
      if x.1 < y.1 then (x.1, some x.2, none) :: mergeDiff xs (y :: ys)
      else if y.1 < x.1 then (y.1, none, some y.2) :: mergeDiff (x :: xs) ys
      else if x.2 = y.2 then mergeDiff xs ys
      else (x.1, some x.2, some y.2) :: mergeDiff xs ys := rfl

/-- The cases of a merge. -/
@[elab_as_elim]
theorem mergeInduct {motive : List (K × V) → List (K × V) → Prop}
    (nil_left : ∀ ys, motive [] ys) (nil_right : ∀ xs, motive xs [])
    (lt : ∀ x xs y ys, x.1 < y.1 → motive xs (y :: ys) → motive (x :: xs) (y :: ys))
    (gt : ∀ x xs y ys, ¬x.1 < y.1 → y.1 < x.1 → motive (x :: xs) ys → motive (x :: xs) (y :: ys))
    (same : ∀ x xs y ys, ¬x.1 < y.1 → ¬y.1 < x.1 → x.2 = y.2 → motive xs ys →
      motive (x :: xs) (y :: ys))
    (changed : ∀ x xs y ys, ¬x.1 < y.1 → ¬y.1 < x.1 → x.2 ≠ y.2 → motive xs ys →
      motive (x :: xs) (y :: ys)) (a b : List (K × V)) : motive a b := by
  induction a generalizing b with
  | nil => exact nil_left b
  | cons x xs iha =>
    induction b with
    | nil => exact nil_right _
    | cons y ys ihb =>
      by_cases hlt : x.1 < y.1
      · exact lt x xs y ys hlt (iha _)
      by_cases hgt : y.1 < x.1
      · exact gt x xs y ys hlt hgt ihb
      by_cases hv : x.2 = y.2
      · exact same x xs y ys hlt hgt hv (iha ys)
      · exact changed x xs y ys hlt hgt hv (iha ys)

@[simp] theorem mergeDiff_nil_right (a : List (K × V)) :
    mergeDiff a [] = a.map fun e => (e.1, some e.2, none) := by
  induction a with
  | nil => rfl
  | cons x a ih => rw [mergeDiff, mergeEntry, ih, List.map_cons]

@[simp] theorem mergeDiff_nil_left (b : List (K × V)) :
    mergeDiff [] b = b.map fun e => (e.1, none, some e.2) := rfl

theorem mergeDiff_left {e : K × V} (h : ∀ y ∈ b, e.1 < y.1) :
    mergeDiff (e :: a) b = (e.1, some e.2, none) :: mergeDiff a b := by
  cases b with
  | nil => simp
  | cons y b => rw [mergeDiff_cons, if_pos (h y (by simp))]

theorem mergeDiff_right {e : K × V} (h : ∀ x ∈ a, e.1 < x.1) :
    mergeDiff a (e :: b) = (e.1, none, some e.2) :: mergeDiff a b := by
  cases a with
  | nil => simp
  | cons x a =>
    have hlt := h x (by simp)
    rw [mergeDiff_cons, if_neg hlt.not_gt, if_pos hlt]

theorem mergeDiff_both (e : K × V) : mergeDiff (e :: a) (e :: b) = mergeDiff a b := by
  rw [mergeDiff_cons, if_neg (lt_irrefl _), if_neg (lt_irrefl _), if_pos rfl]

/-- A stretch of entries below everything on the other side is there alone. -/
theorem mergeDiff_append_left (h : ∀ x ∈ c, ∀ y ∈ b, x.1 < y.1) :
    mergeDiff (c ++ a) b = c.map (fun e => (e.1, some e.2, none)) ++ mergeDiff a b := by
  induction c with
  | nil => rfl
  | cons e c ih =>
    rw [List.cons_append, mergeDiff_left fun y hy => h e (by simp) y hy,
      ih fun x hx => h x (by simp [hx])]
    rfl

theorem mergeDiff_append_right (h : ∀ x ∈ a, ∀ y ∈ c, y.1 < x.1) :
    mergeDiff a (c ++ b) = c.map (fun e => (e.1, none, some e.2)) ++ mergeDiff a b := by
  induction c with
  | nil => rfl
  | cons e c ih =>
    rw [List.cons_append, mergeDiff_right fun x hx => h x hx e (by simp),
      ih fun x hx y hy => h x hx y (by simp [hy])]
    rfl

/-- A stretch both sides hold is passed over. -/
theorem mergeDiff_append_both : mergeDiff (c ++ a) (c ++ b) = mergeDiff a b := by
  induction c with
  | nil => rfl
  | cons e c ih => rw [List.cons_append, List.cons_append, mergeDiff_both, ih]

/-- Two stretches of the same keys, each with one value. -/
theorem mergeDiff_stretch (ks : List K) (v w : V) :
    mergeDiff (ks.map (·, v) ++ a) (ks.map (·, w) ++ b)
      = (if v = w then [] else ks.map fun k => (k, some v, some w)) ++ mergeDiff a b := by
  by_cases hvw : v = w
  · subst hvw
    rw [if_pos rfl, mergeDiff_append_both]
    rfl
  · rw [if_neg hvw]
    induction ks with
    | nil => rfl
    | cons k ks ih =>
      simp only [List.map_cons, List.cons_append]
      rw [mergeDiff_cons, if_neg (lt_irrefl _), if_neg (lt_irrefl _), if_neg hvw, ih]

theorem mergeDiff_key {e : Change K V} (he : e ∈ mergeDiff a b) :
    (∃ x ∈ a, x.1 = e.1) ∨ ∃ y ∈ b, y.1 = e.1 := by
  induction a, b using mergeInduct with
  | nil_left ys =>
    rw [mergeDiff_nil_left] at he
    obtain ⟨y, hy, rfl⟩ := List.mem_map.1 he
    exact Or.inr ⟨y, hy, rfl⟩
  | nil_right xs =>
    rw [mergeDiff_nil_right] at he
    obtain ⟨x, hx, rfl⟩ := List.mem_map.1 he
    exact Or.inl ⟨x, hx, rfl⟩
  | lt x xs y ys hlt ih =>
    rw [mergeDiff_cons, if_pos hlt] at he
    grind
  | gt x xs y ys hlt hgt ih =>
    rw [mergeDiff_cons, if_neg hlt, if_pos hgt] at he
    grind
  | same x xs y ys hlt hgt hv ih =>
    rw [mergeDiff_cons, if_neg hlt, if_neg hgt, if_pos hv] at he
    grind
  | changed x xs y ys hlt hgt hv ih =>
    rw [mergeDiff_cons, if_neg hlt, if_neg hgt, if_neg hv] at he
    grind

/-- The merge lists its keys in order. -/
theorem sorted_mergeDiff (ha : Sorted a) (hb : Sorted b) :
    (mergeDiff a b).Pairwise fun p q => p.1 < q.1 := by
  -- the head of a step is below every key either side has left
  have step : ∀ {e : Change K V} {l m : List (K × V)}, (∀ x ∈ l, e.1 < x.1) →
      (∀ y ∈ m, e.1 < y.1) → ∀ q ∈ mergeDiff l m, e.1 < q.1 := by
    intro e l m hl hm q hq
    rcases mergeDiff_key hq with ⟨x, hx, h⟩ | ⟨y, hy, h⟩
    · exact h ▸ hl x hx
    · exact h ▸ hm y hy
  induction a, b using mergeInduct with
  | nil_left ys =>
    rw [mergeDiff_nil_left, List.pairwise_map]
    exact hb
  | nil_right xs =>
    rw [mergeDiff_nil_right, List.pairwise_map]
    exact ha
  | lt x xs y ys hlt ih =>
    have hx := List.pairwise_cons.1 ha
    have hy := List.pairwise_cons.1 hb
    rw [mergeDiff_cons, if_pos hlt]
    refine List.pairwise_cons.2 ⟨step hx.1 ?_, ih hx.2 hb⟩
    intro z hz
    rcases List.mem_cons.1 hz with rfl | hz
    · exact hlt
    · exact hlt.trans (hy.1 z hz)
  | gt x xs y ys hlt hgt ih =>
    have hx := List.pairwise_cons.1 ha
    have hy := List.pairwise_cons.1 hb
    rw [mergeDiff_cons, if_neg hlt, if_pos hgt]
    refine List.pairwise_cons.2 ⟨step ?_ hy.1, ih ha hy.2⟩
    intro z hz
    rcases List.mem_cons.1 hz with rfl | hz
    · exact hgt
    · exact hgt.trans (hx.1 z hz)
  | same x xs y ys hlt hgt hv ih =>
    rw [mergeDiff_cons, if_neg hlt, if_neg hgt, if_pos hv]
    exact ih (List.pairwise_cons.1 ha).2 (List.pairwise_cons.1 hb).2
  | changed x xs y ys hlt hgt hv ih =>
    have hx := List.pairwise_cons.1 ha
    have hy := List.pairwise_cons.1 hb
    have heq : x.1 = y.1 := le_antisymm (not_lt.1 hgt) (not_lt.1 hlt)
    rw [mergeDiff_cons, if_neg hlt, if_neg hgt, if_neg hv]
    exact List.pairwise_cons.2 ⟨step hx.1 (by simpa [heq] using hy.1), ih hx.2 hy.2⟩

/-- **The merge of two sorted maps is their difference.** -/
theorem exact_mergeDiff (ha : Sorted a) (hb : Sorted b) : ExactDiff a b (mergeDiff a b) := by
  refine ⟨?_, fun k p q => ?_⟩
  · rw [List.Nodup, List.pairwise_map]
    exact (sorted_mergeDiff ha hb).imp fun hlt => hlt.ne
  have absent : ∀ {l : List (K × V)} {e : K × V}, (∀ x ∈ l, e.1 < x.1) → lookup e.1 l = none :=
    fun h => lookup_absent fun x hx => (h x hx).ne'
  induction a, b using mergeInduct with
  | nil_left ys =>
    rw [mergeDiff_nil_left, show lookup k ([] : List (K × V)) = none from rfl]
    simp only [List.mem_map, Prod.mk.injEq]
    constructor
    · rintro ⟨y, hy, rfl, rfl, rfl⟩
      exact ⟨rfl, (lookup_of_mem hb hy).symm, by simp⟩
    · rintro ⟨rfl, hq, hne⟩
      obtain ⟨w, hw⟩ := Option.ne_none_iff_exists'.1 hne.symm
      exact ⟨(k, w), mem_of_lookup (hq ▸ hw), rfl, rfl, hw.symm⟩
  | nil_right xs =>
    rw [mergeDiff_nil_right, show lookup k ([] : List (K × V)) = none from rfl]
    simp only [List.mem_map, Prod.mk.injEq]
    constructor
    · rintro ⟨x, hx, rfl, rfl, rfl⟩
      exact ⟨(lookup_of_mem ha hx).symm, rfl, by simp⟩
    · rintro ⟨hp, rfl, hne⟩
      obtain ⟨w, hw⟩ := Option.ne_none_iff_exists'.1 hne
      exact ⟨(k, w), mem_of_lookup (hp ▸ hw), rfl, hw.symm, rfl⟩
  | lt x xs y ys hlt ih =>
    have hx := List.pairwise_cons.1 ha
    have hy := List.pairwise_cons.1 hb
    have hrest : (k, p, q) ∈ mergeDiff xs (y :: ys) ↔
        p = lookup k xs ∧ q = lookup k (y :: ys) ∧ p ≠ q := ih hx.2 hb
    rw [mergeDiff_cons, if_pos hlt, List.mem_cons, hrest, lookup_cons k x]
    by_cases hk : x.1 = k
    · subst hk
      have hyk : lookup x.1 (y :: ys) = none := absent fun z hz => by
        rcases List.mem_cons.1 hz with rfl | hz
        · exact hlt
        · exact hlt.trans (hy.1 z hz)
      rw [absent hx.1, hyk]
      grind
    · grind
  | gt x xs y ys hlt hgt ih =>
    have hx := List.pairwise_cons.1 ha
    have hy := List.pairwise_cons.1 hb
    have hrest : (k, p, q) ∈ mergeDiff (x :: xs) ys ↔
        p = lookup k (x :: xs) ∧ q = lookup k ys ∧ p ≠ q := ih ha hy.2
    rw [mergeDiff_cons, if_neg hlt, if_pos hgt, List.mem_cons, hrest, lookup_cons k y]
    by_cases hk : y.1 = k
    · subst hk
      have hxk : lookup y.1 (x :: xs) = none := absent fun z hz => by
        rcases List.mem_cons.1 hz with rfl | hz
        · exact hgt
        · exact hgt.trans (hx.1 z hz)
      rw [absent hy.1, hxk]
      grind
    · grind
  | same x xs y ys hlt hgt hv ih =>
    have hx := List.pairwise_cons.1 ha
    have hy := List.pairwise_cons.1 hb
    have heq : x.1 = y.1 := le_antisymm (not_lt.1 hgt) (not_lt.1 hlt)
    have hrest : (k, p, q) ∈ mergeDiff xs ys ↔
        p = lookup k xs ∧ q = lookup k ys ∧ p ≠ q := ih hx.2 hy.2
    rw [mergeDiff_cons, if_neg hlt, if_neg hgt, if_pos hv, hrest, lookup_cons k x, lookup_cons k y]
    by_cases hk : x.1 = k
    · subst hk
      have hyk : lookup x.1 ys = none := by rw [heq]; exact absent hy.1
      rw [absent hx.1, hyk, if_pos rfl, if_pos heq.symm, hv]
      grind
    · rw [if_neg hk, if_neg (heq ▸ hk)]
  | changed x xs y ys hlt hgt hv ih =>
    have hx := List.pairwise_cons.1 ha
    have hy := List.pairwise_cons.1 hb
    have heq : x.1 = y.1 := le_antisymm (not_lt.1 hgt) (not_lt.1 hlt)
    have hrest : (k, p, q) ∈ mergeDiff xs ys ↔
        p = lookup k xs ∧ q = lookup k ys ∧ p ≠ q := ih hx.2 hy.2
    rw [mergeDiff_cons, if_neg hlt, if_neg hgt, if_neg hv, List.mem_cons, hrest, lookup_cons k x,
      lookup_cons k y]
    by_cases hk : x.1 = k
    · subst hk
      have hyk : lookup x.1 ys = none := by rw [heq]; exact absent hy.1
      rw [absent hx.1, hyk, if_pos rfl, if_pos heq.symm]
      grind
    · rw [if_neg hk, if_neg (heq ▸ hk)]
      grind

end OrdMap

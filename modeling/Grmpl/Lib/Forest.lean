import Mathlib

/-!
# Chains of children between separators

A search tree's node holds children with separators between them, each child
confined to the span its separators leave it. `Forest P lo hi ks cs` says so for
any predicate `P` on a child and its bounds; its prefix and suffix forms let one
child be singled out, replaced by a chain of its own, and put back.

* `Within`: a key inside optional half-open bounds.
* `Forest`, `Seg`, `Tail`: a chain, what precedes a child, what follows it.
* `Forest.zoom`, `Forest.unzoom`: singling out a child and putting a chain back.
* `Forest.cut`, `Forest.append`: two chains around a separator.
* `Fits`: the predicate of a search tree, a child whose keys lie in its bounds;
  `Forest.locate`, `Forest.rebound`, `Forest.sorted`: what its chains promise.
-/

namespace Separated

variable {K C : Type*}

/-- A key inside half-open bounds, either of which may be absent. -/
def Within [LinearOrder K] (lo hi : Option K) (k : K) : Prop :=
  (∀ l ∈ lo, l ≤ k) ∧ ∀ h ∈ hi, k < h

/-- Children between separators, each satisfying `P` at its bounds. -/
inductive Forest (P : Option K → Option K → C → Prop) :
    Option K → Option K → List K → List C → Prop where
  | one {lo hi c} : P lo hi c → Forest P lo hi [] [c]
  | cons {lo hi k c ks cs} : P lo (some k) c → Forest P (some k) hi ks cs →
      Forest P lo hi (k :: ks) (c :: cs)

/-- Children each followed by a separator, up to the bound the last one sets. -/
inductive Seg (P : Option K → Option K → C → Prop) :
    Option K → Option K → List K → List C → Prop where
  | nil {lo} : Seg P lo lo [] []
  | cons {lo hi k c ks cs} : P lo (some k) c → Seg P (some k) hi ks cs →
      Seg P lo hi (k :: ks) (c :: cs)

/-- Nothing, or a separator and the chain above it. -/
inductive Tail (P : Option K → Option K → C → Prop) :
    Option K → Option K → List K → List C → Prop where
  | nil {hi} : Tail P hi hi [] []
  | cons {hi k ks cs} : Forest P (some k) hi ks cs → Tail P (some k) hi (k :: ks) cs

variable {P Q : Option K → Option K → C → Prop} {lo hi b b₁ b₂ : Option K} {ks ka kb km : List K}
  {cs ca cb cm : List C} {c : C}

theorem Forest.length_eq (h : Forest P lo hi ks cs) : cs.length = ks.length + 1 := by
  induction h with
  | one _ => rfl
  | cons _ _ ih => simp [ih]

theorem Seg.length_eq (h : Seg P lo hi ks cs) : cs.length = ks.length := by
  induction h with
  | nil => rfl
  | cons _ _ ih => simp [ih]

theorem Forest.mono (hPQ : ∀ lo hi, ∀ c ∈ cs, P lo hi c → Q lo hi c) (h : Forest P lo hi ks cs) :
    Forest Q lo hi ks cs := by
  induction h with
  | one hc => exact .one (hPQ _ _ _ (by simp) hc)
  | cons hc _ ih => exact .cons (hPQ _ _ _ (by simp) hc) (ih fun lo hi c hmem => hPQ lo hi c (by simp [hmem]))

/-- Every child satisfies `P` at some bounds. -/
theorem Forest.of_mem (h : Forest P lo hi ks cs) : ∀ c ∈ cs, ∃ b₁ b₂, P b₁ b₂ c := by
  induction h with
  | one hc => simpa using ⟨_, _, hc⟩
  | cons hc _ ih =>
    intro c hmem
    rcases List.mem_cons.1 hmem with rfl | hmem
    · exact ⟨_, _, hc⟩
    · exact ih c hmem

theorem Seg.snoc {k : K} (h : Seg P lo b ks cs) (hc : P b (some k) c) :
    Seg P lo (some k) (ks ++ [k]) (cs ++ [c]) := by
  induction h with
  | nil => exact .cons hc .nil
  | cons hd _ ih => exact .cons hd (ih hc)

/-- A segment is empty, or ends in a child and its separator. -/
theorem Seg.eq_nil_or_snoc (h : Seg P lo b ks cs) :
    (b = lo ∧ ks = [] ∧ cs = []) ∨ ∃ b' ks' k cs' c, ks = ks' ++ [k] ∧ cs = cs' ++ [c] ∧
      b = some k ∧ Seg P lo b' ks' cs' ∧ P b' (some k) c := by
  induction h with
  | nil => exact Or.inl ⟨rfl, rfl, rfl⟩
  | @cons lo hi k c ks cs hc hrest ih =>
    right
    rcases ih with ⟨rfl, rfl, rfl⟩ | ⟨b', ks', k', cs', c', rfl, rfl, rfl, hseg, hc'⟩
    · exact ⟨lo, [], k, [], c, rfl, rfl, rfl, .nil, hc⟩
    · exact ⟨b', k :: ks', k', c :: cs', c', rfl, rfl, rfl, .cons hc hseg, hc'⟩

/-- A chain opened at one of its children. -/
theorem Forest.zoom (h : Forest P lo hi ks cs) {i : Nat} (hi' : i < cs.length) :
    ∃ b₁ b₂, Seg P lo b₁ (ks.take i) (cs.take i) ∧ P b₁ b₂ cs[i] ∧
      Tail P b₂ hi (ks.drop i) (cs.drop (i + 1)) := by
  induction h generalizing i with
  | one hc =>
    obtain rfl : i = 0 := by simpa using hi'
    exact ⟨_, _, .nil, hc, .nil⟩
  | cons hc hrest ih =>
    cases i with
    | zero => exact ⟨_, _, .nil, hc, .cons hrest⟩
    | succ i =>
      obtain ⟨b₁, b₂, hseg, hmid, htail⟩ := ih (by simpa using hi')
      exact ⟨b₁, b₂, .cons hc hseg, hmid, htail⟩

/-- The bounds of one child are the separators on its two sides. -/
theorem Forest.bounds_at (h : Forest P lo hi ks cs) {i : Nat} (hi' : i < cs.length) :
    P (if i = 0 then lo else ks[i - 1]?) (if i = cs.length - 1 then hi else ks[i]?) cs[i] := by
  induction h generalizing i with
  | one hc =>
    obtain rfl : i = 0 := by simpa using hi'
    simpa using hc
  | @cons lo hi k c ks cs hc hrest ih =>
    have hlen := hrest.length_eq
    cases i with
    | zero =>
      have hne : 0 ≠ cs.length := by omega
      simpa [hne] using hc
    | succ i =>
      have hrec := ih (i := i) (by simpa using hi')
      have hlast : (i + 1 = cs.length) ↔ i = cs.length - 1 := by omega
      cases i with
      | zero => simpa [hlast] using hrec
      | succ i => simpa [hlast] using hrec

/-- A chain put in place of one child. -/
theorem Forest.unzoom (ha : Seg P lo b₁ ka ca) (hm : Forest P b₁ b₂ km cm)
    (hb : Tail P b₂ hi kb cb) : Forest P lo hi (ka ++ km ++ kb) (ca ++ cm ++ cb) := by
  have mid_tail : ∀ {b₁ b₂ km cm}, Forest P b₁ b₂ km cm → Tail P b₂ hi kb cb →
      Forest P b₁ hi (km ++ kb) (cm ++ cb) := by
    intro b₁ b₂ km cm hm hb
    induction hm with
    | one hc => cases hb with
        | nil => exact .one hc
        | cons hf => exact .cons hc hf
    | cons hc _ ih => exact .cons hc (ih hb)
  induction ha with
  | nil => exact mid_tail hm hb
  | cons hc _ ih => exact .cons hc (ih hm)

theorem Forest.toTail (h : Forest P lo hi ks cs) :
    ∃ c cs' b, cs = c :: cs' ∧ P lo b c ∧ Tail P b hi ks cs' := by
  cases h with
  | one hc => exact ⟨_, _, _, rfl, hc, .nil⟩
  | cons hc hrest => exact ⟨_, _, _, rfl, hc, .cons hrest⟩

/-- A chain ends in its last child. -/
theorem Forest.toSeg (h : Forest P lo hi ks cs) :
    ∃ cs' c b, cs = cs' ++ [c] ∧ Seg P lo b ks cs' ∧ P b hi c := by
  induction h with
  | one hc => exact ⟨[], _, _, rfl, .nil, hc⟩
  | cons hc _ ih =>
    obtain ⟨cs', d, b, rfl, hseg, hd⟩ := ih
    exact ⟨_ :: cs', d, b, rfl, .cons hc hseg, hd⟩

theorem Seg.toForest (h : Seg P lo b ks cs) (hc : P b hi c) : Forest P lo hi ks (cs ++ [c]) := by
  have := Forest.unzoom h (.one hc) (Tail.nil : Tail P hi hi [] [])
  simpa using this

/-- A chain that ends at a bound, as a segment with that bound for a separator. -/
theorem Forest.toSegment {k : K} (h : Forest P lo (some k) ks cs) :
    Seg P lo (some k) (ks ++ [k]) cs := by
  obtain ⟨cs', c, b, rfl, hseg, hc⟩ := h.toSeg
  exact hseg.snoc hc

/-- Two chains around a separator. -/
theorem Forest.append {k : K} (ha : Forest P lo (some k) ka ca) (hb : Forest P (some k) hi kb cb) :
    Forest P lo hi (ka ++ k :: kb) (ca ++ cb) := by
  have := Forest.unzoom (Seg.nil : Seg P lo lo [] []) ha (.cons hb)
  simpa using this

/-- A chain cut between two of its children. -/
theorem Forest.cut (h : Forest P lo hi ks cs) {m : Nat} (h0 : 0 < m) (hm : m < cs.length) :
    ∃ k, (ks.take m).getLast? = some k ∧
      Forest P lo (some k) (ks.take m).dropLast (cs.take m) ∧
      Forest P (some k) hi (ks.drop m) (cs.drop m) := by
  have hlen := h.length_eq
  obtain ⟨b₁, b₂, hseg, hmid, htail⟩ := h.zoom hm
  rcases hseg.eq_nil_or_snoc with ⟨-, -, hnil⟩ | ⟨b', ks', k, cs', c, hks, hcs, rfl, hseg', hc⟩
  · have : (cs.take m).length = 0 := by rw [hnil]; rfl
    rw [List.length_take] at this
    omega
  · refine ⟨k, by simp [hks], ?_, ?_⟩
    · rw [hks, hcs, List.dropLast_concat]
      exact hseg'.toForest hc
    · have hall := Forest.unzoom (Seg.nil : Seg P (some k) (some k) [] []) (.one hmid) htail
      have hdrop : cs.drop m = cs[m] :: cs.drop (m + 1) := List.drop_eq_getElem_cons hm
      rw [hdrop]
      simpa using hall

section Fits

variable [LinearOrder K]

theorem within_none (k : K) : Within none none k := ⟨by simp, by simp⟩

/-- A child that satisfies `Q` and has keys `S`, some and all inside the bounds. -/
def Fits (Q : C → Prop) (S : C → List K) (lo hi : Option K) (c : C) : Prop :=
  Q c ∧ S c ≠ [] ∧ ∀ k ∈ S c, Within lo hi k

variable {Q Q' : C → Prop} {S S' : C → List K}

/-- A child's bounds are apart, since its keys lie between them. -/
theorem Fits.lt {l u : K} (h : Fits Q S (some l) (some u) c) : l < u := by
  obtain ⟨x, hx⟩ := List.exists_mem_of_ne_nil _ h.2.1
  exact ((h.2.2 x hx).1 l rfl).trans_lt ((h.2.2 x hx).2 u rfl)

theorem Seg.le_bound {l u : K} (h : Seg (Fits Q S) (some l) (some u) ks cs) : l ≤ u := by
  generalize hlo : some l = lo at h
  generalize hhi : some u = hi at h
  induction h generalizing l with
  | nil =>
    subst hlo
    exact (Option.some.inj hhi).ge
  | cons hc _ ih =>
    subst hlo
    exact hc.lt.le.trans (ih rfl hhi)

/-- Every key of a segment lies below the bound it ends at. -/
theorem Seg.keys_lt {u : K} (h : Seg (Fits Q S) lo (some u) ks cs) :
    ∀ c ∈ cs, ∀ x ∈ S c, x < u := by
  generalize hhi : some u = hi at h
  induction h with
  | nil => simp
  | cons hc hrest ih =>
    subst hhi
    intro d hd x hx
    rcases List.mem_cons.1 hd with rfl | hd
    · exact ((hc.2.2 x hx).2 _ rfl).trans_le hrest.le_bound
    · exact ih rfl d hd x hx

/-- Every key of a chain lies at or above the bound it starts at. -/
theorem Forest.keys_ge {l : K} (h : Forest (Fits Q S) (some l) hi ks cs) :
    ∀ c ∈ cs, ∀ x ∈ S c, l ≤ x := by
  generalize hlo : some l = lo at h
  induction h generalizing l with
  | one hc =>
    subst hlo
    intro d hd x hx
    obtain rfl := List.mem_singleton.1 hd
    exact (hc.2.2 x hx).1 l rfl
  | cons hc _ ih =>
    subst hlo
    intro d hd x hx
    rcases List.mem_cons.1 hd with rfl | hd
    · exact (hc.2.2 x hx).1 l rfl
    · exact hc.lt.le.trans (ih rfl d hd x hx)

/-- Every key of a chain lies below the bound it ends at. -/
theorem Forest.keys_lt {u : K} (h : Forest (Fits Q S) lo (some u) ks cs) :
    ∀ c ∈ cs, ∀ x ∈ S c, x < u := by
  obtain ⟨cs', d, b, rfl, hseg, hd⟩ := h.toSeg
  intro c hc x hx
  rcases List.mem_append.1 hc with hc | hc
  · have hseg' := hseg.snoc (k := u) hd
    exact hseg'.keys_lt c (List.mem_append_left _ hc) x hx
  · obtain rfl := List.mem_singleton.1 hc
    exact (hd.2.2 x hx).2 u rfl

/-- Separators ascend strictly, above the bound they start at. -/
theorem Forest.seps_sorted (h : Forest (Fits Q S) lo hi ks cs) :
    (lo.toList ++ ks).Pairwise (· < ·) := by
  induction h with
  | one _ => cases ‹Option K› <;> simp
  | @cons lo hi k c ks cs hc _ ih =>
    cases lo with
    | none => exact ih
    | some l =>
      have hk := List.pairwise_cons.1 (show (k :: ks).Pairwise (· < ·) from ih)
      refine List.pairwise_cons.2 ⟨fun x hx => ?_, ih⟩
      rcases List.mem_cons.1 hx with rfl | hx
      · exact hc.lt
      · exact hc.lt.trans (hk.1 x hx)

/-- What precedes a key's bounds lies below the key. -/
theorem Seg.keys_lt_of {x : K} (h : Seg (Fits Q S) lo b ks cs) (hx : ∀ l ∈ b, l ≤ x) :
    ∀ c ∈ cs, ∀ y ∈ S c, y < x := by
  rcases h.eq_nil_or_snoc with ⟨-, -, rfl⟩ | ⟨b', ks', k, cs', c, -, -, rfl, -, -⟩
  · simp
  · exact fun c hc y hy => (h.keys_lt c hc y hy).trans_le (hx k rfl)

/-- What follows a key's bounds lies above the key. -/
theorem Tail.keys_gt_of {x : K} (h : Tail (Fits Q S) b hi ks cs) (hx : ∀ u ∈ b, x < u) :
    ∀ c ∈ cs, ∀ y ∈ S c, x < y := by
  cases h with
  | nil => simp
  | cons hf => exact fun c hc y hy => (hx _ rfl).trans_le (hf.keys_ge c hc y hy)

/-- The child a key belongs to: after the separators at or below it. -/
theorem Forest.locate {key : K} (h : Forest (Fits Q S) lo hi ks cs) (hkey : Within lo hi key)
    {i : Nat} (hi' : i < cs.length) (hle : ∀ k ∈ ks.take i, k ≤ key)
    (hlt : ∀ k ∈ ks.drop i, key < k) :
    ∃ b₁ b₂, Seg (Fits Q S) lo b₁ (ks.take i) (cs.take i) ∧ Fits Q S b₁ b₂ cs[i] ∧
      Tail (Fits Q S) b₂ hi (ks.drop i) (cs.drop (i + 1)) ∧ Within b₁ b₂ key ∧
      (∀ c ∈ cs.take i, ∀ x ∈ S c, x < key) ∧ ∀ c ∈ cs.drop (i + 1), ∀ x ∈ S c, key < x := by
  obtain ⟨b₁, b₂, hseg, hmid, htail⟩ := h.zoom hi'
  have hleft : ∀ l ∈ b₁, l ≤ key := by
    rcases hseg.eq_nil_or_snoc with ⟨rfl, -, -⟩ | ⟨b', ks', k, cs', c, hks, -, rfl, -, -⟩
    · exact hkey.1
    · simpa using hle k (by simp [hks])
  have hright : ∀ u ∈ b₂, key < u := by
    generalize ks.drop i = kd at htail hlt
    generalize cs.drop (i + 1) = cd at htail
    cases htail with
    | nil => exact hkey.2
    | cons hf => simpa using hlt _ (by simp)
  exact ⟨b₁, b₂, hseg, hmid, htail, ⟨hleft, hright⟩, hseg.keys_lt_of hleft, htail.keys_gt_of hright⟩

/-- Only the outermost bounds of a chain can be moved, and they can be moved to
any that its keys respect. -/
theorem Forest.rebound {lo' hi' : Option K} (h : Forest (Fits Q S) lo hi ks cs)
    (hwithin : ∀ c ∈ cs, ∀ x ∈ S c, Within lo' hi' x) : Forest (Fits Q S) lo' hi' ks cs := by
  induction h generalizing lo' with
  | one hc => exact .one ⟨hc.1, hc.2.1, hwithin _ (by simp)⟩
  | @cons lo hi k c ks cs hc hrest ih =>
    refine .cons ⟨hc.1, hc.2.1, fun x hx => ⟨(hwithin c (by simp) x hx).1, ?_⟩⟩ (ih fun d hd x hx => ?_)
    · exact (hc.2.2 x hx).2
    · refine ⟨?_, (hwithin d (by simp [hd]) x hx).2⟩
      simpa using hrest.keys_ge d hd x hx

/-- The keys of a chain are in order if those of each child are. -/
theorem Forest.sorted (h : Forest (Fits Q S) lo hi ks cs)
    (hs : ∀ c ∈ cs, (S c).Pairwise (· < ·)) : (cs.flatMap S).Pairwise (· < ·) := by
  induction h with
  | one _ => simpa using hs
  | @cons lo hi k c ks cs hc hrest ih =>
    rw [List.flatMap_cons, List.pairwise_append]
    refine ⟨hs c (by simp), ih fun d hd => hs d (by simp [hd]), fun x hx y hy => ?_⟩
    obtain ⟨d, hd, hy⟩ := List.mem_flatMap.1 hy
    exact ((hc.2.2 x hx).2 k rfl).trans_le (hrest.keys_ge d hd y hy)

/-- A chain moved by a map that keeps the order of the keys it meets. -/
theorem Forest.map {f : K → K} {g : C → C} {U : K → Prop}
    (hf : ∀ x y, U x → U y → x < y → f x < f y) (h : Forest (Fits Q S) lo hi ks cs)
    (hlo : ∀ l ∈ lo, U l) (hhi : ∀ u ∈ hi, U u) (hks : ∀ k ∈ ks, U k)
    (hS : ∀ c ∈ cs, ∀ x ∈ S c, U x) (hQ : ∀ c ∈ cs, Q c → Q' (g c))
    (hg : ∀ c ∈ cs, Q c → S' (g c) = (S c).map f) :
    Forest (Fits Q' S') (lo.map f) (hi.map f) (ks.map f) (cs.map g) := by
  have fle : ∀ x y, U x → U y → x ≤ y → f x ≤ f y := by
    intro x y hx hy hxy
    rcases hxy.lt_or_eq with hlt | rfl
    · exact (hf x y hx hy hlt).le
    · exact le_rfl
  have child : ∀ (l u : Option K) (c : C), (∀ k ∈ l, U k) → (∀ k ∈ u, U k) → (∀ x ∈ S c, U x) →
      (Q c → Q' (g c)) → (Q c → S' (g c) = (S c).map f) → Fits Q S l u c →
      Fits Q' S' (l.map f) (u.map f) (g c) := by
    rintro l u c hl hu hx hq heq ⟨hqc, hne, hw⟩
    rw [Fits, heq hqc]
    refine ⟨hq hqc, by simpa using hne, fun y hy => ?_⟩
    obtain ⟨x, hxS, rfl⟩ := List.mem_map.1 hy
    refine ⟨fun k hk => ?_, fun k hk => ?_⟩
    · obtain ⟨k, hmem, rfl⟩ := Option.map_eq_some_iff.1 hk
      exact fle k x (hl k hmem) (hx x hxS) ((hw x hxS).1 k hmem)
    · obtain ⟨k, hmem, rfl⟩ := Option.map_eq_some_iff.1 hk
      exact hf x k (hx x hxS) (hu k hmem) ((hw x hxS).2 k hmem)
  induction h with
  | one hc =>
    exact .one (child _ _ _ hlo hhi (hS _ (by simp)) (hQ _ (by simp)) (hg _ (by simp)) hc)
  | @cons lo hi k c ks cs hc _ ih =>
    have hk : ∀ x ∈ some k, U x := by simpa using hks k (by simp)
    exact .cons (child lo (some k) c hlo hk (hS _ (by simp)) (hQ _ (by simp)) (hg _ (by simp)) hc)
      (ih hk hhi (fun x hx => hks x (by simp [hx])) (fun d hd => hS d (by simp [hd]))
        (fun d hd => hQ d (by simp [hd])) fun d hd => hg d (by simp [hd]))

end Fits

end Separated

import Grmpl.Ent.TreeJoin
import Grmpl.Ent.TreeWalk

/-!
# Every read agrees with the plain one

On a well-formed tree each read walk returns what filtering the tree's rows, in
key order, returns: the walk's offset, the separators' bounds and the cached
summaries it answers from never show.

* `Tree.get_spec`, `Tree.lastLe_spec`: lookups.
* `Tree.rangeCollect_spec`, `Tree.countRange_spec`, `Tree.anyIn_spec`,
  `Tree.measureRange_spec`: spans.
* `Tree.search_spec`, `Tree.iter_spec`: the search and the iterator.
-/

open OrdMap Separated Bisect

namespace Grmpl

namespace Tree

variable {K V M : Type} [Displace K] [Measure K V M] {p : Bool} {h : Nat} {U : K → Prop}
  {t : Tree K V M}

/-- The rows of a tree, in its handle's frame: what a plain sorted map of it holds. -/
def rows (t : Tree K V M) : List (K × V) := Leaf.rowsOf (slots t)

theorem sorted_rowsOf {l : List (K × Option V)} (h : Sorted l) : Sorted (Leaf.rowsOf l) := by
  refine List.Pairwise.filterMap _ ?_ h
  rintro ⟨k, w⟩ ⟨k', w'⟩ hlt x hx y hy
  simp only [Option.map_eq_some_iff] at hx hy
  obtain ⟨v, -, rfl⟩ := hx
  obtain ⟨v', -, rfl⟩ := hy
  exact hlt

omit [Displace K] in
theorem rowsOf_flatMap {α : Type} (f : α → List (K × Option V)) (l : List α) :
    Leaf.rowsOf (l.flatMap f) = l.flatMap fun x => Leaf.rowsOf (f x) := by
  induction l with
  | nil => rfl
  | cons x l ih => simp [ih]

/-- A node a read walk meets: a leaf of items, or children divided by separators,
both in the frame of the query. -/
theorem Node.view (ht : Node p h U t) :
    (∃ d s items, t = nodeLeaf d s items ∧ (∀ it ∈ items, it.Ok) ∧
        Leaf.Ok (items.map (·.displaced d)) ∧ slots t = Leaf.slots (items.map (·.displaced d))) ∨
      ∃ d s keys children h', t = nodeInternal d s keys children ∧ h = h' + 1 ∧ children ≠ [] ∧
        Forest (Child p h' U) none none (keys.map (displace · d)) (children.map (·.relocate d)) ∧
        slots t = (children.map (·.relocate d)).flatMap slots := by
  cases h with
  | zero => cases t <;> exact ht.elim
  | succ h =>
    cases t with
    | nil => exact ht.elim
    | nodeSplit d s col pivot lo hi => exact ht.elim
    | nodeLeaf d s items =>
      have hraw := ht.2.1.ok.items_ok
      cases ht.shape with
      | leaf ho hok hslots _ _ =>
        obtain rfl := Opened.leaf.inj ho
        exact Or.inl ⟨d, s, items, rfl, hraw, hok.ok, hslots⟩
      | internal ho _ _ _ _ _ _ => cases ho
    | nodeInternal d s keys children =>
      cases ht.shape with
      | leaf ho _ _ _ _ => cases ho
      | internal ho h2 _ _ hch hslots _ =>
        obtain ⟨rfl, rfl⟩ := Opened.internal.inj ho
        refine Or.inr ⟨d, s, keys, children, h, rfl, rfl, ?_, hch, hslots⟩
        rintro rfl
        simp at h2

/-! ## Lookups -/

omit [Measure K V M] in
theorem getIn_relocate (key : K) (fuel : Nat) (t : Tree K V M) (d off : Dsp) :
    getIn key fuel (t.relocate d) off = getIn key fuel t (off + d) := by
  cases fuel with
  | zero => rfl
  | succ fuel => cases t <;> simp only [relocate, getIn, dsp_off]

/-- The child a walk descends into, in the query's frame. -/
theorem descend_spec {d : Dsp} {keys : List K} {children : List (Tree K V M)}
    (hch : Forest (Child p h U) none none (keys.map (displace · d)) (children.map (·.relocate d)))
    (key : K) :
    ∃ c b₁ b₂, children[childIndex keys d key]? = some c ∧
      Spine p h U (keys.map (displace · d)) (children.map (·.relocate d)) key
        (childIndex keys d key) (c.relocate d) b₁ b₂ := by
  obtain ⟨c', b₁, b₂, hs⟩ := childIndex_spec hch key
  rw [childIndex_displaced]
  have hget := hs.get
  rw [List.getElem?_map, Option.map_eq_some_iff] at hget
  obtain ⟨c, hget, rfl⟩ := hget
  exact ⟨c, b₁, b₂, hget, hs⟩

/-- A lookup in a node is a lookup in the child the key belongs to. -/
theorem Spine.lookup_eq {ks : List K} {ch : List (Tree K V M)} {key : K} {i : Nat}
    {c : Tree K V M} {b₁ b₂ : Option K} (hs : Spine p h U ks ch key i c b₁ b₂) :
    lookup key (ch.flatMap slots) = lookup key (slots c) := by
  rw [hs.slots_eq, List.append_assoc, lookup_append fun e he => (hs.below e he).ne,
    lookup_append_right fun e he => (hs.above e he).ne']

theorem getIn_spec (key : K) : ∀ (fuel h : Nat) (t : Tree K V M), h ≤ fuel → Node p h U t →
    getIn key fuel t 0 = (lookup key (slots t)).join := by
  intro fuel
  induction fuel with
  | zero =>
    intro h t hh ht
    obtain rfl : h = 0 := by omega
    cases t <;> exact ht.elim
  | succ fuel ih =>
    intro h t hh ht
    rcases ht.view with ⟨d, s, items, rfl, hraw, hok, hslots⟩ |
      ⟨d, s, keys, children, h, rfl, rfl, -, hch, hslots⟩
    · rw [hslots, ← Leaf.get_eq_slot hok, ← Leaf.get_displaced hraw]
      simp [getIn]
    · obtain ⟨c, b₁, b₂, hget, hs⟩ := descend_spec hch key
      rw [hslots, hs.lookup_eq, ← ih h (c.relocate d) (by omega) hs.child.1.1, getIn_relocate]
      simp [getIn, hget]

/-- **`get`** finds the value the rows bind to the key. -/
theorem get_spec (ht : Sound p U t) (key : K) : t.get key = lookup key (rows t) := by
  rw [rows, Leaf.lookup_rowsOf ht.sorted]
  rcases ht with rfl | ⟨h, ht⟩
  · rfl
  · exact getIn_spec key t.depth h t ht.depth_eq.1.ge ht

omit [Measure K V M] in
theorem lastLeIn_relocate (key : K) (fuel : Nat) (t : Tree K V M) (d off : Dsp) :
    lastLeIn key fuel (t.relocate d) off = lastLeIn key fuel t (off + d) := by
  cases fuel with
  | zero => rfl
  | succ fuel =>
    cases t with
    | nodeSplit e s col pivot lo hi =>
      cases col <;> simp only [relocate, lastLeIn, dsp, Tree.view, dsp_off]
    | _ => simp only [relocate, lastLeIn, dsp, Tree.view, dsp_off]; try rfl

/-- Looking downwards for the last entry at or below a key. -/
theorem findSome_lastAtMost {α : Type} (key : K) (f : α → List (K × V)) (l : List α) :
    l.reverse.findSome? (fun x => Leaf.lastAtMost key (f x))
      = Leaf.lastAtMost key (l.flatMap f) := by
  induction l with
  | nil => rfl
  | cons x l ih =>
    rw [List.reverse_cons, List.findSome?_append, ih, List.flatMap_cons, Leaf.lastAtMost_append]
    simp

theorem lastLeIn_spec (key : K) : ∀ (fuel h : Nat) (t : Tree K V M), h ≤ fuel → Node p h U t →
    lastLeIn key fuel t 0 = Leaf.lastAtMost key (rows t) := by
  intro fuel
  induction fuel with
  | zero =>
    intro h t hh ht
    obtain rfl : h = 0 := by omega
    cases t <;> exact ht.elim
  | succ fuel ih =>
    intro h t hh ht
    rcases ht.view with ⟨d, s, items, rfl, hraw, hok, hslots⟩ |
      ⟨d, s, keys, children, h, rfl, rfl, -, hch, hslots⟩
    · rw [rows, hslots, ← Leaf.lastLe_eq hok, ← Leaf.lastLe_displaced hraw]
      simp [lastLeIn, Tree.view, dsp]
    · obtain ⟨c, b₁, b₂, hget, hs⟩ := descend_spec hch key
      have habove : Leaf.lastAtMost key
          (Leaf.rowsOf (((children.map (·.relocate d)).drop (childIndex keys d key + 1)).flatMap
            slots)) = none :=
        Leaf.lastAtMost_above fun e he => hs.above _ (Leaf.mem_rowsOf.1 he)
      have hall := congrArg (List.flatMap slots)
        (List.take_append_drop (childIndex keys d key + 1) (children.map (·.relocate d)))
      rw [List.flatMap_append] at hall
      rw [rows, hslots, ← hall, Leaf.rowsOf_append, Leaf.lastAtMost_append, habove, Option.none_or,
        rowsOf_flatMap, ← findSome_lastAtMost]
      simp only [lastLeIn, Tree.view, dsp, Int64.zero_add]
      rw [← List.map_take, ← List.map_reverse, List.findSome?_map, ← List.head?_filterMap,
        ← List.head?_filterMap]
      congr 1
      refine List.filterMap_congr fun c hc => ?_
      have hmem : c.relocate d ∈ children.map (·.relocate d) :=
        List.mem_map_of_mem (List.mem_of_mem_take (List.mem_reverse.1 hc))
      obtain ⟨_, _, ⟨hcN, -⟩, -⟩ := hch.of_mem _ hmem
      rw [Function.comp_apply, ← rows, ← ih h (c.relocate d) (by omega) hcN, lastLeIn_relocate,
        Int64.zero_add]

/-- **`lastLe`** finds the greatest row at or below the key. -/
theorem lastLe_spec (ht : Sound p U t) (key : K) : t.lastLe key = Leaf.lastAtMost key (rows t) := by
  rcases ht with rfl | ⟨h, ht⟩
  · rfl
  · exact lastLeIn_spec key t.depth h t ht.depth_eq.1.ge ht

/-! ## Spans -/

variable {lo hi : K}

/-- The entries of a plain list in a span, piece by piece. -/
theorem between_flatMap {α : Type} (lo hi : K) (f : α → List (K × V)) (l : List α) :
    between lo hi (l.flatMap f) = l.flatMap fun x => between lo hi (f x) := by
  induction l with
  | nil => rfl
  | cons x l ih => simp only [List.flatMap_cons, between, List.filter_append] at ih ⊢; rw [ih]

omit [Measure K V M] in
theorem span_displaced (keys : List K) (children : List (Tree K V M)) (d : Dsp) (lo hi : K) :
    span (keys.map (displace · d)) (children.map (·.relocate d)) 0 lo hi
      = (span keys children d lo hi).map fun c => (c.1, c.2.relocate d) := by
  simp only [span, Leaf.partitionPoint_map, List.length_map, List.getElem?_map, List.map_filterMap,
    Displace.cmpDisplaced_eq, Displace.displace_zero, Option.map_map]
  rfl

/-- A window of a list by its indices. -/
theorem filterMap_range' {α : Type} (l : List α) : ∀ (n a : Nat), a + n ≤ l.length →
    (List.range' a n).filterMap (l[·]?) = (l.drop a).take n := by
  intro n
  induction n with
  | zero => intros; simp
  | succ n ih =>
    intro a ha
    have hget : l[a]? = some l[a] := List.getElem?_eq_getElem (by omega)
    rw [List.range'_succ, List.filterMap_cons_some hget, ih (a + 1) (by omega),
      List.drop_eq_getElem_cons (show a < l.length by omega), List.take_succ_cons]

/-- The children of a span are consecutive, and no other child has a key in it. -/
theorem span_spec {ks : List K} {ch : List (Tree K V M)}
    (hch : Forest (Child p h U) none none ks ch) (hlt : lo < hi) :
    ∃ a m b, ch = a ++ m ++ b ∧ (span ks ch 0 lo hi).map Prod.snd = m ∧
      (∀ c ∈ span ks ch 0 lo hi, ch[c.1]? = some c.2) ∧
      ∀ e ∈ (a ++ b).flatMap slots, ¬ (lo ≤ e.1 ∧ e.1 < hi) := by
  have hlen := hch.length_eq
  have hsorted : ks.Pairwise (· < ·) := by simpa using hch.seps_sorted
  -- the separators at or below `lo`, those up to `hi`, and the rest
  obtain ⟨ka, kr, rfl, hka, hkr⟩ := exists_divided (l := ks) (p := fun k => decide (k ≤ lo))
    (hsorted.imp fun {x y} hxy => by simpa using hxy.le.trans)
  obtain ⟨km, kb, rfl, hkm, hkb⟩ := exists_divided (l := kr) (p := fun k => decide (k < hi))
    ((List.pairwise_append.1 hsorted).2.1.imp fun {x y} hxy => by simpa using hxy.trans)
  have hfirst : partitionPoint (ka ++ (km ++ kb)) (fun k => decide (cmpDisplaced k 0 lo ≠ .gt))
      = ka.length := by
    refine partitionPoint_append (fun x hx => ?_) fun x hx => ?_
    · simpa [compare_gt_iff_gt] using hka x hx
    · simpa [compare_gt_iff_gt] using hkr x hx
  have hlast : partitionPoint (ka ++ (km ++ kb)) (fun k => decide (cmpDisplaced k 0 hi = .lt))
      = (ka ++ km).length := by
    rw [← List.append_assoc]
    refine partitionPoint_append (fun x hx => ?_) fun x hx => ?_
    · rcases List.mem_append.1 hx with hx | hx
      · have : x ≤ lo := by simpa using hka x hx
        simpa [compare_lt_iff_lt] using this.trans_lt hlt
      · simpa [compare_lt_iff_lt] using hkm x hx
    · simpa [compare_lt_iff_lt] using hkb x hx
  have hwindow : span (ka ++ (km ++ kb)) ch 0 lo hi
      = (List.range' ka.length (km.length + 1)).filterMap fun i => (ch[i]?).map fun c => (i, c) := by
    simp only [List.length_append] at hlen hlast
    simp only [span, hfirst, hlast]
    rw [Nat.min_eq_left (by omega), Nat.max_eq_left (by omega)]
    congr 2
    omega
  have hsnd : (span (ka ++ (km ++ kb)) ch 0 lo hi).map Prod.snd
      = (ch.drop ka.length).take (km.length + 1) := by
    simp only [List.length_append] at hlen
    rw [hwindow, List.map_filterMap, ← filterMap_range' ch _ _ (by omega)]
    simp [Option.map_map, Function.comp_def]
  refine ⟨ch.take ka.length, _, ch.drop (ka.length + (km.length + 1)), ?_, hsnd, fun c hc => ?_,
    fun e he => ?_⟩
  · rw [List.append_assoc, ← List.drop_drop, List.take_append_drop, List.take_append_drop]
  · rw [hwindow] at hc
    obtain ⟨i, -, hi⟩ := List.mem_filterMap.1 hc
    obtain ⟨c', hc', rfl⟩ := Option.map_eq_some_iff.1 hi
    exact hc'
  · rw [List.flatMap_append] at he
    simp only [List.length_append] at hlen
    rintro ⟨hle, hlt'⟩
    rcases List.mem_append.1 he with he | he
    · obtain ⟨b₁, b₂, hseg, -, -⟩ := hch.zoom (i := ka.length) (by omega)
      obtain ⟨c, hc, he⟩ := List.mem_flatMap.1 he
      refine absurd (hseg.keys_lt_of (x := lo) (fun l hl => ?_) c hc _ (List.mem_map_of_mem he))
        (not_lt.2 hle)
      rw [List.take_left] at hseg
      rcases hseg.eq_nil_or_snoc with ⟨rfl, -, -⟩ | ⟨_, ks', k, _, _, hks, -, rfl, -, -⟩
      · cases hl
      · obtain rfl := Option.some.inj hl
        simpa using hka k (by simp [hks])
    · obtain ⟨b₁, b₂, -, -, htail⟩ := hch.zoom (i := (ka ++ km).length) (by simp; omega)
      rw [← List.append_assoc, List.drop_left, List.length_append] at htail
      obtain ⟨c, hc, he⟩ := List.mem_flatMap.1 he
      generalize hd : ch.drop (ka.length + km.length + 1) = cd at htail
      rw [← Nat.add_assoc, hd] at hc
      cases htail with
      | nil => cases hc
      | @cons _ k kb' _ hf =>
        have hk : hi ≤ k := by simpa using hkb k (by simp)
        exact absurd hlt' (not_lt.2 (hk.trans (hf.keys_ge c hc _ (List.mem_map_of_mem he))))

theorem between_append {W : Type} (lo hi : K) (x y : List (K × W)) :
    between lo hi (x ++ y) = between lo hi x ++ between lo hi y := List.filter_append _ _

/-- What a node has in a span is what the span's children have in it. -/
theorem between_span {ks : List K} {ch : List (Tree K V M)}
    (hch : Forest (Child p h U) none none ks ch) (hlt : lo < hi) :
    between lo hi (ch.flatMap slots)
      = (span ks ch 0 lo hi).flatMap fun c => between lo hi (slots c.2) := by
  obtain ⟨a, m, b, hsplit, hm, -, hout⟩ := span_spec hch hlt
  have hnone : ∀ l : List (Tree K V M), (∀ c ∈ l, c ∈ a ++ b) →
      between lo hi (l.flatMap slots) = [] := by
    intro l hl
    refine filter_eq_nil_of fun e he => ?_
    obtain ⟨c, hc, hce⟩ := List.mem_flatMap.1 he
    simpa using hout _ (List.mem_flatMap.2 ⟨c, hl c hc, hce⟩)
  have hmap : (span ks ch 0 lo hi).flatMap (fun c => between lo hi (slots c.2))
      = m.flatMap fun c => between lo hi (slots c) := by
    rw [← hm, List.flatMap_map]
  rw [hmap, hsplit, List.flatMap_append, List.flatMap_append, between_append, between_append,
    hnone a fun c hc => List.mem_append_left _ hc, hnone b fun c hc => List.mem_append_right _ hc,
    List.nil_append, List.append_nil, between_flatMap]

theorem rowsOf_between (lo hi : K) (l : List (K × Option V)) :
    Leaf.rowsOf (between lo hi l) = between lo hi (Leaf.rowsOf l) := by
  induction l with
  | nil => rfl
  | cons e l ih =>
    obtain ⟨k, w⟩ := e
    simp only [between, Leaf.rowsOf] at ih ⊢
    cases w with
    | none => by_cases hk : lo ≤ k ∧ k < hi <;> simpa [hk] using ih
    | some v => by_cases hk : lo ≤ k ∧ k < hi <;> simpa [hk] using ih

omit [Measure K V M] in
theorem mem_span {keys : List K} {children : List (Tree K V M)} {d : Dsp} {c : Nat × Tree K V M}
    (hc : c ∈ span keys children d lo hi) : children[c.1]? = some c.2 := by
  obtain ⟨i, -, hi⟩ := List.mem_filterMap.1 hc
  obtain ⟨c', hc', rfl⟩ := Option.map_eq_some_iff.1 hi
  exact hc'

/-- The rows of an internal node in a span, child by child of the stored node. -/
theorem rows_span {d : Dsp} {s : Summary M} {keys : List K} {children : List (Tree K V M)}
    (hch : Forest (Child p h U) none none (keys.map (displace · d)) (children.map (·.relocate d)))
    (hslots : slots (nodeInternal d s keys children) = (children.map (·.relocate d)).flatMap slots)
    (hlt : lo < hi) :
    between lo hi (slots (nodeInternal d s keys children))
      = (span keys children d lo hi).flatMap fun c => between lo hi (slots (c.2.relocate d)) := by
  rw [hslots, between_span hch hlt, span_displaced, List.flatMap_map]

omit [Measure K V M] in
theorem rangeInto_relocate (fuel : Nat) (t : Tree K V M) (d off : Dsp) :
    rangeInto lo hi fuel (t.relocate d) off = rangeInto lo hi fuel t (off + d) := by
  cases fuel with
  | zero => rfl
  | succ fuel =>
    cases t with
    | nodeSplit e s col pivot l r => cases col <;> simp only [relocate, rangeInto, dsp, view, dsp_off]
    | _ => simp only [relocate, rangeInto, dsp, view, dsp_off]; try rfl

theorem rangeInto_spec (hlt : lo < hi) : ∀ (fuel h : Nat) (t : Tree K V M), h ≤ fuel →
    Node p h U t → rangeInto lo hi fuel t 0 = between lo hi (rows t) := by
  intro fuel
  induction fuel with
  | zero =>
    intro h t hh ht
    obtain rfl : h = 0 := by omega
    cases t <;> exact ht.elim
  | succ fuel ih =>
    intro h t hh ht
    rcases ht.view with ⟨d, s, items, rfl, hraw, hok, hslots⟩ |
      ⟨d, s, keys, children, h, rfl, rfl, -, hch, hslots⟩
    · rw [rows, hslots, ← Leaf.rangeIn_eq hok, ← Leaf.rangeIn_displaced hraw]
      simp [rangeInto, Tree.view, dsp]
    · rw [rows, ← rowsOf_between, rows_span hch hslots hlt, rowsOf_flatMap]
      simp only [rangeInto, Tree.view, dsp, Int64.zero_add]
      refine List.flatMap_congr fun c hc => ?_
      obtain ⟨_, _, ⟨hcN, -⟩, -⟩ :=
        hch.of_mem _ (List.mem_map_of_mem (List.mem_of_getElem? (mem_span hc)))
      rw [rowsOf_between, ← rows, ← ih h _ (by omega) hcN, rangeInto_relocate, Int64.zero_add]

omit [Measure K V M] in
/-- Entries in key order are not sorted again. -/
theorem inKeyOrder_sorted {l : List (K × V)} (h : Sorted l) : inKeyOrder l = l := by
  unfold inKeyOrder
  rw [if_pos]
  exact h.imp fun hab => hab.le

/-- **`rangeCollect`** collects the rows of the span in order. -/
theorem rangeCollect_spec (ht : Sound p U t) (lo hi : K) :
    t.rangeCollect lo hi = between lo hi (rows t) := by
  unfold rangeCollect
  split
  · rename_i hlt
    rcases ht with rfl | ⟨h, ht⟩
    · rfl
    · rw [rangeInto_spec hlt t.depth h t ht.depth_eq.1.ge ht]
      exact inKeyOrder_sorted ((sorted_rowsOf ht.sorted).filter _)
  · rename_i hlt
    refine (filter_eq_nil_of fun e _ => ?_).symm
    simpa using fun hle => (not_lt.1 hlt).trans hle

/-! ### Bounds carried down -/

/-- The key a known bound stands for, in the query's frame. -/
def boundKey (b : Bound K) : Option K := b.map fun x => displace x.1 x.2

/-- A subtree called disjoint has no key in the span. -/
theorem disjoint_spec {nlo nhi : Bound K} (hd : disjoint nlo nhi lo hi = true) {k : K}
    (hw : Within (boundKey nlo) (boundKey nhi) k) : ¬ (lo ≤ k ∧ k < hi) := by
  rintro ⟨hle, hlt⟩
  simp only [disjoint, Bool.or_eq_true, Option.any_eq_true, Displace.cmpDisplaced_eq, ne_eq,
    decide_eq_true_eq, compare_lt_iff_lt, compare_gt_iff_gt, not_lt] at hd
  rcases hd with ⟨b, rfl, hb⟩ | ⟨b, rfl, hb⟩
  · exact absurd ((hw.1 _ rfl).trans_lt hlt) (not_lt.2 hb)
  · exact absurd (hle.trans_lt (hw.2 _ rfl)) (not_lt.2 hb)

/-- A subtree called contained has all its keys in the span. -/
theorem contained_spec {nlo nhi : Bound K} (hc : contained nlo nhi lo hi = true) {k : K}
    (hw : Within (boundKey nlo) (boundKey nhi) k) : lo ≤ k ∧ k < hi := by
  simp only [contained, Bool.and_eq_true, Option.any_eq_true, Displace.cmpDisplaced_eq, ne_eq,
    decide_eq_true_eq, compare_lt_iff_lt, compare_gt_iff_gt, not_lt] at hc
  obtain ⟨⟨b, rfl, hb⟩, b', rfl, hb'⟩ := hc
  exact ⟨hb.trans (hw.1 _ rfl), (hw.2 _ rfl).trans_le hb'⟩

/-- The bounds a walk carries to a child hold of the child. -/
theorem child_bounds {d : Dsp} {keys : List K} {children : List (Tree K V M)} {nlo nhi : Bound K}
    (hch : Forest (Child p h U) none none (keys.map (displace · d)) (children.map (·.relocate d)))
    (hw : ∀ e ∈ (children.map (·.relocate d)).flatMap slots,
      Within (boundKey nlo) (boundKey nhi) e.1) {c : Nat × Tree K V M}
    (hc : c ∈ span keys children d lo hi) :
    Node p h U (c.2.relocate d) ∧ ∀ e ∈ slots (c.2.relocate d),
      Within (boundKey (lowBound nlo keys d c.1))
        (boundKey (highBound nhi keys d children.length c.1)) e.1 := by
  have hchain : Forest (Child p h U) (boundKey nlo) (boundKey nhi) (keys.map (displace · d))
      (children.map (·.relocate d)) := hch.rebound fun x hx k hk => by
    obtain ⟨e, he, rfl⟩ := List.mem_map.1 hk
    exact hw e (List.mem_flatMap.2 ⟨x, hx, he⟩)
  obtain ⟨hi, hget⟩ := List.getElem?_eq_some_iff.1 (mem_span hc)
  have hat := hchain.bounds_at (i := c.1) (by simpa using hi)
  simp only [List.getElem_map, hget] at hat
  refine ⟨hat.1.1, fun e he => ?_⟩
  have hwithin := child_within hat e he
  refine ⟨fun l hl => hwithin.1 l ?_, fun u hu => hwithin.2 u ?_⟩
  · unfold lowBound at hl
    split
    · rename_i h0
      rwa [if_pos h0] at hl
    · rename_i h0
      rw [if_neg h0] at hl
      simpa [boundKey] using hl
  · unfold highBound at hu
    simp only [List.length_map]
    split
    · rename_i h0
      rwa [if_pos h0] at hu
    · rename_i h0
      rw [if_neg h0] at hu
      simpa [boundKey] using hu

omit [Measure K V M] in
theorem countInto_relocate (fuel : Nat) (t : Tree K V M) (d off : Dsp) (nlo nhi : Bound K) :
    countInto lo hi fuel (t.relocate d) nlo nhi off = countInto lo hi fuel t nlo nhi (off + d) := by
  cases fuel with
  | zero => rfl
  | succ fuel =>
    cases t with
    | nodeSplit e s col pivot l r =>
      cases col <;> simp only [relocate, countInto, dsp, view, dsp_off, isEmpty, len, sum]
    | _ => simp only [relocate, countInto, dsp, view, dsp_off, isEmpty, len, sum]; try rfl

theorem between_outside {l : List (K × V)} (h : ∀ e ∈ l, ¬ (lo ≤ e.1 ∧ e.1 < hi)) :
    between lo hi l = [] := filter_eq_nil_of fun e he => by simpa using h e he

theorem between_inside {l : List (K × V)} (h : ∀ e ∈ l, lo ≤ e.1 ∧ e.1 < hi) :
    between lo hi l = l := filter_eq_self_of fun e he => by simpa using h e he

theorem countInto_spec (hlt : lo < hi) : ∀ (fuel h : Nat) (t : Tree K V M) (nlo nhi : Bound K),
    h ≤ fuel → Node p h U t → (∀ e ∈ slots t, Within (boundKey nlo) (boundKey nhi) e.1) →
      countInto lo hi fuel t nlo nhi 0 = (between lo hi (rows t)).length := by
  intro fuel
  induction fuel with
  | zero =>
    intro h t nlo nhi hh ht
    obtain rfl : h = 0 := by omega
    cases t <;> exact ht.elim
  | succ fuel ih =>
    intro h t nlo nhi hh ht hw
    have hwr : ∀ e ∈ rows t, Within (boundKey nlo) (boundKey nhi) e.1 :=
      fun e he => hw _ (Leaf.mem_rowsOf.1 he)
    unfold countInto
    rw [ht.isEmpty, Bool.false_or]
    by_cases hd : disjoint nlo nhi lo hi = true
    · rw [if_pos hd, between_outside fun e he => disjoint_spec hd (hwr e he)]
      rfl
    rw [if_neg hd]
    by_cases hc : contained nlo nhi lo hi = true
    · rw [if_pos hc, between_inside fun e he => contained_spec hc (hwr e he)]
      exact ht.len_eq.1
    rw [if_neg hc]
    rcases ht.view with ⟨d, s, items, rfl, hraw, hok, hslots⟩ |
      ⟨d, s, keys, children, h, rfl, rfl, -, hch, hslots⟩
    · rw [rows, hslots, ← Leaf.countIn_eq hok, ← Leaf.countIn_displaced hraw]
      simp [Tree.view, dsp]
    · rw [rows, ← rowsOf_between, rows_span hch hslots hlt, rowsOf_flatMap, List.length_flatMap]
      rw [hslots] at hw
      simp only [Tree.view, dsp, Int64.zero_add]
      congr 1
      refine List.map_congr_left fun c hcs => ?_
      obtain ⟨hcN, hcw⟩ := child_bounds hch hw hcs
      rw [rowsOf_between, ← rows, ← ih h _ _ _ (by omega) hcN hcw, countInto_relocate,
        Int64.zero_add]

/-- **`countRange`** counts the rows of the span. -/
theorem countRange_spec (ht : Sound p U t) (lo hi : K) :
    t.countRange lo hi = (between lo hi (rows t)).length := by
  unfold countRange
  split
  · rename_i hlt
    rcases ht with rfl | ⟨h, ht⟩
    · rfl
    · exact countInto_spec hlt t.depth h t none none ht.depth_eq.1.ge ht fun e _ => within_none e.1
  · rename_i hlt
    rw [between_outside fun e _ he => absurd (he.1.trans_lt he.2) hlt]
    rfl

omit [Measure K V M] in
theorem anyInto_relocate (fuel : Nat) (t : Tree K V M) (d off : Dsp) (nlo nhi : Bound K) :
    anyInto lo hi fuel (t.relocate d) nlo nhi off = anyInto lo hi fuel t nlo nhi (off + d) := by
  cases fuel with
  | zero => rfl
  | succ fuel =>
    cases t with
    | nodeSplit e s col pivot l r =>
      cases col <;>
        (simp only [relocate, anyInto, dsp, view, dsp_off, isEmpty, len, reserved, sum]; rfl)
    | _ => simp only [relocate, anyInto, dsp, view, dsp_off, isEmpty, len, reserved, sum]; try rfl

/-- A slot of a plain list lies in a span. -/
def anySlot (lo hi : K) (S : List (K × Option V)) : Bool := !(between lo hi S).isEmpty

theorem anySlot_eq_any (lo hi : K) (S : List (K × Option V)) :
    anySlot lo hi S = S.any fun e => lo ≤ e.1 ∧ e.1 < hi := by
  refine Bool.eq_iff_iff.2 ?_
  simp [anySlot, between]

theorem anyInto_spec (hlt : lo < hi) : ∀ (fuel h : Nat) (t : Tree K V M) (nlo nhi : Bound K),
    h ≤ fuel → Node p h U t → (∀ e ∈ slots t, Within (boundKey nlo) (boundKey nhi) e.1) →
      anyInto lo hi fuel t nlo nhi 0 = anySlot lo hi (slots t) := by
  intro fuel
  induction fuel with
  | zero =>
    intro h t nlo nhi hh ht
    obtain rfl : h = 0 := by omega
    cases t <;> exact ht.elim
  | succ fuel ih =>
    intro h t nlo nhi hh ht hw
    unfold anyInto
    rw [ht.isEmpty, Bool.false_or]
    by_cases hd : disjoint nlo nhi lo hi = true
    · rw [if_pos hd, anySlot, between_outside fun e he => disjoint_spec hd (hw e he)]
      rfl
    rw [if_neg hd]
    by_cases hc : contained nlo nhi lo hi = true
    · rw [if_pos hc, anySlot, between_inside fun e he => contained_spec hc (hw e he)]
      -- some slot, so some row or some reserved key
      have hpos := List.length_pos_of_ne_nil ht.slots_ne_nil
      rw [← ht.len_eq.2] at hpos
      rw [show (slots t).isEmpty = false by simpa using ht.slots_ne_nil]
      simp only [Bool.not_false, Bool.or_eq_true, decide_eq_true_eq]
      omega
    rw [if_neg hc]
    rcases ht.view with ⟨d, s, items, rfl, hraw, hok, hslots⟩ |
      ⟨d, s, keys, children, h, rfl, rfl, -, hch, hslots⟩
    · rw [hslots, anySlot_eq_any, ← Leaf.anyIn_eq hok, ← Leaf.anyIn_displaced hraw]
      simp [Tree.view, dsp]
    · rw [anySlot, rows_span hch hslots hlt]
      rw [hslots] at hw
      simp only [Tree.view, dsp, Int64.zero_add]
      refine Bool.eq_iff_iff.2 ?_
      simp only [List.any_eq_true, Bool.not_eq_true', List.isEmpty_eq_false_iff, ne_eq,
        List.flatMap_eq_nil_iff, not_forall]
      refine exists_congr fun c => ?_
      rw [exists_prop]
      refine and_congr_right fun hcs => ?_
      obtain ⟨hcN, hcw⟩ := child_bounds hch hw hcs
      rw [← Int64.zero_add d, ← anyInto_relocate, Int64.zero_add, ih h _ _ _ (by omega) hcN hcw,
        anySlot]
      simp

/-- **`anyIn`** tells whether the span has a key, a row's or a reserved one. -/
theorem anyIn_spec (ht : Sound p U t) (lo hi : K) : t.anyIn lo hi = anySlot lo hi (slots t) := by
  unfold anyIn
  by_cases hlt : lo < hi
  · rw [decide_eq_true hlt, Bool.true_and]
    rcases ht with rfl | ⟨h, ht⟩
    · rfl
    · exact anyInto_spec hlt t.depth h t none none ht.depth_eq.1.ge ht fun e _ => within_none e.1
  · rw [decide_eq_false hlt, Bool.false_and, anySlot,
      between_outside fun e _ he => absurd (he.1.trans_lt he.2) hlt]
    rfl

/-! ### The measure of a span -/

theorem foldRange_relocate (fuel : Nat) (t : Tree K V M) (d off : Dsp) (nlo nhi : Bound K) (acc : M) :
    foldRange lo hi fuel (t.relocate d) nlo nhi off acc
      = foldRange lo hi fuel t nlo nhi (off + d) acc := by
  cases fuel with
  | zero => rfl
  | succ fuel =>
    cases t with
    | nodeSplit e s col pivot l r =>
      cases col <;>
        (simp only [relocate, foldRange, dsp, view, dsp_off, localMeasure, sum]; rfl)
    | _ => simp only [relocate, foldRange, dsp, view, dsp_off, localMeasure, sum]; try rfl

theorem localMeasure_node (ht : Node p h U t) : ∃ m, t.localMeasure = some m := by
  cases h <;> cases t <;> first | exact ht.elim | exact ⟨_, rfl⟩

theorem foldRange_spec [LawfulMeasure K V M] (hlt : lo < hi) :
    ∀ (fuel h : Nat) (t : Tree K V M) (nlo nhi : Bound K) (acc : M), h ≤ fuel → Node p h U t →
      (∀ e ∈ slots t, Within (boundKey nlo) (boundKey nhi) e.1) →
      foldRange lo hi fuel t nlo nhi 0 acc
        = Measure.combine K V acc (Measure.ofEntries M (between lo hi (rows t))) := by
  intro fuel
  induction fuel with
  | zero =>
    intro h t nlo nhi acc hh ht
    obtain rfl : h = 0 := by omega
    cases t <;> exact ht.elim
  | succ fuel ih =>
    intro h t nlo nhi acc hh ht hw
    have hwr : ∀ e ∈ rows t, Within (boundKey nlo) (boundKey nhi) e.1 :=
      fun e he => hw _ (Leaf.mem_rowsOf.1 he)
    obtain ⟨m, hm⟩ := localMeasure_node ht
    unfold foldRange
    rw [hm]
    simp only
    by_cases hd : disjoint nlo nhi lo hi = true
    · rw [if_pos hd, between_outside fun e he => disjoint_spec hd (hwr e he)]
      exact (LawfulMeasure.combine_empty acc).symm
    rw [if_neg hd]
    by_cases hc : contained nlo nhi lo hi = true
    · rw [if_pos hc, between_inside fun e he => contained_spec hc (hwr e he), rows,
        ← ht.measure_eq]
      congr 1
      rw [Int64.zero_add]
      unfold measure
      rw [hm]
      split
      · rename_i hzero
        rw [hzero]
        exact (LawfulMeasure.displace_zero m).symm
      · rfl
    rw [if_neg hc]
    rcases ht.view with ⟨d, s, items, rfl, hraw, hok, hslots⟩ |
      ⟨d, s, keys, children, h, rfl, rfl, -, hch, hslots⟩
    · rw [rows, hslots, ← Leaf.foldIn_eq hok, ← Leaf.foldIn_displaced hraw]
      simp [Tree.view, dsp]
    · rw [rows, ← rowsOf_between, rows_span hch hslots hlt, rowsOf_flatMap]
      rw [hslots] at hw
      simp only [Tree.view, dsp, Int64.zero_add]
      have fold : ∀ (l : List (Nat × Tree K V M)) (acc : M),
          (∀ c ∈ l, c ∈ span keys children d lo hi) →
          l.foldl (fun acc c => foldRange lo hi fuel c.2 (lowBound nlo keys d c.1)
            (highBound nhi keys d children.length c.1) d acc) acc
            = Measure.combine K V acc (Measure.ofEntries M
                (l.flatMap fun c => Leaf.rowsOf (between lo hi (slots (c.2.relocate d))))) := by
        intro l
        induction l with
        | nil => exact fun acc _ => (LawfulMeasure.combine_empty acc).symm
        | cons c l ihl =>
          intro acc hl
          obtain ⟨hcN, hcw⟩ := child_bounds hch hw (hl c (by simp))
          have hstep := ih h _ _ _ acc (by omega) hcN hcw
          rw [foldRange_relocate, Int64.zero_add, rows, ← rowsOf_between] at hstep
          rw [List.foldl_cons, hstep, ihl _ fun x hx => hl x (by simp [hx]), List.flatMap_cons,
            Measure.ofEntries_append, LawfulMeasure.combine_assoc]
      exact fold _ acc fun c hcs => hcs

/-- **`measureRange`** is the measure of the rows of the span. -/
theorem measureRange_spec [LawfulMeasure K V M] (ht : Sound p U t) (lo hi : K) :
    t.measureRange lo hi = Measure.ofEntries M (between lo hi (rows t)) := by
  unfold measureRange
  split
  · rename_i hlt
    rcases ht with rfl | ⟨h, ht⟩
    · rfl
    · rw [foldRange_spec hlt t.depth h t none none _ ht.depth_eq.1.ge ht fun e _ => within_none e.1,
        LawfulMeasure.empty_combine]
  · rename_i hlt
    rw [between_outside fun e _ he => absurd (he.1.trans_lt he.2) hlt]
    rfl

end Tree

end Grmpl

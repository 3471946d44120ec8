import Grmpl.Ent.LeafSlots

/-!
# Reads of a leaf agree with its rows

Every read of a leaf is what a filter of its rows gives. A read at an offset is
the read of the displaced items at offset zero, so the facts are proved at
offset zero and carried over.

* `Leaf.holder_spec`: where a key could be.
* `Leaf.get_eq`, `Leaf.rangeIn_eq`, `Leaf.countIn_eq`, `Leaf.foldIn_eq`,
  `Leaf.anyIn_eq`, `Leaf.lastLe_eq`: the reads.
-/

open Bisect OrdMap

namespace Grmpl

variable {K V M : Type} [Displace K]

/-! ## Reading at an offset -/

namespace Span

theorem below_displaced {s : Span K} (h : fits s.first s.stride) (off : Dsp) (key : K) :
    s.below off key = (s.displaced off).below 0 key := by
  simp [below, row_displaced h, show (s.displaced off).n = s.n from rfl]

theorem find_displaced {s : Span K} (h : fits s.first s.stride) (off : Dsp) (key : K) :
    s.find off key = (s.displaced off).find 0 key := by
  simp [find, below_displaced h, row_displaced h, show (s.displaced off).n = s.n from rfl]

theorem atOrBelow_displaced {s : Span K} (h : fits s.first s.stride) (off : Dsp) (key : K) :
    s.atOrBelow off key = (s.displaced off).atOrBelow 0 key := by
  simp [atOrBelow, below_displaced h, row_displaced h, show (s.displaced off).n = s.n from rfl]

theorem within_displaced {s : Span K} (h : fits s.first s.stride) (off : Dsp) (lo hi : K) :
    s.within off lo hi = (s.displaced off).within 0 lo hi := by
  simp [within, below_displaced h]

end Span

namespace Leaf

variable {items : List (Item K V)}

theorem partitionPoint_map {α β : Type} (f : α → β) (l : List α) (p : β → Bool) :
    partitionPoint (l.map f) p = partitionPoint l fun x => p (f x) := by
  simp only [partitionPoint, List.length_map, List.getElem?_map, Option.any_map]

theorem holder_displaced (items : List (Item K V)) (off : Dsp) (key : K) :
    holder items off key = holder (items.map (·.displaced off)) 0 key := by
  simp [holder, partitionPoint_map, Item.loKey_displaced]

theorem get_displaced (h : ∀ it ∈ items, it.Ok) (off : Dsp) (key : K) :
    get items off key = get (items.map (·.displaced off)) 0 key := by
  unfold get
  rw [← holder_displaced]
  cases holder items off key with
  | none => rfl
  | some i =>
    simp only [Option.bind_some, List.getElem?_map]
    cases hi : items[i]? with
    | none => rfl
    | some it =>
      have hok := h it (List.mem_of_getElem? hi)
      cases it with
      | one k v => simp [Item.displaced_eq]
      | run s v => simp [Item.displaced_eq, Span.find_displaced hok.1]
      | hole s => simp [Item.displaced_eq]

theorem findRow_displaced (h : ∀ it ∈ items, it.Ok) (off : Dsp) (key : K) :
    findRow items off key = findRow (items.map (·.displaced off)) 0 key := by
  unfold findRow
  rw [← holder_displaced]
  cases holder items off key with
  | none => rfl
  | some i =>
    simp only [Option.bind_some, List.getElem?_map]
    cases hi : items[i]? with
    | none => rfl
    | some it =>
      have hok := h it (List.mem_of_getElem? hi)
      cases it with
      | one k v => simp [Item.displaced_eq]
      | run s v => simp [Item.displaced_eq, Span.find_displaced hok.1]
      | hole s => simp [Item.displaced_eq]

/-- Looking at an offset in items moved into their parent's frame. -/
theorem findRow_map (h : ∀ it ∈ items, it.Ok) (d off : Dsp) (key : K) :
    findRow (items.map (·.displaced d)) off key = findRow items (off + d) key := by
  have hd : ∀ it ∈ items.map (·.displaced d), it.Ok := by
    intro it hit
    obtain ⟨x, hx, rfl⟩ := List.mem_map.1 hit
    exact (h x hx).displaced d
  rw [findRow_displaced hd, findRow_displaced h, List.map_map]
  congr 1
  refine List.map_congr_left fun it _ => ?_
  rw [Function.comp_apply, Item.displaced_displaced, Int64.add_comm]

theorem inSpan_displaced (k : K) (off : Dsp) (lo hi : K) :
    inSpan k off lo hi = inSpan (displace k off) 0 lo hi := by
  simp [inSpan]

theorem rangeIn_displaced (h : ∀ it ∈ items, it.Ok) (off : Dsp) (lo hi : K) :
    rangeIn items off lo hi = rangeIn (items.map (·.displaced off)) 0 lo hi := by
  unfold rangeIn
  rw [List.flatMap_map]
  refine List.flatMap_congr fun it hit => ?_
  have hok := h it hit
  cases it with
  | one k v => simp [Item.displaced_eq, inSpan_displaced k off]
  | run s v => simp [Item.displaced_eq, Span.within_displaced hok.1, Span.row_displaced hok.1]
  | hole s => simp [Item.displaced_eq]

theorem countIn_displaced (h : ∀ it ∈ items, it.Ok) (off : Dsp) (lo hi : K) :
    countIn items off lo hi = countIn (items.map (·.displaced off)) 0 lo hi := by
  unfold countIn
  rw [List.map_map]
  congr 1
  refine List.map_congr_left fun it hit => ?_
  have hok := h it hit
  cases it with
  | one k v => simp [Item.displaced_eq, inSpan_displaced k off]
  | run s v => simp [Item.displaced_eq, Span.within_displaced hok.1]
  | hole s => simp [Item.displaced_eq]

theorem anyIn_displaced (h : ∀ it ∈ items, it.Ok) (off : Dsp) (lo hi : K) :
    anyIn items off lo hi = anyIn (items.map (·.displaced off)) 0 lo hi := by
  unfold anyIn
  rw [List.any_map]
  refine Bool.eq_iff_iff.2 ?_
  simp only [List.any_eq_true, Function.comp_apply]
  refine exists_congr fun it => and_congr_right fun hit => ?_
  have hok := h it hit
  cases it with
  | one k v => simp [Item.displaced_eq, inSpan_displaced k off]
  | run s v => simp [Item.displaced_eq, Span.within_displaced hok.1]
  | hole s => simp [Item.displaced_eq, Span.within_displaced hok.1]

theorem lastLe_displaced (h : ∀ it ∈ items, it.Ok) (off : Dsp) (key : K) :
    lastLe items off key = lastLe (items.map (·.displaced off)) 0 key := by
  have from_displaced : ∀ i, lastLeFrom items off key i
      = lastLeFrom (items.map (·.displaced off)) 0 key i := by
    intro i
    induction i with
    | zero => rfl
    | succ i ih =>
      simp only [lastLeFrom, List.getElem?_map]
      cases hi : items[i]? with
      | none => simpa using ih
      | some it =>
        have hok := h it (List.mem_of_getElem? hi)
        cases it with
        | one k v => simp [Item.displaced_eq]
        | run s v =>
          simp only [Option.map_some, Item.displaced_eq, Span.atOrBelow_displaced hok.1,
            Span.row_displaced hok.1, Displace.displace_zero, ih]
        | hole s => simp [Item.displaced_eq, ih]
  simp [lastLe, holder_displaced items, from_displaced]

theorem foldIn_displaced [Measure K V M] (h : ∀ it ∈ items, it.Ok) (off : Dsp) (lo hi : K)
    (acc : M) : foldIn items off lo hi acc = foldIn (items.map (·.displaced off)) 0 lo hi acc := by
  induction items generalizing acc with
  | nil => rfl
  | cons it items ih =>
    have htl := ih fun x hx => h x (by simp [hx])
    have hok := h it (by simp)
    unfold foldIn at htl ⊢
    simp only [List.map_cons, List.foldl_cons, htl]
    congr 1
    cases it with
    | one k v => simp [Item.displaced_eq, inSpan_displaced k off]
    | run s v =>
      simp [Item.displaced_eq, Span.within_displaced hok.1, Span.row_displaced hok.1,
        show (s.displaced off).stride = s.stride from rfl]
    | hole s => simp [Item.displaced_eq]

/-! ## The reads at offset zero -/

/-- Where a key could be: before every item, or at the item its place falls at
or after, with everything earlier below that item and everything later above the
key. -/
theorem holder_spec (h : Ok items) (key : K) :
    (holder items 0 key = none ∧ ∀ e ∈ slots items, key < e.1) ∨
      ∃ a it b, items = a ++ it :: b ∧ holder items 0 key = some a.length ∧ it.loKey ≤ key ∧
        (∀ e ∈ slots a, e.1 < it.loKey) ∧ ∀ e ∈ slots b, key < e.1 := by
  obtain ⟨a, b, rfl, ha, hb⟩ := exists_divided (l := items)
    (p := fun it => decide (cmpDisplaced it.loKey 0 key ≠ .gt)) <| by
      refine h.pairwise_loKey.imp_of_mem fun {x y} hx _ hxy => ?_
      simp only [Displace.cmpDisplaced_eq, Displace.displace_zero, ne_eq, decide_eq_true_eq,
        compare_gt_iff_gt, not_lt]
      exact fun hy => (Item_loKey_le_hiKey h hx).trans (hxy.le.trans hy)
  have hpoint : partitionPoint (a ++ b) (fun it => decide (cmpDisplaced it.loKey 0 key ≠ .gt))
      = a.length := partitionPoint_append ha hb
  have hb_above : ∀ e ∈ slots b, key < e.1 := by
    intro e he
    obtain ⟨it, hit, hslot⟩ := mem_slots.1 he
    have hlo : key < it.loKey := by simpa [compare_gt_iff_gt] using hb it hit
    obtain ⟨u, w, rfl⟩ := List.append_of_mem hit
    have hok := (ok_middle (ok_append.1 h).2.1).2.1
    exact hlo.trans_le (Item.key_bounds (ok_singleton.1 hok).2 e hslot).1
  rcases List.eq_nil_or_concat' a with rfl | ⟨a', it, rfl⟩
  · left
    refine ⟨?_, by simpa using hb_above⟩
    unfold holder
    rw [hpoint]
    rfl
  · right
    refine ⟨a', it, b, by simp, ?_, ?_, ?_, hb_above⟩
    · unfold holder
      rw [hpoint]
      simp
    · simpa [compare_gt_iff_gt] using ha it (by simp)
    · rw [List.append_assoc, List.singleton_append] at h
      exact (ok_middle h).2.2.2.1

/-- In key order, the row at a key is the slot at the key if that is a row. -/
theorem lookup_rowsOf {l : List (K × Option V)} (h : Sorted l) (key : K) :
    lookup key (rowsOf l) = (lookup key l).join := by
  induction l with
  | nil => rfl
  | cons e l ih =>
    have hs := List.pairwise_cons.1 h
    obtain ⟨k, w⟩ := e
    by_cases hk : k = key
    · subst hk
      have habs : ∀ e ∈ rowsOf l, e.1 ≠ k := by
        intro e he
        obtain ⟨⟨k', w'⟩, hmem, he⟩ := List.mem_filterMap.1 he
        simp only [Option.map_eq_some_iff] at he
        obtain ⟨v, -, rfl⟩ := he
        exact (hs.1 _ hmem).ne'
      cases w with
      | none => simpa [rowsOf, lookup] using lookup_absent habs
      | some v => simp [rowsOf, lookup]
    · have htl := ih hs.2
      have hne : lookup key ((k, w) :: l) = lookup key l :=
        lookup_append (a := [(k, w)]) (by simpa using hk)
      rw [hne, ← htl]
      cases w with
      | none => rfl
      | some v => exact lookup_append (a := [(k, v)]) (by simpa using hk)

/-- The slot at a key lies in the item holding it. -/
theorem lookup_slots_middle {a b : List (Item K V)} {it : Item K V} {key : K}
    (hlo : it.loKey ≤ key) (ha : ∀ e ∈ slots a, e.1 < it.loKey) (hb : ∀ e ∈ slots b, key < e.1) :
    lookup key (slots (a ++ it :: b)) = lookup key it.slots := by
  rw [slots_append, slots_cons, lookup_append fun e he => ((ha e he).trans_le hlo).ne,
    lookup_append_right fun e he => (hb e he).ne']

theorem lookup_keys {s : Span K} (h : s.Ascends) (key : K) {W : Type} (w : W) :
    lookup key (s.keys.map fun k => (k, w)) = (s.find 0 key).map fun _ => w := by
  cases hf : s.find 0 key with
  | none =>
    have hne := (Span.find_eq_none h).1 hf
    refine lookup_absent fun e he => ?_
    obtain ⟨k, hk, rfl⟩ := List.mem_map.1 he
    obtain ⟨i, hi, rfl⟩ := Span.mem_keys.1 hk
    exact hne i hi
  | some j =>
    obtain ⟨hj, hrow⟩ := (Span.find_eq_some h).1 hf
    refine lookup_of_mem (Span.sorted_slots.2 h) ?_
    exact List.mem_map.2 ⟨key, Span.mem_keys.2 ⟨j, hj, hrow⟩, rfl⟩

theorem get_eq_slot (h : Ok items) (key : K) :
    get items 0 key = (lookup key (slots items)).join := by
  rcases holder_spec h key with ⟨hnone, hall⟩ | ⟨a, it, b, rfl, hsome, hlo, ha, hb⟩
  · rw [lookup_absent fun e he => (hall e he).ne']
    simp [get, hnone]
  · have hs := (ok_singleton.1 (ok_middle h).2.1).2
    rw [lookup_slots_middle hlo ha hb]
    simp only [get, hsome, Option.bind_some, List.getElem?_append_right (Nat.le_refl _),
      Nat.sub_self, List.getElem?_cons_zero]
    cases it with
    | one k v =>
      by_cases hk : k = key
      · simp [Item.slots, lookup, hk]
      · simp [Item.slots, lookup, hk]
    | run s v =>
      simp only [Item.slots, lookup_keys (Span.sorted_slots.1 hs)]
      cases s.find 0 key <;> rfl
    | hole s =>
      simp only [Item.slots, lookup_keys (Span.sorted_slots.1 hs)]
      cases s.find 0 key <;> rfl

/-- The value a leaf finds at a key is the one its rows give. -/
theorem get_eq (h : Ok items) (key : K) : get items 0 key = lookup key (rowsOf (slots items)) := by
  rw [get_eq_slot h, lookup_rowsOf h.sorted]

/-! ### Ranges -/

theorem inSpan_iff (k lo hi : K) : inSpan k 0 lo hi = true ↔ lo ≤ k ∧ k < hi := by
  simp [inSpan, compare_lt_iff_lt]

/-- The index range of a span's rows within bounds. -/
theorem within_spec {s : Span K} (h : s.Ascends) (lo hi : K) :
    (s.within 0 lo hi).1 ≤ (s.within 0 lo hi).2 ∧ (s.within 0 lo hi).2 ≤ s.n ∧
      ∀ i, i < s.n → ((lo ≤ s.row i ∧ s.row i < hi) ↔
        (s.within 0 lo hi).1 ≤ i ∧ i < (s.within 0 lo hi).2) := by
  obtain ⟨hlon, hlo₁, hlo₂⟩ := Span.below_spec h lo
  obtain ⟨hhin, hhi₁, hhi₂⟩ := Span.below_spec h hi
  simp only [Span.within]
  refine ⟨le_max_right _ _, max_le hhin hlon, fun i hi => ⟨fun ⟨h₁, h₂⟩ => ⟨?_, ?_⟩, fun ⟨h₁, h₂⟩ => ?_⟩⟩
  · by_contra hlt
    exact absurd (hlo₁ i (by omega)) (not_lt.2 h₁)
  · by_contra hge
    exact absurd (hhi₂ i (by omega) hi) (not_le.2 h₂)
  · exact ⟨hlo₂ i h₁ hi, hhi₁ i (by omega)⟩

/-- The rows of a span within bounds are the ones in its index range. -/
theorem filter_keys {s : Span K} (h : s.Ascends) (hf : fits s.first s.stride) (lo hi : K) :
    s.keys.filter (fun k => lo ≤ k ∧ k < hi)
      = (List.range' (s.within 0 lo hi).1 ((s.within 0 lo hi).2 - (s.within 0 lo hi).1)).map
          s.row := by
  obtain ⟨hab, hbn, hiff⟩ := within_spec h lo hi
  generalize (s.within 0 lo hi).1 = a at *
  generalize (s.within 0 lo hi).2 = b at *
  have hmid : (s.slice a s.n).keys = (s.slice a b).keys ++ (s.slice b s.n).keys := by
    have happ := List.range'_append_1 (s := a) (m := b - a) (n := s.n - b)
    rw [show a + (b - a) = b by omega, show b - a + (s.n - b) = s.n - a by omega] at happ
    rw [Span.keys_slice hf, Span.keys_slice hf, Span.keys_slice hf, ← List.map_append, happ]
  have mem_slice : ∀ lo' hi' k, k ∈ (s.slice lo' hi').keys →
      ∃ i, lo' ≤ i ∧ i < lo' + (hi' - lo') ∧ s.row i = k := by
    intro lo' hi' k hk
    rw [Span.keys_slice hf, List.mem_map] at hk
    obtain ⟨i, hi, rfl⟩ := hk
    rw [List.mem_range'_1] at hi
    exact ⟨i, hi.1, hi.2, rfl⟩
  rw [Span.keys_cut hf (hab.trans hbn), hmid, List.filter_append, List.filter_append,
    filter_eq_nil_of, filter_eq_self_of, filter_eq_nil_of, Span.keys_slice hf]
  · simp
  · intro k hk
    obtain ⟨i, h₁, h₂, rfl⟩ := mem_slice _ _ _ hk
    simp only [decide_eq_false_iff_not]
    rw [hiff i (by omega)]
    omega
  · intro k hk
    obtain ⟨i, h₁, h₂, rfl⟩ := mem_slice _ _ _ hk
    simp only [decide_eq_true_eq]
    rw [hiff i (by omega)]
    omega
  · intro k hk
    obtain ⟨i, h₁, h₂, rfl⟩ := mem_slice _ _ _ hk
    simp only [decide_eq_false_iff_not]
    rw [hiff i (by omega)]
    omega

/-- One item's part of a range read. -/
theorem rangeIn_item {it : Item K V} (hok : it.Ok) (hs : Sorted it.slots) (lo hi : K) :
    rangeIn [it] 0 lo hi = between lo hi (rowsOf it.slots) := by
  cases it with
  | one k v =>
    by_cases hk : lo ≤ k ∧ k < hi
    · simp [rangeIn, rowsOf, Item.slots, between, (inSpan_iff k lo hi).2 hk, hk.1, hk.2]
    · have hfalse : inSpan k 0 lo hi = false := by
        rw [← Bool.not_eq_true, inSpan_iff]
        exact hk
      simp [rangeIn, rowsOf, Item.slots, between, hfalse, filter_eq_nil_of, hk]
  | run s v =>
    have hasc := Span.sorted_slots.1 hs
    have hfilter := congrArg (List.map fun k => (k, v)) (filter_keys hasc hok.1 lo hi)
    have hrows : rowsOf (Item.run s v).slots = s.keys.map fun k => (k, v) := by
      simp [rowsOf, Item.slots, List.filterMap_map]
    rw [hrows, between, List.filter_map]
    simpa [rangeIn, Function.comp_def] using hfilter.symm
  | hole s => simp [rangeIn, rowsOf, Item.slots, between, List.filterMap_map]

theorem rangeIn_cons (it : Item K V) (items : List (Item K V)) (off : Dsp) (lo hi : K) :
    rangeIn (it :: items) off lo hi = rangeIn [it] off lo hi ++ rangeIn items off lo hi := by
  simp [rangeIn]

/-- A range read is the filter of the rows. -/
theorem rangeIn_eq (h : Ok items) (lo hi : K) :
    rangeIn items 0 lo hi = between lo hi (rowsOf (slots items)) := by
  induction items with
  | nil => rfl
  | cons it items ih =>
    obtain ⟨-, hit, htl, -⟩ := ok_middle (a := []) h
    obtain ⟨hok, hs⟩ := ok_singleton.1 hit
    rw [rangeIn_cons, ih htl, rangeIn_item hok hs, slots_cons, rowsOf_append]
    simp [between]

/-- A counting read counts what a range read returns. -/
theorem countIn_eq_length (items : List (Item K V)) (off : Dsp) (lo hi : K) :
    countIn items off lo hi = (rangeIn items off lo hi).length := by
  unfold countIn rangeIn
  rw [List.length_flatMap]
  congr 1
  refine List.map_congr_left fun it _ => ?_
  cases it with
  | one k v => by_cases hk : inSpan k off lo hi <;> simp [hk]
  | run s v => simp
  | hole s => rfl

theorem countIn_eq (h : Ok items) (lo hi : K) :
    countIn items 0 lo hi = (between lo hi (rowsOf (slots items))).length := by
  rw [countIn_eq_length, rangeIn_eq h]

/-- Whether a leaf is occupied in a range: whether it has a slot there. -/
theorem anyIn_eq (h : Ok items) (lo hi : K) :
    anyIn items 0 lo hi = (slots items).any fun e => lo ≤ e.1 ∧ e.1 < hi := by
  unfold anyIn slots
  rw [List.any_flatMap]
  refine Bool.eq_iff_iff.2 ?_
  simp only [List.any_eq_true]
  refine exists_congr fun it => and_congr_right fun hit => ?_
  obtain ⟨a, b, rfl⟩ := List.append_of_mem hit
  obtain ⟨hok, hs⟩ := ok_singleton.1 (ok_middle h).2.1
  have span_any : ∀ (s : Span K) (w : Option V), s.Ascends →
      ((s.within 0 lo hi).1 < (s.within 0 lo hi).2 ↔
        ∃ e ∈ s.keys.map (fun k => (k, w)), decide (lo ≤ e.1 ∧ e.1 < hi) = true) := by
    intro s w hasc
    obtain ⟨hab, hbn, hiff⟩ := within_spec hasc lo hi
    constructor
    · intro hlt
      have hin := (hiff (s.within 0 lo hi).1 (by omega)).2 ⟨Nat.le_refl _, hlt⟩
      have hmem : s.row (s.within 0 lo hi).1 ∈ s.keys :=
        Span.mem_keys.2 ⟨(s.within 0 lo hi).1, by omega, rfl⟩
      exact ⟨_, List.mem_map.2 ⟨_, hmem, rfl⟩, by simpa using hin⟩
    · rintro ⟨e, he, hin⟩
      obtain ⟨k, hk, rfl⟩ := List.mem_map.1 he
      obtain ⟨i, hi, rfl⟩ := Span.mem_keys.1 hk
      have := (hiff i hi).1 (by simpa using hin)
      omega
  cases it with
  | one k v => simp [Item.slots, inSpan_iff]
  | run s v => simpa [Item.slots] using span_any s (some v) (Span.sorted_slots.1 hs)
  | hole s => simpa [Item.slots] using span_any s none (Span.sorted_slots.1 hs)

/-- The measure of a range read is the fold of the rows in it. -/
theorem foldIn_eq [Measure K V M] [LawfulMeasure K V M] (h : Ok items) (lo hi : K) (acc : M) :
    foldIn items 0 lo hi acc
      = Measure.combine K V acc (Measure.ofEntries M (between lo hi (rowsOf (slots items)))) := by
  rw [← rangeIn_eq h]
  induction items generalizing acc with
  | nil => exact (LawfulMeasure.combine_empty acc).symm
  | cons it items ih =>
    obtain ⟨-, hit, htl, -⟩ := ok_middle (a := []) h
    obtain ⟨hok, hs⟩ := ok_singleton.1 hit
    have hcons : foldIn (it :: items) 0 lo hi acc
        = foldIn items 0 lo hi (foldIn [it] 0 lo hi acc) := rfl
    have hitem : foldIn [it] 0 lo hi acc
        = Measure.combine K V acc (Measure.ofEntries M (rangeIn [it] 0 lo hi)) := by
      cases it with
      | one k v =>
        by_cases hk : inSpan k 0 lo hi = true
        · simp [foldIn, rangeIn, hk, Measure.ofEntries_singleton]
        · simp [foldIn, rangeIn, hk, Measure.ofEntries, LawfulMeasure.combine_empty]
      | run s v =>
        obtain ⟨hab, -⟩ := within_spec (Span.sorted_slots.1 hs) lo hi
        have hfit := Span.fits_row hok.1 (s.within 0 lo hi).1
        by_cases hlt : (s.within 0 lo hi).1 < (s.within 0 lo hi).2
        · have hrun := LawfulMeasure.run_eq (M := M) (s.row (s.within 0 lo hi).1) s.stride
            ((s.within 0 lo hi).2 - (s.within 0 lo hi).1) v hfit
          simp only [Span.step_row hok.1, ← Int.natCast_add] at hrun
          simp only [foldIn, List.foldl_cons, List.foldl_nil, hlt, if_true,
            Displace.displace_zero, hrun, rangeIn, List.flatMap_cons, List.flatMap_nil,
            List.append_nil, List.range'_eq_map_range, List.map_map, Function.comp_def]
          simp only [Span.row_eq_step hok.1]
        · have hzero : (s.within 0 lo hi).2 - (s.within 0 lo hi).1 = 0 := by omega
          simp [foldIn, rangeIn, hlt, hzero, Measure.ofEntries, LawfulMeasure.combine_empty]
      | hole s => exact (LawfulMeasure.combine_empty acc).symm
    rw [hcons, ih htl, hitem, rangeIn_cons it items, Measure.ofEntries_append,
      LawfulMeasure.combine_assoc]

/-! ### The greatest row at or below a key -/

/-- The last entry at or below a key. -/
def lastAtMost (key : K) (l : List (K × V)) : Option (K × V) :=
  (l.filter fun e => e.1 ≤ key).getLast?

theorem lastAtMost_append (key : K) (a b : List (K × V)) :
    lastAtMost key (a ++ b) = (lastAtMost key b).or (lastAtMost key a) := by
  simp [lastAtMost, List.getLast?_append]

theorem lastAtMost_above {key : K} {l : List (K × V)} (h : ∀ e ∈ l, key < e.1) :
    lastAtMost key l = none := by
  rw [lastAtMost, filter_eq_nil_of fun e he => by simpa using h e he]
  rfl

omit [Displace K] in
theorem mem_rowsOf {l : List (K × Option V)} {e : K × V} : e ∈ rowsOf l ↔ (e.1, some e.2) ∈ l := by
  simp only [rowsOf, List.mem_filterMap, Option.map_eq_some_iff]
  constructor
  · rintro ⟨⟨k, w⟩, hmem, v, rfl, rfl⟩
    exact hmem
  · intro hmem
    exact ⟨_, hmem, e.2, rfl, rfl⟩

/-- The number of a span's rows at or below a key. -/
theorem atOrBelow_spec {s : Span K} (h : s.Ascends) (key : K) :
    s.atOrBelow 0 key ≤ s.n ∧ (∀ i, i < s.atOrBelow 0 key → s.row i ≤ key) ∧
      ∀ i, s.atOrBelow 0 key ≤ i → i < s.n → key < s.row i := by
  obtain ⟨hn, hlo, hhi⟩ := Span.below_spec h key
  simp only [Span.atOrBelow, Displace.cmpDisplaced_eq, Displace.displace_zero, compare_eq_iff_eq]
  split
  · rename_i hcond
    refine ⟨hcond.1, fun i hi => ?_, fun i hi hin => ?_⟩
    · rcases Nat.lt_or_eq_of_le (Nat.lt_succ_iff.1 hi) with hlt | rfl
      · exact (hlo i hlt).le
      · exact hcond.2.le
    · exact hcond.2 ▸ h.row_lt hi hin
  · rename_i hcond
    refine ⟨hn, fun i hi => (hlo i hi).le, fun i hi hin => lt_of_le_of_ne (hhi i hi hin) ?_⟩
    rintro rfl
    rcases Nat.lt_or_eq_of_le hi with hlt | heq
    · exact absurd (h.row_lt hlt hin) (not_lt.2 (hhi _ (Nat.le_refl _) (by omega)))
    · exact hcond (by rw [heq]; exact ⟨hin, rfl⟩)

/-- The last row of a run at or below a key. -/
theorem lastAtMost_run {s : Span K} (h : s.Ascends) (hf : fits s.first s.stride) (key : K) (v : V) :
    lastAtMost key (s.keys.map fun k => (k, v))
      = match s.atOrBelow 0 key with
        | j + 1 => some (s.row j, v)
        | 0 => none := by
  obtain ⟨hn, hlo, hhi⟩ := atOrBelow_spec h key
  generalize s.atOrBelow 0 key = c at *
  have hlow : ∀ k ∈ (s.slice 0 c).keys, k ≤ key := by
    intro k hk
    rw [Span.keys_slice hf, List.mem_map] at hk
    obtain ⟨i, hi, rfl⟩ := hk
    rw [List.mem_range'_1] at hi
    exact hlo i (by omega)
  have hhigh : ∀ k ∈ (s.slice c s.n).keys, key < k := by
    intro k hk
    rw [Span.keys_slice hf, List.mem_map] at hk
    obtain ⟨i, hi, rfl⟩ := hk
    rw [List.mem_range'_1] at hi
    exact hhi i (by omega) (by omega)
  rw [Span.keys_cut hf hn, List.map_append, lastAtMost_append,
    lastAtMost_above (by simpa using hhigh), Option.none_or, lastAtMost,
    filter_eq_self_of (by simpa using hlow), Span.keys_slice hf]
  cases c with
  | zero => simp
  | succ j => simp [List.range'_1_concat]

/-- Looking downwards from an index finds the last row among the items before it,
when these all start at or below the key. -/
theorem lastLeFrom_eq (h : Ok items) (key : K) :
    ∀ i, i ≤ items.length → (∀ it ∈ items.take i, it.loKey ≤ key) →
      lastLeFrom items 0 key i = lastAtMost key (rowsOf (slots (items.take i))) := by
  intro i
  induction i with
  | zero => intros; rfl
  | succ i ih =>
    intro hi hall
    have hget : items[i]? = some items[i] := List.getElem?_eq_getElem (by omega)
    have htake : items.take (i + 1) = items.take i ++ [items[i]] := by
      rw [List.take_add_one, hget]
      rfl
    have hih := ih (by omega) fun it hit =>
      hall it (htake ▸ List.mem_append_left _ hit)
    have hlo : items[i].loKey ≤ key := hall _ (htake ▸ List.mem_append_right _ (by simp))
    have hmid : items = items.take i ++ items[i] :: items.drop (i + 1) := by simp
    rw [hmid] at h
    obtain ⟨hok, hs⟩ := ok_singleton.1 (ok_middle h).2.1
    rw [htake, slots_append, rowsOf_append, lastAtMost_append, ← hih]
    simp only [lastLeFrom, hget]
    generalize items[i] = it at *
    cases it with
    | one k v => simp [slots, Item.slots, rowsOf, lastAtMost, show k ≤ key from hlo]
    | run s v =>
      have hrows : rowsOf (slots [Item.run s v]) = s.keys.map fun k => (k, v) := by
        simp [rowsOf, slots, Item.slots, List.filterMap_map]
      rw [hrows, lastAtMost_run (Span.sorted_slots.1 hs) hok.1]
      cases hc : s.atOrBelow 0 key <;> simp [hc]
    | hole s =>
      have hrows : rowsOf (slots [Item.hole (V := V) s]) = [] := by
        simp [rowsOf, slots, Item.slots, List.filterMap_map]
      rw [hrows]
      rfl

/-- The greatest row at or below a key. -/
theorem lastLe_eq (h : Ok items) (key : K) :
    lastLe items 0 key = lastAtMost key (rowsOf (slots items)) := by
  rcases holder_spec h key with ⟨hnone, hall⟩ | ⟨a, it, b, rfl, hsome, hlo, ha, hb⟩
  · have habove : lastAtMost key (rowsOf (slots items)) = none :=
      lastAtMost_above fun e he => hall _ (mem_rowsOf.1 he)
    simp [lastLe, hnone, habove]
  · have htake : (a ++ it :: b).take (a.length + 1) = a ++ [it] := by
      simp [List.take_append, List.take_of_length_le]
    have hall : ∀ x ∈ a ++ [it], x.loKey ≤ key := by
      intro x hx
      rcases List.mem_append.1 hx with hxa | hxi
      · obtain ⟨w, hw⟩ := Item.loKey_mem_slots (h.items_ok x (by simp [hxa]))
        exact (ha _ (mem_slots.2 ⟨x, hxa, hw⟩)).le.trans hlo
      · rw [List.mem_singleton.1 hxi]
        exact hlo
    have hfrom := lastLeFrom_eq h key (a.length + 1) (by simp) (by rw [htake]; exact hall)
    rw [htake] at hfrom
    have hb' : lastAtMost key (rowsOf (slots b)) = none :=
      lastAtMost_above fun e he => hb _ (mem_rowsOf.1 he)
    rw [show a ++ it :: b = (a ++ [it]) ++ b by simp, slots_append, rowsOf_append,
      lastAtMost_append, hb', Option.none_or, ← hfrom]
    simp [lastLe, hsome]

end Leaf

end Grmpl

import Grmpl.Ent.LeafReads

/-!
# Writes of a leaf keep its meaning

Every write of a leaf does to its slots what the plain operation does to a
sorted list, keeps the leaf well formed, and adds a bounded number of items.

* `Leaf.joinAround_spec`, `Leaf.compress_spec`: joining changes no slot.
* `Leaf.insert_spec`, `Leaf.removeAt_spec`, `Leaf.splitAt_spec`: the writes.
-/

open Bisect OrdMap

namespace Grmpl

variable {K V : Type} [Displace K]

/-! ## Joining -/

namespace Span

theorem keys_succ (s : Span K) :
    (⟨s.first, s.stride, s.n + 1⟩ : Span K).keys = s.keys ++ [s.row s.n] := by
  simp only [keys, List.range_succ, List.map_append]
  rfl

/-- A span continued by another with its stride. -/
theorem keys_add {s t : Span K} (hs : fits s.first s.stride) (hstride : s.stride = t.stride)
    (hfirst : s.row s.n = t.first) :
    (⟨s.first, s.stride, s.n + t.n⟩ : Span K).keys = s.keys ++ t.keys := by
  have ht : fits t.first t.stride := hfirst ▸ hstride ▸ fits_row hs s.n
  simp only [keys, List.range_add, List.map_append, List.map_map]
  congr 1
  refine List.map_congr_left fun i _ => ?_
  show s.row (s.n + i) = t.row i
  rw [row_eq_step hs, row_eq_step ht, ← hfirst, ← hstride, step_row hs]
  simp

/-- A span led by the key one step before it. -/
theorem keys_before {s : Span K} (hs : fits s.first s.stride) :
    (⟨step s.first s.stride (-1), s.stride, s.n + 1⟩ : Span K).keys
      = step s.first s.stride (-1) :: s.keys := by
  have hf : fits (step s.first s.stride (-1)) s.stride := Displace.fits_step _ _ _ hs
  simp only [keys, List.range_succ_eq_map, List.map_cons, List.map_map]
  congr 1
  refine List.map_congr_left fun i _ => ?_
  show row ⟨step s.first s.stride (-1), s.stride, s.n + 1⟩ (i + 1) = s.row i
  rw [row_eq_step hf, row_eq_step hs, Displace.step_step _ _ _ _ hs]
  congr 1
  omega

end Span

namespace Leaf

variable [RunValue V]

theorem joined_spec {a b r : Item K V} (ha : a.Ok) (hb : b.Ok) (h : joined a b = some r) :
    r.Ok ∧ r.slots = a.slots ++ b.slots := by
  cases a with
  | one k w => cases b with
      | run s v =>
        simp only [joined, Option.ite_none_right_eq_some, Option.some.injEq] at h
        obtain ⟨⟨hsame, rfl⟩, rfl⟩ := h
        have hvw := RunValue.eq_of_same hsame
        refine ⟨⟨Displace.fits_step _ _ _ hb.1, hb.2.trans (Nat.le_succ _)⟩, ?_⟩
        simp [Item.slots, Span.keys_before hb.1, hvw]
      | one k' v' => simp [joined] at h
      | hole t => simp [joined] at h
  | run s v => cases b with
      | one k w =>
        simp only [joined, Option.ite_none_right_eq_some, Option.some.injEq] at h
        obtain ⟨⟨hsame, rfl⟩, rfl⟩ := h
        have hvw := RunValue.eq_of_same hsame
        refine ⟨⟨ha.1, ha.2.trans (Nat.le_succ _)⟩, ?_⟩
        simp [Item.slots, Span.keys_succ, hvw]
      | run t w =>
        simp only [joined, Option.ite_none_right_eq_some, Option.some.injEq] at h
        obtain ⟨⟨hsame, hstride, hfirst⟩, rfl⟩ := h
        have hvw := RunValue.eq_of_same hsame
        refine ⟨⟨ha.1, ha.2.trans (Nat.le_add_right _ _)⟩, ?_⟩
        simp [Item.slots, Span.keys_add ha.1 hstride hfirst, hvw]
      | hole t => simp [joined] at h
  | hole s => cases b with
      | hole t =>
        simp only [joined, Option.ite_none_right_eq_some, Option.some.injEq] at h
        obtain ⟨⟨hstride, hfirst⟩, rfl⟩ := h
        refine ⟨⟨ha.1, Nat.add_pos_left ha.2 _⟩, ?_⟩
        simp [Item.slots, Span.keys_add ha.1 hstride hfirst]
      | one k v => simp [joined] at h
      | run t v => simp [joined] at h

theorem triple_spec {a b c r : Item K V} (h : triple a b c = some r) :
    r.Ok ∧ r.slots = a.slots ++ b.slots ++ c.slots := by
  unfold triple at h
  split at h
  · rename_i k₁ v₁ k₂ v₂ k₃ v₃
    split at h
    · rename_i hsame
      simp only [Option.bind_eq_some_iff, Option.ite_none_right_eq_some, Option.some.injEq] at h
      obtain ⟨stride, hstride, hthree, rfl⟩ := h
      have hfit := Displace.strideTo_fits _ _ _ hstride
      have hone := Displace.strideTo_step _ _ _ hstride
      have htwo : step k₁ stride 2 = k₃ := by
        rw [← hthree, ← hone, Displace.step_step _ _ _ _ hfit]
        rfl
      obtain rfl := RunValue.eq_of_same hsame.1
      obtain rfl := RunValue.eq_of_same hsame.2
      refine ⟨⟨hfit, Nat.le_refl _⟩, ?_⟩
      have hrange : List.range 3 = [0, 1, 2] := rfl
      simp [Item.slots, Span.keys, hrange, Span.row, hone, htwo]
    · cases h
  · cases h

/-- What a rearrangement of a leaf's items keeps. -/
structure Same (items items' : List (Item K V)) : Prop where
  ok : Ok items'
  slots_eq : slots items' = slots items
  length_le : items'.length ≤ items.length

omit [RunValue V] in
theorem Same.refl {items : List (Item K V)} (h : Ok items) : Same items items :=
  ⟨h, rfl, Nat.le_refl _⟩

omit [RunValue V] in
theorem Same.trans {a b c : List (Item K V)} (h₁ : Same a b) (h₂ : Same b c) : Same a c :=
  ⟨h₂.ok, h₂.slots_eq.trans h₁.slots_eq, h₂.length_le.trans h₁.length_le⟩

omit [RunValue V] in
/-- Some adjacent items replaced by one with their slots. -/
theorem Same.replace {a mid c : List (Item K V)} {r : Item K V} (h : Ok (a ++ mid ++ c))
    (hr : r.Ok) (hslots : r.slots = slots mid) (hmid : mid ≠ []) :
    Same (a ++ mid ++ c) (a ++ r :: c) where
  ok := by
    refine ⟨fun it hit => ?_, ?_⟩
    · rcases List.mem_append.1 hit with hit | hit
      · exact h.items_ok it (by simp [hit])
      · rcases List.mem_cons.1 hit with rfl | hit
        · exact hr
        · exact h.items_ok it (by simp [hit])
    · have hs := h.sorted
      simpa [hslots] using hs
  slots_eq := by simp [hslots]
  length_le := by
    have := List.length_pos_of_ne_nil hmid
    simp only [List.length_append, List.length_cons]
    omega

/-- A join at an index changes no slot and shortens the leaf. -/
theorem joinAt_spec {items items' : List (Item K V)} {runs : Bool} {i : Nat} (h : Ok items)
    (hj : joinAt items runs i = some items') :
    Same items items' ∧ items'.length < items.length := by
  have split_two : ∀ a b, items[i]? = some a → items[i + 1]? = some b →
      items = items.take i ++ [a, b] ++ items.drop (i + 2) := by
    intro a b ha hb
    obtain ⟨hi, rfl⟩ := List.getElem?_eq_some_iff.1 ha
    obtain ⟨hi', rfl⟩ := List.getElem?_eq_some_iff.1 hb
    simp
  have split_three : ∀ a b c, items[i]? = some a → items[i + 1]? = some b →
      items[i + 2]? = some c → items = items.take i ++ [a, b, c] ++ items.drop (i + 3) := by
    intro a b c ha hb hc
    obtain ⟨hi, rfl⟩ := List.getElem?_eq_some_iff.1 ha
    obtain ⟨hi', rfl⟩ := List.getElem?_eq_some_iff.1 hb
    obtain ⟨hi'', rfl⟩ := List.getElem?_eq_some_iff.1 hc
    simp
  unfold joinAt at hj
  rw [Option.or_eq_some_iff] at hj
  rcases hj with hj | ⟨-, hj⟩
  · split at hj
    · unfold tripleAt at hj
      split at hj
      · rename_i a b c ha hb hc
        rw [Option.map_eq_some_iff] at hj
        obtain ⟨r, hr, rfl⟩ := hj
        obtain ⟨hok, hslots⟩ := triple_spec hr
        have hitems := split_three a b c ha hb hc
        generalize items.take i = u at *
        generalize items.drop (i + 3) = w at *
        subst hitems
        exact ⟨Same.replace h hok (by simp [hslots, slots]) (by simp), by simp⟩
      · cases hj
    · cases hj
  · unfold pairAt at hj
    split at hj
    · rename_i a b ha hb
      rw [Option.map_eq_some_iff] at hj
      obtain ⟨r, hr, rfl⟩ := hj
      rw [Option.filter_eq_some_iff] at hr
      have hitems := split_two a b ha hb
      have hmem_a : a ∈ items := List.mem_of_getElem? ha
      have hmem_b : b ∈ items := List.mem_of_getElem? hb
      obtain ⟨hok, hslots⟩ := joined_spec (h.items_ok a hmem_a) (h.items_ok b hmem_b) hr.1
      generalize items.take i = u at *
      generalize items.drop (i + 2) = w at *
      subst hitems
      exact ⟨Same.replace h hok (by simp [hslots, slots]) (by simp), by simp⟩
    · cases hj

theorem joinLoop_spec (runs : Bool) : ∀ (fuel : Nat) (items : List (Item K V)) (at' : Nat),
    Ok items → Same items (joinLoop runs fuel items at') := by
  intro fuel
  induction fuel with
  | zero => exact fun items at' h => Same.refl h
  | succ fuel ih =>
    intro items at' h
    unfold joinLoop
    dsimp only
    split
    · rename_i items' i hfind
      obtain ⟨j, -, hj⟩ := List.exists_of_findSome?_eq_some hfind
      rw [Option.map_eq_some_iff] at hj
      obtain ⟨r, hr, heq⟩ := hj
      cases heq
      have hstep := (joinAt_spec h hr).1
      exact hstep.trans (ih _ _ hstep.ok)
    · exact Same.refl h

/-- Joining the items around an index changes no slot. -/
theorem joinAround_spec {items : List (Item K V)} (h : Ok items) (at' : Nat) (runs : Bool) :
    Same items (joinAround items at' runs) := joinLoop_spec runs _ _ _ h

/-- Folding a leaf's runs changes no slot. -/
theorem compress_spec {items : List (Item K V)} (h : Ok items) (runs : Bool) :
    Same items (compress items runs) := by
  have hfrom : ∀ (fuel i : Nat) (items : List (Item K V)), Ok items →
      Same items (compressFrom runs fuel i items) := by
    intro fuel
    induction fuel with
    | zero => exact fun i items h => Same.refl h
    | succ fuel ih =>
      intro i items h
      unfold compressFrom
      split
      · have hstep := joinAround_spec h i runs
        exact hstep.trans (ih _ _ hstep.ok)
      · exact Same.refl h
  exact hfrom _ _ _ h

/-! ## Cutting -/

omit [RunValue V] in
/-- A span as items has the span's keys as slots. -/
theorem spanItems_spec {s : Span K} (hf : fits s.first s.stride) (w : Option V) :
    (∀ it ∈ spanItems s w, it.Ok) ∧ slots (spanItems s w) = s.keys.map (fun k => (k, w)) ∧
      (spanItems s w).length ≤ 2 := by
  cases w with
  | none =>
    unfold spanItems
    by_cases hn : 0 < s.n
    · simp [hn, Item.Ok, hf, Item.slots]
    · have hzero : s.n = 0 := by omega
      simp [hzero, Span.keys]
  | some v =>
    unfold spanItems
    by_cases hn : minRun ≤ s.n
    · simp [hn, Item.Ok, hf, Item.slots]
    · simp only [hn, if_false]
      refine ⟨?_, ?_, ?_⟩
      · intro it hit
        obtain ⟨i, -, rfl⟩ := List.mem_map.1 hit
        trivial
      · simp only [slots, Span.keys, List.flatMap_map, List.map_map]
        exact List.map_eq_flatMap.symm
      · simp only [minRun] at hn
        simp only [List.length_map, List.length_range]
        omega

omit [RunValue V] in
/-- A run or hole with the key at an index cut out. -/
theorem cutOut_spec {it : Item K V} {s : Span K} {w : Option V} {j : Nat} (hok : it.Ok)
    (hit : (∃ v, it = .run s v ∧ w = some v) ∨ (it = .hole s ∧ w = none)) (hj : j < s.n) :
    (∀ x ∈ (cutOut it j).1 ++ (cutOut it j).2, x.Ok) ∧
      it.slots = slots (cutOut it j).1 ++ (s.row j, w) :: slots (cutOut it j).2 ∧
      (cutOut it j).1.length + (cutOut it j).2.length ≤ 4 := by
  have hf : fits s.first s.stride := by
    rcases hit with ⟨v, rfl, -⟩ | ⟨rfl, -⟩ <;> exact hok.1
  have hlo := spanItems_spec (s := s.slice 0 j) (Span.fits_row hf 0) w
  have hhi := spanItems_spec (s := s.slice (j + 1) s.n) (Span.fits_row hf (j + 1)) w
  have hcut : cutOut it j = (spanItems (s.slice 0 j) w, spanItems (s.slice (j + 1) s.n) w) := by
    rcases hit with ⟨v, rfl, rfl⟩ | ⟨rfl, rfl⟩ <;> rfl
  have hslots : it.slots = s.keys.map fun k => (k, w) := by
    rcases hit with ⟨v, rfl, rfl⟩ | ⟨rfl, rfl⟩ <;> rfl
  rw [hcut]
  refine ⟨?_, ?_, ?_⟩
  · intro x hx
    rcases List.mem_append.1 hx with hx | hx
    · exact hlo.1 x hx
    · exact hhi.1 x hx
  · rw [hslots, hlo.2.1, hhi.2.1, Span.keys_around hf hj, List.map_append, List.map_cons]
  · have h₁ := hlo.2.2
    have h₂ := hhi.2.2
    dsimp only
    omega

omit [RunValue V] in
/-- An item split at a key has the slots below it and those at or above it. -/
theorem splitItem_spec {it : Item K V} (hok : it.Ok) (hs : Sorted it.slots) (key : K) :
    (∀ x ∈ (splitItem it key).1 ++ (splitItem it key).2, x.Ok) ∧
      slots (splitItem it key).1 = below key it.slots ∧
      slots (splitItem it key).2 = atLeast key it.slots ∧
      (splitItem it key).1.length + (splitItem it key).2.length ≤ 4 := by
  have span_split : ∀ (s : Span K) (w : Option V), fits s.first s.stride → s.Ascends →
      (∀ x ∈ spanItems (s.slice 0 (s.below 0 key)) w ++ spanItems (s.slice (s.below 0 key) s.n) w,
        x.Ok) ∧
      slots (spanItems (s.slice 0 (s.below 0 key)) w) = below key (s.keys.map fun k => (k, w)) ∧
      slots (spanItems (s.slice (s.below 0 key) s.n) w)
        = atLeast key (s.keys.map fun k => (k, w)) ∧
      (spanItems (s.slice 0 (s.below 0 key)) w).length
        + (spanItems (s.slice (s.below 0 key) s.n) w).length ≤ 4 := by
    intro s w hf hasc
    obtain ⟨hn, hlt, hge⟩ := Span.below_spec hasc key
    generalize s.below 0 key = j at *
    have hlo := spanItems_spec (s := s.slice 0 j) (Span.fits_row hf 0) w
    have hhi := spanItems_spec (s := s.slice j s.n) (Span.fits_row hf j) w
    have hpieces := below_append_of (k := key) (a := (s.slice 0 j).keys.map fun k => (k, w))
      (b := (s.slice j s.n).keys.map fun k => (k, w)) (by
        intro e he
        obtain ⟨k, hk, rfl⟩ := List.mem_map.1 he
        rw [Span.keys_slice hf, List.mem_map] at hk
        obtain ⟨i, hi, rfl⟩ := hk
        rw [List.mem_range'_1] at hi
        exact hlt i (by omega)) (by
        intro e he
        obtain ⟨k, hk, rfl⟩ := List.mem_map.1 he
        rw [Span.keys_slice hf, List.mem_map] at hk
        obtain ⟨i, hi, rfl⟩ := hk
        rw [List.mem_range'_1] at hi
        exact hge i (by omega) (by omega))
    rw [← List.map_append, ← Span.keys_cut hf hn] at hpieces
    refine ⟨?_, ?_, ?_, ?_⟩
    · intro x hx
      rcases List.mem_append.1 hx with hx | hx
      · exact hlo.1 x hx
      · exact hhi.1 x hx
    · rw [hlo.2.1, hpieces.1]
    · rw [hhi.2.1, hpieces.2]
    · have h₁ := hlo.2.2
      have h₂ := hhi.2.2
      omega
  cases it with
  | one k v =>
    by_cases hk : k < key
    · simp [splitItem, hk, Item.Ok, Item.slots, below, atLeast]
    · simp [splitItem, hk, Item.Ok, Item.slots, below, atLeast, not_lt.1 hk]
  | run s v => exact span_split s (some v) hok.1 (Span.sorted_slots.1 hs)
  | hole s => exact span_split s none hok.1 (Span.sorted_slots.1 hs)

/-! ## Writing a row -/

omit [RunValue V] in
/-- A write put in place of the item holding the key. -/
theorem put_in_place {a b new : List (Item K V)} {it : Item K V} {key : K} {w : Option V}
    (h : Ok (a ++ it :: b)) (hlo : it.loKey ≤ key) (ha : ∀ e ∈ slots a, e.1 < it.loKey)
    (hb : ∀ e ∈ slots b, key < e.1) (hnew : ∀ x ∈ new, x.Ok)
    (hslots : slots new = put key w it.slots) :
    Ok (a ++ new ++ b) ∧ slots (a ++ new ++ b) = put key w (slots (a ++ it :: b)) := by
  obtain ⟨hoka, -, hokb, -⟩ := ok_middle h
  have hput : slots (a ++ new ++ b) = put key w (slots (a ++ it :: b)) := by
    rw [slots_append, slots_append, hslots, slots_append, slots_cons, ← List.append_assoc]
    exact (put_middle (fun e he => (ha e he).trans_le hlo) hb).symm
  refine ⟨⟨fun x hx => ?_, hput ▸ sorted_put h.sorted⟩, hput⟩
  rw [List.append_assoc] at hx
  rcases List.mem_append.1 hx with hx | hx
  · exact hoka.items_ok x hx
  · rcases List.mem_append.1 hx with hx | hx
    · exact hnew x hx
    · exact hokb.items_ok x hx

omit [RunValue V] in
/-- A write at a key cut out of an item. -/
theorem put_cutOut {it : Item K V} {s : Span K} {w : Option V} {j : Nat} (v : V) (hok : it.Ok)
    (hs : Sorted it.slots)
    (hit : (∃ v, it = .run s v ∧ w = some v) ∨ (it = .hole s ∧ w = none)) (hj : j < s.n) :
    (∀ x ∈ (cutOut it j).1 ++ .one (s.row j) v :: (cutOut it j).2, x.Ok) ∧
      slots ((cutOut it j).1 ++ .one (s.row j) v :: (cutOut it j).2)
        = put (s.row j) (some v) it.slots := by
  obtain ⟨hoks, hslots, -⟩ := cutOut_spec hok hit hj
  refine ⟨fun x hx => ?_, ?_⟩
  · rcases List.mem_append.1 hx with hx | hx
    · exact hoks x (by simp [hx])
    · rcases List.mem_cons.1 hx with rfl | hx
      · trivial
      · exact hoks x (by simp [hx])
  · rw [hslots] at hs ⊢
    obtain ⟨-, hc, hac⟩ := sorted_append.1 hs
    rw [put_replace (fun e he => hac e he (s.row j, w) (by simp)) (List.pairwise_cons.1 hc).1]
    simp [Item.slots]

omit [RunValue V] in
/-- A write at a key that falls between an item's keys. -/
theorem put_splitItem {it : Item K V} {key : K} (v : V) (hok : it.Ok) (hs : Sorted it.slots)
    (habsent : ∀ e ∈ it.slots, e.1 ≠ key) :
    (∀ x ∈ (splitItem it key).1 ++ .one key v :: (splitItem it key).2, x.Ok) ∧
      slots ((splitItem it key).1 ++ .one key v :: (splitItem it key).2)
        = put key (some v) it.slots := by
  obtain ⟨hoks, hlo, hhi, -⟩ := splitItem_spec hok hs key
  refine ⟨fun x hx => ?_, ?_⟩
  · rcases List.mem_append.1 hx with hx | hx
    · exact hoks x (by simp [hx])
    · rcases List.mem_cons.1 hx with rfl | hx
      · trivial
      · exact hoks x (by simp [hx])
  · have habove : it.slots.filter (fun e => key ≤ e.1) = it.slots.filter fun e => key < e.1 := by
      refine List.filter_congr fun e he => ?_
      simp [(habsent e he).symm.le_iff_lt]
    rw [slots_append, slots_cons, hlo, hhi, put, ← habove]
    rfl

omit [RunValue V] in
theorem put_after {it : Item K V} {key : K} (v : V) (hok : it.Ok)
    (hlt : ∀ e ∈ it.slots, e.1 < key) :
    (∀ x ∈ [it, .one key v], x.Ok) ∧ slots [it, .one key v] = put key (some v) it.slots := by
  refine ⟨by simp [hok], ?_⟩
  have hput := put_eq (v := some v) (c := []) hlt (by simp)
  rw [List.append_nil] at hput
  rw [hput]
  simp [slots, Item.slots]

/-- A write of a leaf is a write of its slots, adding at most four items. -/
theorem insert_spec {items : List (Item K V)} (h : Ok items) (key : K) (val : V) (runs : Bool) :
    Ok (insert items key val runs) ∧
      slots (insert items key val runs) = put key (some val) (slots items) ∧
      (insert items key val runs).length ≤ items.length + 4 := by
  have finish : ∀ (items' : List (Item K V)) (at' : Nat),
      Ok items' ∧ slots items' = put key (some val) (slots items) →
      items'.length ≤ items.length + 4 → Ok (joinAround items' at' runs) ∧
        slots (joinAround items' at' runs) = put key (some val) (slots items) ∧
        (joinAround items' at' runs).length ≤ items.length + 4 := by
    rintro items' at' ⟨hok, hslots⟩ hlen
    have hsame := joinAround_spec hok at' runs
    exact ⟨hsame.ok, hsame.slots_eq.trans hslots, hsame.length_le.trans hlen⟩
  unfold insert insertAct
  rcases holder_spec h key with ⟨hnone, hall⟩ | ⟨a, it, b, rfl, hsome, hlo, ha, hb⟩
  · simp only [hnone]
    refine finish _ _ ?_ (by simp)
    have hput := (put_eq (a := []) (v := some val) (by simp) hall).symm
    rw [List.nil_append] at hput
    refine ⟨⟨?_, ?_⟩, hput⟩
    · simpa [Item.Ok] using h.items_ok
    · rw [show slots (Item.one key val :: items) = (key, some val) :: slots items from rfl, hput]
      exact sorted_put h.sorted
  · obtain ⟨hit, hs⟩ := ok_singleton.1 (ok_middle h).2.1
    have hget : (a ++ it :: b)[a.length]? = some it := by simp
    have hsplice : ∀ new : List (Item K V), splice (a ++ it :: b) a.length new = a ++ new ++ b := by
      intro new
      simp [splice, List.drop_append, List.drop_eq_nil_of_le]
    have hafter : (a ++ it :: b).take (a.length + 1)
          ++ Item.one key val :: (a ++ it :: b).drop (a.length + 1)
        = a ++ [it, .one key val] ++ b := by
      simp [List.take_append, List.drop_append, List.take_of_length_le, List.drop_eq_nil_of_le]
    have place : ∀ new : List (Item K V), (∀ x ∈ new, x.Ok) →
        slots new = put key (some val) it.slots → Ok (a ++ new ++ b) ∧
          slots (a ++ new ++ b) = put key (some val) (slots (a ++ it :: b)) :=
      fun _ => put_in_place h hlo ha hb
    simp only [hsome, hget]
    cases it with
    | one k v =>
      by_cases hk : k = key
      · subst hk
        simp only [if_true, hsplice]
        refine finish _ _ (place _ (by simp) ?_) (by simp)
        simp [slots, Item.slots, put]
      · simp only [hk, if_false, hafter]
        have hlt : k < key := lt_of_le_of_ne hlo hk
        obtain ⟨h₁, h₂⟩ := put_after val hit (by simpa [Item.slots] using hlt)
        exact finish _ _ (place _ h₁ h₂) (by simp; omega)
    | run s v =>
      have hasc := Span.sorted_slots.1 hs
      cases hf : s.find 0 key with
      | some j =>
        obtain ⟨hj, rfl⟩ := (Span.find_eq_some hasc).1 hf
        by_cases hsame : RunValue.same v val = true
        · simp only [hf, hsame, if_true]
          obtain rfl := RunValue.eq_of_same hsame
          refine ⟨h, (put_same h.sorted ?_).symm, by simp⟩
          refine mem_slots.2 ⟨.run s v, by simp, ?_⟩
          exact List.mem_map.2 ⟨_, Span.mem_keys.2 ⟨j, hj, rfl⟩, rfl⟩
        · simp only [hf, hsame, if_false, Bool.false_eq_true, hget, Option.map_some,
            Option.getD_some, hsplice]
          obtain ⟨h₁, h₂⟩ := put_cutOut val hit hs (Or.inl ⟨v, rfl, rfl⟩) hj
          refine finish _ _ (place _ h₁ h₂) ?_
          have := (cutOut_spec hit (Or.inl ⟨v, rfl, rfl⟩) hj).2.2
          simp only [List.length_append, List.length_cons]
          omega
      | none =>
        have hne := (Span.find_eq_none hasc).1 hf
        have habsent : ∀ e ∈ (Item.run s v).slots, e.1 ≠ key := by
          intro e he
          obtain ⟨k, hk, rfl⟩ := List.mem_map.1 he
          obtain ⟨i, hi, rfl⟩ := Span.mem_keys.1 hk
          exact hne i hi
        by_cases hlast : key < s.last
        · simp only [hf, hlast, if_true, hget, Option.map_some, Option.getD_some, hsplice]
          obtain ⟨h₁, h₂⟩ := put_splitItem val hit hs habsent
          refine finish _ _ (place _ h₁ h₂) ?_
          have := (splitItem_spec hit hs key).2.2.2
          simp only [List.length_append, List.length_cons]
          omega
        · simp only [hf, hlast, if_false, hafter]
          obtain ⟨h₁, h₂⟩ := put_after val hit fun e he => lt_of_le_of_ne
            ((Item.key_bounds hs e he).2.trans (not_lt.1 hlast)) (habsent e he)
          exact finish _ _ (place _ h₁ h₂) (by simp; omega)
    | hole s =>
      have hasc := Span.sorted_slots.1 hs
      cases hf : s.find 0 key with
      | some j =>
        obtain ⟨hj, rfl⟩ := (Span.find_eq_some hasc).1 hf
        simp only [hf, hget, Option.map_some, Option.getD_some, hsplice]
        obtain ⟨h₁, h₂⟩ := put_cutOut val hit hs (Or.inr ⟨rfl, rfl⟩) hj
        refine finish _ _ (place _ h₁ h₂) ?_
        have := (cutOut_spec hit (Or.inr ⟨rfl, rfl⟩) hj).2.2
        simp only [List.length_append, List.length_cons]
        omega
      | none =>
        have hne := (Span.find_eq_none hasc).1 hf
        have habsent : ∀ e ∈ (Item.hole (V := V) s).slots, e.1 ≠ key := by
          intro e he
          obtain ⟨k, hk, rfl⟩ := List.mem_map.1 he
          obtain ⟨i, hi, rfl⟩ := Span.mem_keys.1 hk
          exact hne i hi
        by_cases hlast : key < s.last
        · simp only [hf, hlast, if_true, hget, Option.map_some, Option.getD_some, hsplice]
          obtain ⟨h₁, h₂⟩ := put_splitItem val hit hs habsent
          refine finish _ _ (place _ h₁ h₂) ?_
          have := (splitItem_spec hit hs key).2.2.2
          simp only [List.length_append, List.length_cons]
          omega
        · simp only [hf, hlast, if_false, hafter]
          obtain ⟨h₁, h₂⟩ := put_after val hit fun e he => lt_of_le_of_ne
            ((Item.key_bounds hs e he).2.trans (not_lt.1 hlast)) (habsent e he)
          exact finish _ _ (place _ h₁ h₂) (by simp; omega)

/-! ## Removing a row -/

omit [RunValue V] in
/-- A row is found where it is, or there is none. -/
theorem findRow_spec {items : List (Item K V)} (h : Ok items) (key : K) :
    (findRow items 0 key = none ∧ ∀ e ∈ rowsOf (slots items), e.1 ≠ key) ∨
      ∃ a it b v j, items = a ++ it :: b ∧ findRow items 0 key = some (a.length, j) ∧
        (it = .one key v ∨ ∃ s, it = .run s v ∧ j < s.n ∧ s.row j = key) := by
  have absent : lookup key (rowsOf (slots items)) = none →
      ∀ e ∈ rowsOf (slots items), e.1 ≠ key := by
    intro hnone e he heq
    have hsorted : Sorted (rowsOf (slots items)) := by
      refine List.Pairwise.filterMap _ ?_ h.sorted
      rintro ⟨k, w⟩ ⟨k', w'⟩ hlt x hx y hy
      simp only [Option.map_eq_some_iff] at hx hy
      obtain ⟨v, -, rfl⟩ := hx
      obtain ⟨v', -, rfl⟩ := hy
      exact hlt
    rw [← heq, lookup_of_mem hsorted he] at hnone
    cases hnone
  have hlookup := lookup_rowsOf h.sorted key
  rcases holder_spec h key with ⟨hnone, hall⟩ | ⟨a, it, b, rfl, hsome, hlo, ha, hb⟩
  · left
    refine ⟨by simp [findRow, hnone], absent ?_⟩
    rw [hlookup, lookup_absent fun e he => (hall e he).ne']
    rfl
  · have hs := (ok_singleton.1 (ok_middle h).2.1).2
    rw [lookup_slots_middle hlo ha hb] at hlookup
    have hfind : findRow (a ++ it :: b) 0 key = match it with
        | .one k _ => if k = key then some (a.length, 0) else none
        | .run s _ => (s.find 0 key).map fun j => (a.length, j)
        | .hole _ => none := by
      simp only [findRow, hsome, Option.bind_some, List.getElem?_append_right (Nat.le_refl _),
        Nat.sub_self, List.getElem?_cons_zero, Displace.cmpDisplaced_eq, Displace.displace_zero,
        compare_eq_iff_eq]
      cases it <;> rfl
    cases it with
    | one k v =>
      by_cases hk : k = key
      · subst hk
        exact Or.inr ⟨a, _, b, v, 0, rfl, by simp [hfind], Or.inl rfl⟩
      · left
        refine ⟨by simp [hfind, hk], absent ?_⟩
        rw [hlookup]
        simp [Item.slots, lookup, hk]
    | run s v =>
      have hasc := Span.sorted_slots.1 hs
      cases hf : s.find 0 key with
      | some j =>
        exact Or.inr ⟨a, _, b, v, j, rfl, by simp [hfind, hf],
          Or.inr ⟨s, rfl, (Span.find_eq_some hasc).1 hf⟩⟩
      | none =>
        left
        refine ⟨by simp [hfind, hf], absent ?_⟩
        rw [hlookup, Item.slots, lookup_keys hasc, hf]
        rfl
    | hole s =>
      left
      refine ⟨by simp [hfind], absent ?_⟩
      rw [hlookup, Item.slots, lookup_keys (Span.sorted_slots.1 hs)]
      cases s.find 0 key <;> rfl

omit [RunValue V] in
/-- Removing the row of an item drops its slot, adding at most three items. -/
theorem removeAt_spec {a b : List (Item K V)} {it : Item K V} {key : K} {v : V} {j : Nat}
    (h : Ok (a ++ it :: b))
    (hit : it = .one key v ∨ ∃ s, it = .run s v ∧ j < s.n ∧ s.row j = key) :
    Ok (removeAt (a ++ it :: b) a.length j) ∧
      slots (removeAt (a ++ it :: b) a.length j) = drop key (slots (a ++ it :: b)) ∧
      (removeAt (a ++ it :: b) a.length j).length ≤ (a ++ it :: b).length + 3 ∧
      (a ++ it :: b).length ≤ (removeAt (a ++ it :: b) a.length j).length + 1 ∧
      (key, some v) ∈ slots (a ++ it :: b) := by
  obtain ⟨hoka, hokit, hokb, halo, hbhi, -⟩ := ok_middle h
  obtain ⟨hok, hs⟩ := ok_singleton.1 hokit
  have hget : (a ++ it :: b)[a.length]? = some it := by simp
  have hsplice : ∀ new : List (Item K V), splice (a ++ it :: b) a.length new = a ++ new ++ b := by
    intro new
    simp [splice, List.drop_append, List.drop_eq_nil_of_le]
  have hmem : (key, some v) ∈ it.slots := by
    rcases hit with rfl | ⟨s, rfl, hj, hrow⟩
    · simp [Item.slots]
    · exact List.mem_map.2 ⟨key, Span.mem_keys.2 ⟨j, hj, hrow⟩, rfl⟩
  have hbounds := Item.key_bounds hs _ hmem
  -- the item's slots lose the key and its neighbours' slots stay
  have place : ∀ new : List (Item K V), (∀ x ∈ new, x.Ok) →
      slots new = drop key it.slots → new.length ≤ 4 →
      Ok (a ++ new ++ b) ∧ slots (a ++ new ++ b) = drop key (slots (a ++ it :: b)) ∧
        (a ++ new ++ b).length ≤ (a ++ it :: b).length + 3 ∧
        (a ++ it :: b).length ≤ (a ++ new ++ b).length + 1 ∧
        (key, some v) ∈ slots (a ++ it :: b) := by
    intro new hnew hslots hlen
    have hdrop : slots (a ++ new ++ b) = drop key (slots (a ++ it :: b)) := by
      rw [slots_append, slots_append, hslots, slots_append, slots_cons, ← List.append_assoc]
      exact (drop_middle (fun e he => ((halo e he).trans_le hbounds.1).ne)
        fun e he => (hbounds.2.trans_lt (hbhi e he)).ne').symm
    refine ⟨⟨fun x hx => ?_, hdrop ▸ h.sorted.filter _⟩, hdrop, ?_, ?_, ?_⟩
    · rw [List.append_assoc] at hx
      rcases List.mem_append.1 hx with hx | hx
      · exact hoka.items_ok x hx
      · rcases List.mem_append.1 hx with hx | hx
        · exact hnew x hx
        · exact hokb.items_ok x hx
    · simp only [List.length_append, List.length_cons]
      omega
    · simp only [List.length_append, List.length_cons]
      omega
    · exact mem_slots.2 ⟨it, by simp, hmem⟩
  rcases hit with rfl | ⟨s, rfl, hj, rfl⟩
  · simp only [removeAt, hget, hsplice]
    exact place [] (by simp) (by simp [Item.slots, drop]) (by simp)
  · simp only [removeAt, hget, hsplice]
    obtain ⟨h₁, h₂, h₃⟩ := cutOut_spec hok (Or.inl ⟨v, rfl, rfl⟩) hj
    refine place _ h₁ ?_ (by simpa using h₃)
    rw [h₂] at hs ⊢
    obtain ⟨-, hc, hac⟩ := sorted_append.1 hs
    have hne₁ : ∀ e ∈ slots (cutOut (Item.run s v) j).1, e.1 ≠ s.row j :=
      fun e he => (hac e he (s.row j, some v) (by simp)).ne
    have hne₂ : ∀ e ∈ slots (cutOut (Item.run s v) j).2, e.1 ≠ s.row j :=
      fun e he => ((List.pairwise_cons.1 hc).1 e he).ne'
    have hdrop := drop_middle (b := [(s.row j, some v)]) hne₁ hne₂
    simpa [drop] using hdrop.symm

omit [RunValue V] in
/-- A row looked for at an offset and removed in the leaf's own frame. -/
theorem remove_displaced {items : List (Item K V)} (off : Dsp) (h : Ok items)
    (hoff : Ok (items.map (·.displaced off))) (key : K) :
    (findRow items off key = none ∧ ∀ e ∈ slots items, displace e.1 off = key → e.2 = none) ∨
      ∃ i j k v, findRow items off key = some (i, j) ∧ displace k off = key ∧
        (k, some v) ∈ slots items ∧ Ok (removeAt items i j) ∧
        slots (removeAt items i j) = drop k (slots items) ∧
        (removeAt items i j).length ≤ items.length + 3 ∧
        items.length ≤ (removeAt items i j).length + 1 := by
  rw [findRow_displaced h.items_ok]
  rcases findRow_spec hoff key with ⟨hnone, habsent⟩ | ⟨a', it', b', v, j, hsplit, hsome, hit'⟩
  · left
    refine ⟨hnone, fun e he heq => ?_⟩
    cases hv : e.2 with
    | none => rfl
    | some v =>
      refine absurd heq (habsent (displace e.1 off, v) (mem_rowsOf.2 ?_))
      rw [slots_displaced h.items_ok]
      exact List.mem_map.2 ⟨e, he, by rw [hv]⟩
  · right
    obtain ⟨a, r, rfl, rfl, hr⟩ := List.map_eq_append_iff.1 hsplit
    obtain ⟨it, b, rfl, rfl, rfl⟩ := List.map_eq_cons_iff.1 hr
    have hok := (ok_singleton.1 (ok_middle h).2.1).1
    obtain ⟨k, hk, hit⟩ : ∃ k, displace k off = key ∧
        (it = .one k v ∨ ∃ s, it = .run s v ∧ j < s.n ∧ s.row j = k) := by
      rw [Item.displaced_eq] at hit'
      cases it with
      | one k w =>
        simp only [Item.one.injEq, reduceCtorEq, false_and, exists_false, or_false] at hit'
        exact ⟨k, hit'.1, Or.inl (by rw [hit'.2])⟩
      | run s w =>
        simp only [reduceCtorEq, Item.run.injEq, false_or] at hit'
        obtain ⟨s', ⟨rfl, rfl⟩, hj, hrow⟩ := hit'
        rw [Span.row_displaced hok.1] at hrow
        exact ⟨s.row j, hrow, Or.inr ⟨s, rfl, hj, rfl⟩⟩
      | hole s => simp at hit'
    obtain ⟨hrem, hdrop, hlen, hlen', hmem⟩ := removeAt_spec h hit
    refine ⟨a.length, j, k, v, ?_, hk, hmem, hrem, hdrop, hlen, hlen'⟩
    rw [hsome, List.length_map]

/-! ## Cutting a leaf in two -/

omit [RunValue V] in
/-- A leaf cut at a key has the slots below it and those at or above it. -/
theorem splitAt_spec {items : List (Item K V)} (h : Ok items) (key : K) :
    Ok (splitAt items key).1 ∧ Ok (splitAt items key).2 ∧
      slots (splitAt items key).1 = below key (slots items) ∧
      slots (splitAt items key).2 = atLeast key (slots items) := by
  -- well-formedness follows from the slots, so only these are worked out
  have finish : ∀ lo hi : List (Item K V), (∀ it ∈ lo ++ hi, it.Ok) →
      slots lo = below key (slots items) → slots hi = atLeast key (slots items) →
      Ok lo ∧ Ok hi ∧ slots lo = below key (slots items) ∧ slots hi = atLeast key (slots items) := by
    intro lo hi hok hlo hhi
    exact ⟨⟨fun it hit => hok it (by simp [hit]), hlo ▸ h.sorted.filter _⟩,
      ⟨fun it hit => hok it (by simp [hit]), hhi ▸ h.sorted.filter _⟩, hlo, hhi⟩
  have hdiv : items.Pairwise fun x y => decide (y.loKey < key) = true →
      decide (x.loKey < key) = true := by
    refine h.pairwise_loKey.imp_of_mem fun {x y} hx _ hxy => ?_
    simp only [decide_eq_true_eq]
    exact fun hy => (Item_loKey_le_hiKey h hx).trans_lt (hxy.trans hy)
  obtain ⟨a, b, rfl, ha, hb⟩ := exists_divided hdiv
  have hpoint := partitionPoint_append ha hb
  have hb_above : ∀ e ∈ slots b, key ≤ e.1 := by
    intro e he
    obtain ⟨it, hit, hslot⟩ := mem_slots.1 he
    obtain ⟨u, w, rfl⟩ := List.append_of_mem hit
    have hok := (ok_middle (ok_append.1 h).2.1).2.1
    have hlo : key ≤ it.loKey := by simpa using hb it hit
    exact hlo.trans (Item.key_bounds (ok_singleton.1 hok).2 e hslot).1
  unfold splitAt
  simp only [hpoint, List.take_left, List.drop_left]
  rcases List.eq_nil_or_concat' a with rfl | ⟨a', last, rfl⟩
  · obtain ⟨h₁, h₂⟩ := below_append_of (a := []) (by simp) hb_above
    exact finish _ _ (by simpa using h.items_ok) (by simpa using h₁.symm) (by simpa using h₂.symm)
  · simp only [List.getLast?_append, List.getLast?_singleton, Option.some_or,
      List.dropLast_concat]
    rw [List.append_assoc, List.singleton_append] at h
    obtain ⟨hoka, hokl, hokb, halo, hbhi, -⟩ := ok_middle h
    obtain ⟨hok, hs⟩ := ok_singleton.1 hokl
    have hlt : last.loKey < key := by simpa using ha last (by simp)
    have halt : ∀ e ∈ slots a', e.1 < key := fun e he => (halo e he).trans hlt
    split
    · rename_i hle
      obtain ⟨h₁, h₂, h₃, -⟩ := splitItem_spec hok hs key
      refine finish _ _ ?_ ?_ ?_
      · intro it hit
        simp only [List.append_assoc, List.mem_append] at hit
        rcases hit with hit | hit | hit | hit
        · exact hoka.items_ok it hit
        · exact h₁ it (by simp [hit])
        · exact h₁ it (by simp [hit])
        · exact hokb.items_ok it hit
      · have ha' : below key (slots a') = slots a' := filter_eq_self_of (by simpa using halt)
        have hb' : below key (slots b) = [] := filter_eq_nil_of (by simpa using hb_above)
        simp only [slots_append, slots_singleton, below_append, h₂, ha', hb', List.append_nil]
      · have ha' : atLeast key (slots a') = [] := filter_eq_nil_of (by simpa using halt)
        have hb' : atLeast key (slots b) = slots b := filter_eq_self_of (by simpa using hb_above)
        simp only [slots_append, slots_singleton, atLeast_append, h₃, ha', hb', List.nil_append]
    · rename_i hle
      have hall : ∀ e ∈ slots (a' ++ [last]), e.1 < key := by
        intro e he
        rw [slots_append, List.mem_append] at he
        rcases he with he | he
        · exact halt e he
        · exact (Item.key_bounds hs e (by simpa [slots] using he)).2.trans_lt (not_le.1 hle)
      obtain ⟨h₁, h₂⟩ := below_append_of hall hb_above
      refine finish _ _ ?_ ?_ ?_
      · simpa using h.items_ok
      · rw [slots_append (a' ++ [last]), h₁]
      · rw [slots_append (a' ++ [last]), h₂]

/-! ## Leaves of plain rows -/

/-- Every item is a single row. -/
def Plain (items : List (Item K V)) : Prop := ∀ it ∈ items, ∃ k v, it = .one k v

omit [RunValue V] in
theorem Plain.displaced {items : List (Item K V)} (h : Plain items) (d : Dsp) :
    Plain (items.map (·.displaced d)) := by
  intro it hit
  obtain ⟨x, hx, rfl⟩ := List.mem_map.1 hit
  obtain ⟨k, v, rfl⟩ := h x hx
  exact ⟨displace k d, v, by simp [Item.displaced_eq]⟩

/-- Without folding, joining leaves plain rows as they are. -/
theorem Plain.joinAround_eq {items : List (Item K V)} (h : Plain items) (at' : Nat) :
    joinAround items at' false = items := by
  have join_none : ∀ i, joinAt items false i = none := by
    intro i
    simp only [joinAt, Bool.false_eq_true, if_false, Option.none_or]
    unfold pairAt
    split
    · rename_i x y hx hy
      obtain ⟨k, v, rfl⟩ := h x (List.mem_of_getElem? hx)
      obtain ⟨k', v', rfl⟩ := h y (List.mem_of_getElem? hy)
      rfl
    · rfl
  unfold joinAround
  generalize min at' (items.length - 1) = i
  cases items.length with
  | zero => rfl
  | succ fuel =>
    have hfind : ∀ l : List Nat, (l.findSome? fun i =>
        (joinAt items false i).map fun r => (r, i)) = none := by
      intro l
      simp [join_none]
    simp only [joinLoop, hfind]

theorem Plain.compress_eq {items : List (Item K V)} (h : Plain items) :
    compress items false = items := by
  have hfrom : ∀ fuel i, compressFrom false fuel i items = items := by
    intro fuel
    induction fuel with
    | zero => exact fun i => rfl
    | succ fuel ih =>
      intro i
      unfold compressFrom
      split
      · rw [h.joinAround_eq, ih]
      · rfl
  exact hfrom _ _

theorem Plain.insert {items : List (Item K V)} (h : Plain items) (key : K) (val : V) :
    Plain (Leaf.insert items key val false) := by
  have take_drop : ∀ (i : Nat) (new : List (Item K V)), Plain new →
      ∀ j, Plain (items.take i ++ new ++ items.drop j) := by
    intro i new hnew j it hit
    simp only [List.append_assoc, List.mem_append] at hit
    rcases hit with hit | hit | hit
    · exact h it (List.mem_of_mem_take hit)
    · exact hnew it hit
    · exact h it (List.mem_of_mem_drop hit)
  have hone : Plain [Item.one key val] := by
    intro it hit
    exact ⟨key, val, List.mem_singleton.1 hit⟩
  unfold Leaf.insert insertAct
  cases hh : holder items 0 key with
  | none =>
    simp only
    have hfront : Plain (Item.one key val :: items) := by
      intro it hit
      rcases List.mem_cons.1 hit with rfl | hit
      · exact ⟨key, val, rfl⟩
      · exact h it hit
    rw [hfront.joinAround_eq]
    exact hfront
  | some i =>
    cases hi : items[i]? with
    | none =>
      simp only [hi]
      have hfront : Plain (Item.one key val :: items) := by
        intro it hit
        rcases List.mem_cons.1 hit with rfl | hit
        · exact ⟨key, val, rfl⟩
        · exact h it hit
      rw [hfront.joinAround_eq]
      exact hfront
    | some it =>
      obtain ⟨k, v, rfl⟩ := h it (List.mem_of_getElem? hi)
      by_cases hk : k = key
      · simp only [hi, hk, if_true]
        have hp : Plain (splice items i [Item.one key val]) := take_drop i _ hone _
        rw [hp.joinAround_eq]
        exact hp
      · simp only [hi, hk, if_false]
        have hp : Plain (items.take (i + 1) ++ Item.one key val :: items.drop (i + 1)) := by
          simpa using take_drop (i + 1) _ hone (i + 1)
        rw [hp.joinAround_eq]
        exact hp

omit [RunValue V] in
theorem Plain.removeAt {items : List (Item K V)} (h : Plain items) (i j : Nat) :
    Plain (Leaf.removeAt items i j) := by
  unfold Leaf.removeAt
  cases hi : items[i]? with
  | none => exact h
  | some it =>
    obtain ⟨k, v, rfl⟩ := h it (List.mem_of_getElem? hi)
    intro it hit
    simp only [splice, List.append_nil, List.mem_append] at hit
    rcases hit with hit | hit
    · exact h it (List.mem_of_mem_take hit)
    · exact h it (List.mem_of_mem_drop hit)

omit [RunValue V] in
/-- Cutting plain rows cuts no item, so neither side grows. -/
theorem Plain.splitAt {items : List (Item K V)} (h : Plain items) (key : K) :
    Plain (Leaf.splitAt items key).1 ∧ Plain (Leaf.splitAt items key).2 ∧
      (Leaf.splitAt items key).1.length ≤ items.length ∧
      (Leaf.splitAt items key).2.length ≤ items.length := by
  unfold Leaf.splitAt
  generalize partitionPoint items (fun it => decide (it.loKey < key)) = p
  dsimp only
  have hlo : Plain (items.take p) := fun it hit => h it (List.mem_of_mem_take hit)
  have hhi : Plain (items.drop p) := fun it hit => h it (List.mem_of_mem_drop hit)
  have hlen : (items.take p).length + (items.drop p).length = items.length := by
    simp only [List.length_take, List.length_drop]
    omega
  generalize items.take p = lo at *
  generalize items.drop p = hi at *
  rcases List.eq_nil_or_concat' lo with rfl | ⟨lo', last, rfl⟩
  · exact ⟨hlo, hhi, by simp, by simp at hlen ⊢; omega⟩
  · obtain ⟨k, v, rfl⟩ := hlo last (by simp)
    have hlo' : Plain lo' := fun it hit => hlo it (by simp [hit])
    simp only [List.getLast?_append, List.getLast?_singleton, Option.some_or,
      List.dropLast_concat]
    simp only [List.length_append, List.length_singleton] at hlen
    by_cases hle : key ≤ (Item.one k v).hiKey
    · have hnlt : ¬ k < key := not_lt.2 hle
      simp only [hle, if_true, splitItem, hnlt, if_false, List.append_nil]
      refine ⟨hlo', ?_, by omega, by simp; omega⟩
      intro it hit
      rcases List.mem_cons.1 hit with rfl | hit
      · exact ⟨k, v, rfl⟩
      · exact hhi it hit
    · simp only [hle, if_false]
      exact ⟨hlo, hhi, by simp; omega, by omega⟩

end Leaf

end Grmpl

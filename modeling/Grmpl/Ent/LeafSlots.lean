import Grmpl.Ent.Leaf
import Grmpl.Lib.OrdMap

/-!
# What a leaf holds

The meaning of a leaf's items: its *slots*, one for each key of each item, with
the value of a row and nothing for a key a hole reserves. A leaf is well formed
when its slots are in strict key order and every run and hole is long enough.

* `Item.slots`, `Leaf.slots`, `Leaf.rows`: the meaning.
* `Leaf.Ok`: well-formedness.
* `Leaf.slots_displaced` and the `*_displaced` lemmas: reading at an offset is
  reading the displaced items.
-/

open Bisect

namespace Grmpl

variable {K V : Type} [Displace K]

/-! ## Spans -/

namespace Span

/-- The keys of a span, in step order. -/
def keys (s : Span K) : List K := (List.range s.n).map s.row

/-- Row `i` is `i` steps from the first, row zero included. -/
theorem row_eq_step {s : Span K} (h : fits s.first s.stride) (i : Nat) :
    s.row i = step s.first s.stride i := by
  unfold row
  split
  · rename_i hi
    subst hi
    exact (Displace.step_zero _ _ h).symm
  · rfl

theorem fits_row {s : Span K} (h : fits s.first s.stride) (i : Nat) :
    fits (s.row i) s.stride := by
  rw [row_eq_step h]
  exact Displace.fits_step _ _ _ h

/-- Stepping on from row `i` reaches the later rows. -/
theorem step_row {s : Span K} (h : fits s.first s.stride) (i : Nat) (j : Int) :
    step (s.row i) s.stride j = step s.first s.stride (i + j) := by
  rw [row_eq_step h, Displace.step_step _ _ _ _ h]

theorem row_displaced {s : Span K} (h : fits s.first s.stride) (d : Dsp) (i : Nat) :
    (s.displaced d).row i = displace (s.row i) d := by
  have hd : fits (s.displaced d).first (s.displaced d).stride := Displace.fits_displace _ _ _ h
  rw [row_eq_step hd, row_eq_step h, Displace.displace_step _ _ _ _ h]
  rfl

theorem row_slice {s : Span K} (h : fits s.first s.stride) (lo hi i : Nat) :
    (s.slice lo hi).row i = s.row (lo + i) := by
  have hs : fits (s.slice lo hi).first (s.slice lo hi).stride := fits_row h lo
  rw [row_eq_step hs]
  show step (s.row lo) s.stride i = _
  rw [step_row h, row_eq_step h]
  simp

/-- The keys of a slice. -/
theorem keys_slice {s : Span K} (h : fits s.first s.stride) (lo hi : Nat) :
    (s.slice lo hi).keys = (List.range' lo (hi - lo)).map s.row := by
  have hn : (s.slice lo hi).n = hi - lo := rfl
  rw [keys, hn, List.range'_eq_map_range, List.map_map]
  exact List.map_congr_left fun i _ => row_slice h lo hi i

/-- A span's keys cut at index `j`. -/
theorem keys_cut {s : Span K} (h : fits s.first s.stride) {j : Nat} (hj : j ≤ s.n) :
    s.keys = (s.slice 0 j).keys ++ (s.slice j s.n).keys := by
  have hrange : List.range s.n = List.range' 0 j ++ List.range' j (s.n - j) := by
    have happ := List.range'_append_1 (s := 0) (m := j) (n := s.n - j)
    rw [Nat.zero_add, Nat.add_sub_cancel' hj] at happ
    rw [List.range_eq_range', happ]
  rw [keys_slice h, keys_slice h, keys, hrange, List.map_append]
  rfl

/-- A span's keys around the one at index `j`. -/
theorem keys_around {s : Span K} (h : fits s.first s.stride) {j : Nat} (hj : j < s.n) :
    s.keys = (s.slice 0 j).keys ++ s.row j :: (s.slice (j + 1) s.n).keys := by
  have hrange : List.range' j (s.n - j) = j :: List.range' (j + 1) (s.n - (j + 1)) := by
    rw [show s.n - j = s.n - (j + 1) + 1 by omega, List.range'_succ]
  rw [keys_cut h hj.le, keys_slice h, keys_slice h j, keys_slice h, hrange]
  rfl

theorem keys_displaced {s : Span K} (h : fits s.first s.stride) (d : Dsp) :
    (s.displaced d).keys = s.keys.map (displace · d) := by
  rw [keys, keys, List.map_map]
  exact List.map_congr_left fun i _ => row_displaced h d i

/-- Rows strictly ascend. -/
def Ascends (s : Span K) : Prop := s.keys.Pairwise (· < ·)

theorem sorted_slots {s : Span K} {w : V} :
    OrdMap.Sorted (s.keys.map fun k => (k, w)) ↔ s.Ascends := List.pairwise_map

theorem Ascends.row_lt {s : Span K} (h : s.Ascends) {i j : Nat} (hij : i < j) (hj : j < s.n) :
    s.row i < s.row j := by
  have hp := List.pairwise_iff_getElem.1 h i j (by simp [keys]; omega) (by simp [keys]; omega) hij
  simpa [keys] using hp

theorem Ascends.row_le {s : Span K} (h : s.Ascends) {i j : Nat} (hij : i ≤ j) (hj : j < s.n) :
    s.row i ≤ s.row j := by
  rcases Nat.lt_or_eq_of_le hij with hlt | rfl
  · exact (h.row_lt hlt hj).le
  · exact le_rfl

/-- Bisection finds the number of rows below a key. -/
theorem below_spec {s : Span K} (h : s.Ascends) (key : K) :
    s.below 0 key ≤ s.n ∧ (∀ i, i < s.below 0 key → s.row i < key) ∧
      ∀ i, s.below 0 key ≤ i → i < s.n → key ≤ s.row i := by
  have hspec := point_spec (n := s.n) (p := fun i => decide (cmpDisplaced (s.row i) 0 key = .lt)) ?_
  · simpa [below, compare_lt_iff_lt] using hspec
  · intro i j hij hj
    simp only [Displace.cmpDisplaced_eq, Displace.displace_zero, compare_lt_iff_lt,
      decide_eq_true_eq]
    exact fun hlt => (h.row_le hij hj).trans_lt hlt

theorem below_eq {s : Span K} {key : K} {m : Nat} (hm : m ≤ s.n)
    (hlo : ∀ i, i < m → s.row i < key) (hhi : ∀ i, m ≤ i → i < s.n → key ≤ s.row i) :
    s.below 0 key = m := by
  refine point_eq hm ?_ ?_
  · intro i hi
    simpa [compare_lt_iff_lt] using hlo i hi
  · intro i hi hn
    simpa [compare_lt_iff_lt] using hhi i hi hn

/-- A key is found exactly at the index of the row it is. -/
theorem find_eq_some {s : Span K} (h : s.Ascends) {key : K} {j : Nat} :
    s.find 0 key = some j ↔ j < s.n ∧ s.row j = key := by
  obtain ⟨hn, hlo, hhi⟩ := below_spec h key
  have hcond : ∀ i, (cmpDisplaced (s.row i) 0 key = .eq) ↔ s.row i = key := by
    intro i
    simp
  constructor
  · intro hf
    simp only [find, hcond, Option.ite_none_right_eq_some, Option.some.injEq] at hf
    obtain ⟨⟨h₁, h₂⟩, rfl⟩ := hf
    exact ⟨h₁, h₂⟩
  · rintro ⟨hj, rfl⟩
    have hb : s.below 0 (s.row j) = j :=
      below_eq hj.le (fun i hi => h.row_lt hi hj) fun i hi hin => h.row_le hi hin
    simp [find, hb, hj]

theorem find_eq_none {s : Span K} (h : s.Ascends) {key : K} :
    s.find 0 key = none ↔ ∀ i, i < s.n → s.row i ≠ key := by
  constructor
  · intro hf i hi heq
    rw [(find_eq_some h).2 ⟨hi, heq⟩] at hf
    cases hf
  · intro hall
    cases hf : s.find 0 key with
    | none => rfl
    | some j =>
      obtain ⟨hj, heq⟩ := (find_eq_some h).1 hf
      exact absurd heq (hall j hj)

theorem mem_keys {s : Span K} {k : K} : k ∈ s.keys ↔ ∃ i, i < s.n ∧ s.row i = k := by
  simp [keys]

end Span

/-! ## Items -/

namespace Item

/-- The keys of an item, each with its value if it is a row. -/
def slots : Item K V → List (K × Option V)
  | one k v => [(k, some v)]
  | run s v => s.keys.map fun k => (k, some v)
  | hole s => s.keys.map fun k => (k, none)

/-- Strides fit, a run is long enough to be one and a hole is not empty. -/
def Ok : Item K V → Prop
  | one _ _ => True
  | run s _ => fits s.first s.stride ∧ minRun ≤ s.n
  | hole s => fits s.first s.stride ∧ 0 < s.n

@[simp] theorem ok_one (k : K) (v : V) : (one k v).Ok := trivial

/-- The branch on a zero displacement is only a shortcut. -/
theorem displaced_eq (it : Item K V) (d : Dsp) : it.displaced d = match it with
    | one k v => one (displace k d) v
    | run s v => run (s.displaced d) v
    | hole s => hole (s.displaced d) := by
  unfold Item.displaced
  split
  · rename_i hd
    subst hd
    cases it <;> simp [Span.displaced]
  · rfl

theorem Ok.displaced {it : Item K V} (h : it.Ok) (d : Dsp) : (it.displaced d).Ok := by
  rw [displaced_eq]
  cases it with
  | one k v => trivial
  | run s v => exact ⟨Displace.fits_displace _ _ _ h.1, h.2⟩
  | hole s => exact ⟨Displace.fits_displace _ _ _ h.1, h.2⟩

/-- Every slot of a displaced item is a displaced slot. -/
theorem slots_displaced {it : Item K V} (h : it.Ok) (d : Dsp) :
    (it.displaced d).slots = it.slots.map fun e => (displace e.1 d, e.2) := by
  rw [displaced_eq]
  cases it with
  | one k v => rfl
  | run s v => simp [slots, Span.keys_displaced h.1, Function.comp_def]
  | hole s => simp [slots, Span.keys_displaced h.1, Function.comp_def]

theorem loKey_displaced (it : Item K V) (d : Dsp) :
    (it.displaced d).loKey = displace it.loKey d := by
  rw [displaced_eq]
  cases it <;> rfl

theorem hiKey_displaced {it : Item K V} (h : it.Ok) (d : Dsp) :
    (it.displaced d).hiKey = displace it.hiKey d := by
  rw [displaced_eq]
  cases it with
  | one k v => rfl
  | run s v => exact Span.row_displaced h.1 d _
  | hole s => exact Span.row_displaced h.1 d _

theorem displaced_displaced (it : Item K V) (a b : Dsp) :
    (it.displaced a).displaced b = it.displaced (a + b) := by
  cases it <;> simp [displaced_eq, Span.displaced]

/-- The rows of an item are its valued slots. -/
theorem eachRow_eq {it : Item K V} (h : it.Ok) (off : Dsp) :
    it.eachRow off = (it.displaced off).slots.filterMap fun e => e.2.map fun v => (e.1, v) := by
  rw [slots_displaced h]
  cases it with
  | one k v => rfl
  | run s v => simp [eachRow, slots, Span.keys, List.filterMap_map, Function.comp_def]
  | hole s => simp [eachRow, slots, List.filterMap_map, Function.comp_def]

theorem loKey_mem_slots {it : Item K V} (h : it.Ok) : ∃ w, (it.loKey, w) ∈ it.slots := by
  cases it with
  | one k v => exact ⟨some v, by simp [slots, loKey]⟩
  | run s v =>
    refine ⟨some v, List.mem_map.2 ⟨s.first, Span.mem_keys.2 ⟨0, ?_, rfl⟩, rfl⟩⟩
    have := h.2
    simp [minRun] at this
    omega
  | hole s => exact ⟨none, List.mem_map.2 ⟨s.first, Span.mem_keys.2 ⟨0, h.2, rfl⟩, rfl⟩⟩

theorem hiKey_mem_slots {it : Item K V} (h : it.Ok) : ∃ w, (it.hiKey, w) ∈ it.slots := by
  cases it with
  | one k v => exact ⟨some v, by simp [slots, hiKey]⟩
  | run s v =>
    refine ⟨some v, List.mem_map.2 ⟨s.last, Span.mem_keys.2 ⟨s.n - 1, ?_, rfl⟩, rfl⟩⟩
    have := h.2
    simp [minRun] at this
    omega
  | hole s =>
    refine ⟨none, List.mem_map.2 ⟨s.last, Span.mem_keys.2 ⟨s.n - 1, ?_, rfl⟩, rfl⟩⟩
    have := h.2
    omega

theorem slots_ne_nil {it : Item K V} (h : it.Ok) : it.slots ≠ [] := by
  obtain ⟨w, hw⟩ := loKey_mem_slots h
  exact List.ne_nil_of_mem hw

/-- An item's end keys bound its slots. -/
theorem key_bounds {it : Item K V} (hs : OrdMap.Sorted it.slots) :
    ∀ e ∈ it.slots, it.loKey ≤ e.1 ∧ e.1 ≤ it.hiKey := by
  have span_bounds : ∀ (s : Span K) (w : Option V), OrdMap.Sorted (s.keys.map fun k => (k, w)) →
      ∀ e ∈ s.keys.map (fun k => (k, w)), s.first ≤ e.1 ∧ e.1 ≤ s.last := by
    intro s w hs e he
    have hasc : s.Ascends := Span.sorted_slots.1 hs
    obtain ⟨k, hk, rfl⟩ := List.mem_map.1 he
    obtain ⟨i, hi, rfl⟩ := Span.mem_keys.1 hk
    exact ⟨hasc.row_le (Nat.zero_le i) hi, hasc.row_le (by omega) (by omega)⟩
  cases it with
  | one k v => simp [slots, loKey, hiKey]
  | run s v => exact span_bounds s _ hs
  | hole s => exact span_bounds s _ hs

end Item

/-! ## Leaves -/

namespace Leaf

/-- The keys of a leaf's items, each with its value if it is a row. -/
def slots (items : List (Item K V)) : List (K × Option V) := items.flatMap Item.slots

/-- The valued slots. -/
def rowsOf (l : List (K × Option V)) : List (K × V) :=
  l.filterMap fun e => e.2.map fun v => (e.1, v)

/-- A leaf's items are well formed: each is, and their slots are in strict key
order. -/
structure Ok (items : List (Item K V)) : Prop where
  items_ok : ∀ it ∈ items, it.Ok
  sorted : OrdMap.Sorted (slots items)

@[simp] theorem slots_nil : slots ([] : List (Item K V)) = [] := rfl

@[simp] theorem slots_cons (it : Item K V) (items : List (Item K V)) :
    slots (it :: items) = it.slots ++ slots items := rfl

@[simp] theorem slots_singleton (it : Item K V) : slots [it] = it.slots := by simp [slots]

@[simp] theorem slots_append (a b : List (Item K V)) : slots (a ++ b) = slots a ++ slots b := by
  simp [slots]

omit [Displace K] in
@[simp] theorem rowsOf_append (a b : List (K × Option V)) :
    rowsOf (a ++ b) = rowsOf a ++ rowsOf b := by
  simp [rowsOf]

omit [Displace K] in
theorem rowsOf_filter (q : K → Bool) (l : List (K × Option V)) :
    rowsOf (l.filter fun e => q e.1) = (rowsOf l).filter fun e => q e.1 := by
  induction l with
  | nil => rfl
  | cons e l ih =>
    obtain ⟨x, w⟩ := e
    simp only [rowsOf] at ih ⊢
    cases w <;> by_cases hx : q x = true <;> simp [hx, ih]

theorem rowsOf_put (k : K) (v : V) (l : List (K × Option V)) :
    rowsOf (OrdMap.put k (some v) l) = OrdMap.put k v (rowsOf l) := by
  rw [OrdMap.put, rowsOf_append, rowsOf_filter (fun x => decide (x < k)), OrdMap.put,
    ← rowsOf_filter (fun x => decide (k < x))]
  rfl

theorem rowsOf_displaced (l : List (K × Option V)) (d : Dsp) :
    rowsOf (l.map fun e => (displace e.1 d, e.2))
      = (rowsOf l).map fun e => (displace e.1 d, e.2) := by
  rw [rowsOf, rowsOf, List.filterMap_map, List.map_filterMap]
  refine List.filterMap_congr fun e _ => ?_
  simp [Function.comp_def]

theorem Ok.nil : Ok ([] : List (Item K V)) := ⟨by simp, List.Pairwise.nil⟩

theorem ok_append {a b : List (Item K V)} :
    Ok (a ++ b) ↔ Ok a ∧ Ok b ∧ ∀ x ∈ slots a, ∀ y ∈ slots b, x.1 < y.1 := by
  constructor
  · rintro ⟨h₁, h₂⟩
    rw [slots_append, OrdMap.sorted_append] at h₂
    exact ⟨⟨fun it hit => h₁ it (by simp [hit]), h₂.1⟩,
      ⟨fun it hit => h₁ it (by simp [hit]), h₂.2.1⟩, h₂.2.2⟩
  · rintro ⟨ha, hb, hab⟩
    refine ⟨fun it hit => ?_, ?_⟩
    · rcases List.mem_append.1 hit with h | h
      · exact ha.items_ok it h
      · exact hb.items_ok it h
    · rw [slots_append, OrdMap.sorted_append]
      exact ⟨ha.sorted, hb.sorted, hab⟩

theorem ok_singleton {it : Item K V} : Ok [it] ↔ it.Ok ∧ OrdMap.Sorted it.slots := by
  constructor
  · rintro ⟨h₁, h₂⟩
    exact ⟨h₁ it (by simp), by simpa [slots] using h₂⟩
  · rintro ⟨h₁, h₂⟩
    exact ⟨by simpa using h₁, by simpa [slots] using h₂⟩

/-- A well-formed leaf split around one of its items. -/
theorem ok_middle {a b : List (Item K V)} {it : Item K V} (h : Ok (a ++ it :: b)) :
    Ok a ∧ Ok [it] ∧ Ok b ∧ (∀ x ∈ slots a, x.1 < it.loKey) ∧ (∀ x ∈ slots b, it.hiKey < x.1) ∧
      ∀ x ∈ slots a, ∀ y ∈ slots b, x.1 < y.1 := by
  rw [show a ++ it :: b = a ++ ([it] ++ b) by simp, ok_append, ok_append] at h
  obtain ⟨ha, ⟨hit, hb, hib⟩, hab⟩ := h
  have hok := hit.items_ok it (by simp)
  obtain ⟨w, hw⟩ := Item.loKey_mem_slots hok
  obtain ⟨w', hw'⟩ := Item.hiKey_mem_slots hok
  refine ⟨ha, hit, hb, fun x hx => ?_, fun x hx => ?_, fun x hx y hy => ?_⟩
  · exact hab x hx (it.loKey, w) (by simp [hw])
  · exact hib (it.hiKey, w') (by simpa [slots] using hw') x hx
  · exact hab x hx y (by simp [hy])

theorem mem_slots {items : List (Item K V)} {e : K × Option V} :
    e ∈ slots items ↔ ∃ it ∈ items, e ∈ it.slots := by simp [slots]

/-- Least keys ascend along a well-formed leaf. -/
theorem Ok.pairwise_loKey {items : List (Item K V)} (h : Ok items) :
    items.Pairwise fun x y => x.hiKey < y.loKey := by
  induction items with
  | nil => exact List.Pairwise.nil
  | cons it items ih =>
    have hmid := ok_middle (a := []) h
    refine List.pairwise_cons.2 ⟨fun y hy => ?_, ih hmid.2.2.1⟩
    obtain ⟨w, hw⟩ := Item.loKey_mem_slots (h.items_ok y (by simp [hy]))
    exact hmid.2.2.2.2.1 _ (mem_slots.2 ⟨y, hy, hw⟩)

theorem Item_loKey_le_hiKey {items : List (Item K V)} (h : Ok items) {it : Item K V}
    (hit : it ∈ items) : it.loKey ≤ it.hiKey := by
  obtain ⟨a, b, rfl⟩ := List.append_of_mem hit
  obtain ⟨-, hok, -⟩ := ok_middle h
  obtain ⟨w, hw⟩ := Item.loKey_mem_slots (hok.items_ok it (by simp))
  exact (Item.key_bounds (ok_singleton.1 hok).2 _ hw).2

/-- A leaf's first item has its least key. -/
theorem loKey_le {items : List (Item K V)} {it : Item K V} (h : Ok (it :: items)) :
    ∀ e ∈ slots (it :: items), it.loKey ≤ e.1 := by
  obtain ⟨-, hit, -, -, hhi, -⟩ := ok_middle (a := []) h
  intro e he
  rcases List.mem_append.1 he with he | he
  · exact (Item.key_bounds (ok_singleton.1 hit).2 e he).1
  · exact (Item_loKey_le_hiKey h (by simp)).trans (hhi e he).le

/-- A leaf's last item has its greatest key. -/
theorem le_hiKey {items : List (Item K V)} {it : Item K V} (h : Ok (items ++ [it])) :
    ∀ e ∈ slots (items ++ [it]), e.1 ≤ it.hiKey := by
  obtain ⟨-, hit, -, hlo, -, -⟩ := ok_middle h
  intro e he
  rw [slots_append, slots_singleton] at he
  rcases List.mem_append.1 he with he | he
  · exact (hlo e he).le.trans (Item_loKey_le_hiKey h (by simp))
  · exact (Item.key_bounds (ok_singleton.1 hit).2 e he).2

/-- A well-formed leaf that is not empty has a least and a greatest key. -/
theorem extreme_spec {items : List (Item K V)} (h : Ok items) (hne : items ≠ []) (greatest : Bool) :
    ∃ k, extreme items 0 greatest = some k ∧ k ∈ (slots items).map Prod.fst ∧
      ∀ e ∈ slots items, if greatest then e.1 ≤ k else k ≤ e.1 := by
  cases greatest with
  | true =>
    obtain ⟨init, it, rfl⟩ := (List.eq_nil_or_concat' items).resolve_left hne
    obtain ⟨w, hw⟩ := Item.hiKey_mem_slots (h.items_ok it (by simp))
    refine ⟨it.hiKey, by simp [extreme], List.mem_map.2 ⟨_, mem_slots.2 ⟨it, by simp, hw⟩, rfl⟩, ?_⟩
    simpa using le_hiKey h
  | false =>
    obtain ⟨it, rest, rfl⟩ := List.exists_cons_of_ne_nil hne
    obtain ⟨w, hw⟩ := Item.loKey_mem_slots (h.items_ok it (by simp))
    refine ⟨it.loKey, by simp [extreme], List.mem_map.2 ⟨_, mem_slots.2 ⟨it, by simp, hw⟩, rfl⟩, ?_⟩
    simpa using loKey_le h

/-! ## Displaced leaves -/

/-- Every slot of a displaced leaf is a displaced slot. -/
theorem slots_displaced {items : List (Item K V)} (h : ∀ it ∈ items, it.Ok) (d : Dsp) :
    slots (items.map (·.displaced d)) = (slots items).map fun e => (displace e.1 d, e.2) := by
  induction items with
  | nil => rfl
  | cons it items ih =>
    have hit := h it (by simp)
    have htl := ih fun x hx => h x (by simp [hx])
    simp only [List.map_cons, slots_cons, List.map_append, htl, Item.slots_displaced hit]

theorem extreme_displaced {items : List (Item K V)} (h : ∀ it ∈ items, it.Ok) (off : Dsp)
    (greatest : Bool) :
    extreme items off greatest = extreme (items.map (·.displaced off)) 0 greatest := by
  cases greatest with
  | false => simp [extreme, List.head?_map, Function.comp_def, Item.loKey_displaced]
  | true =>
    simp only [extreme, List.getLast?_map, Option.map_map, if_true]
    cases hl : items.getLast? with
    | none => rfl
    | some it => simp [Item.hiKey_displaced (h it (List.mem_of_getLast? hl))]

/-! ## The summary -/

theorem Item_rows_eq (it : Item K V) :
    (rowsOf it.slots).length = it.rows ∧ it.slots.length = it.rows + it.reserved := by
  cases it with
  | one k v => exact ⟨rfl, rfl⟩
  | run s v => simp [rowsOf, Item.slots, Item.rows, Item.reserved, Span.keys]
  | hole s => simp [rowsOf, Item.slots, Item.rows, Item.reserved, Span.keys]

/-- The counts a leaf caches are those of its slots. -/
theorem summary_counts (M : Type) [Measure K V M] (items : List (Item K V)) :
    (summary M items).2.1 = (rowsOf (slots items)).length ∧
      (summary M items).2.1 + (summary M items).2.2 = (slots items).length := by
  induction items with
  | nil => exact ⟨rfl, rfl⟩
  | cons it items ih =>
    have hit := Item_rows_eq it
    simp only [summary, List.map_cons, List.sum_cons, slots_cons, rowsOf_append,
      List.length_append] at ih ⊢
    omega

theorem Item_measure_eq {M : Type} [Measure K V M] [LawfulMeasure K V M] {it : Item K V}
    (h : it.Ok) : it.measure M = Measure.ofEntries M (rowsOf it.slots) := by
  cases it with
  | one k v => exact (Measure.ofEntries_singleton (k, v)).symm
  | run s v =>
    have hrows : rowsOf (Item.run s v).slots
        = (List.range s.n).map fun i : Nat => (step s.first s.stride i, v) := by
      simp only [rowsOf, Item.slots, Span.keys, List.filterMap_map]
      rw [← List.filterMap_eq_map]
      refine List.filterMap_congr fun i _ => ?_
      simp [Span.row_eq_step h.1]
    rw [hrows]
    exact LawfulMeasure.run_eq _ _ _ _ h.1
  | hole s =>
    have hrows : rowsOf (Item.hole s : Item K V).slots = [] := by simp [rowsOf, Item.slots]
    rw [hrows]
    exact LawfulMeasure.hole_eq _ _ _

/-- The measure a leaf caches is that of its rows. -/
theorem summary_measure {M : Type} [Measure K V M] [LawfulMeasure K V M]
    {items : List (Item K V)} (h : ∀ it ∈ items, it.Ok) :
    (summary M items).1 = Measure.ofEntries M (rowsOf (slots items)) := by
  have fold : ∀ (l : List (Item K V)) (acc : M), (∀ it ∈ l, it.Ok) →
      l.foldl (fun m it => Measure.combine K V m (it.measure M)) acc
        = Measure.combine K V acc (Measure.ofEntries M (rowsOf (slots l))) := by
    intro l
    induction l with
    | nil => exact fun acc _ => (LawfulMeasure.combine_empty acc).symm
    | cons it l ih =>
      intro acc hl
      rw [List.foldl_cons, ih _ fun x hx => hl x (by simp [hx]), slots_cons, rowsOf_append,
        Measure.ofEntries_append, Item_measure_eq (hl it (by simp)), LawfulMeasure.combine_assoc]
  exact (fold items _ h).trans (LawfulMeasure.empty_combine _)

end Leaf

end Grmpl

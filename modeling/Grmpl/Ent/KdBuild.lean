import Grmpl.Ent.KdDiffWalk
import Grmpl.Ent.LeafContent

/-!
# Building a k-d tree

A k-d tree is built by setting its items apart, splitting them at the median of their widest
column, and building each side. That ends because a column is chosen that not all items share a
cell of, and its median leaves weight on both sides; it loses nothing because a cut of an item
keeps its keys.

* `Separates`, `separates`: runs of `disjoint`, and that one ends with the items in order.
* `widest_differs`, `median_parts`: the column and the pivot of a split.
* `Builds`, `builds`: runs of `build`, and that one ends with the rows it was given.
* `kdBuild_exact`: lists of rows with distinct keys.
-/

open Bisect OrdMap

namespace Grmpl

variable {V : Type}

namespace Leaf

/-! ## Items set apart -/

/-- The loop of `disjoint`, from an index on, ends with items after some rounds. -/
inductive Separates : Nat → List (Item Tuple V) → Nat → List (Item Tuple V) → Prop
  | done {items : List (Item Tuple V)} {i : Nat} (h : items.length ≤ i + 1) : Separates 0 items i items
  | next {n i : Nat} {items r : List (Item Tuple V)} {a b : Item Tuple V} (ha : items[i]? = some a)
      (hb : items[i + 1]? = some b) (h : a.hiKey < b.loKey) (hr : Separates n items (i + 1) r) :
      Separates (n + 1) items i r
  | cut {n i : Nat} {items r : List (Item Tuple V)} {a b : Item Tuple V} (ha : items[i]? = some a)
      (hb : items[i + 1]? = some b) (h : ¬ a.hiKey < b.loKey)
      (hr : Separates n ((splitItem a b.loKey).2.foldl place (splice items i (splitItem a b.loKey).1))
        (i + (splitItem a b.loKey).1.length - 1) r) :
      Separates (n + 1) items i r

/-- The loop as modelled ends as it does, given as many rounds. -/
theorem Separates.eq {n i : Nat} {items r : List (Item Tuple V)} (h : Separates n items i r) :
    ∀ fuel, n ≤ fuel → disjointFrom fuel items i = r := by
  induction h with
  | done hlen =>
    rename_i items i
    intro fuel _
    cases fuel with
    | zero => rfl
    | succ fuel =>
      rw [disjointFrom, List.getElem?_eq_none hlen]
      cases items[i]? <;> rfl
  | next ha hb hlt _ ih =>
    intro fuel hfuel
    obtain ⟨fuel, rfl⟩ := Nat.exists_eq_add_of_lt hfuel
    rw [disjointFrom, ha, hb]
    simp only [hlt, if_true]
    exact ih _ (by omega)
  | cut ha hb hlt _ ih =>
    intro fuel hfuel
    obtain ⟨fuel, rfl⟩ := Nat.exists_eq_add_of_lt hfuel
    rw [disjointFrom, ha, hb]
    simp only [hlt, if_false]
    exact ih _ (by omega)

/-- The number of keys of some items. -/
theorem weight_eq (items : List (Item Tuple V)) : weight items = (slots items).length := by
  induction items with
  | nil => rfl
  | cons it items ih =>
    rw [slots_cons, List.length_append, (Item_rows_eq it).2, ← ih]
    rfl

/-- Items none of which reaches into the next are in order. -/
theorem ok_of_apart {items : List (Item Tuple V)} (h : ∀ it ∈ items, it.Ok ∧ Sorted it.slots)
    (hapart : items.Pairwise fun a b => a.hiKey < b.loKey) : Ok items := by
  induction items with
  | nil => exact Ok.nil
  | cons it items ih =>
    rw [List.forall_mem_cons] at h
    rw [List.pairwise_cons] at hapart
    refine (ok_append (a := [it])).2 ⟨ok_singleton.2 h.1, ih h.2 hapart.2, fun x hx y hy => ?_⟩
    rw [slots_singleton] at hx
    obtain ⟨other, hother, hy⟩ := mem_slots.1 hy
    have hhi := (Item.key_bounds h.1.2 x hx).2
    have hlo := (Item.key_bounds (h.2 other hother).2 y hy).1
    exact hhi.trans_lt ((hapart.1 other hother).trans_le hlo)

theorem Ok.each {items : List (Item Tuple V)} (h : Ok items) : ∀ it ∈ items, it.Ok ∧ Sorted it.slots := by
  intro it hit
  obtain ⟨a, b, rfl⟩ := List.append_of_mem hit
  exact ok_singleton.1 (ok_middle h).2.1

/-- An item placed among items in the order of their least keys. -/
theorem place_spec {items : List (Item Tuple V)} (h : items.Pairwise fun a b => a.loKey < b.loKey)
    (it : Item Tuple V) : ∃ a b, items = a ++ b ∧ place items it = a ++ it :: b ∧
      (∀ x ∈ a, x.loKey < it.loKey) ∧ ∀ x ∈ b, it.loKey ≤ x.loKey := by
  have hdiv : items.Pairwise fun x y => decide (y.loKey < it.loKey) = true → decide (x.loKey < it.loKey) = true := by
    refine h.imp fun {x y} hxy => ?_
    simp only [decide_eq_true_eq]
    exact fun hy => hxy.trans hy
  obtain ⟨a, b, rfl, ha, hb⟩ := exists_divided hdiv
  refine ⟨a, b, rfl, ?_, fun x hx => of_decide_eq_true (ha x hx), fun x hx => not_lt.1 (of_decide_eq_false (hb x hx))⟩
  rw [place, partitionPoint_append ha hb, List.take_left, List.drop_left]

/-- Items that come first stay so when another is placed after them. -/
theorem place_append {front items : List (Item Tuple V)} {it : Item Tuple V}
    (h : (front ++ items).Pairwise fun a b => a.loKey < b.loKey) (hfront : ∀ x ∈ front, x.loKey < it.loKey) :
    place (front ++ items) it = front ++ place items it := by
  obtain ⟨a, b, rfl, hplace, ha, hb⟩ := place_spec (List.pairwise_append.1 h).2.1 it
  have ha' : ∀ x ∈ front ++ a, decide (x.loKey < it.loKey) = true := fun x hx =>
    decide_eq_true ((List.mem_append.1 hx).elim (hfront x) (ha x))
  have hb' : ∀ x ∈ b, decide (x.loKey < it.loKey) = false := fun x hx => decide_eq_false (not_lt.2 (hb x hx))
  rw [hplace, ← List.append_assoc, place, partitionPoint_append ha' hb', List.take_left, List.drop_left,
    List.append_assoc]

/-- Items the loop sets apart: well formed, no key twice, in the order of their least keys, and
those up to an index apart already. -/
structure Separating (items : List (Item Tuple V)) (i : Nat) : Prop where
  each : ∀ it ∈ items, it.Ok ∧ Sorted it.slots
  distinct : Distinct (slots items)
  ordered : items.Pairwise fun a b => a.loKey < b.loKey
  apart : (items.take (i + 1)).Pairwise fun a b => a.hiKey < b.loKey

/-- Items placed one after another behind others with lesser keys. -/
theorem foldl_place {front tail : List (Item Tuple V)} : ∀ {items : List (Item Tuple V)},
    (front ++ items).Pairwise (fun a b => a.loKey < b.loKey) → tail.Pairwise (fun a b => a.loKey < b.loKey) →
      (∀ t ∈ tail, ∀ x ∈ front, x.loKey < t.loKey) → (∀ t ∈ tail, ∀ x ∈ items, x.loKey ≠ t.loKey) →
      ∃ rest, tail.foldl place (front ++ items) = front ++ rest ∧ rest.Perm (items ++ tail) ∧
        (front ++ rest).Pairwise fun a b => a.loKey < b.loKey := by
  induction tail with
  | nil => exact fun {items} h _ _ _ => ⟨items, rfl, by simp, h⟩
  | cons t tail ih =>
    intro items h htail hfront hnew
    rw [List.pairwise_cons] at htail
    rw [List.forall_mem_cons] at hfront hnew
    obtain ⟨a, b, rfl, hplace, ha, hb⟩ := place_spec (List.pairwise_append.1 h).2.1 t
    obtain ⟨hf, hab, hcross⟩ := List.pairwise_append.1 h
    obtain ⟨hsa, hsb, habove⟩ := List.pairwise_append.1 hab
    have hsorted : (front ++ (a ++ t :: b)).Pairwise fun x y => x.loKey < y.loKey := by
      have hbt : ∀ x ∈ b, t.loKey < x.loKey := fun x hx =>
        lt_of_le_of_ne (hb x hx) (hnew.1 x (List.mem_append_right a hx)).symm
      refine List.pairwise_append.2 ⟨hf, List.pairwise_append.2 ⟨hsa, List.pairwise_cons.2 ⟨hbt, hsb⟩, ?_⟩, ?_⟩
      · exact fun x hx => List.forall_mem_cons.2 ⟨ha x hx, habove x hx⟩
      · intro x hx y hy
        rcases List.mem_append.1 hy with hy | hy
        · exact hcross x hx y (List.mem_append_left b hy)
        · rcases List.mem_cons.1 hy with rfl | hy
          · exact hfront.1 x hx
          · exact hcross x hx y (List.mem_append_right a hy)
    have hnew' : ∀ u ∈ tail, ∀ x ∈ a ++ t :: b, x.loKey ≠ u.loKey := by
      intro u hu x hx
      rcases List.mem_append.1 hx with hx | hx
      · exact hnew.2 u hu x (List.mem_append_left b hx)
      · rcases List.mem_cons.1 hx with rfl | hx
        · exact (htail.1 u hu).ne
        · exact hnew.2 u hu x (List.mem_append_right a hx)
    obtain ⟨rest, heq, hperm, hrest⟩ := ih hsorted htail.2 hfront.2 hnew'
    refine ⟨rest, ?_, hperm.trans ?_, hrest⟩
    · rw [List.foldl_cons, place_append h hfront.1, hplace, heq]
    · rw [← Multiset.coe_eq_coe, ← Multiset.coe_add, ← Multiset.coe_add, ← Multiset.coe_add, ← Multiset.coe_add,
        ← Multiset.cons_coe, ← Multiset.cons_coe, ← Multiset.singleton_add, ← Multiset.singleton_add]
      abel

theorem split_two {α : Type} {l : List α} {i : Nat} {a b : α} (ha : l[i]? = some a) (hb : l[i + 1]? = some b) :
    ∃ pre post, l = pre ++ a :: b :: post ∧ pre.length = i := by
  obtain ⟨hi, rfl⟩ := List.getElem?_eq_some_iff.1 ha
  obtain ⟨hi', rfl⟩ := List.getElem?_eq_some_iff.1 hb
  refine ⟨l.take i, l.drop (i + 2), ?_, List.length_take_of_le hi.le⟩
  rw [List.getElem_cons_drop, List.getElem_cons_drop, List.take_append_drop]

variable {i : Nat} {items : List (Item Tuple V)} {a b : Item Tuple V}

theorem Separating.next (h : Separating items i) (ha : items[i]? = some a) (hb : items[i + 1]? = some b)
    (hab : a.hiKey < b.loKey) : Separating items (i + 1) := by
  obtain ⟨pre, post, rfl, rfl⟩ := split_two ha hb
  refine ⟨h.each, h.distinct, h.ordered, ?_⟩
  have hapart := h.apart
  rw [List.take_length_add_append] at hapart
  rw [add_assoc, List.take_length_add_append]
  obtain ⟨hpre, -, hcross⟩ := List.pairwise_append.1 hapart
  have hbelow : ∀ x ∈ pre, x.hiKey < a.loKey := fun x hx => hcross x hx a (List.mem_singleton_self a)
  have haok := h.each a (by simp)
  obtain ⟨w, hw⟩ := Item.hiKey_mem_slots haok.1
  have hends : a.loKey ≤ a.hiKey := (Item.key_bounds haok.2 _ hw).1
  refine List.pairwise_append.2 ⟨hpre, List.pairwise_pair.2 hab, fun x hx y hy => ?_⟩
  have hy : y = a ∨ y = b := by simpa using hy
  rcases hy with rfl | rfl
  · exact hbelow x hx
  · exact (hbelow x hx).trans_le (hends.trans hab.le)

/-- A cut leaves items in the item's place and others behind it, which have its keys. -/
theorem Separating.pieces (h : Separating items i) (ha : items[i]? = some a) (hb : items[i + 1]? = some b)
    (hab : ¬ a.hiKey < b.loKey) : ∃ head tail, splitItem a b.loKey = (head, tail) ∧ Ok head ∧ Ok tail ∧
      head ≠ [] ∧ tail ≠ [] ∧ slots head = below b.loKey a.slots ∧ slots tail = atLeast b.loKey a.slots := by
  obtain ⟨pre, post, rfl, rfl⟩ := split_two ha hb
  obtain ⟨haok, hasorted⟩ := h.each a (by simp)
  obtain ⟨hok, hhead, htail, -⟩ := splitItem_spec haok hasorted b.loKey
  revert hok hhead htail
  obtain ⟨head, tail⟩ := splitItem a b.loKey
  intro hok hhead htail
  rw [List.forall_mem_append] at hok
  have hlo : a.loKey < b.loKey := by
    have hrest := (List.pairwise_append.1 h.ordered).2.1
    exact (List.pairwise_cons.1 hrest).1 b List.mem_cons_self
  obtain ⟨u, hu⟩ := Item.loKey_mem_slots haok
  obtain ⟨w, hw⟩ := Item.hiKey_mem_slots haok
  refine ⟨head, tail, rfl, ⟨hok.1, hhead ▸ hasorted.filter _⟩, ⟨hok.2, htail ▸ hasorted.filter _⟩, ?_, ?_, hhead,
    htail⟩
  · rintro rfl
    have hmem : (a.loKey, u) ∈ below b.loKey a.slots := List.mem_filter.2 ⟨hu, by simpa using hlo⟩
    rw [← hhead] at hmem
    exact absurd hmem List.not_mem_nil
  · rintro rfl
    have hmem : (a.hiKey, w) ∈ atLeast b.loKey a.slots := List.mem_filter.2 ⟨hw, by simpa using hab⟩
    rw [← htail] at hmem
    exact absurd hmem List.not_mem_nil

/-- Keys of an item are no other item's. -/
theorem distinct_cross {pre rest : List (Item Tuple V)} (h : Distinct (slots (pre ++ a :: rest))) :
    ∀ e ∈ a.slots, ∀ e' ∈ slots rest, e.1 ≠ e'.1 := by
  rw [Distinct, slots_append, slots_cons, List.map_append, List.map_append] at h
  intro e he e' he'
  have hcross := (List.nodup_append.1 (List.nodup_append.1 h).2.1).2.2
  exact hcross e.1 (List.mem_map_of_mem he) e'.1 (List.mem_map_of_mem he')

theorem slots_perm {xs ys : List (Item Tuple V)} (h : xs.Perm ys) : (slots xs).Perm (slots ys) := h.flatMap_right _

theorem Separating.cut (h : Separating items i) (ha : items[i]? = some a) (hb : items[i + 1]? = some b)
    (hab : ¬ a.hiKey < b.loKey) : ∃ head tail, splitItem a b.loKey = (head, tail) ∧
      Separating (tail.foldl place (splice items i head)) (i + head.length - 1) ∧
      (slots (tail.foldl place (splice items i head))).Perm (slots items) ∧
      items.length < (tail.foldl place (splice items i head)).length ∧ i ≤ i + head.length - 1 := by
  obtain ⟨head, tail, heq, hheadok, htailok, hhead, htail, hslo, hshi⟩ := h.pieces ha hb hab
  refine ⟨head, tail, heq, ?_⟩
  obtain ⟨pre, post, rfl, rfl⟩ := split_two ha hb
  have hsplice : splice (pre ++ a :: b :: post) pre.length head = (pre ++ head ++ [b]) ++ post := by
    rw [splice, List.take_left, List.drop_length_add_append]
    simp
  have haok := h.each a (by simp)
  obtain ⟨hpre, habpost, hcross⟩ := List.pairwise_append.1 h.ordered
  obtain ⟨haside, hbpost⟩ := List.pairwise_cons.1 habpost
  obtain ⟨hbside, hpost⟩ := List.pairwise_cons.1 hbpost
  have hdistinct := distinct_cross h.distinct
  -- the least keys of the pieces lie on the two sides of the next item's
  have hheadkey : ∀ t ∈ head, a.loKey ≤ t.loKey ∧ t.loKey < b.loKey := by
    intro t ht
    obtain ⟨w, hw⟩ := Item.loKey_mem_slots (hheadok.items_ok t ht)
    have hmem : (t.loKey, w) ∈ slots head := mem_slots.2 ⟨t, ht, hw⟩
    rw [hslo] at hmem
    obtain ⟨hmem, hlt⟩ := List.mem_filter.1 hmem
    exact ⟨(Item.key_bounds haok.2 _ hmem).1, by simpa using hlt⟩
  have htailkey : ∀ t ∈ tail, b.loKey < t.loKey ∧ ∀ x ∈ post, x.loKey ≠ t.loKey := by
    intro t ht
    obtain ⟨w, hw⟩ := Item.loKey_mem_slots (htailok.items_ok t ht)
    have hmem : (t.loKey, w) ∈ slots tail := mem_slots.2 ⟨t, ht, hw⟩
    rw [hshi] at hmem
    obtain ⟨hmem, hle⟩ := List.mem_filter.1 hmem
    have hle : b.loKey ≤ t.loKey := by simpa using hle
    have hother : ∀ x ∈ b :: post, x.loKey ≠ t.loKey := by
      intro x hx
      obtain ⟨u, hu⟩ := Item.loKey_mem_slots (h.each x (by simp [List.mem_cons.1 hx])).1
      exact (hdistinct _ hmem (x.loKey, u) (mem_slots.2 ⟨x, hx, hu⟩)).symm
    rw [List.forall_mem_cons] at hother
    exact ⟨lt_of_le_of_ne hle hother.1, hother.2⟩
  have hheadorder : head.Pairwise fun x y => x.loKey < y.loKey := hheadok.pairwise_loKey.imp_of_mem
    fun hx _ hxy => (Item_loKey_le_hiKey hheadok hx).trans_lt hxy
  have htailorder : tail.Pairwise fun x y => x.loKey < y.loKey := htailok.pairwise_loKey.imp_of_mem
    fun hx _ hxy => (Item_loKey_le_hiKey htailok hx).trans_lt hxy
  have hfront : ∀ x ∈ pre ++ head ++ [b], x.loKey ≤ b.loKey := by
    intro x hx
    rw [List.append_assoc, List.mem_append, List.mem_append, List.mem_singleton] at hx
    rcases hx with hx | hx | rfl
    · exact (hcross x hx b (by simp)).le
    · exact (hheadkey x hx).2.le
    · exact le_rfl
  have hplaced : ((pre ++ head ++ [b]) ++ post).Pairwise fun x y => x.loKey < y.loKey := by
    refine List.pairwise_append.2 ⟨List.pairwise_append.2 ⟨List.pairwise_append.2 ⟨hpre, hheadorder, ?_⟩,
      List.pairwise_singleton _ _, ?_⟩, hpost, ?_⟩
    · exact fun x hx y hy => (hcross x hx a (by simp)).trans_le (hheadkey y hy).1
    · intro x hx y hy
      rw [List.mem_singleton.1 hy]
      rcases List.mem_append.1 hx with hx | hx
      · exact hcross x hx b (by simp)
      · exact (hheadkey x hx).2
    · exact fun x hx y hy => (hfront x hx).trans_lt (hbside y hy)
  obtain ⟨rest, hfold, hperm, hordered⟩ := foldl_place hplaced htailorder
    (fun t ht x hx => (hfront x hx).trans_lt (htailkey t ht).1) fun t ht => (htailkey t ht).2
  rw [hsplice, hfold]
  have hpieces : slots head ++ slots tail = a.slots := by
    rw [hslo, hshi]
    exact below_append_atLeast haok.2
  have hkept : (slots (pre ++ head ++ [b] ++ rest)).Perm (slots (pre ++ a :: b :: post)) := by
    refine (slots_perm (hperm.append_left _)).trans ?_
    simp only [slots_append, slots_cons, ← hpieces, ← Multiset.coe_eq_coe, ← Multiset.coe_add]
    abel
  refine ⟨⟨?_, ?_, hordered, ?_⟩, hkept, ?_, ?_⟩
  · intro x hx
    have hx : x ∈ pre ∨ x ∈ head ∨ x = b ∨ x ∈ post ∨ x ∈ tail := by
      simpa [hperm.mem_iff, or_assoc] using hx
    rcases hx with hx | hx | rfl | hx | hx
    · exact h.each x (by simp [hx])
    · exact hheadok.each x hx
    · exact h.each x (by simp)
    · exact h.each x (by simp [hx])
    · exact htailok.each x hx
  · exact (hkept.map Prod.fst).nodup_iff.2 h.distinct
  · have hapart := h.apart
    rw [List.take_length_add_append] at hapart
    obtain ⟨hpreapart, -, hpreside⟩ := List.pairwise_append.1 hapart
    have hpos := List.length_pos_of_ne_nil hhead
    have htake : (pre ++ head ++ [b] ++ rest).take (pre.length + head.length - 1 + 1) = pre ++ head := by
      have hlen : pre.length + head.length - 1 + 1 = (pre ++ head).length := by
        rw [List.length_append]
        omega
      rw [hlen, List.append_assoc, List.take_left]
    rw [htake]
    refine List.pairwise_append.2 ⟨hpreapart, hheadok.pairwise_loKey, fun x hx y hy => ?_⟩
    exact (hpreside x hx a (by simp)).trans_le (hheadkey y hy).1
  · have hpos := List.length_pos_of_ne_nil hhead
    have hpos' := List.length_pos_of_ne_nil htail
    have hlen := hperm.length_eq
    simp only [List.length_append, List.length_cons, List.length_nil] at hlen ⊢
    omega
  · have hpos := List.length_pos_of_ne_nil hhead
    omega

/-- Every item has a key. -/
theorem length_le_slots {items : List (Item Tuple V)} (h : ∀ it ∈ items, it.Ok) :
    items.length ≤ (slots items).length := by
  induction items with
  | nil => exact Nat.le_refl 0
  | cons it items ih =>
    rw [List.forall_mem_cons] at h
    have hpos := List.length_pos_of_ne_nil (Item.slots_ne_nil h.1)
    have hrest := ih h.2
    rw [slots_cons, List.length_append, List.length_cons]
    omega

/-- **The loop ends**: a round goes on by one item or leaves one more, and an index never goes back. -/
theorem Separating.ends : ∀ (bound : Nat) {items : List (Item Tuple V)} {i : Nat},
    2 * (slots items).length - items.length - i < bound → Separating items i →
      ∃ n r, n < bound ∧ Separates n items i r ∧ Ok r ∧ (slots r).Perm (slots items) := by
  intro bound
  induction bound with
  | zero => exact fun h => absurd h (Nat.not_lt_zero _)
  | succ bound ih =>
    intro items i hbound h
    rcases le_or_gt items.length (i + 1) with hend | hmore
    · have hapart := h.apart
      rw [List.take_of_length_le hend] at hapart
      exact ⟨0, items, Nat.succ_pos _, .done hend, ok_of_apart h.each hapart, .refl _⟩
    · have hlen := length_le_slots fun it hit => (h.each it hit).1
      have ha := List.getElem?_eq_getElem (show i < items.length by omega)
      have hb := List.getElem?_eq_getElem hmore
      by_cases hab : items[i].hiKey < items[i + 1].loKey
      · obtain ⟨n, r, hn, hrun, hok, hperm⟩ := ih (by omega) (h.next ha hb hab)
        exact ⟨n + 1, r, Nat.succ_lt_succ hn, .next ha hb hab hrun, hok, hperm⟩
      · obtain ⟨head, tail, hcut, hnext, hkept, hlonger, hon⟩ := h.cut ha hb hab
        have hslots := hkept.length_eq
        have hlen' := length_le_slots fun it hit => (hnext.each it hit).1
        obtain ⟨n, r, hn, hrun, hok, hperm⟩ := ih (by omega) hnext
        refine ⟨n + 1, r, Nat.succ_lt_succ hn, .cut ha hb hab ?_, hok, hperm.trans hkept⟩
        rw [hcut]
        exact hrun

theorem loKey_ne {items : List (Item Tuple V)} (h : ∀ it ∈ items, it.Ok ∧ Sorted it.slots)
    (hdistinct : Distinct (slots items)) : items.Pairwise fun a b => a.loKey ≠ b.loKey := by
  induction items with
  | nil => exact List.Pairwise.nil
  | cons a rest ih =>
    rw [List.forall_mem_cons] at h
    have hcross := distinct_cross (show Distinct (slots ([] ++ a :: rest)) from hdistinct)
    have hrest : Distinct (slots rest) := by
      rw [Distinct, slots_cons, List.map_append] at hdistinct
      exact (List.nodup_append.1 hdistinct).2.1
    refine List.pairwise_cons.2 ⟨fun b hb => ?_, ih h.2 hrest⟩
    obtain ⟨u, hu⟩ := Item.loKey_mem_slots h.1.1
    obtain ⟨w, hw⟩ := Item.loKey_mem_slots (h.2 b hb).1
    exact hcross _ hu (b.loKey, w) (mem_slots.2 ⟨b, hb, hw⟩)

/-- Well-formed items with no key twice, in whatever order. -/
structure Loose (items : List (Item Tuple V)) : Prop where
  each : ∀ it ∈ items, it.Ok ∧ Sorted it.slots
  distinct : Distinct (slots items)

theorem Loose.separating (h : Loose items) : Separating (byLoKey items) 0 := by
  have hperm : (byLoKey items).Perm items := List.mergeSort_perm _ _
  have heach : ∀ it ∈ byLoKey items, it.Ok ∧ Sorted it.slots := fun it hit => h.each it (hperm.mem_iff.1 hit)
  have hdistinct : Distinct (slots (byLoKey items)) := ((slots_perm hperm).map Prod.fst).nodup_iff.2 h.distinct
  refine ⟨heach, hdistinct, ?_, ?_⟩
  · have hsorted : (byLoKey items).Pairwise fun a b => decide (a.loKey ≤ b.loKey) = true :=
      List.pairwise_mergeSort (fun a b c hab hbc => by simpa using le_trans (of_decide_eq_true hab) (of_decide_eq_true hbc))
        (fun a b => by simpa using le_total a.loKey b.loKey) items
    exact (hsorted.and (loKey_ne heach hdistinct)).imp fun {a b} hab => lt_of_le_of_ne (of_decide_eq_true hab.1) hab.2
  · cases hfirst : byLoKey items with
    | nil => exact List.Pairwise.nil
    | cons a rest => exact List.pairwise_singleton _ _

/-- **Setting items apart ends and keeps their keys**: what is left is in order with none inside
another. -/
theorem Loose.separates (h : Loose items) :
    ∃ n r, Separates n (byLoKey items) 0 r ∧ disjoint items = r ∧ Ok r ∧ (slots r).Perm (slots items) := by
  have hperm : (slots (byLoKey items)).Perm (slots items) := slots_perm (List.mergeSort_perm _ _)
  obtain ⟨n, r, hn, hrun, hok, hkept⟩ := h.separating.ends (2 * weight items + 1) (by
    rw [weight_eq, hperm.length_eq]
    omega)
  exact ⟨n, r, hrun, hrun.eq _ hn.le, hok, hkept.trans hperm⟩

/-! ## Weight on both sides -/

/-- A span whose ends a predicate tells apart is cut inside. -/
theorem boundaryWhere_inside {accepts : Tuple → Bool} {s : Span Tuple} (hn : 0 < s.n)
    (hends : accepts s.first ≠ accepts s.last) : 0 < boundaryWhere accepts s ∧ boundaryWhere accepts s < s.n := by
  refine Bisect.point_inside hn (decide_eq_true rfl) (decide_eq_false ?_)
  exact fun h => hends h.symm

theorem spanItems_ne_nil (s : Span Tuple) (hn : 0 < s.n) (hf : fits s.first s.stride) (w : Option V) :
    spanItems s w ≠ [] := by
  obtain ⟨-, hslots, -⟩ := spanItems_spec hf w
  intro hnil
  have hlen := congrArg List.length hslots
  rw [hnil, List.length_map, Span.keys, List.length_map, List.length_range] at hlen
  exact hn.ne hlen

/-- An item with an end on a side leaves something there. -/
theorem sideWhere_ends {accepts : Tuple → Bool} {it : Item Tuple V} (hok : it.Ok) {k : Tuple}
    (hk : k = it.loKey ∨ k = it.hiKey) :
    (accepts k = true → (sideWhere accepts it).1 ≠ []) ∧ (accepts k = false → (sideWhere accepts it).2 ≠ []) := by
  have hspan : ∀ (s : Span Tuple) (w : Option V), 0 < s.n → fits s.first s.stride → k = s.first ∨ k = s.last →
      (accepts k = true → (splitSpanWhere accepts it s w).1 ≠ []) ∧
        (accepts k = false → (splitSpanWhere accepts it s w).2 ≠ []) := by
    intro s w hn hf hk
    unfold splitSpanWhere
    by_cases hends : accepts s.first = accepts s.last
    · have hside : accepts k = accepts s.first := by
        rcases hk with rfl | rfl
        · rfl
        · exact hends.symm
      rw [if_pos hends, ← hside]
      cases accepts k <;> simp
    · obtain ⟨hlo, hhi⟩ := boundaryWhere_inside hn hends
      have hhead : spanItems (s.slice 0 (boundaryWhere accepts s)) w ≠ [] :=
        spanItems_ne_nil (s.slice 0 _) (Nat.sub_pos_of_lt hlo) (Span.fits_row hf 0) w
      have htail : spanItems (s.slice (boundaryWhere accepts s) s.n) w ≠ [] :=
        spanItems_ne_nil (s.slice _ s.n) (Nat.sub_pos_of_lt hhi) (Span.fits_row hf _) w
      rw [if_neg hends]
      cases accepts s.first <;> exact ⟨fun _ => by assumption, fun _ => by assumption⟩
  cases it with
  | one key v =>
    have hk : k = key := hk.elim id id
    subst hk
    show (accepts k = true → (if accepts k then ([Item.one k v], []) else ([], [Item.one k v])).1 ≠ []) ∧
      (accepts k = false → (if accepts k then ([Item.one k v], []) else ([], [Item.one k v])).2 ≠ [])
    cases accepts k <;> simp
  | run s v => exact hspan s _ (lt_of_lt_of_le (by decide) hok.2) hok.1 hk
  | hole s => exact hspan s _ hok.2 hok.1 hk

theorem mem_endsOf {items : List (Item Tuple V)} {k : Tuple} :
    k ∈ endsOf items ↔ ∃ it ∈ items, k = it.loKey ∨ k = it.hiKey := by
  simp [endsOf]

/-- A side that some item's end lies on has weight. -/
theorem splitWhere_weight {accepts : Tuple → Bool} {items : List (Item Tuple V)} (h : ∀ it ∈ items, it.Ok)
    {k : Tuple} (hk : k ∈ endsOf items) :
    (accepts k = true → 0 < weight (splitWhere accepts items).1) ∧
      (accepts k = false → 0 < weight (splitWhere accepts items).2) := by
  obtain ⟨it, hit, hk⟩ := mem_endsOf.1 hk
  obtain ⟨hlo, hhi⟩ := sideWhere_ends (h it hit) hk
  obtain ⟨hok, -⟩ := splitWhere_keeps accepts h
  rw [List.forall_mem_append] at hok
  have hweight : ∀ {side : List (Item Tuple V)}, (∀ x ∈ side, x.Ok) → ∀ x ∈ side, 0 < weight side := by
    intro side hside x hx
    rw [weight_eq]
    exact (List.length_pos_of_mem hx).trans_le (length_le_slots hside)
  refine ⟨fun ha => ?_, fun ha => ?_⟩
  · obtain ⟨x, hx⟩ := List.exists_mem_of_ne_nil _ (hlo ha)
    exact hweight hok.1 x (List.mem_flatMap.2 ⟨_, List.mem_map_of_mem hit, hx⟩)
  · obtain ⟨x, hx⟩ := List.exists_mem_of_ne_nil _ (hhi ha)
    exact hweight hok.2 x (List.mem_flatMap.2 ⟨_, List.mem_map_of_mem hit, hx⟩)

end Leaf

/-! ## The column of a split -/

/-- What the columns' ranges rely on of floats: nothing is a range of nothing. -/
structure FloatRange.Lawful [FloatRange] : Prop where
  ofNat_zero : FloatRange.ofNat 0 = 0
  sub_self : ∀ x, FloatRange.sub x x = 0

section Columns

variable {cells : List (Option Value)}

theorem foldlM_widen_same {α : Type} [Min α] [Max α] {kind : Value → Option α} {x : α} (hmin : min x x = x)
    (hmax : max x x = x) (h : ∀ c ∈ cells, c.bind kind = some x) : cells.foldlM (widen kind) (x, x) = some (x, x) := by
  induction cells with
  | nil => rfl
  | cons c cells ih =>
    rw [List.forall_mem_cons] at h
    have hstep : widen kind (x, x) c = some (x, x) := by rw [widen, h.1, Option.map_some, hmin, hmax]
    rw [List.foldlM_cons, hstep]
    exact ih h.2

/-- A column with a range holds two cells. -/
theorem numericRange_pos [FloatRange] (hf : FloatRange.Lawful) {r : Nat} (h : numericRange cells = some r) (hr : 0 < r) :
    ∃ c ∈ cells, ∃ c' ∈ cells, c ≠ c' := by
  by_contra hsame
  push Not at hsame
  cases cells with
  | nil => cases h
  | cons c rest =>
    have hrest : ∀ c' ∈ rest, c' = c := fun c' hc' => hsame c' (List.mem_cons_of_mem c hc') c List.mem_cons_self
    unfold numericRange at h
    split at h
    · rename_i e _ heq
      obtain ⟨rfl, rfl⟩ := List.cons.inj heq
      rw [foldlM_widen_same (min_self _) (max_self _) fun c' hc' => by rw [hrest c' hc']; rfl] at h
      have hzero : FloatRange.ofNat (e.id.toNat - e.id.toNat) = r := Option.some.inj h
      rw [Nat.sub_self, hf.ofNat_zero] at hzero
      exact hr.ne hzero
    · rename_i n _ heq
      obtain ⟨rfl, rfl⟩ := List.cons.inj heq
      rw [foldlM_widen_same (min_self _) (max_self _) fun c' hc' => by rw [hrest c' hc']; rfl] at h
      have hzero : FloatRange.ofNat (n.toInt - n.toInt).toNat = r := Option.some.inj h
      rw [Int.sub_self, Int.toNat_zero, hf.ofNat_zero] at hzero
      exact hr.ne hzero
    · rename_i x _ heq
      obtain ⟨rfl, rfl⟩ := List.cons.inj heq
      have hself : ∀ x : FiniteF64, min x x = x ∧ max x x = x := fun x => ⟨if_neg (lt_irrefl _), if_neg (lt_irrefl _)⟩
      rw [foldlM_widen_same (hself x).1 (hself x).2 fun c' hc' => by rw [hrest c' hc']; rfl] at h
      have hzero : FloatRange.sub x x = r := Option.some.inj h
      rw [hf.sub_self] at hzero
      exact hr.ne hzero
    · cases h

/-- The first column of the most is one that has more, and there is one if any has. -/
theorem most_spec (arity least : Nat) (score : Nat → Option Nat) :
    (most arity least score = none → ∀ col < arity, ∀ r, score col = some r → r ≤ least) ∧
      ∀ b, most arity least score = some b → score b.1 = some b.2 ∧ least < b.2 := by
  induction arity with
  | zero => exact ⟨fun _ col hcol => absurd hcol (Nat.not_lt_zero col), fun b hb => by cases hb⟩
  | succ arity ih =>
    have hskip : score arity = none → most (arity + 1) least score = most arity least score := fun h => by
      rw [most, List.range_succ, List.foldl_append, List.foldl_cons, h]
      rfl
    have hstep : ∀ r, score arity = some r → most (arity + 1) least score =
        if least < r ∧ (most arity least score).all (·.2 < r) then some (arity, r)
        else most arity least score := fun r h => by
      rw [most, List.range_succ, List.foldl_append, List.foldl_cons, h]
      rfl
    obtain ⟨hnone, hsome⟩ := ih
    cases hscore : score arity with
    | none =>
      rw [hskip hscore]
      refine ⟨fun hbest col hcol r hr => ?_, hsome⟩
      rcases Nat.lt_succ_iff_lt_or_eq.1 hcol with hlt | rfl
      · exact hnone hbest col hlt r hr
      · rw [hscore] at hr
        cases hr
    | some x =>
      rw [hstep x hscore]
      split
      · rename_i hmore
        refine ⟨fun hbest => absurd hbest (Option.some_ne_none _), fun b hb => ?_⟩
        obtain rfl := Option.some.inj hb
        exact ⟨hscore, hmore.1⟩
      · rename_i hmore
        refine ⟨fun hbest col hcol r hr => ?_, hsome⟩
        rcases Nat.lt_succ_iff_lt_or_eq.1 hcol with hlt | rfl
        · exact hnone hbest col hlt r hr
        · rw [hscore] at hr
          obtain rfl := Option.some.inj hr
          by_contra hgt
          exact hmore ⟨not_le.1 hgt, by rw [hbest]; rfl⟩

/-- Rows with the same cell in every column are one row. -/
theorem Tuple.ext_cells {k k' : Tuple} (h : ∀ col : Nat, k.cells[col]? = k'.cells[col]?) : k = k' := by
  have hcells : k.cells = k'.cells := List.ext_getElem? h
  cases k
  cases k'
  exact congrArg Tuple.mk hcells

theorem two_of_dedup (h : 1 < cells.dedup.length) : ∃ c ∈ cells, ∃ c' ∈ cells, c ≠ c' := by
  obtain ⟨a, b, rest, heq⟩ : ∃ a b rest, cells.dedup = a :: b :: rest := by
    revert h
    rcases cells.dedup with _ | ⟨a, _ | ⟨b, rest⟩⟩
    · exact fun h => absurd h (by decide)
    · exact fun h => absurd h (lt_irrefl 1)
    · exact fun _ => ⟨a, b, rest, rfl⟩
  have hnodup := List.nodup_dedup cells
  rw [heq, List.nodup_cons] at hnodup
  have hmem : ∀ c ∈ [a, b], c ∈ cells := fun c hc => List.mem_dedup.1 (heq ▸ List.mem_append_left rest hc)
  exact ⟨a, hmem a (by simp), b, hmem b (by simp), fun hab => hnodup.1 (hab ▸ List.mem_cons_self)⟩

theorem one_of_dedup (h : cells.dedup.length ≤ 1) {c c' : Option Value} (hc : c ∈ cells) (hc' : c' ∈ cells) : c = c' := by
  rw [← List.mem_dedup] at hc hc'
  cases hd : cells.dedup with
  | nil =>
    rw [hd] at hc
    exact absurd hc List.not_mem_nil
  | cons a rest =>
    have hrest : rest = [] := by
      rw [hd, List.length_cons] at h
      exact List.eq_nil_of_length_eq_zero (by omega)
    rw [hd, hrest, List.mem_singleton] at hc hc'
    rw [hc, hc']

theorem le_foldr_max {l : List Nat} {x : Nat} (h : x ∈ l) : x ≤ l.foldr max 0 := by
  induction l with
  | nil => exact absurd h List.not_mem_nil
  | cons y l ih =>
    rcases List.mem_cons.1 h with rfl | h
    · exact le_max_left _ _
    · exact (ih h).trans (le_max_right _ _)

/-- **The column of widest spread holds two cells** if two of the ends differ. -/
theorem widest_differs [FloatRange] (hf : FloatRange.Lawful) {items : List (Item Tuple V)} {k k' : Tuple}
    (hk : k ∈ endsOf items) (hk' : k' ∈ endsOf items) (hne : k ≠ k') :
    ∃ x ∈ endsOf items, ∃ y ∈ endsOf items, x.cells[widest items]? ≠ y.cells[widest items]? := by
  have hends : ∀ {col : Nat}, (∃ c ∈ (endsOf items).map (fun k : Tuple => k.cells[col]?),
      ∃ c' ∈ (endsOf items).map (fun k : Tuple => k.cells[col]?), c ≠ c') →
      ∃ x ∈ endsOf items, ∃ y ∈ endsOf items, x.cells[col]? ≠ y.cells[col]? := by
    rintro col ⟨c, hc, c', hc', hne⟩
    obtain ⟨x, hx, rfl⟩ := List.mem_map.1 hc
    obtain ⟨y, hy, rfl⟩ := List.mem_map.1 hc'
    exact ⟨x, hx, y, hy, hne⟩
  unfold widest
  dsimp only
  set arity := ((endsOf items).map fun k => k.cells.length).foldr max 0 with harity
  split
  · rename_i b hb
    obtain ⟨hscore, hpos⟩ := (most_spec _ _ _).2 b hb
    exact hends (numericRange_pos hf hscore hpos)
  · rename_i hb
    cases hm : most arity 1 fun col => some ((endsOf items).map fun k : Tuple => k.cells[col]?).dedup.length with
    | some b =>
      obtain ⟨hscore, hpos⟩ := (most_spec _ _ _).2 b hm
      have hlen := Option.some.inj hscore
      exact hends (two_of_dedup (hlen ▸ hpos))
    | none =>
      -- no column holds two cells, so all ends are one row
      refine absurd (Tuple.ext_cells fun col => ?_) hne
      rcases lt_or_ge col arity with hlt | hge
      · exact one_of_dedup ((most_spec _ _ _).1 hm col hlt _ rfl) (List.mem_map_of_mem hk) (List.mem_map_of_mem hk')
      · have hshort : ∀ x ∈ endsOf items, x.cells[col]? = none := fun x hx =>
          List.getElem?_eq_none ((le_foldr_max (List.mem_map_of_mem hx)).trans hge)
        rw [hshort k hk, hshort k' hk']

/-! ## The pivot of a split -/

theorem isBelow_pivot (col : Nat) (v : Value) (k : Tuple) :
    Tree.isBelow col ⟨[v]⟩ k = true ↔ ∀ x, k.cells[col]? = some x → x < v := by
  show decide (k.cmpColumn col ⟨[v]⟩ 0 = .lt) = true ↔ _
  rw [decide_eq_true_eq, Tuple.cmpColumn_pivot]
  cases k.cells[col]? with
  | none => simp
  | some x => simp [compare_lt_iff_lt]

/-- The number of an entity or an integer, as a cell. -/
def number (ent : Bool) (x : Int) : Value := if ent then .ent ⟨UInt64.ofNat x.toNat⟩ else .int (Int64.ofInt x)

/-- The numbers cells of a kind hold. -/
def InKind (ent : Bool) (x : Int) : Prop := if ent then 0 ≤ x ∧ x < 2 ^ 64 else -2 ^ 63 ≤ x ∧ x < 2 ^ 63

theorem number_lt {ent : Bool} {x y : Int} (hx : InKind ent x) (hy : InKind ent y) : number ent x < number ent y ↔ x < y := by
  cases ent with
  | true =>
    have hcmp : number true x < number true y ↔ (UInt64.ofNat x.toNat).toNat < (UInt64.ofNat y.toNat).toNat :=
      compare_lt_iff_lt
    obtain ⟨hx, hx'⟩ := hx
    obtain ⟨hy, hy'⟩ := hy
    have hxn : x.toNat < UInt64.size := (Int.toNat_lt hx).2 hx'
    have hyn : y.toNat < UInt64.size := (Int.toNat_lt hy).2 hy'
    rw [hcmp, UInt64.toNat_ofNat_of_lt' hxn, UInt64.toNat_ofNat_of_lt' hyn]
    omega
  | false =>
    have hcmp : number false x < number false y ↔ (Int64.ofInt x).toInt < (Int64.ofInt y).toInt := compare_lt_iff_lt
    obtain ⟨hx, hx'⟩ := hx
    obtain ⟨hy, hy'⟩ := hy
    rw [hcmp, Int64.toInt_ofInt_of_le hx hx', Int64.toInt_ofInt_of_le hy hy']

theorem mem_mapM {α β : Type} {f : α → Option β} {l : List α} {r : List β} (h : l.mapM f = some r) :
    (∀ a ∈ l, ∃ b ∈ r, f a = some b) ∧ ∀ b ∈ r, ∃ a ∈ l, f a = some b := by
  induction l generalizing r with
  | nil =>
    cases h
    exact ⟨fun a ha => absurd ha List.not_mem_nil, fun b hb => absurd hb List.not_mem_nil⟩
  | cons a l ih =>
    simp only [List.mapM_cons, Option.bind_eq_bind, Option.bind_eq_some_iff] at h
    obtain ⟨b, hb, r, hr, heq⟩ := h
    cases heq
    obtain ⟨hto, hfrom⟩ := ih hr
    refine ⟨List.forall_mem_cons.2 ⟨⟨b, List.mem_cons_self, hb⟩, fun x hx => ?_⟩,
      List.forall_mem_cons.2 ⟨⟨a, List.mem_cons_self, hb⟩, fun y hy => ?_⟩⟩
    · obtain ⟨y, hy, heq⟩ := hto x hx
      exact ⟨y, List.mem_cons_of_mem b hy, heq⟩
    · obtain ⟨x, hx, heq⟩ := hfrom y hy
      exact ⟨x, List.mem_cons_of_mem a hx, heq⟩

/-- A column of numbers holds just these, all in the range of their kind. -/
theorem columnNumbers_spec {ent : Bool} {l : List Int} (h : columnNumbers cells = some (ent, l)) :
    (∀ c ∈ cells, ∃ x ∈ l, c = some (number ent x) ∧ InKind ent x) ∧
      ∀ x ∈ l, some (number ent x) ∈ cells ∧ InKind ent x := by
  have hent : ∀ {c : Option Value} {n : Nat}, c.bind Value.asEnt = some n →
      c = some (number true n) ∧ InKind true n := by
    intro c n hc
    obtain ⟨v, rfl, hv⟩ := Option.bind_eq_some_iff.1 hc
    cases v with
    | ent e =>
      obtain rfl : e.id.toNat = n := Option.some.inj hv
      refine ⟨?_, Int.natCast_nonneg _, by have := e.id.toNat_lt; omega⟩
      rw [number, if_pos rfl, Int.toNat_natCast, UInt64.ofNat_toNat]
    | _ => cases hv
  have hint : ∀ {c : Option Value} {n : Int}, c.bind Value.asInt = some n →
      c = some (number false n) ∧ InKind false n := by
    intro c n hc
    obtain ⟨v, rfl, hv⟩ := Option.bind_eq_some_iff.1 hc
    cases v with
    | int x =>
      obtain rfl : x.toInt = n := Option.some.inj hv
      refine ⟨?_, x.le_toInt, x.toInt_lt⟩
      rw [number, if_neg Bool.false_ne_true, Int64.ofInt_toInt]
    | _ => cases hv
  rw [columnNumbers, Option.or_eq_some_iff, Option.map_eq_some_iff, Option.map_eq_some_iff] at h
  rcases h with ⟨l', hl, heq⟩ | ⟨-, l', hl, heq⟩
  · cases heq
    obtain ⟨hto, hfrom⟩ := mem_mapM hl
    refine ⟨fun c hc => ?_, fun x hx => ?_⟩
    · obtain ⟨n, hn, hcn⟩ := hto c hc
      exact ⟨n, List.mem_map_of_mem hn, hent hcn⟩
    · obtain ⟨n, hn, rfl⟩ := List.mem_map.1 hx
      obtain ⟨c, hc, hcn⟩ := hfrom n hn
      obtain ⟨rfl, hfits⟩ := hent hcn
      exact ⟨hc, hfits⟩
  · cases heq
    obtain ⟨hto, hfrom⟩ := mem_mapM hl
    refine ⟨fun c hc => ?_, fun x hx => ?_⟩
    · obtain ⟨n, hn, hcn⟩ := hto c hc
      exact ⟨n, hn, hint hcn⟩
    · obtain ⟨c, hc, hcn⟩ := hfrom x hx
      obtain ⟨rfl, hfits⟩ := hint hcn
      exact ⟨hc, hfits⟩

theorem foldl_min_spec (l : List Int) (x : Int) : l.foldl min x ∈ x :: l ∧ ∀ y ∈ x :: l, l.foldl min x ≤ y := by
  induction l generalizing x with
  | nil => simp
  | cons z l ih =>
    obtain ⟨hmem, hle⟩ := ih (min x z)
    rw [List.forall_mem_cons] at hle
    refine ⟨?_, ?_⟩
    · rcases List.mem_cons.1 hmem with heq | hmem
      · rw [List.foldl_cons, heq]
        rcases min_choice x z with h | h <;> simp [h]
      · exact List.mem_cons_of_mem x (List.mem_cons_of_mem z hmem)
    · rw [List.forall_mem_cons, List.forall_mem_cons]
      exact ⟨hle.1.trans (min_le_left x z), hle.1.trans (min_le_right x z), hle.2⟩

theorem foldl_max_spec (l : List Int) (x : Int) : l.foldl max x ∈ x :: l ∧ ∀ y ∈ x :: l, y ≤ l.foldl max x := by
  induction l generalizing x with
  | nil => simp
  | cons z l ih =>
    obtain ⟨hmem, hle⟩ := ih (max x z)
    rw [List.forall_mem_cons] at hle
    refine ⟨?_, ?_⟩
    · rcases List.mem_cons.1 hmem with heq | hmem
      · rw [List.foldl_cons, heq]
        rcases max_choice x z with h | h <;> simp [h]
      · exact List.mem_cons_of_mem x (List.mem_cons_of_mem z hmem)
    · rw [List.forall_mem_cons, List.forall_mem_cons]
      exact ⟨(le_max_left x z).trans hle.1, (le_max_right x z).trans hle.1, hle.2⟩

/-- Cells a split of a column at a value leaves on both sides. -/
def Straddles (cells : List (Option Value)) (v : Value) : Prop :=
  (∃ c ∈ cells, ∀ x, c = some x → x < v) ∧ ∃ c ∈ cells, ∃ x, c = some x ∧ v ≤ x

theorem medianCell_spec {all : List (Option Value)} (total : Nat) : ∀ {cells : List (Option Value × Nat)}
    {b : Option Value} {acc : Nat} {pick : Option Value}, b ∈ all → (∀ c ∈ cells, c.1 ∈ all) →
      (b :: cells.map Prod.fst).Pairwise (fun x y => cellLe x y = true) → 0 < acc →
      (∀ v, pick = some v → Straddles all v) → (pick.isSome ∨ ∃ c ∈ cells, c.1 ≠ b) →
      ∃ v, medianCell total cells (some b) acc pick = some v ∧ Straddles all v := by
  intro cells
  induction cells with
  | nil =>
    intro b acc pick _ _ _ _ hpick hmore
    rcases hmore with hsome | ⟨c, hc, -⟩
    · obtain ⟨v, rfl⟩ := Option.isSome_iff_exists.1 hsome
      exact ⟨v, rfl, hpick v rfl⟩
    · exact absurd hc List.not_mem_nil
  | cons head cells ih =>
    obtain ⟨c, w⟩ := head
    intro b acc pick hb hall hsorted hacc hpick hmore
    rw [List.forall_mem_cons] at hall
    rw [List.map_cons, List.pairwise_cons, List.forall_mem_cons] at hsorted
    obtain ⟨⟨hbc, -⟩, hrest⟩ := hsorted
    unfold medianCell
    split
    · rename_i hcond
      obtain ⟨hsome, hne, -⟩ := hcond
      obtain ⟨v, rfl⟩ := Option.isSome_iff_exists.1 hsome
      have hne : b ≠ some v := by simpa using hne
      -- the cell before is a lesser one
      have hparts : Straddles all v := by
        refine ⟨⟨b, hb, fun x hx => ?_⟩, some v, hall.1, v, rfl, le_rfl⟩
        subst hx
        exact lt_of_le_of_ne (by simpa [cellLe] using hbc) fun h => hne (congrArg some h)
      split
      · exact ⟨v, rfl, hparts⟩
      · refine ih hall.1 hall.2 hrest (by omega) (fun u hu => ?_) (.inl rfl)
        obtain rfl := Option.some.inj hu
        exact hparts
    · rename_i hcond
      have hsame : c = b := by
        by_contra hne
        refine hcond ⟨?_, ?_, hacc⟩
        · cases c with
          | none => cases b with
            | none => exact absurd rfl hne
            | some y => cases hbc
          | some x => rfl
        · simpa using fun h => hne h.symm
      subst hsame
      refine ih hb hall.2 hrest (by omega) hpick (hmore.imp_right ?_)
      rintro ⟨d, hd, hne⟩
      rcases List.mem_cons.1 hd with rfl | hd
      · exact absurd rfl hne
      · exact ⟨d, hd, hne⟩

theorem cellLe_trans {x y z : Option Value} (hxy : cellLe x y = true) (hyz : cellLe y z = true) : cellLe x z = true := by
  cases x with
  | none => rfl
  | some x => cases y with
    | none => cases hxy
    | some y => cases z with
      | none => cases hyz
      | some z =>
        simp only [cellLe, decide_eq_true_eq] at *
        exact hxy.trans hyz

theorem cellLe_total (x y : Option Value) : cellLe x y || cellLe y x := by
  cases x with
  | none => rfl
  | some x => cases y with
    | none => rfl
    | some y => simpa [cellLe] using le_total x y

/-- The weighted median of cells two of which differ has cells on both sides. -/
theorem medianCell_parts {cells : List (Option Value × Nat)} (total : Nat) (hw : ∀ c ∈ cells, 0 < c.2)
    (hsorted : (cells.map Prod.fst).Pairwise fun x y => cellLe x y = true) {c c' : Option Value}
    (hc : c ∈ cells.map Prod.fst) (hc' : c' ∈ cells.map Prod.fst) (hne : c ≠ c') :
    ∃ v, medianCell total cells none 0 none = some v ∧ Straddles (cells.map Prod.fst) v := by
  cases cells with
  | nil => exact absurd hc List.not_mem_nil
  | cons head cells =>
    obtain ⟨d, w⟩ := head
    have hstart : medianCell total ((d, w) :: cells) none 0 none = medianCell total cells (some d) (0 + w) none := by
      rw [medianCell, if_neg fun hcond => absurd hcond.2.1 (by simp)]
    have hpos : 0 < 0 + w := by
      rw [zero_add]
      exact hw (d, w) List.mem_cons_self
    have hmore : ∃ x ∈ cells, x.1 ≠ d := by
      by_contra hall
      push Not at hall
      have hsame : ∀ x ∈ ((d, w) :: cells).map Prod.fst, x = d := by
        intro x hx
        obtain ⟨y, hy, rfl⟩ := List.mem_map.1 hx
        rcases List.mem_cons.1 hy with rfl | hy
        · rfl
        · exact hall y hy
      exact hne ((hsame c hc).trans (hsame c' hc').symm)
    rw [hstart]
    exact medianCell_spec total List.mem_cons_self (fun x hx => List.mem_map_of_mem (List.mem_cons_of_mem _ hx))
      hsorted hpos (fun v hv => absurd hv.symm (Option.some_ne_none v)) (.inr hmore)

/-- A cell that steps stays of its kind, and what is no number stays as it is. -/
theorem step_kind (c s : Value) (i : Int) :
    (Value.step c s i).rank = c.rank ∧ (1 < c.rank → Value.step c s i = c) := by
  unfold Value.step
  split
  · exact ⟨rfl, fun _ => rfl⟩
  · split
    · exact ⟨rfl, fun h => absurd h (by simp [Value.rank])⟩
    · exact ⟨rfl, fun h => absurd h (by simp [Value.rank])⟩
    · exact ⟨rfl, fun _ => rfl⟩

/-- A cell of a row along a span, and the cell of its first row. -/
def SameKind (c c' : Option Value) : Prop :=
  c = none ∧ c' = none ∨ ∃ x y, c = some x ∧ c' = some y ∧ y.rank = x.rank ∧ (1 < x.rank → y = x)

theorem SameKind.refl (c : Option Value) : SameKind c c := by
  cases c with
  | none => exact .inl ⟨rfl, rfl⟩
  | some x => exact .inr ⟨x, x, rfl, rfl, rfl, fun _ => rfl⟩

theorem row_alike {s : Span Tuple} (hf : fits s.first s.stride) (i col : Nat) :
    SameKind (s.first.cells[col]?) ((s.row i).cells[col]?) := by
  have hlen : s.first.cells.length = s.stride.cells.length := hf
  have hcells : (s.row i).cells[col]? = (List.zipWith (fun c d => Value.step c d i) s.first.cells s.stride.cells)[col]? := by
    rw [Span.row_eq_step hf]
    rfl
  rw [hcells, List.getElem?_zipWith]
  rcases lt_or_ge col s.first.cells.length with hlt | hge
  · rw [List.getElem?_eq_getElem hlt, List.getElem?_eq_getElem (hlen ▸ hlt)]
    obtain ⟨hrank, hfix⟩ := step_kind s.first.cells[col] (s.stride.cells[col]) i
    exact .inr ⟨_, _, rfl, rfl, hrank, hfix⟩
  · rw [List.getElem?_eq_none hge]
    exact .inl ⟨rfl, rfl⟩

theorem end_alike {it : Item Tuple V} (hok : it.Ok) (col : Nat) : SameKind (it.loKey.cells[col]?) (it.hiKey.cells[col]?) := by
  cases it with
  | one k v => exact .refl _
  | run s v => exact row_alike hok.1 _ col
  | hole s => exact row_alike hok.1 _ col

theorem mapM_isSome_of {α β : Type} {f : α → Option β} {l : List α} (h : ∀ a ∈ l, (f a).isSome) : (l.mapM f).isSome := by
  induction l with
  | nil => rfl
  | cons a l ih =>
    rw [List.forall_mem_cons] at h
    obtain ⟨b, hb⟩ := Option.isSome_iff_exists.1 h.1
    obtain ⟨r, hr⟩ := Option.isSome_iff_exists.1 (ih h.2)
    rw [List.mapM_cons, hb, Option.bind_eq_bind, Option.bind_some, hr]
    rfl

/-- Cells all entities or all integers are numbers. -/
theorem columnNumbers_isSome {x : Value} (hx : x.rank ≤ 1) (h : ∀ c ∈ cells, ∃ y, c = some y ∧ y.rank = x.rank) :
    columnNumbers cells ≠ none := by
  rw [columnNumbers, Ne, Option.or_eq_none_iff, Option.map_eq_none_iff, Option.map_eq_none_iff]
  rintro ⟨hent, hint⟩
  cases x with
  | ent e =>
    have hsome : (cells.mapM fun c : Option Value => c.bind Value.asEnt).isSome := by
      refine mapM_isSome_of fun c hc => ?_
      obtain ⟨y, rfl, hy⟩ := h c hc
      cases y <;> first | rfl | exact absurd hy (by simp [Value.rank])
    rw [hent] at hsome
    exact absurd hsome Bool.false_ne_true
  | int n =>
    have hsome : (cells.mapM fun c : Option Value => c.bind Value.asInt).isSome := by
      refine mapM_isSome_of fun c hc => ?_
      obtain ⟨y, rfl, hy⟩ := h c hc
      cases y <;> first | rfl | exact absurd hy (by simp [Value.rank])
    rw [hint] at hsome
    exact absurd hsome Bool.false_ne_true
  | _ => exact absurd hx (by simp [Value.rank])

/-- Two cells of the ends that are not numbers of one kind are two cells of the least keys: a row
that steps stays of its kind. -/
theorem loKey_differs {items : List (Item Tuple V)} (hok : ∀ it ∈ items, it.Ok) {col : Nat}
    (hnum : columnNumbers ((endsOf items).map fun k => k.cells[col]?) = none) {x y : Tuple} (hx : x ∈ endsOf items)
    (hy : y ∈ endsOf items) (hne : x.cells[col]? ≠ y.cells[col]?) :
    ∃ a ∈ items, ∃ b ∈ items, a.loKey.cells[col]? ≠ b.loKey.cells[col]? := by
  by_contra hsame
  push Not at hsame
  obtain ⟨a, ha, -⟩ := Leaf.mem_endsOf.1 hx
  -- every end is alike the least key of one item
  have halike : ∀ k ∈ endsOf items, SameKind (a.loKey.cells[col]?) (k.cells[col]?) := by
    intro k hk
    obtain ⟨it, hit, hk⟩ := Leaf.mem_endsOf.1 hk
    rw [hsame a ha it hit]
    rcases hk with rfl | rfl
    · exact .refl _
    · exact end_alike (hok it hit) col
  rcases halike x hx with ⟨hnone, hxnone⟩ | ⟨c, cx, hc, hcx, hrank, hfix⟩
  · rcases halike y hy with ⟨-, hynone⟩ | ⟨d, -, hd, -⟩
    · exact hne (hxnone.trans hynone.symm)
    · rw [hnone] at hd
      cases hd
  · have hall : ∀ k ∈ endsOf items, ∃ z, k.cells[col]? = some z ∧ z.rank = c.rank ∧ (1 < c.rank → z = c) := by
      intro k hk
      rcases halike k hk with ⟨hnone, -⟩ | ⟨d, z, hd, hz, hzrank, hzfix⟩
      · rw [hc] at hnone
        cases hnone
      · rw [hc] at hd
        obtain rfl := Option.some.inj hd
        exact ⟨z, hz, hzrank, hzfix⟩
    rcases le_or_gt c.rank 1 with hnumber | hother
    · refine columnNumbers_isSome hnumber (fun d hd => ?_) hnum
      obtain ⟨k, hk, rfl⟩ := List.mem_map.1 hd
      obtain ⟨z, hz, hzrank, -⟩ := hall k hk
      exact ⟨z, hz, hzrank⟩
    · obtain ⟨u, hu, -, hufix⟩ := hall x hx
      obtain ⟨w, hw, -, hwfix⟩ := hall y hy
      rw [hufix hother] at hu
      rw [hwfix hother] at hw
      exact hne (hu.trans hw.symm)

theorem exists_ite {p : Prop} [Decidable p] {a b : Option Value} {q : Value → Prop} (ha : p → ∃ v, a = some v ∧ q v)
    (hb : ∃ v, b = some v ∧ q v) : ∃ v, (if p then a else b) = some v ∧ q v := by
  split
  · rename_i hp
    exact ha hp
  · exact hb

/-- **The median of a column that holds two cells** is a pivot with an end on both sides. -/
theorem median_parts {items : List (Item Tuple V)} (hok : ∀ it ∈ items, it.Ok) {col : Nat} {x y : Tuple}
    (hx : x ∈ endsOf items) (hy : y ∈ endsOf items) (hne : x.cells[col]? ≠ y.cells[col]?) :
    ∃ v, median items col = some v ∧ Straddles ((endsOf items).map fun k => k.cells[col]?) v := by
  unfold median
  dsimp only
  split
  · rename_i ent n ns hnum
    obtain ⟨hto, hfrom⟩ := columnNumbers_spec hnum
    obtain ⟨hmin, hleast⟩ := foldl_min_spec ns n
    obtain ⟨hmax, hmost⟩ := foldl_max_spec ns n
    obtain ⟨hminmem, hminfits⟩ := hfrom _ hmin
    obtain ⟨hmaxmem, hmaxfits⟩ := hfrom _ hmax
    have hspread : ns.foldl min n < ns.foldl max n := by
      obtain ⟨u, hu, hxu, -⟩ := hto _ (List.mem_map_of_mem hx)
      obtain ⟨w, hw, hyw, -⟩ := hto _ (List.mem_map_of_mem hy)
      have huw : u ≠ w := by
        rintro rfl
        exact hne (hxu.trans hyw.symm)
      rcases lt_or_gt_of_ne huw with hlt | hlt
      · exact (hleast u hu).trans_lt (hlt.trans_le (hmost w hw))
      · exact (hleast w hw).trans_lt (hlt.trans_le (hmost u hu))
    -- a number above the least and not above the greatest parts them
    have hparts : ∀ z : Int, ns.foldl min n < z → z ≤ ns.foldl max n →
        Straddles ((endsOf items).map fun k => k.cells[col]?) (number ent z) := by
      intro z hlo hhi
      have hz : InKind ent z := by
        cases ent with
        | true => exact ⟨hminfits.1.trans hlo.le, hhi.trans_lt hmaxfits.2⟩
        | false => exact ⟨hminfits.1.trans hlo.le, hhi.trans_lt hmaxfits.2⟩
      refine ⟨⟨_, hminmem, fun c hc => ?_⟩, _, hmaxmem, _, rfl, ?_⟩
      · obtain rfl := Option.some.inj hc
        exact (number_lt hminfits hz).2 hlo
      · exact not_lt.1 fun h => not_lt.2 hhi ((number_lt hmaxfits hz).1 h)
    have hpoint := Bisect.point_le (ns.foldl max n - (ns.foldl min n + 1)).toNat fun i =>
      2 * weightBelow items col ⟨[number ent (ns.foldl min n + 1 + i)]⟩ < Leaf.weight items
    set a := ns.foldl min n + 1 + (Bisect.point (ns.foldl max n - (ns.foldl min n + 1)).toNat fun i =>
      2 * weightBelow items col ⟨[number ent (ns.foldl min n + 1 + i)]⟩ < Leaf.weight items : Nat)
    have hlo : ns.foldl min n < a := by omega
    have hhi : a ≤ ns.foldl max n := by omega
    refine exists_ite (fun hnear => ⟨number ent (a - 1), rfl, ?_⟩) ⟨number ent a, rfl, hparts a hlo hhi⟩
    have hbefore : ns.foldl min n + 1 < a := hnear.1
    exact hparts (a - 1) (by omega) (by omega)
  · rename_i hnot
    have hnum : columnNumbers ((endsOf items).map fun k => k.cells[col]?) = none := by
      cases hn : columnNumbers ((endsOf items).map fun k : Tuple => k.cells[col]?) with
      | none => rfl
      | some found =>
        obtain ⟨ent, l⟩ := found
        cases l with
        | nil =>
          obtain ⟨n, hmem, -⟩ := (columnNumbers_spec hn).1 _ (List.mem_map_of_mem hx)
          exact absurd hmem List.not_mem_nil
        | cons n ns => exact absurd hn (hnot ent n ns)
    obtain ⟨a, ha, b, hb, hab⟩ := loKey_differs hok hnum hx hy hne
    set cells : List (Option Value × Nat) := items.map fun it => (it.loKey.cells[col]?, it.rows + it.reserved) with hcells
    set sorted : List (Option Value × Nat) := cells.mergeSort fun a b => cellLe a.1 b.1
    have hperm : sorted.Perm cells := List.mergeSort_perm _ _
    have hsorted : sorted.Pairwise fun a b => cellLe a.1 b.1 = true :=
      @List.pairwise_mergeSort _ (fun a b => cellLe a.1 b.1) (fun _ _ _ => cellLe_trans)
        (fun a b => cellLe_total a.1 b.1) cells
    have hlo : ∀ it ∈ items, it.loKey.cells[col]? ∈ sorted.map Prod.fst := fun it hit =>
      (hperm.map Prod.fst).mem_iff.2 (List.mem_map.2 ⟨_, List.mem_map_of_mem hit, rfl⟩)
    have hends : ∀ c ∈ sorted.map Prod.fst, c ∈ (endsOf items).map fun k : Tuple => k.cells[col]? := by
      intro c hc
      obtain ⟨d, hd, rfl⟩ := List.mem_map.1 hc
      obtain ⟨it, hit, rfl⟩ := List.mem_map.1 (hperm.mem_iff.1 hd)
      exact List.mem_map.2 ⟨it.loKey, Leaf.mem_endsOf.2 ⟨it, hit, .inl rfl⟩, rfl⟩
    have hweight : ∀ c ∈ sorted, 0 < c.2 := by
      intro c hc
      obtain ⟨it, hit, rfl⟩ := List.mem_map.1 (hperm.mem_iff.1 hc)
      rw [← (Leaf.Item_rows_eq it).2]
      exact List.length_pos_of_ne_nil (Item.slots_ne_nil (hok it hit))
    obtain ⟨v, hv, ⟨c, hc, hbelow⟩, d, hd, habove⟩ := medianCell_parts (Leaf.weight items) hweight
      (List.pairwise_map.2 hsorted) (hlo a ha) (hlo b hb) hab
    exact ⟨v, hv, ⟨c, hends c hc, hbelow⟩, d, hends d hd, habove⟩

end Columns

/-! ## Runs that do not turn back -/

/-- An item no pivot finds turning back: if it is a run, each divides it. -/
def Item.Steady (it : Item Tuple V) : Prop :=
  it.Ok ∧ ∀ s v, it = .run s v → ∀ col pivot, Leaf.Divides (Tree.isBelow col ⟨[pivot]⟩) s

namespace Leaf

theorem Divides.slice {accepts : Tuple → Bool} {s : Span Tuple} (h : Divides accepts s) (hf : fits s.first s.stride)
    {lo hi : Nat} (hhi : hi ≤ s.n) : Divides accepts (s.slice lo hi) := by
  obtain ⟨m, side, hside⟩ := h
  refine ⟨m - lo, side, fun i hi' => ?_⟩
  have hin : i < hi - lo := hi'
  rw [Span.row_slice hf, hside (lo + i) (by omega)]
  exact if_congr (by omega) rfl rfl

theorem steady_slice {s : Span Tuple} {w : Option V} (hf : fits s.first s.stride)
    (hw : ∀ v, w = some v → ∀ col pivot, Divides (Tree.isBelow col ⟨[pivot]⟩) s) {lo hi : Nat} (hhi : hi ≤ s.n) :
    ∀ x ∈ spanItems (s.slice lo hi) w, x.Steady := by
  intro x hx
  obtain ⟨hok, -⟩ := spanItems_spec (s := s.slice lo hi) (Span.fits_row hf lo) w
  refine ⟨hok x hx, ?_⟩
  rintro s' v rfl col pivot
  cases w with
  | none =>
    have hx : Item.run s' v ∈ (if 0 < (s.slice lo hi).n then [Item.hole (s.slice lo hi)] else []) := hx
    by_cases hn : 0 < (s.slice lo hi).n
    · rw [if_pos hn] at hx
      cases List.mem_singleton.1 hx
    · rw [if_neg hn] at hx
      exact absurd hx List.not_mem_nil
  | some u =>
    have hx : Item.run s' v ∈ (if minRun ≤ (s.slice lo hi).n then [Item.run (s.slice lo hi) u]
      else (List.range (s.slice lo hi).n).map fun i => Item.one ((s.slice lo hi).row i) u) := hx
    by_cases hn : minRun ≤ (s.slice lo hi).n
    · rw [if_pos hn] at hx
      cases List.mem_singleton.1 hx
      exact (hw v rfl col pivot).slice hf hhi
    · rw [if_neg hn] at hx
      obtain ⟨i, -, hi⟩ := List.mem_map.1 hx
      cases hi

theorem steady_splitItem {it : Item Tuple V} (h : it.Steady) (key : Tuple) :
    ∀ x ∈ (splitItem it key).1 ++ (splitItem it key).2, x.Steady := by
  cases it with
  | one k v =>
    intro x hx
    have hx : x = .one k v := by
      by_cases hk : k < key
      · simpa [splitItem, hk] using hx
      · simpa [splitItem, hk] using hx
    exact hx ▸ h
  | run s v =>
    have hw : ∀ u, some v = some u → ∀ col pivot, Divides (Tree.isBelow col ⟨[pivot]⟩) s := fun _ _ => h.2 s v rfl
    exact List.forall_mem_append.2 ⟨steady_slice h.1.1 hw (Bisect.point_le _ _), steady_slice h.1.1 hw le_rfl⟩
  | hole s =>
    have hw : ∀ u : V, none = some u → ∀ col pivot, Divides (Tree.isBelow col ⟨[pivot]⟩) s := fun u hu => by cases hu
    exact List.forall_mem_append.2 ⟨steady_slice h.1.1 hw (Bisect.point_le _ _), steady_slice h.1.1 hw le_rfl⟩

theorem steady_sideWhere {it : Item Tuple V} (h : it.Steady) (accepts : Tuple → Bool) :
    ∀ x ∈ (sideWhere accepts it).1 ++ (sideWhere accepts it).2, x.Steady := by
  have hspan : ∀ (s : Span Tuple) (w : Option V), fits s.first s.stride →
      (∀ u, w = some u → ∀ col pivot, Divides (Tree.isBelow col ⟨[pivot]⟩) s) →
      ∀ x ∈ (splitSpanWhere accepts it s w).1 ++ (splitSpanWhere accepts it s w).2, x.Steady := by
    intro s w hf hw
    unfold splitSpanWhere
    have hhead : ∀ x ∈ spanItems (s.slice 0 (boundaryWhere accepts s)) w, x.Steady :=
      steady_slice hf hw (Bisect.point_le _ _)
    have htail : ∀ x ∈ spanItems (s.slice (boundaryWhere accepts s) s.n) w, x.Steady := steady_slice hf hw le_rfl
    by_cases hends : accepts s.first = accepts s.last
    · rw [if_pos hends]
      cases accepts s.first <;> simpa using h
    · rw [if_neg hends]
      cases accepts s.first
      · exact List.forall_mem_append.2 ⟨htail, hhead⟩
      · exact List.forall_mem_append.2 ⟨hhead, htail⟩
  cases it with
  | one k v =>
    show ∀ x ∈ (if accepts k then ([Item.one k v], []) else ([], [Item.one k v])).1 ++
      (if accepts k then ([Item.one k v], []) else ([], [Item.one k v])).2, x.Steady
    cases accepts k <;> simpa using h
  | run s v => exact hspan s _ h.1.1 fun _ _ => h.2 s v rfl
  | hole s => exact hspan s _ h.1.1 fun u hu => by cases hu

theorem mem_foldl_place {tail : List (Item Tuple V)} {x : Item Tuple V} : ∀ {items : List (Item Tuple V)},
    x ∈ tail.foldl place items → x ∈ items ∨ x ∈ tail := by
  induction tail with
  | nil => exact fun h => .inl h
  | cons t tail ih =>
    intro items hx
    rcases ih hx with hx | hx
    · rw [place, List.mem_append, List.mem_cons] at hx
      rcases hx with hx | rfl | hx
      · exact .inl (List.mem_of_mem_take hx)
      · exact .inr List.mem_cons_self
      · exact .inl (List.mem_of_mem_drop hx)
    · exact .inr (List.mem_cons_of_mem t hx)

theorem Separates.steady {n i : Nat} {items r : List (Item Tuple V)} (h : Separates n items i r) :
    (∀ it ∈ items, it.Steady) → ∀ it ∈ r, it.Steady := by
  induction h with
  | done _ => exact fun hs => hs
  | next _ _ _ _ ih => exact ih
  | cut ha hb hab _ ih =>
    intro hs
    have hpieces := steady_splitItem (hs _ (List.mem_of_getElem? ha))
    refine ih fun x hx => ?_
    rcases mem_foldl_place hx with hx | hx
    · rw [splice, List.mem_append, List.mem_append] at hx
      rcases hx with (hx | hx) | hx
      · exact hs x (List.mem_of_mem_take hx)
      · exact hpieces _ x (List.mem_append_left _ hx)
      · exact hs x (List.mem_of_mem_drop hx)
    · exact hpieces _ x (List.mem_append_right _ hx)

theorem steady_splitWhere {items : List (Item Tuple V)} (h : ∀ it ∈ items, it.Steady) (accepts : Tuple → Bool) :
    (∀ x ∈ (splitWhere accepts items).1, x.Steady) ∧ ∀ x ∈ (splitWhere accepts items).2, x.Steady := by
  refine ⟨fun x hx => ?_, fun x hx => ?_⟩
  · obtain ⟨sides, hsides, hx⟩ := List.mem_flatMap.1 hx
    obtain ⟨it, hit, rfl⟩ := List.mem_map.1 hsides
    exact steady_sideWhere (h it hit) accepts x (List.mem_append_left _ hx)
  · obtain ⟨sides, hsides, hx⟩ := List.mem_flatMap.1 hx
    obtain ⟨it, hit, rfl⟩ := List.mem_map.1 hsides
    exact steady_sideWhere (h it hit) accepts x (List.mem_append_right _ hx)

end Leaf

/-! ## The tree -/

section Build

variable {M : Type} [Measure Tuple V M] [FloatRange] {items r : List (Item Tuple V)}

/-- `build` ends with a tree. Each split is on a column that holds two cells, at a median, with
weight on both sides. -/
inductive Builds : List (Item Tuple V) → Tree Tuple V M → Prop
  | nil : Builds [] .nil
  | leaf {n : Nat} {items r : List (Item Tuple V)} (hne : items ≠ [])
      (hr : Leaf.Separates n (Leaf.byLoKey items) 0 r) (hshort : r.length ≤ arityB) : Builds items (Tree.leaf r)
  | split {n : Nat} {items r lo hi : List (Item Tuple V)} {v : Value} {tl tr : Tree Tuple V M} (hne : items ≠ [])
      (hr : Leaf.Separates n (Leaf.byLoKey items) 0 r) (hlong : arityB < r.length)
      (hcol : ∃ x ∈ endsOf r, ∃ y ∈ endsOf r, x.cells[widest r]? ≠ y.cells[widest r]?)
      (hpivot : median r (widest r) = some v) (hsides : Leaf.splitOn r (widest r) ⟨[v]⟩ = (lo, hi))
      (hlo : 0 < Leaf.weight lo) (hhi : 0 < Leaf.weight hi) (hbelow : Builds lo tl) (habove : Builds hi tr) :
      Builds items (Tree.splitNode (widest r) ⟨[v]⟩ tl tr)

omit [FloatRange] in
theorem Leaf.Ok.loose {items : List (Item Tuple V)} (h : Leaf.Ok items) : Leaf.Loose items :=
  ⟨h.each, h.sorted.distinct⟩

/-- **A leaf too long is cut with weight on both sides.** -/
theorem split_weights (hf : FloatRange.Lawful) (hok : Leaf.Ok r) (hlong : arityB < r.length) :
    (∃ x ∈ endsOf r, ∃ y ∈ endsOf r, x.cells[widest r]? ≠ y.cells[widest r]?) ∧
      ∃ v lo hi, median r (widest r) = some v ∧ Leaf.splitOn r (widest r) ⟨[v]⟩ = (lo, hi) ∧ 0 < Leaf.weight lo ∧
        0 < Leaf.weight hi ∧ Leaf.Ok lo ∧ Leaf.Ok hi ∧ (Leaf.slots lo ++ Leaf.slots hi).Perm (Leaf.slots r) := by
  -- two items have two least keys
  obtain ⟨a, b, rest, rfl⟩ : ∃ a b rest, r = a :: b :: rest := by
    revert hlong
    rcases r with _ | ⟨a, _ | ⟨b, rest⟩⟩
    · exact fun h => absurd h (by simp)
    · exact fun h => absurd h (by simp [arityB])
    · exact fun _ => ⟨a, b, rest, rfl⟩
  have hne : a.loKey ≠ b.loKey :=
    (List.pairwise_cons.1 (Leaf.loKey_ne hok.each hok.sorted.distinct)).1 b List.mem_cons_self
  have ha : a.loKey ∈ endsOf (a :: b :: rest) := Leaf.mem_endsOf.2 ⟨a, by simp, .inl rfl⟩
  have hb : b.loKey ∈ endsOf (a :: b :: rest) := Leaf.mem_endsOf.2 ⟨b, by simp, .inl rfl⟩
  obtain ⟨x, hx, y, hy, hxy⟩ := widest_differs hf ha hb hne
  refine ⟨⟨x, hx, y, hy, hxy⟩, ?_⟩
  generalize a :: b :: rest = r at hok hx hy hxy
  obtain ⟨v, hv, ⟨c, hc, hbelow⟩, d, hd, z, hz, habove⟩ := median_parts hok.items_ok hx hy hxy
  obtain ⟨k, hk, rfl⟩ := List.mem_map.1 hc
  obtain ⟨l, hl, rfl⟩ := List.mem_map.1 hd
  have hkside : Tree.isBelow (widest r) ⟨[v]⟩ k = true := (isBelow_pivot _ _ _).2 hbelow
  have hlside : Tree.isBelow (widest r) ⟨[v]⟩ l = false := by
    rw [← Bool.not_eq_true, isBelow_pivot]
    exact fun h => not_lt.2 habove (h z hz)
  obtain ⟨hitems, hlo, hhi, hperm⟩ := Leaf.splitWhere_keeps (Tree.isBelow (widest r) ⟨[v]⟩) hok.items_ok
  rw [List.forall_mem_append] at hitems
  refine ⟨v, _, _, hv, (Leaf.splitOn_eq r _ _).trans (Prod.mk.eta).symm, (Leaf.splitWhere_weight hok.items_ok hk).1 hkside,
    (Leaf.splitWhere_weight hok.items_ok hl).2 hlside, ⟨hitems.1, hok.sorted.sublist hlo⟩,
    ⟨hitems.2, hok.sorted.sublist hhi⟩, hperm⟩

omit [FloatRange] in
theorem collectAll_leaf (h : ∀ it ∈ items, it.Ok) :
    Tree.collectAll (Tree.leaf items : Tree Tuple V M) 0 = Leaf.rowsOf (Leaf.slots items) := Leaf.content_eq h

omit [FloatRange] in
theorem collectAll_splitNode (col : Nat) (pivot : Tuple) (lo hi : Tree Tuple V M) :
    Tree.collectAll (Tree.splitNode col pivot lo hi) 0 = Tree.collectAll lo 0 ++ Tree.collectAll hi 0 := rfl

omit [FloatRange] in
theorem rows_distinct {items : List (Item Tuple V)} (h : Leaf.Loose items) : Distinct (Leaf.rowsOf (Leaf.slots items)) :=
  List.Nodup.sublist (Tree.rowsOf_keys_sublist _) h.distinct

omit [FloatRange] in
/-- A lookup in a leaf finds its row. -/
theorem getIn_leaf (h : Leaf.Ok items) (key : Tuple) (fuel : Nat) :
    Tree.getIn key (fuel + 1) (Tree.leaf items : Tree Tuple V M) 0 = lookup key (Leaf.rowsOf (Leaf.slots items)) :=
  Leaf.get_eq h key

omit [FloatRange] in
/-- A lookup at a split looks where the rows on the key's side went. -/
theorem getIn_splitNode {col : Nat} {v : Value} {lo hi : List (Item Tuple V)} {tl tr : Tree Tuple V M} {key : Tuple}
    (hr : ∀ it ∈ r, it.Steady) (hsides : Leaf.splitOn r col ⟨[v]⟩ = (lo, hi)) {fuel : Nat}
    (hlo : Tree.getIn key fuel tl 0 = lookup key (Leaf.rowsOf (Leaf.slots lo)))
    (hhi : Tree.getIn key fuel tr 0 = lookup key (Leaf.rowsOf (Leaf.slots hi))) :
    Tree.getIn key (fuel + 1) (Tree.splitNode col ⟨[v]⟩ tl tr) 0 = lookup key (Leaf.rowsOf (Leaf.slots r)) := by
  rw [Leaf.splitOn_eq] at hsides
  obtain ⟨hrlo, hrhi⟩ := Leaf.splitWhere_rows (fun it hit => (hr it hit).1) fun s w hmem =>
    (hr _ hmem).2 s w rfl col v
  rw [hsides] at hrlo hrhi
  show Tree.getIn key fuel (if cmpColumn key col ⟨[v]⟩ 0 ≠ .lt then tr else tl) 0 = _
  by_cases hside : cmpColumn key col (⟨[v]⟩ : Tuple) 0 = .lt
  · have hbelow : Tree.isBelow col ⟨[v]⟩ key = true := decide_eq_true hside
    rw [if_neg (not_not.2 hside), hlo, hrlo]
    exact lookup_filter_keep fun _ => hbelow
  · have habove : Tree.isBelow col ⟨[v]⟩ key = false := decide_eq_false hside
    rw [if_pos hside, hhi, hrhi]
    exact lookup_filter_keep fun _ => by rw [habove, Bool.not_false]

/-- **Building ends with the rows it was given**, and finds each if no run turns back. -/
theorem builds (hf : FloatRange.Lawful) : ∀ (n : Nat) {items : List (Item Tuple V)}, Leaf.weight items ≤ n →
    Leaf.Loose items → ∃ t : Tree Tuple V M, Builds items t ∧
      (∀ fuel, Leaf.weight items < fuel → Tree.buildIn fuel items = t) ∧
      (Tree.collectAll t 0).Perm (Leaf.rowsOf (Leaf.slots items)) ∧
      ((∀ it ∈ items, it.Steady) → ∀ key fuel, t.depth ≤ fuel →
        Tree.getIn key fuel t 0 = lookup key (Leaf.rowsOf (Leaf.slots items))) := by
  intro n
  induction n using Nat.strong_induction_on with
  | _ n ih =>
    intro items hn h
    by_cases hnil : items = []
    · subst hnil
      refine ⟨.nil, .nil, fun fuel hfuel => ?_, .refl _, fun _ key fuel _ => ?_⟩
      · obtain ⟨fuel, rfl⟩ := Nat.exists_eq_add_of_lt hfuel
        rfl
      · cases fuel with
        | zero => rfl
        | succ fuel => rfl
    · obtain ⟨rounds, r, hrun, hdisjoint, hok, hperm⟩ := h.separates
      have hweight : Leaf.weight r = Leaf.weight items := by
        rw [Leaf.weight_eq, Leaf.weight_eq, hperm.length_eq]
      have hsteady : (∀ it ∈ items, it.Steady) → ∀ it ∈ r, it.Steady := fun hs =>
        hrun.steady fun it hit => hs it (List.mem_mergeSort.1 hit)
      have hsame : ∀ key, lookup key (Leaf.rowsOf (Leaf.slots r)) = lookup key (Leaf.rowsOf (Leaf.slots items)) :=
        lookup_perm (rows_distinct hok.loose) (hperm.filterMap _)
      have hempty : items.isEmpty = false := by
        cases items with
        | nil => exact absurd rfl hnil
        | cons it items => rfl
      rcases le_or_gt r.length arityB with hshort | hlong
      · refine ⟨Tree.leaf r, .leaf hnil hrun hshort, fun fuel hfuel => ?_, ?_, fun _ key fuel hfuel => ?_⟩
        · obtain ⟨fuel, rfl⟩ := Nat.exists_eq_add_of_lt hfuel
          rw [Tree.buildIn, hempty, hdisjoint]
          simp [hshort]
        · rw [collectAll_leaf hok.items_ok]
          exact hperm.filterMap _
        · obtain ⟨fuel, rfl⟩ := Nat.exists_eq_add_of_le' hfuel
          rw [← hsame key]
          exact getIn_leaf hok key fuel
      · obtain ⟨hcol, v, lo, hi, hv, hsides, hlo, hhi, hoklo, hokhi, hparts⟩ := split_weights hf hok hlong
        have hsum : Leaf.weight lo + Leaf.weight hi = Leaf.weight items := by
          rw [← hweight, Leaf.weight_eq, Leaf.weight_eq, Leaf.weight_eq, ← hparts.length_eq, List.length_append]
        obtain ⟨tl, hbl, hfl, hpl, hgl⟩ := ih (Leaf.weight lo) (by omega) le_rfl hoklo.loose
        obtain ⟨tr, hbr, hfr, hpr, hgr⟩ := ih (Leaf.weight hi) (by omega) le_rfl hokhi.loose
        refine ⟨_, .split hnil hrun hlong hcol hv hsides hlo hhi hbl hbr, fun fuel hfuel => ?_, ?_,
          fun hs key fuel hfuel => ?_⟩
        · obtain ⟨fuel, rfl⟩ := Nat.exists_eq_add_of_lt hfuel
          rw [Tree.buildIn, hempty, hdisjoint]
          simp only [Bool.false_eq_true, if_false, not_le.2 hlong, hv, hsides]
          rw [hfl _ (by omega), hfr _ (by omega)]
        · rw [collectAll_splitNode]
          refine (hpl.append hpr).trans ?_
          rw [← Leaf.rowsOf_append]
          exact (hparts.trans hperm).filterMap _
        · have hfuel : max tl.depth tr.depth + 1 ≤ fuel := hfuel
          obtain ⟨fuel, rfl⟩ := Nat.exists_eq_add_of_le' hfuel
          have hboth := Leaf.steady_splitWhere (hsteady hs) (Tree.isBelow (widest r) ⟨[v]⟩)
          rw [← Leaf.splitOn_eq, hsides] at hboth
          rw [← hsame key, ← Nat.add_assoc]
          exact getIn_splitNode (hsteady hs) hsides (hgl hboth.1 key _ (by omega)) (hgr hboth.2 key _ (by omega))

end Build

/-! ## Trees over rows -/

namespace Tree

variable {V M : Type}

/-- The items a tree over entries is built of: a row each in key order, folded into runs if
`runs`. -/
def kdItems [RunValue V] (entries : List (Tuple × V)) (runs : Bool) : List (Item Tuple V) :=
  Leaf.compress ((entries.mergeSort fun a b => a.1 ≤ b.1).map fun e => .one e.1 e.2) runs

/-- A balanced k-d tree over entries, folding rows into runs first if `runs`. -/
def kdBuildWith [RunValue V] [Measure Tuple V M] [FloatRange] (entries : List (Tuple × V)) (runs : Bool) : Tree Tuple V M :=
  build (kdItems entries runs)

theorem slots_ones (entries : List (Tuple × V)) :
    Leaf.slots (entries.map fun e => Item.one e.1 e.2) = entries.map fun e => (e.1, some e.2) := by
  induction entries with
  | nil => rfl
  | cons e entries ih => rw [List.map_cons, Leaf.slots_cons, ih, List.map_cons]; rfl

theorem rowsOf_ones (entries : List (Tuple × V)) :
    Leaf.rowsOf (Leaf.slots (entries.map fun e => Item.one e.1 e.2)) = entries := by
  induction entries with
  | nil => rfl
  | cons e entries ih => rw [List.map_cons, Leaf.slots_cons, Leaf.rowsOf_append, ih]; rfl

theorem ones_ok {entries : List (Tuple × V)} (h : entries.Pairwise fun a b => a.1 < b.1) :
    Leaf.Ok (entries.map fun e => Item.one e.1 e.2) := by
  refine ⟨fun it hit => ?_, ?_⟩
  · obtain ⟨e, -, rfl⟩ := List.mem_map.1 hit
    exact Item.ok_one e.1 e.2
  · rw [slots_ones]
    exact List.pairwise_map.2 h

/-- Folding rows into runs keeps the rows. -/
theorem kdItems_spec [RunValue V] {entries : List (Tuple × V)} (h : Distinct entries) (runs : Bool) :
    Leaf.Ok (kdItems entries runs) ∧ (Leaf.rowsOf (Leaf.slots (kdItems entries runs))).Perm entries := by
  have hperm : (entries.mergeSort fun a b => a.1 ≤ b.1).Perm entries := List.mergeSort_perm _ _
  have hsorted : (entries.mergeSort fun a b => a.1 ≤ b.1).Pairwise fun a b => decide (a.1 ≤ b.1) = true :=
    List.pairwise_mergeSort (fun a b c hab hbc => by simpa using le_trans (of_decide_eq_true hab) (of_decide_eq_true hbc))
      (fun a b => by simpa using le_total a.1 b.1) entries
  have hkeys : (entries.mergeSort fun a b => a.1 ≤ b.1).Pairwise fun a b => a.1 ≠ b.1 :=
    List.pairwise_map.1 ((hperm.map Prod.fst).nodup_iff.2 h)
  have hok := ones_ok ((hsorted.and hkeys).imp fun {a b} hab => lt_of_le_of_ne (of_decide_eq_true hab.1) hab.2)
  have hsame := Leaf.compress_spec hok runs
  refine ⟨hsame.ok, ?_⟩
  rw [kdItems, hsame.slots_eq, rowsOf_ones]
  exact hperm

theorem kdItems_steady [RunValue V] (entries : List (Tuple × V)) : ∀ it ∈ kdItems entries false, it.Steady := by
  have hplain : Leaf.Plain ((entries.mergeSort fun a b => a.1 ≤ b.1).map fun e => Item.one e.1 e.2) := by
    intro it hit
    obtain ⟨e, -, rfl⟩ := List.mem_map.1 hit
    exact ⟨e.1, e.2, rfl⟩
  intro it hit
  rw [kdItems, hplain.compress_eq] at hit
  obtain ⟨k, v, rfl⟩ := hplain it hit
  exact ⟨Item.ok_one k v, fun s w h => by cases h⟩

/-- **Rebuilding ends and loses nothing.** Over entries with distinct keys, and over any items
that share no key, `build` ends, each split leaves weight on both sides, and the tree holds the
rows given; a lookup finds each where no run turns back at a pivot, as no single row does.
Setting such items apart ends, in order, with the same rows and reserved keys. -/
theorem kdBuild_exact [RunValue V] [Measure Tuple V M] [FloatRange] (hf : FloatRange.Lawful) :
    (∀ (entries : List (Tuple × V)) (runs : Bool), Distinct entries → ∃ t : Tree Tuple V M,
      Builds (kdItems entries runs) t ∧ kdBuildWith entries runs = t ∧ (collectAll t 0).Perm entries ∧
      (runs = false → ∀ key, get t key = lookup key entries)) ∧
    (∀ items : List (Item Tuple V), Leaf.Loose items → ∃ t : Tree Tuple V M, Builds items t ∧ build items = t ∧
      (collectAll t 0).Perm (Leaf.rowsOf (Leaf.slots items)) ∧
      ((∀ it ∈ items, it.Steady) → ∀ key, get t key = lookup key (Leaf.rowsOf (Leaf.slots items)))) ∧
    ∀ items : List (Item Tuple V), Leaf.Loose items → ∃ n r, Leaf.Separates n (Leaf.byLoKey items) 0 r ∧
      Leaf.disjoint items = r ∧ Leaf.Ok r ∧ (Leaf.slots r).Perm (Leaf.slots items) := by
  have hbuild : ∀ items : List (Item Tuple V), Leaf.Loose items → ∃ t : Tree Tuple V M, Builds items t ∧ build items = t ∧
      (collectAll t 0).Perm (Leaf.rowsOf (Leaf.slots items)) ∧
      ((∀ it ∈ items, it.Steady) → ∀ key, get t key = lookup key (Leaf.rowsOf (Leaf.slots items))) := by
    intro items h
    obtain ⟨t, hrun, hfuel, hrows, hget⟩ := builds (M := M) hf (Leaf.weight items) le_rfl h
    exact ⟨t, hrun, hfuel _ (Nat.lt_succ_self _), hrows, fun hs key => hget hs key _ le_rfl⟩
  refine ⟨fun entries runs h => ?_, hbuild, fun items h => h.separates⟩
  obtain ⟨hok, hperm⟩ := kdItems_spec h runs
  obtain ⟨t, hrun, hbuilt, hrows, hget⟩ := hbuild _ hok.loose
  refine ⟨t, hrun, hbuilt, hrows.trans hperm, ?_⟩
  rintro rfl key
  rw [hget (kdItems_steady entries) key]
  exact lookup_perm (rows_distinct hok.loose) hperm key

/-- Ranges that are whole numbers of at most `2 ^ 53`. -/
@[reducible] def wholeRange : FloatRange where
  ofNat n := if n = 0 then 0 else (n.log2 + 1022) * 2 ^ 52 + n * 2 ^ 52 / 2 ^ n.log2
  sub _ _ := 0

theorem kdBuild_exact_sample :
    let _ := wholeRange
    ∃ t : Tree Tuple Nat Count, Builds (kdItems [(⟨[.int 2]⟩, 5), (⟨[.int 1, .bool true]⟩, 6)] false) t ∧
      kdBuildWith [(⟨[.int 2]⟩, 5), (⟨[.int 1, .bool true]⟩, 6)] false = t ∧
      (collectAll t 0).Perm [(⟨[.int 2]⟩, 5), (⟨[.int 1, .bool true]⟩, 6)] ∧
      (false = false → ∀ key, get t key = lookup key [(⟨[.int 2]⟩, 5), (⟨[.int 1, .bool true]⟩, 6)]) := by
  let _ := wholeRange
  have hlawful : FloatRange.Lawful := ⟨rfl, fun _ => rfl⟩
  have hkeys : [(⟨[.int 2]⟩ : Tuple), ⟨[.int 1, .bool true]⟩].Nodup := by decide
  exact (kdBuild_exact hlawful).1 [(⟨[.int 2]⟩, 5), (⟨[.int 1, .bool true]⟩, 6)] false hkeys

/-- Of two rows with one key, each round puts the first back where it was. -/
theorem not_separates {k : Tuple} {v w : V} {r : List (Item Tuple V)} {n : Nat} :
    ¬ Leaf.Separates n [.one k v, .one k w] 0 r := by
  intro h
  induction n with
  | zero =>
    cases h with
    | done hlen => exact absurd hlen (Nat.not_succ_le_self 1)
  | succ n ih =>
    cases h with
    | next ha hb hlt hr =>
      cases ha
      cases hb
      exact absurd hlt (lt_irrefl k)
    | cut ha hb hlt hr =>
      cases ha
      cases hb
      have hsplit : Leaf.splitItem (Item.one k v) k = ([], [Item.one k v]) := if_neg (lt_irrefl k)
      have hpoint : (partitionPoint [Item.one k w] fun x => x.loKey < k) = 0 := by
        simp [partitionPoint, point, pointIn, Item.loKey]
      have hsame : (Leaf.splitItem (Item.one k v) k).2.foldl Leaf.place
          (Leaf.splice [Item.one k v, Item.one k w] 0 (Leaf.splitItem (Item.one k v) k).1) =
            [Item.one k v, Item.one k w] := by
        rw [hsplit]
        show List.take (partitionPoint [Item.one k w] fun x => x.loKey < k) [Item.one k w] ++ Item.one k v ::
          List.drop (partitionPoint [Item.one k w] fun x => x.loKey < k) [Item.one k w] = _
        rw [hpoint]
        rfl
      have hstart : 0 + (Leaf.splitItem (Item.one k v) k).1.length - 1 = 0 := by rw [hsplit]; rfl
      have hr : Leaf.Separates n ((Leaf.splitItem (Item.one k v) k).2.foldl Leaf.place
          (Leaf.splice [Item.one k v, Item.one k w] 0 (Leaf.splitItem (Item.one k v) k).1))
          (0 + (Leaf.splitItem (Item.one k v) k).1.length - 1) r := hr
      rw [hsame, hstart] at hr
      exact ih hr

theorem disjoint_shared_key :
    ¬ ∃ n r, Leaf.Separates n (Leaf.byLoKey [.one ⟨[.int 1]⟩ 5, .one ⟨[.int 1]⟩ (6 : Nat)]) 0 r := by
  rintro ⟨n, r, h⟩
  have hsorted : Leaf.byLoKey [.one ⟨[.int 1]⟩ 5, .one ⟨[.int 1]⟩ (6 : Nat)] = [.one ⟨[.int 1]⟩ 5, .one ⟨[.int 1]⟩ 6] :=
    List.mergeSort_of_pairwise (List.pairwise_pair.2 (decide_eq_true le_rfl))
  rw [hsorted] at h
  exact not_separates h

end Tree

end Grmpl

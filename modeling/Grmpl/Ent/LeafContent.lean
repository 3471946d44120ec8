import Grmpl.Ent.KdWrites

/-!
# What a leaf's items hold

Runs and holes are a way to write a leaf down. What it holds is the list of its rows, and
every operation on items does to them what the same operation does to a plain sorted list.

* `content`: the rows of a leaf, one after another.
* `Ok.checked`: items in order with none inside another, runs of at least three rows.
* `splitWhere_rows`, `foldl_mergeStep`: a leaf cut by a predicate, and one's items among another's.
* `content_exact`: the operations, and the plain list.
-/

open OrdMap

namespace Grmpl

variable {K V : Type} [Displace K]

namespace Leaf

/-! ## Rows -/

/-- Every row of a leaf, in its own frame. -/
def content (items : List (Item K V)) : List (K × V) := items.flatMap fun it => it.eachRow 0

theorem content_eq {items : List (Item K V)} (h : ∀ it ∈ items, it.Ok) : content items = rowsOf (slots items) := by
  induction items with
  | nil => rfl
  | cons it items ih =>
    have hcells : it.eachRow 0 = rowsOf it.slots := by
      have hstill : it.displaced 0 = it := if_pos rfl
      rw [Item.eachRow_eq (h it List.mem_cons_self), hstill]
      rfl
    rw [slots_cons, rowsOf_append, ← ih fun x hx => h x (List.mem_cons_of_mem it hx), ← hcells]
    rfl

/-- What the tests assert of a leaf's items. -/
def checkItems (items : List (Item K V)) : Prop :=
  (∀ it ∈ items, match it with
    | .one _ _ => True
    | .run s _ => minRun ≤ s.n ∧ s.first < s.row 1
    | .hole s => 0 < s.n) ∧
  items.IsChain fun a b => a.hiKey < b.loKey

theorem Ok.checked {items : List (Item K V)} (h : Ok items) : checkItems items := by
  refine ⟨fun it hit => ?_, ?_⟩
  · have hok := h.items_ok it hit
    cases it with
    | one k v => trivial
    | run s v =>
      obtain ⟨a, b, rfl⟩ := List.append_of_mem hit
      have hs := (ok_singleton.1 (ok_middle h).2.1).2
      have hn : 1 < s.n := lt_of_lt_of_le (by decide) hok.2
      exact ⟨hok.2, Span.Ascends.row_lt (Span.sorted_slots.1 hs) Nat.zero_lt_one hn⟩
    | hole s => exact hok.2
  · exact h.pairwise_loKey.isChain

/-! ## A leaf cut by a predicate -/

/-- The first row of a span the predicate tells from its first. -/
def boundaryWhere (accepts : K → Bool) (s : Span K) : Nat :=
  Bisect.point s.n fun i => accepts (s.row i) = accepts s.first

/-- A span's items the predicate accepts and those it does not. -/
def splitSpanWhere (accepts : K → Bool) (it : Item K V) (s : Span K) (v : Option V) :
    List (Item K V) × List (Item K V) :=
  let first := accepts s.first
  if first = accepts s.last then if first then ([it], []) else ([], [it])
  else
    let a := boundaryWhere accepts s
    let head := spanItems (s.slice 0 a) v
    let tail := spanItems (s.slice a s.n) v
    if first then (head, tail) else (tail, head)

/-- One item's part of a cut. -/
def sideWhere (accepts : K → Bool) (it : Item K V) : List (Item K V) × List (Item K V) :=
  match it with
  | .one k _ => if accepts k then ([it], []) else ([], [it])
  | .run s v => splitSpanWhere accepts it s (some v)
  | .hole s => splitSpanWhere accepts it s none

/-- The items the predicate accepts and those it does not. -/
def splitWhere (accepts : K → Bool) (items : List (Item K V)) : List (Item K V) × List (Item K V) :=
  let sides := items.map (sideWhere accepts)
  (sides.flatMap Prod.fst, sides.flatMap Prod.snd)

/-- A pivot cuts by the predicate of being below it. -/
theorem splitOn_eq {V : Type} (items : List (Item Tuple V)) (col : Nat) (pivot : Tuple) :
    splitOn items col pivot = splitWhere (Tree.isBelow col pivot) items := by
  refine congrArg (fun sides : List (List (Item Tuple V) × List (Item Tuple V)) =>
    (sides.flatMap Prod.fst, sides.flatMap Prod.snd)) (List.map_congr_left fun it _ => ?_)
  cases it <;> rfl

/-- A predicate that accepts a prefix of a span's rows, or a suffix. -/
def Divides (accepts : K → Bool) (s : Span K) : Prop :=
  ∃ m side, ∀ i < s.n, accepts (s.row i) = if i < m then side else !side

theorem Divides.point {accepts : K → Bool} {s : Span K} (h : Divides accepts s) (hn : 0 < s.n)
    (hends : accepts s.first ≠ accepts s.last) :
    (∀ i < boundaryWhere accepts s, accepts (s.row i) = accepts s.first) ∧
      ∀ i, boundaryWhere accepts s ≤ i → i < s.n → accepts (s.row i) = !accepts s.first := by
  obtain ⟨m, side, hside⟩ := h
  have hfirst := hside 0 hn
  have hlast := hside (s.n - 1) (by omega)
  have hm : 0 < m := by
    by_contra hzero
    refine hends ?_
    show accepts (s.row 0) = accepts (s.row (s.n - 1))
    rw [hfirst, hlast, if_neg hzero, if_neg (by omega)]
  rw [if_pos hm] at hfirst
  have hmn : m ≤ s.n := by
    by_contra hover
    refine hends ?_
    show accepts (s.row 0) = accepts (s.row (s.n - 1))
    rw [hfirst, hlast, if_pos (by omega)]
  have hlo : ∀ i < m, accepts (s.row i) = accepts s.first := by
    intro i hi
    show _ = accepts (s.row 0)
    rw [hfirst, hside i (by omega), if_pos hi]
  have hhi : ∀ i, m ≤ i → i < s.n → accepts (s.row i) = !accepts s.first := by
    intro i hi hin
    show _ = !accepts (s.row 0)
    rw [hfirst, hside i hin, if_neg (by omega)]
  have hpoint : boundaryWhere accepts s = m := by
    refine Bisect.point_eq hmn (fun i hi => decide_eq_true (hlo i hi)) fun i hi hin => ?_
    rw [decide_eq_false_iff_not, hhi i hi hin]
    exact Bool.not_ne_self _
  rw [hpoint]
  exact ⟨hlo, hhi⟩

/-- A divided span whose ends are on one side is all there. -/
theorem Divides.whole {accepts : K → Bool} {s : Span K} (h : Divides accepts s)
    (hends : accepts s.first = accepts s.last) : ∀ i < s.n, accepts (s.row i) = accepts s.first := by
  obtain ⟨m, side, hside⟩ := h
  intro i hi
  have hfirst : accepts s.first = _ := hside 0 (by omega)
  have hlast : accepts s.last = _ := hside (s.n - 1) (by omega)
  rw [hside i hi]
  rw [hfirst, hlast] at hends
  rw [hfirst]
  grind

/-- What a cut of an item keeps: items well formed, the item's slots, on each side in their order,
and if the predicate divides the item, its rows on the sides they belong to. -/
structure Cut (accepts : K → Bool) (it : Item K V) (divided : Prop) (sides : List (Item K V) × List (Item K V)) :
    Prop where
  ok : ∀ x ∈ sides.1 ++ sides.2, x.Ok
  sublist : (slots sides.1).Sublist it.slots ∧ (slots sides.2).Sublist it.slots
  perm : (slots sides.1 ++ slots sides.2).Perm it.slots
  rows : divided → rowsOf (slots sides.1) = (rowsOf it.slots).filter (fun e => accepts e.1) ∧
    rowsOf (slots sides.2) = (rowsOf it.slots).filter (fun e => !accepts e.1)

variable {accepts : K → Bool} {it : Item K V} {divided : Prop} {side : Bool}

/-- An item on one side. -/
theorem Cut.oneSide (hok : it.Ok) (h : divided → ∀ e ∈ rowsOf it.slots, accepts e.1 = side) :
    Cut accepts it divided (if side then ([it], []) else ([], [it])) := by
  cases side with
  | true =>
    refine ⟨by simpa using hok, by simp, by simp, fun hd => ⟨?_, ?_⟩⟩
    · rw [filter_eq_self_of (h hd)]
      simp
    · rw [filter_eq_nil_of fun e he => by rw [h hd e he]; rfl]
      rfl
  | false =>
    refine ⟨by simpa using hok, by simp, by simp, fun hd => ⟨?_, ?_⟩⟩
    · rw [filter_eq_nil_of (h hd)]
      rfl
    · rw [filter_eq_self_of fun e he => by rw [h hd e he]; rfl]
      simp

/-- An item in two pieces. -/
theorem Cut.pieces {head tail : List (Item K V)} (hok : ∀ x ∈ head ++ tail, x.Ok)
    (hslots : it.slots = slots head ++ slots tail)
    (hhead : divided → ∀ e ∈ rowsOf (slots head), accepts e.1 = side)
    (htail : divided → ∀ e ∈ rowsOf (slots tail), accepts e.1 = !side) :
    Cut accepts it divided (if side then (head, tail) else (tail, head)) := by
  have hleft : (slots head).Sublist it.slots := hslots ▸ List.sublist_append_left _ _
  have hright : (slots tail).Sublist it.slots := hslots ▸ List.sublist_append_right _ _
  cases side with
  | true =>
    refine ⟨hok, ⟨hleft, hright⟩, hslots ▸ .refl _, fun hd => ⟨?_, ?_⟩⟩
    · rw [hslots, rowsOf_append, List.filter_append, filter_eq_self_of (hhead hd), filter_eq_nil_of (htail hd),
        List.append_nil]
      rfl
    · rw [hslots, rowsOf_append, List.filter_append, filter_eq_nil_of fun e he => by rw [hhead hd e he]; rfl,
        filter_eq_self_of fun e he => by rw [htail hd e he]; rfl, List.nil_append]
      rfl
  | false =>
    have hok' : ∀ x ∈ tail ++ head, x.Ok := fun x hx => hok x (List.mem_append.2 (List.mem_append.1 hx).symm)
    refine ⟨hok', ⟨hright, hleft⟩, hslots ▸ List.perm_append_comm, fun hd => ⟨?_, ?_⟩⟩
    · rw [hslots, rowsOf_append, List.filter_append, filter_eq_nil_of (hhead hd), filter_eq_self_of (htail hd),
        List.nil_append]
      rfl
    · rw [hslots, rowsOf_append, List.filter_append, filter_eq_self_of fun e he => by rw [hhead hd e he]; rfl,
        filter_eq_nil_of fun e he => by rw [htail hd e he]; rfl, List.append_nil]
      rfl

theorem splitSpanWhere_spec {s : Span K} {w : Option V} (hok : it.Ok) (hit : it.slots = s.keys.map fun k => (k, w))
    (hf : fits s.first s.stride) (hn : 0 < s.n) (hdiv : divided → ∀ v, w = some v → Divides accepts s) :
    Cut accepts it divided (splitSpanWhere accepts it s w) := by
  have hle : boundaryWhere accepts s ≤ s.n := Bisect.point_le _ _
  -- a hole's keys hold no rows, so a side that the predicate does not divide loses nothing
  have hrows : ∀ (p : Bool) (l : List K), (∀ v, w = some v → ∀ k ∈ l, accepts k = p) →
      ∀ e ∈ rowsOf (l.map fun k => (k, w)), accepts e.1 = p := by
    intro p l hl e he
    obtain ⟨k, hk, hkey⟩ := List.mem_map.1 (mem_rowsOf.1 he)
    rw [Prod.mk.injEq] at hkey
    rw [← hkey.1]
    exact hl e.2 hkey.2 k hk
  unfold splitSpanWhere
  by_cases hends : accepts s.first = accepts s.last
  · rw [if_pos hends]
    refine Cut.oneSide hok fun hd => ?_
    rw [hit]
    refine hrows _ _ fun v hv k hk => ?_
    obtain ⟨i, hi, rfl⟩ := Span.mem_keys.1 hk
    exact (hdiv hd v hv).whole hends i hi
  · rw [if_neg hends]
    obtain ⟨hoklo, hlo, -⟩ := spanItems_spec (s := s.slice 0 (boundaryWhere accepts s)) (Span.fits_row hf 0) w
    obtain ⟨hokhi, hhi, -⟩ := spanItems_spec (s := s.slice (boundaryWhere accepts s) s.n) (Span.fits_row hf _) w
    refine Cut.pieces (List.forall_mem_append.2 ⟨hoklo, hokhi⟩) ?_ (fun hd => ?_) fun hd => ?_
    · rw [hit, hlo, hhi, ← List.map_append, ← Span.keys_cut hf hle]
    · rw [hlo]
      refine hrows _ _ fun v hv k hk => ?_
      rw [Span.keys_slice hf, List.mem_map] at hk
      obtain ⟨i, hi, rfl⟩ := hk
      rw [List.mem_range'_1] at hi
      exact ((hdiv hd v hv).point hn hends).1 i (by omega)
    · rw [hhi]
      refine hrows _ _ fun v hv k hk => ?_
      rw [Span.keys_slice hf, List.mem_map] at hk
      obtain ⟨i, hi, rfl⟩ := hk
      rw [List.mem_range'_1] at hi
      exact ((hdiv hd v hv).point hn hends).2 i hi.1 (by omega)

theorem sideWhere_spec (accepts : K → Bool) (hok : it.Ok) :
    Cut accepts it (∀ s v, it = .run s v → Divides accepts s) (sideWhere accepts it) := by
  cases it with
  | one k v =>
    refine Cut.oneSide hok fun _ e he => ?_
    rw [List.mem_singleton.1 he]
  | run s v =>
    have hn : 0 < s.n := lt_of_lt_of_le (by decide) hok.2
    exact splitSpanWhere_spec hok rfl hok.1 hn fun hd _ _ => hd s v rfl
  | hole s => exact splitSpanWhere_spec hok rfl hok.1 hok.2 fun _ v hv => absurd hv (by simp)

theorem splitWhere_cons (it : Item K V) (items : List (Item K V)) :
    splitWhere accepts (it :: items) = ((sideWhere accepts it).1 ++ (splitWhere accepts items).1,
      (sideWhere accepts it).2 ++ (splitWhere accepts items).2) := rfl

/-- A leaf cut by any predicate keeps its slots, on each side in their order. -/
theorem splitWhere_keeps (accepts : K → Bool) {items : List (Item K V)} (h : ∀ it ∈ items, it.Ok) :
    (∀ x ∈ (splitWhere accepts items).1 ++ (splitWhere accepts items).2, x.Ok) ∧
      (slots (splitWhere accepts items).1).Sublist (slots items) ∧
      (slots (splitWhere accepts items).2).Sublist (slots items) ∧
      (slots (splitWhere accepts items).1 ++ slots (splitWhere accepts items).2).Perm (slots items) := by
  induction items with
  | nil => exact ⟨by simp [splitWhere], by simp [splitWhere], by simp [splitWhere], .nil⟩
  | cons it items ih =>
    rw [List.forall_mem_cons] at h
    obtain ⟨hitems, hlo, hhi, hperm⟩ := ih h.2
    have hcut := sideWhere_spec accepts h.1
    rw [List.forall_mem_append] at hitems
    have hside := List.forall_mem_append.1 hcut.ok
    rw [splitWhere_cons, slots_cons, slots_append, slots_append]
    refine ⟨List.forall_mem_append.2 ⟨List.forall_mem_append.2 ⟨hside.1, hitems.1⟩,
      List.forall_mem_append.2 ⟨hside.2, hitems.2⟩⟩, hcut.sublist.1.append hlo, hcut.sublist.2.append hhi, ?_⟩
    refine List.Perm.trans ?_ (hcut.perm.append hperm)
    rw [List.append_assoc, List.append_assoc]
    refine List.Perm.append_left _ ?_
    rw [← List.append_assoc, ← List.append_assoc]
    exact List.perm_append_comm.append_right _

/-- A predicate that accepts a prefix or a suffix of each run's rows sends the rows where they
belong. -/
theorem splitWhere_rows {items : List (Item K V)} (h : ∀ it ∈ items, it.Ok)
    (hdiv : ∀ s v, .run s v ∈ items → Divides accepts s) :
    rowsOf (slots (splitWhere accepts items).1) = (rowsOf (slots items)).filter (fun e => accepts e.1) ∧
      rowsOf (slots (splitWhere accepts items).2) = (rowsOf (slots items)).filter (fun e => !accepts e.1) := by
  induction items with
  | nil => exact ⟨rfl, rfl⟩
  | cons it items ih =>
    rw [List.forall_mem_cons] at h
    obtain ⟨hlo, hhi⟩ := ih h.2 fun s v hmem => hdiv s v (List.mem_cons_of_mem it hmem)
    obtain ⟨hrlo, hrhi⟩ := (sideWhere_spec accepts h.1).rows fun s v heq =>
      hdiv s v (heq ▸ List.mem_cons_self)
    rw [splitWhere_cons, slots_cons, slots_append, slots_append, rowsOf_append, rowsOf_append, rowsOf_append,
      List.filter_append, List.filter_append, hrlo, hrhi, hlo, hhi]
    exact ⟨rfl, rfl⟩

/-! ## One leaf's items among another's -/

/-- An item placed among others, one of which it may fall inside. -/
def mergeStep (out : List (Item K V)) (it : Item K V) : List (Item K V) :=
  let (lo, hi) := splitAt out it.loKey
  lo ++ it :: hi

/-- `b`'s items placed among `a`'s, and the result joined. -/
def merge [RunValue V] (a b : List (Item K V)) (runs : Bool) : List (Item K V) := compress (b.foldl mergeStep a) runs

/-- No key of a leaf lies in the range of an item. -/
def Clear (items : List (Item K V)) (it : Item K V) : Prop := ∀ e ∈ slots items, e.1 < it.loKey ∨ it.hiKey < e.1

theorem mergeStep_spec {out : List (Item K V)} {it : Item K V} (h : Ok out) (hit : Ok [it]) (hclear : Clear out it) :
    Ok (mergeStep out it) ∧ (slots (mergeStep out it)).Perm (slots out ++ it.slots) := by
  obtain ⟨hlo, hhi, hslo, hshi⟩ := splitAt_spec h it.loKey
  obtain ⟨hok, hs⟩ := ok_singleton.1 hit
  have hslots : slots (mergeStep out it) = below it.loKey (slots out) ++ (it.slots ++ atLeast it.loKey (slots out)) := by
    rw [mergeStep, slots_append, slots_cons, hslo, hshi]
  refine ⟨?_, ?_⟩
  · show Ok ((splitAt out it.loKey).1 ++ it :: (splitAt out it.loKey).2)
    refine ok_append.2 ⟨hlo, (ok_append (a := [it])).2 ⟨hit, hhi, ?_⟩, ?_⟩
    · intro x hx y hy
      rw [slots_singleton] at hx
      rw [hshi] at hy
      obtain ⟨hy, hle⟩ := List.mem_filter.1 hy
      have hbound := (Item.key_bounds hs x hx).2
      rcases hclear y hy with hlt | hgt
      · exact absurd hlt (not_lt.2 (of_decide_eq_true hle))
      · exact hbound.trans_lt hgt
    · intro x hx y hy
      rw [hslo] at hx
      obtain ⟨-, hlt⟩ := List.mem_filter.1 hx
      have hbelow : x.1 < it.loKey := of_decide_eq_true hlt
      rw [slots_cons, List.mem_append, hshi] at hy
      rcases hy with hy | hy
      · exact hbelow.trans_le (Item.key_bounds hs y hy).1
      · exact hbelow.trans_le (of_decide_eq_true (List.mem_filter.1 hy).2)
  · have hout := below_append_atLeast (k := it.loKey) h.sorted
    have hswap : (it.slots ++ atLeast it.loKey (slots out)).Perm (atLeast it.loKey (slots out) ++ it.slots) :=
      List.perm_append_comm
    have hperm := hswap.append_left (below it.loKey (slots out))
    rwa [← List.append_assoc (below _ _) (atLeast _ _), hout, ← hslots] at hperm

theorem foldl_mergeStep {b : List (Item K V)} : ∀ {out : List (Item K V)}, Ok out → Ok b → (∀ it ∈ b, Clear out it) →
    Ok (b.foldl mergeStep out) ∧ (slots (b.foldl mergeStep out)).Perm (slots out ++ slots b) := by
  induction b with
  | nil => exact fun h _ _ => ⟨h, by simp⟩
  | cons it b ih =>
    intro out h hb hclear
    obtain ⟨hit, hrest, hbetween⟩ := (ok_append (a := [it])).1 hb
    rw [List.forall_mem_cons] at hclear
    obtain ⟨hok, hperm⟩ := mergeStep_spec h hit hclear.1
    have hclear' : ∀ x ∈ b, Clear (mergeStep out it) x := by
      intro x hx e he
      rcases List.mem_append.1 (hperm.mem_iff.1 he) with he | he
      · exact hclear.2 x hx e he
      · obtain ⟨w, hw⟩ := Item.loKey_mem_slots (hrest.items_ok x hx)
        exact .inl (hbetween e (by simpa using he) _ (mem_slots.2 ⟨x, hx, hw⟩))
    obtain ⟨hok', hperm'⟩ := ih hok hrest hclear'
    refine ⟨hok', hperm'.trans ?_⟩
    rw [slots_cons, ← List.append_assoc]
    exact hperm.append_right _

/-! ## The operations -/

/-- The leaf without the row at a key, if it holds one. -/
def remove (items : List (Item K V)) (key : K) : Option (List (Item K V)) :=
  (findRow items 0 key).map fun (i, j) => removeAt items i j

/-- Items that hold just these rows: well formed as the leaf's own check has it, the keys of holes
without rows. -/
structure Spells (items : List (Item K V)) (rows : List (K × V)) : Prop where
  ok : Ok items
  checked : checkItems items
  vacant : ∀ s, .hole s ∈ items → ∀ k ∈ s.keys, ∀ v, (k, v) ∉ content items
  rows : content items = rows

theorem Spells.of {items : List (Item K V)} {rows : List (K × V)} (h : Ok items) (hrows : rowsOf (slots items) = rows) :
    Spells items rows := by
  have hcontent := content_eq h.items_ok
  refine ⟨h, h.checked, fun s hs k hk v hmem => ?_, hcontent.trans hrows⟩
  rw [hcontent, mem_rowsOf] at hmem
  have hhole : (k, (none : Option V)) ∈ slots items := mem_slots.2 ⟨_, hs, List.mem_map.2 ⟨k, hk, rfl⟩⟩
  have hsame := h.sorted.unique hmem hhole rfl
  cases hsame

/-- **Leaf items never change content.** Whatever runs and holes a leaf is written with, and with
folding on or off: a write, a removal, a cut at a key or by a predicate that accepts a prefix or a
suffix of each run's rows, the items of another leaf placed among its own, a join and a compression
leave items that spell the plain list after the same operation. -/
theorem content_exact [RunValue V] {items : List (Item K V)} (h : Ok items) (runs : Bool) :
    Spells items (content items) ∧
      (∀ key val, Spells (insert items key val runs) (put key val (content items))) ∧
      (∀ key, match remove items key with
        | none => ∀ e ∈ content items, e.1 ≠ key
        | some items' => (∃ v, (key, v) ∈ content items) ∧ Spells items' (drop key (content items))) ∧
      (∀ key, Spells (splitAt items key).1 (below key (content items)) ∧
        Spells (splitAt items key).2 (atLeast key (content items))) ∧
      (∀ accepts : K → Bool, (∀ s v, .run s v ∈ items → Divides accepts s) →
        Spells (splitWhere accepts items).1 ((content items).filter fun e => accepts e.1) ∧
          Spells (splitWhere accepts items).2 ((content items).filter fun e => !accepts e.1)) ∧
      (∀ others, Ok others → (∀ it ∈ others, Clear items it) →
        ∃ rows, Spells (merge items others runs) rows ∧ rows.Perm (content items ++ content others) ∧ Sorted rows) ∧
      (∀ i, Spells (joinAround items i runs) (content items)) ∧
      Spells (compress items runs) (content items) := by
  have hcontent := content_eq h.items_ok
  have hsame : ∀ {items'}, Same items items' → Spells items' (content items) := fun hsame =>
    .of hsame.ok (by rw [hsame.slots_eq, hcontent])
  refine ⟨.of h hcontent.symm, ?_, ?_, ?_, ?_, ?_, fun i => hsame (joinAround_spec h i runs),
    hsame (compress_spec h runs)⟩
  · intro key val
    obtain ⟨hok, hslots, -⟩ := insert_spec h key val runs
    exact .of hok (by rw [hslots, rowsOf_put, hcontent])
  · intro key
    rw [remove]
    rcases findRow_spec h key with ⟨hnone, habsent⟩ | ⟨a, it, b, v, j, rfl, hsome, hit⟩
    · rw [hnone, hcontent]
      exact habsent
    · rw [hsome]
      obtain ⟨hok, hslots, -, -, hmem⟩ := removeAt_spec h hit
      refine ⟨⟨v, by rw [hcontent]; exact mem_rowsOf.2 hmem⟩, .of hok ?_⟩
      rw [hslots, hcontent]
      exact rowsOf_filter (fun k => decide (k ≠ key)) _
  · intro key
    obtain ⟨hlo, hhi, hslo, hshi⟩ := splitAt_spec h key
    refine ⟨.of hlo ?_, .of hhi ?_⟩
    · rw [hslo, hcontent]
      exact rowsOf_filter (fun k => decide (k < key)) _
    · rw [hshi, hcontent]
      exact rowsOf_filter (fun k => decide (key ≤ k)) _
  · intro accepts hdiv
    obtain ⟨hitems, hlo, hhi, -⟩ := splitWhere_keeps accepts h.items_ok
    obtain ⟨hrlo, hrhi⟩ := splitWhere_rows h.items_ok hdiv
    rw [List.forall_mem_append] at hitems
    rw [hcontent]
    exact ⟨.of ⟨hitems.1, h.sorted.sublist hlo⟩ hrlo, .of ⟨hitems.2, h.sorted.sublist hhi⟩ hrhi⟩
  · intro others hothers hclear
    obtain ⟨hok, hperm⟩ := foldl_mergeStep h hothers hclear
    have hcompress : Same _ (merge items others runs) := compress_spec hok runs
    refine ⟨_, .of hcompress.ok rfl, ?_, ?_⟩
    · rw [hcompress.slots_eq, hcontent, content_eq hothers.items_ok, ← rowsOf_append]
      exact hperm.filterMap _
    · exact Tree.sorted_rowsOf hcompress.ok.sorted

/-- A run, a hole and a row. -/
def sampleItems : List (Item Tuple Nat) :=
  [.run ⟨⟨[.ent ⟨10⟩, .int 0]⟩, ⟨[.int 2, .int (-1)]⟩, 5⟩ 7, .hole ⟨⟨[.ent ⟨30⟩, .int 0]⟩, ⟨[.int 1, .int 0]⟩, 2⟩,
    .one ⟨[.ent ⟨40⟩]⟩ 8]

theorem content_exact_sample :
    Spells (insert sampleItems ⟨[.ent ⟨14⟩, .int 9]⟩ 7 true) (put ⟨[.ent ⟨14⟩, .int 9]⟩ 7 (content sampleItems)) := by
  have hok : Ok sampleItems := by
    have hsorted : (slots sampleItems).Pairwise fun a b => a.1 < b.1 := by decide
    refine ⟨?_, hsorted⟩
    simp only [sampleItems, List.forall_mem_cons, List.not_mem_nil, false_imp_iff, implies_true, and_true]
    exact ⟨⟨rfl, by decide⟩, ⟨rfl, by decide⟩, trivial⟩
  exact (content_exact hok true).2.1 ⟨[.ent ⟨14⟩, .int 9]⟩ 7

end Leaf

end Grmpl

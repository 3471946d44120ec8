import Grmpl.Core.Reads
import Grmpl.Ent.FactRows
import Grmpl.Ent.StoreHistory

/-!
# The indexed reads of a branch

A range of a relation's rows is walked in its primary order. A read of another column
goes through a k-d tree's own splits, or at the current edition through an arrangement
led by that column, built when it is first asked for, or at an older one by a search on
the extents.

* `FactReads`: what the indexed reads ask of a Fact enfilade besides.
* `Inner.ensureOrder`, `Inner.readRange`, `Inner.readRangeOn`, `Inner.lookupRows`,
  `Inner.readContaining`: the code.
* `SameBelow.readRangeOn` and its like: an edition already applied is read the same.
* `Arranges`: what an arrangement is promised; `ensureOrder_arranged`,
  `readRangeOn_fresh`, `lookupRows_fresh`: what one just built answers.
-/

open OrdMap

namespace Grmpl

/-- What the indexed reads ask of a Fact enfilade. -/
class FactReads (F : Type) extends FactEnf F where
  /-- The rows the second test keeps, entering only the subtrees whose extent the first
  one admits. -/
  search : F → (Extent → Bool) → (Tuple → Diff → Bool) → List (Tuple × Diff)
  kdRangeOn : F → Nat → Value → Value → List (Tuple × Diff)

instance FactRows.instFactReads : FactReads FactRows where
  search m _ keep := m.filter fun e => keep e.1 e.2
  kdRangeOn m col lo hi := keepRows (inColumn col lo hi) m

/-- The entity id of a value. -/
def Value.entId : Value → Option UInt64
  | .ent e => some e.id
  | _ => none

/-- A row of one cell, as a bound of a range. -/
def bound (v : Value) : Tuple := ⟨[v]⟩

namespace Inner

/-- A row put back from an arrangement led by `col`. -/
def unrotate (tuple : Tuple) (col : Nat) : Tuple :=
  if col = 0 ∨ tuple.cells.length ≤ col then tuple
  else ⟨(tuple.cells.drop 1).take col ++ tuple.cells.take 1 ++ tuple.cells.drop (col + 1)⟩

variable {F : Type} [FactReads F]

/-- The rows whose entity cells lie in every span of columns. -/
def searchBox (facts : F) (bounds : List (Nat × UInt64 × UInt64)) : List (Tuple × Diff) :=
  FactReads.search facts (fun x => bounds.all fun b => x.meets b.1 b.2.1 b.2.2)
    fun k _ => bounds.all fun b =>
      ((k.cells[b.1]?).bind Value.entId).any fun id => b.2.1 ≤ id && id < b.2.2

/-- The rows whose inclusive span holds one of the points, if all of these are
entities. -/
def stab (facts : F) (first last : Nat) (points : List Value) : Option (List (Tuple × Diff)) :=
  (points.mapM Value.entId).map fun ids =>
    FactReads.search facts
      (fun x => match x.column first, x.column last with
        | some (lo, _), some (_, hi) => lo ≤ hi && ids.any fun id => lo ≤ id && id ≤ hi
        | _, _ => false)
      fun k _ => containsAny k first last points

/-- The arrangement of rows led by one column. -/
def arrangement (col : Nat) (rows : List (Tuple × Diff)) : F :=
  rows.foldl (fun arr e => match rotate e.1 col with
    | none => arr
    | some key => FactEnf.insertWith .ordered arr key e.2 false) FactEnf.new

/-- The arrangement of a relation led by `col`, built if it is the first use. -/
def ensureOrder (i : Inner F) (rel : RelId) (col : Nat) : Inner F :=
  match i.roots rel with
  | none => i
  | some r =>
      if (lookup (col % 2 ^ 32) r.orders).isSome then i
      else
        let arr := arrangement col (((lastLe i.current r.versions).map FactEnf.iter).getD [])
        i.put rel { r with orders := OrdMap.put (col % 2 ^ 32) arr r.orders }

/-- The rows of a range of the primary order. -/
def readRange (i : Inner F) (rel : RelId) (at' : Nat) (lo hi : Tuple) : Result Rows :=
  if at' < i.watermark then .error (door "range_at" at' i.watermark)
  else .ok (((i.factAt rel at').map fun t => FactEnf.rangeCollect t lo hi).getD [])

/-- The rows whose column lies in a half-open span, and the state with the arrangement
they were read from. -/
def readRangeOn (i : Inner F) (rel : RelId) (at' col : Nat) (lo hi : Value) :
    Inner F × Result Rows :=
  if at' < i.watermark then (i, .error (door "read_range_on" at' i.watermark))
  else if col = 0 then
    (i, .ok (((i.factAt rel at').map fun t => FactEnf.rangeCollect t (bound lo) (bound hi)).getD []))
  else if i.layoutOf rel = .kd then
    (i, .ok (((i.factAt rel at').map fun t => FactReads.kdRangeOn t col lo hi).getD []))
  else if at' ≠ i.current then
    match lo.entId, hi.entId with
    | some l, some h => (i, .ok (((i.factAt rel at').map fun t => searchBox t [(col, l, h)]).getD []))
    | _, _ =>
        (i, .ok (((i.factAt rel at').map fun t => keepRows (inColumn col lo hi) (FactEnf.iter t)).getD []))
  else
    let i := i.ensureOrder rel col
    match (i.roots rel).bind fun r => lookup (col % 2 ^ 32) r.orders with
    | none => (i, .ok [])
    | some arr => (i, .ok ((FactEnf.rangeCollect arr (bound lo) (bound hi)).map fun e => (unrotate e.1 col, e.2)))

/-- The keys as a lookup takes them: each once, ascending. -/
def keySet (keys : List Value) : List Value := (keys.mergeSort (· ≤ ·)).dedup

/-- The spans of the keys, if every key has a successor. -/
def spans (keys : List Value) : Option (List (Value × Value)) :=
  keys.mapM fun k => k.successor.map fun s => (k, s)

/-- The rows of several spans of a tree's order. -/
def probe (t : F) (spans : List (Value × Value)) : Rows :=
  spans.flatMap fun s => FactEnf.rangeCollect t (bound s.1) (bound s.2)

/-- The rows some key occurs in, read without an index. -/
def lookupPast (facts : F) (col : Nat) (keys : List Value) : Rows :=
  match keys.mapM Value.entId with
  | some ids =>
      FactReads.search facts
        (fun x => (x.column col).any fun b => ids.any fun id => b.1 ≤ id && id ≤ b.2)
        fun k _ => ((k.cells[col]?).bind Value.entId).any fun id => ids.contains id
  | none => keepRows (hasKey col keys) (FactEnf.iter facts)

/-- The rows whose column holds one of the keys, and the state with the arrangement
they were read from. -/
def lookupRows (i : Inner F) (rel : RelId) (at' col : Nat) (keys : List Value) :
    Inner F × Result Rows :=
  let keys := keySet keys
  if at' < i.watermark then (i, .error (door "lookup" at' i.watermark))
  else
    let past := (i, .ok (((i.factAt rel at').map fun t => lookupPast t col keys).getD []))
    match spans keys with
    | none => past
    | some spans =>
        if col = 0 then (i, .ok (((i.factAt rel at').map fun t => probe t spans).getD []))
        else if i.layoutOf rel = .kd then
          (i, .ok (((i.factAt rel at').map fun t =>
            (spans.flatMap fun s => FactReads.kdRangeOn t col s.1 s.2).mergeSort
              fun a b => toLex a ≤ toLex b).getD []))
        else if at' = i.current then
          let i := i.ensureOrder rel col
          match (i.roots rel).bind fun r => lookup (col % 2 ^ 32) r.orders with
          | none => (i, .ok [])
          | some arr => (i, .ok ((probe arr spans).map fun e => (unrotate e.1 col, e.2)))
        else past

/-- The rows whose inclusive span contains one of the points. -/
def readContaining (i : Inner F) (rel : RelId) (at' first last : Nat) (points : List Value) :
    Result Rows :=
  if at' < i.watermark then .error (door "read_containing" at' i.watermark)
  else .ok (((i.factAt rel at').map fun t => (stab t first last points).getD
    (keepRows (fun k => containsAny k first last points) (FactEnf.iter t))).getD [])

/-! ## Rows by a column -/

section Columns

/-- Rows bound under themselves turned by a column, those without the column left out. -/
def turned (col : Nat) (rows : Rows) : Rows :=
  rows.foldl (fun m e => match rotate e.1 col with
    | none => m
    | some key => OrdMap.put key e.2 m) []

/-- The rows that have a column, in its order. -/
def byColumn (col : Nat) (rows : Rows) : Rows := (turned col rows).map fun e => (unrotate e.1 col, e.2)

variable {col : Nat} {t k lo hi : Tuple} {rows : Rows}

/-- A row turned by a column leads with its cell and turns back. -/
theorem rotate_eq_some (h : rotate t col = some k) :
    unrotate k col = t ∧ ∃ c rest, k.cells = c :: rest ∧ t.cells[col]? = some c := by
  obtain ⟨cells⟩ := t
  unfold rotate at h
  obtain ⟨c, hc, rfl⟩ := Option.map_eq_some_iff.1 h
  obtain ⟨hlt, hget⟩ := List.getElem?_eq_some_iff.1 hc
  refine ⟨?_, c, _, rfl, hc⟩
  have hlen : (cells.take col).length = col := List.length_take_of_le hlt.le
  have hback : cells.take col ++ c :: cells.drop (col + 1) = cells := by
    rw [← hget, List.getElem_cons_drop, List.take_append_drop]
  unfold unrotate
  split_ifs with hcol
  · rcases hcol with rfl | hshort
    · exact congrArg Tuple.mk (by simpa using hback)
    · have hlong : (c :: cells.take col ++ cells.drop (col + 1)).length ≤ col := hshort
      simp only [List.cons_append, List.length_cons, List.length_append] at hlong
      omega
  · refine congrArg Tuple.mk (Eq.trans ?_ hback)
    simp only [List.cons_append, List.drop_succ_cons, List.drop_zero, List.take_succ_cons,
      List.take_zero]
    rw [List.take_left' hlen, List.drop_left' hlen, List.append_assoc]
    rfl

/-- A row is between two lone cells when its first cell is. -/
theorem inRange_bound (lo hi : Value) (t : Tuple) :
    inRange (bound lo) (bound hi) t = (t.cells.head?).any fun c => lo ≤ c && c < hi := by
  have hle : ∀ (v c : Value) (rest : List Value), bound v ≤ ⟨c :: rest⟩ ↔ v ≤ c := by
    intro v c rest
    rw [← not_lt, ← not_lt, ← compare_lt_iff_lt, ← compare_lt_iff_lt, Tuple.compare_def,
      Value.compare_def, bound, Compare.lexCmp_cons_lt]
    cases rest <;> simp [Compare.lexCmp]
  have hlt : ∀ (v c : Value) (rest : List Value), ⟨c :: rest⟩ < bound v ↔ c < v := by
    intro v c rest
    rw [← not_le, hle, not_le]
  obtain ⟨cells⟩ := t
  cases cells with
  | nil =>
    have hnil : ¬ bound lo ≤ ⟨[]⟩ := by
      rw [not_le, ← compare_lt_iff_lt, Tuple.compare_def]
      rfl
    simp [inRange, hnil]
  | cons c rest => simp [inRange, hle, hlt]

theorem sorted_turned (col : Nat) (rows : Rows) : Sorted (turned col rows) := by
  unfold turned
  suffices ∀ m : Rows, Sorted m → Sorted (rows.foldl (fun m e => match rotate e.1 col with
      | none => m
      | some key => OrdMap.put key e.2 m) m) from this [] .nil
  induction rows with
  | nil => exact fun m hm => hm
  | cons e rows ih =>
    intro m hm
    rw [List.foldl_cons]
    refine ih _ ?_
    split
    · exact hm
    · exact sorted_put hm

/-- Every row turned by a column is some row with that column in front. -/
theorem mem_turned {e : Tuple × Diff} (h : e ∈ turned col rows) : ∃ t, rotate t col = some e.1 := by
  unfold turned at h
  suffices ∀ m : Rows, (∀ x ∈ m, ∃ t, rotate t col = some x.1) →
      ∀ x ∈ rows.foldl (fun m e => match rotate e.1 col with
        | none => m
        | some key => OrdMap.put key e.2 m) m, ∃ t, rotate t col = some x.1 from
    this [] (by simp) e h
  clear h
  induction rows with
  | nil => exact fun m hm => hm
  | cons e rows ih =>
    intro m hm
    rw [List.foldl_cons]
    refine ih _ ?_
    split
    · exact hm
    · rename_i key hkey
      intro x hx
      rcases mem_put hx with rfl | hx
      · exact ⟨_, hkey⟩
      · exact hm x hx

/-- Filtering the rows of a column's order by that column is a filter of the turned
rows by their first cell. -/
theorem keepRows_byColumn {p : Value → Bool} :
    keepRows (fun t => (t.cells[col]?).any p) (byColumn col rows) =
      ((turned col rows).filter fun e => e.1.cells.head?.any p).map fun e => (unrotate e.1 col, e.2) := by
  unfold keepRows byColumn
  rw [List.filter_map]
  refine congrArg _ (List.filter_congr fun e he => ?_)
  obtain ⟨t, ht⟩ := mem_turned he
  obtain ⟨hback, c, rest, hcells, hc⟩ := rotate_eq_some ht
  simp [hback, hcells, hc]

end Columns

end Inner

/-! ## Fresh arrangements -/

/-- What an arrangement is promised of a Fact enfilade: an ordered one written row by
row without runs is the map of those rows. -/
class Arranges (F : Type) [FactEnf F] where
  Arranged : F → Rows → Prop
  new : Arranged FactEnf.new []
  insert {t : F} {m : Rows} (k : Tuple) (d : Diff) : Arranged t m →
    Arranged (FactEnf.insertWith .ordered t k d false) (put k d m)
  rangeCollect {t : F} {m : Rows} (lo hi : Tuple) : Arranged t m →
    FactEnf.rangeCollect t lo hi = keepRows (inRange lo hi) m

instance FactRows.instArranges : Arranges FactRows where
  Arranged t m := t = m
  new := rfl
  insert k d h := by
    subst h
    rfl
  rangeCollect {t m} lo hi h := by
    subst h
    show (if lo < hi then between lo hi t else []) = keepRows (inRange lo hi) t
    split_ifs with hlt
    · exact List.filter_congr fun e _ => by simp [inRange]
    · refine (List.filter_eq_nil_iff.2 fun e _ he => ?_).symm
      simp only [inRange, Bool.and_eq_true, decide_eq_true_eq] at he
      exact hlt (he.1.trans_lt he.2)

namespace Inner

section Past

variable {F : Type} [FactReads F] {i j : Inner F} {rel : RelId} {at' col : Nat}

/-- Two states read an edition of a relation alike: past both, or the present of both
with the same roots, or by an index both keep. -/
structure ReadsAlike (i j : Inner F) (rel : RelId) (at' col : Nat) : Prop where
  watermark : j.watermark = i.watermark
  fact : j.factAt rel at' = i.factAt rel at'
  layout : j.layoutOf rel = i.layoutOf rel
  place : (at' ≠ i.current ∧ at' ≠ j.current) ∨ (j.current = i.current ∧ j.roots rel = i.roots rel) ∨
    col = 0 ∨ i.layoutOf rel = .kd

/-- An arrangement asked for of the same roots at the same edition is the same. -/
theorem ensureOrder_congr (hcur : j.current = i.current) (hr : j.roots rel = i.roots rel) :
    (j.ensureOrder rel col).roots rel = (i.ensureOrder rel col).roots rel := by
  unfold ensureOrder
  rw [hr, hcur]
  cases hi : i.roots rel with
  | none => rw [hr, hi]
  | some r =>
    dsimp only
    split_ifs
    · rw [hr, hi]
    · simp [put, roots]

theorem ReadsAlike.readRange (h : ReadsAlike i j rel at' 0) (lo hi : Tuple) :
    j.readRange rel at' lo hi = i.readRange rel at' lo hi := by
  rw [Inner.readRange, Inner.readRange, h.watermark, h.fact]

theorem ReadsAlike.readContaining (h : ReadsAlike i j rel at' 0) (first last : Nat)
    (points : List Value) :
    j.readContaining rel at' first last points = i.readContaining rel at' first last points := by
  rw [Inner.readContaining, Inner.readContaining, h.watermark, h.fact]

omit [FactReads F] in
theorem ReadsAlike.together (h : ReadsAlike i j rel at' col) (hcol : col ≠ 0)
    (hkd : i.layoutOf rel ≠ .kd) (hi : at' = i.current) :
    j.current = i.current ∧ j.roots rel = i.roots rel := by
  rcases h.place with hpast | hnow | hlead | hlay
  · exact absurd hi hpast.1
  · exact hnow
  · exact absurd hlead hcol
  · exact absurd hlay hkd

omit [FactReads F] in
theorem ReadsAlike.current_iff (h : ReadsAlike i j rel at' col) (hcol : col ≠ 0)
    (hkd : i.layoutOf rel ≠ .kd) : at' = j.current ↔ at' = i.current := by
  rcases h.place with hpast | hnow | hlead | hlay
  · exact iff_of_false hpast.2 hpast.1
  · rw [hnow.1]
  · exact absurd hlead hcol
  · exact absurd hlay hkd

/-- **States that read an edition alike answer a span of a column alike.** -/
theorem ReadsAlike.readRangeOn (h : ReadsAlike i j rel at' col) (lo hi : Value) :
    (j.readRangeOn rel at' col lo hi).2 = (i.readRangeOn rel at' col lo hi).2 := by
  unfold Inner.readRangeOn
  rw [h.watermark, h.fact, h.layout]
  split_ifs with hw hcol hkd hatj hati hati
  · rfl
  · rfl
  · rfl
  · cases hlo : lo.entId <;> cases hhi : hi.entId <;> rfl
  · exact absurd ((h.current_iff hcol hkd).2 (not_not.1 hati)) hatj
  · exact absurd ((h.current_iff hcol hkd).1 (not_not.1 hatj)) hati
  · obtain ⟨hcur, hroots⟩ := h.together hcol hkd (not_not.1 hati)
    dsimp only
    rw [ensureOrder_congr hcur hroots]
    cases ((i.ensureOrder rel col).roots rel).bind fun r => lookup (col % 2 ^ 32) r.orders <;> rfl

/-- **And the rows of some keys.** -/
theorem ReadsAlike.lookupRows (h : ReadsAlike i j rel at' col) (keys : List Value) :
    (j.lookupRows rel at' col keys).2 = (i.lookupRows rel at' col keys).2 := by
  unfold Inner.lookupRows
  dsimp only
  rw [h.watermark, h.fact, h.layout]
  cases spans (keySet keys) with
  | none =>
    dsimp only
    split_ifs <;> rfl
  | some ss =>
    dsimp only
    split_ifs with hw hcol hkd hatj hati hati
    · rfl
    · rfl
    · rfl
    · obtain ⟨hcur, hroots⟩ := h.together hcol hkd hati
      rw [ensureOrder_congr hcur hroots]
      cases ((i.ensureOrder rel col).roots rel).bind fun r => lookup (col % 2 ^ 32) r.orders <;> rfl
    · exact absurd ((h.current_iff hcol hkd).1 hatj) hati
    · exact absurd ((h.current_iff hcol hkd).2 hati) hatj
    · rfl

end Past

section Fresh

variable {F : Type} [FactReads F] [Arranges F] {i : Inner F} {rel : RelId} {col : Nat}

/-- An arrangement just built holds the rows turned by its column. -/
theorem arrangement_arranged (col : Nat) (rows : Rows) :
    Arranges.Arranged (arrangement col rows : F) (turned col rows) := by
  unfold arrangement turned
  suffices ∀ (t : F) (m : Rows), Arranges.Arranged t m →
      Arranges.Arranged (rows.foldl (fun arr e => match rotate e.1 col with
          | none => arr
          | some key => FactEnf.insertWith .ordered arr key e.2 false) t)
        (rows.foldl (fun m e => match rotate e.1 col with
          | none => m
          | some key => OrdMap.put key e.2 m) m) from this _ _ Arranges.new
  induction rows with
  | nil => exact fun _ _ h => h
  | cons e rows ih =>
    intro t m h
    simp only [List.foldl_cons]
    refine ih _ _ ?_
    split
    · exact h
    · exact Arranges.insert _ _ h

/-- A relation's rows as of an edition; none if it was not yet written. -/
def rowsAt (i : Inner F) (rel : RelId) (at' : Nat) : Rows := ((i.factAt rel at').map FactEnf.iter).getD []

omit [Arranges F] in
/-- What is found under a column the first time it is asked for. -/
theorem ensureOrder_fresh {r : RelRoots F} (hr : i.roots rel = some r) (hfresh : r.orders = []) :
    ((i.ensureOrder rel col).roots rel).bind (fun r => lookup (col % 2 ^ 32) r.orders) =
      some (arrangement col (i.rowsAt rel i.current)) := by
  unfold ensureOrder
  rw [hr]
  simp only [hfresh]
  rw [if_neg (by simp [lookup]), put, roots, lookup_put_self]
  show lookup (col % 2 ^ 32) (OrdMap.put (col % 2 ^ 32) _ _) = _
  rw [lookup_put_self, rowsAt, factAt, hr]
  rfl

omit [Arranges F] in
theorem ensureOrder_none (hr : i.roots rel = none) :
    ((i.ensureOrder rel col).roots rel).bind (fun r => lookup (col % 2 ^ 32) r.orders) = none := by
  unfold ensureOrder
  rw [hr]
  simp only [hr]
  rfl

/-- **A span of a column, read from an arrangement just built,** is the filter of the
rows in that column's order. -/
theorem readRangeOn_fresh (hw : ¬ i.current < i.watermark)
    (hfresh : ∀ r, i.roots rel = some r → r.orders = []) (hcol : col ≠ 0)
    (hlay : i.layoutOf rel = .ordered) (lo hi : Value) :
    (i.readRangeOn rel i.current col lo hi).2 =
      .ok (keepRows (inColumn col lo hi) (byColumn col (i.rowsAt rel i.current))) := by
  have hin : inColumn col lo hi = fun t : Tuple => (t.cells[col]?).any fun c => lo ≤ c && c < hi := by
    funext t
    unfold inColumn
    cases t.cells[col]? <;> rfl
  unfold readRangeOn
  rw [if_neg hw, if_neg hcol, if_neg (by rw [hlay]; decide), if_neg (by simp)]
  dsimp only
  rw [hin, keepRows_byColumn]
  cases hr : i.roots rel with
  | none =>
    rw [ensureOrder_none hr]
    simp [rowsAt, factAt, hr, turned]
  | some r =>
    rw [ensureOrder_fresh hr (hfresh r hr)]
    simp only [Arranges.rangeCollect _ _ (arrangement_arranged (F := F) col _)]
    refine congrArg (fun l => Except.ok (List.map _ l)) ?_
    exact List.filter_congr fun e _ => inRange_bound lo hi e.1

omit [FactReads F] [Arranges F] in
/-- The keys that have a span are the spans' lower ends. -/
theorem spans_eq_some {keys : List Value} {ss : List (Value × Value)} (h : spans keys = some ss) :
    ss.map Prod.fst = keys ∧ ∀ s ∈ ss, s.1.successor = some s.2 := by
  unfold spans at h
  induction keys generalizing ss with
  | nil =>
    cases h
    simp
  | cons k keys ih =>
    rw [List.mapM_cons] at h
    obtain ⟨s, hs, h⟩ := Option.bind_eq_some_iff.1 h
    obtain ⟨ss', hss, h⟩ := Option.bind_eq_some_iff.1 h
    cases h
    obtain ⟨v, hv, rfl⟩ := Option.map_eq_some_iff.1 hs
    obtain ⟨hkeys, hsucc⟩ := ih hss
    refine ⟨by simp [hkeys], fun x hx => ?_⟩
    rcases List.mem_cons.1 hx with rfl | hx
    · exact hv
    · exact hsucc x hx

/-- The rows of ascending keys, key by key, are the rows led by any of them. -/
theorem flatMap_filter_keys {m : Rows} (hm : Sorted m) : ∀ {keys : List Value},
    keys.Pairwise (· < ·) →
      keys.flatMap (fun k => m.filter fun e => e.1.cells.head?.any fun c => c = k) =
        m.filter fun e => e.1.cells.head?.any fun c => keys.contains c
  | [], _ => (List.filter_eq_nil_iff.2 fun e _ => by cases e.1.cells.head? <;> simp).symm
  | k :: keys, hkeys => by
      obtain ⟨hk, hkeys⟩ := List.pairwise_cons.1 hkeys
      have hlt : ∀ (a b : Tuple) (x y : Value), a.cells.head? = some x → b.cells.head? = some y →
          y < x → b < a := by
        rintro ⟨as⟩ ⟨bs⟩ x y ha hb hxy
        obtain ⟨as, rfl⟩ := List.head?_eq_some_iff.1 ha
        obtain ⟨bs, rfl⟩ := List.head?_eq_some_iff.1 hb
        rw [← compare_lt_iff_lt, Tuple.compare_def]
        exact Compare.lexCmp_cons_lt.2 (.inl (compare_lt_iff_lt.2 hxy))
      have hor := filter_or (l := m) (p := fun e => e.1.cells.head?.any fun c => c = k)
        (q := fun e => e.1.cells.head?.any fun c => keys.contains c) ?_ ?_
      · rw [List.flatMap_cons, flatMap_filter_keys hm hkeys, ← hor]
        refine List.filter_congr fun e _ => ?_
        cases e.1.cells.head? <;> simp [eq_comm]
      · refine hm.imp fun {a b} hab h => ?_
        obtain ⟨x, hx, hxk⟩ := Option.any_eq_true .. |>.1 h.1
        obtain ⟨y, hy, hyk⟩ := Option.any_eq_true .. |>.1 h.2
        rw [decide_eq_true_eq] at hyk
        exact absurd hab (hlt _ _ x y hx hy (hyk ▸ hk x (by simpa using hxk))).not_gt
      · intro e _ h
        obtain ⟨x, hx, hxk⟩ := Option.any_eq_true .. |>.1 h.1
        obtain ⟨y, hy, hyk⟩ := Option.any_eq_true .. |>.1 h.2
        rw [decide_eq_true_eq] at hxk
        obtain rfl := Option.some.inj (hx.symm.trans hy)
        exact absurd (hk x (by simpa using hyk)) (hxk ▸ lt_irrefl _)

theorem mem_keySet {keys : List Value} {v : Value} : v ∈ keySet keys ↔ v ∈ keys := by
  simp [keySet]

theorem sorted_keySet (keys : List Value) : (keySet keys).Pairwise (· < ·) := by
  have hsorted : (keySet keys).Pairwise (· ≤ ·) :=
    (List.pairwise_mergeSort' (· ≤ ·) keys).sublist (List.dedup_sublist _)
  exact hsorted.imp₂ (fun a b hle hne => lt_of_le_of_ne hle hne) (List.nodup_dedup _)

/-- **The rows of some keys, read from an arrangement just built,** are the filter of
the rows in that column's order, where every key has a successor. -/
theorem lookupRows_fresh (hw : ¬ i.current < i.watermark)
    (hfresh : ∀ r, i.roots rel = some r → r.orders = []) (hcol : col ≠ 0)
    (hlay : i.layoutOf rel = .ordered) {keys : List Value} (hsucc : (spans (keySet keys)).isSome = true) :
    (i.lookupRows rel i.current col keys).2 =
      .ok (keepRows (hasKey col keys) (byColumn col (i.rowsAt rel i.current))) := by
  obtain ⟨ss, hss⟩ := Option.isSome_iff_exists.1 hsucc
  obtain ⟨hfst, hnext⟩ := spans_eq_some hss
  have hin : hasKey col keys = fun t : Tuple => (t.cells[col]?).any fun c => (keySet keys).contains c := by
    funext t
    unfold hasKey
    cases t.cells[col]? with
    | none => rfl
    | some v => simp [mem_keySet, List.contains_eq_mem]
  have hprobe : ∀ m : Rows, Sorted m →
      ss.flatMap (fun s => keepRows (inRange (bound s.1) (bound s.2)) m) =
        m.filter fun e => e.1.cells.head?.any fun c => (keySet keys).contains c := by
    intro m hm
    rw [← flatMap_filter_keys hm (sorted_keySet keys), ← hfst, List.flatMap_map]
    refine List.flatMap_congr fun s hs => List.filter_congr fun e _ => ?_
    rw [inRange_bound]
    cases e.1.cells.head? with
    | none => rfl
    | some c => simpa [← Bool.decide_and] using Value.successor_spec (hnext s hs) c
  unfold lookupRows
  dsimp only
  rw [if_neg hw, hss]
  dsimp only
  rw [if_neg hcol, if_neg (by rw [hlay]; decide), if_pos rfl, hin, keepRows_byColumn]
  cases hr : i.roots rel with
  | none =>
    rw [ensureOrder_none hr]
    simp [rowsAt, factAt, hr, turned]
  | some r =>
    rw [ensureOrder_fresh hr (hfresh r hr)]
    dsimp only [probe]
    simp only [Arranges.rangeCollect _ _ (arrangement_arranged (F := F) col _)]
    rw [hprobe _ (sorted_turned _ _)]

end Fresh

end Inner

end Grmpl

import Grmpl.Ent.KdInv
import Grmpl.Ent.TreeDiffWalk

/-!
# The comparison of two k-d trees is their difference

A piece means the rows under it; a side of well-formed pieces binds no key
twice. Cancelling drops rows both sides hold, and dividing at a pivot tells the
rows of both sides apart by their keys, so the difference of the sides is
assembled from what is left. Every division opens the split it divides at.

* `Tree.Piece.Good`: the invariant of a piece.
* `Tree.partition_spec`, `Tree.cancel_spec`: dividing and cancelling.
* `Tree.diffPieces_spec`, `Tree.kdDiff_spec`: the comparison.
-/

open OrdMap

namespace Grmpl

/-! ## Regions -/

section Regions

variable {K : Type} [Displace K] [PivotKey K]

/-- The bounds a region puts on a column hold of a key. -/
def Bounded (col : Nat) (b : Option K × Option K) (k : K) : Prop :=
  (∀ h ∈ b.2, PivotKey.isPivot h ∧ Tree.isBelow col h k = true) ∧
    ∀ l ∈ b.1, PivotKey.isPivot l ∧ Tree.isBelow col l k = false

/-- Every bound a region puts on a column holds of a key. -/
def InRegion (region : Region K) (k : K) : Prop := ∀ r ∈ region, Bounded r.1 r.2 k

variable {region : Region K} {col : Nat} {pivot q k : K} {b : Bool}

/-- What lies below a pivot lies below a greater one. -/
theorem isBelow_mono {p q : K} (hp : PivotKey.isPivot p) (hq : PivotKey.isPivot q) (hpq : p ≤ q)
    (h : Tree.isBelow col p k = true) : Tree.isBelow col q k = true := by
  simp only [Tree.isBelow, decide_eq_true_eq] at h ⊢
  exact PivotKey.column_mono k col p q hp hq hpq h

theorem Bounded.tighten {bounds : Option K × Option K} (h : Bounded col bounds k)
    (hq : PivotKey.isPivot q) (hside : Tree.isBelow col q k = b) :
    Bounded col (tighten bounds q b) k := by
  unfold Grmpl.tighten
  cases b with
  | true =>
    refine ⟨fun u hu => ?_, h.2⟩
    simp only [if_true] at hu
    split at hu
    · obtain rfl := Option.some.inj hu
      exact ⟨hq, hside⟩
    · exact h.1 u hu
  | false =>
    refine ⟨h.1, fun u hu => ?_⟩
    simp only [Bool.false_eq_true, if_false] at hu
    split at hu
    · obtain rfl := Option.some.inj hu
      exact ⟨hq, hside⟩
    · exact h.2 u hu

/-- A key on one side of a split stays in the region narrowed to that side. -/
theorem InRegion.narrowed (h : InRegion region k) (hq : PivotKey.isPivot q)
    (hside : Tree.isBelow col q k = b) : InRegion (narrowed col q b region) k := by
  induction region with
  | nil =>
    intro r hr
    obtain rfl := List.mem_singleton.1 hr
    have hnone : Bounded col ((none, none) : Option K × Option K) k := ⟨by simp, by simp⟩
    exact hnone.tighten hq hside
  | cons r rest ih =>
    have hrest : InRegion rest k := fun s hs => h s (by simp [hs])
    unfold Grmpl.narrowed
    intro s hs
    split at hs
    · rename_i hcol
      rcases List.mem_cons.1 hs with rfl | hs
      · exact (hcol ▸ h r (by simp) : Bounded col r.2 k).tighten hq hside
      · exact hrest s hs
    · rcases List.mem_cons.1 hs with rfl | hs
      · exact h s (by simp)
      · exact ih hrest s hs

/-- A region that lies wholly on one side of a pivot says so of its keys. -/
theorem InRegion.side (h : InRegion region k) (hp : PivotKey.isPivot pivot)
    (hside : regionSide region col pivot = some b) : Tree.isBelow col pivot k = b := by
  obtain ⟨r, hr, hb⟩ := Option.bind_eq_some_iff.1 hside
  have hcol : r.1 = col := by simpa using List.find?_some hr
  obtain ⟨hhi, hlo⟩ := h r (List.mem_of_find?_eq_some hr)
  rw [hcol] at hhi hlo
  split at hb
  · rename_i hany
    obtain ⟨u, hu, hle⟩ := (Option.any_eq_true _ _).1 hany
    obtain rfl := Option.some.inj hb
    obtain ⟨hpu, hbelow⟩ := hhi u hu
    exact isBelow_mono hpu hp (by simpa using hle) hbelow
  · split at hb
    · rename_i hany
      obtain ⟨l, hl, hle⟩ := (Option.any_eq_true _ _).1 hany
      obtain rfl := Option.some.inj hb
      obtain ⟨hpl, habove⟩ := hlo l hl
      by_contra hne
      rw [isBelow_mono hp hpl (by simpa using hle) (by simpa using hne)] at habove
      cases habove
    · cases hb

end Regions

namespace Tree

variable {K V M : Type} [Displace K]

/-! ## Pieces -/

/-- The rows under a piece. -/
def Piece.rows : Piece K V M → List (K × V)
  | .node t off _ _ => Leaf.rowsOf (slotsAt t off)
  | .entry k v => [(k, v)]

/-- The rows of a side. -/
def rowsIn (ps : List (Piece K V M)) : List (K × V) := ps.flatMap Piece.rows

/-- The splits of a piece. -/
def Piece.splits : Piece K V M → Nat
  | .node t _ _ _ => Tree.splits t
  | .entry .. => 0

/-- The splits of a side. -/
def splitsIn (ps : List (Piece K V M)) : Nat := (ps.map Piece.splits).sum

@[simp] theorem rowsIn_nil : rowsIn ([] : List (Piece K V M)) = [] := rfl

@[simp] theorem rowsIn_cons (x : Piece K V M) (ps : List (Piece K V M)) :
    rowsIn (x :: ps) = x.rows ++ rowsIn ps := rfl

@[simp] theorem rowsIn_append (ps qs : List (Piece K V M)) :
    rowsIn (ps ++ qs) = rowsIn ps ++ rowsIn qs := by
  simp [rowsIn]

omit [Displace K] in
@[simp] theorem splitsIn_cons (x : Piece K V M) (ps : List (Piece K V M)) :
    splitsIn (x :: ps) = x.splits + splitsIn ps := by
  simp [splitsIn]

omit [Displace K] in
@[simp] theorem splitsIn_append (ps qs : List (Piece K V M)) :
    splitsIn (ps ++ qs) = splitsIn ps + splitsIn qs := by
  simp [splitsIn]

theorem rowsIn_entries (es : List (K × V)) :
    rowsIn (es.map fun e => (.entry e.1 e.2 : Piece K V M)) = es := by
  induction es with
  | nil => rfl
  | cons e es ih => simp [Piece.rows, ih]

omit [Displace K] in
theorem splitsIn_entries (es : List (K × V)) :
    splitsIn (es.map fun e => (.entry e.1 e.2 : Piece K V M)) = 0 := by
  induction es with
  | nil => rfl
  | cons e es ih => simp [Piece.splits, ih]

variable [PivotKey K] [Measure K V M]

/-- A piece of a side of `root`: an entry, or a subtree found at its path, well
formed where it stands, with its keys in its region. -/
def Piece.Good (root : Tree K V M) : Piece K V M → Prop
  | .entry .. => True
  | .node t off region path =>
      root.nodeAt path = some t ∧ KdAt t off ∧ ∀ e ∈ slotsAt t off, InRegion region e.1

variable {root : Tree K V M} {col : Nat} {pivot : K}

/-! ## Dividing -/

/-- What dividing a piece at a pivot gives: good pieces with its rows, on their
sides, and no more splits. -/
structure Divides (root : Tree K V M) (col : Nat) (pivot : K) (rows : List (K × V)) (n : Nat)
    (parts : List (Piece K V M) × List (Piece K V M)) : Prop where
  good : (∀ x ∈ parts.1, x.Good root) ∧ ∀ x ∈ parts.2, x.Good root
  below : rowsIn parts.1 = rows.filter fun e => isBelow col pivot e.1
  above : rowsIn parts.2 = rows.filter fun e => !isBelow col pivot e.1
  splits : splitsIn parts.1 + splitsIn parts.2 ≤ n

theorem Divides.append {r r' : List (K × V)} {n n' : Nat}
    {l h : List (Piece K V M) × List (Piece K V M)} (hl : Divides root col pivot r n l)
    (hh : Divides root col pivot r' n' h) :
    Divides root col pivot (r ++ r') (n + n') (l.1 ++ h.1, l.2 ++ h.2) where
  good := by
    refine ⟨fun x hx => ?_, fun x hx => ?_⟩
    · exact (List.mem_append.1 hx).elim (hl.good.1 x) (hh.good.1 x)
    · exact (List.mem_append.1 hx).elim (hl.good.2 x) (hh.good.2 x)
  below := by rw [rowsIn_append, hl.below, hh.below, List.filter_append]
  above := by rw [rowsIn_append, hl.above, hh.above, List.filter_append]
  splits := by
    have := hl.splits
    have := hh.splits
    simp only [splitsIn_append]
    omega

theorem Divides.mono {r : List (K × V)} {n n' : Nat}
    {l : List (Piece K V M) × List (Piece K V M)} (hl : Divides root col pivot r n l)
    (hn : n ≤ n') : Divides root col pivot r n' l :=
  ⟨hl.good, hl.below, hl.above, hl.splits.trans hn⟩

/-- A piece all of whose keys lie on one side goes there whole. -/
theorem divides_whole {x : Piece K V M} {b : Bool} (hx : x.Good root)
    (hside : ∀ e ∈ x.rows, isBelow col pivot e.1 = b) :
    Divides root col pivot x.rows x.splits (if b then ([x], []) else ([], [x])) := by
  cases b with
  | true =>
    refine ⟨⟨by simpa using hx, by simp⟩, ?_, ?_, by simp [splitsIn]⟩
    · rw [filter_eq_self_of hside]
      simp
    · rw [filter_eq_nil_of fun e he => by simp [hside e he]]
      rfl
  | false =>
    refine ⟨⟨by simp, by simpa using hx⟩, ?_, ?_, by simp [splitsIn]⟩
    · rw [filter_eq_nil_of hside]
      rfl
    · rw [filter_eq_self_of fun e he => by simp [hside e he]]
      simp

omit [Displace K] [PivotKey K] [Measure K V M] in
/-- A row's key is the key of its slot. -/
theorem slot_of_row {l : List (K × Option V)} {e : K × V} (he : e ∈ Leaf.rowsOf l) :
    (e.1, some e.2) ∈ l := by
  obtain ⟨f, hf, hsome⟩ := List.mem_filterMap.1 he
  obtain ⟨v, hv, rfl⟩ := Option.map_eq_some_iff.1 hsome
  rw [← hv]
  exact hf

omit [Displace K] [PivotKey K] [Measure K V M] in
theorem rowsOf_keys_sublist (l : List (K × Option V)) :
    ((Leaf.rowsOf l).map Prod.fst).Sublist (l.map Prod.fst) := by
  induction l with
  | nil => exact List.Sublist.refl _
  | cons e l ih =>
    obtain ⟨k, v⟩ := e
    cases v with
    | none => exact ih.cons k
    | some v => exact ih.cons_cons k

/-- The children of a well-formed split are good pieces of the narrowed regions. -/
theorem Good.children {d off : Dsp} {s : Summary M} {c : Nat} {q : K} {lo hi : Tree K V M}
    {region : Region K} {path : Path}
    (h : (Piece.node (nodeSplit d s c q lo hi) off region path).Good root) :
    (Piece.node lo (off + d) (narrowed c (displace q (off + d)) true region) (0 :: path)).Good root ∧
      (Piece.node hi (off + d) (narrowed c (displace q (off + d)) false region)
        (1 :: path)).Good root := by
  obtain ⟨hpath, ⟨hq, hlo, hhi, hbelow, habove, -, -⟩, hregion⟩ := h
  have hq' := PivotKey.isPivot_displace q (off + d) hq
  refine ⟨⟨by simp [nodeAt, hpath, child], hlo, fun e he => ?_⟩,
    ⟨by simp [nodeAt, hpath, child], hhi, fun e he => ?_⟩⟩
  · exact (hregion e (by rw [slotsAt]; exact List.mem_append_left _ he)).narrowed hq' (hbelow e he)
  · exact (hregion e (by rw [slotsAt]; exact List.mem_append_right _ he)).narrowed hq' (habove e he)

/-- Items whose ends lie on one side of a pivot have every key there. -/
theorem leaf_ends (col : Nat) {d off : Dsp} {s : Summary M} {items : List (Item K V)} {region : Region K}
    {path : Path} (h : (Piece.node (nodeLeaf d s items) off region path).Good root)
    (hp : PivotKey.isPivot pivot) (b : Bool)
    (hall : ∀ it ∈ items, isBelow col pivot (displace it.loKey (off + d)) = b ∧
      isBelow col pivot (displace it.hiKey (off + d)) = b) :
    ∀ e ∈ slotsAt (nodeLeaf d s items) off, isBelow col pivot e.1 = b := by
  obtain ⟨-, ⟨-, hstraight, -, -⟩, -⟩ := h
  intro e he
  rw [slotsAt] at he
  obtain ⟨it', hit', he⟩ := Leaf.mem_slots.1 he
  obtain ⟨it, hit, rfl⟩ := List.mem_map.1 hit'
  exact hstraight it hit col pivot hp b (hall it hit).1 (hall it hit).2 e he

/-- Dividing a leaf at a pivot. -/
theorem partitionLeaf_spec (hp : PivotKey.isPivot pivot) {d off : Dsp} {s : Summary M}
    {items : List (Item K V)} {region : Region K} {path : Path}
    (h : (Piece.node (nodeLeaf d s items) off region path).Good root) :
    Divides root col pivot (Leaf.rowsOf (slotsAt (nodeLeaf d s items) off)) 0
      (partitionLeaf col pivot items (off + d) fun b =>
        .node (nodeLeaf d s items) off (narrowed col pivot b region) path) := by
  obtain ⟨hpath, ht, hregion⟩ := id h
  -- a leaf placed by its keys is narrowed to their side
  have whole : ∀ b : Bool, (∀ e ∈ slotsAt (nodeLeaf d s items) off, isBelow col pivot e.1 = b) →
      Divides root col pivot (Leaf.rowsOf (slotsAt (nodeLeaf d s items) off)) 0
        (if b then ([.node (nodeLeaf d s items) off (narrowed col pivot b region) path], [])
          else ([], [.node (nodeLeaf d s items) off (narrowed col pivot b region) path])) :=
    fun b hb => divides_whole
      (x := .node (nodeLeaf d s items) off (narrowed col pivot b region) path)
      ⟨hpath, ht, fun e he => (hregion e he).narrowed hp (hb e he)⟩ fun e he =>
        hb _ (slot_of_row he)
  have hends := leaf_ends col h hp
  unfold partitionLeaf
  split
  · rename_i hlo
    exact whole true (hends true (by simpa using hlo))
  · split
    · rename_i hhi
      exact whole false (hends false (by simpa using hhi))
    · rw [slotsAt, leaf_rows ht.1.ok.items_ok (off + d)]
      refine ⟨⟨?_, ?_⟩, rowsIn_entries _, rowsIn_entries _, ?_⟩
      · intro x hx
        obtain ⟨e, -, rfl⟩ := List.mem_map.1 hx
        trivial
      · intro x hx
        obtain ⟨e, -, rfl⟩ := List.mem_map.1 hx
        trivial
      · rw [splitsIn_entries, splitsIn_entries]

/-- Dividing a subtree at a pivot. -/
theorem partitionNode_spec (col : Nat) (hp : PivotKey.isPivot pivot) :
    ∀ (fuel : Nat) (t : Tree K V M) (off : Dsp) (region : Region K) (path : Path), t.depth ≤ fuel →
    (Piece.node t off region path).Good root →
      Divides root col pivot (Leaf.rowsOf (slotsAt t off)) (Tree.splits t)
        (partitionNode col pivot fuel t off region path) := by
  intro fuel
  induction fuel with
  | zero =>
    intro t off region path hdepth hgood
    obtain ⟨-, ht, -⟩ := hgood
    cases t with
    | nil => exact ht.elim
    | nodeInternal => exact ht.elim
    | _ => simp [depth] at hdepth
  | succ fuel ih =>
    intro t off region path hdepth hgood
    obtain ⟨hpath, ht, hregion⟩ := id hgood
    have whole : ∀ b : Bool, (∀ e ∈ slotsAt t off, isBelow col pivot e.1 = b) →
        Divides root col pivot (Leaf.rowsOf (slotsAt t off)) (Tree.splits t)
          (if b then ([.node t off region path], []) else ([], [.node t off region path])) :=
      fun b hb => divides_whole (x := .node t off region path) hgood fun e he =>
        hb _ (slot_of_row he)
    cases t with
    | nil => exact ht.elim
    | nodeInternal => exact ht.elim
    | nodeLeaf d s items =>
      obtain ⟨hok, hstraight, hplaced, -⟩ := ht
      simp only [partitionNode, localMeasure, sum, Option.map_some, dsp]
      cases hside : (regionSide region col pivot).or
          (summarySide (V := V) s.measure (off + d) col pivot) with
      | some b =>
        have hb : ∀ e ∈ slotsAt (nodeLeaf d s items) off, isBelow col pivot e.1 = b := by
          intro e he
          rcases Option.or_eq_some_iff.1 hside with hr | ⟨-, hm⟩
          · exact (hregion e he).side hp hr
          · exact hplaced col pivot b hp hm e he
        have hw := whole b hb
        cases b <;> exact hw
      | none =>
        exact partitionLeaf_spec hp hgood
    | nodeSplit d s c q lo hi =>
      obtain ⟨hglo, hghi⟩ := Good.children hgood
      simp only [depth] at hdepth
      have hlo := ih lo (off + d) _ (0 :: path) (by omega) hglo
      have hhi := ih hi (off + d) _ (1 :: path) (by omega) hghi
      simp only [partitionNode, localMeasure, sum, Option.map_some, dsp]
      cases hside : (regionSide region col pivot).or
          (summarySide (V := V) s.measure (off + d) col pivot) with
      | some b =>
        have hb : ∀ e ∈ slotsAt (nodeSplit d s c q lo hi) off, isBelow col pivot e.1 = b := by
          intro e he
          rcases Option.or_eq_some_iff.1 hside with hr | ⟨-, hm⟩
          · exact (hregion e he).side hp hr
          · exact ht.2.2.2.2.2.1 col pivot b hp hm e he
        have hw := whole b hb
        cases b <;> exact hw
      | none =>
        rw [slotsAt, Leaf.rowsOf_append]
        exact (hlo.append hhi).mono (by simp [Tree.splits])

/-- Dividing one piece at a pivot. -/
theorem partitionPiece_spec (hp : PivotKey.isPivot pivot) {x : Piece K V M} (hx : x.Good root) :
    Divides root col pivot x.rows x.splits (partitionPiece col pivot x) := by
  cases x with
  | node t off region path => exact partitionNode_spec col hp t.depth t off region path le_rfl hx
  | entry k v =>
    have hw : Divides root col pivot (Piece.entry k v).rows (Piece.entry k v).splits
        (if isBelow col pivot k then ([.entry k v], []) else ([], [.entry k v])) :=
      divides_whole hx fun e he => by rw [List.mem_singleton.1 he]
    simpa [partitionPiece] using hw

/-- **Dividing a side at a pivot** tells its rows apart by their keys. -/
theorem partition_spec (hp : PivotKey.isPivot pivot) {ps : List (Piece K V M)}
    (h : ∀ x ∈ ps, x.Good root) :
    Divides root col pivot (rowsIn ps) (splitsIn ps) (partition ps col pivot) := by
  induction ps with
  | nil => exact ⟨by simp [partition], rfl, rfl, le_rfl⟩
  | cons x ps ih =>
    rw [rowsIn_cons, splitsIn_cons]
    exact (partitionPiece_spec hp (h x (by simp))).append (ih fun y hy => h y (by simp [hy]))

/-- A split is opened by the division at its own pivot: keys lie on either side of
it, so neither its region nor its summary places it. -/
theorem partitionNode_opens {d off : Dsp} {s : Summary M} {c : Nat} {q : K} {lo hi : Tree K V M}
    {region : Region K} {path : Path} (fuel : Nat)
    (hfuel : (nodeSplit d s c q lo hi).depth ≤ fuel + 1)
    (h : (Piece.node (nodeSplit d s c q lo hi) off region path).Good root) :
    splitsIn (partitionNode c (displace q (off + d)) (fuel + 1) (nodeSplit d s c q lo hi) off region
        path).1 + splitsIn (partitionNode c (displace q (off + d)) (fuel + 1)
          (nodeSplit d s c q lo hi) off region path).2 ≤ Tree.splits lo + Tree.splits hi := by
  obtain ⟨hglo, hghi⟩ := Good.children h
  obtain ⟨-, ⟨hq, hlo, hhi, hbelow, habove, hplaced, -⟩, hregion⟩ := h
  have hq' := PivotKey.isPivot_displace q (off + d) hq
  simp only [depth] at hfuel
  have hl := partitionNode_spec c hq' fuel lo (off + d) _ (0 :: path) (by omega) hglo
  have hh := partitionNode_spec c hq' fuel hi (off + d) _ (1 :: path) (by omega) hghi
  have hnone : (regionSide region c (displace q (off + d))).or
      (summarySide (V := V) s.measure (off + d) c (displace q (off + d))) = none := by
    by_contra hsome
    obtain ⟨b, hb⟩ := Option.ne_none_iff_exists'.1 hsome
    have hall : ∀ e ∈ slotsAt (nodeSplit d s c q lo hi) off,
        isBelow c (displace q (off + d)) e.1 = b := by
      intro e he
      rcases Option.or_eq_some_iff.1 hb with hr | ⟨-, hm⟩
      · exact (hregion e he).side hq' hr
      · exact hplaced c _ b hq' hm e he
    obtain ⟨e, he⟩ := List.exists_mem_of_ne_nil _ hlo.slots_ne_nil
    obtain ⟨f, hf⟩ := List.exists_mem_of_ne_nil _ hhi.slots_ne_nil
    have hbe := hall e (by rw [slotsAt]; exact List.mem_append_left _ he)
    have hbf := hall f (by rw [slotsAt]; exact List.mem_append_right _ hf)
    rw [hbelow e he] at hbe
    rw [habove f hf] at hbf
    exact absurd (hbe.trans hbf.symm) (by decide)
  simp only [partitionNode, localMeasure, sum, Option.map_some, dsp, hnone]
  exact (hl.append hh).splits

omit [PivotKey K] [Measure K V M] in
/-- The split a side is divided at is one of its pieces. -/
theorem splitter_mem {ps : List (Piece K V M)} {n : Nat}
    (h : splitter ps = some (n, col, pivot)) : ∃ x ∈ ps, splitOf x = some (n, col, pivot) := by
  have fold : ∀ (l : List (Nat × Nat × K)) (best : Option (Nat × Nat × K)) (r : Nat × Nat × K),
      l.foldl (fun best s => if best.all (·.1 ≤ s.1) then some s else best) best = some r →
        best = some r ∨ r ∈ l := by
    intro l
    induction l with
    | nil => exact fun best r hr => Or.inl hr
    | cons s l ih =>
      intro best r hr
      rcases ih _ r hr with hbest | hmem
      · simp only at hbest
        by_cases hall : best.all (·.1 ≤ s.1) = true
        · rw [if_pos hall] at hbest
          exact Or.inr (by simp [Option.some.inj hbest])
        · rw [if_neg hall] at hbest
          exact Or.inl hbest
      · exact Or.inr (by simp [hmem])
  rcases fold _ none _ h with hnone | hmem
  · cases hnone
  · exact List.mem_filterMap.1 hmem

/-- A split's pivot is a pivot where it stands, and dividing its side there opens
it. -/
theorem partition_opens {ps : List (Piece K V M)} (hps : ∀ x ∈ ps, x.Good root) {x : Piece K V M}
    {n : Nat} (hx : x ∈ ps) (hsplit : splitOf x = some (n, col, pivot)) :
    PivotKey.isPivot pivot ∧
      splitsIn (partition ps col pivot).1 + splitsIn (partition ps col pivot).2 + 1
        ≤ splitsIn ps := by
  have hpivot : PivotKey.isPivot pivot ∧ splitsIn (partitionPiece col pivot x).1
      + splitsIn (partitionPiece col pivot x).2 + 1 ≤ x.splits := by
    have hgood := hps x hx
    cases x with
    | entry k v => cases hsplit
    | node t off region path =>
      cases t with
      | nodeSplit d s c q lo hi =>
        simp only [splitOf, Option.some.injEq, Prod.mk.injEq] at hsplit
        obtain ⟨-, rfl, rfl⟩ := hsplit
        refine ⟨PivotKey.isPivot_displace _ _ hgood.2.1.1, ?_⟩
        have hopen := partitionNode_opens (max lo.depth hi.depth) le_rfl hgood
        simp only [Piece.splits, Tree.splits, partitionPiece, depth]
        omega
      | _ => cases hsplit
  refine ⟨hpivot.1, ?_⟩
  obtain ⟨l, r, rfl⟩ := List.append_of_mem hx
  have hl : Divides root col pivot (rowsIn l) (splitsIn l) (partition l col pivot) :=
    partition_spec hpivot.1 fun z hz => hps z (by simp [hz])
  have hr : Divides root col pivot (rowsIn r) (splitsIn r) (partition r col pivot) :=
    partition_spec hpivot.1 fun z hz => hps z (by simp [hz])
  have hsum := hpivot.2
  have hls := hl.splits
  have hrs := hr.splits
  simp only [partition, List.flatMap_append, List.flatMap_cons, splitsIn_append,
    splitsIn_cons] at hls hrs ⊢
  omega

/-! ## Cancelling -/

omit [Displace K] [PivotKey K] [Measure K V M] in
/-- A position found on the other side is a node there, marked as asked. -/
theorem lastNode_spec {ys : List (Piece K V M)} {off : Dsp} {marked : Path → Bool} {j : Nat}
    (h : lastNode ys off marked = some j) : ∃ t off' region q,
      ys[j]? = some (.node t off' region q) ∧ t.isEmpty = false ∧ off' + t.dsp = off ∧
        marked q = true := by
  obtain ⟨⟨y, i⟩, hlast, rfl⟩ := Option.map_eq_some_iff.1 h
  have hmem := List.mem_filter.1 (List.mem_of_getLast? hlast)
  have hget : ys[i]? = some y := by simpa using List.mem_zipIdx_iff_getElem?.1 hmem.1
  cases y with
  | entry k v => simp at hmem
  | node t off' region q =>
    have hcond := hmem.2
    simp only [Bool.and_eq_true, Bool.not_eq_true', decide_eq_true_eq] at hcond
    exact ⟨t, off', region, q, hget, hcond.1.1, hcond.1.2, hcond.2⟩

variable {a b : Tree K V M} {A B : Marks}

/-- A piece cancels with one of the same rows. -/
theorem hit_spec (hAB : A.Faithful B a b) {ys : List (Piece K V M)} {x : Piece K V M} {j : Nat}
    (hx : x.Good a) (hys : ∀ y ∈ ys, y.Good b) (h : hit A B ys x = some j) :
    ∃ y, ys[j]? = some y ∧ y.rows = x.rows := by
  cases x with
  | entry k v => cases h
  | node t off region p =>
    simp only [hit, Option.ite_none_left_eq_some] at h
    obtain ⟨hne, h⟩ := h
    have same : ∀ u off' region' q, ys[j]? = some (.node u off' region' q) → u.isEmpty = false →
        off' + u.dsp = off + t.dsp → sameNode A B p q = true →
          ∃ y, ys[j]? = some y ∧ y.rows = Piece.rows (.node t off region p) := by
      intro u off' region' q hget hu hoff hnode
      have hgood := hys _ (List.mem_of_getElem? hget)
      have hsame : sameAt A B t off p u off' q = true := by
        simp [sameAt, hoff, hu, hnode, hne]
      exact ⟨_, hget, by rw [Piece.rows, Piece.rows, sameAt_slots hAB hx.1 hgood.1 hsame]⟩
    rcases Option.or_eq_some_iff.1 h with hptr | ⟨-, hck⟩
    · obtain ⟨u, off', region', q, hget, hu, hoff, hq⟩ := lastNode_spec hptr
      exact same u off' region' q hget hu hoff (by simp [sameNode, hq])
    · obtain ⟨ck, hp, hck⟩ := Option.bind_eq_some_iff.1 hck
      obtain ⟨u, off', region', q, hget, hu, hoff, hq⟩ := lastNode_spec hck
      exact same u off' region' q hget hu hoff (by simp_all [sameNode])

omit [Displace K] [PivotKey K] [Measure K V M] in
/-- The pieces kept when one more position goes. -/
theorem keptAt_cons {ys : List (Piece K V M)} {gone : List Nat} {j : Nat} {y : Piece K V M}
    (hj : gone.contains j = false) (hy : ys[j]? = some y) :
    (keptAt ys gone).Perm (y :: keptAt ys (j :: gone)) := by
  have only : ∀ (l : List (Piece K V M)) (n i : Nat) (z : Piece K V M), l[i]? = some z →
      ((l.zipIdx n).filter fun y => y.2 = n + i) = [(z, n + i)] := by
    intro l
    induction l with
    | nil => intro n i z h; simp at h
    | cons z l ih =>
      intro n i w h
      rw [List.zipIdx_cons]
      cases i with
      | zero =>
        obtain rfl : z = w := by simpa using h
        have hnil : ((l.zipIdx (n + 1)).filter fun y => y.2 = n) = [] := by
          refine filter_eq_nil_of fun e he => ?_
          have := List.le_snd_of_mem_zipIdx he
          simp
          omega
        simp [hnil]
      | succ i =>
        have hrest := ih (n + 1) i w (by simpa using h)
        rw [List.filter_cons_of_neg (by simp)]
        simpa [Nat.add_assoc, Nat.add_comm 1 i] using hrest
  have hone := only ys 0 j y hy
  rw [Nat.zero_add] at hone
  have hsplit := (List.filter_append_perm (fun y : Piece K V M × Nat => decide (y.2 = j))
    (ys.zipIdx.filter fun y => !gone.contains y.2)).symm
  rw [List.filter_filter, List.filter_filter] at hsplit
  have hleft : (ys.zipIdx.filter fun y => decide (y.2 = j) && !gone.contains y.2) = [(y, j)] := by
    rw [← hone]
    refine List.filter_congr fun e _ => ?_
    by_cases he : e.2 = j
    · rw [he, hj]
      simp
    · simp [he]
  rw [hleft] at hsplit
  have hmap := hsplit.map Prod.fst
  refine hmap.trans (List.Perm.of_eq ?_)
  rw [List.map_append]
  simp only [keptAt, List.map_cons, List.map_nil, List.singleton_append]
  congr 2
  refine List.filter_congr fun e _ => ?_
  simp only [List.contains_cons, Bool.not_or]
  by_cases he : e.2 = j <;> simp [he]

/-- What cancelling leaves: both sides lose the same rows. -/
theorem cancel_spec (hAB : A.Faithful B a b) {ys : List (Piece K V M)}
    (hys : ∀ y ∈ ys, y.Good b) (xs : List (Piece K V M)) (gone : List Nat)
    (hxs : ∀ x ∈ xs, x.Good a) :
    (cancel A B ys xs gone).1.Sublist xs ∧
      ∃ c, (rowsIn xs).Perm (rowsIn (cancel A B ys xs gone).1 ++ c) ∧
        (rowsIn (keptAt ys gone)).Perm (rowsIn (keptAt ys (cancel A B ys xs gone).2) ++ c) := by
  induction xs generalizing gone with
  | nil => exact ⟨List.Sublist.refl _, [], by simp [cancel], by simp [cancel]⟩
  | cons x xs ih =>
    have hrest : ∀ x ∈ xs, x.Good a := fun z hz => hxs z (by simp [hz])
    rw [cancel]
    cases hhit : (hit A B ys x).filter fun j => !gone.contains j with
    | none =>
      obtain ⟨hsub, c, hcx, hcy⟩ := ih gone hrest
      refine ⟨hsub.cons_cons x, c, ?_, hcy⟩
      simpa [List.append_assoc] using hcx.append_left x.rows
    | some j =>
      obtain ⟨hsub, c, hcx, hcy⟩ := ih (j :: gone) hrest
      obtain ⟨hj, hgone⟩ := Option.filter_eq_some_iff.1 hhit
      obtain ⟨y, hy, hrows⟩ := hit_spec hAB (hxs x (by simp)) hys hj
      refine ⟨hsub.cons x, x.rows ++ c, ?_, ?_⟩
      · rw [rowsIn_cons]
        exact (hcx.append_left x.rows).trans (List.perm_append_comm_assoc _ _ _)
      · have hkept := (keptAt_cons (by simpa using hgone) hy).flatMap_right Piece.rows
        refine hkept.trans ?_
        rw [List.flatMap_cons, hrows]
        exact (hcy.append_left x.rows).trans (List.perm_append_comm_assoc _ _ _)

omit [Displace K] [PivotKey K] [Measure K V M] in
theorem keptAt_sublist (ys : List (Piece K V M)) (gone : List Nat) :
    (keptAt ys gone).Sublist ys := by
  have h := (List.filter_sublist (p := fun y : Piece K V M × Nat => !gone.contains y.2)
    (l := ys.zipIdx)).map Prod.fst
  rwa [List.zipIdx_map_fst] at h

omit [Displace K] [PivotKey K] [Measure K V M] in
theorem keptAt_nil (ys : List (Piece K V M)) : keptAt ys [] = ys := by
  simp [keptAt]

omit [Displace K] [PivotKey K] [Measure K V M] in
theorem splitsIn_sublist {xs ys : List (Piece K V M)} (h : xs.Sublist ys) :
    splitsIn xs ≤ splitsIn ys := by
  induction h with
  | slnil => exact le_rfl
  | cons x _ ih =>
    rw [splitsIn_cons]
    omega
  | cons_cons x _ ih =>
    rw [splitsIn_cons, splitsIn_cons]
    omega

/-- The rows of good pieces, in key order. -/
theorem flat_spec {root : Tree K V M} {ps : List (Piece K V M)} (hps : ∀ x ∈ ps, x.Good root)
    (hd : Distinct (rowsIn ps)) : (flat ps).Perm (rowsIn ps) ∧ Sorted (flat ps) := by
  have hall : ps.flatMap Piece.entries = rowsIn ps := by
    refine List.flatMap_congr fun x hx => ?_
    cases x with
    | entry k v => rfl
    | node t off region path => exact (hps _ hx).2.1.collectAll_eq
  have hperm : (flat ps).Perm (rowsIn ps) := hall ▸ sortKeys_perm _
  exact ⟨hperm, sorted_sortKeys (by rw [hall]; exact hd)⟩

/-! ## The comparison -/

variable [DecidableEq V]

/-- **The comparison of two sides is the difference of their rows.** -/
theorem diffPieces_spec (hAB : A.Faithful B a b) (fuel : Nat) (xs ys : List (Piece K V M))
    (hxs : ∀ x ∈ xs, x.Good a) (hys : ∀ y ∈ ys, y.Good b) (hdx : Distinct (rowsIn xs))
    (hdy : Distinct (rowsIn ys)) (hfuel : splitsIn xs + splitsIn ys < fuel) :
    ExactDiff (rowsIn xs) (rowsIn ys) (diffPieces A B fuel xs ys) := by
  induction fuel generalizing xs ys with
  | zero => omega
  | succ fuel ih =>
    obtain ⟨hsubx, c, hpx, hpy⟩ := cancel_spec hAB hys xs [] hxs
    have hsuby := keptAt_sublist ys (cancel A B ys xs []).2
    rw [keptAt_nil] at hpy
    generalize hxs' : (cancel A B ys xs []).1 = xs' at hsubx hpx
    generalize hys' : keptAt ys (cancel A B ys xs []).2 = ys' at hsuby hpy
    have hgx : ∀ x ∈ xs', x.Good a := fun x hx => hxs x (hsubx.subset hx)
    have hgy : ∀ y ∈ ys', y.Good b := fun y hy => hys y (hsuby.subset hy)
    have hdx' : Distinct (rowsIn xs') := by
      have hperm := (hpx.map Prod.fst).nodup_iff.1 hdx
      rw [List.map_append] at hperm
      exact hperm.of_append_left
    have hdy' : Distinct (rowsIn ys') := by
      have hperm := (hpy.map Prod.fst).nodup_iff.1 hdy
      rw [List.map_append] at hperm
      exact hperm.of_append_left
    have hsx := splitsIn_sublist hsubx
    have hsy := splitsIn_sublist hsuby
    refine ExactDiff.shared ?_ hdx hdy hpx hpy
    rw [diffPieces, cancelShared, hxs', hys']
    simp only
    split
    · rename_i hempty
      simp only [Bool.and_eq_true, List.isEmpty_iff] at hempty
      obtain ⟨rfl, rfl⟩ := hempty
      exact ⟨List.nodup_nil, fun k x y => by simp [rowsIn, lookup]; grind⟩
    · cases hsplit : splitter (xs' ++ ys') with
      | none =>
        obtain ⟨hfx, hox⟩ := flat_spec hgx hdx'
        obtain ⟨hfy, hoy⟩ := flat_spec hgy hdy'
        exact (exact_mergeDiff hox hoy).congr (lookup_perm hox.distinct hfx)
          (lookup_perm hoy.distinct hfy)
      | some s =>
        obtain ⟨n, col, pivot⟩ := s
        obtain ⟨z, hz, hzs⟩ := splitter_mem hsplit
        have hpivot : PivotKey.isPivot pivot := by
          rcases List.mem_append.1 hz with hz | hz
          · exact (partition_opens hgx hz hzs).1
          · exact (partition_opens hgy hz hzs).1
        have hx : Divides a col pivot (rowsIn xs') (splitsIn xs') (partition xs' col pivot) :=
          partition_spec hpivot hgx
        have hy : Divides b col pivot (rowsIn ys') (splitsIn ys') (partition ys' col pivot) :=
          partition_spec hpivot hgy
        -- one side or the other opens the split it holds
        have hless : splitsIn (partition xs' col pivot).1 + splitsIn (partition xs' col pivot).2
            + (splitsIn (partition ys' col pivot).1 + splitsIn (partition ys' col pivot).2) + 1
              ≤ splitsIn xs' + splitsIn ys' := by
          have := hx.splits
          have := hy.splits
          rcases List.mem_append.1 hz with hz | hz
          · have := (partition_opens hgx hz hzs).2
            omega
          · have := (partition_opens hgy hz hzs).2
            omega
        have hlow := ih _ _ hx.good.1 hy.good.1
          (by rw [hx.below]; exact hdx'.sublist List.filter_sublist)
          (by rw [hy.below]; exact hdy'.sublist List.filter_sublist) (by omega)
        have hhigh := ih _ _ hx.good.2 hy.good.2
          (by rw [hx.above]; exact hdx'.sublist List.filter_sublist)
          (by rw [hy.above]; exact hdy'.sublist List.filter_sublist) (by omega)
        rw [hx.below, hy.below] at hlow
        rw [hx.above, hy.above] at hhigh
        exact ExactDiff.parts (isBelow col pivot) hlow hhigh

omit [DecidableEq V] in
/-- A k-d tree as one good piece. -/
theorem side_good (ha : KdSound a) : (∀ x ∈ Piece.side a, x.Good a) ∧
    rowsIn (Piece.side a) = rows a ∧ splitsIn (Piece.side a) ≤ Tree.splits a ∧
      Distinct (rows a) := by
  rcases ha with rfl | ha
  · exact ⟨by simp [Piece.side, isEmpty], rfl, Nat.zero_le _, List.nodup_nil⟩
  · have hside : Piece.side a = [.node a 0 [] []] := by simp [Piece.side, ha.isEmpty]
    rw [hside]
    refine ⟨?_, ?_, ?_, ?_⟩
    · intro x hx
      obtain rfl := List.mem_singleton.1 hx
      exact ⟨rfl, ha, fun e _ => by simp [InRegion]⟩
    · simp [rowsIn, Piece.rows, rows, slots]
    · simp [splitsIn, Piece.splits]
    · exact List.Nodup.sublist (rowsOf_keys_sublist _) ha.distinct

/-- **The difference of two well-formed k-d trees** is exact. -/
theorem kdDiff_spec (hAB : A.Faithful B a b) (ha : KdSound a) (hb : KdSound b) :
    ExactDiff (rows a) (rows b) (kdDiff A B a b) := by
  obtain ⟨hga, hra, hsa, hda⟩ := side_good ha
  obtain ⟨hgb, hrb, hsb, hdb⟩ := side_good hb
  have hspec := diffPieces_spec hAB (Tree.splits a + Tree.splits b + 1) _ _ hga hgb
    (by rwa [hra]) (by rwa [hrb]) (by omega)
  rwa [hra, hrb] at hspec

end Tree

end Grmpl

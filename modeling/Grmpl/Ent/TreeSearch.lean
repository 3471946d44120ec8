import Grmpl.Ent.TreeReads

/-!
# The search by measure and the iterator

The two reads that walk a whole tree. A search prunes every subtree and run
whose measure its test turns away; it loses nothing as long as the test is sound.
The iterator is a stack machine; what it has left to yield is a function of its
state, and every turn of its loop yields it or moves it closer.

* `Tree.TestSound`, `Tree.search_spec`.
* `Tree.Iter.left`, `Tree.Iter.cost`, `Tree.iter_spec`.
-/

open OrdMap Separated

namespace Grmpl

namespace Tree

variable {K V M : Type} [Displace K] [Measure K V M] {p : Bool} {h : Nat} {U : K → Prop}
  {t : Tree K V M}

/-! ## The search -/

/-- A node's measure in the frame of the query, as a search tests it. -/
def measureAt (m : M) (off : Dsp) : M := if off = 0 then m else Measure.displaceM K V m off

/-- The test is sound on a tree: it admits every node and every run that holds a
row the search keeps. -/
def TestSound (admits : M → Bool) (keep : K → V → Bool) : Nat → Tree K V M → Dsp → Prop
  | 0, _, _ => True
  | fuel + 1, t, off =>
      (∀ m, t.localMeasure = some m → (∃ e ∈ Leaf.rowsOf (slotsAt t off), keep e.1 e.2) →
        admits (measureAt (K := K) (V := V) m (off + t.dsp))) ∧
      match t with
      | nodeLeaf d _ items => ∀ it ∈ items, (∃ e ∈ it.eachRow (off + d), keep e.1 e.2) →
          admits (Measure.displaceM K V (it.measure M) (off + d))
      | nodeInternal d _ _ children => ∀ c ∈ children, TestSound admits keep fuel c (off + d)
      | _ => True

/-- The rows of a leaf, item by item. -/
theorem leaf_rows {items : List (Item K V)} (hraw : ∀ it ∈ items, it.Ok) (off : Dsp) :
    Leaf.rowsOf (Leaf.slots (items.map (·.displaced off))) = items.flatMap (·.eachRow off) := by
  rw [Leaf.slots, List.flatMap_map, rowsOf_flatMap]
  exact List.flatMap_congr fun it hit => (Item.eachRow_eq (hraw it hit) off).symm

/-- The children of a well-formed node, in its own frame. -/
theorem Node.children {d : Dsp} {s : Summary M} {keys : List K} {children : List (Tree K V M)}
    (ht : Node p h U (nodeInternal d s keys children)) :
    ∃ h' W, h = h' + 1 ∧ ∀ c ∈ children, Node p h' W c := by
  cases h with
  | zero => exact ht.elim
  | succ h =>
    obtain ⟨-, -, -, W, -, -, hch⟩ := ht
    exact ⟨h, W, rfl, fun c hc =>
      let ⟨_, _, ⟨hcN, _⟩, _⟩ := hch.of_mem c hc
      hcN⟩

/-- A sound search of a subtree keeps exactly the rows it should. -/
theorem searchInto_spec (admits : M → Bool) (keep : K → V → Bool) :
    ∀ (fuel h : Nat) (U : K → Prop) (t : Tree K V M) (off : Dsp), h ≤ fuel → Node p h U t →
      TestSound admits keep fuel t off →
      searchInto admits keep fuel t off
        = (Leaf.rowsOf (slotsAt t off)).filter fun e => keep e.1 e.2 := by
  intro fuel
  induction fuel with
  | zero =>
    intro h U t off hh ht
    obtain rfl : h = 0 := by omega
    cases t <;> exact ht.elim
  | succ fuel ih =>
    intro h U t off hh ht hsound
    obtain ⟨hnode, hbelow⟩ := hsound
    obtain ⟨m, hm⟩ := localMeasure_node ht
    have hpruned : admits (measureAt (K := K) (V := V) m (off + t.dsp)) = false →
        (Leaf.rowsOf (slotsAt t off)).filter (fun e => keep e.1 e.2) = [] := by
      intro hno
      refine List.filter_eq_nil_iff.2 fun e he hkeep => ?_
      rw [hnode m hm ⟨e, he, hkeep⟩] at hno
      cases hno
    unfold searchInto
    rw [hm]
    simp only
    have hat : ∀ m : M, (if off + t.dsp = 0 then m else Measure.displaceM K V m (off + t.dsp))
        = measureAt (K := K) (V := V) m (off + t.dsp) := fun _ => rfl
    rw [hat]
    by_cases hadmit : admits (measureAt (K := K) (V := V) m (off + t.dsp)) = true
    swap
    · rw [if_neg hadmit, hpruned (by simpa using hadmit)]
    rw [if_pos hadmit]
    cases t with
    | nil => cases h <;> exact ht.elim
    | nodeSplit d s col pivot lo hi => cases h <;> exact ht.elim
    | nodeLeaf d s items =>
      have hraw : ∀ it ∈ items, it.Ok := by
        cases h with
        | zero => exact ht.elim
        | succ h => exact ht.2.1.ok.items_ok
      rw [slotsAt, leaf_rows hraw, List.filter_flatMap]
      simp only [Tree.view, dsp]
      refine List.flatMap_congr fun it hit => ?_
      have hitem := hbelow it hit
      -- a run or a hole is skipped only if no row of it is kept
      have hskip : (it.rows = 0 ∨ admits (Measure.displaceM K V (it.measure M) (off + d)) = false) →
          (it.eachRow (off + d)).filter (fun e => keep e.1 e.2) = [] := by
        rintro (h0 | hno)
        · have hlen := (Leaf.Item_rows_eq (it.displaced (off + d))).1
          have hrows : (it.displaced (off + d)).rows = it.rows := by
            rw [Item.displaced_eq]
            cases it <;> rfl
          rw [hrows, h0] at hlen
          rw [Item.eachRow_eq (hraw it hit), ← Leaf.rowsOf, List.length_eq_zero_iff.1 hlen]
          rfl
        · refine List.filter_eq_nil_iff.2 fun e he hkeep => ?_
          rw [hitem ⟨e, he, hkeep⟩] at hno
          cases hno
      cases it with
      | one k v =>
        by_cases hk : keep (displace k (off + d)) v <;> simp [Item.eachRow, hk]
      | run r v =>
        simp only [Bool.or_eq_true, decide_eq_true_eq, Bool.not_eq_true']
        split
        · rename_i h0
          exact (hskip h0).symm
        · rfl
      | hole r =>
        simp only [Bool.or_eq_true, decide_eq_true_eq, Bool.not_eq_true']
        split
        · rename_i h0
          exact (hskip h0).symm
        · rfl
    | nodeInternal d s keys children =>
      obtain ⟨h', W, rfl, hchild⟩ := ht.children
      simp only [Tree.view, dsp]
      rw [slotsAt, slotsList_eq, rowsOf_flatMap, List.filter_flatMap]
      exact List.flatMap_congr fun c hc =>
        ih h' W c (off + d) (by omega) (hchild c hc) (hbelow c hc)

/-- **A test that every row it is for passes on to the measure above it is sound** on any
well-formed tree. -/
theorem testSound_of_entries [LawfulMeasure K V M] {admits : M → Bool} {keep : K → V → Bool}
    (hup : ∀ (l : List (K × V)) (e : K × V), e ∈ l → keep e.1 e.2 = true → admits (Measure.ofEntries M l) = true) :
    ∀ (fuel h : Nat) (U : K → Prop) (t : Tree K V M) (off : Dsp), Node p h U (t.relocate off) →
      TestSound admits keep fuel t off := by
  intro fuel
  induction fuel with
  | zero => exact fun _ _ _ _ _ => trivial
  | succ fuel ih =>
    intro h U t off ht
    have hnode : ∀ m, t.localMeasure = some m →
        measureAt (K := K) (V := V) m (off + t.dsp) = Measure.ofEntries M (Leaf.rowsOf (slotsAt t off)) := by
      intro m hm
      have hwhole := ht.measure_eq
      rw [slots_relocate] at hwhole
      rw [← hwhole]
      have hat : measureAt (K := K) (V := V) m (off + t.dsp) = Measure.displaceM K V m (off + t.dsp) := by
        unfold measureAt
        split_ifs with hzero
        · rw [hzero, LawfulMeasure.displace_zero]
        · rfl
      rw [hat, Int64.add_comm off]
      cases t <;> cases hm <;> rfl
    refine ⟨fun m hm ⟨e, he, hkeep⟩ => ?_, ?_⟩
    · rw [hnode m hm]
      exact hup _ e he hkeep
    · cases t with
      | nil => trivial
      | nodeSplit d s col pivot lo hi => trivial
      | nodeLeaf d s items =>
        intro it hit ⟨e, he, hkeep⟩
        have hok : it.Ok := by
          cases h with
          | zero => exact ht.elim
          | succ h => exact ht.2.1.ok.items_ok it hit
        have hrows : it.eachRow (off + d) = (Leaf.rowsOf it.slots).map fun e => (displace e.1 (off + d), e.2) := by
          rw [Item.eachRow_eq hok, Item.slots_displaced hok, ← Leaf.rowsOf_displaced]
          rfl
        rw [hrows] at he
        rw [Leaf.Item_measure_eq hok, ← Measure.ofEntries_displace]
        exact hup _ e he hkeep
      | nodeInternal d s keys children =>
        intro c hc
        cases h with
        | zero => exact ht.elim
        | succ h =>
          obtain ⟨-, -, -, U', hshift, -, hch⟩ := ht
          obtain ⟨_, _, ⟨hcN, -⟩, -⟩ := hch.of_mem c hc
          have hmoved : Node p h U (c.relocate (off + d)) := by
            rw [Int64.add_comm off]
            exact hcN.relocate hshift
          exact ih h U c (off + d) hmoved

/-- **`search`** keeps exactly the rows it should, in key order, if its test is
sound. -/
theorem search_spec (ht : Sound p U t) {admits : M → Bool} {keep : K → V → Bool}
    (hsound : TestSound admits keep t.depth t 0) :
    t.search admits keep = (rows t).filter fun e => keep e.1 e.2 := by
  unfold search
  rcases ht with rfl | ⟨h, ht⟩
  · rfl
  · rw [searchInto_spec admits keep t.depth h U t 0 ht.depth_eq.1.ge ht hsound]
    exact inKeyOrder_sorted ((sorted_rowsOf ht.sorted).filter _)

/-- A search by such a test keeps exactly the rows it should. -/
theorem search_entries [LawfulMeasure K V M] (ht : Sound p U t) {admits : M → Bool} {keep : K → V → Bool}
    (hup : ∀ (l : List (K × V)) (e : K × V), e ∈ l → keep e.1 e.2 = true → admits (Measure.ofEntries M l) = true) :
    t.search admits keep = (rows t).filter fun e => keep e.1 e.2 := by
  rcases ht with rfl | ⟨h, ht⟩
  · rfl
  · have hstay : Node p h U (t.relocate 0) := ht.relocate (Shift.zero fun _ hk => hk)
    exact search_spec (.inr ⟨h, ht⟩) (testSound_of_entries hup _ h U t 0 hstay)

/-! ## The iterator -/

omit [Measure K V M] in
theorem collectList_eq (cs : List (Tree K V M)) (off : Dsp) :
    collectList cs off = cs.flatMap (collectAll · off) := by
  induction cs with
  | nil => rfl
  | cons c cs ih => simp [collectList, ih]

/-- Every entry under a well-formed node, in the order the nodes hold them, is
its rows. -/
theorem collectAll_eq : ∀ (h : Nat) (U : K → Prop) (t : Tree K V M) (off : Dsp), Node p h U t →
    collectAll t off = Leaf.rowsOf (slotsAt t off) := by
  intro h
  induction h with
  | zero => intro U t off ht; cases t <;> exact ht.elim
  | succ h ih =>
    intro U t off ht
    cases t with
    | nil => exact ht.elim
    | nodeSplit d s col pivot lo hi => exact ht.elim
    | nodeLeaf d s items => rw [collectAll, slotsAt, leaf_rows ht.2.1.ok.items_ok]
    | nodeInternal d s keys children =>
      obtain ⟨h', W, heq, hchild⟩ := ht.children
      obtain rfl : h = h' := Nat.succ.inj heq
      rw [collectAll, slotsAt, slotsList_eq, rowsOf_flatMap, collectList_eq]
      exact List.flatMap_congr fun c hc => ih W c _ (hchild c hc)

/-- The rows a leaf being drained has left, from row `j` of its first item on. -/
def leftRows : List (Item K V) → Nat → Dsp → List (K × V)
  | .run s v :: items, j, off =>
      ((List.range' j (s.n - j)).map fun i => (displace (s.row i) off, v))
        ++ items.flatMap (·.eachRow off)
  | items, _, off => items.flatMap (·.eachRow off)

omit [Measure K V M] in
theorem leftRows_zero (items : List (Item K V)) (off : Dsp) :
    leftRows items 0 off = items.flatMap (·.eachRow off) := by
  match items with
  | [] => rfl
  | .one k v :: items => rfl
  | .run s v :: items => simp [leftRows, Item.eachRow, List.range_eq_range']
  | .hole s :: items => rfl

/-- The next row of a leaf is the first it has left. -/
theorem nextRow_spec (off : Dsp) : ∀ (items : List (Item K V)) (j : Nat),
    (nextRow items j off = none ∧ leftRows items j off = []) ∨
      ∃ e items' j', nextRow items j off = some (e, items', j') ∧
        leftRows items j off = e :: leftRows items' j' off := by
  intro items
  induction items with
  | nil => exact fun j => Or.inl ⟨rfl, rfl⟩
  | cons it items ih =>
    intro j
    cases it with
    | one k v => exact Or.inr ⟨_, items, 0, rfl, by rw [leftRows_zero]; rfl⟩
    | run s v =>
      unfold nextRow
      by_cases hj : j < s.n
      · right
        refine ⟨_, .run s v :: items, j + 1, if_pos hj, ?_⟩
        rw [leftRows, show s.n - j = s.n - (j + 1) + 1 by omega, List.range'_succ]
        rfl
      · rw [if_neg hj]
        have hnone : leftRows (.run s v :: items) j off = leftRows items 0 off := by
          rw [leftRows, leftRows_zero, show s.n - j = 0 by omega]
          rfl
        rw [hnone]
        exact ih 0
    | hole s =>
      unfold nextRow
      have hnone : leftRows (.hole s :: items) j off = leftRows items 0 off := by
        rw [leftRows_zero]
        rfl
      rw [hnone]
      exact ih 0

/-- What an iterator has left to yield. -/
def Iter.left (it : Iter K V M) : List (K × V) :=
  (it.leaf.elim [] fun l => leftRows l.1 l.2.1 l.2.2) ++ it.sorted ++
    it.stack.flatMap fun f => collectList f.1 f.2

/-- The turns of its loop an iterator has left. -/
def Iter.cost (it : Iter K V M) : Nat :=
  (it.leaf.elim 0 fun l => (leftRows l.1 l.2.1 l.2.2).length + 1) + it.sorted.length +
    (it.stack.map fun f => turnsList f.1 + 1).sum

/-- An iterator between leaves, its stack of well-formed subtrees. -/
structure Iter.Good (it : Iter K V M) : Prop where
  sorted : it.sorted = []
  stack : ∀ f ∈ it.stack, ∀ c ∈ f.1, ∃ p h U, Node p h U c

/-- Walking to a subtree's first leaf puts its rows first and costs no more turns
than the subtree's. -/
theorem iterDescend_spec : ∀ (fuel h : Nat) (p : Bool) (U : K → Prop) (t : Tree K V M)
    (it : Iter K V M) (off : Dsp), h ≤ fuel → Node p h U t → it.Good → it.leaf = none →
      (Iter.descend it fuel t off).Good ∧
        (Iter.descend it fuel t off).left = collectAll t off ++ it.left ∧
        (Iter.descend it fuel t off).cost + 1 ≤ it.cost + turns t := by
  intro fuel
  induction fuel with
  | zero =>
    intro h p U t it off hh ht
    obtain rfl : h = 0 := by omega
    cases t <;> exact ht.elim
  | succ fuel ih =>
    intro h p U t it off hh ht hgood hleaf
    cases t with
    | nil => cases h <;> exact ht.elim
    | nodeSplit d s col pivot lo hi => cases h <;> exact ht.elim
    | nodeLeaf d s items =>
      have hlen : (items.flatMap (·.eachRow (off + d))).length = (items.map Item.rows).sum := by
        rw [List.length_flatMap]
        congr 1
        refine List.map_congr_left fun x _ => ?_
        cases x <;> simp [Item.eachRow, Item.rows]
      refine ⟨⟨hgood.sorted, hgood.stack⟩, ?_, ?_⟩
      · simp [Iter.descend, Tree.view, dsp, Iter.left, hleaf, leftRows_zero, collectAll,
          hgood.sorted]
      · simp only [Iter.descend, Tree.view, dsp, Iter.cost, hleaf, Option.elim, leftRows_zero,
          hlen, turns]
        omega
    | nodeInternal d s keys children =>
      obtain ⟨h', W, rfl, hchild⟩ := ht.children
      have hne : children ≠ [] := by
        obtain ⟨h2, -⟩ := ht
        rintro rfl
        simp at h2
      obtain ⟨c, cs, rfl⟩ := List.exists_cons_of_ne_nil hne
      have hgood' : ({ it with stack := (cs, off + d) :: it.stack } : Iter K V M).Good :=
        ⟨hgood.sorted, fun f hf => by
          rcases List.mem_cons.1 hf with rfl | hf
          · exact fun x hx => ⟨p, h', W, hchild x (by simp [hx])⟩
          · exact hgood.stack f hf⟩
      obtain ⟨hg, hl, hc⟩ := ih h' p W c _ (off + d) (by omega) (hchild c (by simp)) hgood' hleaf
      simp only [Iter.descend, Tree.view, dsp]
      refine ⟨hg, hl.trans ?_, ?_⟩
      · simp [Iter.left, hleaf, collectAll, collectList, hgood.sorted]
      · refine hc.trans ?_
        simp only [Iter.cost, List.map_cons, List.sum_cons, turns, turnsList]
        omega

/-- With turns enough for what it has left, an iterator yields just that. -/
theorem drain_spec : ∀ (fuel : Nat) (it : Iter K V M), it.Good → it.cost < fuel →
    Iter.drain fuel it = it.left := by
  intro fuel
  induction fuel with
  | zero => intro it _ hlt; omega
  | succ fuel ih =>
    rintro ⟨stack, leaf, sorted⟩ ⟨hsorted, hstack⟩ hlt
    obtain rfl : sorted = [] := hsorted
    simp only at hstack
    cases leaf with
    | some l =>
      obtain ⟨items, j, off⟩ := l
      rcases nextRow_spec off items j with ⟨hnone, hleft⟩ | ⟨e, items', j', hsome, hleft⟩
      · simp only [Iter.drain, hnone]
        rw [ih _ ⟨rfl, hstack⟩ (by simp only [Iter.cost, Option.elim] at hlt ⊢; omega)]
        simp [Iter.left, hleft]
      · simp only [Iter.drain, hsome]
        rw [ih _ ⟨rfl, hstack⟩ (by
          simp only [Iter.cost, Option.elim, hleft, List.length_cons] at hlt ⊢; omega)]
        simp [Iter.left, hleft]
    | none =>
      cases stack with
      | nil => rfl
      | cons f rest =>
        obtain ⟨cs, off⟩ := f
        have hrest : ∀ f ∈ rest, ∀ c ∈ f.1, ∃ p h U, Node p h U c :=
          fun f hf => hstack f (by simp [hf])
        cases cs with
        | nil =>
          simp only [Iter.drain]
          rw [ih _ ⟨rfl, hrest⟩ (by
            simp only [Iter.cost, Option.elim, List.map_cons, List.sum_cons] at hlt ⊢
            omega)]
          simp [Iter.left, collectList]
        | cons c cs =>
          obtain ⟨p, h, U, hc⟩ := hstack (c :: cs, off) (by simp) c (by simp)
          have hgood : (⟨(cs, off) :: rest, none, []⟩ : Iter K V M).Good :=
            ⟨rfl, fun f hf => by
              rcases List.mem_cons.1 hf with rfl | hf
              · exact fun x hx => hstack (c :: cs, off) (by simp) x (by simp [hx])
              · exact hrest f hf⟩
          obtain ⟨hg, hleft, hcost⟩ :=
            iterDescend_spec c.depth h p U c _ off hc.depth_eq.1.ge hc hgood rfl
          simp only [Iter.drain]
          rw [ih _ hg, hleft]
          · simp [Iter.left, collectList]
          · simp only [Iter.cost, Option.elim, List.map_cons, List.sum_cons,
              turnsList] at hlt hcost ⊢
            omega

/-- **`iter`** yields the rows in key order. -/
theorem iter_spec (ht : Sound p U t) : t.iter = rows t := by
  rcases ht with rfl | ⟨h, ht⟩
  · rfl
  · have hempty : ({} : Iter K V M).Good := ⟨rfl, by simp⟩
    obtain ⟨hg, hleft, hcost⟩ :=
      iterDescend_spec t.depth h p U t {} 0 ht.depth_eq.1.ge ht hempty rfl
    unfold iter
    rw [drain_spec _ _ hg, hleft, collectAll_eq h U t 0 ht]
    · simp [Iter.left, rows, slots]
    · have hzero : ({} : Iter K V M).cost = 0 := rfl
      omega

end Tree

end Grmpl

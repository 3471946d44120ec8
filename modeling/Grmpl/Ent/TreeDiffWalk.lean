import Grmpl.Ent.TreeDiff
import Grmpl.Ent.TreeGraft
import Grmpl.Ent.TreeSearch
import Grmpl.Lib.MapDiff

/-!
# The walk of two trees is their difference

A frontier means the slots its heads hold, in order; it is well formed when its
heads are subtrees of the tree it came from, each in strict key order after the
one before. Every step of the walk keeps both frontiers well formed, makes one
of them shorter, and is one step of the merge of the two maps.

* `Tree.Frontier`: the invariant of a frontier.
* `Tree.openOnto_spec`, `Tree.advance_spec`, `Tree.emit_spec`: what a step does
  to a frontier.
* `Tree.StepCase`: what the choice of a step says of the two heads.
* `Tree.diffInto_spec`: the walk is the merge.
-/

open OrdMap Separated

namespace Grmpl

namespace Tree

variable {K V M : Type} [Displace K] [Measure K V M]

/-- The slots a head holds, in the absolute frame. -/
def Head.slots : Head K V M → List (K × Option V)
  | .entry k off v => [(displace k off, some v)]
  | .run s v off i => (List.range' i (s.n - i)).map fun j => (displace (s.row j) off, some v)
  | .node t off _ _ => slotsAt t off

/-- The steps a walk may take over a head. -/
def Head.cost : Head K V M → Nat
  | .entry .. => 1
  | .run s _ _ i => s.n - i
  | .node t .. => turns t

/-- A head of a frontier of `root`: a run with rows left, or a subtree found at
its path, well formed where it stands and bounded below by its separator. -/
def Head.Good (p : Bool) (root : Tree K V M) : Head K V M → Prop
  | .entry .. => True
  | .run s _ _ i => fits s.first s.stride ∧ i < s.n
  | .node t off lo path => root.nodeAt path = some t ∧
      (∃ h U, Node p h U t ∧ Shift off U anyKey) ∧
      ∀ l ∈ lo, ∀ e ∈ slotsAt t off, displace l.1 l.2 ≤ e.1

/-- The slots a frontier holds. -/
def slotsOf (xs : List (Head K V M)) : List (K × Option V) := xs.flatMap Head.slots

/-- The rows a frontier holds. -/
def rowsOn (xs : List (Head K V M)) : List (K × V) := Leaf.rowsOf (slotsOf xs)

/-- The steps a walk may take over a frontier. -/
def costOf (xs : List (Head K V M)) : Nat := (xs.map Head.cost).sum

/-- A well-formed frontier: good heads, in key order. -/
structure Frontier (p : Bool) (root : Tree K V M) (xs : List (Head K V M)) : Prop where
  heads : ∀ x ∈ xs, x.Good p root
  sorted : Sorted (slotsOf xs)

variable {p q : Bool} {root : Tree K V M} {x y : Head K V M} {xs ys : List (Head K V M)}

omit [Measure K V M] in
@[simp] theorem slotsOf_cons (x : Head K V M) (xs : List (Head K V M)) :
    slotsOf (x :: xs) = x.slots ++ slotsOf xs := rfl

omit [Measure K V M] in
@[simp] theorem slotsOf_append (xs ys : List (Head K V M)) :
    slotsOf (xs ++ ys) = slotsOf xs ++ slotsOf ys := by
  simp [slotsOf]

omit [Displace K] [Measure K V M] in
@[simp] theorem costOf_cons (x : Head K V M) (xs : List (Head K V M)) :
    costOf (x :: xs) = x.cost + costOf xs := by
  simp [costOf]

omit [Displace K] [Measure K V M] in
@[simp] theorem costOf_append (xs ys : List (Head K V M)) :
    costOf (xs ++ ys) = costOf xs + costOf ys := by
  simp [costOf]

theorem Frontier.tail (h : Frontier p root (x :: xs)) : Frontier p root xs :=
  ⟨fun y hy => h.heads y (by simp [hy]), (sorted_append.1 h.sorted).2.1⟩

/-- Heads put in a head's place, with some of its slots, leave a frontier well
formed. -/
theorem Frontier.replace {zs : List (Head K V M)} (h : Frontier p root (x :: xs))
    (hz : ∀ z ∈ zs, z.Good p root) (hsub : (slotsOf zs).Sublist x.slots) :
    Frontier p root (zs ++ xs) := by
  refine ⟨fun z hzs => ?_, ?_⟩
  · rcases List.mem_append.1 hzs with hzs | hzs
    · exact hz z hzs
    · exact h.tail.heads z hzs
  · have hs : Sorted (x.slots ++ slotsOf xs) := h.sorted
    rw [slotsOf_append]
    exact hs.sublist (hsub.append (List.Sublist.refl _))

/-! ## Opening a node -/

/-- The head an item of a leaf becomes. -/
def itemHead (off : Dsp) : Item K V → Option (Head K V M)
  | .one k v => some (.entry k off v)
  | .run s v => some (.run s v off 0)
  | .hole _ => none

omit [Measure K V M] in
/-- An item's head holds the item's rows. -/
theorem itemHead_slots {it : Item K V} (hit : it.Ok) (off : Dsp) :
    ((itemHead off it : Option (Head K V M)).elim [] Head.slots).Sublist (it.displaced off).slots ∧
      Leaf.rowsOf ((itemHead off it : Option (Head K V M)).elim [] Head.slots)
        = Leaf.rowsOf (it.displaced off).slots := by
  rw [Item.displaced_eq]
  cases it with
  | one k v => exact ⟨List.Sublist.refl _, rfl⟩
  | run s v =>
    have hslots : (Head.run s v off 0 : Head K V M).slots
        = (Item.run (s.displaced off) v : Item K V).slots := by
      rw [Head.slots, Item.slots, Span.keys_displaced hit.1, Span.keys, List.range_eq_range',
        List.map_map, List.map_map, Nat.sub_zero]
      rfl
    simp only [itemHead, Option.elim]
    exact hslots ▸ ⟨List.Sublist.refl _, rfl⟩
  | hole s =>
    refine ⟨List.nil_sublist _, ?_⟩
    simp [itemHead, Leaf.rowsOf, Item.slots, List.filterMap_map]

omit [Measure K V M] in
/-- The heads of a leaf's items hold the leaf's rows. -/
theorem itemHeads_slots {items : List (Item K V)} (hok : ∀ it ∈ items, it.Ok) (off : Dsp) :
    (slotsOf (items.filterMap (itemHead off) : List (Head K V M))).Sublist
        (Leaf.slots (items.map (·.displaced off))) ∧
      rowsOn (items.filterMap (itemHead off) : List (Head K V M))
        = Leaf.rowsOf (Leaf.slots (items.map (·.displaced off))) := by
  induction items with
  | nil => exact ⟨List.Sublist.refl _, rfl⟩
  | cons it items ih =>
    obtain ⟨hsub, hrows⟩ := ih fun i hi => hok i (by simp [hi])
    obtain ⟨hsub₁, hrows₁⟩ := itemHead_slots (M := M) (hok it (by simp)) off
    have hcons : slotsOf ((it :: items).filterMap (itemHead off) : List (Head K V M))
        = (itemHead off it : Option (Head K V M)).elim [] Head.slots
          ++ slotsOf (items.filterMap (itemHead off) : List (Head K V M)) := by
      rw [List.filterMap_cons]
      cases itemHead off it <;> simp
    rw [rowsOn] at hrows ⊢
    rw [hcons, List.map_cons, Leaf.slots_cons, Leaf.rowsOf_append, Leaf.rowsOf_append, hrows₁,
      hrows]
    exact ⟨hsub₁.append hsub, rfl⟩

/-- Indexed children in a function that forgets the index. -/
theorem zipIdx_flatMap {α β : Type} (f : α → List β) (l : List α) (n : Nat) :
    (l.zipIdx n).flatMap (fun c => f c.1) = l.flatMap f := by
  induction l generalizing n with
  | nil => rfl
  | cons a l ih => simp [List.zipIdx_cons, ih]

/-- Opening a head node keeps the frontier's rows, and shortens the walk. -/
theorem openOnto_spec {t : Tree K V M} {off : Dsp} {lo : Option (K × Dsp)} {path : Path}
    (h : Frontier p root (.node t off lo path :: xs)) :
    Frontier p root (openOnto (.node t off lo path :: xs)) ∧
      rowsOn (openOnto (.node t off lo path :: xs)) = rowsOn (.node t off lo path :: xs) ∧
      costOf (openOnto (.node t off lo path :: xs)) < costOf (.node t off lo path :: xs) := by
  obtain ⟨hpath, ⟨ht, U, hN, hshift⟩, hlo⟩ := h.heads (.node t off lo path) (by simp)
  cases ht with
  | zero => cases t <;> exact hN.elim
  | succ n =>
  cases t with
  | nil => exact hN.elim
  | nodeSplit d s col pivot l r => exact hN.elim
  | nodeLeaf d s items =>
    obtain ⟨-, hok, -⟩ := hN
    obtain ⟨hsub, hrows⟩ := itemHeads_slots (M := M) hok.ok.items_ok (off + d)
    have hopen : openOnto (.node (nodeLeaf d s items) off lo path :: xs)
        = items.filterMap (itemHead (off + d)) ++ xs := by
      simp only [openOnto, dsp]
      congr 2
    rw [hopen]
    refine ⟨h.replace ?_ (by simpa [Head.slots, slotsAt] using hsub), ?_, ?_⟩
    · intro z hz
      obtain ⟨it, hit, hz⟩ := List.mem_filterMap.1 hz
      have hitok := hok.ok.items_ok it hit
      cases it with
      | one k v => cases hz; trivial
      | run s v =>
        cases hz
        exact ⟨hitok.1, lt_of_lt_of_le (by decide) hitok.2⟩
      | hole s => cases hz
    · rw [rowsOn, slotsOf_append, Leaf.rowsOf_append, ← rowsOn, hrows]
      simp [rowsOn, Head.slots, slotsAt]
    · rw [costOf_append, costOf_cons]
      have hcost : costOf (items.filterMap (itemHead (off + d)) : List (Head K V M))
          ≤ (items.map Item.rows).sum := by
        clear hopen hrows hsub hok hlo hpath h
        induction items with
        | nil => simp [costOf]
        | cons it items ih =>
          rw [List.filterMap_cons]
          cases it <;> simp [itemHead, Head.cost, Item.rows] <;> omega
      simp only [Head.cost, turns]
      omega
  | nodeInternal d s keys children =>
    obtain ⟨-, -, -, W, hW, -, hch⟩ := id hN
    have hchN : ∀ c ∈ children, Node p n W c := fun c hc => by
      obtain ⟨_, _, ⟨hcN, _⟩, _⟩ := hch.of_mem c hc
      exact hcN
    have hshift' : Shift (off + d) W anyKey := by
      rw [Int64.add_comm]
      exact hW.comp hshift
    have hrel := hN.relocate hshift
    -- the children between the separators, in the absolute frame
    have hforest : Forest (Child p n anyKey) none none (keys.map (displace · (off + d)))
        (children.map (·.relocate (off + d))) := by
      cases hrel.shape with
      | leaf ho _ _ _ _ => cases ho
      | internal ho _ _ _ hf _ _ =>
        obtain ⟨rfl, rfl⟩ := Opened.internal.inj ho
        rwa [Int64.add_comm d off] at hf
    have hopen : openOnto (.node (nodeInternal d s keys children) off lo path :: xs)
        = (children.zipIdx.map fun ci => Head.node ci.1 (off + d)
            (if ci.2 = 0 then lo else keys[ci.2 - 1]?.map (·, off + d)) (ci.2 :: path)) ++ xs := rfl
    have hslots : slotsOf (children.zipIdx.map fun ci => Head.node ci.1 (off + d)
          (if ci.2 = 0 then lo else keys[ci.2 - 1]?.map (·, off + d)) (ci.2 :: path))
        = (Head.node (nodeInternal d s keys children) off lo path).slots := by
      simp only [slotsOf, List.flatMap_map, Head.slots, slotsAt, slotsList_eq]
      exact zipIdx_flatMap (slotsAt · (off + d)) children 0
    rw [hopen]
    refine ⟨h.replace ?_ (hslots ▸ List.Sublist.refl _), ?_, ?_⟩
    · intro z hz
      obtain ⟨⟨c, i⟩, hci, rfl⟩ := List.mem_map.1 hz
      have hget : children[i]? = some c := by simpa using List.mem_zipIdx_iff_getElem?.1 hci
      refine ⟨by simp [nodeAt, hpath, child, hget],
        ⟨n, W, hchN c (List.mem_of_getElem? hget), hshift'⟩, ?_⟩
      intro l hl e he
      split at hl
      · refine hlo l hl e ?_
        rw [slotsAt, slotsList_eq]
        exact List.mem_flatMap.2 ⟨c, List.mem_of_getElem? hget, he⟩
      · rename_i hi
        obtain ⟨hilt, hgeti⟩ := List.getElem?_eq_some_iff.1 hget
        have hat := hforest.bounds_at (i := i) (by simpa using hilt)
        rw [if_neg hi] at hat
        obtain ⟨k, hk, rfl⟩ := Option.map_eq_some_iff.1 hl
        refine (child_within hat e ?_).1 (displace k (off + d)) (by simp [hk])
        simpa [hgeti, slots_relocate] using he
    · rw [rowsOn, slotsOf_append, hslots]
      rfl
    · rw [costOf_append, costOf_cons]
      have hcost : ∀ m, costOf (((children.zipIdx m).map fun ci => Head.node ci.1 (off + d)
          (if ci.2 = 0 then lo else keys[ci.2 - 1]?.map (·, off + d)) (ci.2 :: path)))
            = turnsList children := by
        clear hopen hslots hforest hrel hch hN hchN hlo hpath h
        induction children with
        | nil => intro m; rfl
        | cons c cs ih => intro m; simp [List.zipIdx_cons, turnsList, Head.cost, ih]
      rw [hcost 0]
      simp only [Head.cost, turns]
      omega

/-! ## Consuming rows -/

/-- A row head's row is its first slot. -/
theorem headRow_slots {k : K} {v : V} (h : x.Good p root) (hx : headRow x = some (k, v)) :
    ∃ more, x.slots = (k, some v) :: more := by
  cases x with
  | node t off lo path => cases hx
  | entry k' off v' =>
    cases hx
    exact ⟨[], rfl⟩
  | run s v' off i =>
    cases hx
    obtain ⟨-, hi⟩ := h
    have hn : s.n - i = s.n - (i + 1) + 1 := by omega
    rw [Head.slots, hn, List.range'_succ]
    exact ⟨_, rfl⟩

/-- Consuming rows of a head takes them off the frontier. -/
theorem advance_spec {k : K} {v : V} {m : Nat} (h : Frontier p root (x :: xs))
    (hx : headRow x = some (k, v)) (hm : 0 < m) (hmx : m ≤ x.cost) :
    slotsOf (x :: xs) = ((List.range m).map (stretchKey x k)).map (·, some v)
        ++ slotsOf (advance (x :: xs) m) ∧
      Frontier p root (advance (x :: xs) m) ∧
        costOf (advance (x :: xs) m) < costOf (x :: xs) := by
  cases x with
  | node t off lo path => cases hx
  | entry k' off v' =>
    cases hx
    obtain rfl : m = 1 := by
      simp only [Head.cost] at hmx
      omega
    refine ⟨rfl, h.tail, ?_⟩
    rw [costOf_cons]
    simp [advance, Head.cost]
  | run s v' off i =>
    cases hx
    obtain ⟨hfits, hi⟩ := h.heads (.run s v off i) (by simp)
    simp only [Head.cost] at hmx
    -- the rows the step takes, then those it leaves
    have hkeys : ∀ t, stretchKey (.run s v off i : Head K V M) (displace (s.row i) off) t
        = displace (s.row (i + t)) off := by
      intro t
      cases t with
      | zero => rfl
      | succ t =>
        have hd : fits (displace (s.row i) off) s.stride :=
          Displace.fits_displace _ _ _ (Span.fits_row hfits i)
        show Displace.step (displace (s.row i) off) s.stride _ = _
        rw [← Displace.displace_step _ _ _ _ (Span.fits_row hfits i), Span.step_row hfits,
          Span.row_eq_step hfits]
        simp
    have hsplit : (Head.run s v off i : Head K V M).slots
        = ((List.range m).map (stretchKey (.run s v off i : Head K V M)
            (displace (s.row i) off))).map (·, some v)
          ++ (Head.run s v off (i + m) : Head K V M).slots := by
      have hn : List.range' i (s.n - i)
          = List.range' i m ++ List.range' (i + m) (s.n - (i + m)) := by
        rw [show s.n - i = m + (s.n - (i + m)) by omega, List.range'_append_1]
      rw [Head.slots, hn, List.map_append, List.map_map]
      congr 1
      rw [List.range'_eq_map_range, List.map_map]
      refine List.map_congr_left fun t _ => ?_
      simp only [Function.comp_apply, hkeys]
    simp only [advance]
    split
    · rename_i hlt
      refine ⟨by rw [slotsOf_cons, hsplit, List.append_assoc]; rfl, ?_, ?_⟩
      · show Frontier p root ([.run s _ off (i + m)] ++ xs)
        refine h.replace ?_ ?_
        · rintro z hz
          obtain rfl := List.mem_singleton.1 hz
          exact ⟨hfits, hlt⟩
        · rw [hsplit, slotsOf_cons]
          simp [slotsOf]
      · simp only [costOf_cons, Head.cost]
        omega
    · refine ⟨?_, h.tail, ?_⟩
      · rw [slotsOf_cons, hsplit]
        have hnone : (Head.run s v off (i + m) : Head K V M).slots = [] := by
          rw [Head.slots, show s.n - (i + m) = 0 by omega]
          rfl
        rw [hnone, List.append_nil]
      · rw [costOf_cons]
        simp only [Head.cost]
        omega

/-- Reporting a head takes what is reported off the frontier. -/
theorem emit_spec (h : Frontier p root (x :: xs)) :
    rowsOn (x :: xs) = emitted x ++ rowsOn (afterEmit (x :: xs)) ∧
      Frontier p root (afterEmit (x :: xs)) ∧
        costOf (afterEmit (x :: xs)) < costOf (x :: xs) := by
  have row : ∀ {k : K} {v : V}, headRow x = some (k, v) → 0 < x.cost →
      emitted x = [(k, v)] → afterEmit (x :: xs) = advance (x :: xs) 1 →
        rowsOn (x :: xs) = emitted x ++ rowsOn (afterEmit (x :: xs)) ∧
          Frontier p root (afterEmit (x :: xs)) ∧
            costOf (afterEmit (x :: xs)) < costOf (x :: xs) := by
    intro k v hx hcost hemit hafter
    obtain ⟨hslots, hfr, hlt⟩ := advance_spec h hx Nat.one_pos hcost
    rw [hafter, hemit]
    refine ⟨?_, hfr, hlt⟩
    rw [rowsOn, hslots, Leaf.rowsOf_append]
    rfl
  cases x with
  | entry k off v => exact row rfl Nat.one_pos rfl rfl
  | run s v off i =>
    obtain ⟨-, hi⟩ := h.heads (.run s v off i) (by simp)
    exact row rfl (Nat.sub_pos_of_lt hi) rfl rfl
  | node t off lo path =>
    obtain ⟨-, ⟨n, U, hN, -⟩, -⟩ := h.heads (.node t off lo path) (by simp)
    have hempty : ({} : Iter K V M).Good := ⟨rfl, by simp⟩
    obtain ⟨hg, hleft, hcost⟩ :=
      iterDescend_spec t.depth n p U t {} off hN.depth_eq.1.ge hN hempty rfl
    have hemit : emitted (.node t off lo path) = Leaf.rowsOf (slotsAt t off) := by
      have hzero : ({} : Iter K V M).cost = 0 := rfl
      rw [emitted, drain_spec _ _ hg (by omega), hleft, collectAll_eq n U t off hN]
      simp [Iter.left]
    refine ⟨?_, h.tail, ?_⟩
    · rw [hemit, rowsOn, slotsOf_cons, Leaf.rowsOf_append]
      rfl
    · have hpos : 0 < turns t := by cases t <;> simp [turns]
      simp only [afterEmit, costOf_cons, Head.cost]
      omega

/-! ## Choosing a step -/

/-- The key `k` comes before everything under the head `y`, by its row or by its
separator. -/
inductive Leads (k : K) : Head K V M → Prop where
  | row {y r} : headRow y = some r → k < r.1 → Leads k y
  | sep {t off lo path} : aboveKey lo k = true → Leads k (.node t off lo path)

theorem Leads.lt {k : K} (h : Frontier p root (y :: ys)) (hk : Leads k y) :
    ∀ r ∈ rowsOn (y :: ys), k < r.1 := by
  have hsorted : Sorted (y.slots ++ slotsOf ys) := h.sorted
  have hslots : ∀ e ∈ slotsOf (y :: ys), k < e.1 := by
    cases hk with
    | @row _ r hrow hlt =>
      obtain ⟨more, hmore⟩ := headRow_slots (h.heads y (by simp)) hrow
      rw [hmore, List.cons_append] at hsorted
      rw [slotsOf_cons, hmore, List.cons_append]
      intro e he
      rcases List.mem_cons.1 he with rfl | he
      · exact hlt
      · exact hlt.trans ((List.pairwise_cons.1 hsorted).1 e he)
    | @sep t off lo path habove =>
      obtain ⟨-, ⟨n, U, hN, hshift⟩, hlo⟩ := h.heads (.node t off lo path) (by simp)
      obtain ⟨l, hl, hgt⟩ := (Option.any_eq_true _ _).1 habove
      have hkl : k < displace l.1 l.2 := by
        simpa [compare_gt_iff_gt] using hgt
      have hhead : ∀ e ∈ slotsAt t off, k < e.1 := fun e he => hkl.trans_le (hlo l hl e he)
      have hne := (hN.relocate hshift).slots_ne_nil
      rw [slots_relocate] at hne
      obtain ⟨e₀, he₀⟩ := List.exists_mem_of_ne_nil _ hne
      intro e he
      rcases List.mem_append.1 he with he | he
      · exact hhead e he
      · exact (hhead e₀ he₀).trans ((sorted_append.1 hsorted).2.2 e₀ he₀ e he)
  intro r hr
  obtain ⟨e, he, hsome⟩ := List.mem_filterMap.1 hr
  obtain ⟨v, -, rfl⟩ := Option.map_eq_some_iff.1 hsome
  exact hslots e he

/-- What the choice of a step says of the two heads. -/
def StepCase (A B : Marks) (x y : Head K V M) : Step → Prop
  | .skip => ∃ a i lo p b j lo' q,
      x = .node a i lo p ∧ y = .node b j lo' q ∧ sameAt A B a i p b j q = true
  | .left => ∃ r, headRow x = some r ∧ Leads r.1 y
  | .right => ∃ r, headRow y = some r ∧ Leads r.1 x
  | .pair => ∃ k v w, headRow x = some (k, v) ∧ headRow y = some (k, w)
  | .openLeft => ∃ a i lo p, x = .node a i lo p
  | .openRight => ∃ b j lo q, y = .node b j lo q
  | .openBoth => (∃ a i lo p, x = .node a i lo p) ∧ ∃ b j lo q, y = .node b j lo q

omit [Measure K V M] in
/-- Two rows are told apart by their keys. -/
theorem stepCase_rows (A B : Marks) {r r' : K × V} (hx : headRow x = some r)
    (hy : headRow y = some r') :
    StepCase A B x y (match compare r.1 r'.1 with
      | .lt => .left
      | .gt => .right
      | .eq => .pair) := by
  cases hcmp : compare r.1 r'.1 with
  | lt => exact ⟨r, hx, .row hy (compare_lt_iff_lt.1 hcmp)⟩
  | gt => exact ⟨r', hy, .row hx (compare_gt_iff_gt.1 hcmp)⟩
  | eq => exact ⟨r.1, r.2, r'.2, hx, by rw [hy, compare_eq_iff_eq.1 hcmp]⟩

omit [Measure K V M] in
/-- A row against a node is told by the node's separator, or the node is opened. -/
theorem stepCase_node (A B : Marks) {r : K × V} {t : Tree K V M} {off : Dsp}
    {lo : Option (K × Dsp)} {path : Path} (hx : headRow x = some r) :
    StepCase A B x (.node t off lo path)
      (if (headRow x).any fun r => aboveKey lo r.1 then .left else .openRight) := by
  rw [hx]
  split
  · rename_i habove
    exact ⟨r, hx, .sep (by simpa using habove)⟩
  · exact ⟨t, off, lo, path, rfl⟩

omit [Measure K V M] in
theorem step_case (A B : Marks) (x y : Head K V M) : StepCase A B x y (step A B x y) := by
  cases x with
  | node a i lo p =>
    cases y with
    | node b j lo' q =>
      simp only [step]
      split
      · rename_i hsame
        exact ⟨a, i, lo, p, b, j, lo', q, rfl, rfl, hsame⟩
      · exact ⟨⟨a, i, lo, p, rfl⟩, ⟨b, j, lo', q, rfl⟩⟩
    | entry k off v =>
      simp only [step]
      split
      · rename_i habove
        exact ⟨_, rfl, .sep (by simpa [headRow] using habove)⟩
      · exact ⟨a, i, lo, p, rfl⟩
    | run s v off j =>
      simp only [step]
      split
      · rename_i habove
        exact ⟨_, rfl, .sep (by simpa [headRow] using habove)⟩
      · exact ⟨a, i, lo, p, rfl⟩
  | entry k off v =>
    cases y with
    | node b j lo' q => exact stepCase_node A B rfl
    | entry k' off' v' =>
      exact stepCase_rows (x := .entry k off v) (y := .entry k' off' v') A B rfl rfl
    | run s' v' off' j =>
      exact stepCase_rows (x := .entry k off v) (y := .run s' v' off' j) A B rfl rfl
  | run s v off i =>
    cases y with
    | node b j lo' q => exact stepCase_node A B rfl
    | entry k' off' v' =>
      exact stepCase_rows (x := .run s v off i) (y := .entry k' off' v') A B rfl rfl
    | run s' v' off' j =>
      exact stepCase_rows (x := .run s v off i) (y := .run s' v' off' j) A B rfl rfl

omit [Measure K V M] in
/-- Two handles on one node at one absolute position hold the same slots. -/
theorem sameAt_slots {A B : Marks} {a b s t : Tree K V M} {i j : Dsp} {path path' : Path}
    (hAB : A.Faithful B a b) (ha : a.nodeAt path = some s) (hb : b.nodeAt path' = some t)
    (hsame : sameAt A B s i path t j path' = true) : slotsAt s i = slotsAt t j := by
  simp only [sameAt, Bool.and_eq_true, decide_eq_true_eq, Bool.not_eq_true'] at hsame
  obtain ⟨⟨⟨hoff, -⟩, -⟩, hnode⟩ := hsame
  have hroot := hAB path path' s t ha hb hnode
  have hback : ∀ (u : Tree K V M) (d : Dsp),
      u.relocate d = (u.relocate (-u.dsp)).relocate (d + u.dsp) := by
    intro u d
    rw [relocate_relocate]
    congr 1
    grind
  rw [← slots_relocate, ← slots_relocate, hback s i, hback t j, hroot, hoff]

/-! ## The walk -/

variable [DecidableEq V] {a b : Tree K V M} {A B : Marks}

/-- Two row heads at one key: what is reported, and what is left of the merge. -/
theorem pair_spec {k : K} {v w : V} (hxs : Frontier p a (x :: xs)) (hys : Frontier q b (y :: ys))
    (hx : headRow x = some (k, v)) (hy : headRow y = some (k, w)) :
    0 < stretch x y ∧ stretch x y ≤ x.cost ∧ stretch x y ≤ y.cost ∧
      mergeDiff (rowsOn (x :: xs)) (rowsOn (y :: ys)) = emitPair x y
        ++ mergeDiff (rowsOn (advance (x :: xs) (stretch x y)))
            (rowsOn (advance (y :: ys) (stretch x y))) := by
  -- the two heads step alike for as long as the stretch lasts
  have hstretch : 0 < stretch x y ∧ stretch x y ≤ x.cost ∧ stretch x y ≤ y.cost ∧
      (List.range (stretch x y)).map (stretchKey x k)
        = (List.range (stretch x y)).map (stretchKey y k) := by
    have hgx := hxs.heads x (by simp)
    have hgy := hys.heads y (by simp)
    cases x <;> cases y <;> simp only [headRow, reduceCtorEq] at hx hy
    case run.run s v' off i s' w' off' j =>
      obtain ⟨-, hi⟩ := hgx
      obtain ⟨-, hj⟩ := hgy
      simp only [stretch, Head.cost]
      split
      · rename_i hstride
        refine ⟨by omega, by omega, by omega, List.map_congr_left fun t _ => ?_⟩
        cases t <;> simp [stretchKey, hstride]
      · exact ⟨by omega, by omega, by omega, rfl⟩
    case entry.entry => exact ⟨Nat.one_pos, le_rfl, le_rfl, rfl⟩
    case entry.run => exact ⟨Nat.one_pos, le_rfl, Nat.sub_pos_of_lt hgy.2, rfl⟩
    case run.entry => exact ⟨Nat.one_pos, Nat.sub_pos_of_lt hgx.2, le_rfl, rfl⟩
  obtain ⟨hpos, hcx, hcy, hkeys⟩ := hstretch
  refine ⟨hpos, hcx, hcy, ?_⟩
  have rows : ∀ (ks : List K) (u : V) (l : List (K × Option V)),
      Leaf.rowsOf (ks.map (·, some u) ++ l) = ks.map (·, u) ++ Leaf.rowsOf l := by
    intro ks u l
    rw [Leaf.rowsOf_append]
    simp [Leaf.rowsOf, List.filterMap_map]
  rw [rowsOn, rowsOn, (advance_spec hxs hx hpos hcx).1, (advance_spec hys hy hpos hcy).1, rows,
    rows, ← hkeys, mergeDiff_stretch]
  simp only [emitPair, hx, hy, rowsOn, List.map_map]
  rfl

/-- **The walk is the merge** of what the two frontiers hold. -/
theorem diffInto_spec (hAB : A.Faithful B a b) (fuel : Nat) (xs ys : List (Head K V M))
    (hxs : Frontier p a xs) (hys : Frontier q b ys) (hfuel : costOf xs + costOf ys < fuel) :
    diffInto A B fuel xs ys = mergeDiff (rowsOn xs) (rowsOn ys) := by
  induction fuel generalizing xs ys with
  | zero => omega
  | succ fuel ih =>
    cases xs with
    | nil =>
      cases ys with
      | nil => simp [diffInto, rowsOn, slotsOf, Leaf.rowsOf]
      | cons y ys =>
        obtain ⟨hrows, hfr, hlt⟩ := emit_spec hys
        rw [diffInto, ih [] _ hxs hfr (by omega), hrows,
          mergeDiff_append_right (by simp [rowsOn, slotsOf, Leaf.rowsOf])]
    | cons x xs =>
      cases ys with
      | nil =>
        obtain ⟨hrows, hfr, hlt⟩ := emit_spec hxs
        rw [diffInto, ih _ [] hfr hys (by omega), hrows,
          mergeDiff_append_left (by simp [rowsOn, slotsOf, Leaf.rowsOf])]
      | cons y ys =>
        have hcase := step_case A B x y
        rw [diffInto]
        cases hstep : step A B x y with
        | skip =>
          obtain ⟨s, i, lo, w, t, j, lo', w', rfl, rfl, hsame⟩ := hstep ▸ hcase
          have hs := (hxs.heads (.node s i lo w) (by simp)).1
          have ht := (hys.heads (.node t j lo' w') (by simp)).1
          have hslots : slotsAt s i = slotsAt t j := sameAt_slots hAB hs ht hsame
          have hpos : 0 < turns s := by cases s <;> simp [turns]
          simp only [costOf_cons, Head.cost] at hfuel
          simp only
          rw [ih xs ys hxs.tail hys.tail (by omega)]
          simp only [rowsOn, slotsOf_cons, Head.slots, Leaf.rowsOf_append, hslots,
            mergeDiff_append_both]
        | left =>
          obtain ⟨r, hrow, hlead⟩ := hstep ▸ hcase
          obtain ⟨hrows, hfr, hlt⟩ := emit_spec hxs
          have hemit : emitted x = [r] := by cases x <;> simp_all [emitted, headRow]
          simp only
          rw [ih _ _ hfr hys (by omega), hrows, mergeDiff_append_left]
          rw [hemit]
          simpa using hlead.lt hys
        | right =>
          obtain ⟨r, hrow, hlead⟩ := hstep ▸ hcase
          obtain ⟨hrows, hfr, hlt⟩ := emit_spec hys
          have hemit : emitted y = [r] := by cases y <;> simp_all [emitted, headRow]
          simp only
          rw [ih _ _ hxs hfr (by omega), hrows, mergeDiff_append_right]
          rw [hemit]
          simpa using hlead.lt hxs
        | pair =>
          obtain ⟨k, v, w, hx, hy⟩ := hstep ▸ hcase
          obtain ⟨hpos, hcx, hcy, hmerge⟩ := pair_spec hxs hys hx hy
          obtain ⟨-, hfx, hltx⟩ := advance_spec hxs hx hpos hcx
          obtain ⟨-, hfy, hlty⟩ := advance_spec hys hy hpos hcy
          simp only
          rw [ih _ _ hfx hfy (by omega), hmerge]
        | openLeft =>
          obtain ⟨s, i, lo, q, rfl⟩ := hstep ▸ hcase
          obtain ⟨hfr, hrows, hlt⟩ := openOnto_spec hxs
          simp only
          rw [ih _ _ hfr hys (by omega), hrows]
        | openRight =>
          obtain ⟨s, i, lo, q, rfl⟩ := hstep ▸ hcase
          obtain ⟨hfr, hrows, hlt⟩ := openOnto_spec hys
          simp only
          rw [ih _ _ hxs hfr (by omega), hrows]
        | openBoth =>
          obtain ⟨⟨s, i, lo, q, rfl⟩, t, j, lo', q', rfl⟩ := hstep ▸ hcase
          obtain ⟨hfx, hrx, hltx⟩ := openOnto_spec hxs
          obtain ⟨hfy, hry, hlty⟩ := openOnto_spec hys
          simp only
          rw [ih _ _ hfx hfy (by omega), hrx, hry]

omit [DecidableEq V] in
/-- A sound tree is a well-formed frontier of itself. -/
theorem frontier_spec (ha : Sound p anyKey a) :
    Frontier p a (frontier a) ∧ rowsOn (frontier a) = rows a ∧ costOf (frontier a) ≤ turns a := by
  rcases ha with rfl | ⟨h, ha⟩
  · exact ⟨⟨by simp [frontier, isEmpty], by simp [frontier, isEmpty, slotsOf, Sorted]⟩, rfl,
      Nat.zero_le _⟩
  · have hfr : frontier a = [.node a 0 none []] := by simp [frontier, ha.isEmpty]
    have hslots : slotsOf [(.node a 0 none [] : Head K V M)] = slots a := by
      simp [slotsOf, Head.slots, slots]
    refine ⟨⟨?_, ?_⟩, ?_, ?_⟩
    · rw [hfr]
      rintro x hx
      obtain rfl := List.mem_singleton.1 hx
      exact ⟨rfl, ⟨h, anyKey, ha, Shift.zero fun _ _ => trivial⟩, by simp⟩
    · rw [hfr, hslots]
      exact ha.sorted
    · rw [hfr, rowsOn, hslots]
      rfl
    · rw [hfr]
      simp [costOf, Head.cost]

/-- **The difference of two sound trees** is the merge of their rows. -/
theorem diffOrdered_spec (hAB : A.Faithful B a b) (ha : Sound p anyKey a) (hb : Sound q anyKey b) :
    diffOrdered A B a b = mergeDiff (rows a) (rows b) := by
  obtain ⟨hfa, hra, hca⟩ := frontier_spec ha
  obtain ⟨hfb, hrb, hcb⟩ := frontier_spec hb
  rw [diffOrdered, diffInto_spec hAB _ _ _ hfa hfb (by omega), hra, hrb]

end Tree

end Grmpl

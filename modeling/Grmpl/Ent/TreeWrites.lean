import Grmpl.Ent.TreeBalance

/-!
# Writes of one row

Inserting and removing a row of a well-formed tree: the outcome is well formed
and its slots are the plain map's.

* `Tree.Spine`: the child a key belongs to, and what lies on its two sides.
* `Tree.insertWith_spec`, `Tree.remove_spec`.
-/

open OrdMap Separated Bisect

namespace Grmpl

namespace Tree

variable {K V M : Type} [Displace K] [Measure K V M] {p : Bool} {h : Nat} {U : K → Prop}

/-- A node's children around the one a key belongs to. -/
structure Spine (p : Bool) (h : Nat) (U : K → Prop) (ks : List K) (ch : List (Tree K V M))
    (key : K) (i : Nat) (c : Tree K V M) (b₁ b₂ : Option K) : Prop where
  split : ch = ch.take i ++ c :: ch.drop (i + 1)
  lt : i < ch.length
  get : ch[i]? = some c
  seg : Seg (Child p h U) none b₁ (ks.take i) (ch.take i)
  child : Child p h U b₁ b₂ c
  tail : Tail (Child p h U) b₂ none (ks.drop i) (ch.drop (i + 1))
  within : Within b₁ b₂ key
  below : ∀ e ∈ (ch.take i).flatMap slots, e.1 < key
  above : ∀ e ∈ (ch.drop (i + 1)).flatMap slots, key < e.1

/-- `childIndex` finds the child a key belongs to. -/
theorem childIndex_spec {ks : List K} {ch : List (Tree K V M)}
    (hch : Forest (Child p h U) none none ks ch) (key : K) :
    ∃ c b₁ b₂, Spine p h U ks ch key (childIndex ks 0 key) c b₁ b₂ := by
  obtain ⟨a, b, rfl, ha, hb⟩ := exists_divided (l := ks)
    (p := fun k => decide (cmpDisplaced k 0 key ≠ .gt)) <| by
      have hsorted : ks.Pairwise (· < ·) := by simpa using hch.seps_sorted
      refine hsorted.imp fun {x y} hxy => ?_
      simp only [Displace.cmpDisplaced_eq, Displace.displace_zero, ne_eq, decide_eq_true_eq,
        compare_gt_iff_gt, not_lt]
      exact hxy.le.trans
  have hpoint : childIndex (a ++ b) 0 key = a.length := partitionPoint_append ha hb
  have hlen := hch.length_eq
  have hi : a.length < ch.length := by rw [hlen, List.length_append]; omega
  have hle : ∀ k ∈ (a ++ b).take a.length, k ≤ key := by
    rw [List.take_left]
    intro k hk
    simpa [compare_gt_iff_gt] using ha k hk
  have hlt : ∀ k ∈ (a ++ b).drop a.length, key < k := by
    rw [List.drop_left]
    intro k hk
    simpa [compare_gt_iff_gt] using hb k hk
  rw [hpoint]
  obtain ⟨b₁, b₂, hseg, hmid, htail, hw, hbelow, habove⟩ := hch.locate (within_none key) hi hle hlt
  refine ⟨ch[a.length], b₁, b₂, ?_, hi, List.getElem?_eq_getElem hi, hseg, hmid, htail, hw,
    fun e he => ?_, fun e he => ?_⟩
  · rw [← List.drop_eq_getElem_cons hi, List.take_append_drop]
  · obtain ⟨c, hc, he⟩ := List.mem_flatMap.1 he
    exact hbelow c hc _ (List.mem_map_of_mem he)
  · obtain ⟨c, hc, he⟩ := List.mem_flatMap.1 he
    exact habove c hc _ (List.mem_map_of_mem he)

variable {ks : List K} {ch : List (Tree K V M)} {key : K} {i : Nat} {c : Tree K V M}
  {b₁ b₂ : Option K}

/-- A key of a child belongs to that child. -/
theorem Spine.of_mem (hch : Forest (Child p h U) none none ks ch) (hc : ch[i]? = some c)
    {k : K} (hk : k ∈ keysOf c) : ∃ b₁ b₂, Spine p h U ks ch k i c b₁ b₂ := by
  obtain ⟨hi, rfl⟩ := List.getElem?_eq_some_iff.1 hc
  obtain ⟨b₁, b₂, hseg, hmid, htail⟩ := hch.zoom hi
  have hw := hmid.2.2 k hk
  refine ⟨b₁, b₂, ?_, hi, hc, hseg, hmid, htail, hw, fun e he => ?_, fun e he => ?_⟩
  · rw [← List.drop_eq_getElem_cons hi, List.take_append_drop]
  · obtain ⟨d, hd, he⟩ := List.mem_flatMap.1 he
    exact hseg.keys_lt_of hw.1 d hd _ (List.mem_map_of_mem he)
  · obtain ⟨d, hd, he⟩ := List.mem_flatMap.1 he
    exact htail.keys_gt_of hw.2 d hd _ (List.mem_map_of_mem he)

/-- The slots of a node around the child a key belongs to. -/
theorem Spine.slots_eq (hs : Spine p h U ks ch key i c b₁ b₂) :
    ch.flatMap slots
      = (ch.take i).flatMap slots ++ slots c ++ (ch.drop (i + 1)).flatMap slots := by
  have := congrArg (List.flatMap slots) hs.split
  rw [this, List.flatMap_append, List.flatMap_cons, List.append_assoc]

theorem Spine.put_eq (hs : Spine p h U ks ch key i c b₁ b₂) (w : Option V) :
    put key w (ch.flatMap slots)
      = (ch.take i).flatMap slots ++ put key w (slots c) ++ (ch.drop (i + 1)).flatMap slots := by
  rw [hs.slots_eq, put_middle hs.below hs.above]

theorem Spine.drop_eq (hs : Spine p h U ks ch key i c b₁ b₂) :
    drop key (ch.flatMap slots)
      = (ch.take i).flatMap slots ++ drop key (slots c) ++ (ch.drop (i + 1)).flatMap slots := by
  rw [hs.slots_eq, drop_middle (fun e he => (hs.below e he).ne) fun e he => (hs.above e he).ne']

/-- A child rewritten in place, its floor restored from a sibling. -/
theorem Spine.fix_spec (hs : Spine p h U ks ch key i c b₁ b₂) (h2 : 2 ≤ ch.length)
    (hU : ∀ k ∈ ks, U k) {c' : Tree K V M} (hc' : Node p h U c')
    (hw : ∀ e ∈ slots c', Within b₁ b₂ e.1) :
    let res := fix ks (ch.set i c') i
    Forest (Child p h U) none none res.1 res.2 ∧ (∀ x ∈ res.1, U x) ∧
      res.2.flatMap slots
        = (ch.take i).flatMap slots ++ slots c' ++ (ch.drop (i + 1)).flatMap slots ∧
      ch.length ≤ res.2.length + 1 ∧ res.2.length ≤ ch.length := by
  have hlen : (ch.take i).length = i := by
    rw [List.length_take]
    have := hs.lt
    omega
  have hset : ch.set i c' = ch.take i ++ c' :: ch.drop (i + 1) := by
    rw [hs.split, List.set_append_right _ _ hlen.le, hlen, Nat.sub_self, List.set_cons_zero, ← hs.split]
  have hks := List.take_append_drop i ks
  have hchlen := congrArg List.length hs.split
  have hfix := Tree.fix_spec (by simp at hchlen ⊢; omega) hs.seg hc' hw hs.tail (hks.symm ▸ hU)
  rw [hlen, ← hset, hks] at hfix
  have hslots : (ch.set i c').flatMap slots
      = (ch.take i).flatMap slots ++ slots c' ++ (ch.drop (i + 1)).flatMap slots := by
    rw [hset, List.flatMap_append, List.flatMap_cons, List.append_assoc]
  simpa only [hslots, List.length_set] using hfix

/-- A child rewritten as two. -/
theorem Spine.finish_spec (hs : Spine p h U ks ch key i c b₁ b₂) (hB : ch.length ≤ arityB)
    (hU : ∀ k ∈ ks, U k) {l r : Tree K V M} {s : K} {S : List (K × Option V)}
    (hlr : (Ins.split l s r).Yields p h U S) (hw : ∀ e ∈ S, Within b₁ b₂ e.1) :
    (finish (ks.take i ++ s :: ks.drop i) (ch.take i ++ l :: r :: ch.drop (i + 1))).Yields p (h + 1)
        U ((ch.take i).flatMap slots ++ S ++ (ch.drop (i + 1)).flatMap slots) := by
  obtain ⟨hf, hfU, hfslots⟩ := hlr.forest trivial hw
  have hchain := Forest.unzoom hs.seg hf hs.tail
  simp only [Ins.seps, Ins.trees, List.append_assoc, List.cons_append, List.nil_append] at hchain hfU
  have hlen : (ch.take i ++ l :: r :: ch.drop (i + 1)).length = ch.length + 1 := by
    have := hs.lt
    simp
    omega
  have hfin := Tree.finish_spec hchain (by have := hs.lt; omega)
    (by rw [hlen]; simp only [arityB] at hB ⊢; omega) ?_
  · have hslots : (ch.take i ++ l :: r :: ch.drop (i + 1)).flatMap slots
        = (ch.take i).flatMap slots ++ S ++ (ch.drop (i + 1)).flatMap slots := by
      rw [← hfslots]
      simp [Ins.trees]
    exact hslots ▸ hfin.1
  · intro k hk
    simp only [List.mem_append, List.mem_cons] at hk
    rcases hk with hk | rfl | hk
    · exact hU k (List.mem_of_mem_take hk)
    · exact hfU k (by simp)
    · exact hU k (List.mem_of_mem_drop hk)

/-! ## Insert -/

variable [RunValue V]

/-- Inserting below a node keeps its height, unless it had too few children to
keep two. -/
theorem ins_spec {runs : Bool} (hp : p = true → runs = false) (val : V) (hkey : U key) :
    ∀ (fuel h : Nat) (t : Tree K V M), h ≤ fuel → Node p h U t →
      (ins runs key val fuel t).Yields p h U (put key (some val) (slots t)) ∨
        t.underflows = true ∧ ∃ h' t', h = h' + 1 ∧ ins runs key val fuel t = .done t' ∧
          Node p h' U t' ∧ slots t' = put key (some val) (slots t) := by
  intro fuel
  induction fuel with
  | zero =>
    intro h t hh ht
    obtain rfl : h = 0 := by omega
    cases t <;> exact ht.elim
  | succ fuel ih =>
    intro h t hh ht
    cases ht.shape with
    | @leaf _ items ho hok hslots hU _ =>
      left
      obtain ⟨hins, hput, hlen⟩ := Leaf.insert_spec hok.ok key val runs
      have hne : Leaf.insert items key val runs ≠ [] := by
        intro hnil
        rw [hnil] at hput
        simp [put] at hput
      unfold ins
      simp only [ho]
      rw [hslots, ← hput]
      refine finishLeaf_spec hins hne (fun hpt => ?_) fun e he => ?_
      · obtain rfl := hp hpt
        obtain ⟨hplain, hB⟩ := hok.plain hpt
        refine ⟨hplain.insert key val, rfl, ?_⟩
        simp only [arityB] at hB ⊢
        omega
      · rw [hput] at he
        simp only [put, List.mem_append, List.mem_cons, List.mem_filter] at he
        rcases he with he | rfl | he
        · exact hU e he.1
        · exact hkey
        · exact hU e he.1
    | @internal _ h ks ch ho h2 hB hU hch hslots hunder =>
      obtain ⟨c, b₁, b₂, hs⟩ := childIndex_spec hch key
      rcases ih h c (by omega) hs.child.1.1 with hc | ⟨hunder', -⟩
      swap
      · rw [hs.child.1.2] at hunder'
        cases hunder'
      have hput := hs.put_eq (some val)
      have hw : ∀ e ∈ put key (some val) (slots c), Within b₁ b₂ e.1 := by
        intro e he
        simp only [put, List.mem_append, List.mem_cons, List.mem_filter] at he
        rcases he with he | rfl | he
        · exact child_within hs.child e he.1
        · exact hs.within
        · exact child_within hs.child e he.1
      unfold ins
      simp only [ho, hs.get]
      rw [hslots, hput]
      cases hres : ins runs key val fuel c with
      | done c' =>
        rw [hres] at hc
        obtain ⟨hf, hfU, hfslots, hlo, hhi⟩ := hs.fix_spec h2 hU hc.1 (hc.2 ▸ hw)
        rw [hc.2] at hfslots
        simp only
        generalize fix ks (ch.set _ c') _ = res at *
        obtain ⟨ks', ch'⟩ := res
        simp only at *
        rcases ch' with _ | ⟨d, _ | ⟨d', ds⟩⟩
        · simp at hlo
          omega
        · right
          obtain ⟨_, _, hd⟩ := hf.of_mem d (by simp)
          refine ⟨?_, h, d, rfl, rfl, hd.1.1, by simpa using hfslots⟩
          rw [hunder, decide_eq_true_eq]
          simp at hlo
          simp only [minB, arityB]
          omega
        · left
          exact ⟨Node.internal (by simp) (hhi.trans hB) hfU hf, by rw [← hfslots]; exact slots_internal _ _⟩
      | split l s r =>
        left
        rw [hres] at hc
        exact hs.finish_spec hB hU hc hw

omit [RunValue V] in
/-- Two trees of one height under a new root. -/
theorem root_spec {l r : Tree K V M} {s : K} {S : List (K × Option V)}
    (hlr : (Ins.split l s r).Yields p h U S) :
    Node p (h + 1) U (internal [s] [l, r]) ∧ slots (internal [s] [l, r]) = S := by
  obtain ⟨hf, hfU, hfslots⟩ := hlr.forest trivial fun e _ => within_none e.1
  exact ⟨Node.internal (by simp) (by simp [arityB]) hfU hf, hfslots ▸ slots_internal _ _⟩

/-- **Insert**: the row is put at its key and nothing else changes. -/
theorem insertWith_spec {t : Tree K V M} (ht : Sound p U t) (runs : Bool)
    (hp : p = true → runs = false) (key : K) (hkey : U key) (val : V) :
    Sound p U (insertWith t key val runs) ∧
      slots (insertWith t key val runs) = put key (some val) (slots t) := by
  rcases ht with rfl | ⟨h, ht⟩
  · have hnew : (insertWith nil key val runs : Tree K V M) = leaf [.one key val] := rfl
    have hok : Leaf.Ok [Item.one key val] := Leaf.ok_singleton.2 ⟨trivial, List.pairwise_singleton _ _⟩
    rw [hnew, slots_leaf]
    refine ⟨(Node.leaf ⟨by simp, hok, fun _ => ⟨?_, by simp [arityB]⟩⟩ ?_).sound, rfl⟩
    · simp [Leaf.Plain]
    · simpa [Item.slots] using hkey
  · unfold insertWith
    rw [if_neg (by simp [ht.isEmpty])]
    rcases ins_spec hp val hkey t.depth h t ht.depth_eq.1.ge ht with hres | ⟨-, h', t', -, hres, ht', hslots⟩
    · cases hins : ins runs key val t.depth t with
      | done t' =>
        rw [hins] at hres
        exact ⟨hres.1.sound, hres.2⟩
      | split l s r =>
        rw [hins] at hres
        exact ⟨(root_spec hres).1.sound, (root_spec hres).2⟩
    · rw [hres]
      exact ⟨ht'.sound, hslots⟩

/-! ## Remove -/

omit [Measure K V M] in
theorem displace_injective (d : Dsp) : Function.Injective fun k : K => displace k d := by
  intro a b hab
  have := congrArg (displace · (-d)) hab
  simpa [Int64.add_right_neg] using this

/-- A result moved into its parent's frame. -/
def relocateIns (r : Ins K V M) (d : Dsp) : Ins K V M :=
  match r with
  | .done t => .done (t.relocate d)
  | .split l s r => .split (l.relocate d) (displace s d) (r.relocate d)

omit [RunValue V] in
theorem relocateIns_spec {r : Ins K V M} {S : List (K × Option V)} {d : Dsp} {W : K → Prop}
    (hr : r.Yields p h W S) (hd : Shift d W U) :
    (relocateIns r d).Yields p h U (S.map fun e => (displace e.1 d, e.2)) := by
  cases r with
  | done t =>
    obtain ⟨ht, rfl⟩ := hr
    exact ⟨ht.relocate hd, ht.slots_relocate d⟩
  | split l s r =>
    obtain ⟨⟨hl, hlf⟩, ⟨hr, hrf⟩, hs, rfl, hls, hrs⟩ := hr
    refine ⟨⟨hl.relocate hd, by simpa using hlf⟩, ⟨hr.relocate hd, by simpa using hrf⟩,
      hd.maps s hs, ?_, fun e he => ?_, fun e he => ?_⟩
    · rw [hl.slots_relocate, hr.slots_relocate, List.map_append]
    · rw [hl.slots_relocate] at he
      obtain ⟨x, hx, rfl⟩ := List.mem_map.1 he
      exact hd.lt _ _ (hl.keys _ (List.mem_map_of_mem hx)) hs (hls x hx)
    · rw [hr.slots_relocate] at he
      obtain ⟨x, hx, rfl⟩ := List.mem_map.1 he
      rcases (hrs x hx).lt_or_eq with hlt | heq
      · exact (hd.lt _ _ hs (hr.keys _ (List.mem_map_of_mem hx)) hlt).le
      · exact (congrArg (displace · d) heq).le

omit [Measure K V M] in
theorem childIndex_displaced (keys : List K) (off : Dsp) (key : K) :
    childIndex keys off key = childIndex (keys.map (displace · off)) 0 key := by
  simp [childIndex, Leaf.partitionPoint_map]

omit [RunValue V] in
/-- A root that lost its last row, or all but one child, becomes what is left. -/
theorem shrinkRoot_node {t : Tree K V M} (ht : Node p h U t) : shrinkRoot t = t := by
  cases h with
  | zero => cases t <;> exact ht.elim
  | succ h =>
    cases t with
    | nil => exact ht.elim
    | nodeLeaf d s items =>
      cases items with
      | nil => exact absurd rfl ht.2.1.ne_nil
      | cons it items => rfl
    | nodeInternal d s keys children =>
      match children, ht with
      | [], _ => rfl
      | [c], ht => exact absurd ht.1 (by simp)
      | _ :: _ :: _, _ => rfl
    | nodeSplit d s col pivot lo hi => exact ht.elim

/-- What a removal below a node gives: a result of its height, or what is left
of a root too small to keep its own. -/
def Shrunk (p : Bool) (h : Nat) (U : K → Prop) (S : List (K × Option V)) (small : Bool)
    (r : Ins K V M) : Prop :=
  r.Yields p h U S ∨ small = true ∧ ∃ t, r = .done t ∧ Sound p U (shrinkRoot t) ∧
    slots (shrinkRoot t) = S

/-- What `rem` answers at an offset: that no row has the key, or the subtree
without the row whose key is carried to it. -/
def Removes (p : Bool) (h : Nat) (U : K → Prop) (key : K) (t : Tree K V M) (off : Dsp)
    (res : Option (Ins K V M)) : Prop :=
  (res = none ∧ ∀ e ∈ slots t, displace e.1 off = key → e.2 = none) ∨
    ∃ r k v, res = some r ∧ displace k off = key ∧ (k, some v) ∈ slots t ∧
      Shrunk p h U (drop k (slots t)) t.underflows r

theorem rem_leaf {d off : Dsp} {s : Summary M} {items : List (Item K V)} {U' : K → Prop}
    (ht : Node p h U (nodeLeaf d s items)) (hoff : Shift off U U') (fuel : Nat) :
    Removes p h U key (nodeLeaf d s items) off (rem key (fuel + 1) (nodeLeaf d s items) off) := by
  have hraw : ∀ it ∈ items, it.Ok := by
    cases h with
    | zero => exact ht.elim
    | succ h => exact ht.2.1.ok.items_ok
  have habs : Leaf.Ok ((items.map (·.displaced d)).map (·.displaced off)) := by
    cases (ht.relocate hoff).shape with
    | leaf ho hok _ _ _ =>
      simp only [Tree.relocate, opened, Opened.leaf.injEq] at ho
      subst ho
      simpa [List.map_map, Function.comp_def, Item.displaced_displaced] using hok.ok
    | internal ho _ _ _ _ _ _ => cases ho
  cases ht.shape with
  | internal ho _ _ _ _ _ _ => cases ho
  | @leaf _ e ho hok hslots hU hunder =>
    simp only [opened, Opened.leaf.injEq] at ho
    have hfind : Leaf.findRow items (off + d) key = Leaf.findRow e off key :=
      ho ▸ (Leaf.findRow_map hraw d off key).symm
    rw [ho] at habs
    unfold rem
    simp only [hfind, opened, ho]
    rcases Leaf.remove_displaced off hok.ok habs key with
      ⟨hnone, habsent⟩ | ⟨i, j, k, v, hsome, hk, hmem, hrem, hdrop, hlen, hlen'⟩
    · exact Or.inl ⟨by rw [hnone], hslots ▸ habsent⟩
    · right
      refine ⟨finishLeaf (Leaf.removeAt e i j) false, k, v, by rw [hsome], hk, hslots ▸ hmem, ?_⟩
      rw [hslots, ← hdrop]
      by_cases hnil : Leaf.removeAt e i j = []
      · right
        refine ⟨?_, nil, by simp [hnil, finishLeaf, arityB], Sound.nil, by simp [hnil, shrinkRoot]⟩
        rw [hunder, decide_eq_true_eq]
        rw [hnil] at hlen'
        simp only [List.length_nil, minB, arityB] at hlen' ⊢
        omega
      · left
        refine finishLeaf_spec hrem hnil (fun hpt => ⟨(hok.plain hpt).1.removeAt i j, rfl, ?_⟩) ?_
        · have := (hok.plain hpt).2
          simp only [arityB] at this ⊢
          omega
        · rw [hdrop]
          exact fun x hx => hU x (List.mem_filter.1 hx).1

theorem rem_internal {d off : Dsp} {s : Summary M} {keys : List K} {children : List (Tree K V M)}
    {U' : K → Prop} (ht : Node p (h + 1) U (nodeInternal d s keys children)) (hoff : Shift off U U')
    {fuel : Nat} (ih : ∀ (W W' : K → Prop) (c : Tree K V M) (off : Dsp), Node p h W c →
      Shift off W W' → Removes p h W key c off (rem key fuel c off)) :
    Removes p (h + 1) U key (nodeInternal d s keys children) off
      (rem key (fuel + 1) (nodeInternal d s keys children) off) := by
  have habs := (ht.relocate hoff).shape
  have hloc := ht
  obtain ⟨-, -, -, W, hW, -, hchW⟩ := hloc
  cases ht.shape with
  | leaf ho _ _ _ _ => cases ho
  | @internal _ _ ks ch ho h2 hB hU hch hslots hunder =>
  cases habs with
  | leaf ho' _ _ _ _ => cases ho'
  | @internal _ _ ks' ch' ho' _ _ _ hch' hslots' _ =>
    obtain ⟨rfl, rfl⟩ := Opened.internal.inj ho
    obtain ⟨rfl, rfl⟩ := Opened.internal.inj ho'
    -- the child is found in the query's frame and rewritten in the node's
    obtain ⟨c', b₁, b₂, hs'⟩ := childIndex_spec hch' key
    have hidx : childIndex keys (off + d) key = childIndex (keys.map (displace · (d + off))) 0 key := by
      rw [childIndex_displaced, Int64.add_comm]
    generalize childIndex (keys.map (displace · (d + off))) 0 key = i at hs' hidx
    have hget' := hs'.get
    rw [List.getElem?_map, Option.map_eq_some_iff] at hget'
    obtain ⟨c, hget, rfl⟩ := hget'
    have hcmem : c ∈ children := List.mem_of_getElem? hget
    obtain ⟨_, _, ⟨hcW, hcfull⟩, -⟩ := hchW.of_mem c hcmem
    have hres := ih W U' c (off + d) hcW (by rw [Int64.add_comm]; exact hW.comp hoff)
    unfold rem
    simp only [hidx, hget, opened]
    rcases hres with ⟨hnone, habsent⟩ | ⟨r, k, v, hsome, hk, hmem, hshrunk⟩
    · left
      refine ⟨by rw [hnone], fun e he heq => ?_⟩
      have hmem' : (displace e.1 off, e.2) ∈ slots
          ((nodeInternal d s keys children).relocate off) := by
        rw [ht.slots_relocate]
        exact List.mem_map_of_mem (f := fun e => (displace e.1 off, e.2)) he
      rw [hslots', hs'.slots_eq, heq] at hmem'
      simp only [List.mem_append] at hmem'
      rcases hmem' with (hbelow | hmid) | habove
      · exact absurd (hs'.below _ hbelow) (lt_irrefl key)
      · rw [hcW.slots_relocate] at hmid
        obtain ⟨x, hx, hxe⟩ := List.mem_map.1 hmid
        simp only [Prod.mk.injEq] at hxe
        rw [← hxe.2]
        exact habsent x hx (by rw [Int64.add_comm]; exact hxe.1)
      · exact absurd (hs'.above _ habove) (lt_irrefl key)
    · right
      have hget_ch : (children.map (·.relocate d))[i]? = some (c.relocate d) := by simp [hget]
      have hkmem : displace k d ∈ keysOf (c.relocate d) := by
        rw [hcW.keysOf_relocate]
        exact List.mem_map_of_mem (List.mem_map_of_mem (f := Prod.fst) hmem)
      obtain ⟨b₁, b₂, hs⟩ := Spine.of_mem hch hget_ch hkmem
      have hslots_c := hcW.slots_relocate d
      have hyield : r.Yields p h W (drop k (slots c)) := by
        rcases hshrunk with hr | ⟨hsmall, -⟩
        · exact hr
        · rw [hcfull] at hsmall
          cases hsmall
      have hmove := relocateIns_spec hyield hW
      rw [← drop_map (displace_injective d) k, ← hslots_c] at hmove
      have hdrop := hs.drop_eq
      have hw : ∀ e ∈ drop (displace k d) (slots (c.relocate d)), Within b₁ b₂ e.1 :=
        fun e he => child_within hs.child e (List.mem_filter.1 he).1
      have hfound : displace (displace k d) off = key := by
        rw [Displace.displace_displace, Int64.add_comm, hk]
      have hin : (displace k d, some v) ∈ slots (nodeInternal d s keys children) := by
        rw [hslots, hs.slots_eq, hslots_c]
        exact List.mem_append_left _ (List.mem_append_right _
          (List.mem_map_of_mem (f := fun e : K × Option V => (displace e.1 d, e.2)) hmem))
      rw [hsome]
      cases r with
      | done t' =>
        obtain ⟨hf, hfU, hfslots, hlo, hhi⟩ := hs.fix_spec h2 hU hmove.1 (hmove.2 ▸ hw)
        rw [hmove.2] at hfslots
        refine ⟨_, displace k d, v, rfl, hfound, hin, ?_⟩
        rw [hslots, hdrop, ← hfslots]
        generalize fix (keys.map (displace · d)) ((children.map (·.relocate d)).set i
          (t'.relocate d)) i = res at *
        obtain ⟨ks', ch'⟩ := res
        simp only at *
        rcases ch' with _ | ⟨x, _ | ⟨y, xs⟩⟩
        · simp only [List.length_nil] at hlo
          omega
        · right
          obtain ⟨_, _, hx⟩ := hf.of_mem x (by simp)
          refine ⟨?_, internal ks' [x], rfl, ?_, ?_⟩
          · rw [hunder, decide_eq_true_eq]
            simp only [List.length_singleton] at hlo
            simp only [minB, arityB]
            omega
          · simpa [shrinkRoot, internal] using hx.1.1.sound
          · simp [shrinkRoot, internal]
        · left
          exact ⟨Node.internal (by simp) (hhi.trans hB) hfU hf, slots_internal _ _⟩
      | split l sep r =>
        refine ⟨_, displace k d, v, rfl, hfound, hin, Or.inl ?_⟩
        rw [hslots, hdrop]
        exact hs.finish_spec hB hU hmove hw

/-- Removing below a node, at an offset that carries its keys in order. -/
theorem rem_spec (key : K) : ∀ (fuel h : Nat) (U U' : K → Prop) (t : Tree K V M) (off : Dsp), h ≤ fuel →
    Node p h U t → Shift off U U' → Removes p h U key t off (rem key fuel t off) := by
  intro fuel
  induction fuel with
  | zero =>
    intro h U U' t off hh ht
    obtain rfl : h = 0 := by omega
    cases t <;> exact ht.elim
  | succ fuel ih =>
    intro h U U' t off hh ht hoff
    cases h with
    | zero => cases t <;> exact ht.elim
    | succ h =>
      cases t with
      | nil => exact ht.elim
      | nodeSplit d s col pivot lo hi => exact ht.elim
      | nodeLeaf d s items => exact rem_leaf ht hoff fuel
      | nodeInternal d s keys children =>
        exact rem_internal ht hoff fun W W' c off' hc hs => ih h W W' c off' (by omega) hc hs

/-- A plain map without the row at `k`: keys reserved without rows stay. -/
def dropRow (k : K) (S : List (K × Option V)) : List (K × Option V) :=
  S.filter fun e => e.1 ≠ k ∨ e.2.isNone

omit [RunValue V] in
theorem rowsOf_dropRow (k : K) (S : List (K × Option V)) :
    Leaf.rowsOf (dropRow k S) = drop k (Leaf.rowsOf S) := by
  induction S with
  | nil => rfl
  | cons e S ih =>
    simp only [Leaf.rowsOf, dropRow, drop] at ih ⊢
    obtain ⟨x, w⟩ := e
    cases w with
    | none => simpa using ih
    | some v => by_cases hx : x = k <;> simpa [hx] using ih

/-- **Remove**: the row at the key goes and nothing else changes. -/
theorem remove_spec {t : Tree K V M} (ht : Sound p U t) (key : K) :
    Sound p U (remove t key) ∧ slots (remove t key) = dropRow key (slots t) := by
  rcases ht with rfl | ⟨h, ht⟩
  · exact ⟨Sound.nil, rfl⟩
  · have hres := rem_spec key t.depth h U U t 0 ht.depth_eq.1.ge ht (Shift.zero fun _ hk => hk)
    unfold remove
    rcases hres with ⟨hnone, habsent⟩ | ⟨r, k, v, hsome, hk, hmem, hshrunk⟩
    · rw [hnone]
      refine ⟨ht.sound, (filter_eq_self_of fun e he => ?_).symm⟩
      by_cases hkey : e.1 = key
      · simp [habsent e he (by simpa using hkey)]
      · simp [hkey]
    · rw [Displace.displace_zero] at hk
      subst hk
      -- the key has one slot and it is a row's
      have hdrop : drop k (slots t) = dropRow k (slots t) := by
        refine List.filter_congr fun e he => ?_
        by_cases hkey : e.1 = k
        · have hv : e.2 = some v := by
            have h₁ := lookup_of_mem ht.sorted (show (e.1, e.2) ∈ slots t from he)
            have h₂ := lookup_of_mem ht.sorted hmem
            rw [hkey, h₂] at h₁
            exact (Option.some.inj h₁).symm
          simp [hkey, hv]
        · simp [hkey]
      rw [hsome, ← hdrop]
      rcases hshrunk with hr | ⟨-, t', rfl, ht', hslots⟩
      · cases r with
        | done t' =>
          simp only [shrinkRoot_node hr.1]
          exact ⟨hr.1.sound, hr.2⟩
        | split l s r => exact ⟨(root_spec hr).1.sound, (root_spec hr).2⟩
      · exact ⟨ht', hslots⟩

end Tree

end Grmpl

import Grmpl.Ent.TreeWrites

/-!
# Joins and splits

Whole trees put end to end and cut at a key. The outcome is well formed and its
slots are the two lists end to end, or the parts of one below a key and from it
on.

* `Tree.extreme_spec`: the least and the greatest key.
* `Tree.join_spec`, `Tree.split_spec`.
-/

open OrdMap Separated

namespace Grmpl

namespace Tree

variable {K V M : Type} [Displace K] [Measure K V M] {p : Bool} {h : Nat} {U : K → Prop}

/-! ## Extreme keys -/

omit [Measure K V M] in
theorem extremeKey_relocate (greatest : Bool) (fuel : Nat) (t : Tree K V M) (d off : Dsp) :
    extremeKey greatest fuel (t.relocate d) off = extremeKey greatest fuel t (off + d) := by
  cases fuel with
  | zero => rfl
  | succ fuel =>
    cases t with
    | nodeSplit e s col pivot lo hi =>
      cases col <;> simp only [relocate, extremeKey, dsp_off]
    | _ => simp only [relocate, extremeKey, dsp_off]

/-- A well-formed tree's extreme key is one of its keys and bounds them all. -/
theorem extreme_spec (greatest : Bool) : ∀ (fuel h : Nat) (t : Tree K V M), h ≤ fuel →
    Node p h U t → ∃ k, extremeKey greatest fuel t 0 = some k ∧ k ∈ keysOf t ∧
      ∀ e ∈ slots t, if greatest then e.1 ≤ k else k ≤ e.1 := by
  intro fuel
  induction fuel with
  | zero =>
    intro h t hh ht
    obtain rfl : h = 0 := by omega
    cases t <;> exact ht.elim
  | succ fuel ih =>
    intro h t hh ht
    cases h with
    | zero => cases t <;> exact ht.elim
    | succ h =>
    cases t with
    | nil => exact ht.elim
    | nodeSplit d s col pivot lo hi => exact ht.elim
    | nodeLeaf d s items =>
      have hraw := ht.2.1.ok.items_ok
      cases ht.shape with
      | leaf ho hok hslots _ _ =>
        have ho := Opened.leaf.inj ho
        subst ho
        rw [keysOf, hslots]
        obtain ⟨k, hk, hmem, hall⟩ := Leaf.extreme_spec hok.ok hok.ne_nil greatest
        refine ⟨k, ?_, hmem, hall⟩
        rw [← hk, ← Leaf.extreme_displaced hraw]
        simp [extremeKey]
      | internal ho _ _ _ _ _ _ => cases ho
    | nodeInternal d s keys children =>
      cases ht.shape with
      | leaf ho _ _ _ _ => cases ho
      | @internal _ _ ks ch ho h2 _ _ hch hslots _ =>
        obtain ⟨rfl, rfl⟩ := Opened.internal.inj ho
        have hchild : ∀ c ∈ children.map (·.relocate d), Node p h U c := fun c hc => by
          obtain ⟨_, _, ⟨hcN, _⟩, _⟩ := hch.of_mem c hc
          exact hcN
        have hsorted := ht.sorted
        rw [hslots] at hsorted
        have step : ∀ c : Tree K V M, extremeKey greatest fuel c (0 + d)
            = extremeKey greatest fuel (c.relocate d) 0 := fun c =>
          (extremeKey_relocate greatest fuel c d 0).symm
        rw [keysOf, hslots]
        simp only [extremeKey, step]
        cases greatest with
        | true =>
          have hne : children ≠ [] := by
            rintro rfl
            simp at h2
          obtain ⟨init, c, rfl⟩ := (List.eq_nil_or_concat' children).resolve_left hne
          simp only [List.map_append, List.map_cons, List.map_nil, List.flatMap_append,
            List.flatMap_cons, List.flatMap_nil, List.append_nil] at hsorted ⊢
          obtain ⟨k, hk, hmem, hall⟩ := ih h (c.relocate d) (by omega) (hchild _ (by simp))
          refine ⟨k, by simpa using hk, List.mem_append_right _ hmem, fun e he => ?_⟩
          rcases List.mem_append.1 he with he | he
          · obtain ⟨x, hx, rfl⟩ := List.mem_map.1 hmem
            exact ((sorted_append.1 hsorted).2.2 e he x hx).le
          · exact hall e he
        | false =>
          obtain ⟨c, rest, rfl⟩ := List.exists_cons_of_ne_nil
            (show children ≠ [] by rintro rfl; simp at h2)
          simp only [List.map_cons, List.flatMap_cons] at hsorted ⊢
          obtain ⟨k, hk, hmem, hall⟩ := ih h (c.relocate d) (by omega) (hchild _ (by simp))
          refine ⟨k, by simpa using hk, by simp [keysOf] at hmem ⊢; exact Or.inl hmem,
            fun e he => ?_⟩
          rcases List.mem_append.1 he with he | he
          · exact hall e he
          · obtain ⟨x, hx, rfl⟩ := List.mem_map.1 hmem
            exact ((sorted_append.1 hsorted).2.2 x hx e he).le

theorem minKey_spec {t : Tree K V M} (ht : Node p h U t) :
    ∃ k, t.minKey = some k ∧ k ∈ keysOf t ∧ ∀ e ∈ slots t, k ≤ e.1 := by
  simpa [minKey] using extreme_spec false t.depth h t ht.depth_eq.1.ge ht

theorem maxKey_spec {t : Tree K V M} (ht : Node p h U t) :
    ∃ k, t.maxKey = some k ∧ k ∈ keysOf t ∧ ∀ e ∈ slots t, e.1 ≤ k := by
  simpa [maxKey] using extreme_spec true t.depth h t ht.depth_eq.1.ge ht

/-! ## Join -/

variable {l r t : Tree K V M}

/-- Every key of one tree lies below every key of the other. -/
def Before (l r : Tree K V M) : Prop := ∀ x ∈ slots l, ∀ y ∈ slots r, x.1 < y.1

instance (l r : Tree K V M) : Decidable (Before l r) :=
  inferInstanceAs (Decidable (∀ x ∈ slots l, ∀ y ∈ slots r, x.1 < y.1))

theorem joinSame_spec (hl : Node p h U l) (hr : Node p h U r) (hlr : Before l r) :
    (joinSame l r).Yields p h U (slots l ++ slots r) := by
  obtain ⟨k, hk, hkr, hkmin⟩ := minKey_spec hr
  obtain ⟨e, he, rfl⟩ := List.mem_map.1 hkr
  have hpair := (fusePair_spec hl hr (hr.keys _ hkr) (fun x hx => hlr x hx e he) hkmin).1
  have hfuse : fuse [e.1] [l, r] 0 = ((fusePair e.1 l r).seps, (fusePair e.1 l r).trees) := by
    simpa using fuse_eq [] [] [] [] e.1 l r rfl
  unfold joinSame
  simp only [hk, hfuse]
  cases hres : fusePair e.1 l r with
  | done t => rw [hres] at hpair; exact hpair
  | split a s b => rw [hres] at hpair; exact hpair

/-- A result put after the children of a node. -/
theorem finish_last {ks : List K} {ca : List (Tree K V M)} {b : Option K} {res : Ins K V M}
    {S : List (K × Option V)} (ha : Seg (Child p h U) none b ks ca) (hres : res.Yields p h U S)
    (hfull : res.Full) (hw : ∀ e ∈ S, Within b none e.1) (hpos : 0 < ca.length)
    (hB : ca.length < arityB) (hU : ∀ k ∈ ks, U k) :
    (finish (ks ++ res.seps) (ca ++ res.trees)).Yields p (h + 1) U (ca.flatMap slots ++ S) ∧
      (minB ≤ ca.length + 1 → (finish (ks ++ res.seps) (ca ++ res.trees)).Full) := by
  obtain ⟨hf, hfU, hfslots⟩ := hres.forest hfull hw
  have hchain := Forest.unzoom ha hf .nil
  rw [List.append_nil, List.append_nil] at hchain
  have hlen : 1 ≤ res.trees.length ∧ res.trees.length ≤ 2 := by
    cases res <;> simp [Ins.trees]
  have hsum : (ca ++ res.trees).length = ca.length + res.trees.length := List.length_append
  have hfin := finish_spec hchain (by omega) (by simp only [arityB] at hB ⊢; omega) ?_
  · rw [List.flatMap_append, hfslots] at hfin
    exact ⟨hfin.1, fun hmin => hfin.2 (by omega)⟩
  · intro k hk
    rcases List.mem_append.1 hk with hk | hk
    · exact hU k hk
    · exact hfU k hk

/-- A result put before the children of a node. -/
theorem finish_first {ks : List K} {cb : List (Tree K V M)} {b : Option K} {res : Ins K V M}
    {S : List (K × Option V)} (hb : Tail (Child p h U) b none ks cb) (hres : res.Yields p h U S)
    (hfull : res.Full) (hw : ∀ e ∈ S, Within none b e.1) (hpos : 0 < cb.length)
    (hB : cb.length < arityB) (hU : ∀ k ∈ ks, U k) :
    (finish (res.seps ++ ks) (res.trees ++ cb)).Yields p (h + 1) U (S ++ cb.flatMap slots) ∧
      (minB ≤ cb.length + 1 → (finish (res.seps ++ ks) (res.trees ++ cb)).Full) := by
  obtain ⟨hf, hfU, hfslots⟩ := hres.forest hfull hw
  have hchain := Forest.unzoom .nil hf hb
  rw [List.nil_append, List.nil_append] at hchain
  have hlen : 1 ≤ res.trees.length ∧ res.trees.length ≤ 2 := by
    cases res <;> simp [Ins.trees]
  have hsum : (res.trees ++ cb).length = res.trees.length + cb.length := List.length_append
  have hfin := finish_spec hchain (by omega) (by simp only [arityB] at hB ⊢; omega) ?_
  · rw [List.flatMap_append, hfslots] at hfin
    exact ⟨hfin.1, fun hmin => hfin.2 (by omega)⟩
  · intro k hk
    rcases List.mem_append.1 hk with hk | hk
    · exact hfU k hk
    · exact hU k hk

/-- No well-formed subtree has height `0`, so an internal node is not a leaf's
height. -/
theorem Node.height_pos (ht : Node p h U t) : 0 < h := by
  cases h with
  | zero => cases t <;> exact ht.elim
  | succ h => exact Nat.succ_pos h

theorem joinRight_spec {hr : Nat} (hr' : Node p hr U r) : ∀ (fuel h : Nat) (t : Tree K V M),
    h ≤ fuel → hr < h → Node p h U t → Before t r →
      (joinRight r hr fuel t h).Yields p h U (slots t ++ slots r) ∧
        (t.underflows = false → (joinRight r hr fuel t h).Full) := by
  intro fuel
  induction fuel with
  | zero => intro h t hh hlt; omega
  | succ fuel ih =>
    intro h t hh hlt ht hbefore
    have hpos := hr'.height_pos
    cases ht.shape with
    | leaf _ _ _ _ _ => omega
    | @internal _ h ks ch ho h2 hB hU hch hslots hunder =>
      obtain ⟨ca, c, b, rfl, hseg, hc⟩ := hch.toSeg
      have hlen : (ca ++ [c]).length = ca.length + 1 := by simp
      have hflat : (ca ++ [c]).flatMap slots = ca.flatMap slots ++ slots c := by simp
      have hsorted := ht.sorted
      rw [hslots, hflat] at hsorted
      have hcr : ∀ x ∈ slots c, ∀ y ∈ slots r, x.1 < y.1 := fun x hx =>
        hbefore x (by rw [hslots, hflat]; exact List.mem_append_right _ hx)
      have hbr : ∀ y ∈ slots r, Within b none y.1 := by
        intro y hy
        obtain ⟨x, hx⟩ := List.exists_mem_of_ne_nil _ hc.1.1.slots_ne_nil
        exact ⟨fun l hl => ((child_within hc x hx).1 l hl).trans (hcr x hx y hy).le, by simp⟩
      unfold joinRight
      simp only [ho, Nat.add_sub_cancel]
      split
      · rename_i heq
        subst heq
        obtain ⟨k, hk, hkr, hkmin⟩ := minKey_spec hr'
        obtain ⟨e, he, rfl⟩ := List.mem_map.1 hkr
        have hchain : Forest (Child p h U) none (some e.1) ks (ca ++ [c]) :=
            hch.rebound fun d hd x hx => by
          obtain ⟨y, hy, rfl⟩ := List.mem_map.1 hx
          exact ⟨by simp, by simpa using hbefore y (hslots ▸ List.mem_flatMap.2 ⟨d, hd, hy⟩) e he⟩
        have hUk : ∀ k ∈ ks ++ [e.1], U k := by
          intro k hk
          rcases List.mem_append.1 hk with hk | hk
          · exact hU k hk
          · rw [List.mem_singleton.1 hk]
            exact hr'.keys _ hkr
        have hfix := fix_spec (by simp) hchain.toSegment hr'
          (fun x hx => ⟨by simpa using hkmin x hx, by simp⟩)
          (Tail.nil : Tail (Child p h U) none none [] []) (by simpa using hUk)
        simp only [hk]
        rw [List.append_nil] at hfix
        obtain ⟨hf, hfU, hfslots, hlo, hhi⟩ := hfix
        generalize fix (ks ++ [e.1]) (ca ++ [c] ++ [r]) (ca ++ [c]).length = res at *
        simp only [List.length_append, List.length_singleton] at hlo hhi hB h2
        have hfin := finish_spec hf (by omega) (by simp only [arityB] at hB ⊢; omega) hfU
        rw [hfslots, List.flatMap_append, List.flatMap_singleton] at hfin
        rw [hslots]
        refine ⟨hfin.1, fun hfull => hfin.2 ?_⟩
        rw [hunder, decide_eq_false_iff_not] at hfull
        simp only [List.length_append, List.length_singleton] at hfull
        omega
      · rename_i hne
        have hlast : (ca ++ [c]).getLast? = some c := by simp
        have hdrop : (ca ++ [c]).dropLast = ca := by simp
        have hrec := ih h c (by omega) (by omega) hc.1.1 hcr
        have hfin := finish_last hseg hrec.1 (hrec.2 hc.1.2) (fun e he => ?_) (by omega)
          (by omega) hU
        · rw [← List.append_assoc, ← hflat, ← hslots] at hfin
          have hfull : t.underflows = false →
              (finish (ks ++ (joinRight r hr fuel c h).seps)
                (ca ++ (joinRight r hr fuel c h).trees)).Full := by
            intro hfull
            rw [hunder, decide_eq_false_iff_not] at hfull
            exact hfin.2 (by omega)
          simp only [hlast, hdrop]
          cases hres : joinRight r hr fuel c h with
          | done c' =>
            rw [hres] at hfin hfull
            simpa [Ins.seps, Ins.trees] using And.intro hfin.1 hfull
          | split a s b =>
            rw [hres] at hfin hfull
            simpa [Ins.seps, Ins.trees] using And.intro hfin.1 hfull
        · rcases List.mem_append.1 he with he | he
          · exact child_within hc e he
          · exact hbr e he

theorem joinLeft_spec {hl : Nat} (hl' : Node p hl U l) : ∀ (fuel h : Nat) (t : Tree K V M),
    h ≤ fuel → hl < h → Node p h U t → Before l t →
      (joinLeft l hl fuel t h).Yields p h U (slots l ++ slots t) ∧
        (t.underflows = false → (joinLeft l hl fuel t h).Full) := by
  intro fuel
  induction fuel with
  | zero => intro h t hh hlt; omega
  | succ fuel ih =>
    intro h t hh hlt ht hbefore
    have hpos := hl'.height_pos
    cases ht.shape with
    | leaf _ _ _ _ _ => omega
    | @internal _ h ks ch ho h2 hB hU hch hslots hunder =>
      obtain ⟨c, cb, b, rfl, hc, htail⟩ := hch.toTail
      have hsorted := ht.sorted
      rw [hslots, List.flatMap_cons] at hsorted
      have hlc : ∀ x ∈ slots l, ∀ y ∈ slots c, x.1 < y.1 := fun x hx y hy =>
        hbefore x hx y (by rw [hslots, List.flatMap_cons]; exact List.mem_append_left _ hy)
      have hlb : ∀ x ∈ slots l, Within none b x.1 := by
        intro x hx
        obtain ⟨y, hy⟩ := List.exists_mem_of_ne_nil _ hc.1.1.slots_ne_nil
        exact ⟨by simp, fun u hu => (hlc x hx y hy).trans ((child_within hc y hy).2 u hu)⟩
      simp only [List.length_cons] at h2 hB hunder
      unfold joinLeft
      simp only [ho, Nat.add_sub_cancel, List.head?_cons, List.tail_cons]
      split
      · rename_i heq
        subst heq
        obtain ⟨k, hk, hkc, hkmin⟩ := minKey_spec hc.1.1
        obtain ⟨e, he, rfl⟩ := List.mem_map.1 hkc
        -- the first child's least key is the least of all
        have hall : ∀ x ∈ slots t, e.1 ≤ x.1 := by
          intro x hx
          rw [hslots, List.flatMap_cons] at hx
          rcases List.mem_append.1 hx with hx | hx
          · exact hkmin x hx
          · exact ((sorted_append.1 hsorted).2.2 e he x hx).le
        have hchain : Forest (Child p h U) (some e.1) none ks (c :: cb) :=
            hch.rebound fun d hd x hx => by
          obtain ⟨y, hy, rfl⟩ := List.mem_map.1 hx
          exact ⟨by simpa using hall y (hslots ▸ List.mem_flatMap.2 ⟨d, hd, hy⟩), by simp⟩
        have hUk : ∀ k ∈ e.1 :: ks, U k := by
          intro k hk
          rcases List.mem_cons.1 hk with rfl | hk
          · exact hc.1.1.keys _ hkc
          · exact hU k hk
        have hfix := fix_spec (by simp) (Seg.nil : Seg (Child p h U) none none [] []) hl'
          (fun x hx => ⟨by simp, by simpa using hlc x hx e he⟩) (.cons hchain) hUk
        simp only [hk]
        obtain ⟨hf, hfU, hfslots, hlo, hhi⟩ := hfix
        simp only [List.nil_append, List.length_nil] at hf hfU hfslots hlo hhi
        generalize fix (e.1 :: ks) (l :: c :: cb) 0 = res at *
        simp only [List.length_cons] at hlo hhi
        have hfin := finish_spec hf (by omega) (by simp only [arityB] at hB ⊢; omega) hfU
        rw [hfslots, List.flatMap_cons] at hfin
        rw [hslots]
        refine ⟨hfin.1, fun hfull => hfin.2 ?_⟩
        rw [hunder, decide_eq_false_iff_not] at hfull
        omega
      · rename_i hne
        have hrec := ih h c (by omega) (by omega) hc.1.1 hlc
        have hfin := finish_first htail hrec.1 (hrec.2 hc.1.2) (fun e he => ?_) (by omega)
          (by omega) hU
        · rw [List.append_assoc, ← List.flatMap_cons, ← hslots] at hfin
          have hfull : t.underflows = false →
              (finish ((joinLeft l hl fuel c h).seps ++ ks)
                ((joinLeft l hl fuel c h).trees ++ cb)).Full := by
            intro hfull
            rw [hunder, decide_eq_false_iff_not] at hfull
            exact hfin.2 (by omega)
          cases hres : joinLeft l hl fuel c h with
          | done c' =>
            rw [hres] at hfin hfull
            exact ⟨hfin.1, hfull⟩
          | split a s b =>
            rw [hres] at hfin hfull
            exact ⟨hfin.1, hfull⟩
        · rcases List.mem_append.1 he with he | he
          · exact hlb e he
          · exact child_within hc e he

theorem Sound.sorted (ht : Sound p U t) : Sorted (slots t) := by
  rcases ht with rfl | ⟨h, ht⟩
  · exact List.Pairwise.nil
  · exact ht.sorted

/-- **Join**: two trees end to end. -/
theorem join_spec (hl : Sound p U l) (hr : Sound p U r) (hlr : Before l r) :
    Sound p U (join l r) ∧ slots (join l r) = slots l ++ slots r := by
  rcases hl with rfl | ⟨hl, hl'⟩
  · exact ⟨hr, rfl⟩
  rcases hr with rfl | ⟨hr, hr'⟩
  · have hjoin : join l nil = l := by cases l <;> rfl
    rw [hjoin, slots_nil, List.append_nil]
    exact ⟨hl'.sound, rfl⟩
  have finish : ∀ (h : Nat) (res : Ins K V M), res.Yields p h U (slots l ++ slots r) →
      ∀ out, (∀ t, res = .done t → out = t) → (∀ a s b, res = .split a s b → out = internal [s] [a, b]) →
        Sound p U out ∧ slots out = slots l ++ slots r := by
    intro h res hres out hdone hsplit
    cases res with
    | done t =>
      obtain rfl := hdone t rfl
      exact ⟨hres.1.sound, hres.2⟩
    | split a s b =>
      obtain rfl := hsplit a s b rfl
      exact ⟨(root_spec hres).1.sound, (root_spec hres).2⟩
  unfold join
  simp only [hl'.isEmpty, hr'.isEmpty, hl'.depth_eq.2, hr'.depth_eq.2, Bool.false_eq_true, if_false]
  rcases Nat.lt_trichotomy hl hr with hlt | heq | hgt
  · rw [if_neg (by omega), if_neg (by omega), hr'.depth_eq.1]
    exact finish hr _ (joinLeft_spec hl' hr hr r (Nat.le_refl _) hlt hr' hlr).1 _
      (fun t ht => by rw [ht]) fun a s b hsplit => by rw [hsplit]
  · subst heq
    rw [if_pos rfl]
    exact finish hl _ (joinSame_spec hl' hr' hlr) _ (fun t ht => by rw [ht]) fun a s b hsplit => by rw [hsplit]
  · rw [if_neg (by omega), if_pos hgt, hl'.depth_eq.1]
    exact finish hl _ (joinRight_spec hr' hl hl l (Nat.le_refl _) hgt hl' hlr).1 _
      (fun t ht => by rw [ht]) fun a s b hsplit => by rw [hsplit]

/-! ## Split -/

theorem side_spec {items : List (Item K V)} (hok : Leaf.Ok items)
    (hp : p = true → Leaf.Plain items ∧ items.length ≤ arityB)
    (hU : ∀ e ∈ Leaf.slots items, U e.1) :
    Sound p U (side items : Tree K V M) ∧ slots (side items : Tree K V M) = Leaf.slots items := by
  unfold side
  by_cases hnil : items = []
  · subst hnil
    exact ⟨Sound.nil, rfl⟩
  · simp only [List.isEmpty_iff, hnil, if_false]
    exact ⟨(Node.leaf ⟨hnil, hok, hp⟩ hU).sound, slots_leaf items⟩

/-- A list of children, as a tree of its own. -/
theorem fromParts_spec {ks : List K} {ch : List (Tree K V M)} {lo hi : Option K}
    (hch : Forest (Child p h U) lo hi ks ch) (hB : ch.length ≤ arityB) (hU : ∀ k ∈ ks, U k) :
    Sound p U (fromParts ks ch) ∧ slots (fromParts ks ch) = ch.flatMap slots := by
  match ch, hch with
  | [], hch => exact ⟨Sound.nil, rfl⟩
  | [c], hch =>
    obtain ⟨_, _, hc⟩ := hch.of_mem c (by simp)
    exact ⟨hc.1.1.sound, by simp [fromParts]⟩
  | c :: d :: cs, hch =>
    exact ⟨(Node.internal (by simp) hB hU (hch.rebound fun _ _ x _ => within_none x)).sound,
      slots_internal _ _⟩

theorem splitAt_spec (key : K) : ∀ (fuel h : Nat) (t : Tree K V M), h ≤ fuel → Node p h U t →
    (Sound p U (splitAt key fuel t).1 ∧ slots (splitAt key fuel t).1 = below key (slots t)) ∧
      Sound p U (splitAt key fuel t).2 ∧ slots (splitAt key fuel t).2 = atLeast key (slots t) := by
  intro fuel
  induction fuel with
  | zero =>
    intro h t hh ht
    obtain rfl : h = 0 := by omega
    cases t <;> exact ht.elim
  | succ fuel ih =>
    intro h t hh ht
    unfold splitAt
    simp only [ht.isEmpty, Bool.false_eq_true, if_false]
    cases ht.shape with
    | @leaf _ items ho hok hslots hU _ =>
      obtain ⟨hokl, hokr, hlo, hhi⟩ := Leaf.splitAt_spec hok.ok key
      have hplain : p = true → (Leaf.Plain (Leaf.splitAt items key).1 ∧
          (Leaf.splitAt items key).1.length ≤ arityB) ∧
          Leaf.Plain (Leaf.splitAt items key).2 ∧
          (Leaf.splitAt items key).2.length ≤ arityB := by
        intro hpt
        obtain ⟨hpl, hB⟩ := hok.plain hpt
        obtain ⟨h₁, h₂, h₃, h₄⟩ := hpl.splitAt key
        exact ⟨⟨h₁, h₃.trans hB⟩, h₂, h₄.trans hB⟩
      have hl := side_spec (M := M) (U := U) hokl (fun hpt => (hplain hpt).1)
        fun e he => hU e (List.mem_filter.1 (hlo ▸ he)).1
      have hr := side_spec (M := M) (U := U) hokr (fun hpt => (hplain hpt).2)
        fun e he => hU e (List.mem_filter.1 (hhi ▸ he)).1
      simp only [ho]
      rw [hslots, ← hlo, ← hhi]
      exact ⟨hl, hr⟩
    | @internal _ h ks ch ho h2 hB hU hch hslots _ =>
      obtain ⟨c, b₁, b₂, hs⟩ := childIndex_spec hch key
      obtain ⟨⟨hml, hmlslots⟩, hmr, hmrslots⟩ := ih h c (by omega) hs.child.1.1
      have hsplit := hs.slots_eq
      simp only [ho, hs.get]
      generalize childIndex ks 0 key = i at *
      have hleft : Sound p U (fromParts (ks.take (i - 1)) (ch.take i)) ∧
          slots (fromParts (ks.take (i - 1)) (ch.take i)) = (ch.take i).flatMap slots := by
        have hlen : (ch.take i).length ≤ arityB := by
          rw [List.length_take]
          omega
        rcases hs.seg.eq_nil_or_snoc with ⟨-, -, hnil⟩ | ⟨b', ks', k, ca, d, hks, hca, -, hseg, hd⟩
        · rw [hnil]
          exact ⟨Sound.nil, rfl⟩
        · have htake : ks.take (i - 1) = ks' := by
            have hi : (ks.take i).length = i := by
              have hlt := hs.lt
              have := hch.length_eq
              rw [List.length_take]
              omega
            have hi' : i - 1 = ks'.length := by
              rw [hks] at hi
              simp at hi
              omega
            have hmin : (ks.take i).take (i - 1) = ks.take (i - 1) := by
              rw [List.take_take, Nat.min_eq_left (Nat.sub_le i 1)]
            rw [← hmin, hks, hi', List.take_left]
          rw [hca] at hlen
          rw [htake, hca]
          refine fromParts_spec (hseg.toForest hd) hlen fun x hx => hU x ?_
          exact List.mem_of_mem_take (hks ▸ List.mem_append_left _ hx)
      have hright : Sound p U (fromParts (ks.drop (i + 1)) (ch.drop (i + 1))) ∧
          slots (fromParts (ks.drop (i + 1)) (ch.drop (i + 1)))
            = (ch.drop (i + 1)).flatMap slots := by
        have hlen : (ch.drop (i + 1)).length ≤ arityB := by
          rw [List.length_drop]
          omega
        have htail := hs.tail
        have hdrop : ks.drop (i + 1) = (ks.drop i).tail := by rw [List.tail_drop]
        have hUd : ∀ x ∈ (ks.drop i).tail, U x :=
          fun x hx => hU x (List.mem_of_mem_drop (List.mem_of_mem_tail hx))
        rw [hdrop]
        generalize ks.drop i = kd at *
        generalize ch.drop (i + 1) = cd at *
        cases htail with
        | nil => exact ⟨Sound.nil, rfl⟩
        | cons hf => exact fromParts_spec hf hlen hUd
      have hcl : ∀ e ∈ slots c, Within b₁ b₂ e.1 := child_within hs.child
      have hbl : Before (fromParts (ks.take (i - 1)) (ch.take i)) (splitAt key fuel c).1 := by
        intro x hx y hy
        rw [hleft.2] at hx
        rw [hmlslots] at hy
        obtain ⟨d, hd, hx⟩ := List.mem_flatMap.1 hx
        exact hs.seg.keys_lt_of (hcl y (List.mem_filter.1 hy).1).1 d hd _ (List.mem_map_of_mem hx)
      have hbr : Before (splitAt key fuel c).2 (fromParts (ks.drop (i + 1)) (ch.drop (i + 1))) := by
        intro x hx y hy
        rw [hright.2] at hy
        rw [hmrslots] at hx
        obtain ⟨d, hd, hy⟩ := List.mem_flatMap.1 hy
        exact hs.tail.keys_gt_of (hcl x (List.mem_filter.1 hx).1).2 d hd _ (List.mem_map_of_mem hy)
      have hjl := join_spec hleft.1 hml hbl
      have hjr := join_spec hmr hright.1 hbr
      have hcutl : below key (slots t) = (ch.take i).flatMap slots ++ below key (slots c) := by
        have h₁ := (below_append_of (b := []) hs.below (by simp)).1
        have h₂ := (below_append_of (a := []) (by simp) fun e he => (hs.above e he).le).1
        rw [List.append_nil] at h₁
        rw [List.nil_append] at h₂
        rw [hslots, hsplit, below_append, below_append, h₁, h₂, List.append_nil]
      have hcutr : atLeast key (slots t) = atLeast key (slots c) ++ (ch.drop (i + 1)).flatMap slots := by
        have h₁ := (below_append_of (b := []) hs.below (by simp)).2
        have h₂ := (below_append_of (a := []) (by simp) fun e he => (hs.above e he).le).2
        rw [List.append_nil] at h₁
        rw [List.nil_append] at h₂
        rw [hslots, hsplit, atLeast_append, atLeast_append, h₁, h₂, List.nil_append]
      rw [hcutl, hcutr, ← hmlslots, ← hmrslots, ← hleft.2, ← hright.2]
      exact ⟨hjl, hjr⟩

/-- **Split**: the entries below a key, and those from it on. -/
theorem split_spec (ht : Sound p U t) (key : K) :
    (Sound p U (t.split key).1 ∧ slots (t.split key).1 = below key (slots t)) ∧
      Sound p U (t.split key).2 ∧ slots (t.split key).2 = atLeast key (slots t) := by
  rcases ht with rfl | ⟨h, ht⟩
  · exact ⟨⟨Sound.nil, rfl⟩, Sound.nil, rfl⟩
  · obtain ⟨mx, hmx, -, hmax⟩ := maxKey_spec ht
    obtain ⟨mn, hmn, -, hmin⟩ := minKey_spec ht
    unfold split
    simp only [hmx, hmn]
    split
    · rename_i hlt
      have hall := below_append_of (b := []) (fun e he => (hmax e he).trans_lt hlt) (by simp)
      rw [List.append_nil] at hall
      exact ⟨⟨ht.sound, hall.1.symm⟩, Sound.nil, hall.2.symm⟩
    · split
      · rename_i hle
        have hall := below_append_of (a := []) (by simp) fun e he => hle.trans (hmin e he)
        rw [List.nil_append] at hall
        exact ⟨⟨Sound.nil, hall.1.symm⟩, ht.sound, hall.2.symm⟩
      · exact splitAt_spec key t.depth h t ht.depth_eq.1.ge ht

end Tree

end Grmpl

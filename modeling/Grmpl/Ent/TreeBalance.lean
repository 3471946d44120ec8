import Grmpl.Ent.TreeInv

/-!
# Balance

What every rewrite of a node yields: one well-formed tree, or two with a
separator between them, of the height and contents asked for. The pieces that
split, fuse and restore the occupancy floor are specified by it.

* `Ins.Yields`, `Ins.Full`: the outcome of a rewrite.
* `Tree.halved_spec`, `Tree.finishLeaf_spec`, `Tree.finish_spec`: rewritten nodes.
* `Tree.fusePair_spec`, `Tree.fix_spec`: siblings.
-/

open OrdMap Separated

namespace Grmpl

variable {K V M : Type} [Displace K] [Measure K V M] {p : Bool} {h : Nat} {U : K → Prop}

open Grmpl.Tree

/-- A rewrite gave well-formed trees of height `h` with the slots `S`. -/
def Ins.Yields (p : Bool) (h : Nat) (U : K → Prop) (S : List (K × Option V)) :
    Ins K V M → Prop
  | .done t => Node p h U t ∧ slots t = S
  | .split l s r =>
      (Node p h U l ∧ l.underflows = false) ∧ (Node p h U r ∧ r.underflows = false) ∧ U s ∧
        slots l ++ slots r = S ∧ (∀ e ∈ slots l, e.1 < s) ∧ ∀ e ∈ slots r, s ≤ e.1

/-- A lone result is at the occupancy floor; two always are. -/
def Ins.Full : Ins K V M → Prop
  | .done t => t.underflows = false
  | .split .. => True

/-- The separators a result puts in its parent. -/
def Ins.seps : Ins K V M → List K
  | .done _ => []
  | .split _ s _ => [s]

/-- The children a result puts in its parent. -/
def Ins.trees : Ins K V M → List (Tree K V M)
  | .done t => [t]
  | .split l _ r => [l, r]

namespace Tree

/-- A well-formed tree whose keys lie in bounds fits them as a child. -/
theorem Node.child {t : Tree K V M} {lo hi : Option K} (ht : Node p h U t)
    (hfull : t.underflows = false) (hw : ∀ e ∈ slots t, Within lo hi e.1) :
    Child p h U lo hi t := by
  refine ⟨⟨ht, hfull⟩, by simpa [keysOf] using ht.slots_ne_nil, fun k hk => ?_⟩
  obtain ⟨e, he, rfl⟩ := List.mem_map.1 hk
  exact hw e he

theorem child_within {t : Tree K V M} {lo hi : Option K} (hc : Child p h U lo hi t) :
    ∀ e ∈ slots t, Within lo hi e.1 := fun _ he => hc.2.2 _ (List.mem_map_of_mem he)

end Tree

/-- A result stands for its tree where that tree stood. -/
theorem Ins.Yields.forest {r : Ins K V M} {S : List (K × Option V)} {lo hi : Option K}
    (hr : r.Yields p h U S) (hfull : r.Full) (hw : ∀ e ∈ S, Within lo hi e.1) :
    Forest (Child p h U) lo hi r.seps r.trees ∧ (∀ k ∈ r.seps, U k) ∧
      r.trees.flatMap slots = S := by
  cases r with
  | done t =>
    obtain ⟨ht, rfl⟩ := hr
    exact ⟨.one (ht.child hfull hw), by simp [Ins.seps], by simp [Ins.trees]⟩
  | split l s r =>
    obtain ⟨⟨hl, hlf⟩, ⟨hr, hrf⟩, hs, rfl, hls, hrs⟩ := hr
    refine ⟨.cons (hl.child hlf fun e he => ?_) (.one (hr.child hrf fun e he => ?_)),
      by simpa [Ins.seps] using hs, by simp [Ins.trees]⟩
    · exact ⟨(hw e (by simp [he])).1, by simpa using hls e he⟩
    · exact ⟨by simpa using hrs e he, (hw e (by simp [he])).2⟩

namespace Tree

/-! ## Rewritten nodes -/

theorem slots_leaf (items : List (Item K V)) :
    slots (leaf items : Tree K V M) = Leaf.slots items := by
  simp [slots, slotsAt, leaf, Item.displaced]

theorem slots_internal (ks : List K) (ch : List (Tree K V M)) :
    slots (internal ks ch) = ch.flatMap slots := by
  simp [slots, slotsAt, internal, slotsList_eq]
  rfl

theorem underflows_leaf (items : List (Item K V)) :
    (leaf items : Tree K V M).underflows = decide (items.length < minB) := rfl

theorem underflows_internal (ks : List K) (ch : List (Tree K V M)) :
    (internal ks ch).underflows = decide (ch.length < minB) := rfl

/-- A leaf of enough well-formed items. -/
theorem leaf_full {x : List (Item K V)} (hok : Leaf.Ok x) (hmin : minB ≤ x.length)
    (hp : p = true → Leaf.Plain x ∧ x.length ≤ arityB) (hU : ∀ e ∈ Leaf.slots x, U e.1) :
    Node p 1 U (leaf x : Tree K V M) ∧ (leaf x : Tree K V M).underflows = false := by
  refine ⟨Node.leaf ⟨fun hnil => ?_, hok, hp⟩ hU, by simpa [underflows_leaf] using hmin⟩
  simp [hnil, minB, arityB] at hmin

/-- An overfull leaf's halves are both full enough. -/
theorem halved_spec {e : List (Item K V)} (hok : Leaf.Ok e) (hlen : arityB < e.length)
    (hp : p = true → Leaf.Plain e ∧ e.length ≤ 2 * arityB) (hU : ∀ x ∈ Leaf.slots e, U x.1) :
    (halved e : Ins K V M).Yields p 1 U (Leaf.slots e) ∧ (halved e : Ins K V M).Full := by
  have hsplit := List.take_append_drop (e.length / 2) e
  have hleft : (e.take (e.length / 2)).length = e.length / 2 := by simp; omega
  have hright : (e.drop (e.length / 2)).length = e.length - e.length / 2 := by simp
  obtain ⟨it, rest, hcons⟩ := List.exists_cons_of_length_pos
    (show 0 < (e.drop (e.length / 2)).length by rw [hright]; simp only [arityB] at hlen; omega)
  have hhalf : (halved e : Ins K V M)
      = .split (leaf (e.take (e.length / 2))) it.loKey (leaf (e.drop (e.length / 2))) := by
    simp [halved, hcons]
  rw [hhalf]
  generalize e.length = n at *
  generalize e.take (n / 2) = a at *
  generalize e.drop (n / 2) = b at *
  subst hsplit hcons
  obtain ⟨hoka, hit, -, hlo, -, -⟩ := Leaf.ok_middle hok
  have hokr : Leaf.Ok (it :: rest) := (Leaf.ok_append.1 hok).2.1
  obtain ⟨w, hw⟩ := Item.loKey_mem_slots (hit.items_ok it (by simp))
  rw [Leaf.slots_append] at hU ⊢
  simp only [arityB] at hlen hp
  refine ⟨⟨?_, ?_, hU (it.loKey, w) (by simp [hw]), by rw [slots_leaf, slots_leaf], ?_, ?_⟩, trivial⟩
  · refine leaf_full hoka (by simp only [minB, arityB]; omega) (fun hpt => ⟨?_, ?_⟩)
      fun x hx => hU x (List.mem_append_left _ hx)
    · exact fun y hy => (hp hpt).1 y (List.mem_append_left _ hy)
    · have := (hp hpt).2
      simp only [arityB]
      omega
  · refine leaf_full hokr (by simp only [minB, arityB]; omega) (fun hpt => ⟨?_, ?_⟩)
      fun x hx => hU x (List.mem_append_right _ hx)
    · exact fun y hy => (hp hpt).1 y (List.mem_append_right _ hy)
    · have := (hp hpt).2
      simp only [arityB]
      omega
  · rw [slots_leaf]
    exact hlo
  · rw [slots_leaf]
    exact Leaf.loKey_le hokr

/-- A rewritten leaf that is not empty. -/
theorem finishLeaf_spec [RunValue V] {e : List (Item K V)} {runs : Bool} (hok : Leaf.Ok e)
    (hne : e ≠ []) (hp : p = true → Leaf.Plain e ∧ runs = false ∧ e.length ≤ 2 * arityB)
    (hU : ∀ x ∈ Leaf.slots e, U x.1) :
    (finishLeaf e runs : Ins K V M).Yields p 1 U (Leaf.slots e) := by
  have hfold : Leaf.Same e (if arityB < e.length then Leaf.compress e runs else e) ∧
      (p = true → (if arityB < e.length then Leaf.compress e runs else e) = e) := by
    split
    · refine ⟨Leaf.compress_spec hok runs, fun hpt => ?_⟩
      obtain ⟨hplain, rfl, -⟩ := hp hpt
      exact hplain.compress_eq
    · exact ⟨Leaf.Same.refl hok, fun _ => rfl⟩
  unfold finishLeaf
  dsimp only
  generalize (if arityB < e.length then Leaf.compress e runs else e) = e' at *
  obtain ⟨⟨hok', hslots, hlen⟩, hsame⟩ := hfold
  have hne' : e' ≠ [] := by
    rintro rfl
    obtain ⟨it, hit⟩ := List.exists_mem_of_ne_nil _ hne
    obtain ⟨w, hw⟩ := Item.loKey_mem_slots (hok.items_ok it hit)
    have : (it.loKey, w) ∈ Leaf.slots e := Leaf.mem_slots.2 ⟨it, hit, hw⟩
    rw [← hslots] at this
    simp at this
  rw [← hslots] at hU ⊢
  split
  · rename_i hfits
    simp only [List.isEmpty_iff, hne', if_false]
    refine ⟨Node.leaf ⟨hne', hok', fun hpt => ⟨?_, hfits⟩⟩ hU, slots_leaf e'⟩
    exact hsame hpt ▸ (hp hpt).1
  · rename_i hover
    refine (halved_spec hok' (by omega) (fun hpt => ?_) hU).1
    rw [hsame hpt]
    exact ⟨(hp hpt).1, (hp hpt).2.2⟩

/-- A rewritten list of children. -/
theorem finish_spec {ks : List K} {ch : List (Tree K V M)}
    (hch : Forest (Child p h U) none none ks ch) (h2 : 2 ≤ ch.length)
    (hlen : ch.length ≤ 2 * arityB) (hU : ∀ k ∈ ks, U k) :
    (finish ks ch).Yields p (h + 1) U (ch.flatMap slots) ∧
      (minB ≤ ch.length → (finish ks ch).Full) := by
  unfold finish
  split
  · rename_i hfits
    refine ⟨⟨Node.internal h2 hfits hU hch, slots_internal ks ch⟩, fun hmin => ?_⟩
    rw [Ins.Full, underflows_internal]
    simpa using hmin
  · rename_i hover
    have hhalf : arityB < ch.length := by omega
    simp only [arityB] at hhalf hlen
    obtain ⟨k, hk, hl, hr⟩ := hch.cut (m := ch.length / 2) (by omega) (by omega)
    simp only [hk]
    have hsplit := List.take_append_drop (ch.length / 2) ch
    have hleft : (ch.take (ch.length / 2)).length = ch.length / 2 := by simp; omega
    have hright : (ch.drop (ch.length / 2)).length = ch.length - ch.length / 2 := by simp
    have hUl : ∀ x ∈ (ks.take (ch.length / 2)).dropLast, U x :=
      fun x hx => hU x (List.mem_of_mem_take (List.dropLast_subset _ hx))
    have hUr : ∀ x ∈ ks.drop (ch.length / 2), U x := fun x hx => hU x (List.mem_of_mem_drop hx)
    refine ⟨⟨⟨Node.internal (by omega) (by simp only [arityB]; omega) hUl ?_, ?_⟩,
      ⟨Node.internal (by omega) (by simp only [arityB]; omega) hUr ?_, ?_⟩, ?_, ?_, ?_, ?_⟩,
      fun _ => trivial⟩
    · exact hl.rebound fun _ _ x _ => within_none x
    · exact decide_eq_false (by simp only [minB, arityB]; omega)
    · exact hr.rebound fun _ _ x _ => within_none x
    · exact decide_eq_false (by simp only [minB, arityB]; omega)
    · exact hU k (List.mem_of_mem_take (List.mem_of_getLast? hk))
    · rw [slots_internal, slots_internal, ← List.flatMap_append, hsplit]
    · rw [slots_internal]
      intro e he
      obtain ⟨c, hc, he⟩ := List.mem_flatMap.1 he
      exact hl.keys_lt c hc _ (List.mem_map_of_mem he)
    · rw [slots_internal]
      intro e he
      obtain ⟨c, hc, he⟩ := List.mem_flatMap.1 he
      exact hr.keys_ge c hc _ (List.mem_map_of_mem he)

/-! ## Siblings -/

/-- Two siblings fused; if one was full enough, so is what comes out. -/
theorem fusePair_spec {sep : K} {l r : Tree K V M} (hl : Node p h U l) (hr : Node p h U r)
    (hsep : U sep) (hls : ∀ e ∈ slots l, e.1 < sep) (hrs : ∀ e ∈ slots r, sep ≤ e.1) :
    (fusePair sep l r).Yields p h U (slots l ++ slots r) ∧
      (l.underflows = false ∨ r.underflows = false → (fusePair sep l r).Full) := by
  have hkeys : ∀ e ∈ slots l ++ slots r, U e.1 := by
    intro e he
    rcases List.mem_append.1 he with he | he
    · exact hl.keys _ (List.mem_map_of_mem he)
    · exact hr.keys _ (List.mem_map_of_mem he)
  have no_children : ∀ (ks : List K) (ch : List (Tree K V M)), 2 ≤ ch.length →
      ¬ Forest (Child p 0 U) none none ks ch := by
    intro ks ch h2 hch
    obtain ⟨c, hc⟩ := List.exists_mem_of_length_pos (show 0 < ch.length by omega)
    obtain ⟨_, _, ⟨hcN, -⟩, -⟩ := hch.of_mem c hc
    cases c <;> exact hcN
  cases hl.shape with
  | @leaf _ a hlo hoka hlslots _ hlf => cases hr.shape with
    | @leaf _ b hro hokb hrslots _ hrf =>
      have hok : Leaf.Ok (a ++ b) := Leaf.ok_append.2 ⟨hoka.ok, hokb.ok, fun x hx y hy =>
        (hls x (hlslots ▸ hx)).trans_le (hrs y (hrslots ▸ hy))⟩
      have hplain : p = true → Leaf.Plain (a ++ b) := fun hpt it hit =>
        (List.mem_append.1 hit).elim ((hoka.plain hpt).1 it) ((hokb.plain hpt).1 it)
      rw [hlslots, hrslots, ← Leaf.slots_append] at hkeys ⊢
      simp only [fusePair, hlo, hro]
      split
      · rename_i hfits
        refine ⟨⟨Node.leaf ⟨by simp [hoka.ne_nil], hok, fun hpt => ⟨hplain hpt, hfits⟩⟩ hkeys,
          slots_leaf _⟩, fun hone => decide_eq_false ?_⟩
        simp only [hlf, hrf, decide_eq_false_iff_not] at hone
        rw [List.length_append]
        omega
      · rename_i hover
        have hhalf := halved_spec (M := M) hok (by omega) (fun hpt => ⟨hplain hpt, ?_⟩) hkeys
        · exact ⟨hhalf.1, fun _ => hhalf.2⟩
        · have ha := (hoka.plain hpt).2
          have hb := (hokb.plain hpt).2
          rw [List.length_append]
          omega
    | internal _ h2 _ _ hch _ _ => exact absurd hch (no_children _ _ h2)
  | @internal _ h ka ca hlo hl2 hlB hlU hlch hlslots hlf => cases hr.shape with
    | leaf _ _ _ _ _ => exact absurd hlch (no_children _ _ hl2)
    | @internal _ _ kb cb hro hr2 hrB hrU hrch hrslots hrf =>
      have hchain : Forest (Child p h U) none none (ka ++ sep :: kb) (ca ++ cb) := by
        refine Forest.append (hlch.rebound fun c hc x hx => ?_) (hrch.rebound fun c hc x hx => ?_)
        · obtain ⟨e, he, rfl⟩ := List.mem_map.1 hx
          exact ⟨by simp, by simpa using hls e (hlslots ▸ List.mem_flatMap.2 ⟨c, hc, he⟩)⟩
        · obtain ⟨e, he, rfl⟩ := List.mem_map.1 hx
          exact ⟨by simpa using hrs e (hrslots ▸ List.mem_flatMap.2 ⟨c, hc, he⟩), by simp⟩
      have hlen : (ca ++ cb).length = ca.length + cb.length := List.length_append
      have hU : ∀ k ∈ ka ++ sep :: kb, U k := by
        simp only [List.mem_append, List.mem_cons]
        rintro k (hk | rfl | hk)
        · exact hlU k hk
        · exact hsep
        · exact hrU k hk
      have hfin := finish_spec hchain (by omega) (by omega) hU
      rw [List.flatMap_append, ← hlslots, ← hrslots] at hfin
      simp only [fusePair, hlo, hro]
      refine ⟨hfin.1, fun hone => hfin.2 ?_⟩
      simp only [hlf, hrf, decide_eq_false_iff_not] at hone
      omega

/-- `fuse` replaces two siblings and their separator by what they fuse to. -/
theorem fuse_eq (ka kb : List K) (ca cb : List (Tree K V M)) (k : K) (l r : Tree K V M)
    (hlen : ca.length = ka.length) :
    fuse (ka ++ k :: kb) (ca ++ l :: r :: cb) ka.length
      = (ka ++ (fusePair k l r).seps ++ kb, ca ++ (fusePair k l r).trees ++ cb) := by
  have hk : (ka ++ k :: kb)[ka.length]? = some k := by simp
  have hl : (ca ++ l :: r :: cb)[ka.length]? = some l := by simp [← hlen]
  have hr : (ca ++ l :: r :: cb)[ka.length + 1]? = some r := by simp [← hlen]
  have hks : (ka ++ k :: kb).take ka.length = ka ∧ (ka ++ k :: kb).drop (ka.length + 1) = kb := by
    simp
  have hch : (ca ++ l :: r :: cb).take ka.length = ca ∧
      (ca ++ l :: r :: cb).drop (ka.length + 2) = cb := by
    simp [← hlen]
  unfold fuse
  simp only [hk, hl, hr, hks, hch]
  cases fusePair k l r <;> simp [Ins.seps, Ins.trees]

/-- Two siblings of a chain fused, one of them perhaps too small. -/
theorem fuse_spec {ka kb : List K} {ca cb : List (Tree K V M)} {k : K} {l r : Tree K V M}
    {b₁ b₂ : Option K} (ha : Seg (Child p h U) none b₁ ka ca) (hl : Node p h U l)
    (hlw : ∀ e ∈ slots l, Within b₁ (some k) e.1) (hr : Node p h U r)
    (hrw : ∀ e ∈ slots r, Within (some k) b₂ e.1) (hb : Tail (Child p h U) b₂ none kb cb)
    (hU : ∀ x ∈ ka ++ k :: kb, U x) (hone : l.underflows = false ∨ r.underflows = false) :
    let res := fuse (ka ++ k :: kb) (ca ++ l :: r :: cb) ka.length
    Forest (Child p h U) none none res.1 res.2 ∧ (∀ x ∈ res.1, U x) ∧
      res.2.flatMap slots = (ca ++ l :: r :: cb).flatMap slots ∧
      (ca ++ l :: r :: cb).length ≤ res.2.length + 1 ∧
      res.2.length ≤ (ca ++ l :: r :: cb).length := by
  have hls : ∀ e ∈ slots l, e.1 < k := fun e he => (hlw e he).2 k rfl
  have hrs : ∀ e ∈ slots r, k ≤ e.1 := fun e he => (hrw e he).1 k rfl
  obtain ⟨hyield, hfull⟩ := fusePair_spec hl hr (hU k (by simp)) hls hrs
  have hw : ∀ e ∈ slots l ++ slots r, Within b₁ b₂ e.1 := by
    intro e he
    rcases List.mem_append.1 he with he | he
    · refine ⟨(hlw e he).1, fun u hu => ?_⟩
      obtain ⟨x, hx⟩ := List.exists_mem_of_ne_nil _ hr.slots_ne_nil
      exact ((hls e he).trans_le (hrs x hx)).trans ((hrw x hx).2 u hu)
    · refine ⟨fun b hb => ?_, (hrw e he).2⟩
      obtain ⟨x, hx⟩ := List.exists_mem_of_ne_nil _ hl.slots_ne_nil
      exact ((hlw x hx).1 b hb).trans ((hls x hx).trans_le (hrs e he)).le
  obtain ⟨hf, hfU, hfslots⟩ := hyield.forest (hfull hone) hw
  rw [fuse_eq ka kb ca cb k l r ha.length_eq]
  refine ⟨Forest.unzoom ha hf hb, fun x hx => ?_, ?_, ?_, ?_⟩
  · simp only [List.mem_append] at hx
    rcases hx with (hx | hx) | hx
    · exact hU x (by simp [hx])
    · exact hfU x hx
    · exact hU x (by simp [hx])
  · simp only [List.flatMap_append, hfslots, List.flatMap_cons, List.append_assoc]
  · cases fusePair k l r with
    | done t => simp [Ins.trees]; omega
    | split l' s r' => simp [Ins.trees]
  · cases fusePair k l r <;> simp [Ins.trees]

/-- The occupancy floor of one child restored: the others are full enough, and
the chain keeps its contents and loses at most one child. -/
theorem fix_spec {ka kb : List K} {ca cb : List (Tree K V M)} {c : Tree K V M}
    {b₁ b₂ : Option K} (h2 : 0 < ca.length + cb.length) (ha : Seg (Child p h U) none b₁ ka ca)
    (hc : Node p h U c) (hcw : ∀ e ∈ slots c, Within b₁ b₂ e.1)
    (hb : Tail (Child p h U) b₂ none kb cb) (hU : ∀ k ∈ ka ++ kb, U k) :
    let res := fix (ka ++ kb) (ca ++ c :: cb) ca.length
    Forest (Child p h U) none none res.1 res.2 ∧ (∀ x ∈ res.1, U x) ∧
      res.2.flatMap slots = (ca ++ c :: cb).flatMap slots ∧
      (ca ++ c :: cb).length ≤ res.2.length + 1 ∧ res.2.length ≤ (ca ++ c :: cb).length := by
  have hget : (ca ++ c :: cb)[ca.length]? = some c := by simp
  unfold fix
  simp only [hget, Option.map_some, Option.getD_some]
  split
  · split
    · rename_i hpos
      rcases ha.eq_nil_or_snoc with ⟨-, -, rfl⟩ | ⟨b', ka', k, ca', d, rfl, rfl, rfl, ha', hd⟩
      · simp at hpos
      · have hfuse := fuse_spec ha' hd.1.1 (child_within hd) hc hcw hb (by simpa using hU)
          (Or.inl hd.1.2)
        simpa [ha'.length_eq] using hfuse
    · rename_i hzero
      obtain rfl : ca = [] := List.length_eq_zero_iff.1 (by omega)
      obtain ⟨rfl, rfl⟩ : ka = [] ∧ b₁ = none := by cases ha; exact ⟨rfl, rfl⟩
      cases hb with
      | nil => simp at h2
      | @cons _ k kb cb hf =>
        obtain ⟨d, cb', b₃, rfl, hd, htl⟩ := hf.toTail
        have hfuse := fuse_spec .nil hc hcw hd.1.1 (child_within hd) htl (by simpa using hU)
          (Or.inr hd.1.2)
        simpa using hfuse
  · rename_i hfull
    refine ⟨?_, hU, rfl, Nat.le_succ _, Nat.le_refl _⟩
    have := Forest.unzoom ha (.one (hc.child (by simpa using hfull) hcw)) hb
    simpa using this

end Tree

end Grmpl

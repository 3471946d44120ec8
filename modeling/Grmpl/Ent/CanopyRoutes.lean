import Grmpl.Ent.Canopy
import Grmpl.Ent.TreeGraft

/-!
# The canopy's routing is complete

The canopy walks its tree without carrying a displacement, which is right because
nothing ever moves a canopy: every node of it stands where it was put. On such a
tree a walk returns exactly the interests its test keeps, those pruned by the
measure or by a separator being none of them.

* `Tree.Still`: no node is displaced; inserts keep it so.
* `Canopy.Wellformed`, `Canopy.mem_walk`.
* `Canopy.mem_stab`, `Canopy.mem_overlap`, `Canopy.mem_route`, `Canopy.mem_routeSpan`.
-/

open OrdMap Separated

namespace Grmpl

/-! ## Trees that never move -/

namespace Tree

variable {K V M : Type}

/-- A B+ tree none of whose nodes is displaced. -/
inductive Still : Tree K V M → Prop
  | nil : Still nil
  | leaf (s : Summary M) (items : List (Item K V)) : Still (nodeLeaf 0 s items)
  | internal (s : Summary M) (keys : List K) (children : List (Tree K V M)) :
      (∀ c ∈ children, Still c) → Still (nodeInternal 0 s keys children)

/-- What a rewritten subtree leaves is still. -/
def Ins.AllStill : Ins K V M → Prop
  | .done t => Still t
  | .split l _ r => Still l ∧ Still r

variable [Displace K]

/-- Opening a still node changes nothing. -/
theorem Still.opened_leaf {t : Tree K V M} (ht : Still t) {items : List (Item K V)}
    (ho : t.opened = .leaf items) : t.view = .leaf items := by
  cases ht with
  | nil => exact congrArg View.leaf (Opened.leaf.inj ho)
  | leaf s its =>
    have heq : its.map (·.displaced 0) = items := Opened.leaf.inj ho
    rw [← heq]
    simp [view, Item.displaced]
  | internal s keys children h => cases ho

theorem Still.opened_internal {t : Tree K V M} (ht : Still t) {ks : List K}
    {ch : List (Tree K V M)} (ho : t.opened = .internal ks ch) :
    t.view = .sep ks ch ∧ ∀ c ∈ ch, Still c := by
  cases ht with
  | nil => cases ho
  | leaf s its => cases ho
  | internal s keys children h =>
    obtain ⟨hks, hch⟩ := Opened.internal.inj ho
    have hks' : keys = ks := by simpa using hks
    have hch' : children = ch := by simpa using hch
    subst hks' hch'
    exact ⟨rfl, h⟩

variable [Measure K V M]

theorem still_leaf (items : List (Item K V)) : Still (leaf items : Tree K V M) := .leaf _ _

theorem still_internal (ks : List K) {ch : List (Tree K V M)} (h : ∀ c ∈ ch, Still c) :
    Still (internal ks ch) := .internal _ _ _ h

theorem still_halved (items : List (Item K V)) : Ins.AllStill (halved items : Ins K V M) := by
  unfold halved
  dsimp only
  split
  · exact ⟨still_leaf _, still_leaf _⟩
  · exact still_leaf _

theorem still_finish (ks : List K) {ch : List (Tree K V M)} (h : ∀ c ∈ ch, Still c) :
    Ins.AllStill (finish ks ch) := by
  unfold finish
  split
  · exact still_internal _ h
  · dsimp only
    split
    · exact ⟨still_internal _ fun c hc => h c (List.mem_of_mem_take hc),
        still_internal _ fun c hc => h c (List.mem_of_mem_drop hc)⟩
    · exact still_internal _ h

theorem still_fusePair (sep : K) {l r : Tree K V M} (hl : Still l) (hr : Still r) :
    Ins.AllStill (fusePair sep l r) := by
  unfold fusePair
  split
  · split
    · exact still_leaf _
    · exact still_halved _
  · rename_i ho ho'
    refine still_finish _ fun c hc => ?_
    rcases List.mem_append.1 hc with hc | hc
    · exact (hl.opened_internal ho).2 c hc
    · exact (hr.opened_internal ho').2 c hc
  · exact ⟨hl, hr⟩

theorem still_fuse {ks : List K} {ch : List (Tree K V M)} (j : Nat) (h : ∀ c ∈ ch, Still c) :
    ∀ c ∈ (fuse ks ch j).2, Still c := by
  unfold fuse
  split
  · rename_i hl hr
    have hpair := still_fusePair (by assumption) (h _ (List.mem_of_getElem? hl))
      (h _ (List.mem_of_getElem? hr))
    split <;> rename_i hres <;> rw [hres] at hpair <;> intro c hc <;>
      simp only [List.mem_append, List.mem_cons] at hc
    · rcases hc with hc | rfl | hc
      · exact h c (List.mem_of_mem_take hc)
      · exact hpair
      · exact h c (List.mem_of_mem_drop hc)
    · rcases hc with hc | rfl | rfl | hc
      · exact h c (List.mem_of_mem_take hc)
      · exact hpair.1
      · exact hpair.2
      · exact h c (List.mem_of_mem_drop hc)
  · exact h

theorem still_fix {ks : List K} {ch : List (Tree K V M)} (i : Nat) (h : ∀ c ∈ ch, Still c) :
    ∀ c ∈ (fix ks ch i).2, Still c := by
  unfold fix
  split_ifs
  · exact still_fuse _ h
  · exact still_fuse _ h
  · exact h
  · exact h

theorem still_fromParts (ks : List K) {ch : List (Tree K V M)} (h : ∀ c ∈ ch, Still c) :
    Still (fromParts ks ch) := by
  unfold fromParts
  split
  · exact .nil
  · exact h _ (by simp)
  · exact still_internal _ h

variable [RunValue V]

theorem still_finishLeaf (items : List (Item K V)) (runs : Bool) :
    Ins.AllStill (finishLeaf items runs : Ins K V M) := by
  unfold finishLeaf
  generalize (if arityB < items.length then Leaf.compress items runs else items) = e
  show Ins.AllStill (if e.length ≤ arityB then _ else _)
  split
  · show Still (if e.isEmpty = true then nil else leaf e)
    split
    · exact .nil
    · exact still_leaf _
  · exact still_halved _

theorem still_ins (runs : Bool) (key : K) (val : V) : ∀ (fuel : Nat) (t : Tree K V M), Still t →
    Ins.AllStill (ins runs key val fuel t) := by
  intro fuel
  induction fuel with
  | zero => exact fun t ht => ht
  | succ fuel ih =>
    intro t ht
    rw [ins]
    split
    · exact still_finishLeaf _ _
    · rename_i ks ch ho
      have hch := (ht.opened_internal ho).2
      dsimp only
      split
      · exact ht
      · rename_i c hc
        have hrec := ih c (hch c (List.mem_of_getElem? hc))
        split <;> rename_i hres <;> rw [hres] at hrec
        · refine still_fromParts _ (still_fix _ fun x hx => ?_)
          rcases List.mem_or_eq_of_mem_set hx with hx | rfl
          · exact hch x hx
          · exact hrec
        · refine still_finish _ fun x hx => ?_
          simp only [List.mem_append, List.mem_cons] at hx
          rcases hx with hx | rfl | rfl | hx
          · exact hch x (List.mem_of_mem_take hx)
          · exact hrec.1
          · exact hrec.2
          · exact hch x (List.mem_of_mem_drop hx)
    · exact ht

/-- An insert displaces nothing. -/
theorem Still.insertWith {t : Tree K V M} (ht : Still t) (key : K) (val : V) (runs : Bool) :
    Still (t.insertWith key val runs) := by
  unfold Tree.insertWith
  split
  · exact still_leaf _
  · have hins := still_ins runs key val t.depth t ht
    split <;> rename_i hres <;> rw [hres] at hins
    · exact hins
    · refine still_internal _ fun c hc => ?_
      rcases List.mem_cons.1 hc with rfl | hc
      · exact hins.1
      · rw [List.mem_singleton.1 hc]
        exact hins.2

end Tree

/-! ## The measure -/

namespace Endorsement

theorem dominates_or_left {a r : Endorsement} (b : Endorsement) (h : a.dominates r = true) :
    dominates (a ||| b) r = true := by
  simp only [dominates, decide_eq_true_eq] at h ⊢
  apply UInt64.eq_of_toBitVec_eq
  have hbits := congrArg UInt64.toBitVec h
  rw [UInt64.toBitVec_and] at hbits
  rw [UInt64.toBitVec_and, UInt64.toBitVec_or]
  ext i hi
  have hbit := congrArg (·.getLsbD i) hbits
  simp only [BitVec.getLsbD_and] at hbit
  simp only [← BitVec.getLsbD_eq_getElem, BitVec.getLsbD_and, BitVec.getLsbD_or]
  cases hr : r.toBitVec.getLsbD i <;> simp_all

theorem dominates_or_right {b r : Endorsement} (a : Endorsement) (h : b.dominates r = true) :
    dominates (a ||| b) r = true := by
  rw [UInt64.or_comm]
  exact dominates_or_left a h

end Endorsement

namespace Reach

theorem later_assoc (a b c : Option Tuple) : later (later a b) c = later a (later b c) := by
  cases a <;> cases b <;> cases c <;> simp [later, max_assoc]

theorem later_none (a : Option Tuple) : later a none = a := by cases a <;> rfl

instance instLawfulMeasure : LawfulMeasure InterestKey (Tuple × Endorsement) Reach where
  combine_assoc a b c := by
    simp [Measure.combine, later_assoc, UInt64.or_assoc]
  empty_combine a := by
    simp [Measure.combine, Measure.empty, later, Endorsement.none]
  combine_empty a := by
    simp [Measure.combine, Measure.empty, later_none, Endorsement.none]
  displace_zero _ := rfl
  displace_empty _ := rfl
  displace_combine _ _ _ := rfl
  displace_entry _ _ _ := rfl
  run_eq _ _ _ _ h := h.elim
  hole_eq _ _ _ := rfl

/-- What a list of interests reaches past, each of them reaches past it. -/
theorem ofEntries_reaches {l : List (InterestKey × (Tuple × Endorsement))}
    {e : InterestKey × (Tuple × Endorsement)} (he : e ∈ l) :
    (∃ h ∈ (Measure.ofEntries Reach l).maxHi, e.2.1 ≤ h) ∧
      ∀ r, e.2.2.dominates r = true → (Measure.ofEntries Reach l).endorse.dominates r = true := by
  induction l with
  | nil => exact absurd he (by simp)
  | cons x l ih =>
    have hcons : Measure.ofEntries Reach (x :: l)
        = Measure.combine InterestKey (Tuple × Endorsement) (Measure.entry x.1 x.2)
            (Measure.ofEntries Reach l) := by
      rw [← Measure.ofEntries_singleton, ← Measure.ofEntries_append]
      rfl
    rw [hcons]
    show (∃ h ∈ later (some x.2.1) (Measure.ofEntries Reach l).maxHi, e.2.1 ≤ h) ∧
      ∀ r, e.2.2.dominates r = true →
        Endorsement.dominates (x.2.2 ||| (Measure.ofEntries Reach l).endorse) r = true
    rcases List.mem_cons.1 he with rfl | he
    · refine ⟨?_, fun r hr => Endorsement.dominates_or_left _ hr⟩
      cases (Measure.ofEntries Reach l).maxHi with
      | none => exact ⟨e.2.1, rfl, le_rfl⟩
      | some m => exact ⟨max e.2.1 m, rfl, le_max_left _ _⟩
    · obtain ⟨⟨h, hh, hle⟩, hdom⟩ := ih he
      refine ⟨?_, fun r hr => Endorsement.dominates_or_right _ (hdom r hr)⟩
      rw [Option.mem_def.1 hh]
      exact ⟨max x.2.1 h, rfl, hle.trans (le_max_right _ _)⟩

end Reach

/-! ## The walk -/

namespace Canopy

open Tree

/-- A child is entered if no separator before it stops the walk and the one after
it does not skip it. -/
theorem mem_childrenFor {rel : Nat} {past : Tuple → Bool} {ks : List InterestKey}
    {ch : List CanopyEnf} {i : Nat} {c : CanopyEnf} (hc : ch[i]? = some c)
    (hstop : ∀ j < i, ∀ k ∈ ks[j]?, ¬ (rel < k.rel ∨ k.rel = rel ∧ past k.lo = true))
    (hskip : ∀ k ∈ ks[i]?, rel ≤ k.rel) : c ∈ childrenFor rel past ks ch := by
  obtain ⟨hlt, -⟩ := List.getElem?_eq_some_iff.1 hc
  unfold childrenFor
  refine List.mem_filterMap.2 ⟨i, List.mem_filter.2 ⟨?_, ?_⟩, hc⟩
  · have hsplit : List.range ch.length
        = List.range (i + 1) ++ (List.range ch.length).drop (i + 1) := by
      rw [← List.take_append_drop (i + 1) (List.range ch.length), List.take_range,
        Nat.min_eq_left hlt]
      simp
    rw [hsplit, List.takeWhile_append_of_pos]
    · exact List.mem_append_left _ (List.mem_range.2 (Nat.lt_succ_self i))
    · intro j hj
      have hj' : j ≤ i := Nat.lt_succ_iff.1 (List.mem_range.1 hj)
      cases j with
      | zero => rfl
      | succ j =>
        simp only [Nat.add_sub_cancel, Bool.not_eq_true', Bool.and_eq_false_iff]
        right
        rw [← Bool.not_eq_true, Option.any_eq_true]
        rintro ⟨k, hk, hst⟩
        exact hstop j (by omega) k hk (by simpa using hst)
  · rw [Bool.not_eq_true', ← Bool.not_eq_true, Option.any_eq_true]
    rintro ⟨k, hk, hsk⟩
    exact absurd (hskip k hk) (by simpa using hsk)

/-- The rows of a plain leaf are its items. -/
theorem rowsOf_plain {K V : Type} [Displace K] {items : List (Item K V)} (h : Leaf.Plain items) :
    Leaf.rowsOf (Leaf.slots items) = items.filterMap Item.asOne := by
  induction items with
  | nil => rfl
  | cons it items ih =>
    obtain ⟨k, v, rfl⟩ := h it (by simp)
    have htl := ih fun x hx => h x (by simp [hx])
    rw [Leaf.slots, List.flatMap_cons, Leaf.rowsOf_append, ← Leaf.slots, htl]
    rfl

variable {rel : Nat} {start : Tuple} {past : Tuple → Bool} {required : Endorsement}
  {keep : InterestKey → Tuple → Bool}

theorem keysOf_of_rows {t : CanopyEnf} {e : InterestKey × (Tuple × Endorsement)} (he : e ∈ rows t) :
    e.1 ∈ keysOf t := by
  obtain ⟨x, hx, hxe⟩ := List.mem_filterMap.1 he
  obtain ⟨v, -, rfl⟩ := Option.map_eq_some_iff.1 hxe
  exact List.mem_map_of_mem hx

/-- The interests a walk is to find. -/
def Found (rel : Nat) (required : Endorsement) (keep : InterestKey → Tuple → Bool)
    (e : InterestKey × (Tuple × Endorsement)) : Prop :=
  e.1.rel = rel ∧ keep e.1 e.2.1 = true ∧ e.2.2.dominates required = true

/-- **A walk finds exactly what it is to find**, when what its test keeps reaches
past its start and does not begin past its end. -/
theorem mem_walk (hpast : ∀ a b, a ≤ b → past a = true → past b = true)
    (hkeep : ∀ k hi, keep k hi = true → start < hi ∧ past k.lo = false) :
    ∀ (fuel h : Nat) (U : InterestKey → Prop) (t : CanopyEnf), h ≤ fuel → Node true h U t →
      Still t → ∀ id, id ∈ walk rel start past required keep fuel t ↔
        ∃ e ∈ rows t, Found rel required keep e ∧ e.1.id = id := by
  intro fuel
  induction fuel with
  | zero =>
    intro h U t hh ht
    obtain rfl : h = 0 := by omega
    cases t <;> exact ht.elim
  | succ fuel ih =>
    intro h U t hh ht hstill id
    have hmeasure : t.measure = Measure.ofEntries Reach (rows t) := ht.measure_eq
    rw [walk, if_neg (by simp [ht.isEmpty])]
    split_ifs with hshort hweak
    · -- nothing below reaches past the start
      refine ⟨fun hid => absurd hid (by simp), ?_⟩
      rintro ⟨e, he, hfound, -⟩
      obtain ⟨m, hm, hle⟩ := (Reach.ofEntries_reaches he).1
      rw [hmeasure, Option.mem_def.1 hm] at hshort
      have hstart := (hkeep _ _ hfound.2.1).1
      exact absurd (hstart.trans_le hle) (not_lt.2 (by simpa using hshort))
    · -- nothing below carries the flags
      refine ⟨fun hid => absurd hid (by simp), ?_⟩
      rintro ⟨e, he, hfound, -⟩
      have hdom := (Reach.ofEntries_reaches he).2 required hfound.2.2
      rw [hmeasure, hdom] at hweak
      exact absurd hweak (by simp)
    · cases ht.shape with
      | @leaf _ items ho hok hslots _ _ =>
        rw [hstill.opened_leaf ho]
        dsimp only
        have hrows : rows t = items.filterMap Item.asOne := by
          rw [rows, hslots]
          exact rowsOf_plain (hok.plain rfl).1
        rw [hrows, List.mem_filterMap]
        refine exists_congr fun e => and_congr_right fun _ => ?_
        rw [Option.ite_none_right_eq_some]
        simp [Found, and_assoc]
      | @internal _ h' ks ch ho _ _ _ hch hslots _ =>
        obtain ⟨hview, hbelow⟩ := hstill.opened_internal ho
        rw [hview]
        dsimp only
        have hrows : rows t = ch.flatMap rows := by
          rw [rows, hslots, rowsOf_flatMap]
          rfl
        rw [hrows, List.mem_flatMap]
        constructor
        · rintro ⟨c, hc, hid⟩
          have hmem : c ∈ ch := by
            obtain ⟨i, -, hi⟩ := List.mem_filterMap.1 hc
            exact List.mem_of_getElem? hi
          obtain ⟨_, _, ⟨hcN, -⟩, -⟩ := hch.of_mem c hmem
          obtain ⟨e, he, hrest⟩ := (ih h' U c (by omega) hcN (hbelow c hmem) id).1 hid
          exact ⟨e, List.mem_flatMap.2 ⟨c, hmem, he⟩, hrest⟩
        · rintro ⟨e, he, hfound, hid⟩
          obtain ⟨c, hmem, he⟩ := List.mem_flatMap.1 he
          obtain ⟨_, _, ⟨hcN, -⟩, -⟩ := hch.of_mem c hmem
          refine ⟨c, ?_, (ih h' U c (by omega) hcN (hbelow c hmem) id).2 ⟨e, he, hfound, hid⟩⟩
          obtain ⟨i, hi, rfl⟩ := List.mem_iff_getElem.1 hmem
          have hwithin := (hch.bounds_at hi).2.2 e.1 (keysOf_of_rows he)
          have hsorted : ks.Pairwise (· < ·) := by simpa using hch.seps_sorted
          have hlen := hch.length_eq
          refine mem_childrenFor (List.getElem?_eq_getElem hi) (fun j hj k hk hst => ?_) fun k hk => ?_
          · -- a separator before the child is at most the key
            have hle : k ≤ e.1 := by
              obtain ⟨hjlt, rfl⟩ := List.getElem?_eq_some_iff.1 hk
              have hlow := hwithin.1 ks[i - 1] (by
                rw [if_neg (by omega), List.getElem?_eq_getElem (by omega)]
                rfl)
              refine le_trans ?_ hlow
              rcases Nat.lt_or_eq_of_le (Nat.le_pred_of_lt hj) with hlt | rfl
              · exact (List.pairwise_iff_getElem.1 hsorted j (i - 1) hjlt (by omega) hlt).le
              · exact le_rfl
            have hnot := not_lt.2 hle
            rw [InterestKey.lt_iff, hfound.1] at hnot
            rcases hst with hst | ⟨heq, hst⟩
            · exact hnot (.inl hst)
            · have hlo : k.lo ≤ e.1.lo := by
                by_contra hlo
                exact hnot (.inr ⟨heq.symm, .inl (not_le.1 hlo)⟩)
              have hend := (hkeep _ _ hfound.2.1).2
              rw [hpast _ _ hlo hst] at hend
              cases hend
          · -- the separator after it is past the key
            have hup := hwithin.2 k (by
              obtain ⟨hjlt, -⟩ := List.getElem?_eq_some_iff.1 hk
              rw [if_neg (by omega)]
              exact hk)
            rw [InterestKey.lt_iff, hfound.1] at hup
            rcases hup with hup | ⟨heq, -⟩
            · exact hup.le
            · exact heq.le

/-- The tree is well formed and never moved, and every id has been given out. -/
structure Wellformed (c : Canopy) : Prop where
  sound : Sound true anyKey c.enf
  still : Still c.enf
  given : ∀ e ∈ rows c.enf, e.1.id < c.next

/-- The interests a canopy holds. -/
def interests (c : Canopy) : List (InterestKey × (Tuple × Endorsement)) := rows c.enf

variable {c : Canopy} {id : Nat}

theorem wellformed_new : Wellformed new := ⟨Sound.nil, .nil, fun _ he => nomatch he⟩

theorem rows_registerEndorsed (hc : c.Wellformed) (rel : Nat) (lo hi : Tuple)
    (endorse : Endorsement) : (c.registerEndorsed rel lo hi endorse).1.interests
      = put ⟨rel, lo, c.next⟩ (hi, endorse) c.interests := by
  have hslots := (insertWith_spec hc.sound false (fun _ => rfl) (⟨rel, lo, c.next⟩ : InterestKey)
    trivial (hi, endorse)).2
  show Leaf.rowsOf (slots (c.enf.insertWith _ _ false)) = _
  rw [hslots]
  exact Leaf.rowsOf_put _ _ _

/-- A registration keeps the canopy well formed, and only adds its interest. -/
theorem Wellformed.register (hc : c.Wellformed) (rel : Nat) (lo hi : Tuple)
    (endorse : Endorsement) : (c.registerEndorsed rel lo hi endorse).1.Wellformed := by
  refine ⟨(insertWith_spec hc.sound false (fun _ => rfl) _ trivial _).1,
    hc.still.insertWith _ _ _, fun e he => ?_⟩
  have he' : e ∈ (c.registerEndorsed rel lo hi endorse).1.interests := he
  rw [rows_registerEndorsed hc] at he'
  rcases mem_put he' with rfl | he'
  · exact Nat.lt_succ_self _
  · exact (hc.given e he').trans (Nat.lt_succ_self _)

/-- **A stab returns the interests that contain the point.** -/
theorem mem_stab (hc : c.Wellformed) {point : Tuple} : id ∈ c.stab rel point required ↔
    ∃ e ∈ c.interests, e.1.rel = rel ∧ (e.1.lo ≤ point ∧ point < e.2.1) ∧
      e.2.2.dominates required = true ∧ e.1.id = id := by
  rcases hc.sound with hnil | ⟨h, ht⟩
  · simp [stab, interests, hnil, rows, depth, walk, Leaf.rowsOf]
  · rw [stab, mem_walk (fun a b hab ha => ?_) (fun k hi hk => ?_) _ h anyKey _ ht.depth_eq.1.ge ht hc.still]
    · simp [interests, Found, and_assoc]
    · simpa using (of_decide_eq_true ha).trans_le hab
    · simpa [and_comm] using hk

/-- **An overlap returns the interests that overlap the span.** -/
theorem mem_overlap (hc : c.Wellformed) {lo hi : Tuple} : id ∈ c.overlap rel lo hi ↔
    ∃ e ∈ c.interests, e.1.rel = rel ∧ (e.1.lo < hi ∧ lo < e.2.1) ∧ e.1.id = id := by
  rcases hc.sound with hnil | ⟨h, ht⟩
  · simp [overlap, interests, hnil, rows, depth, walk, Leaf.rowsOf]
  · rw [overlap, mem_walk (fun a b hab ha => ?_) (fun k hi hk => ?_) _ h anyKey _ ht.depth_eq.1.ge ht hc.still]
    · simp [interests, Found, Endorsement.dominates_none, and_assoc]
    · simpa using (of_decide_eq_true ha : _ ≤ a).trans hab
    · simpa [and_comm] using hk

/-- A commit is routed to the interests that contain a row it updates. -/
theorem mem_route (hc : c.Wellformed) {updates : List (Nat × Tuple × Int)} : id ∈ c.route updates ↔
    ∃ u ∈ updates, ∃ e ∈ c.interests, e.1.rel = u.1 ∧ (e.1.lo ≤ u.2.1 ∧ u.2.1 < e.2.1) ∧ e.1.id = id := by
  rw [route, routeEndorsed, List.mem_dedup, List.mem_mergeSort, List.mem_flatMap]
  simp only [mem_stab hc, Endorsement.dominates_none, true_and]

/-- A graft is routed to the interests that overlap the span it lands in. -/
theorem mem_routeSpan (hc : c.Wellformed) {lo hi : Tuple} : id ∈ c.routeSpan rel lo hi ↔
    lo < hi ∧ ∃ e ∈ c.interests, e.1.rel = rel ∧ (e.1.lo < hi ∧ lo < e.2.1) ∧ e.1.id = id := by
  rw [routeSpan, List.mem_mergeSort]
  split_ifs with hlt
  · rw [mem_overlap hc]
    simp [hlt]
  · simp [hlt]

end Canopy

end Grmpl

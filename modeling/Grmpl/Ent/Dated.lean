import Grmpl.Ent.StoreLater

/-!
# Dated versions

A branch's versions bear the editions they were written at, after its watermark or at
it, and none past its own. A write adds editions after it, a consolidation takes some
before it away, and a read does neither.

* `Inner.Dated`: the dates of a branch's versions.
* `Inner.SameRoots`, `Inner.GoesOn`, `Inner.Folds`: what reads, writes and
  consolidations leave of them.
* `BranchState.read_sameRoots`, `BranchState.write_dated`, `BranchState.merge_goesOn`.
-/

open OrdMap

namespace Grmpl

variable {F : Type}

namespace Inner

variable {i j k : Inner F} {rel : RelId}

/-- The latest version at an edition that has one is that one. -/
theorem lastLe_of_mem {versions : List (Nat × F)} (hs : Sorted versions) {v : Nat × F}
    (hv : v ∈ versions) : lastLe v.1 versions = some v.2 := by
  obtain ⟨a, c, rfl⟩ := List.append_of_mem hv
  have hcut : (a ++ v :: c).filter (fun x => x.1 ≤ v.1) = a ++ [v] := by
    obtain ⟨-, hvc, hac⟩ := List.pairwise_append.1 hs
    rw [List.filter_append, List.filter_cons_of_pos (by simp), filter_eq_self_of fun x hx => ?_,
      filter_eq_nil_of fun x hx => ?_]
    · exact decide_eq_false (not_le.2 ((List.pairwise_cons.1 hvc).1 x hx))
    · exact decide_eq_true (hac x hx v List.mem_cons_self).le
  rw [lastLe, hcut, List.getLast?_append]
  rfl

theorem mem_of_lastLe {versions : List (Nat × F)} {at' : Nat} {t : F} (h : lastLe at' versions = some t) :
    ∃ e ≤ at', (e, t) ∈ versions := by
  obtain ⟨v, hv, rfl⟩ := Option.map_eq_some_iff.1 h
  obtain ⟨hv, hle⟩ := List.mem_filter.1 (List.mem_of_getLast? hv)
  exact ⟨v.1, of_decide_eq_true hle, hv⟩

/-- The versions of a branch are dated: after its watermark or at it, and not past its
edition. -/
structure Dated (i : Inner F) : Prop where
  watermark : i.watermark ≤ i.current
  sorted : ∀ rel, Sorted (i.rootsOr rel).versions
  dates : ∀ rel, ∀ v ∈ (i.rootsOr rel).versions, 0 < v.1 ∧ i.watermark ≤ v.1 ∧ v.1 ≤ i.current

theorem Dated.factAt (h : i.Dated) {v : Nat × F} (hv : v ∈ (i.rootsOr rel).versions) :
    i.factAt rel v.1 = some v.2 := by
  rw [factAt_eq, lastLe_of_mem (h.sorted rel) hv]

/-- Two states with the same versions and records. -/
structure SameRoots (i j : Inner F) : Prop where
  current : j.current = i.current
  watermark : j.watermark = i.watermark
  roots : ∀ rel, (j.rootsOr rel).versions = (i.rootsOr rel).versions ∧
    (j.rootsOr rel).log = (i.rootsOr rel).log

theorem SameRoots.refl (i : Inner F) : SameRoots i i := ⟨rfl, rfl, fun _ => ⟨rfl, rfl⟩⟩

theorem SameRoots.trans (h : SameRoots i j) (h' : SameRoots j k) : SameRoots i k :=
  ⟨h'.current.trans h.current, h'.watermark.trans h.watermark, fun rel =>
    ⟨(h'.roots rel).1.trans (h.roots rel).1, (h'.roots rel).2.trans (h.roots rel).2⟩⟩

theorem SameRoots.of_rels (hc : j.current = i.current) (hw : j.watermark = i.watermark)
    (hr : j.rels = i.rels) : SameRoots i j := by
  refine ⟨hc, hw, fun rel => ?_⟩
  rw [rootsOr, rootsOr, Inner.roots, Inner.roots, hr]
  exact ⟨rfl, rfl⟩

theorem SameRoots.sameBelow (h : SameRoots i j) (e : Nat) : SameBelow e i j :=
  ⟨h.watermark, fun rel => ⟨by rw [(h.roots rel).1], by rw [(h.roots rel).2]⟩⟩

theorem Dated.same (hi : i.Dated) (h : SameRoots i j) : j.Dated where
  watermark := by rw [h.current, h.watermark]; exact hi.watermark
  sorted rel := by rw [(h.roots rel).1]; exact hi.sorted rel
  dates rel v hv := by
    rw [(h.roots rel).1] at hv
    rw [h.current, h.watermark]
    exact hi.dates rel v hv

/-- A state gone on from another: editions after it, and those up to it as they were. -/
structure GoesOn (i j : Inner F) : Prop where
  dated : j.Dated
  current : i.current ≤ j.current
  same : SameBelow (i.current + 1) i j

theorem SameBelow.mono {e e' : Nat} (h : SameBelow e' i j) (he : e ≤ e') : SameBelow e i j := by
  refine ⟨h.1, fun rel => ⟨?_, ?_⟩⟩
  · have := congrArg (List.filter fun v => decide (v.1 < e)) (h.2 rel).versions
    rw [List.filter_filter, List.filter_filter] at this
    refine Eq.trans ?_ (this.trans ?_) <;> refine List.filter_congr fun v _ => ?_ <;>
      (rw [← Bool.decide_and]; exact decide_eq_decide.2 (by omega))
  · have := congrArg (List.filter fun l => decide ((ofLex l.1).1 < e)) (h.2 rel).log
    rw [List.filter_filter, List.filter_filter] at this
    refine Eq.trans ?_ (this.trans ?_) <;> refine List.filter_congr fun v _ => ?_ <;>
      (rw [← Bool.decide_and]; exact decide_eq_decide.2 (by omega))

theorem SameBelow.mem_versions {e : Nat} (h : SameBelow e i j) {v : Nat × F} (hv : v.1 < e) :
    v ∈ (j.rootsOr rel).versions ↔ v ∈ (i.rootsOr rel).versions := by
  have hmem : v ∈ (j.rootsOr rel).versions.filter (fun v => v.1 < e) ↔
      v ∈ (i.rootsOr rel).versions.filter (fun v => v.1 < e) := by rw [(h.2 rel).versions]
  simpa [hv] using hmem

theorem GoesOn.refl (h : i.Dated) : GoesOn i i := ⟨h, le_rfl, .refl _ _⟩

theorem GoesOn.trans (h : GoesOn i j) (h' : GoesOn j k) : GoesOn i k :=
  ⟨h'.dated, h.current.trans h'.current, h.same.trans (h'.same.mono (Nat.succ_le_succ h.current))⟩

theorem GoesOn.of_same (h : SameRoots i j) (h' : GoesOn j k) : GoesOn i k :=
  ⟨h'.dated, h.current ▸ h'.current, (h.sameBelow _).trans (h.current ▸ h'.same)⟩

/-! ## Writes -/

/-- Versions put at one edition, in states some write goes through. -/
structure Wrote (e : Nat) (i j : Inner F) : Prop where
  same : SameBelow e i j
  sorted : ∀ rel, Sorted (i.rootsOr rel).versions → Sorted (j.rootsOr rel).versions
  fresh : ∀ rel, ∀ v ∈ (j.rootsOr rel).versions, v ∈ (i.rootsOr rel).versions ∨ v.1 = e

theorem Wrote.refl (e : Nat) (i : Inner F) : Wrote e i i := ⟨.refl e i, fun _ h => h, fun _ _ => .inl⟩

theorem Wrote.trans {e : Nat} (h : Wrote e i j) (h' : Wrote e j k) : Wrote e i k :=
  ⟨h.same.trans h'.same, fun rel hs => h'.sorted rel (h.sorted rel hs), fun rel v hv =>
    (h'.fresh rel v hv).elim (h.fresh rel v) .inr⟩

/-- The next edition written. -/
theorem Wrote.goesOn (hi : i.Dated) (h : Wrote (i.current + 1) i j) (hc : j.current = i.current + 1) :
    GoesOn i j := by
  refine ⟨⟨?_, fun rel => h.sorted rel (hi.sorted rel), fun rel v hv => ?_⟩, by omega, h.same⟩
  · rw [h.same.1, hc]
    exact hi.watermark.trans (Nat.le_succ _)
  · rw [h.same.1, hc]
    have hw := hi.watermark
    rcases h.fresh rel v hv with hv | hv
    · have := hi.dates rel v hv
      omega
    · omega

section Enf

variable [FactEnf F]

theorem wrote_applyOne (e : Nat) (i : Inner F) (u : (RelId × Tuple × Diff) × Nat) :
    Wrote e i (applyOne e i u) := by
  obtain ⟨root, orders, h⟩ := applyOne_rootsOr e i u
  refine ⟨applyOne_sameBelow e i u, fun rel hs => ?_, fun rel v hv => ?_⟩
  · rw [h rel]
    split_ifs
    · exact OrdMap.sorted_put hs
    · exact hs
  · rw [h rel] at hv
    split_ifs at hv
    · exact (mem_put hv).symm.imp_right fun heq => by rw [heq]
    · exact .inl hv

theorem goesOn_apply (hi : i.Dated) (pre : List (RelId × Tuple)) (updates : List (RelId × Tuple × Diff))
    (origin : Origin) : GoesOn i (i.apply (i.current + 1) pre updates origin) := by
  have hfold : ∀ (us : List ((RelId × Tuple × Diff) × Nat)) (k : Inner F),
      Wrote (i.current + 1) k (us.foldl (applyOne (i.current + 1)) k) := by
    intro us
    induction us with
    | nil => exact .refl _
    | cons u us ih => exact fun k => (wrote_applyOne _ k u).trans (ih _)
  have h := hfold updates.zipIdx i
  refine Wrote.goesOn hi ⟨apply_sameBelow _ _ _ _ _, fun rel hs => ?_, fun rel v hv => ?_⟩ rfl
  · rw [apply_rootsOr]
    exact h.sorted rel hs
  · rw [apply_rootsOr] at hv
    exact h.fresh rel v hv

omit [FactEnf F] in
theorem wrote_applyGraft (e : Nat) (lo hi : Tuple) (i : Inner F) (g : RelId × F) :
    Wrote e i (applyGraft e lo hi i g) := by
  have hroots : ∀ rel, (applyGraft e lo hi i g).rootsOr rel = (i.put g.1
      ⟨OrdMap.put e g.2 (i.rootsOr g.1).versions,
        OrdMap.put (toLex (e, 0)) (.graft lo hi) (i.rootsOr g.1).log, []⟩).rootsOr rel := by
    intro rel
    unfold applyGraft
    dsimp only
    split_ifs <;> rfl
  refine ⟨applyGraft_sameBelow e lo hi i g, fun rel hs => ?_, fun rel v hv => ?_⟩
  · rw [hroots, rootsOr_put]
    split_ifs with hrel
    · exact OrdMap.sorted_put (hrel ▸ hs)
    · exact hs
  · rw [hroots, rootsOr_put] at hv
    split_ifs at hv with hrel
    · exact (mem_put hv).symm.imp (fun hv => by rwa [hrel]) fun heq => by rw [heq]
    · exact .inl hv

theorem goesOn_graft {rels : List RelId} {lo hi : UInt64} {shift : Dsp} {origin : Origin} (h : i.Dated)
    (hg : i.graft rels lo hi shift origin = .ok j) : GoesOn i j := by
  obtain ⟨grafts, -, hg⟩ := bind_ok hg
  cases hg
  have hfold : ∀ (gs : List (RelId × F)) (k : Inner F), Wrote (i.current + 1) k (gs.foldl
      (applyGraft (i.current + 1) (displace (entKey lo) shift) (displace (entKey hi) shift)) k) := by
    intro gs
    induction gs with
    | nil => exact .refl _
    | cons g gs ih => exact fun k => (wrote_applyGraft _ _ _ k g).trans (ih _)
  have hw := hfold grafts i
  exact Wrote.goesOn h ⟨hw.same.trans (.of_rels rfl rfl), hw.sorted, hw.fresh⟩ rfl

/-- A merge goes on from the state it was asked of. -/
theorem goesOn_merge {theirs : Inner F} {todo : List Replay} (h : i.Dated)
    (hm : i.merge theirs todo = some j) : GoesOn i j := by
  refine merge_keeps (I := fun k : Inner F => GoesOn i k) (fun k shapes hk => ?_) (fun k _ _ _ hk => ?_)
    (fun k k' _ _ _ _ _ hk hg => ?_) ?_ hm
  · exact hk.trans ⟨hk.dated.same (.of_rels rfl rfl rfl), le_rfl, .of_rels rfl rfl⟩
  · exact hk.trans (goesOn_apply hk.dated _ _ _)
  · exact hk.trans (goesOn_graft hk.dated hg)
  · exact ⟨h.same (.of_rels rfl rfl rfl), le_rfl, .of_rels rfl rfl⟩

end Enf

/-- A fork's versions are dated as its parent's. -/
theorem Dated.forkAt (h : i.Dated) (hs : Sorted i.rels) {at' : Nat} (hw : i.watermark ≤ at') :
    (i.forkAt at').Dated := by
  by_cases hc : at' = i.current
  · refine h.same (.of_rels hc rfl ?_)
    rw [Inner.forkAt, if_pos hc]
  · refine ⟨hw, fun rel => ?_, fun rel v hv => ?_⟩
    · rw [forkAt_rootsOr hs hc]
      exact (h.sorted rel).filter _
    · rw [forkAt_rootsOr hs hc] at hv
      obtain ⟨hv, hle⟩ := List.mem_filter.1 hv
      have hdates := h.dates rel v hv
      exact ⟨hdates.1, hdates.2.1, of_decide_eq_true hle⟩

/-! ## Consolidation -/

/-- A state whose versions before an edition were folded into one at it. -/
structure Folds (wm : Nat) (i j : Inner F) : Prop where
  dated : j.Dated
  current : j.current = i.current
  watermark : j.watermark = wm
  onward : i.watermark ≤ wm
  fact : ∀ rel at', wm ≤ at' → j.factAt rel at' = i.factAt rel at'
  kept : ∀ rel, ∀ v ∈ (i.rootsOr rel).versions, wm ≤ v.1 → v ∈ (j.rootsOr rel).versions
  folded : ∀ rel, ∀ v ∈ (j.rootsOr rel).versions, v ∈ (i.rootsOr rel).versions ∨
    (v.1 = wm ∧ ∃ e < wm, (e, v.2) ∈ (i.rootsOr rel).versions)

theorem Folds.of_same {wm : Nat} (h' : Folds wm j k) (h : SameRoots i j) : Folds wm i k where
  dated := h'.dated
  current := h'.current.trans h.current
  watermark := h'.watermark
  onward := h.watermark ▸ h'.onward
  fact rel at' hat := (h'.fact rel at' hat).trans (by rw [factAt_eq, factAt_eq, (h.roots rel).1])
  kept rel v hv := h'.kept rel v (by rwa [(h.roots rel).1])
  folded rel v hv := by
    rw [← (h.roots rel).1]
    exact h'.folded rel v hv

theorem folds_consolidate (h : i.Dated) {upTo : Nat} (hw : ¬ min upTo i.current ≤ i.watermark) :
    Folds (min upTo i.current) i (i.consolidate upTo) := by
  have hroots : ∀ rel, (i.consolidate upTo).rootsOr rel = (i.rootsOr rel).folded (min upTo i.current) :=
    fun rel => by rw [consolidate_rootsOr, if_neg hw]
  have hwm : (i.consolidate upTo).watermark = min upTo i.current := by rw [consolidate, if_neg hw]
  have hcur : (i.consolidate upTo).current = i.current := by rw [consolidate, if_neg hw]
  set wm := min upTo i.current
  have hfolded : ∀ rel, ∀ v ∈ ((i.rootsOr rel).folded wm).versions,
      (wm < v.1 ∧ v ∈ (i.rootsOr rel).versions) ∨
        (v.1 = wm ∧ ∃ e ≤ wm, (e, v.2) ∈ (i.rootsOr rel).versions) := by
    intro rel v hv
    cases ht : lastLe wm (i.rootsOr rel).versions with
    | none =>
      rw [folded_unwritten ht] at hv
      refine .inl ⟨not_le.1 fun hle => ?_, hv⟩
      have hnone := List.getLast?_eq_none_iff.1 (Option.map_eq_none_iff.1 ht)
      exact absurd (List.mem_filter.2 ⟨hv, decide_eq_true hle⟩) (hnone ▸ List.not_mem_nil)
    | some t =>
      rw [folded_versions ht] at hv
      rcases List.mem_cons.1 hv with rfl | hv
      · exact .inr ⟨rfl, mem_of_lastLe ht⟩
      · obtain ⟨hv, hlt⟩ := List.mem_filter.1 hv
        exact .inl ⟨of_decide_eq_true hlt, hv⟩
  refine ⟨⟨?_, fun rel => ?_, fun rel v hv => ?_⟩, hcur, hwm, (not_le.1 hw).le, fun rel at' hat => ?_,
    fun rel v hv hle => ?_, fun rel v hv => ?_⟩
  · rw [hwm, hcur]
    exact min_le_right _ _
  · rw [hroots]
    cases ht : lastLe wm (i.rootsOr rel).versions with
    | none =>
      rw [folded_unwritten ht]
      exact h.sorted rel
    | some t =>
      rw [folded_versions ht]
      refine List.pairwise_cons.2 ⟨fun v hv => ?_, (h.sorted rel).filter _⟩
      exact of_decide_eq_true (List.mem_filter.1 hv).2
  · rw [hwm, hcur]
    rw [hroots] at hv
    have hle : wm ≤ i.current := min_le_right _ _
    rcases hfolded rel v hv with ⟨hlt, hv⟩ | ⟨hv, -⟩
    · have := h.dates rel v hv
      omega
    · omega
  · rw [factAt_eq, factAt_eq, hroots, lastLe_folded (h.sorted rel) hat]
  · rw [hroots]
    have hlast := lastLe_folded (h.sorted rel) hle
    rw [lastLe_of_mem (h.sorted rel) hv] at hlast
    cases ht : lastLe wm (i.rootsOr rel).versions with
    | none =>
      rw [folded_unwritten ht]
      exact hv
    | some t =>
      rw [folded_versions ht]
      rcases hle.lt_or_eq with hlt | heq
      · exact List.mem_cons_of_mem _ (List.mem_filter.2 ⟨hv, decide_eq_true hlt⟩)
      · rw [heq, lastLe_of_mem (h.sorted rel) hv] at ht
        cases ht
        rw [heq]
        exact List.mem_cons_self
  · rw [hroots] at hv
    rcases hfolded rel v hv with ⟨-, hv⟩ | ⟨hv, e, he, hmem⟩
    · exact .inl hv
    · rcases he.lt_or_eq with hlt | rfl
      · exact .inr ⟨hv, e, hlt, hmem⟩
      · exact .inl (by rw [← hv] at hmem; exact hmem)

end Inner

/-! ## What is done through a store -/

namespace BranchState

variable [FactReads F] {s s' theirs m : BranchState F} {a : StoreAct}

/-- A read leaves the versions and the records. -/
theorem read_sameRoots (h : s.read a = some s') : s.inner.SameRoots s'.inner := by
  have hensure : ∀ (rel : RelId) (col : Nat) (i : Inner F), (i = s.inner ∨ i = s.inner.ensureOrder rel col) →
      s.inner.SameRoots i := by
    rintro rel col i (rfl | rfl)
    · exact .refl _
    · refine ⟨Inner.ensureOrder_current _ _ _, ?_, Inner.ensureOrder_roots _ rel col⟩
      unfold Inner.ensureOrder
      split
      · rfl
      · split_ifs <;> rfl
  cases a <;> cases h
  · exact hensure _ _ _ (Inner.readRangeOn_state _ _ _ _ _ _)
  · exact hensure _ _ _ (Inner.lookupRows_state _ _ _ _ _)
  · obtain ⟨hr, hw, -⟩ := Inner.touchedRangeSince_state s.inner _ _ _ _ _
    exact .of_rels (Inner.touchedRangeSince_current _ _ _ _ _ _) hw hr

/-- A write goes on, or is a consolidation. -/
theorem write_dated (h : s.write a = some s') (hd : s.inner.Dated) : s.inner.GoesOn s'.inner ∨
    ∃ upTo, a = .consolidate upTo ∧ Inner.Folds (min upTo s.inner.current) s.inner s'.inner := by
  cases a with
  | commit pre updates =>
    simp only [write] at h
    split_ifs at h <;> cases h
    · exact .inl (Inner.goesOn_apply hd _ _ _)
    · exact .inl (.refl hd)
  | instantiate rels lo hi shift =>
    cases h
    cases hg : s.inner.graft rels lo hi shift none with
    | error e => exact .inl (.refl hd)
    | ok j => exact .inl (Inner.goesOn_graft hd hg)
  | consolidate upTo =>
    cases h
    by_cases hw : min upTo s.inner.current ≤ s.inner.watermark
    · rw [Inner.consolidate, if_pos hw]
      exact .inl (.refl hd)
    · exact .inr ⟨upTo, rfl, Inner.folds_consolidate hd hw⟩
  | putSchema rel schema at' =>
    cases h
    exact .inl (.refl hd)
  | reshape rel shape =>
    simp only [write] at h
    split_ifs at h <;> cases h
    · exact .inl (.refl hd)
    · exact .inl ⟨hd.same (.of_rels rfl rfl rfl), le_rfl, .of_rels rfl rfl⟩
  | reshapeDefault shape =>
    simp only [write] at h
    split_ifs at h <;> cases h
    · exact .inl (.refl hd)
    · exact .inl ⟨hd.same (.of_rels rfl rfl rfl), le_rfl, .of_rels rfl rfl⟩
  | _ => cases h

theorem merge_goesOn {todo : List Replay} (h : s.merge theirs todo = some m) (hd : s.inner.Dated) :
    s.inner.GoesOn m.inner := by
  obtain ⟨ctx, -, h⟩ := Option.bind_eq_some_iff.1 h
  obtain ⟨inner, hm, h⟩ := Option.bind_eq_some_iff.1 h
  cases h
  exact Inner.goesOn_merge hd hm

end BranchState

end Grmpl

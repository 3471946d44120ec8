import Grmpl.Ent.KeptOrders

/-!
# A store later on

Whatever is done in a world, a store's editions stay what they are until they are
consolidated away: versions, records, and the layout of what is written.

* `Inner.Later`: a branch's state later on.
* `lastLe_folded`, `logBetween_folded`: what a consolidation leaves.
* `BranchState.read_later`, `BranchState.write_later`, `BranchState.merge_inOrder`: the steps.
* `Family.later_run`: runs.
-/

open OrdMap Runs Contents

namespace Grmpl

section Later

variable {F : Type}

namespace Inner

variable {i j k : Inner F} {rel : RelId} {col : Nat}

/-- A branch later on: an edition that is not consolidated away is as it was. -/
structure Later (i j : Inner F) : Prop where
  current : i.current ≤ j.current
  watermark : i.watermark ≤ j.watermark
  fact : ∀ (rel : RelId) (at' : Nat), j.watermark ≤ at' → at' ≤ i.current → j.factAt rel at' = i.factAt rel at'
  log : ∀ (rel : RelId) (start upTo : Nat), j.watermark ≤ start → upTo ≤ i.current →
    logBetween start upTo (j.rootsOr rel).log = logBetween start upTo (i.rootsOr rel).log
  layout : ∀ rel, (i.rootsOr rel).versions ≠ [] → j.layoutOf rel = i.layoutOf rel ∧ (j.rootsOr rel).versions ≠ []

theorem Later.refl (i : Inner F) : Later i i :=
  ⟨le_rfl, le_rfl, fun _ _ _ _ => rfl, fun _ _ _ _ _ => rfl, fun _ h => ⟨rfl, h⟩⟩

theorem Later.trans (h : Later i j) (h' : Later j k) : Later i k where
  current := h.current.trans h'.current
  watermark := h.watermark.trans h'.watermark
  fact rel at' hw hc := (h'.fact rel at' hw (hc.trans h.current)).trans (h.fact rel at' (h'.watermark.trans hw) hc)
  log rel start upTo hw hc := (h'.log rel start upTo hw (hc.trans h.current)).trans (h.log rel start upTo (h'.watermark.trans hw) hc)
  layout rel hv :=
    have hj := h.layout rel hv
    have hk := h'.layout rel hj.2
    ⟨hk.1.trans hj.1, hk.2⟩

/-- A state whose relations have the versions and the records of another. -/
theorem Later.of_roots (hc : j.current = i.current) (hw : j.watermark = i.watermark)
    (hr : ∀ rel, (j.rootsOr rel).versions = (i.rootsOr rel).versions ∧ (j.rootsOr rel).log = (i.rootsOr rel).log)
    (hl : ∀ rel, (i.rootsOr rel).versions ≠ [] → j.layoutOf rel = i.layoutOf rel) : Later i j where
  current := hc.ge
  watermark := hw.ge
  fact rel at' _ _ := by rw [factAt_eq, factAt_eq, (hr rel).1]
  log rel _ _ _ _ := by rw [(hr rel).2]
  layout rel hv := ⟨hl rel hv, (hr rel).1 ▸ hv⟩

/-- A write of the next edition. -/
theorem Later.of_sameBelow (h : SameBelow (i.current + 1) i j) (hc : i.current ≤ j.current)
    (hup : ∀ rel, ∀ v ∈ (i.rootsOr rel).versions, v.1 ≤ i.current) (hl : ∀ rel, j.layoutOf rel = i.layoutOf rel) : Later i j where
  current := hc
  watermark := h.1.ge
  fact rel at' _ hat := h.factAt (Nat.lt_succ_of_le hat) rel
  log rel start upTo _ hup := by
    rw [← logBetween_filter (Nat.lt_succ_of_le hup), (h.2 rel).log, logBetween_filter (Nat.lt_succ_of_le hup)]
  layout rel hv := by
    refine ⟨hl rel, fun hnil => hv ?_⟩
    have hversions := (h.2 rel).versions
    rw [hnil, filter_eq_self_of fun v hv => decide_eq_true (Nat.lt_succ_of_le (hup rel v hv))] at hversions
    exact hversions.symm

/-- What a consolidation keeps of the versions: the one in force, and those after. -/
theorem folded_versions {r : RelRoots F} {wm : Nat} {t : F} (ht : lastLe wm r.versions = some t) :
    (r.folded wm).versions = (wm, t) :: r.versions.filter fun v => wm < v.1 := by
  unfold RelRoots.folded
  rw [ht]
  dsimp only
  rw [OrdMap.put, List.filter_filter, List.filter_filter, filter_eq_nil_of fun v _ => by simp; omega, List.nil_append]
  exact congrArg _ (List.filter_congr fun v _ => Bool.and_self _)

theorem folded_unwritten {r : RelRoots F} {wm : Nat} (h : lastLe wm r.versions = none) :
    (r.folded wm).versions = r.versions := by
  have hnone : r.versions.filter (fun v => v.1 ≤ wm) = [] := List.getLast?_eq_none_iff.1 (Option.map_eq_none_iff.1 h)
  unfold RelRoots.folded
  rw [h]
  refine filter_eq_self_of fun v hv => ?_
  have hlater := List.filter_eq_nil_iff.1 hnone v hv
  simp only [decide_eq_true_eq, not_le] at hlater
  exact decide_eq_true hlater

/-- **A consolidation leaves every edition from its own on** with the version it had. -/
theorem lastLe_folded {r : RelRoots F} (hs : Sorted r.versions) {wm at' : Nat} (hat : wm ≤ at') :
    lastLe at' (r.folded wm).versions = lastLe at' r.versions := by
  cases ht : lastLe wm r.versions with
  | none => rw [folded_unwritten ht]
  | some t =>
    have hsplit := below_append_atLeast (k := wm + 1) hs
    have hpast : (below (wm + 1) r.versions).filter (fun v => v.1 ≤ at') = r.versions.filter fun v => v.1 ≤ wm := by
      rw [below, List.filter_filter]
      exact List.filter_congr fun v _ => by rw [← Bool.decide_and]; exact decide_eq_decide.2 (by omega)
    have hlater : (atLeast (wm + 1) r.versions).filter (fun v => v.1 ≤ at')
        = (r.versions.filter fun v => wm < v.1).filter fun v => v.1 ≤ at' := by
      rw [atLeast]
      rfl
    rw [folded_versions ht, lastLe, lastLe, List.filter_cons_of_pos (by simpa using hat)]
    conv_rhs => rw [← hsplit, List.filter_append, hpast, hlater, List.getLast?_append]
    rw [List.getLast?_cons]
    cases ((r.versions.filter fun v => wm < v.1).filter fun v => v.1 ≤ at').getLast? with
    | none => exact ht.symm
    | some v => rfl

/-- And with the records after it. -/
theorem logBetween_folded {r : RelRoots F} {wm start upTo : Nat} (hw : wm ≤ start) :
    logBetween start upTo (r.folded wm).log = logBetween start upTo r.log := by
  show between _ _ (r.log.filter fun l => wm < (ofLex l.1).1) = between _ _ r.log
  rw [between, between, List.filter_filter]
  refine List.filter_congr fun l _ => ?_
  by_cases hl : toLex (start + 1, 0) ≤ l.1
  · have : wm < (ofLex l.1).1 := by
      rcases Prod.Lex.le_iff.1 hl with h | ⟨h, -⟩
      · exact lt_of_le_of_lt (hw.trans (Nat.le_succ _)) h
      · exact h ▸ Nat.lt_succ_of_le hw
    simp [this]
  · simp [hl]

theorem folded_written {r : RelRoots F} (wm : Nat) (h : r.versions ≠ []) : (r.folded wm).versions ≠ [] := by
  cases ht : lastLe wm r.versions with
  | none => rwa [folded_unwritten ht]
  | some t =>
    rw [folded_versions ht]
    exact List.cons_ne_nil _ _

theorem Later.consolidate (hs : ∀ rel, Sorted (i.rootsOr rel).versions) (upTo : Nat) : Later i (i.consolidate upTo) := by
  by_cases hle : min upTo i.current ≤ i.watermark
  · rw [Inner.consolidate, if_pos hle]
    exact .refl i
  · have hroots : ∀ rel, (i.consolidate upTo).rootsOr rel = (i.rootsOr rel).folded (min upTo i.current) := fun rel => by
      rw [consolidate_rootsOr, if_neg hle]
    have hwm : (i.consolidate upTo).watermark = min upTo i.current := by
      rw [Inner.consolidate, if_neg hle]
    have hcur : (i.consolidate upTo).current = i.current := by
      rw [Inner.consolidate, if_neg hle]
    have hlay : ∀ rel, (i.consolidate upTo).layoutOf rel = i.layoutOf rel := fun rel => by
      rw [Inner.consolidate, if_neg hle]
      rfl
    refine ⟨hcur.ge, ?_, fun rel at' hat _ => ?_, fun rel start upTo' hat _ => ?_, fun rel hv => ⟨hlay rel, ?_⟩⟩
    · rw [hwm]
      exact (not_le.1 hle).le
    · rw [hwm] at hat
      rw [factAt_eq, factAt_eq, hroots, lastLe_folded (hs rel) hat]
    · rw [hwm] at hat
      rw [hroots, logBetween_folded hat]
    · rw [hroots]
      exact folded_written _ hv

section Writes

variable [FactReads F]

omit [FactReads F] in
/-- One relation's graft leaves what was before its edition. -/
theorem applyGraft_sameBelow (e : Nat) (lo hi : Tuple) (i : Inner F) (g : RelId × F) : SameBelow e i (applyGraft e lo hi i g) := by
  have hput : SameBelow e i (i.put g.1 ⟨OrdMap.put e g.2 (i.rootsOr g.1).versions,
      OrdMap.put (toLex (e, 0)) (.graft lo hi) (i.rootsOr g.1).log, []⟩) :=
    .put ⟨filter_put_edition _ _ _, filter_put_log _ _ _ _⟩
  unfold applyGraft
  dsimp only
  split_ifs
  · exact hput
  · exact hput.trans (.of_rels rfl rfl)

theorem graft_sameBelow {rels : List RelId} {lo hi : UInt64} {shift : Dsp} {origin : Origin}
    (hg : i.graft rels lo hi shift origin = .ok j) : SameBelow (i.current + 1) i j ∧ ∀ rel, j.layoutOf rel = i.layoutOf rel := by
  obtain ⟨grafts, -, hg⟩ := bind_ok hg
  cases hg
  have hfold : ∀ (gs : List (RelId × F)) (k : Inner F), SameBelow (i.current + 1) k (gs.foldl (applyGraft (i.current + 1)
      (displace (entKey lo) shift) (displace (entKey hi) shift)) k) ∧ ∀ rel, (gs.foldl (applyGraft (i.current + 1)
        (displace (entKey lo) shift) (displace (entKey hi) shift)) k).layoutOf rel = k.layoutOf rel := by
    intro gs
    induction gs with
    | nil => exact fun k => ⟨.refl _ _, fun _ => rfl⟩
    | cons g gs ih => exact fun k => ⟨(applyGraft_sameBelow _ _ _ k g).trans (ih _).1, fun rel =>
      ((ih _).2 rel).trans (applyGraft_layoutOf _ _ _ k g rel)⟩
  obtain ⟨hsame, hlay⟩ := hfold grafts i
  exact ⟨hsame.trans (.of_rels rfl rfl), hlay⟩

theorem apply_layoutOf (i : Inner F) (e : Nat) (pre : List (RelId × Tuple)) (updates : List (RelId × Tuple × Diff))
    (origin : Origin) (rel : RelId) : (i.apply e pre updates origin).layoutOf rel = i.layoutOf rel := by
  have hfold : ∀ (us : List ((RelId × Tuple × Diff) × Nat)) (k : Inner F), (us.foldl (applyOne e) k).layoutOf rel = k.layoutOf rel := by
    intro us
    induction us with
    | nil => exact fun _ => rfl
    | cons u us ih => exact fun k => ih _
  have hroute : (i.apply e pre updates origin).layoutOf rel = (updates.zipIdx.foldl (applyOne e)
      { i with patches := OrdMap.put e (.commit pre ((updates.map Prod.fst).mergeSort (· ≤ ·)).dedup origin) i.patches }).layoutOf rel := by
    unfold apply layoutOf shapeOf route
    dsimp only
    split_ifs <;> rfl
  rw [hroute, hfold]
  rfl

theorem ensureOrder_roots (i : Inner F) (rel : RelId) (col : Nat) (rel' : RelId) :
    ((i.ensureOrder rel col).rootsOr rel').versions = (i.rootsOr rel').versions ∧
      ((i.ensureOrder rel col).rootsOr rel').log = (i.rootsOr rel').log := by
  unfold ensureOrder
  split
  · exact ⟨rfl, rfl⟩
  · rename_i r hr
    split_ifs
    · exact ⟨rfl, rfl⟩
    · dsimp only
      rw [rootsOr_put]
      split_ifs with heq
      · rw [heq, rootsOr, hr]
        exact ⟨rfl, rfl⟩
      · exact ⟨rfl, rfl⟩

theorem ensureOrder_later (i : Inner F) (rel : RelId) (col : Nat) : Later i (i.ensureOrder rel col) := by
  refine .of_roots (ensureOrder_current i rel col) ?_ (ensureOrder_roots i rel col) fun rel' _ => ?_
  · unfold ensureOrder
    split
    · rfl
    · split_ifs <;> rfl
  · unfold ensureOrder
    split
    · rfl
    · split_ifs <;> rfl

/-- A read of a column leaves the state, or the one with its arrangement built. -/
theorem readRangeOn_state (i : Inner F) (rel : RelId) (at' col : Nat) (lo hi : Value) :
    (i.readRangeOn rel at' col lo hi).1 = i ∨ (i.readRangeOn rel at' col lo hi).1 = i.ensureOrder rel col := by
  unfold readRangeOn
  split_ifs
  · exact .inl rfl
  · exact .inl rfl
  · exact .inl rfl
  · split <;> exact .inl rfl
  · dsimp only
    split <;> exact .inr rfl

theorem lookupRows_state (i : Inner F) (rel : RelId) (at' col : Nat) (keys : List Value) :
    (i.lookupRows rel at' col keys).1 = i ∨ (i.lookupRows rel at' col keys).1 = i.ensureOrder rel col := by
  unfold lookupRows
  dsimp only
  split
  · exact .inl rfl
  · split
    · exact .inl rfl
    · split_ifs
      · exact .inl rfl
      · exact .inl rfl
      · split <;> exact .inr rfl
      · exact .inl rfl

omit [FactReads F] in
/-- A range filter asked changes no roots and no shapes. -/
theorem touchedRangeSince_state (i : Inner F) (start upTo : Nat) (rel : RelId) (lo hi : Tuple) :
    (i.touchedRangeSince start upTo rel lo hi).1.rels = i.rels ∧ (i.touchedRangeSince start upTo rel lo hi).1.watermark = i.watermark ∧
      ∀ rel', (i.touchedRangeSince start upTo rel lo hi).1.layoutOf rel' = i.layoutOf rel' := by
  have hask : (i.interest rel lo hi).1.rels = i.rels ∧ (i.interest rel lo hi).1.watermark = i.watermark ∧
      ∀ rel', (i.interest rel lo hi).1.layoutOf rel' = i.layoutOf rel' := by
    unfold interest
    dsimp only
    split <;> exact ⟨rfl, rfl, fun _ => rfl⟩
  unfold touchedRangeSince
  dsimp only
  split_ifs
  · exact ⟨rfl, rfl, fun _ => rfl⟩
  all_goals exact hask

end Writes

/-- Shapes taken in that name the layouts of what is written leave these as they were. -/
theorem uniteShapes_reshapes {i : Inner F} : ∀ {l : List (RelId × Shape)} {a b : Inner F},
    (∀ x ∈ l, i.layoutOf x.1 = x.2.layout ∨ (i.rootsOr x.1).versions = []) →
      (a.rels = i.rels ∧ a.current = i.current ∧ ∀ rel, a.layoutOf rel = i.layoutOf rel ∨ (i.rootsOr rel).versions = []) →
        a.uniteShapes l = some b →
          b.rels = i.rels ∧ b.current = i.current ∧ ∀ rel, b.layoutOf rel = i.layoutOf rel ∨ (i.rootsOr rel).versions = [] := by
  intro l
  induction l with
  | nil =>
    intro a b _ ha hb
    cases hb
    exact ha
  | cons x l ih =>
    intro a b hl ha hb
    obtain ⟨c, hc, hb⟩ := Option.bind_eq_some_iff.1 hb
    refine ih (fun y hy => hl y (.tail _ hy)) ?_ hb
    dsimp only at hc
    split at hc
    · split_ifs at hc
      cases hc
      exact ha
    · split_ifs at hc <;> cases hc
      · exact ha
      · refine ⟨ha.1, ha.2.1, fun rel => ?_⟩
        by_cases heq : rel = x.1
        · refine (hl x (.head _)).imp (fun hx => ?_) fun hx => heq ▸ hx
          rw [heq, hx, layoutOf, shapeOf, lookup_put_self]
          rfl
        · refine (ha.2.2 rel).imp_left fun hx => ?_
          rw [← hx, layoutOf, layoutOf, shapeOf, shapeOf, lookup_put_ne heq]

end Inner

/-! ## A store later on -/

namespace BranchState

variable [FactReads F] [OrdersRows F] {s s' theirs m : BranchState F} {a : StoreAct}

/-- A column a store is asked for is one an arrangement can be kept for. -/
def ColumnFits : StoreAct → Prop
  | .readOn _ _ col _ _ | .find _ _ col _ => col < 2 ^ 32
  | _ => True

theorem read_later (h : s.read a = some s') (hfit : ColumnFits a) (hs : s.inner.InOrder s.inner.current) :
    s'.inner.InOrder s'.inner.current ∧ s.inner.Later s'.inner := by
  have hensure : ∀ (rel : RelId) (col : Nat), col < 2 ^ 32 → ∀ i : Inner F, (i = s.inner ∨ i = s.inner.ensureOrder rel col) →
      i.InOrder i.current ∧ s.inner.Later i := by
    rintro rel col hcol i (rfl | rfl)
    · exact ⟨hs, .refl _⟩
    · rw [Inner.ensureOrder_current]
      exact ⟨hs.ensureOrder rel hcol, Inner.ensureOrder_later _ _ _⟩
  cases a <;> cases h
  · exact hensure _ _ hfit _ (Inner.readRangeOn_state _ _ _ _ _ _)
  · exact hensure _ _ hfit _ (Inner.lookupRows_state _ _ _ _ _)
  · obtain ⟨hr, hw, hl⟩ := Inner.touchedRangeSince_state s.inner _ _ _ _ _
    dsimp only
    rw [Inner.touchedRangeSince_current]
    exact ⟨hs.of_rels hr hl, .of_roots (Inner.touchedRangeSince_current _ _ _ _ _ _) hw (fun rel => by
      rw [Inner.rootsOr, Inner.roots, hr]
      exact ⟨rfl, rfl⟩) fun rel _ => hl rel⟩

omit [FactReads F] [OrdersRows F] in
theorem written_of_versions {i : Inner F} {rel : RelId} (h : written i rel = false) : (i.rootsOr rel).versions = [] := by
  unfold written at h
  rw [Inner.rootsOr]
  cases hr : i.roots rel with
  | none => rfl
  | some r =>
    rw [hr, Option.any_some, Bool.or_eq_false_iff] at h
    simpa using h.1

theorem write_later (h : s.write a = some s') (hs : s.inner.InOrder s.inner.current) :
    s'.inner.InOrder s'.inner.current ∧ s.inner.Later s'.inner := by
  have hup : ∀ rel, ∀ v ∈ (s.inner.rootsOr rel).versions, v.1 ≤ s.inner.current := fun rel => (hs rel).upTo
  have hreshape : ∀ j : Inner F, j.rels = s.inner.rels → j.current = s.inner.current → j.watermark = s.inner.watermark →
      (∀ rel, j.layoutOf rel = s.inner.layoutOf rel ∨ (s.inner.rootsOr rel).versions = []) →
        j.InOrder j.current ∧ s.inner.Later j := by
    intro j hr hc hw hl
    refine ⟨hc ▸ hs.reshape hl hr, .of_roots hc hw (fun rel => ?_) fun rel hv => (hl rel).resolve_right hv⟩
    rw [Inner.rootsOr, Inner.roots, hr]
    exact ⟨rfl, rfl⟩
  cases a with
  | commit pre updates =>
    simp only [write] at h
    split_ifs at h <;> cases h
    · exact ⟨hs.apply _ _ _, .of_sameBelow (Inner.apply_sameBelow _ _ _ _ _) (Nat.le_succ _) hup (Inner.apply_layoutOf _ _ _ _ _)⟩
    · exact ⟨hs, .refl _⟩
  | instantiate rels lo hi shift =>
    cases h
    cases hg : s.inner.graft rels lo hi shift none with
    | error e => exact ⟨hs, .refl _⟩
    | ok j =>
      obtain ⟨hsame, hlay⟩ := Inner.graft_sameBelow hg
      have hcur := Inner.graft_current hg
      refine ⟨?_, .of_sameBelow hsame (hcur ▸ Nat.le_succ _) hup hlay⟩
      show j.InOrder j.current
      rw [hcur]
      exact hs.graft hg
  | consolidate upTo =>
    cases h
    exact ⟨hs.consolidate upTo, .consolidate (fun rel => (hs rel).sorted) upTo⟩
  | putSchema rel schema at' =>
    cases h
    exact ⟨hs, .refl _⟩
  | reshape rel shape =>
    simp only [write] at h
    split_ifs at h with hwritten <;> cases h
    · exact ⟨hs, .refl _⟩
    · refine hreshape _ rfl rfl rfl fun rel' => ?_
      by_cases heq : rel' = rel
      · exact .inr (heq ▸ written_of_versions (Bool.eq_false_iff.2 hwritten))
      · refine .inl ?_
        rw [Inner.layoutOf, Inner.layoutOf, Inner.shapeOf, Inner.shapeOf, lookup_put_ne heq]
  | reshapeDefault shape =>
    simp only [write] at h
    split_ifs at h with hwritten <;> cases h
    · exact ⟨hs, .refl _⟩
    · refine hreshape _ rfl rfl rfl fun rel' => ?_
      cases hl : lookup rel' s.inner.shapes with
      | some sh =>
        refine .inl ?_
        rw [Inner.layoutOf, Inner.layoutOf, Inner.shapeOf, Inner.shapeOf, hl]
        rfl
      | none =>
        refine .inr ?_
        cases hr : s.inner.roots rel' with
        | none =>
          rw [Inner.rootsOr, hr]
          rfl
        | some r =>
          refine written_of_versions (Bool.eq_false_iff.2 fun hw => hwritten ?_)
          exact List.any_eq_true.2 ⟨(rel', r), mem_of_lookup hr, by simp [hl, hw]⟩
  | _ => cases h

/-- The shapes a merge takes in name the layouts of what is written. -/
def KeepsLayouts (s theirs : BranchState F) : Prop :=
  ∀ x ∈ theirs.inner.shapes, s.inner.layoutOf x.1 = x.2.layout ∨ (s.inner.rootsOr x.1).versions = []

theorem merge_inOrder {todo : List Replay} (h : s.merge theirs todo = some m) (hkeeps : s.KeepsLayouts theirs)
    (hs : s.inner.InOrder s.inner.current) : m.inner.InOrder m.inner.current := by
  obtain ⟨ctx, -, h⟩ := Option.bind_eq_some_iff.1 h
  obtain ⟨inner, hm, h⟩ := Option.bind_eq_some_iff.1 h
  cases h
  obtain ⟨k, hk, hm⟩ := Option.bind_eq_some_iff.1 hm
  have hunite := fun hstart => Inner.uniteShapes_reshapes hkeeps hstart hk
  obtain ⟨hr, hc, hl⟩ := hunite ⟨rfl, rfl, fun _ => .inl rfl⟩
  refine foldlM_invariant (I := fun j : Inner F => j.InOrder j.current) (fun a r b ha hab => ?_) (hc ▸ hs.reshape hl hr) hm
  cases r with
  | commit pre updates origin =>
    simp only [Inner.replayOne] at hab
    split_ifs at hab
    cases hab
    exact ha.apply _ _ _
  | graft rels lo hi shift origin =>
    simp only [Inner.replayOne] at hab
    cases hg : a.graft rels lo hi shift origin with
    | error e => simp [hg, Except.toOption] at hab
    | ok k =>
      simp only [hg, Except.toOption, Option.some.injEq] at hab
      subst hab
      rw [Inner.graft_current hg]
      exact ha.graft hg

end BranchState

/-! ## Worlds -/

section World

variable {N : Type} [FactReads F] [OrdersRows F] [Parts N Dsp] [DecidableEq N] [ContentTree F N]
  {w w' : Family F N} {a : FamilyAct}

/-- The columns asked for fit, and a merge reshapes nothing that is written. -/
def Family.Plain (w : Family F N) : FamilyAct → Prop
  | .on k (.merge other todo) => ∀ x ∈ w.stores[k]?, ∀ y ∈ w.stores[other]?, (x.2.merge y.2 todo).isSome → x.2.KeepsLayouts y.2
  | .on _ a => BranchState.ColumnFits a
  | .index _ => True

/-- Every state of a world is in order. -/
structure Family.InOrder (w : Family F N) : Prop where
  stores : ∀ x ∈ w.stores, x.2.inner.InOrder x.2.inner.current
  branches : ∀ x ∈ w.branches, x.2.inner.InOrder x.2.inner.current

omit [Parts N Dsp] [DecidableEq N] [ContentTree F N] in
theorem Family.inOrder_new : (Family.new : Family F N).InOrder := by
  refine ⟨fun x hx => ?_, fun x hx => absurd hx List.not_mem_nil⟩
  obtain rfl := List.mem_singleton.1 hx
  exact Inner.inOrder_empty

/-- **A step keeps every state in order**, and leaves each store itself, later on. -/
theorem Family.InOrder.step (h : w.InOrder) (hkept : Kept w) (hok : w.Plain a) (hst : w.step a = some w') : w'.InOrder ∧
    ∀ (k : Nat) (b : BranchId) (s : BranchState F), w.stores[k]? = some (b, s) →
      ∃ s', w'.stores[k]? = some (b, s') ∧ s.inner.Later s'.inner := by
  have hstore : ∀ {k : Nat} {b : BranchId} {s : BranchState F}, w.stores[k]? = some (b, s) → s.inner.InOrder s.inner.current :=
    fun hk => h.stores _ (List.mem_of_getElem? hk)
  have hsame : ∀ (k : Nat) (b : BranchId) (s : BranchState F), w.stores[k]? = some (b, s) →
      ∃ s', w.stores[k]? = some (b, s') ∧ s.inner.Later s'.inner := fun _ _ s hk => ⟨s, hk, .refl _⟩
  have hsnoc : ∀ (x : BranchId × BranchState F) (k : Nat) (b : BranchId) (s : BranchState F), w.stores[k]? = some (b, s) →
      ∃ s', (w.stores ++ [x])[k]? = some (b, s') ∧ s.inner.Later s'.inner := by
    intro x k b s hk
    refine ⟨s, ?_, .refl _⟩
    rw [List.getElem?_append_left (List.getElem?_eq_some_iff.1 hk).1]
    exact hk
  have hset : ∀ {j : Nat} {c : BranchId} {t t' : BranchState F}, w.stores[j]? = some (c, t) → t'.inner.InOrder t'.inner.current ∧
      t.inner.Later t'.inner → (∀ x ∈ w.stores.set j (c, t'), x.2.inner.InOrder x.2.inner.current) ∧
        ∀ (k : Nat) (b : BranchId) (s : BranchState F), w.stores[k]? = some (b, s) →
          ∃ s', (w.stores.set j (c, t'))[k]? = some (b, s') ∧ s.inner.Later s'.inner := by
    intro j c t t' hj ht
    refine ⟨fun x hx => ?_, fun k b s hk => ?_⟩
    · rcases List.mem_or_eq_of_mem_set hx with hx | rfl
      · exact h.stores x hx
      · exact ht.1
    · by_cases heq : j = k
      · subst heq
        cases hj.symm.trans hk
        exact ⟨t', List.getElem?_set_self (List.getElem?_eq_some_iff.1 hj).1, ht.2⟩
      · exact ⟨s, by rw [List.getElem?_set_ne heq, hk], .refl _⟩
  have hspawn : ∀ {dag : Dag × BranchId} {s : BranchState F}, s.inner.InOrder s.inner.current → (w.spawn dag s).InOrder := by
    intro dag s hs
    refine ⟨fun x hx => ?_, fun x hx => ?_⟩
    · rcases List.mem_append.1 hx with hx | hx
      · exact h.stores x hx
      · obtain rfl := List.mem_singleton.1 hx
        exact hs
    · rcases mem_put hx with rfl | hx
      · exact hs
      · exact h.branches x hx
  cases happens_of_step hst with
  | index budget => exact ⟨⟨h.stores, h.branches⟩, hsame⟩
  | @read k a b s s' hk hr =>
    have hfit : BranchState.ColumnFits a := by
      cases a <;> first | exact hok | cases hr
    obtain ⟨hstores, hlater⟩ := hset hk (BranchState.read_later hr hfit (hstore hk))
    exact ⟨⟨hstores, h.branches⟩, hlater⟩
  | write hk hr =>
    have hs := BranchState.write_later hr (hstore hk)
    obtain ⟨hstores, hlater⟩ := hset hk hs
    refine ⟨⟨hstores, fun x hx => ?_⟩, hlater⟩
    rcases mem_put hx with rfl | hx
    · exact hs.1
    · exact h.branches x hx
  | fork hk _ => exact ⟨hspawn ((hstore hk).forkAt (hkept.stores _ (List.mem_of_getElem? hk)).2 _), hsnoc _⟩
  | conflict => exact ⟨h, hsame⟩
  | merge hk ho hm =>
    refine ⟨hspawn (BranchState.merge_inOrder hm (hok _ hk _ ho ?_) (hstore hk)), hsnoc _⟩
    rw [hm]
    rfl
  | @branch k b' r hr =>
    refine ⟨⟨fun x hx => ?_, h.branches⟩, hsnoc _⟩
    rcases List.mem_append.1 hx with hx | hx
    · exact h.stores x hx
    · obtain rfl := List.mem_singleton.1 hx
      dsimp only
      cases hl : lookup b' w.branches with
      | none => exact Inner.inOrder_empty
      | some s => exact h.branches _ (mem_of_lookup hl)

theorem Family.inOrder_run (h : Run Family.step Family.Plain (Family.new : Family F N) w) : w.InOrder ∧ Kept w :=
  h.invariant (I := fun v : Family F N => v.InOrder ∧ Kept v) ⟨Family.inOrder_new, kept_new⟩ fun _ _ _ hs hok hst => ⟨(hs.1.step hs.2 hok hst).1, (hs.2.step hst).1⟩

/-- **A store some steps on** is itself, later on. -/
theorem Family.later_run (hw : w.InOrder) (hkept : Kept w) (hrun : Run Family.step Family.Plain w w') {k : Nat} {b : BranchId}
    {s : BranchState F} (hk : w.stores[k]? = some (b, s)) :
    (w'.InOrder ∧ Kept w') ∧ ∃ s', w'.stores[k]? = some (b, s') ∧ s.inner.Later s'.inner :=
  hrun.invariant (I := fun v : Family F N => (v.InOrder ∧ Kept v) ∧ ∃ s', v.stores[k]? = some (b, s') ∧ s.inner.Later s'.inner)
    ⟨⟨hw, hkept⟩, s, hk, .refl _⟩ fun _ _ _ hs hok hst => by
      obtain ⟨⟨hv, hkv⟩, t, ht, hlater⟩ := hs
      obtain ⟨hv', hstores⟩ := hv.step hkv hok hst
      obtain ⟨t', ht', hlater'⟩ := hstores _ _ _ ht
      exact ⟨⟨hv', (hkv.step hst).1⟩, t', ht', hlater.trans hlater'⟩

end World

end Later

end Grmpl

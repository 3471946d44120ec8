import Grmpl.Ent.Store

/-!
# What a write leaves of the history before it

An edition, once applied, is read the same ever after: a write of a later edition
touches only versions and log records of its own edition.

* `Inner.SameBelow`: two states agree on everything before an edition.
* `Inner.Extends`: every read of the first state's editions is the second's.
* `Inner.Shows`: a patch is what an edition's log says it was.
* `Inner.WF`: nothing is logged past the current edition.
* `apply_extends`, `apply_shows`, `merge_wf`, `forkAt_wf`.
-/

open OrdMap

namespace Grmpl

variable {F : Type}

namespace RelRoots

/-- Two roots agree on everything before an edition. -/
structure SameBelow (e : Nat) (r s : RelRoots F) : Prop where
  versions : s.versions.filter (fun v => v.1 < e) = r.versions.filter fun v => v.1 < e
  log : s.log.filter (fun l => (ofLex l.1).1 < e) = r.log.filter fun l => (ofLex l.1).1 < e

theorem SameBelow.refl (e : Nat) (r : RelRoots F) : SameBelow e r r := ⟨rfl, rfl⟩

theorem SameBelow.trans {e : Nat} {r s t : RelRoots F} (h : SameBelow e r s)
    (h' : SameBelow e s t) : SameBelow e r t :=
  ⟨h'.versions.trans h.versions, h'.log.trans h.log⟩

end RelRoots

/-- A binding at an edition leaves everything before it. -/
theorem filter_put_edition {V : Type} (e : Nat) (v : V) (l : List (Nat × V)) :
    (put e v l).filter (fun x => x.1 < e) = l.filter fun x => x.1 < e := by
  have hlow : (l.filter fun x => x.1 < e).filter (fun x => x.1 < e) = l.filter fun x => x.1 < e := by
    simp [List.filter_filter]
  have hhigh : (l.filter fun x => e < x.1).filter (fun x => x.1 < e) = [] := by
    rw [List.filter_filter]
    exact filter_eq_nil_of fun x _ => by simp; omega
  rw [filter_put (by simp), hlow, hhigh, List.append_nil]

theorem filter_put_log (e i : Nat) (x : LogEntry) (l : List (LogKey × LogEntry)) :
    (put (toLex (e, i)) x l).filter (fun y => (ofLex y.1).1 < e)
      = l.filter fun y => (ofLex y.1).1 < e := by
  have hlt : ∀ y : LogKey × LogEntry, (ofLex y.1).1 < e → y.1 < toLex (e, i) := fun y hy =>
    Prod.Lex.lt_iff.2 (.inl hy)
  rw [filter_put (by simp), List.filter_filter, List.filter_filter]
  have hhigh : l.filter (fun y => decide ((ofLex y.1).1 < e) && decide (toLex (e, i) < y.1)) = [] :=
    filter_eq_nil_of fun y _ => by
      simp only [Bool.and_eq_false_iff, decide_eq_false_iff_not]
      by_contra h
      push Not at h
      exact absurd (hlt y h.1) h.2.not_gt
  rw [hhigh, List.append_nil]
  refine List.filter_congr fun y _ => ?_
  by_cases hy : (ofLex y.1).1 < e
  · simp [hy, hlt y hy]
  · simp [hy]

/-- What every step of a fold that may fail keeps, the fold keeps. -/
theorem foldlM_invariant {α β : Type} {I : β → Prop} {f : β → α → Option β}
    (hf : ∀ b a b', I b → f b a = some b' → I b') : ∀ {l : List α} {b b' : β}, I b →
      l.foldlM f b = some b' → I b' := by
  intro l
  induction l with
  | nil =>
    intro b b' hb h
    cases h
    exact hb
  | cons a l ih =>
    intro b b' hb h
    obtain ⟨c, hc, h⟩ := Option.bind_eq_some_iff.1 (by simpa using h)
    exact ih (hf _ _ _ hb hc) h

namespace Inner

/-- Two states agree on everything before an edition. -/
def SameBelow (e : Nat) (i j : Inner F) : Prop :=
  j.watermark = i.watermark ∧ ∀ rel, (i.rootsOr rel).SameBelow e (j.rootsOr rel)

theorem SameBelow.refl (e : Nat) (i : Inner F) : SameBelow e i i :=
  ⟨rfl, fun rel => .refl e (i.rootsOr rel)⟩

theorem SameBelow.trans {e : Nat} {i j k : Inner F} (h : SameBelow e i j) (h' : SameBelow e j k) :
    SameBelow e i k :=
  ⟨h'.1.trans h.1, fun rel => (h.2 rel).trans (h'.2 rel)⟩

@[simp] theorem rootsOr_put (i : Inner F) (rel rel' : RelId) (r : RelRoots F) :
    (i.put rel r).rootsOr rel' = if rel' = rel then r else i.rootsOr rel' := by
  simp only [rootsOr, roots, put, lookup_put]
  split_ifs <;> rfl

theorem SameBelow.put {e : Nat} {i : Inner F} {rel : RelId} {r : RelRoots F}
    (h : (i.rootsOr rel).SameBelow e r) : SameBelow e i (i.put rel r) := by
  refine ⟨rfl, fun rel' => ?_⟩
  rw [rootsOr_put]
  split_ifs with hrel
  · rw [hrel]
    exact h
  · exact .refl e _

/-- Only the roots and the watermark count. -/
theorem SameBelow.of_rels {e : Nat} {i j : Inner F} (hw : j.watermark = i.watermark)
    (hr : j.rels = i.rels) : SameBelow e i j := by
  refine ⟨hw, fun rel => ?_⟩
  rw [rootsOr, rootsOr, roots, roots, hr]
  exact .refl e _

/-! ## Reads of what two states agree on -/

theorem lastLe_filter {e at' : Nat} (h : at' < e) (versions : List (Nat × F)) :
    lastLe at' (versions.filter fun v => v.1 < e) = lastLe at' versions := by
  rw [lastLe, lastLe, List.filter_filter]
  congr 2
  refine List.filter_congr fun v _ => ?_
  by_cases hv : v.1 ≤ at'
  · simp [hv, show v.1 < e by omega]
  · simp [hv]

theorem factAt_eq (i : Inner F) (rel : RelId) (at' : Nat) :
    i.factAt rel at' = lastLe at' (i.rootsOr rel).versions := by
  rw [factAt, rootsOr]
  cases i.roots rel <;> rfl

theorem SameBelow.factAt {e at' : Nat} {i j : Inner F} (h : SameBelow e i j) (hat : at' < e)
    (rel : RelId) : j.factAt rel at' = i.factAt rel at' := by
  rw [factAt_eq, factAt_eq, ← lastLe_filter hat, (h.2 rel).versions, lastLe_filter hat]

theorem logBetween_filter {e start upTo : Nat} (h : upTo < e) (log : List (LogKey × LogEntry)) :
    logBetween start upTo (log.filter fun l => (ofLex l.1).1 < e) = logBetween start upTo log := by
  rw [logBetween, logBetween, between, between, List.filter_filter]
  refine List.filter_congr fun l _ => ?_
  by_cases hl : l.1 < toLex (upTo + 1, 0)
  · have : (ofLex l.1).1 < e := by
      rcases Prod.Lex.lt_iff.1 hl with h' | ⟨-, h'⟩
      · have h'' : (ofLex l.1).1 < upTo + 1 := h'
        omega
      · exact absurd h' (Nat.not_lt_zero _)
    simp [this]
  · simp [hl]

variable [FactEnf F]

theorem SameBelow.readAt {e at' : Nat} {i j : Inner F} (h : SameBelow e i j) (hat : at' < e)
    (rel : RelId) : j.readAt rel at' = i.readAt rel at' := by
  rw [Inner.readAt, Inner.readAt, h.1, h.factAt hat]

theorem scanUpdates_eq (i : Inner F) (rel : RelId) (start upTo : Nat) :
    i.scanUpdates rel start upTo = if start < i.watermark then
      .error (door "scan_updates" start i.watermark)
    else (·.flatten) <$> (logBetween start upTo (i.rootsOr rel).log).mapM
      (expand (i.rootsOr rel).versions) := by
  rw [scanUpdates, rootsOr]
  cases i.roots rel <;> rfl

/-- The edition of a log record a scan reaches. -/
theorem edition_le_of_mem {start upTo : Nat} {log : List (LogKey × LogEntry)} {l : LogKey × LogEntry}
    (h : l ∈ logBetween start upTo log) : start < (ofLex l.1).1 ∧ (ofLex l.1).1 ≤ upTo := by
  obtain ⟨-, hl⟩ := List.mem_filter.1 h
  obtain ⟨hlo, hhi⟩ := of_decide_eq_true hl
  constructor
  · rcases Prod.Lex.le_iff.1 hlo with h' | ⟨h', -⟩
    · have h'' : start + 1 < (ofLex l.1).1 := h'
      omega
    · have h'' : start + 1 = (ofLex l.1).1 := h'
      omega
  · rcases Prod.Lex.lt_iff.1 hhi with h' | ⟨-, h'⟩
    · have h'' : (ofLex l.1).1 < upTo + 1 := h'
      omega
    · exact absurd h' (Nat.not_lt_zero _)

theorem expand_congr {versions versions' : List (Nat × F)} {l : LogKey × LogEntry}
    (h : lookup (ofLex l.1).1 versions' = lookup (ofLex l.1).1 versions) :
    expand versions' l = expand versions l := by
  unfold expand
  cases l.2 <;> simp [h]

theorem SameBelow.scanUpdates {e : Nat} {i j : Inner F} (h : SameBelow e i j) (rel : RelId)
    {start upTo : Nat} (hup : upTo < e) :
    j.scanUpdates rel start upTo = i.scanUpdates rel start upTo := by
  have hlog : logBetween start upTo (j.rootsOr rel).log = logBetween start upTo (i.rootsOr rel).log := by
    rw [← logBetween_filter hup, (h.2 rel).log, logBetween_filter hup]
  rw [scanUpdates_eq, scanUpdates_eq, h.1, hlog]
  split_ifs
  · rfl
  · congr 1
    refine mapM_congr fun l hl => expand_congr ?_
    have hle := (edition_le_of_mem hl).2
    have hlt : ∀ v : F, decide ((ofLex l.1).1 < e) = true := fun _ => by simp; omega
    rw [← lookup_filter_keep (p := fun v => decide (v.1 < e)) hlt, (h.2 rel).versions, lookup_filter_keep hlt]

/-! ## Extension -/

/-- Every read of the first state's editions is the second's. -/
structure Extends (i j : Inner F) : Prop where
  current : i.current ≤ j.current
  watermark : j.watermark = i.watermark
  readAt : ∀ rel at', at' ≤ i.current → j.readAt rel at' = i.readAt rel at'
  scanUpdates : ∀ rel start upTo, upTo ≤ i.current →
    j.scanUpdates rel start upTo = i.scanUpdates rel start upTo

theorem Extends.refl (i : Inner F) : Extends i i := ⟨le_rfl, rfl, fun _ _ _ => rfl, fun _ _ _ _ => rfl⟩

theorem Extends.trans {i j k : Inner F} (h : Extends i j) (h' : Extends j k) : Extends i k where
  current := h.current.trans h'.current
  watermark := h'.watermark.trans h.watermark
  readAt rel at' hat := (h'.readAt rel at' (hat.trans h.current)).trans (h.readAt rel at' hat)
  scanUpdates rel start upTo hup :=
    (h'.scanUpdates rel start upTo (hup.trans h.current)).trans (h.scanUpdates rel start upTo hup)

/-- Two states of one edition extend each other or neither. -/
theorem Extends.symm {i j : Inner F} (h : Extends i j) (hc : j.current = i.current) : Extends j i where
  current := hc.le
  watermark := h.watermark.symm
  readAt rel at' hat := (h.readAt rel at' (hat.trans hc.le)).symm
  scanUpdates rel start upTo hup := (h.scanUpdates rel start upTo (hup.trans hc.le)).symm

theorem SameBelow.extends {i j : Inner F} (h : SameBelow (i.current + 1) i j)
    (hc : i.current ≤ j.current) : Extends i j where
  current := hc
  watermark := h.1
  readAt rel at' hat := h.readAt (by omega) rel
  scanUpdates rel start upTo hup := h.scanUpdates rel (by omega)

/-- A patch is what an edition's log says it was. -/
def Shows (i : Inner F) (e : Nat) (updates : List (RelId × Tuple × Diff)) : Prop :=
  e ≤ i.current ∧ ∀ rel, i.scanUpdates rel (e - 1) e
    = .ok ((updates.filter fun u => u.1 = rel).map fun u => ⟨u.2.1, e, u.2.2⟩)

theorem Shows.extends {i j : Inner F} {e : Nat} {updates : List (RelId × Tuple × Diff)}
    (h : i.Shows e updates) (hx : Extends i j) : j.Shows e updates :=
  ⟨h.1.trans hx.current, fun rel => (hx.scanUpdates rel _ _ h.1).trans (h.2 rel)⟩

/-- Nothing is logged past the current edition. -/
structure WF (i : Inner F) : Prop where
  watermark : i.watermark ≤ i.current
  log : ∀ rel, ∀ l ∈ (i.rootsOr rel).log, (ofLex l.1).1 ≤ i.current

omit [FactEnf F] in
theorem wf_empty : (empty : Inner F).WF := by
  refine ⟨le_rfl, fun rel l hl => ?_⟩
  simp [rootsOr, roots, empty, lookup, RelRoots.empty] at hl

/-! ## A commit -/

/-- One update of a patch: a version and a log record of its own relation. -/
theorem applyOne_rootsOr (e : Nat) (i : Inner F) (u : (RelId × Tuple × Diff) × Nat) :
    ∃ root orders, ∀ rel, (applyOne e i u).rootsOr rel = if rel = u.1.1 then
      ⟨OrdMap.put e root (i.rootsOr rel).versions,
        OrdMap.put (toLex (e, u.2)) (.update u.1.2.1 u.1.2.2) (i.rootsOr rel).log, orders⟩
      else i.rootsOr rel := by
  have hput : ∃ root orders, applyOne e i u =
      let j := i.put u.1.1 { i.rootsOr u.1.1 with
        log := OrdMap.put (toLex (e, u.2)) (.update u.1.2.1 u.1.2.2) (i.rootsOr u.1.1).log }
      j.put u.1.1 ⟨OrdMap.put e root (j.rootsOr u.1.1).versions, (j.rootsOr u.1.1).log, orders⟩ :=
    ⟨_, _, rfl⟩
  obtain ⟨root, orders, h⟩ := hput
  refine ⟨root, orders, fun rel => ?_⟩
  simp only [h, rootsOr_put, if_true]
  by_cases hrel : rel = u.1.1
  · simp [hrel]
  · simp [hrel]

theorem applyOne_sameBelow (e : Nat) (i : Inner F) (u : (RelId × Tuple × Diff) × Nat) :
    SameBelow e i (applyOne e i u) := by
  obtain ⟨root, orders, h⟩ := applyOne_rootsOr e i u
  refine ⟨rfl, fun rel => ?_⟩
  rw [h rel]
  split_ifs
  · exact ⟨filter_put_edition _ _ _, filter_put_log _ _ _ _⟩
  · exact .refl e _

omit [FactEnf F] in
/-- Recording interests leaves the roots. -/
theorem route_rels (i : Inner F) (e : Nat) (updates : List (RelId × Tuple × Diff)) :
    (i.route e updates).rels = i.rels ∧ (i.route e updates).watermark = i.watermark := by
  unfold route
  split_ifs <;> exact ⟨rfl, rfl⟩

theorem foldl_applyOne_sameBelow (e : Nat) : ∀ (us : List ((RelId × Tuple × Diff) × Nat)) (i : Inner F),
    SameBelow e i (us.foldl (applyOne e) i) := by
  intro us
  induction us with
  | nil => exact fun i => .refl e i
  | cons u us ih => exact fun i => (applyOne_sameBelow e i u).trans (ih _)

/-- The roots a patch leaves are those its updates leave, one after another. -/
theorem apply_rootsOr (i : Inner F) (e : Nat) (pre : List (RelId × Tuple))
    (updates : List (RelId × Tuple × Diff)) (origin : Origin) (rel : RelId) :
    (i.apply e pre updates origin).rootsOr rel
      = (updates.zipIdx.foldl (applyOne e) i).rootsOr rel := by
  have hfold : ∀ (us : List ((RelId × Tuple × Diff) × Nat)) (j k : Inner F), j.rels = k.rels →
      j.shape = k.shape → j.shapes = k.shapes →
        (us.foldl (applyOne e) j).rels = (us.foldl (applyOne e) k).rels := by
    intro us
    induction us with
    | nil => exact fun j k h _ _ => h
    | cons u us ih =>
      intro j k hr hs hss
      refine ih _ _ ?_ ?_ ?_ <;>
        simp [applyOne, foldFact, Inner.put, rootsOr, roots, shapeOf, hr, hs, hss]
  unfold apply
  simp only [rootsOr, roots, (route_rels _ e updates).1]
  exact congrArg (fun r => (lookup rel r).getD RelRoots.empty) (hfold _ _ i rfl rfl rfl)

theorem apply_sameBelow (i : Inner F) (e : Nat) (pre : List (RelId × Tuple))
    (updates : List (RelId × Tuple × Diff)) (origin : Origin) :
    SameBelow e i (i.apply e pre updates origin) := by
  refine ⟨?_, fun rel => ?_⟩
  · have hfold : ∀ (us : List ((RelId × Tuple × Diff) × Nat)) (j : Inner F),
        (us.foldl (applyOne e) j).watermark = j.watermark := by
      intro us
      induction us with
      | nil => exact fun j => rfl
      | cons u us ih => exact fun j => ih _
    unfold apply
    exact (route_rels _ e updates).2.trans (hfold _ _)
  · rw [apply_rootsOr]
    exact (foldl_applyOne_sameBelow e _ i).2 rel

@[simp] theorem apply_current (i : Inner F) (e : Nat) (pre : List (RelId × Tuple))
    (updates : List (RelId × Tuple × Diff)) (origin : Origin) :
    (i.apply e pre updates origin).current = e := rfl

/-- **A commit leaves the history before it as it was.** -/
theorem apply_extends (i : Inner F) (pre : List (RelId × Tuple))
    (updates : List (RelId × Tuple × Diff)) (origin : Origin) :
    Extends i (i.apply (i.current + 1) pre updates origin) :=
  (apply_sameBelow i _ pre updates origin).extends (Nat.le_succ _)

/-- The log a patch leaves: its updates at the end, in order. -/
theorem foldl_applyOne_log (e : Nat) (rel : RelId) : ∀ (us : List (RelId × Tuple × Diff)) (n : Nat)
    (i : Inner F), (∀ l ∈ (i.rootsOr rel).log, l.1 < toLex (e, n)) →
      (((us.zipIdx n).foldl (applyOne e) i).rootsOr rel).log = (i.rootsOr rel).log
        ++ ((us.zipIdx n).filter fun u => u.1.1 = rel).map fun u =>
          (toLex (e, u.2), LogEntry.update u.1.2.1 u.1.2.2) := by
  intro us
  induction us with
  | nil => intro n i _; simp
  | cons u us ih =>
    intro n i hbound
    obtain ⟨root, orders, hroots⟩ := applyOne_rootsOr e i (u, n)
    have hlater : ∀ l : LogKey, l < toLex (e, n) → l < toLex (e, n + 1) := fun l hl =>
      hl.trans (Prod.Lex.lt_iff.2 (.inr ⟨rfl, Nat.lt_succ_self n⟩))
    rw [List.zipIdx_cons, List.foldl_cons]
    by_cases hu : rel = u.1
    · have hlog : ((applyOne e i (u, n)).rootsOr rel).log
          = (i.rootsOr rel).log ++ [(toLex (e, n), LogEntry.update u.2.1 u.2.2)] := by
        rw [hroots rel, if_pos hu, put_last hbound]
      rw [ih (n + 1) _ ?_, hlog, List.filter_cons_of_pos (by simpa using hu.symm)]
      · simp
      · intro l hl
        rw [hlog, List.mem_append, List.mem_singleton] at hl
        rcases hl with hl | rfl
        · exact hlater _ (hbound l hl)
        · exact Prod.Lex.lt_iff.2 (.inr ⟨rfl, Nat.lt_succ_self n⟩)
    · have hlog : ((applyOne e i (u, n)).rootsOr rel).log = (i.rootsOr rel).log := by
        rw [hroots rel, if_neg hu]
      rw [ih (n + 1) _ (fun l hl => hlater _ (hbound l (hlog ▸ hl))), hlog,
        List.filter_cons_of_neg (by simpa using fun h => hu h.symm)]

omit [FactEnf F] in
theorem WF.log_lt {i : Inner F} (h : i.WF) (rel : RelId) (n : Nat) :
    ∀ l ∈ (i.rootsOr rel).log, l.1 < toLex (i.current + 1, n) := fun l hl =>
  Prod.Lex.lt_iff.2 (.inl (Nat.lt_succ_of_le (h.log rel l hl)))

theorem apply_wf {i : Inner F} (h : i.WF) (pre : List (RelId × Tuple))
    (updates : List (RelId × Tuple × Diff)) (origin : Origin) :
    (i.apply (i.current + 1) pre updates origin).WF := by
  refine ⟨?_, fun rel l hl => ?_⟩
  · rw [(apply_extends i pre updates origin).watermark]
    exact h.watermark.trans (Nat.le_succ _)
  · rw [apply_rootsOr, foldl_applyOne_log _ _ _ _ _ (h.log_lt rel 0), List.mem_append] at hl
    rcases hl with hl | hl
    · exact (h.log rel l hl).trans (Nat.le_succ _)
    · obtain ⟨u, -, rfl⟩ := List.mem_map.1 hl
      exact le_rfl

/-- **A commit shows at its edition what it was.** -/
theorem apply_shows {i : Inner F} (h : i.WF) (pre : List (RelId × Tuple))
    (updates : List (RelId × Tuple × Diff)) (origin : Origin) :
    (i.apply (i.current + 1) pre updates origin).Shows (i.current + 1) updates := by
  refine ⟨le_rfl, fun rel => ?_⟩
  have hw : ¬ i.current + 1 - 1 < (i.apply (i.current + 1) pre updates origin).watermark := by
    rw [(apply_extends i pre updates origin).watermark]
    have := h.watermark
    omega
  have hold : logBetween (i.current + 1 - 1) (i.current + 1) (i.rootsOr rel).log = [] := by
    refine List.eq_nil_iff_forall_not_mem.2 fun l hl => ?_
    have := (edition_le_of_mem hl).1
    have := h.log rel l (List.mem_filter.1 hl).1
    omega
  have hnew : ∀ us : List ((RelId × Tuple × Diff) × Nat),
      logBetween (i.current + 1 - 1) (i.current + 1) (us.map fun u =>
        ((toLex (i.current + 1, u.2) : LogKey), LogEntry.update u.1.2.1 u.1.2.2))
      = us.map fun u => (toLex (i.current + 1, u.2), LogEntry.update u.1.2.1 u.1.2.2) := by
    intro us
    refine filter_eq_self_of fun l hl => ?_
    obtain ⟨u, -, rfl⟩ := List.mem_map.1 hl
    refine decide_eq_true ⟨Prod.Lex.le_iff.2 (.inr ⟨rfl, Nat.zero_le _⟩), Prod.Lex.lt_iff.2 (.inl ?_)⟩
    exact Nat.lt_succ_self _
  have hread : ∀ us : List ((RelId × Tuple × Diff) × Nat),
      (us.map fun u => ((toLex (i.current + 1, u.2) : LogKey),
        LogEntry.update u.1.2.1 u.1.2.2)).mapM
          (expand ((i.apply (i.current + 1) pre updates origin).rootsOr rel).versions)
        = .ok (us.map fun u => [⟨u.1.2.1, i.current + 1, u.1.2.2⟩]) := by
    intro us
    induction us with
    | nil => rfl
    | cons u us ih =>
      rw [List.map_cons, List.mapM_cons, ih]
      rfl
  have hplaces : ((updates.zipIdx.filter fun u => u.1.1 = rel).map fun u =>
      [(⟨u.1.2.1, i.current + 1, u.1.2.2⟩ : Update)]).flatten
        = (updates.filter fun u => u.1 = rel).map fun u => ⟨u.2.1, i.current + 1, u.2.2⟩ := by
    rw [← List.flatMap_def, ← List.map_eq_flatMap]
    conv_rhs => rw [← List.zipIdx_map_fst 0 updates, List.filter_map, List.map_map]
    rfl
  have hlog : logBetween (i.current + 1 - 1) (i.current + 1)
      ((i.apply (i.current + 1) pre updates origin).rootsOr rel).log
        = (updates.zipIdx.filter fun u => u.1.1 = rel).map fun u =>
          (toLex (i.current + 1, u.2), LogEntry.update u.1.2.1 u.1.2.2) := by
    rw [apply_rootsOr, foldl_applyOne_log _ _ _ _ _ (h.log_lt rel 0), logBetween, between,
      List.filter_append, ← between, ← between, ← logBetween, ← logBetween, hold, hnew,
      List.nil_append]
  rw [scanUpdates_eq, if_neg hw, hlog, hread, ← hplaces]
  rfl

/-! ## The current edition -/

omit [FactEnf F] in
theorem touchedRangeSince_current (i : Inner F) (start upTo : Nat) (rel : RelId) (lo hi : Tuple) :
    (i.touchedRangeSince start upTo rel lo hi).1.current = i.current := by
  have hask : (i.interest rel lo hi).1.current = i.current := by
    unfold interest
    dsimp only
    split <;> rfl
  unfold touchedRangeSince
  dsimp only
  split_ifs
  · rfl
  all_goals exact hask

theorem graft_current {i j : Inner F} {rels : List RelId} {lo hi : UInt64} {shift : Dsp} {origin : Origin}
    (hg : i.graft rels lo hi shift origin = .ok j) : j.current = i.current + 1 := by
  obtain ⟨grafts, -, hg⟩ := bind_ok hg
  cases hg
  rfl

omit [FactEnf F] in
theorem consolidate_current (i : Inner F) (upTo : Nat) : (i.consolidate upTo).current = i.current := by
  unfold consolidate
  dsimp only
  split_ifs <;> rfl

omit [FactEnf F] in
theorem uniteShapes_current {i j : Inner F} {theirs : List (RelId × Shape)} (h : i.uniteShapes theirs = some j) :
    j.current = i.current := by
  refine foldlM_invariant (I := fun k : Inner F => k.current = i.current) (fun a s b ha hab => ?_) rfl h
  split at hab
  · split_ifs at hab
    cases hab
    exact ha
  · split_ifs at hab <;> cases hab <;> exact ha

/-! ## Grafts, merges and forks -/

omit [FactEnf F] in
/-- One relation's graft: a version and a log record of its own edition. -/
theorem applyGraft_wf {i : Inner F} {e : Nat} {lo hi : Tuple} {g : RelId × F}
    (hw : i.watermark ≤ e) (hlog : ∀ rel, ∀ l ∈ (i.rootsOr rel).log, (ofLex l.1).1 ≤ e) :
    (applyGraft e lo hi i g).watermark ≤ e ∧
      ∀ rel, ∀ l ∈ ((applyGraft e lo hi i g).rootsOr rel).log, (ofLex l.1).1 ≤ e := by
  have hrels : (applyGraft e lo hi i g).watermark = i.watermark ∧ (applyGraft e lo hi i g).rels
      = (i.put g.1 ⟨OrdMap.put e g.2 (i.rootsOr g.1).versions,
          OrdMap.put (toLex (e, 0)) (.graft lo hi) (i.rootsOr g.1).log, []⟩).rels := by
    simp only [applyGraft]
    split_ifs <;> exact ⟨rfl, rfl⟩
  refine ⟨hrels.1 ▸ hw, fun rel l hl => ?_⟩
  rw [rootsOr, roots, hrels.2, ← roots, ← rootsOr, rootsOr_put] at hl
  split_ifs at hl with h
  · rcases mem_put hl with rfl | hl
    · exact le_rfl
    · exact hlog _ l hl
  · exact hlog rel l hl

theorem graft_wf {i j : Inner F} {rels : List RelId} {lo hi : UInt64} {shift : Dsp} {origin : Origin}
    (h : i.WF) (hg : i.graft rels lo hi shift origin = .ok j) : j.WF := by
  obtain ⟨grafts, -, hg⟩ := bind_ok hg
  cases hg
  have hfold : ∀ (gs : List (RelId × F)) (k : Inner F), k.watermark ≤ i.current + 1 →
      (∀ rel, ∀ l ∈ (k.rootsOr rel).log, (ofLex l.1).1 ≤ i.current + 1) →
        (gs.foldl (applyGraft (i.current + 1) (displace (entKey lo) shift)
          (displace (entKey hi) shift)) k).watermark ≤ i.current + 1 ∧
        ∀ rel, ∀ l ∈ ((gs.foldl (applyGraft (i.current + 1) (displace (entKey lo) shift)
          (displace (entKey hi) shift)) k).rootsOr rel).log, (ofLex l.1).1 ≤ i.current + 1 := by
    intro gs
    induction gs with
    | nil => exact fun k hw hl => ⟨hw, hl⟩
    | cons g gs ih =>
      intro k hw hl
      obtain ⟨hw', hl'⟩ := applyGraft_wf (g := g) hw hl
      exact ih _ hw' hl'
  obtain ⟨hw, hl⟩ := hfold grafts i (h.watermark.trans (Nat.le_succ _))
    fun rel l hl => (h.log rel l hl).trans (Nat.le_succ _)
  exact ⟨hw, hl⟩

/-- What shapes leave alone, and commits and grafts keep, a merge keeps. -/
theorem merge_keeps {I : Inner F → Prop} {i theirs j : Inner F} {todo : List Replay}
    (hshapes : ∀ (i : Inner F) shapes, I i → I { i with shapes := shapes })
    (happly : ∀ (i : Inner F) pre updates origin, I i → I (i.apply (i.current + 1) pre updates origin))
    (hgraft : ∀ (i j : Inner F) rels lo hi shift origin, I i →
      i.graft rels lo hi shift origin = .ok j → I j)
    (h : I { i with canopy := Canopy.new, fired := [], interests := [], registered := [] })
    (hm : i.merge theirs todo = some j) : I j := by
  obtain ⟨k, hk, hm⟩ := Option.bind_eq_some_iff.1 hm
  have hunite : I k := by
    refine foldlM_invariant (fun a s b ha hab => ?_) h hk
    split at hab
    · split_ifs at hab
      cases hab
      exact ha
    · split_ifs at hab <;> cases hab
      · exact ha
      · exact hshapes _ _ ha
  refine foldlM_invariant (fun a r b ha hab => ?_) hunite hm
  cases r with
  | commit pre updates origin =>
    simp only [replayOne] at hab
    split_ifs at hab
    cases hab
    exact happly _ _ _ _ ha
  | graft rels lo hi shift origin =>
    simp only [replayOne] at hab
    cases hg : a.graft rels lo hi shift origin with
    | error e => simp [hg, Except.toOption] at hab
    | ok k =>
      simp only [hg, Except.toOption, Option.some.injEq] at hab
      exact hab ▸ hgraft _ _ _ _ _ _ _ ha hg

theorem merge_wf {i theirs j : Inner F} {todo : List Replay} (h : i.WF)
    (hm : i.merge theirs todo = some j) : j.WF :=
  merge_keeps (fun _ _ h => ⟨h.watermark, h.log⟩) (fun _ _ _ _ h => apply_wf h _ _ _)
    (fun _ _ _ _ _ _ _ h hg => graft_wf h hg) ⟨h.watermark, h.log⟩ hm

omit [FactEnf F] in
/-- A log record of a relation lies in one of the roots listed for it. -/
theorem mem_rootsOr {i : Inner F} {rel : RelId} {l : LogKey × LogEntry}
    (hl : l ∈ (i.rootsOr rel).log) : ∃ r, (rel, r) ∈ i.rels ∧ l ∈ r.log := by
  rw [rootsOr, roots] at hl
  cases hr : lookup rel i.rels with
  | none =>
    rw [hr] at hl
    exact absurd hl (by simp [RelRoots.empty])
  | some r =>
    rw [hr] at hl
    exact ⟨r, mem_of_lookup hr, hl⟩

omit [FactEnf F] in
theorem forkAt_wf {i : Inner F} {at' : Nat} (h : i.WF) (hat : i.watermark ≤ at') :
    (i.forkAt at').WF := by
  refine ⟨hat, fun rel l hl => ?_⟩
  by_cases hc : at' = i.current
  · rw [forkAt, if_pos hc] at hl
    exact hc ▸ h.log rel l hl
  · rw [forkAt, if_neg hc] at hl
    obtain ⟨r, hr, hl⟩ := mem_rootsOr hl
    obtain ⟨s, -, hs⟩ := List.mem_filterMap.1 hr
    simp only at hs
    split_ifs at hs
    cases hs
    exact of_decide_eq_true (List.mem_filter.1 hl).2

end Inner

end Grmpl

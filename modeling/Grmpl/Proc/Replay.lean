import Grmpl.Proc.ExactlyOnce
import Mathlib.Data.List.Sort

/-!
# Replay

A process's patches are derived again from committed history alone: each move of its
cursor names the message consumed, and the behavior is run on the edition just before
the one the move was committed in.

* `Step`, `Process.replayFrom`: the code.
* `Recorded`, `Recorded.step`: an inbox whose drivers record each step they commit.
* `replay_recorded`: where a commit finds what its behavior read as it was when the
  patch was prepared, replay returns what was recorded.
* `replay_differs`: another writer in between, and it does not.
-/

open OrdMap Runs Numbering

namespace Grmpl

/-- One step of a process: the position of its message, its patch, and the edition the
commit created. -/
structure Step where
  seq : Int64
  patch : Patch
  edition : Nat
  deriving DecidableEq

namespace Process

variable (p : Process)

/-- The advance of the process's cursor an update records, with its edition. -/
def advanceIn (u : Update) : Option (Int64 × Nat) :=
  if 0 < u.diff ∧ u.tuple.cells[0]? = some (.ent p.entity) then
    match u.tuple.cells[1]? with
    | some (Value.int k) => some (k, u.edition)
    | _ => none
  else none

/-- Advances in order of position, then of edition. -/
def advanceLe (a b : Int64 × Nat) : Prop := a.1 < b.1 ∨ a.1 = b.1 ∧ a.2 ≤ b.2

instance : DecidableRel advanceLe := fun _ _ => inferInstanceAs (Decidable (_ ∨ _))

/-- The step an advance came from. -/
def replayed (store : TraceStore) (a : Int64 × Nat) : Result (Option Step) := do
  let patch ← p.patchAt store (a.1 - 1) (a.2 - 1)
  return patch.map fun patch => ⟨a.1 - 1, patch, a.2⟩

/-- The steps of the process after an edition, from the store alone. -/
def replayFrom (store : TraceStore) (start : Nat) : Result (List Step) :=
  if start < store.watermark then
    .error (.store ("replay from edition " ++ toString start ++ " below the consolidation watermark "
      ++ toString store.watermark
      ++ " (that history has been folded into a checkpoint and discarded)"))
  else do
    let updates ← store.scanUpdates p.cursorRel start store.current
    let advances := (updates.filterMap p.advanceIn).insertionSort advanceLe
    let steps ← advances.mapM (p.replayed store)
    return steps.reduceOption

/-- The behavior is a function of the edition and the rows it reads there, and the body. -/
def Pure (p : Process) : Prop :=
  ∀ (s s' : Snapshot) body, s.edition = s'.edition → (∀ rel, s.read rel = s'.read rel) →
    p.behavior s body = p.behavior s' body

/-- Editions of a store that show the same of it get the same answers. -/
def SeesOnly {α : Type} (p : Process) (view : Snapshot → α) : Prop :=
  ∀ (store : TraceStore) (at' at'' : Nat) body, view ⟨store, at'⟩ = view ⟨store, at''⟩ →
    p.behavior ⟨store, at'⟩ body = p.behavior ⟨store, at''⟩ body

end Process

/-- An inbox, the steps its drivers have committed, and the edition each prepared at. -/
structure Recorded where
  inbox : Inbox
  steps : List Step
  preparedAt : Nat → Nat

namespace Recorded

/-- A store before the process's drivers have done anything. -/
def start (store : TraceStore) (n : Nat) : Recorded := ⟨⟨store, .replicate n .idle, []⟩, [], fun _ => 0⟩

/-- What the drivers or somebody else does next; a commit that goes through is recorded. -/
def step (p : Process) (schemas : SchemaCatalog) (checker : BehaviorChecker) (w : Recorded)
    (a : Inbox.Act) : Option Recorded :=
  (w.inbox.step p schemas checker a).map fun inbox =>
    match a with
    | .prepare d =>
        ⟨inbox, w.steps, Function.update w.preparedAt d w.inbox.store.current⟩
    | .commit d => match w.inbox.drivers[d]? with
        | some (.prepared x) =>
            if w.inbox.committed.length < inbox.committed.length then
              ⟨inbox, w.steps ++ [⟨x.seq, x.patch, inbox.store.current⟩], w.preparedAt⟩
            else ⟨inbox, w.steps, w.preparedAt⟩
        | _ => ⟨inbox, w.steps, w.preparedAt⟩
    | _ => ⟨inbox, w.steps, w.preparedAt⟩

end Recorded

/-- A commit finds the cursor in place, and the message and what its behavior sees as
they were when the patch was prepared; and nobody else writes the cursor. -/
def AsPrepared {α : Type} (p : Process) (view : Snapshot → α) (w : Recorded) (a : Inbox.Act) : Prop :=
  CursorInPlace p w.inbox a ∧ match a with
    | .commit d => match w.inbox.drivers[d]? with
        | some (.prepared x) =>
            p.messageAt w.inbox.store x.seq (w.preparedAt d)
                = p.messageAt w.inbox.store x.seq w.inbox.store.current ∧
              view ⟨w.inbox.store, w.preparedAt d⟩ = view ⟨w.inbox.store, w.inbox.store.current⟩
        | _ => True
    | _ => True

instance {α : Type} [DecidableEq α] (p : Process) (view : Snapshot → α) (w : Recorded) :
    (a : Inbox.Act) → Decidable (AsPrepared p view w a)
  | .commit d => show Decidable (CursorInPlace p w.inbox (.commit d) ∧ match w.inbox.drivers[d]? with
      | some (.prepared x) =>
          p.messageAt w.inbox.store x.seq (w.preparedAt d)
              = p.messageAt w.inbox.store x.seq w.inbox.store.current ∧
            view ⟨w.inbox.store, w.preparedAt d⟩ = view ⟨w.inbox.store, w.inbox.store.current⟩
      | _ => True) from @instDecidableAnd _ _ _ (match w.inbox.drivers[d]? with
        | some (.prepared x) => inferInstanceAs (Decidable (p.messageAt w.inbox.store x.seq (w.preparedAt d)
              = p.messageAt w.inbox.store x.seq w.inbox.store.current ∧
            view ⟨w.inbox.store, w.preparedAt d⟩ = view ⟨w.inbox.store, w.inbox.store.current⟩))
        | some .idle | some (.positioned _) | none => .isTrue trivial)
  | .position d => inferInstanceAs (Decidable (CursorInPlace p w.inbox (.position d) ∧ True))
  | .prepare d => inferInstanceAs (Decidable (CursorInPlace p w.inbox (.prepare d) ∧ True))
  | .crash d => inferInstanceAs (Decidable (CursorInPlace p w.inbox (.crash d) ∧ True))
  | .other updates => inferInstanceAs (Decidable (CursorInPlace p w.inbox (.other updates) ∧ True))

/-! ## An edition already committed -/

namespace TraceStore

theorem readAt_commit {h : TraceStore} {at' : Nat} (hle : at' ≤ h.current) (rel : RelId)
    (updates : List (RelId × Tuple × Diff)) : (h.commit updates).readAt rel at' = h.readAt rel at' := by
  unfold readAt
  rw [rowsAt_commit hle]
  rfl

end TraceStore

namespace Process

variable {p : Process}

theorem messageAt_commit {store : TraceStore} {at' : Nat} (hle : at' ≤ store.current) (seq : Int64)
    (updates : List (RelId × Tuple × Diff)) :
    p.messageAt (store.commit updates) seq at' = p.messageAt store seq at' := by
  unfold messageAt
  rw [TraceStore.readAt_commit hle]

theorem patchAt_congr {store store' : TraceStore} {seq : Int64} {at' at'' : Nat}
    (hm : p.messageAt store seq at' = p.messageAt store' seq at'')
    (hb : ∀ body, p.behavior ⟨store, at'⟩ body = p.behavior ⟨store', at''⟩ body) :
    p.patchAt store seq at' = p.patchAt store' seq at'' := by
  unfold patchAt
  rw [hm]
  simp only [hb]

/-- **A pure behavior answers for an edition as it did when the edition was committed.** -/
theorem patchAt_commit (hpure : p.Pure) {store : TraceStore} {at' : Nat} (hle : at' ≤ store.current)
    (seq : Int64) (updates : List (RelId × Tuple × Diff)) :
    p.patchAt (store.commit updates) seq at' = p.patchAt store seq at' :=
  patchAt_congr (messageAt_commit hle seq updates) fun body =>
    hpure _ _ body rfl fun _ => TraceStore.readAt_commit hle _ updates

/-- What the updates of a commit record of the cursor's advances. -/
def advances (p : Process) (updates : List (RelId × Tuple × Diff)) (edition : Nat) :
    List (Int64 × Nat) :=
  ((updates.filter fun u => u.1 = p.cursorRel).map fun u => ⟨u.2.1, edition, u.2.2⟩).filterMap
    p.advanceIn

theorem advances_append (us vs : List (RelId × Tuple × Diff)) (edition : Nat) :
    p.advances (us ++ vs) edition = p.advances us edition ++ p.advances vs edition := by
  simp [advances]

theorem advances_spares {updates : List (RelId × Tuple × Diff)} (h : p.Spares updates) (edition : Nat) :
    p.advances updates edition = [] := by
  rw [advances, List.filterMap_eq_nil_iff]
  intro u hu
  obtain ⟨v, hv, rfl⟩ := List.mem_map.1 hu
  obtain ⟨hv, hrel⟩ := List.mem_filter.1 hv
  refine if_neg fun hrow => h v hv ⟨by simpa using hrel, hrow.2⟩

/-- A message's patch records one advance. -/
theorem advances_patch {patch : Patch} {seq : Int64} (hmove : patch.cursorAdvance = some (p.cursorMove seq))
    (hspares : p.Spares { patch with cursorAdvance := none }.updates) (edition : Nat) :
    p.advances patch.updates edition = [(seq + 1, edition)] := by
  have hcursor : p.advances (p.cursorMove seq).updates edition = [(seq + 1, edition)] := by
    unfold advances CursorMove.updates cursorMove advanceIn
    by_cases hpos : 0 < seq <;> simp [hpos, cursorTuple]
  rw [Patch.updates_eq, advances_append, advances_spares hspares, hmove]
  simpa using hcursor

end Process

/-! ## What a run records -/

section

variable {α : Type} {p : Process} {view : Snapshot → α} {schemas : SchemaCatalog}
  {checker : BehaviorChecker} {w w' : Recorded} {a : Inbox.Act}

/-- The recorded steps are the cursor's history, each patch is what its behavior
answers one edition earlier, and what is prepared is what it answered then. -/
structure Replayable (p : Process) (w : Recorded) : Prop where
  seqs : w.steps.map Step.seq = w.inbox.committed
  advances : (w.inbox.store.updatesBetween p.cursorRel 0 w.inbox.store.current).filterMap p.advanceIn
    = w.steps.map fun s => (s.seq + 1, s.edition)
  patches : ∀ s ∈ w.steps, s.edition ≤ w.inbox.store.current ∧
    p.patchAt w.inbox.store s.seq (s.edition - 1) = .ok (some s.patch)
  prepared : ∀ (d : Nat) (x : Prepared), w.inbox.drivers[d]? = some (.prepared x) →
    w.preparedAt d ≤ w.inbox.store.current ∧
      p.patchAt w.inbox.store x.seq (w.preparedAt d) = .ok (some x.patch)
  watermark : w.inbox.store.watermark = 0

/-- What a step records, with what it does. -/
inductive Recorded.Does (p : Process) (w : Recorded) : Inbox.Act → Recorded → Prop
  /-- Nothing is committed, and nobody has newly prepared. -/
  | rest (a : Inbox.Act) (drivers : List Driver) (preparedAt : Nat → Nat) :
      (∀ (d : Nat) (x : Prepared), drivers[d]? = some (.prepared x) →
        w.inbox.drivers[d]? = some (.prepared x) ∧ preparedAt d = w.preparedAt d) →
      Does p w a ⟨{ w.inbox with drivers }, w.steps, preparedAt⟩
  | prepare (d : Nat) (pos : Int64) (patch : Patch) :
      p.patchAt w.inbox.store pos w.inbox.store.current = .ok (some patch) →
      Does p w (.prepare d) ⟨w.inbox.setDriver d (.prepared ⟨pos, patch⟩), w.steps,
        Function.update w.preparedAt d w.inbox.store.current⟩
  | commit (d : Nat) (x : Prepared) : w.inbox.drivers[d]? = some (.prepared x) →
      Does p w (.commit d) ⟨{ w.inbox.setDriver d .idle with
          store := w.inbox.store.commit x.patch.updates, committed := w.inbox.committed ++ [x.seq] },
        w.steps ++ [⟨x.seq, x.patch, w.inbox.store.current + 1⟩], w.preparedAt⟩
  | other (updates : List (RelId × Tuple × Diff)) :
      Does p w (.other updates)
        ⟨{ w.inbox with store := w.inbox.store.commit updates }, w.steps, w.preparedAt⟩

/-- A driver set to something unprepared leaves the others as they were. -/
theorem Inbox.prepared_setDriver {v : Inbox} {d e : Nat} {y : Driver} {x : Prepared}
    (hy : ∀ z, y ≠ .prepared z) (h : (v.drivers.set d y)[e]? = some (.prepared x)) :
    v.drivers[e]? = some (.prepared x) ∧ e ≠ d := by
  rw [List.getElem?_set] at h
  split_ifs at h with hde hlt
  · exact absurd (Option.some.inj h) (hy x)
  · exact ⟨h, fun heq => hde heq.symm⟩

theorem Recorded.step_does (h : Recorded.step p schemas checker w a = some w') :
    Recorded.Does p w a w' := by
  obtain ⟨inbox, hin, hw'⟩ := Option.map_eq_some_iff.1 h
  have hself : ∀ (d : Nat) (x : Prepared), w.inbox.drivers[d]? = some (.prepared x) →
      w.inbox.drivers[d]? = some (.prepared x) ∧ w.preparedAt d = w.preparedAt d :=
    fun _ _ hx => ⟨hx, rfl⟩
  have hset : ∀ (d : Nat) (y : Driver), (∀ z, y ≠ .prepared z) → ∀ (e : Nat) (x : Prepared),
      (w.inbox.drivers.set d y)[e]? = some (.prepared x) →
        w.inbox.drivers[e]? = some (.prepared x) ∧ w.preparedAt e = w.preparedAt e :=
    fun d y hy e x hx => ⟨(Inbox.prepared_setDriver hy hx).1, rfl⟩
  cases a with
  | position d =>
    cases hw'
    cases Inbox.step_does hin with
    | stay => exact .rest _ _ _ hself
    | rest _ e => exact .rest _ _ _ (hset e .idle nofun)
    | position _ pos => exact .rest _ _ _ (hset d (.positioned pos) nofun)
  | prepare d =>
    cases hw'
    simp only [Inbox.step] at hin
    split at hin
    · split at hin
      · rename_i pos _ _ patch hpatch
        cases hin
        exact .prepare d pos patch hpatch
      · cases hin
        refine .rest _ _ _ fun e x hx => ?_
        obtain ⟨hx, hne⟩ := Inbox.prepared_setDriver (y := .idle) nofun hx
        exact ⟨hx, Function.update_of_ne hne _ _⟩
    · cases hin
  | commit d =>
    cases Inbox.step_does hin with
    | stay =>
      simp only [lt_irrefl, if_false] at hw'
      split at hw' <;> exact hw' ▸ .rest _ _ _ hself
    | rest _ e =>
      simp only [Inbox.setDriver, lt_irrefl, if_false] at hw'
      split at hw' <;> exact hw' ▸ .rest _ _ _ (hset e .idle nofun)
    | commit _ x hx =>
      simp only [hx, List.length_append, List.length_singleton, Nat.lt_succ_self, if_true,
        TraceStore.current_commit] at hw'
      exact hw' ▸ .commit d x hx
  | crash d =>
    cases hw'
    cases Inbox.step_does hin with
    | stay => exact .rest _ _ _ hself
    | rest _ e => exact .rest _ _ _ (hset e .idle nofun)
  | other updates =>
    cases hw'
    cases hin
    exact .other updates

theorem replayable_start {store : TraceStore} (hmark : store.watermark = 0)
    (hfresh : ∀ us ∈ store.patches, p.Spares us) (n : Nat) : Replayable p (.start store n) := by
  refine ⟨rfl, ?_, fun s hs => absurd hs (by simp [Recorded.start]), fun d x hx => ?_, hmark⟩
  · show (store.updatesBetween p.cursorRel 0 store.current).filterMap p.advanceIn = []
    rw [List.filterMap_eq_nil_iff]
    intro u hu
    obtain ⟨e, he, hu⟩ := List.mem_flatMap.1 hu
    obtain ⟨v, hv, rfl⟩ := List.mem_map.1 hu
    obtain ⟨hv, hrel⟩ := List.mem_filter.1 hv
    have hpatch : e.1 ∈ store.patches := List.fst_mem_of_mem_zipIdx (List.mem_filter.1 he).1
    exact if_neg fun hrow => hfresh e.1 hpatch v hv ⟨by simpa using hrel, hrow.2⟩
  · exact absurd (List.eq_of_mem_replicate (List.mem_of_getElem? hx)) (by simp)

/-- **What a step adds to the record replay finds in the history.** -/
theorem replayable_step (hpure : p.Pure) (hsees : p.SeesOnly view) (h : Replayable p w)
    (hp : PatchesMove p w.inbox) (hok : AsPrepared p view w a) (hd : Recorded.Does p w a w') :
    Replayable p w' := by
  -- what was derived before a commit is derived after it
  have hkeep : ∀ updates (s : Step), s ∈ w.steps → s.edition ≤ (w.inbox.store.commit updates).current ∧
      p.patchAt (w.inbox.store.commit updates) s.seq (s.edition - 1) = .ok (some s.patch) := by
    intro updates s hs
    obtain ⟨hle, hpatch⟩ := h.patches s hs
    rw [TraceStore.current_commit, Process.patchAt_commit hpure (by omega)]
    exact ⟨by omega, hpatch⟩
  have hprep : ∀ updates (d : Nat) (x : Prepared), w.inbox.drivers[d]? = some (.prepared x) →
      w.preparedAt d ≤ (w.inbox.store.commit updates).current ∧
        p.patchAt (w.inbox.store.commit updates) x.seq (w.preparedAt d) = .ok (some x.patch) := by
    intro updates d x hx
    obtain ⟨hle, hpatch⟩ := h.prepared d x hx
    rw [TraceStore.current_commit, Process.patchAt_commit hpure hle]
    exact ⟨by omega, hpatch⟩
  have hadv : ∀ updates, ((w.inbox.store.commit updates).updatesBetween p.cursorRel 0
      (w.inbox.store.commit updates).current).filterMap p.advanceIn
        = (w.steps.map fun s => (s.seq + 1, s.edition))
          ++ p.advances updates (w.inbox.store.current + 1) := by
    intro updates
    rw [TraceStore.updatesBetween_commit, List.filterMap_append, h.advances]
    rfl
  cases hd with
  | rest _ drivers preparedAt hdrivers =>
    refine ⟨h.seqs, h.advances, h.patches, fun d x hx => ?_, h.watermark⟩
    obtain ⟨hx, hat⟩ := hdrivers d x hx
    dsimp only
    rw [hat]
    exact h.prepared d x hx
  | prepare d pos patch hpatch =>
    refine ⟨h.seqs, h.advances, h.patches, fun e x hx => ?_, h.watermark⟩
    dsimp only [Inbox.setDriver] at hx ⊢
    rw [List.getElem?_set] at hx
    split_ifs at hx with hde hlt
    · cases hx
      subst hde
      rw [Function.update_self]
      exact ⟨le_rfl, hpatch⟩
    · rw [Function.update_of_ne (Ne.symm hde)]
      exact h.prepared e x hx
  | commit d x hx =>
    obtain ⟨hmove, hspares⟩ := hp d x hx
    obtain ⟨-, hseen⟩ := hok
    simp only [hx] at hseen
    -- the behavior answers now what it answered when the patch was prepared
    have hnow : p.patchAt w.inbox.store x.seq w.inbox.store.current = .ok (some x.patch) := by
      rw [← (h.prepared d x hx).2]
      exact (Process.patchAt_congr hseen.1 fun body => hsees _ _ _ body hseen.2).symm
    refine ⟨?_, ?_, fun s hs => ?_, fun e y hy => ?_, h.watermark⟩
    · simp [h.seqs]
    · rw [hadv, Process.advances_patch hmove hspares]
      simp
    · rcases List.mem_append.1 hs with hs | hs
      · exact hkeep _ s hs
      · obtain rfl := List.mem_singleton.1 hs
        refine ⟨by simp, ?_⟩
        show p.patchAt _ x.seq (w.inbox.store.current + 1 - 1) = _
        rw [Nat.add_sub_cancel, Process.patchAt_commit hpure le_rfl]
        exact hnow
    · exact hprep _ e y (Inbox.prepared_setDriver (y := .idle) nofun hy).1
  | other updates =>
    refine ⟨h.seqs, ?_, hkeep updates, hprep updates, h.watermark⟩
    rw [hadv, Process.advances_spares hok.1, List.append_nil]

/-- **The record is what replay derives.** -/
theorem Replayable.replayFrom (h : Replayable p w) (he : ExactlyOnce p w.inbox)
    (hlt : w.inbox.committed.length < 2 ^ 63) : p.replayFrom w.inbox.store 0 = .ok w.steps := by
  -- positions only grow, so the advances are already in order
  have hsorted : (w.steps.map fun s => (s.seq + 1, s.edition)).Pairwise Process.advanceLe := by
    have hseqs : (w.steps.map fun s => (s.seq + 1, s.edition)).Pairwise fun a b => a.1 < b.1 := by
      rw [List.pairwise_map, ← List.pairwise_map (f := Step.seq) (R := fun a b => a + 1 < b + 1), h.seqs,
        he.order, List.pairwise_map]
      refine List.pairwise_lt_range.imp_of_mem fun {i j} _ hj hij => ?_
      have hj := List.mem_range.1 hj
      rw [show (1 : Int64) = Int64.ofNat 1 from rfl, ← Int64.ofNat_add, ← Int64.ofNat_add,
        Int64.lt_iff_toInt_lt, Int64.toInt_ofNat_of_lt (by omega), Int64.toInt_ofNat_of_lt (by omega)]
      omega
    exact hseqs.imp Or.inl
  have hreplayed : w.steps.mapM (fun s => p.replayed w.inbox.store (s.seq + 1, s.edition))
      = .ok (w.steps.map some) := by
    refine mapM_ok fun s hs => ?_
    rw [Process.replayed, Int64.add_sub_cancel, (h.patches s hs).2]
    rfl
  unfold Process.replayFrom
  rw [h.watermark, if_neg (lt_irrefl 0), TraceStore.scanUpdates, h.watermark, if_neg (lt_irrefl 0)]
  show ((((w.inbox.store.updatesBetween p.cursorRel 0 w.inbox.store.current).filterMap
    p.advanceIn).insertionSort Process.advanceLe).mapM (p.replayed w.inbox.store) >>=
      fun steps => pure steps.reduceOption : Result (List Step)) = _
  rw [h.advances, hsorted.insertionSort_eq, List.mapM_map]
  show (w.steps.mapM (fun s => p.replayed w.inbox.store (s.seq + 1, s.edition)) >>= _ :
    Result (List Step)) = _
  rw [hreplayed]
  show Except.ok (w.steps.map some).reduceOption = _
  simp [List.reduceOption]

/-- **Replay returns what was recorded**, in every run of any number of drivers where a
commit finds what its patch was prepared from as it was then. -/
theorem replay_recorded (hpure : p.Pure) (hsees : p.SeesOnly view) (hb : p.LeavesCursor)
    {store : TraceStore} (hmark : store.watermark = 0) (hfresh : ∀ us ∈ store.patches, p.Spares us) (n : Nat)
    (hrun : Run (Recorded.step p schemas checker) (AsPrepared p view) (.start store n) w) :
    p.replayFrom w.inbox.store 0 = .ok w.steps := by
  have hcursor : ∀ t, p.Own p.cursorRel t → store.weight p.cursorRel t = 0 := by
    intro t ht
    rw [TraceStore.weight_eq_netOn]
    refine netOn_eq_zero fun u hu hut => ?_
    obtain ⟨us, hus, hu⟩ := List.mem_flatten.1 hu
    exact hfresh us hus u hu (hut.1 ▸ hut.2 ▸ ht)
  have hinv : Replayable p w ∧ (ExactlyOnce p w.inbox ∧ w.inbox.committed.length < 2 ^ 63) ∧
      PatchesMove p w.inbox := by
    refine hrun.invariant (I := fun v => Replayable p v ∧ (ExactlyOnce p v.inbox ∧
      v.inbox.committed.length < 2 ^ 63) ∧ PatchesMove p v.inbox)
      ⟨replayable_start hmark hfresh n, inbox_start hcursor n⟩ ?_
    rintro v b v' ⟨hlog, ⟨hv, hlt⟩, hp⟩ hok hst
    obtain ⟨inbox, hin, heq⟩ := Option.map_eq_some_iff.1 hst
    have hv' : inbox = v'.inbox := by
      rw [← heq]
      split
      · rfl
      · split
        · split <;> rfl
        · rfl
      · rfl
    rw [hv'] at hin
    have hd := Inbox.step_does hin
    exact ⟨replayable_step hpure hsees hlog hp hok (Recorded.step_does hst),
      exactlyOnce_step hv hp hlt hok.1 hd, patchesMove_step hb hp hd⟩
  exact hinv.1.replayFrom hinv.2.1.1 hinv.2.1.2

end

/-! ## Another writer in between -/

/-- A process that records what another relation holds as each message comes. -/
def observer : Process where
  entity := ⟨1⟩
  authority := ⟨0, [⟨12, none⟩]⟩
  inbox := 10
  cursorRel := 11
  behavior := fun snap _ => do
    let rows ← snap.read 20
    return { Patch.new with asserts := rows.map fun row => ⟨12, row.1⟩ }

theorem observer_pure : observer.Pure := by
  intro s s' body _ hread
  show (do let rows ← s.read 20; _) = _
  rw [hread 20]
  rfl

theorem observer_leavesCursor : observer.LeavesCursor := by
  intro snap body patch h u hu
  obtain ⟨rows, -, hpatch⟩ := bind_ok h
  cases hpatch
  obtain ⟨row, -, rfl⟩ : ∃ row ∈ rows, (12, row.1, 1) = u := by
    simpa [Patch.updates, Patch.emitted, Patch.new] using hu
  exact fun hown => absurd (show (12 : Nat) = 11 from hown.1) (by decide)

/-- Somebody else writes what the behavior reads, between the prepare and the commit. -/
def disturbed : List Inbox.Act :=
  [.other firstMessage, .position 0, .prepare 0, .other [(20, ⟨[.text "late"]⟩, 1)], .commit 0]

/-- **The patch committed is not the one replay derives**, of a pure behavior and writers
that leave its cursor alone. -/
theorem replay_differs : ¬ ∀ (p : Process), p.Pure → p.LeavesCursor → ∀ w,
    Run (Recorded.step p noSchemas noBehaviorCheck) (fun v => CursorInPlace p v.inbox)
      (.start .empty 1) w → p.replayFrom w.inbox.store 0 = .ok w.steps := by
  intro h
  have hex : (executeChecked (Recorded.step observer noSchemas noBehaviorCheck)
      (fun v a => decide (CursorInPlace observer v.inbox a)) (.start .empty 1) disturbed).isSome
        = true := by decide +kernel
  have hrun := h observer observer_pure observer_leavesCursor _ (Run.afterChecked (by simp) hex)
  revert hrun
  decide +kernel

/-- Somebody else writes elsewhere in between, and what the behavior reads before. -/
def undisturbed : List Inbox.Act :=
  [.other firstMessage, .other [(20, ⟨[.text "early"]⟩, 1)], .position 0, .prepare 0,
    .other [(21, ⟨[.text "late"]⟩, 1)], .commit 0]

theorem replay_recorded_sample : ∃ w,
    Run (Recorded.step observer noSchemas noBehaviorCheck) (AsPrepared observer fun s => s.read 20)
        (.start .empty 1) w ∧
      w.steps.length = 1 ∧ observer.replayFrom w.inbox.store 0 = .ok w.steps := by
  have hex : (executeChecked (Recorded.step observer noSchemas noBehaviorCheck)
      (fun w a => decide (AsPrepared observer (fun s => s.read 20) w a)) (.start .empty 1)
      undisturbed).isSome = true := by decide +kernel
  have hrun : Run (Recorded.step observer noSchemas noBehaviorCheck)
      (AsPrepared observer fun s => s.read 20) (.start .empty 1) _ := Run.afterChecked (by simp) hex
  have hsees : observer.SeesOnly fun s => s.read 20 := by
    intro store at' at'' body hview
    dsimp only at hview
    show (do let rows ← Snapshot.read ⟨store, at'⟩ 20; _) = _
    rw [hview]
    rfl
  exact ⟨_, hrun, by decide +kernel,
    replay_recorded observer_pure hsees observer_leavesCursor rfl
      (fun _ h => absurd h (by simp [TraceStore.empty])) 1 hrun⟩

end Grmpl

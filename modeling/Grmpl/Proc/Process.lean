import Grmpl.Lib.Runs
import Grmpl.Proc.Commit

/-!
# A process and its inbox

A process reads the message its cursor is at, runs a pure behavior on it, and
commits the patch the behavior answers with together with the move of its cursor.
A driver does this in three steps, between which anyone else may commit and the
driver may crash.

* `Process.position`, `Process.messageAt`, `Process.patchAt`, `Process.prepare`,
  `Process.stepChecked`, `Process.stepRetryingChecked`: the code.
* `Inbox`, `Inbox.step`: a store, the drivers of one process, and what they do.
* `ExactlyOnce`: messages are committed in order, once each, and the cursor counts
  them.
* `inbox_exactly_once`: where every commit finds the cursor where its patch was
  prepared, they are.
-/

open OrdMap Runs

namespace Grmpl

/-- The world as of an edition, as a behavior sees it. -/
structure Snapshot where
  store : TraceStore
  edition : Nat

def Snapshot.read (s : Snapshot) (rel : RelId) : Result (List (Tuple × Diff)) :=
  s.store.readAt rel s.edition

abbrev Behavior := Snapshot → Tuple → Result Patch

/-- The next message a process would handle, prepared and not committed. -/
structure Prepared where
  seq : Int64
  patch : Patch

/-- An actor bound to an inbox of rows (process, seq, body) and a cursor of rows
(process, next). -/
structure Process where
  entity : Entity
  authority : Authority
  inbox : RelId
  cursorRel : RelId
  behavior : Behavior

def cursorTuple (process : Entity) (seq : Int64) : Tuple := ⟨[.ent process, .int seq]⟩

namespace Process

variable (p : Process)

/-- The next position a row of the cursor relation records for the process. -/
def positionIn (row : Tuple × Diff) : Option Int64 :=
  if 0 < row.2 ∧ row.1.cells[0]? = some (.ent p.entity) then
    match row.1.cells[1]? with
    | some (Value.int pos) => some pos
    | _ => none
  else none

/-- The next unprocessed inbox position, 0 if the cursor is absent. -/
def position (store : TraceStore) : Result Int64 := do
  let rows ← store.readAt p.cursorRel store.current
  return (rows.findSome? p.positionIn).getD 0

/-- The message body a row of the inbox holds at a position. -/
def bodyIn (seq : Int64) (row : Tuple × Diff) : Option Tuple :=
  if 0 < row.2 ∧ row.1.cells[0]? = some (.ent p.entity) ∧ row.1.cells[1]? = some (.int seq) then
    match row.1.cells[2]? with
    | some (Value.tuple body) => some ⟨body⟩
    | _ => none
  else none

/-- The message at a position as of an edition. -/
def messageAt (store : TraceStore) (seq : Int64) (at' : Nat) : Result (Option Tuple) := do
  let rows ← store.readAt p.inbox at'
  return rows.findSome? (p.bodyIn seq)

/-- The cursor's move past a position. -/
def cursorMove (seq : Int64) : CursorMove :=
  ⟨p.cursorRel, if 0 < seq then some (cursorTuple p.entity seq) else none,
    cursorTuple p.entity (seq + 1)⟩

/-- The patch proposed for the message at a position, as of an edition. -/
def patchAt (store : TraceStore) (seq : Int64) (at' : Nat) : Result (Option Patch) := do
  match ← p.messageAt store seq at' with
  | none => return none
  | some body =>
      match p.behavior ⟨store, at'⟩ body with
      | .ok patch => return some { patch with cursorAdvance := some (p.cursorMove seq) }
      | .error (.behavior message) => .error (.behavior ("actor " ++ toString p.entity.id ++
          " inbox sequence " ++ toString seq ++ ": " ++ message))
      | .error other => .error other

def prepare (store : TraceStore) : Result (Option Prepared) := do
  let pos ← p.position store
  match ← p.patchAt store pos store.current with
  | some patch => return some ⟨pos, patch⟩
  | none => return none

/-- One message processed at most, by a driver nobody interleaves with. -/
def stepChecked (store : TraceStore) (schemas : SchemaCatalog) (checker : BehaviorChecker) :
    Result (Option (TraceStore × CommitOutcome)) := do
  match ← p.prepare store with
  | some prepared =>
      let out ← commitPatchChecked store schemas checker prepared.patch p.authority
      return some out
  | none => return none

/-- The position of the message the process would handle next, if there is one. -/
def nextPendingSequence (store : TraceStore) : Result (Option Int64) := do
  let position ← p.position store
  let body ← p.messageAt store position store.current
  return body.map fun _ => position

/-- One message processed at most, its patch prepared again after a rejection, for so many
attempts. -/
def stepRetryingChecked (store : TraceStore) (schemas : SchemaCatalog) (checker : BehaviorChecker) :
    Nat → Result (Option (TraceStore × Nat))
  | 0 => .error (.store ("process Entity(" ++ toString p.entity.id ++ "): inbox message rejected on every attempt"))
  | left + 1 => do
      match ← p.stepChecked store schemas checker with
      | none => return none
      | some (store', .committed edition) => return some (store', edition)
      | some (_, .rejected) => stepRetryingChecked store schemas checker left

end Process

/-- Where a driver of a process stands. -/
inductive Driver where
  | idle
  /-- It has read the cursor. -/
  | positioned (pos : Int64)
  /-- It has the patch it will commit. -/
  | prepared (prepared : Prepared)

/-- A store, the drivers of one process, and the positions of the messages whose
patches were committed, in order. -/
structure Inbox where
  store : TraceStore
  drivers : List Driver
  committed : List Int64

namespace Inbox

/-- What a driver does between two reads or commits, or somebody else's commit. -/
inductive Act where
  | position (d : Nat)
  | prepare (d : Nat)
  | commit (d : Nat)
  | crash (d : Nat)
  | other (updates : List (RelId × Tuple × Diff))

def setDriver (w : Inbox) (d : Nat) (x : Driver) : Inbox := { w with drivers := w.drivers.set d x }

/-- What the code does next, if it can; a driver told of an error gives the step up. -/
def step (p : Process) (schemas : SchemaCatalog) (checker : BehaviorChecker) (w : Inbox) :
    Act → Option Inbox
  | .position d =>
      match w.drivers[d]? with
      | some .idle => match p.position w.store with
        | .ok pos => some (w.setDriver d (.positioned pos))
        | .error _ => some w
      | _ => none
  | .prepare d =>
      match w.drivers[d]? with
      | some (.positioned pos) => match p.patchAt w.store pos w.store.current with
        | .ok (some patch) => some (w.setDriver d (.prepared ⟨pos, patch⟩))
        | _ => some (w.setDriver d .idle)
      | _ => none
  | .commit d =>
      match w.drivers[d]? with
      | some (.prepared x) =>
          match commitPatchChecked w.store schemas checker x.patch p.authority with
          | .ok (store, .committed _) =>
              some { w.setDriver d .idle with store, committed := w.committed ++ [x.seq] }
          | _ => some (w.setDriver d .idle)
      | _ => none
  | .crash d => some (w.setDriver d .idle)
  | .other updates => some { w with store := w.store.commit updates }

end Inbox

/-! ## What a step does -/

section Steps

variable {p : Process} {schemas : SchemaCatalog} {checker : BehaviorChecker}

/-- A row the process's cursor would be read from. -/
def Process.Own (p : Process) (rel : RelId) (t : Tuple) : Prop :=
  rel = p.cursorRel ∧ t.cells[0]? = some (.ent p.entity)

/-- Updates that leave the cursor's rows alone. -/
def Process.Spares (p : Process) (updates : List (RelId × Tuple × Diff)) : Prop :=
  ∀ u ∈ updates, ¬ p.Own u.1 u.2.1

instance (rel : RelId) (t : Tuple) : Decidable (p.Own rel t) := inferInstanceAs (Decidable (_ ∧ _))

instance (updates : List (RelId × Tuple × Diff)) : Decidable (p.Spares updates) :=
  inferInstanceAs (Decidable (∀ u ∈ updates, _))

/-- The behavior leaves its own cursor to the process. -/
def Process.LeavesCursor (p : Process) : Prop :=
  ∀ snap body patch, p.behavior snap body = .ok patch →
    p.Spares { patch with cursorAdvance := none }.updates

/-- A commit finds the cursor where its patch was prepared, and room for the next
position; and nobody else writes the cursor. -/
def CursorInPlace (p : Process) (w : Inbox) : Inbox.Act → Prop
  | .commit d => match w.drivers[d]? with
    | some (.prepared x) => p.position w.store = .ok x.seq ∧ x.seq.toInt + 1 < 2 ^ 63
    | _ => True
  | .other updates => p.Spares updates
  | _ => True

instance (w : Inbox) (a : Inbox.Act) : Decidable (CursorInPlace p w a) := by
  unfold CursorInPlace
  split
  · split <;> infer_instance
  all_goals infer_instance

/-- Messages are committed in the order of their positions, none skipped and none
twice, and the cursor holds one row counting them, or none before the first. -/
structure ExactlyOnce (p : Process) (w : Inbox) : Prop where
  order : w.committed = (List.range w.committed.length).map Int64.ofNat
  once : w.committed.Nodup
  cursor : ∀ t, p.Own p.cursorRel t → w.store.weight p.cursorRel t =
    if w.committed ≠ [] ∧ t = cursorTuple p.entity (Int64.ofNat w.committed.length) then 1 else 0

/-- What a driver has prepared: a patch with the cursor's move from its position, that
leaves the cursor alone otherwise. -/
def PatchesMove (p : Process) (w : Inbox) : Prop :=
  ∀ (d : Nat) (x : Prepared), w.drivers[d]? = some (.prepared x) →
    x.patch.cursorAdvance = some (p.cursorMove x.seq) ∧
      p.Spares { x.patch with cursorAdvance := none }.updates

variable {w w' : Inbox} {a : Inbox.Act}

theorem Inbox.getElem?_setDriver {d e : Nat} {x y : Driver}
    (h : (w.drivers.set d x)[e]? = some y) : w.drivers[e]? = some y ∨ y = x := by
  rw [List.getElem?_set] at h
  split_ifs at h with hde hlt
  · exact .inr (Option.some.inj h).symm
  · exact .inl h

/-- What a step does, with its guard. -/
inductive Inbox.Does (p : Process) (w : Inbox) : Inbox.Act → Inbox → Prop
  | stay (a : Inbox.Act) : Does p w a w
  | rest (a : Inbox.Act) (d : Nat) : Does p w a (w.setDriver d .idle)
  | position (d : Nat) (pos : Int64) : Does p w (.position d) (w.setDriver d (.positioned pos))
  | prepare (d : Nat) (pos : Int64) (patch : Patch) :
      p.patchAt w.store pos w.store.current = .ok (some patch) →
      Does p w (.prepare d) (w.setDriver d (.prepared ⟨pos, patch⟩))
  | commit (d : Nat) (x : Prepared) : w.drivers[d]? = some (.prepared x) →
      Does p w (.commit d) { w.setDriver d .idle with
        store := w.store.commit x.patch.updates, committed := w.committed ++ [x.seq] }
  | other (updates : List (RelId × Tuple × Diff)) :
      Does p w (.other updates) { w with store := w.store.commit updates }

theorem Inbox.step_does (h : Inbox.step p schemas checker w a = some w') : Inbox.Does p w a w' := by
  cases a with
  | position d =>
    simp only [Inbox.step] at h
    split at h
    · split at h
      · cases h
        exact .position d _
      · cases h
        exact .stay _
    · exact absurd h (by simp)
  | prepare d =>
    simp only [Inbox.step] at h
    split at h
    · split at h
      · rename_i patch hpatch
        cases h
        exact .prepare d _ patch hpatch
      · cases h
        exact .rest _ d
    · exact absurd h (by simp)
  | commit d =>
    simp only [Inbox.step] at h
    split at h
    · rename_i x hx
      split at h
      · rename_i store e hcommit
        cases h
        rcases commitPatchChecked_ok hcommit with ⟨hout, -⟩ | ⟨-, -, rfl⟩
        · cases hout
        · exact .commit d x hx
      · cases h
        exact .rest _ d
    · exact absurd h (by simp)
  | crash d =>
    cases h
    exact .rest _ d
  | other updates =>
    cases h
    exact .other updates

theorem Process.patchAt_ok (hb : p.LeavesCursor) {store : TraceStore} {seq : Int64} {at' : Nat}
    {patch : Patch} (h : p.patchAt store seq at' = .ok (some patch)) :
    patch.cursorAdvance = some (p.cursorMove seq) ∧
      p.Spares { patch with cursorAdvance := none }.updates := by
  unfold Process.patchAt at h
  cases hm : p.messageAt store seq at' with
  | error e =>
    rw [hm] at h
    cases h
  | ok o =>
    rw [hm] at h
    cases o with
    | none => cases h
    | some body =>
      simp only [bind, Except.bind] at h
      split at h
      · rename_i patch' hpatch
        cases h
        have hspares := hb _ _ patch' hpatch
        exact ⟨rfl, hspares⟩
      · cases h
      · cases h

theorem patchesMove_step (hb : p.LeavesCursor) (h : PatchesMove p w) (hd : Inbox.Does p w a w') :
    PatchesMove p w' := by
  have hidle : ∀ d : Nat, ∀ (e : Nat) (x : Prepared),
      (w.drivers.set d .idle)[e]? = some (.prepared x) → w.drivers[e]? = some (.prepared x) := by
    intro d e x hx
    rcases Inbox.getElem?_setDriver hx with hx | hx
    · exact hx
    · cases hx
  cases hd with
  | stay => exact h
  | rest _ d => exact fun e x hx => h e x (hidle d e x hx)
  | position d pos =>
    intro e x hx
    rcases Inbox.getElem?_setDriver hx with hx | hx
    · exact h e x hx
    · cases hx
  | prepare d pos patch hpatch =>
    intro e x hx
    rcases Inbox.getElem?_setDriver hx with hx | hx
    · exact h e x hx
    · cases hx
      exact Process.patchAt_ok hb hpatch
  | commit d x hx => exact fun e y hy => h e y (hidle d e y hy)
  | other updates => exact h

end Steps

/-! ## One message at most -/

/-- What is prepared is a patch of the behavior's, with the cursor's move. -/
theorem Process.prepare_some {p : Process} {store : TraceStore} {prepared : Prepared}
    (h : p.prepare store = .ok (some prepared)) : ∃ snap body patch, p.behavior snap body = .ok patch ∧
      ∃ seq, prepared.patch = { patch with cursorAdvance := some (p.cursorMove seq) } := by
  unfold prepare at h
  obtain ⟨pos, -, h⟩ := bind_ok h
  obtain ⟨o, hpatch, h⟩ := bind_ok h
  cases o with
  | none => cases h
  | some patch₁ =>
    cases h
    unfold patchAt at hpatch
    obtain ⟨o, -, hpatch⟩ := bind_ok hpatch
    cases o with
    | none => cases hpatch
    | some body =>
      dsimp only at hpatch
      split at hpatch
      · rename_i patch hbehavior
        cases hpatch
        exact ⟨_, body, patch, hbehavior, pos, rfl⟩
      · cases hpatch
      · cases hpatch

/-- A message that was handled was one commit, of what the actor may write, of its messages and of
its cursor. -/
theorem Process.stepRetryingChecked_some {p : Process} {schemas : SchemaCatalog} {checker : BehaviorChecker}
    {store store' : TraceStore} {e attempts : Nat}
    (h : p.stepRetryingChecked store schemas checker attempts = .ok (some (store', e))) :
    ∃ updates, store' = store.commit updates ∧ ∀ u ∈ updates, (∃ f : Fact, p.authority.permits f = true ∧ f.rel = u.1) ∨
      (∃ snap body patch, p.behavior snap body = .ok patch ∧ ∃ m ∈ patch.emits, m.inbox = u.1) ∨ u.1 = p.cursorRel := by
  induction attempts with
  | zero => cases h
  | succ left ih =>
    rw [stepRetryingChecked] at h
    obtain ⟨o, hstep, h⟩ := bind_ok h
    match o with
    | none => cases h
    | some (store₁, .rejected) => exact ih h
    | some (store₁, .committed e₁) =>
      cases h
      unfold stepChecked at hstep
      obtain ⟨o, hprepare, hstep⟩ := bind_ok hstep
      cases o with
      | none => cases hstep
      | some prepared =>
        obtain ⟨out, hcommit, hstep⟩ := bind_ok hstep
        cases hstep
        obtain ⟨rfl, hpermits⟩ := commitPatchChecked_permits hcommit
        refine ⟨_, rfl, fun u hu => ?_⟩
        obtain ⟨snap, body, patch, hbehavior, seq, hpatch⟩ := prepare_some hprepare
        rcases Patch.rel_of_mem_updates hu with ⟨f, hf, hrel⟩ | ⟨m, hm, hrel⟩ | ⟨move, hmove, hrel⟩
        · exact .inl ⟨f, hpermits f hf, hrel⟩
        · rw [hpatch] at hm
          exact .inr (.inl ⟨snap, body, patch, hbehavior, m, hm, hrel⟩)
        · rw [hpatch] at hmove
          cases hmove
          exact .inr (.inr hrel.symm)

/-- An actor that has a message prepares one. -/
theorem Process.prepare_ne_none {p : Process} {store : TraceStore} {seq : Int64}
    (h : p.nextPendingSequence store = .ok (some seq)) : p.prepare store ≠ .ok none := by
  intro hnone
  obtain ⟨pos, hpos, h⟩ := bind_ok h
  obtain ⟨body, hbody, h⟩ := bind_ok h
  obtain ⟨pos', hpos', hnone⟩ := bind_ok hnone
  cases hpos.symm.trans hpos'
  obtain ⟨patch, hpatch, hnone⟩ := bind_ok hnone
  obtain ⟨body', hbody', hpatch⟩ := bind_ok hpatch
  cases hbody.symm.trans hbody'
  cases body with
  | none => cases h
  | some body =>
    cases patch with
    | some patch => cases hnone
    | none =>
      dsimp only at hpatch
      split at hpatch <;> cases hpatch

/-- An actor that has a message does not find none. -/
theorem Process.stepRetryingChecked_ne_none {p : Process} {schemas : SchemaCatalog} {checker : BehaviorChecker}
    {store : TraceStore} {attempts : Nat} {seq : Int64} (h : p.nextPendingSequence store = .ok (some seq)) :
    p.stepRetryingChecked store schemas checker attempts ≠ .ok none := by
  induction attempts with
  | zero => nofun
  | succ left ih =>
    intro hnone
    rw [stepRetryingChecked] at hnone
    obtain ⟨o, hstep, hnone⟩ := bind_ok hnone
    match o with
    | some (store₁, .rejected) => exact ih hnone
    | some (store₁, .committed e₁) => cases hnone
    | none =>
      obtain ⟨o, hprepare, hstep⟩ := bind_ok hstep
      cases o with
      | none => exact prepare_ne_none h hprepare
      | some prepared =>
        obtain ⟨out, -, hstep⟩ := bind_ok hstep
        cases hstep

end Grmpl

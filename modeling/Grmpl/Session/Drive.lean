import Grmpl.Lib.Fuelled
import Grmpl.Lib.Runs
import Grmpl.Proc.Process
import Grmpl.Proc.Refresh
import Grmpl.Proc.Schedule

/-!
# Driving a package

A driven runtime fires timers and steps actors until nothing is left to do, or so many of
them are done. Each time round it first fires a timer due by the latest clock sample, and
steps the first actor that has a message if no timer is due; when no actor has one it
refreshes the package's views and is idle.

* `ClockDriver.latest`, `DrivenRuntime.trip`, `DrivenRuntime.driveWithFuel`: the code.
* `DrivenRuntime.Loaded`: what loading a package sees to.
* `DrivenRuntime.trip_spent`, `DrivenRuntime.trip_ended`: one time round.
-/

open OrdMap Fuelled

namespace Grmpl

/-- The clock of a package: a relation of rows (sequence, time, sample). -/
structure ClockDriver where
  clock : RelId
  authority : Authority

/-- The sample a row of the clock records. -/
def ClockDriver.sampleIn (row : Tuple × Diff) : Option (Int64 × Int64 × Int64) :=
  if row.2 ≤ 0 then none
  else
    match row.1.cells with
    | [.int seq, .int ms, .int r] => some (seq, ms, r)
    | _ => none

/-- The latest sample, the first of the highest sequence. -/
def ClockDriver.latest (c : ClockDriver) (store : TraceStore) : Result (Option (Int64 × Int64 × Int64)) := do
  let rows ← store.readAt c.clock store.current
  return rows.foldl (fun best row =>
    match sampleIn row, best with
    | some x, none => some x
    | some x, some b => if b.1 < x.1 then some x else some b
    | none, best => best) none

inductive DriveStatus where
  | idle
  | fuelExhausted
  | actorFault (actor : Entity) (sequence : Int64) (message : String)
  deriving DecidableEq

structure DriveReport where
  status : DriveStatus
  committed : Nat
  timersFired : Nat
  actorSteps : Nat
  deriving DecidableEq

/-- A loaded package with its actors, its clock and its timers, and the views it keeps. -/
structure DrivenRuntime where
  actors : List Process
  clock : ClockDriver
  scheduler : Scheduler
  views : List Maintainer
  schemas : SchemaCatalog
  behaviorChecker : BehaviorChecker
  /-- How often an actor's message is tried. -/
  attempts : Nat

/-- An actor with a message, by what actors are taken in the order of. -/
structure Ready where
  actor : Process
  sequence : Int64
  index : Nat

/-- The order of inboxes, then of actors, then of sequences. -/
def Ready.le (a b : Ready) : Bool :=
  if a.actor.inbox ≠ b.actor.inbox then a.actor.inbox < b.actor.inbox
  else if a.actor.entity.id ≠ b.actor.entity.id then a.actor.entity.id < b.actor.entity.id
  else if a.sequence ≠ b.sequence then a.sequence < b.sequence
  else a.index ≤ b.index

/-- A drive so far: the world, and what was done in it. -/
structure Driving where
  world : RoutedStore
  timersFired : Nat
  actorSteps : Nat

def Driving.report (x : Driving) (status : DriveStatus) : DriveReport :=
  ⟨status, x.timersFired + x.actorSteps, x.timersFired, x.actorSteps⟩

namespace DrivenRuntime

variable (d : DrivenRuntime)

/-- The store after the next timer due, if there is one. -/
def fireTimer (store : TraceStore) : Result (Option TraceStore) := do
  match ← d.clock.latest store with
  | none => return none
  | some (_, now, _) =>
      match ← d.scheduler.fireNextDue store d.schemas now with
      | (store', .fired) => return some store'
      | (_, .noneDue) => return none
      | (_, .contended) => .error (.store "canonical timer fire did not settle under contention")

/-- The actors that have a message, in order. -/
def ready (store : TraceStore) : Result (List Ready) := do
  let found ← d.actors.zipIdx.filterMapM fun (actor, index) => do
    let sequence ← actor.nextPendingSequence store
    return sequence.map fun sequence => (⟨actor, sequence, index⟩ : Ready)
  return found.mergeSort Ready.le

/-- One time round the loop; none if it goes round without anything done, for ever. -/
def trip (x : Driving) : Trip Driving (Option (RoutedStore × Result DriveReport)) :=
  match d.fireTimer x.world.store with
  | .error e => .ended (some (x.world, .error e))
  | .ok (some store) => .spent { x with world := { x.world with store }, timersFired := x.timersFired + 1 }
  | .ok none =>
      match d.ready x.world.store with
      | .error e => .ended (some (x.world, .error e))
      | .ok [] =>
          match refreshViews d.schemas d.views x.world with
          | (world, .error e) => .ended (some (world, .error e))
          | (world, .ok _) => .ended (some (world, .ok (x.report .idle)))
      | .ok (first :: _) =>
          match first.actor.stepRetryingChecked x.world.store d.schemas d.behaviorChecker d.attempts with
          | .ok (some (store, _)) => .spent { x with world := { x.world with store }, actorSteps := x.actorSteps + 1 }
          | .ok none => .ended none
          | .error (.behavior message) =>
              .ended (some (x.world, .ok (x.report (.actorFault first.actor.entity first.sequence message))))
          | .error e => .ended (some (x.world, .error e))

/-- A drive with so much fuel: the world after it, and what it reports. -/
def driveWithFuel (fuel : Nat) (world : RoutedStore) : Option (RoutedStore × Result DriveReport) :=
  match spend d.trip fuel ⟨world, 0, 0⟩ with
  | .inl x => some (x.world, .ok (x.report .fuelExhausted))
  | .inr out => out

end DrivenRuntime

/-! ## What one trip does -/

namespace DrivenRuntime

variable {d : DrivenRuntime} {x y : Driving} {w w' : RoutedStore} {store : TraceStore}

/-- A package as it is loaded: no actor and no driver may write a view's cursor, and what they read
is not where a view is kept. -/
structure Loaded (d : DrivenRuntime) : Prop where
  views : ViewsApart d.views
  roles : ∀ m ∈ d.views, ∀ rel, rel = d.clock.clock ∨ rel = d.scheduler.timers ∨
    (∃ p ∈ d.actors, rel = p.inbox ∨ rel = p.cursorRel) → m.into ≠ rel ∧ m.cursorRel ≠ rel
  driver : ∀ m ∈ d.views, ∀ f, d.scheduler.authority.permits f = true → f.rel ≠ m.cursorRel
  actors : ∀ m ∈ d.views, ∀ p ∈ d.actors, ∀ f, p.authority.permits f = true → f.rel ≠ m.cursorRel
  emits : ∀ m ∈ d.views, ∀ p ∈ d.actors, ∀ snap body patch, p.behavior snap body = .ok patch →
    ∀ e ∈ patch.emits, e.inbox ≠ m.cursorRel

/-- No timer is due and no actor has a message. -/
def Quiescent (d : DrivenRuntime) (store : TraceStore) : Prop :=
  d.fireTimer store = .ok none ∧ d.ready store = .ok []

theorem fireTimer_some {store' : TraceStore} (h : d.fireTimer store = .ok (some store')) :
    ∃ updates, store' = store.commit updates ∧
      ∀ u ∈ updates, ∃ f : Fact, d.scheduler.authority.permits f = true ∧ f.rel = u.1 := by
  unfold fireTimer at h
  obtain ⟨sample, -, h⟩ := bind_ok h
  match sample with
  | none => cases h
  | some (_, now, _) =>
    obtain ⟨⟨store₁, outcome⟩, hfire, h⟩ := bind_ok h
    cases outcome with
    | noneDue => cases h
    | contended => cases h
    | fired =>
      cases h
      unfold Scheduler.fireNextDue at hfire
      obtain ⟨due, -, hfire⟩ := bind_ok hfire
      match due with
      | [] => cases hfire
      | row :: _ =>
        obtain ⟨⟨store₂, fired⟩, hone, hfire⟩ := bind_ok hfire
        cases fired with
        | false => cases hfire
        | true =>
          cases hfire
          exact Scheduler.fire_true hone

theorem mem_ready {found : List Ready} (h : d.ready store = .ok found) {r : Ready} (hr : r ∈ found) :
    r.actor ∈ d.actors ∧ r.actor.nextPendingSequence store = .ok (some r.sequence) := by
  unfold ready at h
  obtain ⟨rows, hrows, h⟩ := bind_ok h
  cases h
  rw [List.mem_mergeSort] at hr
  obtain ⟨⟨actor, index⟩, hmem, hone⟩ := mem_of_filterMapM hrows r hr
  obtain ⟨o, hseq, hone⟩ := bind_ok hone
  cases o with
  | none => cases hone
  | some seq =>
    cases hone
    exact ⟨(List.mem_zipIdx hmem).2.2 ▸ List.getElem_mem _, hseq⟩

/-- Nobody is ready when nobody has a message. -/
theorem ready_nil : d.ready store = .ok [] ↔ ∀ p ∈ d.actors, p.nextPendingSequence store = .ok none := by
  have hfound : d.ready store = .ok [] ↔ (d.actors.zipIdx.filterMapM fun (actor, index) => do
      let sequence ← actor.nextPendingSequence store
      return sequence.map fun sequence => (⟨actor, sequence, index⟩ : Ready) : Result (List Ready)) = .ok [] := by
    constructor
    · intro h
      obtain ⟨found, hfound, h⟩ := bind_ok h
      rw [hfound]
      have hnil : found.mergeSort Ready.le = [] := Except.ok.inj h
      have hperm := (List.mergeSort_perm found Ready.le).symm
      rw [hnil] at hperm
      rw [List.perm_nil.1 hperm]
    · intro h
      unfold ready
      rw [h]
      show Except.ok (List.mergeSort [] Ready.le) = _
      rw [List.mergeSort_nil]
  rw [hfound, filterMapM_eq_nil]
  constructor
  · intro h p hp
    obtain ⟨i, hi, rfl⟩ := List.mem_iff_getElem.1 hp
    obtain ⟨o, hseq, hone⟩ := bind_ok (h (d.actors[i], i) (List.mk_mem_zipIdx_iff_getElem?.2 (List.getElem?_eq_getElem hi)))
    cases o with
    | none => exact hseq
    | some seq => cases hone
  · rintro h ⟨p, i⟩ hp
    have hmem : p ∈ d.actors := (List.mem_zipIdx hp).2.2 ▸ List.getElem_mem _
    dsimp only
    rw [h p hmem]
    rfl

/-- **What one trip that spends its fuel does**: one commit, that leaves the views' cursors. -/
theorem trip_spent (hd : d.Loaded) (h : d.trip x = .spent y) :
    y.timersFired + y.actorSteps = x.timersFired + x.actorSteps + 1 ∧ y.world.interests = x.world.interests ∧
      ∃ updates, y.world.store = x.world.store.commit updates ∧ ∀ m ∈ d.views, ∀ u ∈ updates, u.1 ≠ m.cursorRel := by
  unfold trip at h
  split at h
  · cases h
  · rename_i store hfire
    cases h
    obtain ⟨updates, rfl, hpermits⟩ := fireTimer_some hfire
    refine ⟨Nat.add_right_comm _ _ _, rfl, updates, rfl, fun m hm u hu => ?_⟩
    obtain ⟨f, hf, hrel⟩ := hpermits u hu
    exact hrel ▸ hd.driver m hm f hf
  · split at h
    · cases h
    · split at h <;> cases h
    · rename_i first rest hready
      obtain ⟨hactor, -⟩ := mem_ready hready List.mem_cons_self
      split at h
      · rename_i store e hstep
        cases h
        obtain ⟨updates, rfl, hwrites⟩ := Process.stepRetryingChecked_some hstep
        refine ⟨rfl, rfl, updates, rfl, fun m hm u hu => ?_⟩
        rcases hwrites u hu with ⟨f, hf, hrel⟩ | ⟨snap, body, patch, hpatch, e, he, hrel⟩ | hrel
        · exact hrel ▸ hd.actors m hm _ hactor f hf
        · exact hrel ▸ hd.emits m hm _ hactor snap body patch hpatch e he
        · rw [hrel]
          exact ((hd.roles m hm _ (.inr (.inr ⟨_, hactor, .inr rfl⟩))).2).symm
      · cases h
      · cases h
      · cases h

/-- How a drive stops short of its fuel. -/
inductive Stops (d : DrivenRuntime) (x : Driving) : RoutedStore → Result DriveReport → Prop
  | failed (e : Error) : Stops d x x.world (.error e)
  | fault (actor : Entity) (sequence : Int64) (message : String) :
      Stops d x x.world (.ok (x.report (.actorFault actor sequence message)))
  | idle (world : RoutedStore) (n : Nat) : d.Quiescent x.world.store →
      refreshViews d.schemas d.views x.world = (world, .ok n) → Stops d x world (.ok (x.report .idle))
  | unrefreshed (world : RoutedStore) (e : Error) : refreshViews d.schemas d.views x.world = (world, .error e) →
      Stops d x world (.error e)

/-- **What one trip that ends does.** It does end: what is ready is never found gone. -/
theorem trip_ended {out : Option (RoutedStore × Result DriveReport)} (h : d.trip x = .ended out) :
    ∃ world r, out = some (world, r) ∧ Stops d x world r := by
  unfold trip at h
  split at h
  · cases h
    exact ⟨_, _, rfl, .failed _⟩
  · cases h
  · rename_i hfire
    split at h
    · cases h
      exact ⟨_, _, rfl, .failed _⟩
    · rename_i hready
      split at h
      · rename_i world e hviews
        cases h
        exact ⟨_, _, rfl, .unrefreshed world e hviews⟩
      · rename_i world n hviews
        cases h
        exact ⟨_, _, rfl, .idle world n ⟨hfire, hready⟩ hviews⟩
    · rename_i first rest hready
      split at h
      · cases h
      · rename_i hstep
        exact absurd hstep (Process.stepRetryingChecked_ne_none (mem_ready hready List.mem_cons_self).2)
      · cases h
        exact ⟨_, _, rfl, .fault _ _ _⟩
      · cases h
        exact ⟨_, _, rfl, .failed _⟩

end DrivenRuntime

end Grmpl

import Grmpl.Lib.Runs
import Grmpl.Proc.Allocators
import Grmpl.Proc.Schedule

/-!
# Timers and those who fire them

Commits schedule timers while any number of drivers fire those that are due. A driver reads
what is due, and fires it row by row: it sees that the timer is live, draws a number from the
counter of the one it is for, and commits the message, the timer's end and the counter's
advance together. Between any two of these anyone else may commit.

* `Clockwork`, `Clockwork.step`: a store and its drivers.
* `Clockwork.FiredOnce`: what is scheduled is fired or live, and never fired twice.
* `Clockwork.numbers`: the numbers of the messages that were drawn from a counter.
-/

open OrdMap Runs

namespace Grmpl

/-- A timer that was fired: by which driver's which call and at what time, and the message it
became. -/
structure Fired where
  driver : Nat
  call : Nat
  now : Int64
  timers : RelId
  row : Tuple
  seqs : RelId
  inbox : RelId
  target : Entity
  seq : Int64
  body : Tuple
  deriving DecidableEq

namespace Fired

/-- The message as a row of its inbox. -/
def message (f : Fired) : Fact := inboxFact f.inbox f.target f.seq f.body

def timer (f : Fired) : Fact := ⟨f.timers, f.row⟩

end Fired

/-- The timer being fired, those to be fired after it, and the tries left. -/
structure FireTurn where
  row : Tuple
  rest : List Tuple
  tries : Nat

/-- Where a call stands. -/
inductive Firing where
  | idle
  | next (rows : List Tuple)
  | attempt (t : FireTurn)
  | ready (x : Append) (t : FireTurn)
  | drafted (d : Draft) (t : FireTurn)

/-- A driver, the number of its calls, and the one under way. -/
structure TimerDriver where
  calls : Nat
  scheduler : Scheduler
  now : Int64
  phase : Firing

/-- A store with the drivers that fire its timers, what was scheduled, what was fired, and what
other commits wrote. -/
structure Clockwork where
  store : TraceStore
  drivers : List TimerDriver
  scheduled : List Fact
  fired : List Fired
  wrote : List (RelId × Tuple × Diff)

namespace Clockwork

/-- What a driver does between two reads or commits, or somebody else's commit. -/
inductive Act where
  | fireDue (a : Nat) (s : Scheduler) (now : Int64)
  | fireNextDue (a : Nat) (s : Scheduler) (now : Int64)
  | go (a : Nat)
  | crash (a : Nat)
  | commit (p : Patch) (checker : BehaviorChecker) (authority : Authority)

def setDriver (w : Clockwork) (a : Nat) (x : TimerDriver) : Clockwork := { w with drivers := w.drivers.set a x }

/-- A call begins with what is due. -/
def begin (w : Clockwork) (a : Nat) (s : Scheduler) (now : Int64) (pick : List Tuple → List Tuple) : Option Clockwork :=
  match w.drivers[a]? with
  | some ⟨calls, _, _, .idle⟩ => match s.dueAt w.store now with
    | .ok due => some (w.setDriver a ⟨calls + 1, s, now, .next (pick due)⟩)
    | .error _ => some w
  | _ => none

/-- What a committed draft of a timer comes to. -/
def firedBy (a : Nat) (x : TimerDriver) (d : Draft) (t : FireTurn) : List Fired :=
  d.messages.map fun m =>
    ⟨a, x.calls, x.now, x.scheduler.timers, t.row, x.scheduler.seqs, d.append.inbox, d.append.target, m.1, m.2⟩

/-- What the code does next, if it can; an error ends the call. -/
def step (schemas : SchemaCatalog) (w : Clockwork) : Act → Option Clockwork
  | .fireDue a s now => w.begin a s now id
  | .fireNextDue a s now => w.begin a s now (List.take 1)
  | .go a => match w.drivers[a]? with
      | none => none
      | some x => match x.phase with
        | .idle => none
        | .next [] => some (w.setDriver a { x with phase := .idle })
        | .next (row :: rest) => some (w.setDriver a { x with phase := .attempt ⟨row, rest, Scheduler.maxTries⟩ })
        | .attempt t =>
            if t.tries = 0 then some (w.setDriver a { x with phase := .next t.rest })
            else match x.scheduler.fireOne w.store t.row with
              | .ok (some append) => some (w.setDriver a { x with phase := .ready append t })
              | .ok none => some (w.setDriver a { x with phase := .next t.rest })
              | .error _ => some (w.setDriver a { x with phase := .idle })
        | .ready append t => match append.draw w.store with
            | .ok d => some (w.setDriver a { x with phase := .drafted d t })
            | .error _ => some (w.setDriver a { x with phase := .idle })
        | .drafted d t => match d.commit w.store schemas with
            | .ok (store, .committed _) => some { w.setDriver a { x with phase := .next t.rest } with
                store, fired := w.fired ++ firedBy a x d t }
            | .ok (_, .rejected) =>
                some (w.setDriver a { x with phase := .attempt { t with tries := t.tries - 1 } })
            | .error _ => some (w.setDriver a { x with phase := .idle })
  | .crash a => match w.drivers[a]? with
      | some x => some (w.setDriver a { x with phase := .idle })
      | none => none
  | .commit p checker authority => match commitPatchChecked w.store schemas checker p authority with
      | .ok (store, .committed _) =>
          some { w with store, scheduled := w.scheduled ++ p.timers, wrote := w.wrote ++ p.updates }
      | _ => some w

/-- Drivers at rest over a store. -/
def start (store : TraceStore) (drivers : List Scheduler) : Clockwork :=
  ⟨store, drivers.map fun s => ⟨0, s, 0, .idle⟩, [], [], []⟩

/-! ## The property and its condition -/

/-- Which relations hold timers and which hold counters. -/
structure Relations where
  timers : RelId → Bool
  counters : RelId → Bool

/-- A commit writes no timer but those that it schedules, and no counter. -/
def Schedules (r : Relations) (_ : Clockwork) : Act → Prop
  | .commit p _ _ => ∀ u ∈ ({ p with scheduled := [] } : Patch).updates, r.timers u.1 = false ∧ r.counters u.1 = false
  | _ => True

instance (r : Relations) (w : Clockwork) (act : Act) : Decidable (w.Schedules r act) := by
  cases act <;> unfold Schedules <;> infer_instance

/-- How often a timer was fired. -/
def timesFired (w : Clockwork) (rel : RelId) (row : Tuple) : Nat := w.fired.countP fun f => f.timer = ⟨rel, row⟩

/-- **Fired once**: each unit scheduled of a timer is live or has become one message, as soon as
it was due and not before, and what one call fires is in order. -/
structure FiredOnce (r : Relations) (store : TraceStore) (w : Clockwork) : Prop where
  units : ∀ rel row m, r.timers rel = true → decodeTimerRow row = .ok m →
    w.store.weight rel row + w.timesFired rel row = store.weight rel row + w.scheduled.count ⟨rel, row⟩
  live : ∀ rel row m, r.timers rel = true → decodeTimerRow row = .ok m → 0 ≤ store.weight rel row →
    0 ≤ w.store.weight rel row
  messages : ∀ inbox target seq body, let row := inboxFact inbox target seq body
    w.store.weight inbox row.tuple
      = store.weight inbox row.tuple + netOn inbox row.tuple w.wrote + w.fired.countP fun f => f.message = row
  due : ∀ f ∈ w.fired, ∃ due, decodeTimerRow f.row = .ok (due, f.inbox, f.target, f.body) ∧ due ≤ f.now
  ordered : w.fired.Pairwise fun f g => f.driver = g.driver → f.call = g.call → f.row < g.row

/-- The numbers drawn from the counter of a process, in the order of the commits. -/
def numbers (w : Clockwork) (seqs : RelId) (target : Entity) : List Int64 :=
  (w.fired.filter fun f => f.seqs = seqs ∧ f.target = target).map (·.seq)

/-- Whoever is about to commit a number from a counter has found the counter. -/
def Counted (w : Clockwork) (seqs : RelId) (target : Entity) : Prop :=
  ∀ x ∈ w.drivers, ∀ d t, x.phase = .drafted d t → d.alloc.rel = seqs → d.alloc.key = Scheduler.seqKey target →
    d.alloc.present = true

end Clockwork

/-! ## What a fired timer does -/

theorem decodeTimerRow_length {row : Tuple} {m : Int64 × RelId × Entity × Tuple} (h : decodeTimerRow row = .ok m) :
    row.cells.length = 4 := by
  unfold decodeTimerRow at h
  split at h
  · rename_i heq
    rw [heq]
    rfl
  · cases h

/-- A draft of a timer: what it appends, and the counter it was drawn from. -/
structure Scheduler.Drafts (s : Scheduler) (row : Tuple) (inbox : RelId) (target : Entity) (body : Tuple) (d : Draft) : Prop where
  append : d.append = s.append row inbox target body
  rel : d.alloc.rel = s.seqs
  key : d.alloc.key = Scheduler.seqKey target
  n : d.alloc.n = 0

namespace Scheduler.Drafts

variable {s : Scheduler} {row : Tuple} {inbox : RelId} {target : Entity} {body : Tuple} {d : Draft}

theorem messages (h : s.Drafts row inbox target body d) : d.messages = [(d.alloc.start, body)] := by
  rw [Draft.messages, h.append]
  show [(d.alloc.start + d.alloc.n, body)] = _
  rw [h.n, Int64.add_zero]

theorem plain (h : s.Drafts row inbox target body d) : d.Plain := by
  intro hnone
  rw [h.append] at hnone
  cases hnone

/-- One number is drawn. -/
theorem alloc_assign (h : s.Drafts row inbox target body d) :
    (d.alloc.assign d.append.bodies).1 = { d.alloc with n := 1 } := by
  rw [h.append]
  show ({ d.alloc with n := d.alloc.n + 1 } : SeqAlloc) = _
  rw [h.n, Int64.zero_add]

/-- What is committed: the timer's end, the message, and the counter's advance. -/
theorem netOn_patch (h : s.Drafts row inbox target body d) (rel : RelId) (t : Tuple) :
    netOn rel t d.patch.updates = (if s.timers = rel ∧ row = t then -1 else 0)
      + (if inboxFact inbox target d.alloc.start body = ⟨rel, t⟩ then 1 else 0)
      + netOn rel t (({ d.alloc with n := 1 } : SeqAlloc).sealPatch Patch.new).updates := by
  have happended : d.appended = ((Patch.new.expect ⟨s.timers, row⟩).retract ⟨s.timers, row⟩).assert
      (inboxFact inbox target d.alloc.start body) := by
    rw [Draft.appended, h.messages, h.append]
    rfl
  rw [Draft.patch, h.alloc_assign, SeqAlloc.netOn_sealPatch_eq, happended, netOn_assert, netOn_retract]
  congr 1
  have hmessage : (inboxFact inbox target d.alloc.start body).rel = rel ∧
      (inboxFact inbox target d.alloc.start body).tuple = t ↔ inboxFact inbox target d.alloc.start body = ⟨rel, t⟩ :=
    ⟨fun hboth => by rw [← hboth.1, ← hboth.2], fun heq => ⟨congrArg Fact.rel heq, congrArg Fact.tuple heq⟩⟩
  rw [updates_expect, show netOn rel t Patch.new.updates = 0 from rfl, zero_add, if_congr hmessage rfl rfl]

/-- Of timers, one unit of the one that was fired. -/
theorem netOn_timer (h : s.Drafts row inbox target body d) (rel : RelId) {t : Tuple}
    {m : Int64 × RelId × Entity × Tuple} (ht : decodeTimerRow t = .ok m) :
    netOn rel t d.patch.updates = if s.timers = rel ∧ row = t then -1 else 0 := by
  have hlen := decodeTimerRow_length ht
  have hmessage : inboxFact inbox target d.alloc.start body ≠ ⟨rel, t⟩ := fun heq => by
    have hcells := congrArg (fun f : Fact => f.tuple.cells.length) heq
    cases hcells.trans hlen
  rw [h.netOn_patch, if_neg hmessage, SeqAlloc.netOn_sealPatch_other]
  · exact (add_zero _).trans (add_zero _)
  · rintro ⟨-, u, rfl⟩
    rw [SeqAlloc.counterTuple, h.key] at hlen
    cases hlen

/-- Of messages, the one. -/
theorem netOn_message (h : s.Drafts row inbox target body d) {m : Int64 × RelId × Entity × Tuple}
    (hrow : decodeTimerRow row = .ok m) (rel : RelId) (process : Entity) (seq : Int64) (b : Tuple) :
    netOn rel (inboxFact rel process seq b).tuple d.patch.updates
      = if inboxFact inbox target d.alloc.start body = inboxFact rel process seq b then 1 else 0 := by
  have hlen := decodeTimerRow_length hrow
  have htimer : ¬ (s.timers = rel ∧ row = (inboxFact rel process seq b).tuple) := by
    rintro ⟨-, rfl⟩
    cases hlen
  rw [h.netOn_patch, if_neg htimer, zero_add, SeqAlloc.netOn_sealPatch_other]
  · exact add_zero _
  · rintro ⟨-, u, heq⟩
    have hcells := congrArg (fun t : Tuple => t.cells.length) heq
    rw [SeqAlloc.counterTuple, h.key] at hcells
    cases hcells

/-- Of a counter's rows, its advance if it is the one that was drawn from. -/
theorem netOn_counter (h : s.Drafts row inbox target body d) {m : Int64 × RelId × Entity × Tuple}
    (hrow : decodeTimerRow row = .ok m) (rel : RelId) (process : Entity) (v : Int64) :
    netOn rel (SeqAlloc.counterTuple (seqKey process) v) d.patch.updates
      = netOn rel (SeqAlloc.counterTuple (seqKey process) v)
          (({ d.alloc with n := 1 } : SeqAlloc).sealPatch Patch.new).updates := by
  have hlen := decodeTimerRow_length hrow
  have htimer : ¬ (s.timers = rel ∧ row = SeqAlloc.counterTuple (seqKey process) v) := by
    rintro ⟨-, rfl⟩
    cases hlen
  have hmessage : inboxFact inbox target d.alloc.start body ≠ ⟨rel, SeqAlloc.counterTuple (seqKey process) v⟩ := fun heq => by
    have hcells := congrArg (fun f : Fact => f.tuple.cells.length) heq
    cases hcells
  rw [h.netOn_patch, if_neg htimer, if_neg hmessage, zero_add, zero_add]

end Scheduler.Drafts

/-! ## What a step does -/

namespace Firing

/-- The timers a call has yet to fire. -/
def rows : Firing → List Tuple
  | .idle => []
  | .next rows => rows
  | .attempt t | .ready _ t | .drafted _ t => t.row :: t.rest

end Firing

/-- A driver is about to commit what its timer says. -/
def TimerDriver.Holds (x : TimerDriver) : Prop :=
  match x.phase with
  | .ready append t => ∃ due inbox target body, decodeTimerRow t.row = .ok (due, inbox, target, body) ∧
      append = x.scheduler.append t.row inbox target body
  | .drafted d t => ∃ due inbox target body, decodeTimerRow t.row = .ok (due, inbox, target, body) ∧
      x.scheduler.Drafts t.row inbox target body d
  | _ => True

/-- What holds of a driver: it fires what was due, and in order. -/
structure TimerDriver.Sound (w : Clockwork) (a : Nat) (x : TimerDriver) : Prop where
  calls : ∀ f ∈ w.fired, f.driver = a → f.call ≤ x.calls
  rows : x.phase.rows.Pairwise (· < ·)
  due : ∀ row ∈ x.phase.rows, ∃ m, decodeTimerRow row = .ok m ∧ m.1 ≤ x.now
  after : ∀ f ∈ w.fired, f.driver = a → f.call = x.calls → ∀ row ∈ x.phase.rows, f.row < row
  holds : x.Holds

/-- A driver that has no more to fire than it had. -/
theorem TimerDriver.Sound.phase {w : Clockwork} {a : Nat} {x : TimerDriver} (h : x.Sound w a) {phase : Firing}
    (hsub : phase.rows.Sublist x.phase.rows) (hholds : ({ x with phase } : TimerDriver).Holds) :
    ({ x with phase } : TimerDriver).Sound w a :=
  ⟨h.calls, h.rows.sublist hsub, fun row hrow => h.due row (hsub.subset hrow),
    fun f hf ha hcall row hrow => h.after f hf ha hcall row (hsub.subset hrow), hholds⟩

namespace Clockwork

variable {schemas : SchemaCatalog} {w w' : Clockwork} {act : Act} {a : Nat} {x : TimerDriver}

def Sound (w : Clockwork) : Prop := ∀ (a : Nat) (x : TimerDriver), w.drivers[a]? = some x → x.Sound w a

/-- What a step comes to. -/
inductive Does (schemas : SchemaCatalog) (w : Clockwork) : Act → Clockwork → Prop where
  | stay (act : Act) : Does schemas w act w
  | move (act : Act) (a : Nat) (x : TimerDriver) (hx : x.Sound w a)
      (hdrawn : ∀ d t, x.phase = .drafted d t → SeqAlloc.read w.store d.alloc.rel d.alloc.key = .ok d.alloc) :
      Does schemas w act (w.setDriver a x)
  | fire (a : Nat) (x : TimerDriver) (d : Draft) (t : FireTurn) (hx : w.drivers[a]? = some x) (hphase : x.phase = .drafted d t)
      (store : TraceStore) (e : Nat) (h : d.commit w.store schemas = .ok (store, .committed e)) :
      Does schemas w (.go a) { w.setDriver a { x with phase := .next t.rest } with
        store, fired := w.fired ++ firedBy a x d t }
  | commit (p : Patch) (checker : BehaviorChecker) (authority : Authority) (store : TraceStore) (e : Nat)
      (h : commitPatchChecked w.store schemas checker p authority = .ok (store, .committed e)) :
      Does schemas w (.commit p checker authority)
        { w with store, scheduled := w.scheduled ++ p.timers, wrote := w.wrote ++ p.updates }

theorem draw_drafts {s : Scheduler} {row : Tuple} {inbox : RelId} {target : Entity} {body : Tuple} {store : TraceStore}
    {d : Draft} (h : (s.append row inbox target body).draw store = .ok d) :
    s.Drafts row inbox target body d ∧ SeqAlloc.read store d.alloc.rel d.alloc.key = .ok d.alloc := by
  unfold Append.draw at h
  obtain ⟨alloc, halloc, h⟩ := bind_ok h
  cases h
  obtain ⟨hrel, hkey, hn, -⟩ := SeqAlloc.read_ok halloc
  refine ⟨⟨rfl, hrel, hkey, hn⟩, ?_⟩
  rw [hrel, hkey]
  exact halloc

theorem begin_does (hs : w.Sound) {s : Scheduler} {now : Int64} {pick : List Tuple → List Tuple}
    (hpick : ∀ rows, (pick rows).Sublist rows) (act : Act) (h : w.begin a s now pick = some w') :
    Does schemas w act w' := by
  unfold begin at h
  split at h
  · rename_i calls s' now' hx
    split at h
    · rename_i due hdue
      cases h
      obtain ⟨hsorted, hmem⟩ := Scheduler.dueAt_ok hdue
      have hcalls := (hs a _ hx).calls
      refine .move act a _ ⟨fun f hf ha => (hcalls f hf ha).trans (Nat.le_succ _), hsorted.sublist (hpick due),
        fun row hrow => ((hmem row).1 ((hpick due).subset hrow)).2, fun f hf ha hcall => ?_, trivial⟩ nofun
      exact absurd (hcalls f hf ha) (by rw [hcall]; exact Nat.not_succ_le_self _)
    · cases h
      exact .stay act
  · cases h

/-- **What a step does**. -/
theorem step_does (hs : w.Sound) (h : step schemas w act = some w') : Does schemas w act w' := by
  cases act with
  | fireDue a s now => exact begin_does hs (fun rows => .refl rows) _ h
  | fireNextDue a s now => exact begin_does hs (fun rows => List.take_sublist 1 rows) _ h
  | go a =>
    simp only [step] at h
    split at h
    · cases h
    · rename_i x hx
      have hsound := hs a x hx
      have hidle : ({ x with phase := .idle } : TimerDriver).Sound w a := hsound.phase (List.nil_sublist _) trivial
      split at h
      · cases h
      · cases h
        exact .move _ a _ hidle nofun
      · rename_i row rest hphase
        cases h
        exact .move _ a _ (hsound.phase (by rw [hphase]; exact .refl _) trivial) nofun
      · rename_i t hphase
        have hnext : ({ x with phase := .next t.rest } : TimerDriver).Sound w a :=
          hsound.phase (by rw [hphase]; exact List.sublist_cons_self _ _) trivial
        split at h
        · cases h
          exact .move _ a _ hnext nofun
        · split at h
          · rename_i append hfire
            cases h
            obtain ⟨due, inbox, target, body, hrow, -, happend⟩ := Scheduler.fireOne_some hfire
            exact .move _ a _ (hsound.phase (by rw [hphase]; exact .refl _)
              ⟨due, inbox, target, body, hrow, happend⟩) nofun
          · cases h
            exact .move _ a _ hnext nofun
          · cases h
            exact .move _ a _ hidle nofun
      · rename_i append t hphase
        have hholds := hsound.holds
        rw [TimerDriver.Holds, hphase] at hholds
        obtain ⟨due, inbox, target, body, hrow, rfl⟩ := hholds
        split at h
        · rename_i d hdraw
          cases h
          obtain ⟨hdrafts, hread⟩ := draw_drafts hdraw
          refine .move _ a _ (hsound.phase (by rw [hphase]; exact .refl _)
            ⟨due, inbox, target, body, hrow, hdrafts⟩) fun d' t' heq => ?_
          cases heq
          exact hread
        · cases h
          exact .move _ a _ hidle nofun
      · rename_i d t hphase
        split at h
        · rename_i store e hcommit
          cases h
          exact .fire a x d t hx hphase store e hcommit
        · cases h
          exact .move _ a _ (hsound.phase (by rw [hphase]; exact .refl _) trivial) nofun
        · cases h
          exact .move _ a _ hidle nofun
  | crash a =>
    simp only [step] at h
    split at h
    · rename_i x hx
      cases h
      exact .move _ a _ ((hs a x hx).phase (List.nil_sublist _) trivial) nofun
    · cases h
  | commit p checker authority =>
    simp only [step] at h
    split at h
    · rename_i store e hcommit
      cases h
      exact .commit p checker authority store e hcommit
    · cases h
      exact .stay _

end Clockwork

end Grmpl

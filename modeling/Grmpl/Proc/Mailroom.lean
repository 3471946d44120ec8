import Grmpl.Lib.Runs
import Grmpl.Proc.Domain
import Grmpl.Proc.Process
import Grmpl.Proc.Schedule
import Grmpl.Proc.Watch

/-!
# The appenders of an inbox

Senders, schedulers, watches and other domains append to one store's inboxes, each in
several reads and one commit, between which anyone else may commit. A domain's
delivery and a message at a chosen number are rows as they come.

* `Mailroom`, `Mailroom.step`: a store, its appenders, and what they do.
* `Mailroom.Does`, `step_does`: what a step comes to.
* `OneSequence`: the messages to a process in an inbox are numbered from zero on, and
  the process finds each at its number.
* `KeepsSequence`: each inbox of a process is fed from one counter, and each counter
  feeds one.
-/

open OrdMap Runs Numbering

namespace Grmpl

/-- A message that was given a number, and the counter it was drawn from, if any. -/
structure Given where
  inbox : RelId
  target : Entity
  counter : Option (RelId × List Value)
  seq : Int64
  body : Tuple
  deriving DecidableEq

namespace Given

/-- The inbox of the process. -/
def box (g : Given) : RelId × Entity := (g.inbox, g.target)

def row (g : Given) : Tuple := (inboxFact g.inbox g.target g.seq g.body).tuple

end Given

/-- The messages of a committed draft. -/
def Draft.given (d : Draft) : List Given :=
  d.messages.map fun m => ⟨d.append.inbox, d.append.target, some (d.alloc.rel, d.alloc.key), m.1, m.2⟩

/-- A message as another domain sent it. -/
def Message.given (m : Message) : Option Given :=
  match m.body.cells with
  | [.ent target, .int seq, .tuple body] => some ⟨m.inbox, target, none, seq, ⟨body⟩⟩
  | _ => none

/-- Where an appender stands. -/
inductive Phase where
  | idle
  /-- A watch has read its cursor. -/
  | positioned (watch : OnWatch) (start : Nat)
  /-- It knows what to append. -/
  | ready (x : Append)
  /-- It has drawn the numbers. -/
  | drafted (d : Draft)
  /-- It has read the counter it is about to seed. -/
  | seeding (s : Seed)

/-- A store, its appenders, and the messages committed with their numbers. -/
structure Mailroom where
  store : TraceStore
  appenders : List Phase
  given : List Given

namespace Mailroom

/-- What an appender does between two reads or commits, or somebody else's commit. -/
inductive Act where
  | enqueueSeq (a : Nat) (inbox seqs : RelId) (process : Entity) (body : Tuple)
  | fire (a : Nat) (scheduler : Scheduler) (row : Tuple)
  | cursor (a : Nat) (watch : OnWatch)
  | batch (a : Nat)
  | draw (a : Nat)
  | seedSeq (a : Nat) (seqs : RelId) (process : Entity)
  | install (a : Nat) (watch : OnWatch) (start : Nat)
  | commit (a : Nat)
  | crash (a : Nat)
  | enqueue (inbox : RelId) (process : Entity) (seq : Int64) (body : Tuple)
  | deliver (m : Message) (seen : RelId) (sender : DomainId) (seq : Int64)
  | other (updates : List (RelId × Tuple × Diff))

def setPhase (w : Mailroom) (a : Nat) (x : Phase) : Mailroom :=
  { w with appenders := w.appenders.set a x }

/-- What the code does next, if it can. A commit that is rejected is tried again from
the first read; an error gives the append up. -/
def step (schemas : SchemaCatalog) (w : Mailroom) : Act → Option Mailroom
  | .enqueueSeq a inbox seqs process body =>
      match w.appenders[a]? with
      | some .idle => some (w.setPhase a (.ready (Grmpl.enqueueSeq inbox seqs process body)))
      | _ => none
  | .fire a scheduler row =>
      match w.appenders[a]? with
      | some .idle => match scheduler.fireOne w.store row with
        | .ok (some x) => some (w.setPhase a (.ready x))
        | _ => some w
      | _ => none
  | .cursor a watch =>
      match w.appenders[a]? with
      | some .idle => match watch.cursor w.store with
        | .ok (some start) => some (w.setPhase a (.positioned watch start))
        | _ => some w
      | _ => none
  | .batch a =>
      match w.appenders[a]? with
      | some (.positioned watch start) => match watch.batch w.store start with
        | .ok (some x) => some (w.setPhase a (.ready x))
        | _ => some (w.setPhase a .idle)
      | _ => none
  | .draw a =>
      match w.appenders[a]? with
      | some (.ready x) => match x.draw w.store with
        | .ok d => some (w.setPhase a (.drafted d))
        | .error _ => some (w.setPhase a .idle)
      | _ => none
  | .seedSeq a seqs process =>
      match w.appenders[a]? with
      | some .idle => match Grmpl.seedSeq w.store seqs process with
        | .ok s => some (w.setPhase a (.seeding s))
        | .error _ => some w
      | _ => none
  | .install a watch start =>
      match w.appenders[a]? with
      | some .idle => match watch.install w.store start with
        | .ok s => some (w.setPhase a (.seeding s))
        | .error _ => some w
      | _ => none
  | .commit a =>
      match w.appenders[a]? with
      | some (.drafted d) => match d.commit w.store schemas with
        | .ok (store, .committed _) =>
            some { w.setPhase a .idle with store, given := w.given ++ d.given }
        | _ => some (w.setPhase a .idle)
      | some (.seeding s) => match s.commit w.store schemas with
        | .ok (store, .committed _) => some { w.setPhase a .idle with store }
        | _ => some (w.setPhase a .idle)
      | _ => none
  | .crash a => some (w.setPhase a .idle)
  | .enqueue inbox process seq body =>
      some { w with store := Grmpl.enqueue w.store inbox process seq body
                    given := w.given ++ [⟨inbox, process, none, seq, body⟩] }
  | .deliver m seen sender seq =>
      some { w with store := w.store.commit (m.arrival seen sender seq)
                    given := w.given ++ m.given.toList }
  | .other updates => some { w with store := w.store.commit updates }

end Mailroom

/-! ## The property and its condition -/

/-- **One sequence for each inbox of each process**: its messages carry the numbers
from zero on, in the order they were committed, none twice, and the process finds each
at its number. -/
def OneSequence (w : Mailroom) : Prop :=
  ∀ (p : Process), let messages := ofStream Given.box (p.inbox, p.entity) w.given
    messages.map Given.seq = numbers Int64.ofNat 0 messages.length ∧
      (messages.map Given.seq).Nodup ∧
      ∀ (i : Nat) (hi : i < messages.length),
        p.messageAt w.store (Int64.ofNat i) w.store.current = .ok (some messages[i].body)

/-- Which relations hold counters and which are inboxes. -/
structure Roles where
  counter : RelId → Bool
  inbox : RelId → Bool
  apart : ∀ rel, counter rel = true → inbox rel = false

/-- Updates that leave counters and inboxes alone. -/
def Roles.Spared (r : Roles) (updates : List (RelId × Tuple × Diff)) : Prop :=
  ∀ u ∈ updates, r.counter u.1 = false ∧ r.inbox u.1 = false

instance Roles.decidableSpared (r : Roles) (updates : List (RelId × Tuple × Diff)) : Decidable (r.Spared updates) :=
  inferInstanceAs (Decidable (∀ u ∈ updates, _))

namespace Mailroom

variable (w : Mailroom)

/-- How many messages a process has been sent in an inbox. -/
def sent (inbox : RelId) (target : Entity) : Nat := (ofStream Given.box (inbox, target) w.given).length

/-- Exactly the messages of one process in one inbox were drawn from a counter. -/
def OwnCounter (rel : RelId) (key : List Value) (inbox : RelId) (target : Entity) : Prop :=
  ∀ g ∈ w.given, g.counter = some (rel, key) ↔ g.box = (inbox, target)

/-- A message at a number of its sender's own is the next one, of a process whose
messages in the inbox are numbered by their senders. -/
def Continues (r : Roles) (g : Given) : Prop :=
  r.inbox g.inbox = true ∧ g.seq = Int64.ofNat (w.sent g.inbox g.target) ∧
    w.sent g.inbox g.target + 1 < 2 ^ 63 ∧ ∀ h ∈ w.given, h.box = g.box → h.counter = none

/-- Appends draw from a counter of their own, inboxes and counters are written by
appenders only, and a counter read as missing is still missing at the commit. -/
def KeepsSequence (r : Roles) : Act → Prop
  | .commit a => match w.appenders[a]? with
    | some (.drafted d) => r.inbox d.append.inbox = true ∧ r.counter d.alloc.rel = true ∧
        r.Spared d.append.base.updates ∧
        w.OwnCounter d.alloc.rel d.alloc.key d.append.inbox d.append.target ∧
        (d.alloc.present = true ∨ CounterAbsent w.store d.alloc.rel d.alloc.key) ∧
        w.sent d.append.inbox d.append.target + d.append.bodies.length < 2 ^ 63
    | some (.seeding s) => r.counter s.alloc.rel = true ∧ r.Spared s.base.updates ∧
        (s.alloc.present = true ∨ CounterAbsent w.store s.alloc.rel s.alloc.key)
    | _ => True
  | .enqueue inbox process seq body => w.Continues r ⟨inbox, process, none, seq, body⟩
  | .deliver m seen _ _ => r.counter seen = false ∧ r.inbox seen = false ∧
      ∃ g, m.given = some g ∧ w.Continues r g
  | .other updates => r.Spared updates
  | _ => True

instance (r : Roles) (g : Given) : Decidable (w.Continues r g) :=
  inferInstanceAs (Decidable (_ ∧ _ ∧ _ ∧ ∀ h ∈ _, _))

instance (rel : RelId) (key : List Value) (inbox : RelId) (target : Entity) :
    Decidable (w.OwnCounter rel key inbox target) :=
  inferInstanceAs (Decidable (∀ g ∈ _, _))

instance (r : Roles) (m : Message) : Decidable (∃ g, m.given = some g ∧ w.Continues r g) :=
  match h : m.given with
  | none => .isFalse fun ⟨_, hg, _⟩ => nomatch hg
  | some g => decidable_of_iff (w.Continues r g) ⟨fun hc => ⟨g, rfl, hc⟩, fun ⟨g', hg, hc⟩ => by
      cases hg
      exact hc⟩

instance (r : Roles) (a : Act) : Decidable (w.KeepsSequence r a) := by
  unfold KeepsSequence
  split
  · split <;> infer_instance
  all_goals infer_instance

end Mailroom

/-! ## What a step does -/

/-- What an appender is about to do is its own patch and nothing else's. -/
def Phase.Sound : Phase → Prop
  | .ready x => x.authority = none → x.base.Bare
  | .drafted d => d.alloc.n = 0 ∧ (d.alloc.present = false → d.alloc.start = 0) ∧ d.Plain
  | .seeding s => s.authority = none → s.base = Patch.new
  | _ => True

namespace Mailroom

variable {schemas : SchemaCatalog} {w w' : Mailroom} {act : Act}

/-- Every appender is about to do what it may. -/
def Sound (w : Mailroom) : Prop := ∀ x ∈ w.appenders, x.Sound

/-- What a step comes to. -/
inductive Does (schemas : SchemaCatalog) (w : Mailroom) : Act → Mailroom → Prop where
  | stay (act : Act) : Does schemas w act w
  | move (act : Act) (a : Nat) (x : Phase) (h : x.Sound) : Does schemas w act (w.setPhase a x)
  | append (a : Nat) (d : Draft) (hd : w.appenders[a]? = some (.drafted d)) (store : TraceStore)
      (e : Nat) (h : d.commit w.store schemas = .ok (store, .committed e)) :
      Does schemas w (.commit a) { w.setPhase a .idle with store, given := w.given ++ d.given }
  | seed (a : Nat) (s : Seed) (hs : w.appenders[a]? = some (.seeding s)) (store : TraceStore)
      (e : Nat) (h : s.commit w.store schemas = .ok (store, .committed e)) :
      Does schemas w (.commit a) { w.setPhase a .idle with store }
  | enqueue (inbox : RelId) (process : Entity) (seq : Int64) (body : Tuple) :
      Does schemas w (.enqueue inbox process seq body)
        { w with store := Grmpl.enqueue w.store inbox process seq body
                 given := w.given ++ [⟨inbox, process, none, seq, body⟩] }
  | deliver (m : Message) (seen : RelId) (sender : DomainId) (seq : Int64) :
      Does schemas w (.deliver m seen sender seq)
        { w with store := w.store.commit (m.arrival seen sender seq)
                 given := w.given ++ m.given.toList }
  | other (updates : List (RelId × Tuple × Diff)) :
      Does schemas w (.other updates) { w with store := w.store.commit updates }

theorem fireOne_sound {s : Scheduler} {store : TraceStore} {row : Tuple} {x : Append}
    (h : s.fireOne store row = .ok (some x)) : (Phase.ready x).Sound := by
  unfold Scheduler.fireOne at h
  obtain ⟨⟨due, inbox, target, body⟩, _, h⟩ := bind_ok h
  obtain ⟨live, _, h⟩ := bind_ok h
  cases live
  · cases h
  · cases h
    exact fun hnone => (nomatch hnone)

theorem batch_sound {watch : OnWatch} {store : TraceStore} {start : Nat} {x : Append}
    (h : watch.batch store start = .ok (some x)) : (Phase.ready x).Sound := by
  unfold OnWatch.batch at h
  dsimp only at h
  split at h
  · cases h
  · obtain ⟨quiet, _, h⟩ := bind_ok h
    cases quiet
    · obtain ⟨rows, _, h⟩ := bind_ok h
      split at h
      · cases h
      · cases h
        exact fun hnone => (nomatch hnone)
    · cases h

theorem draw_sound {x : Append} (hx : (Phase.ready x).Sound) {store : TraceStore} {d : Draft}
    (h : x.draw store = .ok d) : (Phase.drafted d).Sound := by
  unfold Append.draw at h
  obtain ⟨alloc, halloc, h⟩ := bind_ok h
  cases h
  obtain ⟨_, _, hn, hstart⟩ := SeqAlloc.read_ok halloc
  exact ⟨hn, hstart, hx⟩

theorem seedSeq_sound {store : TraceStore} {seqs : RelId} {process : Entity} {s : Seed}
    (h : Grmpl.seedSeq store seqs process = .ok s) : (Phase.seeding s).Sound := by
  unfold Grmpl.seedSeq at h
  obtain ⟨alloc, _, h⟩ := bind_ok h
  cases h
  exact fun _ => rfl

theorem install_sound {watch : OnWatch} {store : TraceStore} {start : Nat} {s : Seed}
    (h : watch.install store start = .ok s) : (Phase.seeding s).Sound := by
  unfold OnWatch.install at h
  obtain ⟨alloc, _, h⟩ := bind_ok h
  cases h
  exact fun hnone => (nomatch hnone)

theorem step_does (hs : w.Sound) (h : step schemas w act = some w') : Does schemas w act w' := by
  cases act with
  | enqueueSeq a inbox seqs process body =>
    simp only [step] at h
    split at h
    · cases h
      exact .move _ a _ fun _ => Patch.Bare.new
    · cases h
  | fire a scheduler row =>
    simp only [step] at h
    split at h
    · split at h
      · rename_i x hx
        cases h
        exact .move _ a _ (fireOne_sound hx)
      · cases h
        exact .stay _
    · cases h
  | cursor a watch =>
    simp only [step] at h
    split at h
    · split at h
      · cases h
        exact .move _ a _ trivial
      · cases h
        exact .stay _
    · cases h
  | batch a =>
    simp only [step] at h
    split at h
    · split at h
      · rename_i x hx
        cases h
        exact .move _ a _ (batch_sound hx)
      · cases h
        exact .move _ a _ trivial
    · cases h
  | draw a =>
    simp only [step] at h
    split at h
    · rename_i x hx
      split at h
      · rename_i d hd
        cases h
        exact .move _ a _ (draw_sound (hs _ (List.mem_of_getElem? hx)) hd)
      · cases h
        exact .move _ a _ trivial
    · cases h
  | seedSeq a seqs process =>
    simp only [step] at h
    split at h
    · split at h
      · rename_i s hs'
        cases h
        exact .move _ a _ (seedSeq_sound hs')
      · cases h
        exact .stay _
    · cases h
  | install a watch start =>
    simp only [step] at h
    split at h
    · split at h
      · rename_i s hs'
        cases h
        exact .move _ a _ (install_sound hs')
      · cases h
        exact .stay _
    · cases h
  | commit a =>
    simp only [step] at h
    split at h
    · rename_i d hd
      split at h
      · rename_i store e hc
        cases h
        exact .append a d hd store e hc
      · cases h
        exact .move _ a _ trivial
    · rename_i s hs'
      split at h
      · rename_i store e hc
        cases h
        exact .seed a s hs' store e hc
      · cases h
        exact .move _ a _ trivial
    · cases h
  | crash a =>
    cases h
    exact .move _ a _ trivial
  | enqueue inbox process seq body =>
    cases h
    exact .enqueue inbox process seq body
  | deliver m seen sender seq =>
    cases h
    exact .deliver m seen sender seq
  | other updates =>
    cases h
    exact .other updates

/-- What the reads and commits of a step leave appenders with meets a condition. -/
structure Produces (P : Phase → Prop) (w : Mailroom) (act : Act) : Prop where
  idle : P .idle
  seeding : ∀ s, P (.seeding s)
  enqueued : ∀ inbox seqs process body, P (.ready (Grmpl.enqueueSeq inbox seqs process body))
  fired : ∀ k scheduler row x, act = .fire k scheduler row → scheduler.fireOne w.store row = .ok (some x) →
    P (.ready x)
  positioned : ∀ k watch start, act = .cursor k watch → P (.positioned watch start)
  batched : ∀ k watch start x, act = .batch k → P (.positioned watch start) →
    watch.batch w.store start = .ok (some x) → P (.ready x)
  drawn : ∀ x alloc, P (.ready x) → P (.drafted ⟨x, alloc⟩)

/-- What every such read or commit meets, the appenders meet after every step. -/
theorem produces_step {P : Phase → Prop} (hp : Produces P w act) (h : ∀ x ∈ w.appenders, P x)
    (hstep : step schemas w act = some w') : ∀ x ∈ w'.appenders, P x := by
  have hset : ∀ (a : Nat) (y : Phase), P y →
      ∀ x ∈ w.appenders.set a y, P x := by
    intro a y hy x hx
    rcases List.mem_or_eq_of_mem_set hx with hx | rfl
    · exact h x hx
    · exact hy
  cases act with
  | enqueueSeq a inbox seqs process body =>
    simp only [step] at hstep
    split at hstep
    · cases hstep
      exact hset a _ (hp.enqueued inbox seqs process body)
    · cases hstep
  | fire a scheduler row =>
    simp only [step] at hstep
    split at hstep
    · split at hstep
      · rename_i x hx
        cases hstep
        exact hset a _ (hp.fired a scheduler row x rfl hx)
      · cases hstep
        exact h
    · cases hstep
  | cursor a watch =>
    simp only [step] at hstep
    split at hstep
    · split at hstep
      · cases hstep
        exact hset a _ (hp.positioned a watch _ rfl)
      · cases hstep
        exact h
    · cases hstep
  | batch a =>
    simp only [step] at hstep
    split at hstep
    · rename_i watch start hpos
      split at hstep
      · rename_i x hx
        cases hstep
        exact hset a _ (hp.batched a watch start x rfl (h _ (List.mem_of_getElem? hpos)) hx)
      · cases hstep
        exact hset a _ hp.idle
    · cases hstep
  | draw a =>
    simp only [step] at hstep
    split at hstep
    · rename_i x hx
      split at hstep
      · rename_i d hd
        cases hstep
        obtain ⟨alloc, -, hd⟩ := bind_ok hd
        cases hd
        exact hset a _ (hp.drawn x alloc (h _ (List.mem_of_getElem? hx)))
      · cases hstep
        exact hset a _ hp.idle
    · cases hstep
  | seedSeq a seqs process =>
    simp only [step] at hstep
    split at hstep
    · split at hstep
      · cases hstep
        exact hset a _ (hp.seeding _)
      · cases hstep
        exact h
    · cases hstep
  | install a watch start =>
    simp only [step] at hstep
    split at hstep
    · split at hstep
      · cases hstep
        exact hset a _ (hp.seeding _)
      · cases hstep
        exact h
    · cases hstep
  | commit a =>
    simp only [step] at hstep
    split at hstep
    · split at hstep <;> cases hstep <;> exact hset a .idle hp.idle
    · split at hstep <;> cases hstep <;> exact hset a .idle hp.idle
    · cases hstep
  | crash a =>
    cases hstep
    exact hset a .idle hp.idle
  | enqueue inbox process seq body =>
    cases hstep
    exact h
  | deliver m seen sender seq =>
    cases hstep
    exact h
  | other updates =>
    cases hstep
    exact h

theorem Sound.set (h : w.Sound) (a : Nat) {x : Phase} (hx : x.Sound) :
    ∀ y ∈ w.appenders.set a x, y.Sound := by
  intro y hy
  rcases List.mem_or_eq_of_mem_set hy with hy | rfl
  · exact h y hy
  · exact hx

theorem sound_step (h : w.Sound) (hd : Does schemas w act w') : w'.Sound := by
  cases hd with
  | stay => exact h
  | move _ a x hx => exact h.set a hx
  | append a d hd store e hc => exact h.set a trivial
  | seed a s hs store e hc => exact h.set a trivial
  | enqueue inbox process seq body => exact h
  | deliver m seen sender seq => exact h
  | other updates => exact h

end Mailroom

/-- What a seed commits. -/
theorem Seed.commit_committed {s : Seed} {schemas : SchemaCatalog} (hsound : (Phase.seeding s).Sound)
    {store store' : TraceStore} {e : Nat} (h : s.commit store schemas = .ok (store', .committed e)) :
    store' = store.commit (s.alloc.seed s.base).updates := by
  unfold Seed.commit at h
  split at h
  · rcases commitPatchChecked_ok h with ⟨hrej, _⟩ | ⟨_, _, hstore⟩
    · exact absurd hrej (by simp)
    · exact hstore
  · rename_i hauth
    split at h
    · exact absurd (Prod.mk.inj (Except.ok.inj h)).2 (by simp)
    · rw [← (Prod.mk.inj (Except.ok.inj h)).1, hsound hauth]
      congr 1
      unfold SeqAlloc.seed
      cases s.alloc.present
      · rfl
      · rfl

end Grmpl

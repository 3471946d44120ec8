import Grmpl.Lib.Runs
import Grmpl.Proc.Domain

/-!
# Domains over a transport

Domains commit, ship their outboxes and receive, each by workers that may be
interleaved with anyone between two reads, sends or commits, and may crash there. The
transport holds what was sent until it is polled, in any order, and may keep a copy.

* `Net`, `Network`, `Network.step`: the domains, their stores, their workers and the transport.
* `DeliveredOnce`: no message of a committed patch is applied twice or lost.
* `KeepsDelivery`: no crash between a poll and its commit, and no two receivers of one
  message at its commit.
-/

open OrdMap Runs Numbering

namespace Grmpl

open Wire

/-- The domains, each known by its identity, with books of their own. -/
structure Net where
  domain : DomainId → Domain
  id_eq : ∀ i, (domain i).id = i
  apart : ∀ i, (domain i).outbox ≠ (domain i).outseq ∧ (domain i).outbox ≠ (domain i).seen ∧
    (domain i).outseq ≠ (domain i).seen

/-- A message of a committed patch to another domain. -/
structure Sent where
  sender : DomainId
  seq : Int64
  target : DomainId
  message : Message
  deriving DecidableEq

/-- What the transport carries. -/
structure Packet where
  sender : DomainId
  target : DomainId
  payload : List UInt8
  deriving DecidableEq

namespace Sent

/-- The message in its sender's outbox. -/
def row (e : Sent) : Tuple := outboxRow e.seq e.target e.message

/-- The message on the wire. -/
def packet (e : Sent) : Packet := ⟨e.sender, e.target, encodeEnvelope e.seq e.message⟩

end Sent

/-- What a worker is in the middle of. -/
inductive Errand where
  | idle
  /-- Its patch passed the laws. -/
  | routed (x : Routed)
  /-- It has read the outbox's counter. -/
  | drawn (x : Routed) (alloc : SeqAlloc)
  /-- Its commit was refused. -/
  | refused (x : Routed)
  | seeding (alloc : SeqAlloc)
  /-- It has these rows of the outbox left to ship. -/
  | flushing (rows : List (Tuple × Diff))
  /-- It has sent the first of them. -/
  | shipped (row : Tuple) (rest : List (Tuple × Diff))
  | polled (sender : DomainId) (payload : List UInt8)
  /-- It has found a message unseen. -/
  | passed (sender : DomainId) (seq : Int64) (m : Message)

structure Worker where
  home : DomainId
  errand : Errand

/-- Every domain's store, the workers, what is in flight, the messages of committed
patches to other domains, and those applied. -/
structure Network where
  stores : DomainId → TraceStore
  workers : List Worker
  inFlight : List Packet
  emitted : List Sent
  applied : List Sent

/-- The messages a draft commits, with their numbers. -/
def Domain.sends (home : DomainId) (x : Routed) (alloc : SeqAlloc) : List Sent :=
  (alloc.assign x.remotes).2.map fun m => ⟨home, m.1, m.2.1, m.2.2⟩

namespace Network

/-- What a worker does next, or somebody else's commit. -/
inductive Act where
  | submit (i : Nat) (patch : Patch) (authority : Authority)
  | draw (i : Nat)
  | commit (i : Nat)
  | settle (i : Nat)
  | seed (i : Nat)
  | flush (i : Nat)
  /-- The transport takes what is sent, or refuses. -/
  | send (i : Nat) (taken : Bool)
  | retract (i : Nat)
  /-- The transport gives what is in flight at a place, and may keep a copy. -/
  | poll (i : Nat) (k : Nat) (kept : Bool)
  | check (i : Nat)
  | apply (i : Nat)
  | crash (i : Nat)
  | other (home : DomainId) (updates : List (RelId × Tuple × Diff))

def setErrand (w : Network) (i : Nat) (home : DomainId) (x : Errand) : Network :=
  { w with workers := w.workers.set i ⟨home, x⟩ }

/-- A commit in one domain's store. -/
def commitIn (w : Network) (home : DomainId) (updates : List (RelId × Tuple × Diff)) : Network :=
  { w with stores := Function.update w.stores home ((w.stores home).commit updates) }

variable (net : Net) (schemas : SchemaCatalog)

/-- What the code does next, if it can; an error gives the errand up. -/
def step (w : Network) : Act → Option Network
  | .submit i patch authority =>
      match w.workers[i]? with
      | some ⟨home, .idle⟩ => match (net.domain home).route schemas patch authority with
        | .ok x => some (w.setErrand i home (.routed x))
        | .error _ => some w
      | _ => none
  | .draw i =>
      match w.workers[i]? with
      | some ⟨home, .routed x⟩ =>
          if x.remotes = [] then none
          else match SeqAlloc.read (w.stores home) (net.domain home).outseq [] with
            | .ok alloc => some (w.setErrand i home (.drawn x alloc))
            | .error _ => some (w.setErrand i home .idle)
      | _ => none
  | .commit i =>
      match w.workers[i]? with
      | some ⟨home, .routed x⟩ =>
          if x.remotes = [] then match (w.stores home).commitIf x.preconditions x.updates with
            | some _ => some ((w.commitIn home x.updates).setErrand i home .idle)
            | none => some (w.setErrand i home .idle)
          else none
      | some ⟨home, .drawn x alloc⟩ =>
          let draft := (net.domain home).draft x alloc
          match (w.stores home).commitIf draft.1 draft.2 with
          | some _ => some { (w.commitIn home draft.2).setErrand i home .idle with
              emitted := w.emitted ++ Domain.sends home x alloc }
          | none => some (w.setErrand i home (.refused x))
      | some ⟨home, .seeding alloc⟩ =>
          if alloc.present then some (w.setErrand i home .idle)
          else some ((w.commitIn home [(alloc.rel, SeqAlloc.counterTuple alloc.key 0, 1)]).setErrand i home
            .idle)
      | _ => none
  | .settle i =>
      match w.workers[i]? with
      | some ⟨home, .refused x⟩ => match Domain.allHold (w.stores home) x.preconditions with
        | .ok true => some (w.setErrand i home (.routed x))
        | _ => some (w.setErrand i home .idle)
      | _ => none
  | .seed i =>
      match w.workers[i]? with
      | some ⟨home, .idle⟩ => match SeqAlloc.read (w.stores home) (net.domain home).outseq [] with
        | .ok alloc => some (w.setErrand i home (.seeding alloc))
        | .error _ => some w
      | _ => none
  | .flush i =>
      match w.workers[i]? with
      | some ⟨home, .idle⟩ => match (net.domain home).pending (w.stores home) with
        | .ok rows => some (w.setErrand i home (.flushing rows))
        | .error _ => some w
      | _ => none
  | .send i taken =>
      match w.workers[i]? with
      | some ⟨home, .flushing []⟩ => some (w.setErrand i home .idle)
      | some ⟨home, .flushing ((row, d) :: rest)⟩ =>
          if d ≤ 0 then some (w.setErrand i home (.flushing rest))
          else match decodeOutboxRow row with
            | .ok (seq, target, m) =>
                if taken then some { w.setErrand i home (.shipped row rest) with
                  inFlight := ⟨home, target, encodeEnvelope seq m⟩ :: w.inFlight }
                else some (w.setErrand i home .idle)
            | .error _ => some (w.setErrand i home .idle)
      | _ => none
  | .retract i =>
      match w.workers[i]? with
      | some ⟨home, .shipped row rest⟩ =>
          some ((w.commitIn home [((net.domain home).outbox, row, -1)]).setErrand i home (.flushing rest))
      | _ => none
  | .poll i k kept =>
      match w.workers[i]? with
      | some ⟨home, .idle⟩ => match w.inFlight[k]? with
        | some p =>
            if p.target = home then
              some { w.setErrand i home (.polled p.sender p.payload) with
                inFlight := if kept then w.inFlight else w.inFlight.eraseIdx k }
            else none
        | none => none
      | _ => none
  | .check i =>
      match w.workers[i]? with
      | some ⟨home, .polled sender payload⟩ => match decodeEnvelope payload with
        | .ok (seq, m) => match (net.domain home).seenHolds (w.stores home) sender seq with
          | .ok false => some (w.setErrand i home (.passed sender seq m))
          | _ => some (w.setErrand i home .idle)
        | .error _ => some (w.setErrand i home .idle)
      | _ => none
  | .apply i =>
      match w.workers[i]? with
      | some ⟨home, .passed sender seq m⟩ =>
          some { (w.commitIn home (m.arrival (net.domain home).seen sender seq)).setErrand i home .idle with
            applied := w.applied ++ [⟨sender, seq, home, m⟩] }
      | _ => none
  | .crash i =>
      match w.workers[i]? with
      | some ⟨home, _⟩ => some (w.setErrand i home .idle)
      | none => none
  | .other home updates => some (w.commitIn home updates)

end Network

/-! ## The property and its condition -/

section Property

variable (net : Net) (w : Network)

/-- A receiver has polled a message and not yet committed it. -/
def Worker.Holds (x : Worker) (e : Sent) : Prop :=
  x.home = e.target ∧
    (x.errand = .polled e.sender (encodeEnvelope e.seq e.message) ∨
      x.errand = .passed e.sender e.seq e.message)

/-- A message is still on its way: in its sender's outbox, in flight, or in the hands of
a receiver. -/
def Network.Waiting (e : Sent) : Prop :=
  0 < (w.stores e.sender).weight (net.domain e.sender).outbox e.row ∨ e.packet ∈ w.inFlight ∨
    ∃ x ∈ w.workers, x.Holds e

/-- **Delivered once**: only messages of committed patches are applied, each at most
once, and each is on its way until it is. -/
structure DeliveredOnce : Prop where
  known : ∀ a ∈ w.applied, a ∈ w.emitted
  distinct : w.emitted.Nodup
  once : ∀ e, w.applied.count e ≤ 1
  kept : ∀ e ∈ w.emitted, w.applied.count e = 1 ∨ w.Waiting net e

/-- Updates that leave a domain's books alone. -/
def Net.Spared (home : DomainId) (updates : List (RelId × Tuple × Diff)) : Prop :=
  ∀ u ∈ updates, u.1 ≠ (net.domain home).outbox ∧ u.1 ≠ (net.domain home).outseq ∧
    u.1 ≠ (net.domain home).seen

instance Net.decidableSpared (home : DomainId) (updates : List (RelId × Tuple × Diff)) :
    Decidable (net.Spared home updates) := inferInstanceAs (Decidable (∀ u ∈ updates, _))

/-- How many messages a domain has sent. -/
def Network.sentBy (home : DomainId) : Nat := (ofStream Sent.sender home w.emitted).length

/-- No crash falls between a poll and its commit while the transport has no copy left,
a message is unseen at its commit, the outbox's counter is missing at a commit that read
it as missing, and the books are the domain's own. -/
def KeepsDelivery : Network.Act → Prop
  | .commit i => match w.workers[i]? with
    | some ⟨home, .routed x⟩ => net.Spared home x.updates
    | some ⟨home, .drawn x alloc⟩ => net.Spared home x.updates ∧
        (alloc.present = true ∨ CounterAbsent (w.stores home) (net.domain home).outseq []) ∧
        w.sentBy home + x.remotes.length < 2 ^ 63 ∧ ∀ m ∈ x.remotes, messageFits m.2 = true
    | some ⟨home, .seeding alloc⟩ =>
        alloc.present = true ∨ CounterAbsent (w.stores home) (net.domain home).outseq []
    | _ => True
  | .apply i => match w.workers[i]? with
    | some ⟨home, .passed sender seq m⟩ =>
        ¬ 0 < (w.stores home).weight (net.domain home).seen (seenRow sender seq) ∧
          m.inbox ≠ (net.domain home).outbox ∧ m.inbox ≠ (net.domain home).outseq ∧
            m.inbox ≠ (net.domain home).seen
    | _ => True
  | .crash i => match w.workers[i]? with
    | some ⟨home, .polled sender payload⟩ => ⟨sender, home, payload⟩ ∈ w.inFlight
    | some ⟨home, .passed sender seq m⟩ => ⟨sender, home, encodeEnvelope seq m⟩ ∈ w.inFlight
    | _ => True
  | .other home updates => net.Spared home updates
  | _ => True

instance (a : Network.Act) : Decidable (KeepsDelivery net w a) := by
  unfold KeepsDelivery
  split
  · split <;> infer_instance
  · split <;> infer_instance
  · split <;> infer_instance
  all_goals infer_instance

end Property

end Grmpl

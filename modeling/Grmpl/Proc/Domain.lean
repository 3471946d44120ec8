import Grmpl.Core.Wire
import Grmpl.Proc.SeqAlloc

/-!
# Domains

A patch's messages to other domains are rows of an outbox, written by the commit that
emits them and numbered by its counter. A pass over the outbox sends each row and
retracts it; the domain it was sent to notes what it has seen of each sender, and
applies a message once.

* `encodeEnvelope`, `decodeEnvelope`: a numbered message on the wire.
* `Domain`, `Domain.route`, `Routed.draft`: the commit.
* `Domain.pending`, `decodeOutboxRow`: the outbox.
* `Domain.seenHolds`, `Message.arrival`: the receiving side.
* `decodeEnvelope_encode`, `decodeOutboxRow_outboxRow`: what is read back.
-/

open OrdMap Bytes

namespace Grmpl

open Wire

def encodeEnvelope (seq : Int64) (m : Message) : List UInt8 :=
  toBE 8 seq.toUInt64.toNat ++ encodeMessage m

def decodeEnvelope (bytes : List UInt8) : Result (Int64 × Message) :=
  if bytes.length < 8 then .error (.codec "envelope shorter than seq header")
  else do
    let m ← decodeMessage (bytes.drop 8)
    return ((UInt64.ofNat (ofBE (bytes.take 8))).toInt64, m)

/-- A domain's identity, the domains it knows to own inboxes, and the relations it keeps
its own books in. -/
structure Domain where
  id : DomainId
  routes : RelId → Option DomainId
  outbox : RelId
  outseq : RelId
  seen : RelId

/-- A pending message to another domain. -/
def outboxRow (seq : Int64) (target : DomainId) (m : Message) : Tuple :=
  ⟨[.int seq, .int target.toInt64, .int (Int64.ofNat m.inbox), .tuple m.body.cells]⟩

/-- A message of a sender that was applied. -/
def seenRow (sender : DomainId) (seq : Int64) : Tuple := ⟨[.int sender.toInt64, .int seq]⟩

/-- A pending message as its number, the domain it is for, and itself. -/
def decodeOutboxRow (row : Tuple) : Result (Int64 × DomainId × Message) :=
  match row.cells with
  | .int seq :: .int target :: .int inbox :: .tuple body :: _ =>
      .ok (seq, target.toUInt64, ⟨inbox.toUInt64.toUInt32.toNat, ⟨body⟩⟩)
  | _ => .error (.codec "malformed outbox row")

/-- A checked patch: its preconditions, what it does here, and its messages to other
domains. -/
structure Routed where
  preconditions : List (RelId × Tuple)
  updates : List (RelId × Tuple × Diff)
  remotes : List (DomainId × Message)

namespace Domain

variable (d : Domain)

/-- The domain an inbox belongs to, if it is another one. -/
def isRemote (inbox : RelId) : Option DomainId :=
  match d.routes inbox with
  | some target => if target ≠ d.id then some target else none
  | none => none

/-- Whether rows still hold. -/
def allHold (store : TraceStore) : List (RelId × Tuple) → Result Bool
  | [] => .ok true
  | (rel, t) :: rest => do
      let rows ← store.readAt rel store.current
      if rows.any fun r => 0 < r.2 ∧ r.1 = t then allHold store rest else return false

/-- The laws a patch is under, and its messages by where they go. -/
def route (schemas : SchemaCatalog) (patch : Patch) (authority : Authority) : Result Routed := do
  let checked ← checkPatch schemas noBehaviorCheck patch authority
  let home := patch.emits.filter fun m => d.isRemote m.inbox = none
  return ⟨checked.preconditions,
    checked.writes ++ (home.map fun m => (m.inbox, m.body, 1)) ++ checked.rest,
    patch.emits.filterMap fun m => (d.isRemote m.inbox).map fun target => (target, m)⟩

/-- The preconditions and updates of a routed patch whose messages draw their numbers
from a counter: an outbox row each, and the counter's advance. -/
def draft (x : Routed) (alloc : SeqAlloc) : List (RelId × Tuple) × List (RelId × Tuple × Diff) :=
  let drawn := alloc.assign x.remotes
  let advance := drawn.1.sealPatch Patch.new
  (x.preconditions ++ advance.preconditions.map fun f => (f.rel, f.tuple),
    x.updates ++ (drawn.2.map fun m => (d.outbox, outboxRow m.1 m.2.1 m.2.2, 1)) ++
      ((advance.retracts.map fun f => (f.rel, f.tuple, -1)) ++
        advance.asserts.map fun f => (f.rel, f.tuple, 1)))

/-- The rows of the outbox now. -/
def pending (store : TraceStore) : Result (List (Tuple × Diff)) :=
  store.readAt d.outbox store.current

/-- Whether a message of a sender was applied. -/
def seenHolds (store : TraceStore) (sender : DomainId) (seq : Int64) : Result Bool := do
  let rows ← store.readAt d.seen store.current
  return rows.any fun r => 0 < r.2 ∧ r.1 = seenRow sender seq

end Domain

/-- The rows another domain's message becomes: its own, and that it was seen. -/
def Message.arrival (m : Message) (seen : RelId) (sender : DomainId) (seq : Int64) :
    List (RelId × Tuple × Diff) :=
  [(m.inbox, m.body, 1), (seen, seenRow sender seq, 1)]

/-! ## What is read back -/

/-- **An envelope is read back** if its message is. -/
theorem decodeEnvelope_encode {seq : Int64} {m : Message} (hfits : messageFits m = true) :
    decodeEnvelope (encodeEnvelope seq m) = .ok (seq, m) := by
  have hlen : (toBE 8 seq.toUInt64.toNat).length = 8 := length_toBE 8 _
  have hdrop : (encodeEnvelope seq m).drop 8 = encodeMessage m := by
    exact List.drop_left' hlen
  have htake : (encodeEnvelope seq m).take 8 = toBE 8 seq.toUInt64.toNat := by
    exact List.take_left' hlen
  have hlong : ¬ (encodeEnvelope seq m).length < 8 := by
    rw [encodeEnvelope, List.length_append, hlen]
    omega
  rw [decodeEnvelope, if_neg hlong, hdrop, htake, decodeMessage_encode hfits,
    ofBE_toBE 8 _ (by have := seq.toUInt64.toNat_lt; omega), UInt64.ofNat_toNat]
  rfl

theorem encodeEnvelope_inj {seq seq' : Int64} {m m' : Message} (hfits : messageFits m = true)
    (hfits' : messageFits m' = true) (h : encodeEnvelope seq m = encodeEnvelope seq' m') :
    seq = seq' ∧ m = m' := by
  have heq := (decodeEnvelope_encode hfits).symm.trans
    ((congrArg decodeEnvelope h).trans (decodeEnvelope_encode hfits'))
  exact Prod.mk.inj (Except.ok.inj heq)

/-- A row of the outbox is read back if its inbox is of 32 bits. -/
theorem decodeOutboxRow_outboxRow {seq : Int64} {target : DomainId} {m : Message}
    (hinbox : m.inbox < 2 ^ 32) : decodeOutboxRow (outboxRow seq target m) = .ok (seq, target, m) := by
  have hrel : (Int64.ofNat m.inbox).toUInt64.toUInt32.toNat = m.inbox := by
    simp [Int64.toUInt64_ofNat']
    omega
  simp only [outboxRow, decodeOutboxRow, hrel, UInt64.toUInt64_toInt64]

/-- The number a row of the outbox carries. -/
theorem outboxRow_inj {seq seq' : Int64} {target target' : DomainId} {m m' : Message}
    (h : outboxRow seq target m = outboxRow seq' target' m') : seq = seq' := by
  simp only [outboxRow, Tuple.mk.injEq, List.cons.injEq, Value.int.injEq] at h
  exact h.1

theorem seenRow_inj {sender sender' : DomainId} {seq seq' : Int64}
    (h : seenRow sender seq = seenRow sender' seq') : sender = sender' ∧ seq = seq' := by
  simp only [seenRow, Tuple.mk.injEq, List.cons.injEq, Value.int.injEq, and_true] at h
  have hback := congrArg Int64.toUInt64 h.1
  rw [UInt64.toUInt64_toInt64, UInt64.toUInt64_toInt64] at hback
  exact ⟨hback, h.2⟩

/-- A message was seen if its row has weight. -/
theorem Domain.seenHolds_eq (d : Domain) (store : TraceStore) (sender : DomainId) (seq : Int64) :
    d.seenHolds store sender seq = .ok (decide (0 < store.weight d.seen (seenRow sender seq))) := by
  rw [seenHolds, TraceStore.readAt_current]
  show Except.ok _ = _
  congr 1
  rw [eq_comm, Bool.eq_iff_iff, decide_eq_true_eq, List.any_eq_true]
  constructor
  · exact fun hw => ⟨(_, _), TraceStore.mem_rowsAt.2 ⟨hw.ne', rfl⟩, by simpa using hw⟩
  · rintro ⟨⟨t, w⟩, hmem, hrow⟩
    obtain ⟨hpos, rfl⟩ : 0 < w ∧ t = seenRow sender seq := by simpa using hrow
    rw [(TraceStore.mem_rowsAt.1 hmem).2]
    exact hpos

end Grmpl

import Grmpl.Proc.OutboxBooks

/-!
# Every message is applied once

A message of a committed patch stays in its sender's outbox until it was sent, in
flight until it is polled, and in a receiver's hands until it is committed; who it was
sent to keeps a row for each message it applied.

* `Network.Shipped`, `Onward`: a message sent stays sent.
* `Delivery`, `delivery_step`: the invariant, and that a step keeps it.
* `messages_delivered_once`: the run.
* `message_lost`, `message_applied_twice`: a crash, and two receivers of a copy.
-/

open OrdMap Runs Numbering

namespace Grmpl

open Wire

variable {net : Net} {schemas : SchemaCatalog} {w w' : Network} {act : Network.Act}

/-! ## A message sent stays sent -/

/-- A message has left its sender: it is applied, in flight, or in a receiver's hands. -/
def Network.Shipped (w : Network) (e : Sent) : Prop :=
  e ∈ w.applied ∨ e.packet ∈ w.inFlight ∨ ∃ x ∈ w.workers, x.Holds e

/-- Nothing that was emitted or sent is taken back. -/
structure Onward (w w' : Network) : Prop where
  emitted : ∀ e ∈ w.emitted, e ∈ w'.emitted
  shipped : ∀ e ∈ w.emitted, w.Shipped e → w'.Shipped e

/-- The rows left to ship are emitted messages. -/
def Ships (w : Network) (home : DomainId) (rows : List (Tuple × Diff)) : Prop :=
  ∀ r ∈ rows, 0 < r.2 → ∃ e ∈ w.emitted, e.sender = home ∧ e.row = r.1

/-- What a worker is in the middle of is as it read it. -/
def Worker.Sound (net : Net) (w : Network) (x : Worker) : Prop :=
  match x.errand with
  | .drawn x' alloc => x'.remotes ≠ [] ∧ alloc.rel = (net.domain x.home).outseq ∧ alloc.key = [] ∧
      alloc.n = 0 ∧ (alloc.present = false → alloc.start = 0)
  | .seeding alloc => alloc.rel = (net.domain x.home).outseq ∧ alloc.key = []
  | .flushing rows => Ships w x.home rows
  | .shipped row rest => Ships w x.home rest ∧
      ∃ e ∈ w.emitted, e.sender = x.home ∧ e.row = row ∧ w.Shipped e
  | .polled sender payload => ∃ e ∈ w.emitted, e.packet = ⟨sender, x.home, payload⟩
  | .passed sender seq m => ⟨sender, seq, x.home, m⟩ ∈ w.emitted
  | _ => True

theorem Ships.mono {home : DomainId} {rows : List (Tuple × Diff)} (h : Ships w home rows)
    (hon : Onward w w') : Ships w' home rows := fun r hr hpos => by
  obtain ⟨e, he, hrow⟩ := h r hr hpos
  exact ⟨e, hon.emitted e he, hrow⟩

theorem Worker.Sound.mono {x : Worker} (h : x.Sound net w) (hon : Onward w w') : x.Sound net w' := by
  obtain ⟨home, errand⟩ := x
  cases errand with
  | idle => exact trivial
  | routed x => exact trivial
  | refused x => exact trivial
  | drawn x alloc => exact h
  | seeding alloc => exact h
  | flushing rows => exact Ships.mono (show Ships w home rows from h) hon
  | shipped row rest =>
    obtain ⟨hrest, e, he, hsender, hrow, hshipped⟩ := h
    exact ⟨hrest.mono hon, e, hon.emitted e he, hsender, hrow, hon.shipped e he hshipped⟩
  | polled sender payload =>
    obtain ⟨e, he, hp⟩ := h
    exact ⟨e, hon.emitted e he, hp⟩
  | passed sender seq m => exact hon.emitted _ h

/-- The books, what is in flight and in hand, and that no message is lost. -/
structure Delivery (net : Net) (w : Network) : Prop where
  books : Books net w
  flying : ∀ p ∈ w.inFlight, ∃ e ∈ w.emitted, e.packet = p
  sound : ∀ x ∈ w.workers, x.Sound net w
  kept : ∀ e ∈ w.emitted,
    0 < (w.stores e.sender).weight (net.domain e.sender).outbox e.row ∨ w.Shipped e

/-- A worker is the one that moves, or stays. -/
theorem mem_set_or {α : Type} {l : List α} {i : Nat} {old new x : α} (hold : l[i]? = some old)
    (hx : x ∈ l) : x = old ∨ x ∈ l.set i new := by
  obtain ⟨j, hj⟩ := List.mem_iff_getElem?.1 hx
  by_cases hij : i = j
  · subst hij
    exact .inl (Option.some.inj (hj.symm.trans hold))
  · exact .inr (List.mem_iff_getElem?.2 ⟨j, by rw [List.getElem?_set_ne hij, hj]⟩)

section Move

variable {i : Nat} {home : DomainId} {old new : Errand}

/-- One worker's move loses nothing if what it held, and what left the air, is still
somewhere. -/
theorem Onward.move (hold : w.workers[i]? = some ⟨home, old⟩)
    (hworkers : w'.workers = w.workers.set i ⟨home, new⟩)
    (hemitted : ∀ e ∈ w.emitted, e ∈ w'.emitted) (happlied : ∀ a ∈ w.applied, a ∈ w'.applied)
    (hflying : ∀ e ∈ w.emitted, e.packet ∈ w.inFlight → w'.Shipped e)
    (hheld : ∀ e ∈ w.emitted, Worker.Holds ⟨home, old⟩ e → w'.Shipped e) : Onward w w' := by
  refine ⟨hemitted, fun e he hs => ?_⟩
  rcases hs with happ | hfly | ⟨x, hx, hholds⟩
  · exact .inl (happlied e happ)
  · exact hflying e he hfly
  · rcases (mem_set_or hold hx : x = _ ∨ x ∈ w.workers.set i ⟨home, new⟩) with rfl | hx
    · exact hheld e he hholds
    · refine .inr (.inr ⟨x, ?_, hholds⟩)
      rw [hworkers]
      exact hx

/-- A worker that receives nothing holds nothing. -/
def Errand.Receives : Errand → Bool
  | .polled _ _ => true
  | .passed _ _ _ => true
  | _ => false

theorem Worker.Holds.receives {e : Sent} (h : Worker.Holds ⟨home, old⟩ e) : old.Receives = true := by
  rcases h.2 with heq | heq
  · rw [show old = _ from heq]
    rfl
  · rw [show old = _ from heq]
    rfl

theorem Delivery.soundAfter (h : Delivery net w) (hon : Onward w w')
    (hworkers : w'.workers = w.workers.set i ⟨home, new⟩) (hnew : Worker.Sound net w' ⟨home, new⟩) :
    ∀ x ∈ w'.workers, x.Sound net w' := by
  intro x hx
  rw [hworkers] at hx
  rcases List.mem_or_eq_of_mem_set hx with hx | rfl
  · exact (h.sound x hx).mono hon
  · exact hnew

/-- What a worker's move keeps: the books, what is on its way, and what it does itself. -/
theorem Delivery.moved (h : Delivery net w) (hon : Onward w w') (hbooks : Books net w')
    (hworkers : w'.workers = w.workers.set i ⟨home, new⟩) (hnew : Worker.Sound net w' ⟨home, new⟩)
    (hflying : ∀ p ∈ w'.inFlight, ∃ e ∈ w'.emitted, e.packet = p)
    (hout : ∀ e ∈ w.emitted, 0 < (w.stores e.sender).weight (net.domain e.sender).outbox e.row →
      0 < (w'.stores e.sender).weight (net.domain e.sender).outbox e.row ∨ w'.Shipped e)
    (hfresh : ∀ e ∈ w'.emitted, e ∈ w.emitted ∨
      0 < (w'.stores e.sender).weight (net.domain e.sender).outbox e.row) : Delivery net w' := by
  refine ⟨hbooks, hflying, h.soundAfter hon hworkers hnew, fun e he => ?_⟩
  rcases hfresh e he with hold | hpos
  · rcases h.kept e hold with hpos | hs
    · exact hout e hold hpos
    · exact .inr (hon.shipped e hold hs)
  · exact .inl hpos

/-- **A worker's move that commits nothing**, from an errand that holds no message. -/
theorem Delivery.turn (h : Delivery net w) (hold : w.workers[i]? = some ⟨home, old⟩)
    (hidle : old.Receives = false)
    (hnew : Onward w (w.setErrand i home new) → Worker.Sound net (w.setErrand i home new) ⟨home, new⟩) :
    Delivery net (w.setErrand i home new) := by
  have hon : Onward w (w.setErrand i home new) := by
    refine .move hold rfl (fun _ he => he) (fun _ ha => ha) (fun e _ hp => .inr (.inl hp))
      fun e _ hholds => ?_
    rw [hholds.receives] at hidle
    cases hidle
  exact h.moved hon (h.books.congr rfl rfl fun _ _ _ _ => rfl) rfl (hnew hon) h.flying
    (fun _ _ hpos => .inl hpos) fun _ he => .inl he

/-! ## Shipping -/

/-- Rows read from the outbox are emitted messages. -/
theorem Delivery.ships_pending (h : Delivery net w) {rows : List (Tuple × Diff)}
    (hrows : (net.domain home).pending (w.stores home) = .ok rows) : Ships w home rows := by
  rw [Domain.pending, TraceStore.readAt_current] at hrows
  obtain rfl := Except.ok.inj hrows
  rintro ⟨t, d⟩ hmem hpos
  refine h.books.outbox home t ?_
  rw [(TraceStore.mem_rowsAt.1 hmem).2]
  exact hpos.ne'

theorem Delivery.send (h : Delivery net w) {row : Tuple} {d : Diff} {rest : List (Tuple × Diff)}
    (hold : w.workers[i]? = some ⟨home, .flushing ((row, d) :: rest)⟩) (hd : 0 < d) {seq : Int64}
    {target : DomainId} {m : Message} (hrow : decodeOutboxRow row = .ok (seq, target, m)) :
    Delivery net { w.setErrand i home (.shipped row rest) with
      inFlight := ⟨home, target, encodeEnvelope seq m⟩ :: w.inFlight } := by
  have hships : Ships w home ((row, d) :: rest) := h.sound _ (List.mem_of_getElem? hold)
  obtain ⟨e, he, hsender, herow⟩ := hships (row, d) (by simp) hd
  dsimp only at herow
  have hfits := h.books.fits e he
  simp only [messageFits, Bool.and_eq_true, decide_eq_true_eq] at hfits
  -- what is read back from the row is the message emitted
  have hread : decodeOutboxRow (outboxRow e.seq e.target e.message) = _ :=
    decodeOutboxRow_outboxRow hfits.1.1
  rw [show outboxRow e.seq e.target e.message = row from herow, hrow] at hread
  obtain ⟨rfl, hrest⟩ := Prod.mk.inj (Except.ok.inj hread)
  obtain ⟨rfl, rfl⟩ := Prod.mk.inj hrest
  have hpacket : (⟨home, e.target, encodeEnvelope e.seq e.message⟩ : Packet) = e.packet := by
    rw [← hsender]
    rfl
  have hon : Onward w { w.setErrand i home (.shipped row rest) with
      inFlight := ⟨home, e.target, encodeEnvelope e.seq e.message⟩ :: w.inFlight } :=
    .move hold rfl (fun _ he => he) (fun _ ha => ha)
      (fun e' _ hp => .inr (.inl (List.mem_cons_of_mem _ hp)))
      fun e' _ hholds => absurd hholds.receives (by simp [Errand.Receives])
  refine h.moved hon (h.books.congr rfl rfl fun _ _ _ _ => rfl) rfl ⟨?_, e, he, hsender, herow, ?_⟩
    (fun p hp => ?_) (fun _ _ hpos => .inl hpos) fun _ he => .inl he
  · exact Ships.mono (fun r hr => hships r (List.mem_cons_of_mem _ hr)) hon
  · exact .inr (.inl (by rw [← hpacket]; exact List.mem_cons_self))
  · rcases List.mem_cons.1 hp with rfl | hp
    · exact ⟨e, he, hpacket.symm⟩
    · exact h.flying p hp

/-- A commit and a worker's move. -/
theorem Delivery.committed (h : Delivery net w) (hold : w.workers[i]? = some ⟨home, old⟩)
    (hidle : old.Receives = false) {updates : List (RelId × Tuple × Diff)}
    (hbooks : Books net (w.commitIn home updates))
    (hnew : Onward w ((w.commitIn home updates).setErrand i home new) →
      Worker.Sound net ((w.commitIn home updates).setErrand i home new) ⟨home, new⟩)
    (hout : ∀ e ∈ w.emitted, 0 < (w.stores e.sender).weight (net.domain e.sender).outbox e.row →
      0 < ((w.commitIn home updates).stores e.sender).weight (net.domain e.sender).outbox e.row ∨
        w.Shipped e) :
    Delivery net ((w.commitIn home updates).setErrand i home new) := by
  have hon : Onward w ((w.commitIn home updates).setErrand i home new) := by
    refine .move hold rfl (fun _ he => he) (fun _ ha => ha) (fun e _ hp => .inr (.inl hp))
      fun e _ hholds => ?_
    rw [hholds.receives] at hidle
    cases hidle
  refine h.moved hon (hbooks.congr rfl rfl fun _ _ _ _ => rfl) rfl (hnew hon) h.flying
    (fun e he hpos => ?_) fun _ he => .inl he
  rcases hout e he hpos with hpos | hs
  · exact .inl hpos
  · exact .inr (hon.shipped e he hs)

/-- The outbox a message is retracted from had the message, and it was sent. -/
theorem Delivery.retract (h : Delivery net w) {row : Tuple} {rest : List (Tuple × Diff)}
    (hold : w.workers[i]? = some ⟨home, .shipped row rest⟩) :
    Delivery net ((w.commitIn home [((net.domain home).outbox, row, -1)]).setErrand i home
      (.flushing rest)) := by
  obtain ⟨hrest, e, he, hsender, hrow, hshipped⟩ := h.sound _ (List.mem_of_getElem? hold)
  obtain ⟨hseq, hseen, _⟩ := net.apart home
  -- the row's own weight changes, and no other's
  have hother : ∀ d rel t, ¬ (d = home ∧ rel = (net.domain home).outbox ∧ t = row) →
      ((w.commitIn home [((net.domain home).outbox, row, -1)]).stores d).weight rel t
        = (w.stores d).weight rel t := by
    intro d rel t hne
    rw [weight_commitIn]
    by_cases hd : d = home
    · rw [if_pos hd, netOn_cons, netOn_nil, if_neg fun hc => hne ⟨hd, hc.1.symm, hc.2.symm⟩]
      simp
    · rw [if_neg hd, add_zero]
  have hbooks : Books net (w.commitIn home [((net.domain home).outbox, row, -1)]) := by
    refine ⟨h.books.numbered, h.books.room, h.books.fits, fun d => ?_, fun d t hne => ?_,
      fun d sender seq => ?_, h.books.once, h.books.known⟩
    · have hsame : ∀ u, ((w.commitIn home [((net.domain home).outbox, row, -1)]).stores d).weight
          (net.domain d).outseq (SeqAlloc.counterTuple [] u)
          = (w.stores d).weight (net.domain d).outseq (SeqAlloc.counterTuple [] u) := fun u => by
        refine hother _ _ _ fun hc => ?_
        rw [hc.1] at hc
        exact hseq hc.2.1.symm
      rcases h.books.counters d with ⟨hun, hnone⟩ | hat
      · exact .inl ⟨fun u => (hsame u).trans (hun u), hnone⟩
      · exact .inr fun u => (hsame u).trans (hat u)
    · by_cases hc : d = home ∧ (net.domain d).outbox = (net.domain home).outbox ∧ t = row
      · obtain ⟨rfl, _, rfl⟩ := hc
        exact ⟨e, he, hsender, hrow⟩
      · rw [hother d _ t hc] at hne
        exact h.books.outbox d t hne
    · rw [hother, h.books.seen]
      · rfl
      · rintro ⟨rfl, hc, _⟩
        exact hseen hc.symm
  refine h.committed hold rfl hbooks (fun hon => hrest.mono hon) fun e' he' hpos => ?_
  by_cases hc : e'.sender = home ∧ (net.domain e'.sender).outbox = (net.domain home).outbox ∧
      e'.row = row
  · have heq : e' = e := h.books.eq_of_row he' he (hc.1.trans hsender.symm) (hc.2.2.trans hrow.symm)
    rw [heq]
    exact .inr hshipped
  · rw [hother _ _ _ hc]
    exact .inl hpos

/-! ## Receiving -/

theorem Delivery.poll (h : Delivery net w) (hold : w.workers[i]? = some ⟨home, .idle⟩) {k : Nat}
    {p : Packet} (hp : w.inFlight[k]? = some p) (htarget : p.target = home) (kept : Bool) :
    Delivery net { w.setErrand i home (.polled p.sender p.payload) with
      inFlight := if kept then w.inFlight else w.inFlight.eraseIdx k } := by
  obtain ⟨e, he, hpacket⟩ := h.flying p (List.mem_of_getElem? hp)
  have hsub : ∀ q ∈ (if kept then w.inFlight else w.inFlight.eraseIdx k), q ∈ w.inFlight := by
    intro q hq
    cases kept
    · exact List.mem_of_mem_eraseIdx hq
    · exact hq
  have hon : Onward w { w.setErrand i home (.polled p.sender p.payload) with
      inFlight := if kept then w.inFlight else w.inFlight.eraseIdx k } := by
    refine .move hold rfl (fun _ he => he) (fun _ ha => ha) (fun e' _ hfly => ?_)
      fun e' _ hholds => absurd hholds.receives (by simp [Errand.Receives])
    cases kept
    · -- the packet taken out is in the worker's hands
      obtain ⟨j, hj⟩ := List.mem_iff_getElem?.1 hfly
      by_cases hjk : j = k
      · rw [hjk, hp] at hj
        obtain rfl := Option.some.inj hj
        refine .inr (.inr ⟨⟨home, .polled e'.sender (encodeEnvelope e'.seq e'.message)⟩, ?_, ?_⟩)
        · exact List.mem_set (List.getElem?_eq_some_iff.1 hold).1 _
        · exact ⟨htarget.symm, .inl rfl⟩
      · exact .inr (.inl (List.mem_eraseIdx_iff_getElem?.2 ⟨j, hjk, hj⟩))
    · exact .inr (.inl hfly)
  refine h.moved hon (h.books.congr rfl rfl fun _ _ _ _ => rfl) rfl ⟨e, he, ?_⟩
    (fun q hq => h.flying q (hsub q hq)) (fun _ _ hpos => .inl hpos) fun _ he => .inl he
  rw [hpacket, ← htarget]

/-- A receiver that gives up a message it need not keep. -/
theorem Delivery.dropped (h : Delivery net w) (hold : w.workers[i]? = some ⟨home, old⟩)
    (hheld : ∀ e ∈ w.emitted, Worker.Holds ⟨home, old⟩ e → e ∈ w.applied ∨ e.packet ∈ w.inFlight) :
    Delivery net (w.setErrand i home .idle) := by
  have hon : Onward w (w.setErrand i home .idle) := by
    refine .move hold rfl (fun _ he => he) (fun _ ha => ha) (fun e _ hp => .inr (.inl hp))
      fun e he hholds => ?_
    rcases hheld e he hholds with happ | hfly
    · exact .inl happ
    · exact .inr (.inl hfly)
  exact h.moved hon (h.books.congr rfl rfl fun _ _ _ _ => rfl) rfl trivial h.flying
    (fun _ _ hpos => .inl hpos) fun _ he => .inl he

/-- The message a receiver has polled. -/
theorem Delivery.polled_eq (h : Delivery net w) {sender : DomainId} {payload : List UInt8}
    (hold : w.workers[i]? = some ⟨home, .polled sender payload⟩) :
    ∃ e ∈ w.emitted, e.packet = ⟨sender, home, payload⟩ ∧
      ∀ e' ∈ w.emitted, Worker.Holds ⟨home, .polled sender payload⟩ e' → e' = e := by
  obtain ⟨e, he, hpacket⟩ := h.sound _ (List.mem_of_getElem? hold)
  refine ⟨e, he, hpacket, fun e' he' hholds => h.books.eq_of_packet he' he ?_⟩
  obtain ⟨htarget, heq | heq⟩ := hholds
  · obtain ⟨hsender, hpayload⟩ := Errand.polled.inj heq
    rw [hpacket, Sent.packet, ← hsender, ← hpayload, ← show home = e'.target from htarget]
  · cases heq

/-- The message a receiver has found unseen. -/
theorem Delivery.passed_eq {sender : DomainId} {seq : Int64} {m : Message} {e : Sent}
    (hholds : Worker.Holds ⟨home, .passed sender seq m⟩ e) : e = ⟨sender, seq, home, m⟩ := by
  obtain ⟨htarget, heq | heq⟩ := hholds
  · cases heq
  · obtain ⟨hsender, hseq, hm⟩ := Errand.passed.inj heq
    obtain ⟨sender', seq', target', m'⟩ := e
    dsimp only at htarget hsender hseq hm
    rw [hsender, hseq, hm, htarget]

theorem Delivery.check (h : Delivery net w) {sender : DomainId} {payload : List UInt8}
    (hold : w.workers[i]? = some ⟨home, .polled sender payload⟩)
    (hst : Network.step net schemas w (.check i) = some w') : Delivery net w' := by
  obtain ⟨e, he, hpacket, honly⟩ := h.polled_eq hold
  obtain ⟨hsender, htarget, hpayload⟩ := Packet.mk.inj hpacket
  have hdecode : decodeEnvelope payload = .ok (e.seq, e.message) := by
    rw [← hpayload]
    exact decodeEnvelope_encode (h.books.fits e he)
  simp only [Network.step, hold, hdecode, Domain.seenHolds_eq] at hst
  by_cases hseen : 0 < (w.stores home).weight (net.domain home).seen (seenRow sender e.seq)
  · simp only [hseen, decide_true, Option.some.injEq] at hst
    subst hst
    refine h.dropped hold fun e' he' hholds => .inl ?_
    rw [honly e' he' hholds]
    refine h.books.applied_of_seen he ?_
    rw [htarget, hsender]
    exact hseen
  · simp only [hseen, decide_false, Option.some.injEq] at hst
    subst hst
    have heq : (⟨sender, e.seq, home, e.message⟩ : Sent) = e := by rw [← hsender, ← htarget]
    have hon : Onward w (w.setErrand i home (.passed sender e.seq e.message)) := by
      refine .move hold rfl (fun _ he => he) (fun _ ha => ha) (fun e' _ hp => .inr (.inl hp))
        fun e' he' hholds => ?_
      rw [honly e' he' hholds]
      refine .inr (.inr ⟨⟨home, .passed sender e.seq e.message⟩, ?_, htarget.symm, .inr ?_⟩)
      · exact List.mem_set (List.getElem?_eq_some_iff.1 hold).1 _
      · show Errand.passed _ _ _ = Errand.passed _ _ _
        rw [hsender]
    refine h.moved hon (h.books.congr rfl rfl fun _ _ _ _ => rfl) rfl ?_ h.flying
      (fun _ _ hpos => .inl hpos) fun _ he => .inl he
    show (⟨sender, e.seq, home, e.message⟩ : Sent) ∈ w.emitted
    rw [heq]
    exact he

theorem Delivery.apply (h : Delivery net w) {sender : DomainId} {seq : Int64} {m : Message}
    (hold : w.workers[i]? = some ⟨home, .passed sender seq m⟩)
    (hunseen : ¬ 0 < (w.stores home).weight (net.domain home).seen (seenRow sender seq))
    (hbooks : m.inbox ≠ (net.domain home).outbox ∧ m.inbox ≠ (net.domain home).outseq ∧
      m.inbox ≠ (net.domain home).seen) :
    Delivery net { (w.commitIn home (m.arrival (net.domain home).seen sender seq)).setErrand i home .idle with
      applied := w.applied ++ [⟨sender, seq, home, m⟩] } := by
  have hemitted : (⟨sender, seq, home, m⟩ : Sent) ∈ w.emitted := h.sound _ (List.mem_of_getElem? hold)
  have hon : Onward w { (w.commitIn home (m.arrival (net.domain home).seen sender seq)).setErrand i home
      .idle with applied := w.applied ++ [⟨sender, seq, home, m⟩] } := by
    refine .move hold rfl (fun _ he => he) (fun _ ha => List.mem_append_left _ ha)
      (fun e _ hp => .inr (.inl hp)) fun e _ hholds => .inl ?_
    rw [Delivery.passed_eq hholds]
    exact List.mem_append_right _ List.mem_cons_self
  refine h.moved hon ((h.books.apply hemitted hunseen hbooks).congr rfl rfl fun _ _ _ _ => rfl) rfl
    trivial h.flying (fun e _ hpos => .inl ?_) fun _ he => .inl he
  -- an arrival writes no outbox
  show 0 < ((w.commitIn home _).stores e.sender).weight _ _
  rw [weight_commitIn]
  by_cases hd : e.sender = home
  · rw [if_pos hd, Message.arrival, netOn_cons, netOn_cons, netOn_nil, if_neg, if_neg]
    · simpa using hpos
    · rw [hd]
      exact fun hc => (net.apart home).2.1 hc.1.symm
    · rw [hd]
      exact fun hc => hbooks.1 hc.1
  · rw [if_neg hd, add_zero]
    exact hpos

end Move

/-! ## A step -/

section Step

variable {i : Nat} {home : DomainId}

/-- The guard of a draft is the counter row it read. -/
theorem mem_draft_preconditions {x : Routed} {alloc : SeqAlloc} (hn : alloc.n = 0)
    (hnil : x.remotes ≠ []) (hlt : x.remotes.length < 2 ^ 63) (hpres : alloc.present = true) :
    (alloc.rel, SeqAlloc.counterTuple alloc.key alloc.start) ∈ ((net.domain home).draft x alloc).1 := by
  obtain ⟨halloc, _, _⟩ := SeqAlloc.assign_eq x.remotes alloc
  have hmem := SeqAlloc.mem_preconditions_sealPatch (p := Patch.new)
    (SeqAlloc.assign_ne_zero hn hnil hlt) (by rw [halloc]; exact hpres)
  rw [Domain.draft]
  refine List.mem_append_right _ (List.mem_map.2 ⟨_, hmem, ?_⟩)
  rw [halloc]

theorem Delivery.emit (h : Delivery net w) {x : Routed} {alloc : SeqAlloc}
    (hold : w.workers[i]? = some ⟨home, .drawn x alloc⟩) {store : TraceStore}
    (hcommit : (w.stores home).commitIf ((net.domain home).draft x alloc).1
      ((net.domain home).draft x alloc).2 = some store)
    (hs : net.Spared home x.updates)
    (hnow : alloc.present = true ∨ CounterAbsent (w.stores home) (net.domain home).outseq [])
    (hroom : w.sentBy home + x.remotes.length < 2 ^ 63)
    (hfits : ∀ m ∈ x.remotes, messageFits m.2 = true) :
    Delivery net { (w.commitIn home ((net.domain home).draft x alloc).2).setErrand i home .idle with
      emitted := w.emitted ++ Domain.sends home x alloc } := by
  obtain ⟨hnil, hrel, hkey, hn, hread⟩ := h.sound _ (List.mem_of_getElem? hold)
  obtain ⟨hpre, _⟩ := TraceStore.commitIf_eq_some.1 hcommit
  dsimp only at hrel
  have hcounter : Uncounted (w.stores home) alloc.rel alloc.key ∧ w.sentBy home = 0 ∨
      CounterAt (w.stores home) alloc.rel alloc.key (Int64.ofNat (w.sentBy home)) := by
    rw [hrel, hkey]
    rcases h.books.counters home with ⟨hun, hnone⟩ | hat
    · refine .inl ⟨hun, List.length_eq_zero_iff.2 (List.filter_eq_nil_iff.2 fun e he => ?_)⟩
      simpa using hnone e he
    · exact .inr hat
  obtain ⟨hcur, hstart⟩ := SeqAlloc.current_of_read hcounter hread (by rw [hrel, hkey]; exact hnow)
    fun hpres => hpre _ (mem_draft_preconditions hn hnil (by omega) hpres)
  have hon : Onward w { (w.commitIn home ((net.domain home).draft x alloc).2).setErrand i home .idle with
      emitted := w.emitted ++ Domain.sends home x alloc } :=
    .move hold rfl (fun _ he => List.mem_append_left _ he) (fun _ ha => ha)
      (fun e _ hp => .inr (.inl hp)) fun e _ hholds => absurd hholds.receives (by simp [Errand.Receives])
  refine h.moved hon ((h.books.emit hs hrel hkey hn hnil hroom hfits hcur hstart).congr rfl rfl
    fun _ _ _ _ => rfl) rfl trivial (fun p hp => ?_) (fun e _ hpos => .inl ?_) fun e he => ?_
  · obtain ⟨e, he, hpacket⟩ := h.flying p hp
    exact ⟨e, List.mem_append_left _ he, hpacket⟩
  · -- a draft takes no row out of an outbox
    show 0 < ((w.commitIn home _).stores e.sender).weight _ _
    rw [weight_outbox_draft hs hrel]
    split_ifs
    · exact add_pos_of_pos_of_nonneg hpos (Int.natCast_nonneg _)
    · exact add_pos_of_pos_of_nonneg hpos le_rfl
  · rcases List.mem_append.1 he with he | he
    · exact .inl he
    · refine .inr ?_
      rw [sends_sender e he]
      exact h.books.weight_fresh hs hrel hn hroom hstart he

/-- A commit outside the outbox keeps what is pending there. -/
theorem pending_commitIn {updates : List (RelId × Tuple × Diff)}
    (hnet : ∀ t, netOn (net.domain home).outbox t updates = 0) (e : Sent)
    (hpos : 0 < (w.stores e.sender).weight (net.domain e.sender).outbox e.row) :
    0 < ((w.commitIn home updates).stores e.sender).weight (net.domain e.sender).outbox e.row := by
  rw [weight_commitIn]
  by_cases hd : e.sender = home
  · rw [if_pos hd, hd, hnet, add_zero, ← hd]
    exact hpos
  · rw [if_neg hd, add_zero]
    exact hpos

/-- **A step keeps the invariant.** -/
theorem delivery_step (h : Delivery net w) (hok : KeepsDelivery net w act)
    (hst : Network.step net schemas w act = some w') : Delivery net w' := by
  cases act with
  | submit i patch authority =>
    simp only [Network.step] at hst
    split at hst
    · rename_i home hold
      split at hst
      · cases hst
        exact h.turn hold rfl fun _ => trivial
      · cases hst
        exact h
    · cases hst
  | draw i =>
    simp only [Network.step] at hst
    split at hst
    · rename_i home x hold
      split at hst
      · cases hst
      · rename_i hnil
        split at hst
        · rename_i alloc hread
          cases hst
          exact h.turn hold rfl fun _ => ⟨hnil, SeqAlloc.read_ok hread⟩
        · cases hst
          exact h.turn hold rfl fun _ => trivial
    · cases hst
  | commit i =>
    simp only [Network.step] at hst
    split at hst
    · rename_i home x hold
      simp only [KeepsDelivery, hold] at hok
      split at hst
      · split at hst
        · cases hst
          exact h.committed hold rfl (h.books.spared hok) (fun _ => trivial) fun e _ hpos =>
            .inl (pending_commitIn (fun t => hok.netOn (.inl rfl) t) e hpos)
        · cases hst
          exact h.turn hold rfl fun _ => trivial
      · cases hst
    · rename_i home x alloc hold
      simp only [KeepsDelivery, hold] at hok
      obtain ⟨hs, hnow, hroom, hfits⟩ := hok
      split at hst
      · rename_i store hcommit
        cases hst
        exact h.emit hold hcommit hs hnow hroom hfits
      · cases hst
        exact h.turn hold rfl fun _ => trivial
    · rename_i home alloc hold
      simp only [KeepsDelivery, hold] at hok
      obtain ⟨hrel, hkey⟩ := h.sound _ (List.mem_of_getElem? hold)
      split at hst
      · cases hst
        exact h.turn hold rfl fun _ => trivial
      · rename_i hpres
        cases hst
        have habs : CounterAbsent (w.stores home) (net.domain home).outseq [] := hok.resolve_left hpres
        refine h.committed hold rfl (h.books.seed hrel hkey habs) (fun _ => trivial) fun e _ hpos =>
          .inl (pending_commitIn (fun t => ?_) e hpos)
        rw [netOn_cons, netOn_nil, show alloc.rel = _ from hrel,
          if_neg fun hc => (net.apart home).1 hc.1.symm]
        rfl
    · cases hst
  | settle i =>
    simp only [Network.step] at hst
    split at hst
    · rename_i home x hold
      split at hst
      · cases hst
        exact h.turn hold rfl fun _ => trivial
      · cases hst
        exact h.turn hold rfl fun _ => trivial
    · cases hst
  | seed i =>
    simp only [Network.step] at hst
    split at hst
    · rename_i home hold
      split at hst
      · rename_i alloc hread
        cases hst
        obtain ⟨hrel, hkey, _⟩ := SeqAlloc.read_ok hread
        exact h.turn hold rfl fun _ => ⟨hrel, hkey⟩
      · cases hst
        exact h
    · cases hst
  | flush i =>
    simp only [Network.step] at hst
    split at hst
    · rename_i home hold
      split at hst
      · rename_i rows hrows
        cases hst
        exact h.turn hold rfl fun hon => Ships.mono (h.ships_pending hrows) hon
      · cases hst
        exact h
    · cases hst
  | send i taken =>
    simp only [Network.step] at hst
    split at hst
    · rename_i home hold
      cases hst
      exact h.turn hold rfl fun _ => trivial
    · rename_i home row d rest hold
      have hships : Ships w home ((row, d) :: rest) := h.sound _ (List.mem_of_getElem? hold)
      split at hst
      · cases hst
        exact h.turn hold rfl fun hon =>
          Ships.mono (fun r hr => hships r (List.mem_cons_of_mem _ hr)) hon
      · rename_i hd
        split at hst
        · rename_i seq target m hrow
          cases taken with
          | true =>
            cases hst
            exact h.send hold (not_le.1 hd) hrow
          | false =>
            cases hst
            exact h.turn hold rfl fun _ => trivial
        · cases hst
          exact h.turn hold rfl fun _ => trivial
    · cases hst
  | retract i =>
    simp only [Network.step] at hst
    split at hst
    · rename_i home row rest hold
      cases hst
      exact h.retract hold
    · cases hst
  | poll i k kept =>
    simp only [Network.step] at hst
    split at hst
    · rename_i home hold
      split at hst
      · rename_i p hp
        split at hst
        · rename_i htarget
          cases hst
          exact h.poll hold hp htarget kept
        · cases hst
      · cases hst
    · cases hst
  | check i =>
    have hst' := hst
    simp only [Network.step] at hst'
    split at hst'
    · rename_i home sender payload hold
      exact h.check hold hst
    · cases hst'
  | apply i =>
    simp only [Network.step] at hst
    split at hst
    · rename_i home sender seq m hold
      simp only [KeepsDelivery, hold] at hok
      cases hst
      exact h.apply hold hok.1 hok.2
    · cases hst
  | crash i =>
    simp only [Network.step] at hst
    split at hst
    · rename_i home old hold
      cases hst
      refine h.dropped hold fun e _ hholds => .inr ?_
      obtain ⟨htarget, hheld⟩ := hholds
      rcases hheld with heq | heq
      · obtain rfl : old = _ := heq
        simp only [KeepsDelivery, hold] at hok
        rw [Sent.packet, ← show home = e.target from htarget]
        exact hok
      · obtain rfl : old = _ := heq
        simp only [KeepsDelivery, hold] at hok
        rw [Sent.packet, ← show home = e.target from htarget]
        exact hok
    · cases hst
  | other home updates =>
    cases hst
    have hspared : net.Spared home updates := hok
    refine ⟨h.books.spared hspared, h.flying, fun x hx => ?_, fun e he => ?_⟩
    · exact (h.sound x hx).mono ⟨fun _ he => he, fun _ _ hs => hs⟩
    · rcases h.kept e he with hpos | hs
      · exact .inl (pending_commitIn (fun t => hspared.netOn (.inl rfl) t) e hpos)
      · exact .inr hs

end Step

/-! ## The run -/

/-- Nothing done yet, by workers of these domains. -/
def Network.opened (stores : DomainId → TraceStore) (homes : List DomainId) : Network where
  stores := stores
  workers := homes.map fun home => ⟨home, .idle⟩
  inFlight := []
  emitted := []
  applied := []

theorem delivery_opened {stores : DomainId → TraceStore}
    (hfresh : ∀ d t, (stores d).weight (net.domain d).outbox t = 0 ∧
      (stores d).weight (net.domain d).outseq t = 0 ∧ (stores d).weight (net.domain d).seen t = 0)
    (homes : List DomainId) : Delivery net (Network.opened stores homes) := by
  refine ⟨⟨numbered_nil, fun _ => Nat.two_pow_pos 63, fun e he => ?_, fun d => ?_, fun d t hne => ?_,
    fun d sender seq => (hfresh d _).2.2, fun _ _ _ => Nat.zero_le _, fun a ha => ?_⟩, fun p hp => ?_,
    fun x hx => ?_, fun e he => ?_⟩
  · exact absurd he (by simp [Network.opened])
  · exact .inl ⟨fun u => (hfresh d _).2.1, fun e he => absurd he (by simp [Network.opened])⟩
  · exact absurd (hfresh d t).1 hne
  · exact absurd ha (by simp [Network.opened])
  · exact absurd hp (by simp [Network.opened])
  · obtain ⟨home, _, rfl⟩ := List.mem_map.1 hx
    exact trivial
  · exact absurd he (by simp [Network.opened])

theorem Delivery.deliveredOnce (h : Delivery net w) : DeliveredOnce net w := by
  refine ⟨h.books.known, h.books.numbered.nodup_log fun d => injOn_ofNat (h.books.room d),
    h.books.count_le_one, fun e he => ?_⟩
  rcases h.kept e he with hpos | happ | hfly | hheld
  · exact .inr (.inl hpos)
  · exact .inl (le_antisymm (h.books.count_le_one e) (List.count_pos_iff.2 happ))
  · exact .inr (.inr (.inl hfly))
  · exact .inr (.inr (.inr hheld))

/-- **Cross-domain delivery is exactly once**, in every run where no crash falls between
a poll and its commit and every message is unseen at its commit. -/
theorem messages_delivered_once {stores : DomainId → TraceStore}
    (hfresh : ∀ d t, (stores d).weight (net.domain d).outbox t = 0 ∧
      (stores d).weight (net.domain d).outseq t = 0 ∧ (stores d).weight (net.domain d).seen t = 0)
    (homes : List DomainId)
    (hrun : Run (Network.step net schemas) (KeepsDelivery net) (Network.opened stores homes) w) :
    DeliveredOnce net w :=
  (hrun.invariant (I := Delivery net) (delivery_opened hfresh homes)
    fun _ _ _ h hok hst => delivery_step h hok hst).deliveredOnce

/-! ## A crash, and a copy -/

/-- Every domain sends what is for inbox 10 to domain 2. -/
def sampleNet : Net where
  domain := fun i => ⟨i, fun rel => if rel = 10 then some 2 else none, 90, 91, 92⟩
  id_eq := fun _ => rfl
  apart := fun _ => (by decide : (90 : Nat) ≠ 91 ∧ (90 : Nat) ≠ 92 ∧ (91 : Nat) ≠ 92)

def wave : Message := ⟨10, ⟨[.text "wave"]⟩⟩

def sampleOpened : Network := Network.opened (fun _ => TraceStore.empty) [1, 2, 2]

/-- Domain 1 commits a message to domain 2 and ships it. -/
def shipWave : List Network.Act :=
  [.seed 0, .commit 0, .submit 0 (Patch.new.emit wave) ⟨1, []⟩, .draw 0, .commit 0, .flush 0,
    .send 0 true, .retract 0, .send 0 true]

/-- The receiver crashes with the message polled. -/
def crashReceiving : List Network.Act := shipWave ++ [.poll 1 0 false, .crash 1]

/-- The transport gives the message twice, to two receivers that both look before either
commits. -/
def receiveTwice : List Network.Act :=
  shipWave ++ [.poll 1 0 true, .poll 2 0 false, .check 1, .check 2, .apply 1, .apply 2]

/-- A message polled by a receiver that crashes is nowhere any more. -/
theorem message_lost : ∃ w, Run (Network.step sampleNet noSchemas) Any sampleOpened w ∧
    w.emitted = [⟨1, 0, 2, wave⟩] ∧ w.applied = [] ∧ ¬ DeliveredOnce sampleNet w := by
  have hex : (execute (Network.step sampleNet noSchemas) sampleOpened crashReceiving).isSome = true := by
    decide +kernel
  have hemitted : (after (Network.step sampleNet noSchemas) sampleOpened crashReceiving).emitted
      = [⟨1, 0, 2, wave⟩] := by decide +kernel
  have happlied : (after (Network.step sampleNet noSchemas) sampleOpened crashReceiving).applied = [] := by
    decide +kernel
  have hidle : ((after (Network.step sampleNet noSchemas) sampleOpened crashReceiving).workers.any
      fun x => x.errand.Receives) = false := by decide +kernel
  refine ⟨_, .after hex, hemitted, happlied, fun hone => ?_⟩
  rcases hone.kept ⟨1, 0, 2, wave⟩ (by rw [hemitted]; exact List.mem_cons_self) with
    hcount | hout | hfly | ⟨x, hx, hholds⟩
  · rw [happlied] at hcount
    exact absurd hcount (by decide)
  · exact absurd hout (by decide +kernel)
  · exact absurd hfly (by decide +kernel)
  · have hreceives : x.errand.Receives = true := (show Worker.Holds ⟨x.home, x.errand⟩ _ from hholds).receives
    rw [List.any_eq_false] at hidle
    exact hidle x hx hreceives

theorem message_applied_twice : ∃ w, Run (Network.step sampleNet noSchemas) Any sampleOpened w ∧
    w.applied = [⟨1, 0, 2, wave⟩, ⟨1, 0, 2, wave⟩] ∧
      (w.stores 2).weight 10 wave.body = 2 ∧ ¬ DeliveredOnce sampleNet w := by
  have hex : (execute (Network.step sampleNet noSchemas) sampleOpened receiveTwice).isSome = true := by
    decide +kernel
  have happlied : (after (Network.step sampleNet noSchemas) sampleOpened receiveTwice).applied
      = [⟨1, 0, 2, wave⟩, ⟨1, 0, 2, wave⟩] := by decide +kernel
  refine ⟨_, .after hex, happlied, by decide +kernel, fun hone => ?_⟩
  have hcount := hone.once ⟨1, 0, 2, wave⟩
  rw [happlied] at hcount
  exact absurd hcount (by decide)

/-- **A message is lost, and one is applied twice**: neither needs more than one crash or
one copy. -/
theorem delivery_not_once :
    (∃ w, Run (Network.step sampleNet noSchemas) Any sampleOpened w ∧
        w.emitted = [⟨1, 0, 2, wave⟩] ∧ w.applied = [] ∧ ¬ DeliveredOnce sampleNet w) ∧
      ∃ w, Run (Network.step sampleNet noSchemas) Any sampleOpened w ∧
        w.applied = [⟨1, 0, 2, wave⟩, ⟨1, 0, 2, wave⟩] ∧
          (w.stores 2).weight 10 wave.body = 2 ∧ ¬ DeliveredOnce sampleNet w :=
  ⟨message_lost, message_applied_twice⟩

/-- A message shipped, a copy kept, one receiver crashing while the copy is there, and
the copy received. -/
def receiveCopy : List Network.Act :=
  shipWave ++ [.poll 1 0 true, .crash 1, .poll 2 0 true, .check 2, .apply 2, .poll 1 0 false, .check 1]

theorem messages_delivered_once_sample : ∃ w,
    Run (Network.step sampleNet noSchemas) (KeepsDelivery sampleNet) sampleOpened w ∧
      w.applied = [⟨1, 0, 2, wave⟩] ∧ DeliveredOnce sampleNet w := by
  have hex : (executeChecked (Network.step sampleNet noSchemas)
      (fun w a => decide (KeepsDelivery sampleNet w a)) sampleOpened receiveCopy).isSome = true := by
    decide +kernel
  have hrun : Run (Network.step sampleNet noSchemas) (KeepsDelivery sampleNet) sampleOpened _ :=
    Run.afterChecked (by simp) hex
  exact ⟨_, hrun, by decide +kernel, messages_delivered_once (fun _ _ => ⟨rfl, rfl, rfl⟩) [1, 2, 2] hrun⟩

end Grmpl

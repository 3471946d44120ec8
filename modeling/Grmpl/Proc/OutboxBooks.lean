import Grmpl.Proc.Append
import Grmpl.Proc.Delivery

/-!
# What the stores hold of the messages

The outbox of a domain holds messages it emitted and no other row, its counter how many
they are, and its rows of what was seen the messages applied there. Each commit of a
domain keeps these books.

* `Books`: the invariant of the stores.
* `Books.unique`, `Books.eq_of_packet`: a number, or a packet, names one message.
* `Books.spared`, `Books.seed`, `Books.emit`, `Books.apply`: the commits.
-/

open OrdMap Numbering

namespace Grmpl

open Wire

variable {net : Net} {w w' : Network} {home : DomainId}

/-! ## The invariant -/

/-- Messages are numbered by their senders; the outbox holds emitted messages only; the
counter holds how many were emitted; the rows of what was seen count what was applied. -/
structure Books (net : Net) (w : Network) : Prop where
  numbered : Numbered Sent.sender Sent.seq Int64.ofNat w.emitted
  room : ∀ home, w.sentBy home < 2 ^ 63
  fits : ∀ e ∈ w.emitted, messageFits e.message = true
  counters : ∀ home, Uncounted (w.stores home) (net.domain home).outseq [] ∧
      (∀ e ∈ w.emitted, e.sender ≠ home) ∨
    CounterAt (w.stores home) (net.domain home).outseq [] (Int64.ofNat (w.sentBy home))
  outbox : ∀ home t, (w.stores home).weight (net.domain home).outbox t ≠ 0 →
    ∃ e ∈ w.emitted, e.sender = home ∧ e.row = t
  seen : ∀ home sender seq, (w.stores home).weight (net.domain home).seen (seenRow sender seq)
    = (w.applied.countP fun a => a.target = home ∧ a.sender = sender ∧ a.seq = seq : Nat)
  once : ∀ home sender seq,
    w.applied.countP (fun a => a.target = home ∧ a.sender = sender ∧ a.seq = seq) ≤ 1
  known : ∀ a ∈ w.applied, a ∈ w.emitted

/-- A domain's number names one message. -/
theorem Books.unique (h : Books net w) {e e' : Sent} (he : e ∈ w.emitted) (he' : e' ∈ w.emitted)
    (hsender : e.sender = e'.sender) (hseq : e.seq = e'.seq) : e = e' :=
  h.numbered.eq_of_number_eq (injOn_ofNat (h.room e'.sender)) (mem_ofStream.2 ⟨he, hsender⟩)
    (mem_ofStream.2 ⟨he', rfl⟩) hseq

theorem Books.eq_of_row (h : Books net w) {e e' : Sent} (he : e ∈ w.emitted) (he' : e' ∈ w.emitted)
    (hsender : e.sender = e'.sender) (hrow : e.row = e'.row) : e = e' :=
  h.unique he he' hsender (outboxRow_inj hrow)

theorem Books.eq_of_packet (h : Books net w) {e e' : Sent} (he : e ∈ w.emitted)
    (he' : e' ∈ w.emitted) (hp : e.packet = e'.packet) : e = e' := by
  have hsender : e.sender = e'.sender := congrArg Packet.sender hp
  have hpayload := congrArg Packet.payload hp
  exact h.unique he he' hsender (encodeEnvelope_inj (h.fits e he) (h.fits e' he') hpayload).1

/-- Only the books matter to them. -/
theorem Books.congr (h : Books net w) (hemitted : w'.emitted = w.emitted)
    (happlied : w'.applied = w.applied)
    (hweight : ∀ home rel t, rel = (net.domain home).outbox ∨ rel = (net.domain home).outseq ∨
      rel = (net.domain home).seen → (w'.stores home).weight rel t = (w.stores home).weight rel t) :
    Books net w' := by
  have hsent : ∀ home, w'.sentBy home = w.sentBy home := fun home => by
    rw [Network.sentBy, hemitted]
    rfl
  refine ⟨?_, fun home => ?_, ?_, fun home => ?_, fun home t => ?_, fun home sender seq => ?_, ?_, ?_⟩
  · rw [hemitted]
    exact h.numbered
  · rw [hsent]
    exact h.room home
  · rw [hemitted]
    exact h.fits
  · rw [hsent, hemitted]
    rcases h.counters home with ⟨hun, hnone⟩ | hat
    · exact .inl ⟨fun u => (hweight home _ _ (.inr (.inl rfl))).trans (hun u), hnone⟩
    · exact .inr fun u => (hweight home _ _ (.inr (.inl rfl))).trans (hat u)
  · rw [hweight home _ _ (.inl rfl), hemitted]
    exact h.outbox home t
  · rw [hweight home _ _ (.inr (.inr rfl)), happlied]
    exact h.seen home sender seq
  · rw [happlied]
    exact h.once
  · rw [happlied, hemitted]
    exact h.known

/-- A commit is made in one domain. -/
theorem weight_commitIn (home : DomainId) (updates : List (RelId × Tuple × Diff)) (d : DomainId)
    (rel : RelId) (t : Tuple) : ((w.commitIn home updates).stores d).weight rel t
      = (w.stores d).weight rel t + if d = home then netOn rel t updates else 0 := by
  show (Function.update w.stores home _ d).weight rel t = _
  by_cases hd : d = home
  · subst hd
    rw [Function.update_self, TraceStore.weight_commit, if_pos rfl]
  · rw [Function.update_of_ne hd, if_neg hd, add_zero]

/-- Updates that leave the books alone sum to nothing on them. -/
theorem Net.Spared.netOn {home : DomainId} {updates : List (RelId × Tuple × Diff)}
    (h : net.Spared home updates) {rel : RelId} (hrel : rel = (net.domain home).outbox ∨
      rel = (net.domain home).outseq ∨ rel = (net.domain home).seen) (t : Tuple) :
    netOn rel t updates = 0 := by
  refine netOn_eq_zero fun u hu hut => ?_
  obtain ⟨hout, hseq, hseen⟩ := h u hu
  rw [hut.1] at hout hseq hseen
  rcases hrel with hrel | hrel | hrel
  · exact hout hrel
  · exact hseq hrel
  · exact hseen hrel

theorem Books.spared (h : Books net w) {home : DomainId} {updates : List (RelId × Tuple × Diff)}
    (hs : net.Spared home updates) : Books net (w.commitIn home updates) := by
  refine h.congr rfl rfl fun d rel t hrel => ?_
  rw [weight_commitIn]
  by_cases hd : d = home
  · subst hd
    rw [if_pos rfl, hs.netOn hrel, add_zero]
  · rw [if_neg hd, add_zero]

/-- A message whose row was seen was applied. -/
theorem Books.applied_of_seen (h : Books net w) {e : Sent} (he : e ∈ w.emitted)
    (hseen : 0 < (w.stores e.target).weight (net.domain e.target).seen (seenRow e.sender e.seq)) :
    e ∈ w.applied := by
  rw [h.seen] at hseen
  obtain ⟨a, ha, heq⟩ := List.countP_pos_iff.1 (Int.natCast_pos.1 hseen)
  obtain ⟨_, hsender, hseq⟩ : a.target = e.target ∧ a.sender = e.sender ∧ a.seq = e.seq := by
    simpa using heq
  rw [← h.unique (h.known a ha) he hsender hseq]
  exact ha

/-- No message is applied twice. -/
theorem Books.count_le_one (h : Books net w) (e : Sent) : w.applied.count e ≤ 1 := by
  refine le_trans ?_ (h.once e.target e.sender e.seq)
  rw [List.count]
  refine List.countP_mono_left fun a _ ha => ?_
  rw [eq_of_beq ha]
  simp

/-! ## The commits -/

/-- The first row of the outbox's counter. -/
theorem Books.seed (h : Books net w) {alloc : SeqAlloc} (hrel : alloc.rel = (net.domain home).outseq)
    (hkey : alloc.key = [])
    (habs : CounterAbsent (w.stores home) (net.domain home).outseq []) :
    Books net (w.commitIn home [(alloc.rel, SeqAlloc.counterTuple alloc.key 0, 1)]) := by
  obtain ⟨houtseq, _, hseqseen⟩ := net.apart home
  have hother : ∀ d rel t, ¬ (d = home ∧ rel = (net.domain home).outseq) →
      ((w.commitIn home [(alloc.rel, SeqAlloc.counterTuple alloc.key 0, 1)]).stores d).weight rel t
        = (w.stores d).weight rel t := by
    intro d rel t hne
    rw [weight_commitIn]
    by_cases hd : d = home
    · rw [if_pos hd, netOn_cons, netOn_nil, hrel, if_neg fun hc => hne ⟨hd, hc.1.symm⟩]
      simp
    · rw [if_neg hd, add_zero]
  refine ⟨h.numbered, h.room, h.fits, fun d => ?_, fun d t => ?_, fun d sender seq => ?_, h.once, h.known⟩
  · by_cases hd : d = home
    · subst hd
      rcases h.counters d with ⟨hun, hnone⟩ | hat
      · -- nothing was emitted, so the counter starts where it should
        have hzero : w.sentBy d = 0 :=
          List.length_eq_zero_iff.2 (List.filter_eq_nil_iff.2 fun e he => by simpa using hnone e he)
        refine .inr fun u => ?_
        show ((w.commitIn d _).stores d).weight _ _ = if u = Int64.ofNat (w.sentBy d) then 1 else 0
        rw [weight_commitIn, if_pos rfl, hun u, hzero, netOn_cons, netOn_nil, hrel, hkey]
        have hmoved : SeqAlloc.counterTuple [] 0 = SeqAlloc.counterTuple [] u ↔ u = 0 :=
          ⟨fun heq => (SeqAlloc.counterTuple_inj heq).2.symm, fun heq => by rw [heq]⟩
        simp [hmoved]
      · exact absurd habs (SeqAlloc.not_absent_of_at hat)
    · rcases h.counters d with ⟨hun, hnone⟩ | hat
      · exact .inl ⟨fun u => (hother d _ _ fun hc => hd hc.1).trans (hun u), hnone⟩
      · exact .inr fun u => (hother d _ _ fun hc => hd hc.1).trans (hat u)
  · rw [hother d _ t]
    · exact h.outbox d t
    · rintro ⟨rfl, hc⟩
      exact houtseq hc
  · rw [hother d, h.seen]
    · rfl
    · rintro ⟨rfl, hc⟩
      exact hseqseen hc.symm

/-- The books after a message was applied that was unseen. -/
theorem Books.apply (h : Books net w) {sender : DomainId} {seq : Int64} {m : Message}
    (hemitted : ⟨sender, seq, home, m⟩ ∈ w.emitted)
    (hunseen : ¬ 0 < (w.stores home).weight (net.domain home).seen (seenRow sender seq))
    (hbooks : m.inbox ≠ (net.domain home).outbox ∧ m.inbox ≠ (net.domain home).outseq ∧
      m.inbox ≠ (net.domain home).seen) :
    Books net { (w.commitIn home (m.arrival (net.domain home).seen sender seq)) with
      applied := w.applied ++ [⟨sender, seq, home, m⟩] } := by
  obtain ⟨hout, hseq, hseen⟩ := hbooks
  obtain ⟨_, houtseen, hseqseen⟩ := net.apart home
  have hsame : ∀ d rel t, rel = (net.domain d).outbox ∨ rel = (net.domain d).outseq →
      ((w.commitIn home (m.arrival (net.domain home).seen sender seq)).stores d).weight rel t
        = (w.stores d).weight rel t := by
    intro d rel t hrel
    rw [weight_commitIn]
    by_cases hd : d = home
    · subst hd
      rw [if_pos rfl, Message.arrival, netOn_cons, netOn_cons, netOn_nil, if_neg, if_neg]
      · simp
      · rintro ⟨rfl, _⟩
        rcases hrel with hrel | hrel
        · exact houtseen hrel.symm
        · exact hseqseen hrel.symm
      · rintro ⟨rfl, _⟩
        rcases hrel with hrel | hrel
        · exact hout hrel
        · exact hseq hrel
    · rw [if_neg hd, add_zero]
  have hnone : w.applied.countP (fun a => a.target = home ∧ a.sender = sender ∧ a.seq = seq) = 0 := by
    rw [h.seen, Int.natCast_pos] at hunseen
    omega
  refine ⟨h.numbered, h.room, h.fits, fun d => ?_, fun d t => ?_, fun d s q => ?_, fun d s q => ?_, ?_⟩
  · rcases h.counters d with ⟨hun, hfree⟩ | hat
    · exact .inl ⟨fun u => (hsame d _ _ (.inr rfl)).trans (hun u), hfree⟩
    · exact .inr fun u => (hsame d _ _ (.inr rfl)).trans (hat u)
  · show ((w.commitIn home _).stores d).weight _ t ≠ 0 → _
    rw [hsame d _ t (.inl rfl)]
    exact h.outbox d t
  · show ((w.commitIn home _).stores d).weight _ _ = ((w.applied ++ _).countP _ : Nat)
    rw [weight_commitIn, h.seen, List.countP_append, List.countP_singleton, Message.arrival]
    by_cases hd : d = home
    · subst hd
      rw [if_pos rfl, netOn_cons, netOn_cons, netOn_nil, if_neg fun hc => hseen hc.1]
      by_cases hrow : s = sender ∧ q = seq
      · obtain ⟨rfl, rfl⟩ := hrow
        simp
      · have hne : ¬ seenRow sender seq = seenRow s q := fun hc => by
          obtain ⟨hs, hq⟩ := seenRow_inj hc
          exact hrow ⟨hs.symm, hq.symm⟩
        have hne' : ¬ (sender = s ∧ seq = q) := fun hc => hrow ⟨hc.1.symm, hc.2.symm⟩
        simp [hne, hne']
    · have hne : ¬ home = d := fun hc => hd hc.symm
      simp [hd, hne]
  · show (w.applied ++ _).countP _ ≤ 1
    rw [List.countP_append, List.countP_singleton]
    by_cases hkey : home = d ∧ sender = s ∧ seq = q
    · obtain ⟨rfl, rfl, rfl⟩ := hkey
      rw [hnone]
      simp
    · simpa [hkey] using h.once d s q
  · intro a ha
    rcases List.mem_append.1 ha with ha | ha
    · exact h.known a ha
    · rw [List.mem_singleton.1 ha]
      exact hemitted

/-! ## Emitting -/

section Emit

variable {x : Routed} {alloc : SeqAlloc}

/-- What rows of one relation, each once, sum to. -/
theorem netOn_map_rows {β : Type} (rel rel' : RelId) (f : β → Tuple) (t : Tuple) (l : List β) :
    netOn rel t (l.map fun b => (rel', f b, 1)) = (l.countP fun b => rel' = rel ∧ f b = t : Nat) := by
  induction l with
  | nil => rfl
  | cons b l ih =>
    rw [List.map_cons, netOn_cons, ih, List.countP_cons]
    simp only [decide_eq_true_eq, Nat.cast_add, Nat.cast_ite, Nat.cast_one, Nat.cast_zero]
    rw [add_comm]

theorem sends_sender : ∀ e ∈ Domain.sends home x alloc, e.sender = home := by
  intro e he
  obtain ⟨m, _, rfl⟩ := List.mem_map.1 he
  rfl

theorem length_sends : (Domain.sends home x alloc).length = x.remotes.length := by
  obtain ⟨_, hbodies, _⟩ := SeqAlloc.assign_eq x.remotes alloc
  rw [Domain.sends, List.length_map, ← congrArg List.length hbodies, List.length_map]

theorem sends_fits (hfits : ∀ m ∈ x.remotes, messageFits m.2 = true) :
    ∀ e ∈ Domain.sends home x alloc, messageFits e.message = true := by
  intro e he
  obtain ⟨m, hm, rfl⟩ := List.mem_map.1 he
  obtain ⟨_, hbodies, _⟩ := SeqAlloc.assign_eq x.remotes alloc
  refine hfits m.2 ?_
  rw [← hbodies]
  exact List.mem_map_of_mem hm

theorem sends_seq (hn : alloc.n = 0) {start : Nat} (hs : alloc.start = Int64.ofNat start) :
    (Domain.sends home x alloc).map Sent.seq
      = numbers Int64.ofNat start (Domain.sends home x alloc).length := by
  obtain ⟨_, _, hnums⟩ := SeqAlloc.assign_eq x.remotes alloc
  rw [length_sends, ← hnums start (by rw [hn, Int64.add_zero, hs]), Domain.sends, List.map_map]
  rfl

/-- What a draft adds to a domain's books: a row for each message, and the advance. -/
theorem netOn_draft (hs : net.Spared home x.updates) {rel : RelId}
    (hrel : rel = (net.domain home).outbox ∨ rel = (net.domain home).outseq ∨
      rel = (net.domain home).seen) (t : Tuple) :
    netOn rel t ((net.domain home).draft x alloc).2
      = ((Domain.sends home x alloc).countP fun e => (net.domain home).outbox = rel ∧ e.row = t : Nat)
        + netOn rel t ((alloc.assign x.remotes).1.sealPatch Patch.new).updates := by
  have hbare : ((alloc.assign x.remotes).1.sealPatch Patch.new).Bare := Patch.Bare.new.sealPatch _
  have hadvance : netOn rel t ((alloc.assign x.remotes).1.sealPatch Patch.new).updates
      = netOn rel t ((((alloc.assign x.remotes).1.sealPatch Patch.new).retracts.map
          fun f => (f.rel, f.tuple, -1)) ++
        ((alloc.assign x.remotes).1.sealPatch Patch.new).asserts.map fun f => (f.rel, f.tuple, 1)) := by
    rw [hbare.updates, Patch.writes, netOn_append, netOn_append, add_comm]
  have hrows : netOn rel t ((alloc.assign x.remotes).2.map
        fun m => ((net.domain home).outbox, outboxRow m.1 m.2.1 m.2.2, (1 : Diff)))
      = ((Domain.sends home x alloc).countP fun e => (net.domain home).outbox = rel ∧ e.row = t : Nat) := by
    rw [netOn_map_rows rel _ (fun m : Int64 × DomainId × Message => outboxRow m.1 m.2.1 m.2.2),
      Domain.sends, List.countP_map]
    rfl
  rw [Domain.draft]
  dsimp only
  rw [netOn_append, netOn_append, hs.netOn hrel, hrows, zero_add, hadvance]

variable (hs : net.Spared home x.updates) (hrel : alloc.rel = (net.domain home).outseq)
  (hkey : alloc.key = [])

include hs hrel

/-- The outbox after the commit of a draft: a row more for each message. -/
theorem weight_outbox_draft (d : DomainId) (t : Tuple) :
    ((w.commitIn home ((net.domain home).draft x alloc).2).stores d).weight (net.domain d).outbox t
      = (w.stores d).weight (net.domain d).outbox t
        + (if d = home then ((Domain.sends home x alloc).countP fun e => e.row = t : Nat) else 0) := by
  obtain ⟨halloc, _, _⟩ := SeqAlloc.assign_eq x.remotes alloc
  rw [weight_commitIn]
  by_cases hd : d = home
  · subst hd
    rw [if_pos rfl, if_pos rfl, netOn_draft hs (.inl rfl), SeqAlloc.netOn_sealPatch_other]
    · have hnew : netOn (net.domain d).outbox t Patch.new.updates = 0 := rfl
      rw [hnew, add_zero]
      simp
    · rw [halloc]
      dsimp only
      rw [hrel]
      exact fun hc => (net.apart d).1 hc.1
  · rw [if_neg hd, if_neg hd]
    rfl

theorem weight_seen_draft (d : DomainId) (t : Tuple) :
    ((w.commitIn home ((net.domain home).draft x alloc).2).stores d).weight (net.domain d).seen t
      = (w.stores d).weight (net.domain d).seen t := by
  obtain ⟨halloc, _, _⟩ := SeqAlloc.assign_eq x.remotes alloc
  rw [weight_commitIn]
  by_cases hd : d = home
  · subst hd
    rw [if_pos rfl, netOn_draft hs (.inr (.inr rfl)), SeqAlloc.netOn_sealPatch_other]
    · have hnew : netOn (net.domain d).seen t Patch.new.updates = 0 := rfl
      rw [hnew, List.countP_eq_zero.2 fun e _ => by simp [(net.apart d).2.1]]
      simp
    · rw [halloc]
      dsimp only
      rw [hrel]
      exact fun hc => (net.apart d).2.2 hc.1.symm
  · rw [if_neg hd, add_zero]

include hkey

/-- The counter after the commit of a draft. -/
theorem counterAt_draft (hn : alloc.n = 0) (hnil : x.remotes ≠ []) (hlt : x.remotes.length < 2 ^ 63)
    (hcur : alloc.Current (w.stores home)) :
    CounterAt ((w.commitIn home ((net.domain home).draft x alloc).2).stores home)
      (net.domain home).outseq [] (alloc.start + Int64.ofNat x.remotes.length) := by
  obtain ⟨halloc, _, _⟩ := SeqAlloc.assign_eq x.remotes alloc
  have hdrawn := SeqAlloc.assign_ne_zero hn hnil hlt
  have hnet : ∀ u, netOn alloc.rel (SeqAlloc.counterTuple alloc.key u)
        ((net.domain home).draft x alloc).2
      = netOn alloc.rel (SeqAlloc.counterTuple alloc.key u)
        ((alloc.assign x.remotes).1.sealPatch Patch.new).updates := by
    intro u
    rw [hrel, netOn_draft hs (.inr (.inl rfl)),
      List.countP_eq_zero.2 fun e _ => by simp [(net.apart home).1]]
    simp
  rw [halloc] at hdrawn hnet
  have hat := SeqAlloc.Current.advance
    (a := { alloc with n := alloc.n + Int64.ofNat x.remotes.length }) hcur hdrawn hnet
  dsimp only at hat
  rw [hrel, hkey, hn, Int64.zero_add] at hat
  show CounterAt (Function.update w.stores home _ home) _ _ _
  rw [Function.update_self]
  exact hat

omit hs hrel hkey in
/-- The new messages continue their sender's numbers. -/
theorem Books.numbered_sends (h : Books net w) (hn : alloc.n = 0)
    (hstart : alloc.start = Int64.ofNat (w.sentBy home)) :
    Numbered Sent.sender Sent.seq Int64.ofNat (w.emitted ++ Domain.sends home x alloc) :=
  h.numbered.append sends_sender (sends_seq hn hstart)

omit hs hrel hkey in
theorem sentBy_sends (home d : DomainId) (x : Routed) (alloc : SeqAlloc) :
    (ofStream Sent.sender d (w.emitted ++ Domain.sends home x alloc)).length
      = w.sentBy d + if d = home then x.remotes.length else 0 := by
  rw [ofStream_append, List.length_append]
  by_cases hd : d = home
  · rw [hd, if_pos rfl, ofStream_self sends_sender, length_sends]
    rfl
  · rw [if_neg hd, ofStream_other sends_sender hd]
    rfl

variable (h : Books net w)

include h

/-- **The books after a draft is committed**: the new messages are emitted, numbered and
in the outbox. -/
theorem Books.emit (hn : alloc.n = 0) (hnil : x.remotes ≠ [])
    (hroom : w.sentBy home + x.remotes.length < 2 ^ 63)
    (hfits : ∀ m ∈ x.remotes, messageFits m.2 = true) (hcur : alloc.Current (w.stores home))
    (hstart : alloc.start = Int64.ofNat (w.sentBy home)) :
    Books net { (w.commitIn home ((net.domain home).draft x alloc).2) with
      emitted := w.emitted ++ Domain.sends home x alloc } := by
  have hsent := fun d => sentBy_sends (w := w) home d x alloc
  refine ⟨h.numbered_sends hn hstart, fun d => ?_, fun e he => ?_, fun d => ?_, fun d t hne => ?_,
    fun d sender seq => ?_, h.once, fun a ha => List.mem_append_left _ (h.known a ha)⟩
  · show (ofStream _ _ (w.emitted ++ _)).length < _
    rw [hsent]
    split_ifs with hd
    · rw [hd]
      exact hroom
    · exact h.room d
  · rcases List.mem_append.1 he with he | he
    · exact h.fits e he
    · exact sends_fits hfits e he
  · show _ ∨ CounterAt _ _ _ (Int64.ofNat (ofStream _ _ (w.emitted ++ _)).length)
    rw [hsent]
    by_cases hd : d = home
    · subst hd
      rw [if_pos rfl, Int64.ofNat_add, ← hstart]
      exact .inr (counterAt_draft hs hrel hkey hn hnil (by omega) hcur)
    · have hsame : ∀ t, ((w.commitIn home ((net.domain home).draft x alloc).2).stores d).weight
          (net.domain d).outseq t = (w.stores d).weight (net.domain d).outseq t := fun t => by
        rw [weight_commitIn, if_neg hd, add_zero]
      rw [if_neg hd]
      rcases h.counters d with ⟨hun, hnone⟩ | hat
      · refine .inl ⟨fun u => (hsame _).trans (hun u), fun e he => ?_⟩
        rcases List.mem_append.1 he with he | he
        · exact hnone e he
        · rw [sends_sender e he]
          exact fun hc => hd hc.symm
      · exact .inr fun u => (hsame _).trans (hat u)
  · by_cases hold : (w.stores d).weight (net.domain d).outbox t = 0
    · -- a row the outbox did not hold is one of the new messages'
      rw [show Network.stores _ d = (w.commitIn home _).stores d from rfl,
        weight_outbox_draft hs hrel, hold, zero_add] at hne
      by_cases hd : d = home
      · rw [if_pos hd] at hne
        obtain ⟨e, he, hrow⟩ := List.countP_pos_iff.1 (Nat.pos_of_ne_zero fun hz => hne (by rw [hz]; rfl))
        exact ⟨e, List.mem_append_right _ he, (sends_sender e he).trans hd.symm, by simpa using hrow⟩
      · rw [if_neg hd] at hne
        exact absurd rfl hne
    · obtain ⟨e, he, hrow⟩ := h.outbox d t hold
      exact ⟨e, List.mem_append_left _ he, hrow⟩
  · exact (weight_seen_draft hs hrel d _).trans (h.seen d sender seq)

omit hkey in
/-- A new message's row is in the outbox. -/
theorem Books.weight_fresh (hn : alloc.n = 0)
    (hroom : w.sentBy home + x.remotes.length < 2 ^ 63)
    (hstart : alloc.start = Int64.ofNat (w.sentBy home)) {e : Sent}
    (he : e ∈ Domain.sends home x alloc) :
    0 < ((w.commitIn home ((net.domain home).draft x alloc).2).stores home).weight
      (net.domain home).outbox e.row := by
  have hpos : 0 < (Domain.sends home x alloc).countP fun e' => e'.row = e.row :=
    List.countP_pos_iff.2 ⟨e, he, by simp⟩
  have hzero : (w.stores home).weight (net.domain home).outbox e.row = 0 := by
    by_contra hne
    obtain ⟨e', he', hsender, hrow⟩ := h.outbox home e.row hne
    -- its number would be given twice
    have hnum := h.numbered_sends hn hstart (x := x)
    have hnodup := hnum.nodup (s := home) (injOn_ofNat (by rw [sentBy_sends, if_pos rfl]; exact hroom))
    rw [ofStream_append, ofStream_self sends_sender, List.map_append, List.nodup_append] at hnodup
    have hmem : e'.seq ∈ (ofStream Sent.sender home w.emitted).map Sent.seq :=
      List.mem_map_of_mem (mem_ofStream.2 ⟨he', hsender⟩)
    exact hnodup.2.2 _ hmem _ (List.mem_map_of_mem he) (outboxRow_inj hrow)
  rw [weight_outbox_draft hs hrel, hzero, if_pos rfl, zero_add]
  exact_mod_cast hpos

end Emit

end Grmpl

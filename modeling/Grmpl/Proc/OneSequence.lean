import Grmpl.Proc.ExactlyOnce
import Grmpl.Proc.Mailroom

/-!
# One sequence for each inbox

Where every inbox of a process is fed from a counter of its own, the counter holds the
number of messages sent, and the rows of the inbox are those messages. A watch draws
from another counter than the senders and schedulers of its inbox do, and a process's
counter serves all its inboxes: then two messages share a number, or one is skipped.

* `Sequenced`: the invariant.
* `sequenced_append`, `sequenced_row`, `sequenced_spared`, `sequenced_seed`: the commits.
* `Sequenced.oneSequence`: what it says of an inbox.
* `inbox_one_sequence`: the run.
* `inbox_two_sequences`: a watch and a sender, one number; a sender and two inboxes.
-/

open OrdMap Runs Numbering

namespace Grmpl

open Mailroom

variable {r : Roles} {schemas : SchemaCatalog} {w w' : Mailroom} {act : Act}

/-- Messages are numbered, the rows of the inboxes are the messages, and each counter
has no row before its first message, or one that holds how many were drawn. -/
structure Sequenced (r : Roles) (w : Mailroom) : Prop where
  numbered : Numbered Given.box Given.seq Int64.ofNat w.given
  room : ∀ box, (ofStream Given.box box w.given).length < 2 ^ 63
  rows : ∀ inbox, r.inbox inbox = true → ∀ t, w.store.weight inbox t
    = (w.given.countP fun g => g.inbox = inbox ∧ g.row = t : Nat)
  counters : ∀ rel, r.counter rel = true → ∀ key,
    Uncounted w.store rel key ∧ (∀ g ∈ w.given, g.counter ≠ some (rel, key)) ∨
      CounterAt w.store rel key (Int64.ofNat (w.given.countP fun g => g.counter = some (rel, key)))
  own : ∀ g ∈ w.given, r.inbox g.inbox = true ∧
    ∀ c, g.counter = some c → ∀ h ∈ w.given, h.counter = some c ↔ h.box = g.box

/-- Commits that leave counters and inboxes alone keep both. -/
theorem weight_spared {updates : List (RelId × Tuple × Diff)} (h : r.Spared updates)
    {rel : RelId} (hrel : r.counter rel = true ∨ r.inbox rel = true) (store : TraceStore) (t : Tuple) :
    (store.commit updates).weight rel t = store.weight rel t := by
  rw [TraceStore.weight_commit, netOn_eq_zero fun u hu hut => ?_, add_zero]
  obtain ⟨hc, hi⟩ := h u hu
  rw [hut.1] at hc hi
  rcases hrel with hrel | hrel
  · rw [hc] at hrel
    cases hrel
  · rw [hi] at hrel
    cases hrel

theorem sequenced_spared (h : Sequenced r w) {updates : List (RelId × Tuple × Diff)}
    (hspared : r.Spared updates) (appenders : List Phase) :
    Sequenced r ⟨w.store.commit updates, appenders, w.given⟩ := by
  refine ⟨h.numbered, h.room, fun inbox hinbox t => ?_, fun rel hrel key => ?_, h.own⟩
  · exact (weight_spared hspared (.inr hinbox) _ t).trans (h.rows inbox hinbox t)
  · have hsame := fun u => weight_spared hspared (.inl hrel) w.store (SeqAlloc.counterTuple key u)
    rcases h.counters rel hrel key with ⟨hun, hnone⟩ | hat
    · exact .inl ⟨fun u => (hsame u).trans (hun u), hnone⟩
    · exact .inr fun u => (hsame u).trans (hat u)

/-! ## An append -/

section Append

variable {d : Draft}

theorem Draft.given_box : ∀ g ∈ d.given, g.box = (d.append.inbox, d.append.target) := by
  intro g hg
  obtain ⟨m, _, rfl⟩ := List.mem_map.1 hg
  rfl

theorem Draft.given_counter : ∀ g ∈ d.given, g.counter = some (d.alloc.rel, d.alloc.key) := by
  intro g hg
  obtain ⟨m, _, rfl⟩ := List.mem_map.1 hg
  rfl

theorem Draft.length_given : d.given.length = d.append.bodies.length := by
  obtain ⟨_, hbodies, _⟩ := SeqAlloc.assign_eq d.append.bodies d.alloc
  rw [Draft.given, List.length_map, ← congrArg List.length hbodies, List.length_map]
  rfl

/-- A committed draft's messages carry the numbers from the counter on. -/
theorem Draft.given_seq (hn : d.alloc.n = 0) {start : Nat} (hs : d.alloc.start = Int64.ofNat start) :
    d.given.map Given.seq = numbers Int64.ofNat start d.given.length := by
  obtain ⟨_, _, hnums⟩ := SeqAlloc.assign_eq d.append.bodies d.alloc
  rw [Draft.length_given, ← hnums start (by rw [hn, Int64.add_zero, hs]), Draft.given, List.map_map]
  rfl

/-- The rows a draft adds to an inbox. -/
theorem Draft.netOn_inbox (hrel : r.counter d.alloc.rel = true) (hbase : r.Spared d.append.base.updates)
    {inbox : RelId} (hinbox : r.inbox inbox = true) (t : Tuple) : netOn inbox t d.patch.updates
      = (d.given.countP fun g => g.inbox = inbox ∧ g.row = t : Nat) := by
  have hne : inbox ≠ d.alloc.rel := by
    rintro rfl
    rw [r.apart _ hrel] at hinbox
    cases hinbox
  obtain ⟨halloc, _, _⟩ := SeqAlloc.assign_eq d.append.bodies d.alloc
  rw [Draft.patch, SeqAlloc.netOn_sealPatch_other, Draft.appended, netOn_foldl_assert,
    netOn_eq_zero fun u hu hut => ?_, zero_add, Draft.given, List.countP_map]
  · rfl
  · have hi := (hbase u hu).2
    rw [hut.1, hinbox] at hi
    cases hi
  · rw [halloc]
    exact fun hc => hne hc.1

/-- What a draft adds to counters beside its own, and to its own but for the advance:
nothing. -/
theorem Draft.netOn_counter (hin : r.inbox d.append.inbox = true) (hbase : r.Spared d.append.base.updates)
    {rel : RelId} (hrel : r.counter rel = true) (t : Tuple) : netOn rel t d.appended.updates = 0 := by
  have hne : d.append.inbox ≠ rel := by
    rintro rfl
    rw [r.apart _ hrel] at hin
    cases hin
  rw [Draft.appended, netOn_foldl_assert, netOn_eq_zero fun u hu hut => ?_, zero_add]
  · rw [List.countP_eq_zero.2 fun m _ => by simp [hne]]
    rfl
  · have hc := (hbase u hu).1
    rw [hut.1, hrel] at hc
    cases hc

/-- The counter of an append holds how many messages its process was sent there. -/
theorem Sequenced.countP_counter (_ : Sequenced r w) {rel : RelId} {key : List Value} {inbox : RelId}
    {target : Entity} (hown : w.OwnCounter rel key inbox target) :
    (w.given.countP fun g => g.counter = some (rel, key)) = w.sent inbox target := by
  rw [Mailroom.sent, ofStream, ← List.countP_eq_length_filter]
  refine List.countP_congr fun g hg => ?_
  simpa using hown g hg

/-- A counter that was read as it is now: what it holds, and that it is current. -/
theorem Sequenced.current (h : Sequenced r w) (hrel : r.counter d.alloc.rel = true)
    (hown : w.OwnCounter d.alloc.rel d.alloc.key d.append.inbox d.append.target)
    (hread : d.alloc.present = false → d.alloc.start = 0)
    (hnow : d.alloc.present = true ∨ CounterAbsent w.store d.alloc.rel d.alloc.key)
    (hguard : d.alloc.present = true →
      0 < w.store.weight d.alloc.rel (SeqAlloc.counterTuple d.alloc.key d.alloc.start)) :
    d.alloc.Current w.store ∧ d.alloc.start = Int64.ofNat (w.sent d.append.inbox d.append.target) := by
  have hcount := h.countP_counter hown
  refine SeqAlloc.current_of_read ?_ hread hnow hguard
  rcases h.counters _ hrel d.alloc.key with ⟨hun, hnone⟩ | hat
  · rw [List.countP_eq_zero.2 fun g hg => by simpa using hnone g hg] at hcount
    exact .inl ⟨hun, hcount.symm⟩
  · rw [hcount] at hat
    exact .inr hat

/-- The guard of a draft is the row it read. -/
theorem Draft.guarded (hdrawn : (d.alloc.assign d.append.bodies).1.n ≠ 0)
    (hpres : d.alloc.present = true) :
    (⟨d.alloc.rel, SeqAlloc.counterTuple d.alloc.key d.alloc.start⟩ : Fact) ∈ d.patch.preconditions := by
  obtain ⟨halloc, _, _⟩ := SeqAlloc.assign_eq d.append.bodies d.alloc
  have hmem := SeqAlloc.mem_preconditions_sealPatch (p := d.appended) hdrawn (by rw [halloc]; exact hpres)
  rw [halloc] at hmem
  rw [Draft.patch, halloc]
  exact hmem

theorem Draft.patch_of_nil (hn : d.alloc.n = 0) (hnil : d.append.bodies = []) :
    d.patch = d.append.base := by
  rw [Draft.patch, Draft.appended, Draft.messages, hnil, SeqAlloc.sealPatch]
  exact if_pos hn

variable (h : Sequenced r w) (hin : r.inbox d.append.inbox = true)
  (hbase : r.Spared d.append.base.updates)

include h hin hbase

/-- The counters after an append: its own has moved by the messages, the others are
as they were. -/
theorem Sequenced.counters_append (hn : d.alloc.n = 0)
    (hdrawn : (d.alloc.assign d.append.bodies).1.n ≠ 0) (hcur : d.alloc.Current w.store)
    (hstart : d.alloc.start = Int64.ofNat (w.given.countP fun g => g.counter = some (d.alloc.rel, d.alloc.key)))
    {rel : RelId} (hrel : r.counter rel = true) (key : List Value) :
    Uncounted (w.store.commit d.patch.updates) rel key ∧
        (∀ g ∈ w.given ++ d.given, g.counter ≠ some (rel, key)) ∨
      CounterAt (w.store.commit d.patch.updates) rel key
        (Int64.ofNat ((w.given ++ d.given).countP fun g => g.counter = some (rel, key))) := by
  obtain ⟨halloc, _, _⟩ := SeqAlloc.assign_eq d.append.bodies d.alloc
  rw [halloc] at hdrawn
  by_cases hsame : rel = d.alloc.rel ∧ key = d.alloc.key
  · obtain ⟨rfl, rfl⟩ := hsame
    have hnet : ∀ u, netOn d.alloc.rel (SeqAlloc.counterTuple d.alloc.key u) d.patch.updates
        = netOn d.alloc.rel (SeqAlloc.counterTuple d.alloc.key u)
          (({ d.alloc with n := d.alloc.n + Int64.ofNat d.append.bodies.length } : SeqAlloc).sealPatch
            Patch.new).updates := fun u => by
      rw [Draft.patch, SeqAlloc.netOn_sealPatch_eq, halloc, Draft.netOn_counter hin hbase hrel, zero_add]
    have hadv := SeqAlloc.Current.advance
      (a := { d.alloc with n := d.alloc.n + Int64.ofNat d.append.bodies.length }) hcur hdrawn hnet
    have hnext : Int64.ofNat ((w.given ++ d.given).countP
        fun g => g.counter = some (d.alloc.rel, d.alloc.key))
        = d.alloc.start + (d.alloc.n + Int64.ofNat d.append.bodies.length) := by
      rw [List.countP_append, hstart, hn, Int64.zero_add, ← Int64.ofNat_add,
        List.countP_eq_length (l := d.given).2 fun g hg => by simpa using Draft.given_counter g hg,
        Draft.length_given]
    refine .inr ?_
    rw [hnext]
    exact hadv
  · -- another counter has no part in the patch
    have hsame' : ∀ u, (w.store.commit d.patch.updates).weight rel (SeqAlloc.counterTuple key u)
        = w.store.weight rel (SeqAlloc.counterTuple key u) := by
      intro u
      rw [TraceStore.weight_commit, Draft.patch, SeqAlloc.netOn_sealPatch_other,
        Draft.netOn_counter hin hbase hrel, add_zero]
      rw [halloc]
      rintro ⟨hr, v, hv⟩
      exact hsame ⟨hr, (SeqAlloc.counterTuple_inj hv).1⟩
    have hother : ∀ g ∈ d.given, g.counter ≠ some (rel, key) := by
      intro g hg heq
      rw [Draft.given_counter g hg, Option.some.injEq, Prod.mk.injEq] at heq
      exact hsame ⟨heq.1.symm, heq.2.symm⟩
    rcases h.counters rel hrel key with ⟨hun, hnone⟩ | hat
    · refine .inl ⟨fun u => (hsame' u).trans (hun u), fun g hg => ?_⟩
      rcases List.mem_append.1 hg with hg | hg
      · exact hnone g hg
      · exact hother g hg
    · refine .inr fun u => (hsame' u).trans ?_
      rw [List.countP_append,
        List.countP_eq_zero (l := d.given).2 fun g hg => by simpa using hother g hg]
      exact hat u

omit hbase in
/-- After an append, messages still share a counter if they share an inbox. -/
theorem Sequenced.own_append
    (hown : w.OwnCounter d.alloc.rel d.alloc.key d.append.inbox d.append.target) :
    ∀ g ∈ w.given ++ d.given, r.inbox g.inbox = true ∧ ∀ c, g.counter = some c →
      ∀ g' ∈ w.given ++ d.given, g'.counter = some c ↔ g'.box = g.box := by
  intro g hg
  rcases List.mem_append.1 hg with hg | hg
  · refine ⟨(h.own g hg).1, fun c hcounter g' hg' => ?_⟩
    rcases List.mem_append.1 hg' with hg' | hg'
    · exact (h.own g hg).2 c hcounter g' hg'
    · rw [Draft.given_counter g' hg', Draft.given_box g' hg', ← hcounter, eq_comm, hown g hg, eq_comm]
  · have hbox := Draft.given_box g hg
    refine ⟨?_, fun c hcounter g' hg' => ?_⟩
    · rw [show g.inbox = d.append.inbox from congrArg Prod.fst hbox]
      exact hin
    · obtain rfl := Option.some.inj ((Draft.given_counter g hg).symm.trans hcounter)
      rw [hbox]
      rcases List.mem_append.1 hg' with hg' | hg'
      · exact hown g' hg'
      · rw [Draft.given_counter g' hg', Draft.given_box g' hg']
        simp

theorem Sequenced.append (hsound : (Phase.drafted d).Sound) {store : TraceStore}
    {e : Nat} (hcommit : d.commit w.store schemas = .ok (store, .committed e))
    (hrel : r.counter d.alloc.rel = true)
    (hown : w.OwnCounter d.alloc.rel d.alloc.key d.append.inbox d.append.target)
    (hnow : d.alloc.present = true ∨ CounterAbsent w.store d.alloc.rel d.alloc.key)
    (hroom : w.sent d.append.inbox d.append.target + d.append.bodies.length < 2 ^ 63)
    (appenders : List Phase) : Sequenced r ⟨store, appenders, w.given ++ d.given⟩ := by
  obtain ⟨hn, hread, hplain⟩ := hsound
  obtain ⟨hpre, rfl⟩ := Draft.commit_committed hplain hcommit
  by_cases hnil : d.append.bodies = []
  · -- nothing is appended
    have hgiven : d.given = [] := List.length_eq_zero_iff.1 (by rw [Draft.length_given, hnil]; rfl)
    rw [hgiven, List.append_nil, Draft.patch_of_nil hn hnil]
    exact sequenced_spared h hbase appenders
  have hdrawn := SeqAlloc.assign_ne_zero hn hnil (by omega)
  obtain ⟨hcur, hstart⟩ := h.current hrel hown hread hnow
    fun hpres => hpre _ (Draft.guarded hdrawn hpres)
  refine ⟨h.numbered.append Draft.given_box (Draft.given_seq hn hstart), fun box => ?_,
    fun inbox hinbox t => ?_, fun rel hc key => ?_, h.own_append hin hown⟩
  · rw [ofStream_append, List.length_append]
    by_cases hbox : box = (d.append.inbox, d.append.target)
    · rw [hbox, ofStream_self Draft.given_box, Draft.length_given]
      exact hroom
    · rw [ofStream_other Draft.given_box hbox]
      exact h.room box
  · rw [TraceStore.weight_commit, h.rows inbox hinbox t, Draft.netOn_inbox hrel hbase hinbox,
      List.countP_append]
    push_cast
    rfl
  · exact h.counters_append hin hbase hn hdrawn hcur (by rw [hstart, h.countP_counter hown]) hc key

end Append

/-! ## The other commits -/

/-- A row added by a sender that chose its number itself. -/
theorem Sequenced.row (h : Sequenced r w) {g : Given} (hnone : g.counter = none)
    (hg : w.Continues r g) {updates : List (RelId × Tuple × Diff)}
    (hnet : ∀ rel t, r.counter rel = true ∨ r.inbox rel = true →
      netOn rel t updates = if g.inbox = rel ∧ g.row = t then 1 else 0)
    (appenders : List Phase) :
    Sequenced r ⟨w.store.commit updates, appenders, w.given ++ [g]⟩ := by
  obtain ⟨hin, hseq, hroom, hsenders⟩ := hg
  have hself : ∀ g' ∈ [g], g'.box = g.box := fun g' hg' => by rw [List.mem_singleton.1 hg']
  refine ⟨h.numbered.append hself ?_, fun box => ?_, fun inbox hinbox t => ?_, fun rel hrel key => ?_, ?_⟩
  · show [g.seq] = _
    rw [hseq]
    rfl
  · rw [ofStream_append, List.length_append]
    by_cases hbox : box = g.box
    · rw [hbox, ofStream_self hself]
      exact hroom
    · rw [ofStream_other hself hbox]
      exact h.room box
  · rw [TraceStore.weight_commit, h.rows inbox hinbox t, hnet inbox t (.inr hinbox), List.countP_append,
      List.countP_singleton]
    simp only [decide_eq_true_eq, Nat.cast_add, Nat.cast_ite, Nat.cast_one, Nat.cast_zero]
  · have hsame : ∀ u, (w.store.commit updates).weight rel (SeqAlloc.counterTuple key u)
        = w.store.weight rel (SeqAlloc.counterTuple key u) := by
      intro u
      have hne : g.inbox ≠ rel := by
        rintro rfl
        rw [r.apart _ hrel] at hin
        cases hin
      rw [TraceStore.weight_commit, hnet rel _ (.inl hrel), if_neg fun hc => hne hc.1, add_zero]
    rcases h.counters rel hrel key with ⟨hun, hfree⟩ | hat
    · refine .inl ⟨fun u => (hsame u).trans (hun u), fun g' hg' => ?_⟩
      rcases List.mem_append.1 hg' with hg' | hg'
      · exact hfree g' hg'
      · rw [List.mem_singleton.1 hg', hnone]
        exact fun hc => (nomatch hc)
    · refine .inr fun u => (hsame u).trans ?_
      rw [List.countP_append, List.countP_eq_zero (l := [g]).2 (by simp [hnone])]
      exact hat u
  · intro g' hg'
    rcases List.mem_append.1 hg' with hg' | hg'
    · refine ⟨(h.own g' hg').1, fun c hcounter g'' hg'' => ?_⟩
      rcases List.mem_append.1 hg'' with hg'' | hg''
      · exact (h.own g' hg').2 c hcounter g'' hg''
      · -- the messages of the new one's inbox were drawn from no counter
        rw [List.mem_singleton.1 hg'', hnone]
        refine ⟨fun hc => (nomatch hc), fun hbox => ?_⟩
        rw [hsenders g' hg' hbox.symm] at hcounter
        cases hcounter
    · rw [List.mem_singleton.1 hg']
      refine ⟨hin, fun c hc => ?_⟩
      rw [hnone] at hc
      cases hc

theorem Message.given_eq {m : Message} {g : Given} (h : m.given = some g) :
    g.inbox = m.inbox ∧ g.row = m.body ∧ g.counter = none := by
  obtain ⟨inbox, ⟨cells⟩⟩ := m
  unfold Message.given at h
  split at h
  · rename_i target seq body hcells
    cases h
    dsimp only at hcells
    subst hcells
    exact ⟨rfl, rfl, rfl⟩
  · cases h

theorem Sequenced.seed (h : Sequenced r w) {s : Seed} (hrel : r.counter s.alloc.rel = true)
    (hbase : r.Spared s.base.updates)
    (hnow : s.alloc.present = true ∨ CounterAbsent w.store s.alloc.rel s.alloc.key)
    (appenders : List Phase) :
    Sequenced r ⟨w.store.commit (s.alloc.seed s.base).updates, appenders, w.given⟩ := by
  cases hpres : s.alloc.present with
  | true =>
    rw [SeqAlloc.seed, if_pos hpres]
    exact sequenced_spared h hbase appenders
  | false =>
    have habs : CounterAbsent w.store s.alloc.rel s.alloc.key := by
      rcases hnow with hp | habs
      · rw [hpres] at hp
        cases hp
      · exact habs
    have hnet : ∀ rel, r.counter rel = true ∨ r.inbox rel = true → ∀ t,
        netOn rel t s.base.updates = 0 := by
      intro rel hr t
      have := weight_spared hbase hr w.store t
      rw [TraceStore.weight_commit] at this
      exact add_eq_left.1 this
    refine ⟨h.numbered, h.room, fun inbox hinbox t => ?_, fun rel hc key => ?_, h.own⟩
    · have hne : s.alloc.rel ≠ inbox := by
        rintro rfl
        rw [r.apart _ hrel] at hinbox
        cases hinbox
      rw [TraceStore.weight_commit, SeqAlloc.seed, hpres, if_neg (by simp), netOn_assert,
        hnet inbox (.inr hinbox), if_neg fun hcond => hne hcond.1, h.rows inbox hinbox t]
      simp
    · by_cases hsame : rel = s.alloc.rel ∧ key = s.alloc.key
      · obtain ⟨rfl, rfl⟩ := hsame
        rcases h.counters _ hrel s.alloc.key with ⟨hun, hnone⟩ | hat
        · refine .inr ?_
          have hzero := SeqAlloc.seed_counterAt hun hpres fun u => hnet _ (.inl hrel) _
          rw [List.countP_eq_zero.2 fun g hg => by simpa using hnone g hg]
          exact hzero
        · exact absurd habs (SeqAlloc.not_absent_of_at hat)
      · have hother : ∀ u, (w.store.commit (s.alloc.seed s.base).updates).weight rel
            (SeqAlloc.counterTuple key u) = w.store.weight rel (SeqAlloc.counterTuple key u) := by
          intro u
          rw [TraceStore.weight_commit, SeqAlloc.seed, hpres, if_neg (by simp), netOn_assert,
            hnet rel (.inl hc), if_neg fun hcond => hsame ⟨hcond.1.symm,
              (SeqAlloc.counterTuple_inj hcond.2).1.symm⟩, add_zero, add_zero]
        rcases h.counters rel hc key with ⟨hun, hnone⟩ | hat
        · exact .inl ⟨fun u => (hother u).trans (hun u), hnone⟩
        · exact .inr fun u => (hother u).trans (hat u)

/-! ## The run -/

theorem sequenced_step (h : Sequenced r w) (hs : w.Sound) (hok : w.KeepsSequence r act)
    (hd : Mailroom.Does schemas w act w') : Sequenced r w' := by
  cases hd with
  | stay => exact h
  | move _ a x hx => exact ⟨h.numbered, h.room, h.rows, h.counters, h.own⟩
  | append a d hphase store e hcommit =>
    simp only [KeepsSequence, hphase] at hok
    obtain ⟨hin, hrel, hbase, hown, hnow, hroom⟩ := hok
    have hsound := hs _ (List.mem_of_getElem? hphase)
    exact h.append hin hbase hsound hcommit hrel hown hnow hroom _
  | seed a s hphase store e hcommit =>
    simp only [KeepsSequence, hphase] at hok
    obtain ⟨hrel, hbase, hnow⟩ := hok
    obtain rfl := Seed.commit_committed (hs _ (List.mem_of_getElem? hphase)) hcommit
    exact h.seed hrel hbase hnow _
  | enqueue inbox process seq body =>
    refine h.row rfl hok (fun rel t _ => ?_) _
    rw [netOn_cons, netOn_nil, add_zero]
    rfl
  | deliver m seen sender seq =>
    obtain ⟨hcounter, hinbox, g, hg, hcont⟩ := hok
    obtain ⟨hbox, hrow, hnone⟩ := Message.given_eq hg
    rw [hg]
    refine h.row hnone hcont (fun rel t hr => ?_) _
    have hne : seen ≠ rel := by
      rintro rfl
      rcases hr with hr | hr
      · rw [hcounter] at hr
        cases hr
      · rw [hinbox] at hr
        cases hr
    have hseen : netOn rel t [(seen, seenRow sender seq, 1)] = 0 := by
      rw [netOn_cons, netOn_nil, if_neg fun hc => hne hc.1]
      rfl
    rw [Message.arrival, netOn_cons, hseen, hbox, hrow, add_zero]
  | other updates => exact sequenced_spared h hok _

/-- A process finds the message at each number that was given. -/
theorem Sequenced.messageAt (h : Sequenced r w) (p : Process) {i : Nat}
    (hi : i < (ofStream Given.box (p.inbox, p.entity) w.given).length) :
    p.messageAt w.store (Int64.ofNat i) w.store.current
      = .ok (some (ofStream Given.box (p.inbox, p.entity) w.given)[i].body) := by
  have hinj := injOn_ofNat (h.room (p.inbox, p.entity))
  have hmem := List.getElem_mem hi
  obtain ⟨hgiven, hbox⟩ := mem_ofStream.1 hmem
  have hinbox : r.inbox p.inbox = true := by
    have := (h.own _ hgiven).1
    rw [show Given.inbox _ = p.inbox from congrArg Prod.fst hbox] at this
    exact this
  have hseq := h.numbered.getElem_number hi
  generalize hm : (ofStream Given.box (p.inbox, p.entity) w.given)[i] = m at *
  -- a row the process would take for the message is a message given that number
  have hall : ∀ row ∈ w.store.rowsAt p.inbox w.store.current, ∀ body,
      p.bodyIn (Int64.ofNat i) row = some body → body = m.body := by
    rintro ⟨t, d⟩ hrow body hbody
    obtain ⟨hd, hw⟩ := TraceStore.mem_rowsAt.1 hrow
    rw [h.rows p.inbox hinbox t] at hw
    have hpos : 0 < w.given.countP fun g => g.inbox = p.inbox ∧ g.row = t := by
      rcases Nat.eq_zero_or_pos (w.given.countP fun g => g.inbox = p.inbox ∧ g.row = t) with hz | hpos
      · rw [hz] at hw
        exact absurd hw.symm hd
      · exact hpos
    obtain ⟨g, hg, hgrow⟩ := List.countP_pos_iff.1 hpos
    obtain ⟨hgin, rfl⟩ : g.inbox = p.inbox ∧ g.row = t := by simpa using hgrow
    unfold Process.bodyIn at hbody
    split_ifs at hbody with hcells
    obtain ⟨_, hent, hnum⟩ := hcells
    have htarget : g.target = p.entity := by
      simpa [Given.row, inboxFact] using hent
    have hnumber : g.seq = Int64.ofNat i := by
      simpa [Given.row, inboxFact] using hnum
    have hgm : g = m := by
      rw [← hm]
      exact h.numbered.eq_of_number hinj hi (mem_ofStream.2 ⟨hg, Prod.ext hgin htarget⟩) hnumber
    rw [hgm] at hbody
    exact (Option.some.inj hbody).symm
  have hrow : (m.row, w.store.weight p.inbox m.row) ∈ w.store.rowsAt p.inbox w.store.current := by
    refine TraceStore.mem_rowsAt.2 ⟨?_, rfl⟩
    rw [h.rows p.inbox hinbox]
    have hin : m.inbox = p.inbox := congrArg Prod.fst hbox
    exact_mod_cast (List.countP_pos_iff.2 ⟨m, hgiven, by simpa using hin⟩).ne'
  have hpos : 0 < w.store.weight p.inbox m.row := by
    have := (TraceStore.mem_rowsAt.1 hrow).1
    rw [h.rows p.inbox hinbox] at this ⊢
    exact lt_of_le_of_ne (Int.natCast_nonneg _) this.symm
  have hhit : p.bodyIn (Int64.ofNat i) (m.row, w.store.weight p.inbox m.row) = some m.body := by
    have htarget : m.target = p.entity := congrArg Prod.snd hbox
    unfold Process.bodyIn
    rw [if_pos ⟨hpos, by rw [← htarget]; rfl, by rw [← hseq]; rfl⟩]
    rfl
  rw [Process.messageAt, TraceStore.readAt_current]
  show Except.ok _ = _
  rw [findSome?_of_all hall ⟨_, hrow, by rw [hhit]; rfl⟩]

theorem Sequenced.oneSequence (h : Sequenced r w) : OneSequence w :=
  fun p => ⟨h.numbered _, h.numbered.nodup (injOn_ofNat (h.room _)), fun _ hi => h.messageAt p hi⟩

/-- Before anybody has sent anything. -/
theorem sequenced_start {store : TraceStore}
    (hfresh : ∀ rel, r.counter rel = true ∨ r.inbox rel = true → ∀ t, store.weight rel t = 0) (n : Nat) :
    Sequenced r ⟨store, .replicate n .idle, []⟩ where
  numbered := numbered_nil
  room := fun _ => Nat.two_pow_pos 63
  rows inbox hin t := hfresh inbox (.inr hin) t
  counters rel hrel key := .inl ⟨fun u => hfresh rel (.inl hrel) _, fun g hg => absurd hg (by simp)⟩
  own g hg := absurd hg (by simp)

/-- **One inbox, one sequence space**, in every run whose appends draw from a counter
of their own and whose commits find a counter read as missing still missing. -/
theorem inbox_one_sequence {store : TraceStore}
    (hfresh : ∀ rel, r.counter rel = true ∨ r.inbox rel = true → ∀ t, store.weight rel t = 0) (n : Nat)
    (hrun : Run (Mailroom.step schemas) (fun w a => w.KeepsSequence r a)
      ⟨store, .replicate n .idle, []⟩ w) : OneSequence w := by
  have hinv : Sequenced r w ∧ w.Sound := by
    refine hrun.invariant (I := fun v => Sequenced r v ∧ v.Sound) ⟨sequenced_start hfresh n, fun x hx => ?_⟩ ?_
    · rw [List.eq_of_mem_replicate hx]
      exact trivial
    · rintro v b v' ⟨hv, hs⟩ hok hst
      have hd := Mailroom.step_does hs hst
      exact ⟨sequenced_step hv hs hok hd, sound_step hs hd⟩
  exact hinv.1.oneSequence

/-! ## Two counters, one counter -/

/-- What a relation changes by between two editions. -/
def changesOf (rel : RelId) (store : TraceStore) (start upTo : Nat) : Result (List (Tuple × Diff)) := do
  let updates ← store.scanUpdates rel start upTo
  return updates.foldl (fun rows u => addRow rows u.tuple u.diff) []

/-- Sends a process the changes of a relation, to the inbox its senders write to. -/
def doorWatch : OnWatch where
  view := changesOf 13
  quiet := fun _ _ _ => .ok false
  watch := ⟨5⟩
  target := ⟨1⟩
  inbox := 10
  cursorRel := 11
  seqs := 12
  authority := ⟨0, [⟨10, none⟩, ⟨11, none⟩, ⟨12, none⟩]⟩

/-- A process of another inbox than the recorder's. -/
def listener : Process := { recorder with inbox := 20 }

/-- A watch installed and pumped, then a message sent. -/
def pumpThenSend : List Mailroom.Act :=
  [.install 0 doorWatch 0, .commit 0, .other [(13, ⟨[.text "open"]⟩, 1)], .cursor 0 doorWatch, .batch 0,
    .draw 0, .commit 0, .enqueueSeq 0 10 12 ⟨1⟩ ⟨[.text "hi"]⟩, .draw 0, .commit 0]

/-- One process, two inboxes, one counter relation. -/
def twoInboxes : List Mailroom.Act :=
  [.seedSeq 0 12 ⟨1⟩, .commit 0, .enqueueSeq 0 10 12 ⟨1⟩ ⟨[.text "hi"]⟩, .draw 0, .commit 0,
    .enqueueSeq 0 20 12 ⟨1⟩ ⟨[.text "yo"]⟩, .draw 0, .commit 0]

/-- A watch and a sender give two messages the number 0; a sender to two inboxes of a
process gives the second inbox's first message the number 1, and the process waits at 0. -/
theorem inbox_two_sequences :
    (∃ w, Run (Mailroom.step noSchemas) Any ⟨TraceStore.empty, [.idle], []⟩ w ∧
        (ofStream Given.box (10, ⟨1⟩) w.given).map Given.seq = [0, 0] ∧ ¬ OneSequence w) ∧
      ∃ w, Run (Mailroom.step noSchemas) Any ⟨TraceStore.empty, [.idle], []⟩ w ∧
        (ofStream Given.box (20, ⟨1⟩) w.given).map Given.seq = [1] ∧
          listener.messageAt w.store 0 w.store.current = .ok none ∧ ¬ OneSequence w := by
  have hpump : (execute (Mailroom.step noSchemas) ⟨TraceStore.empty, [.idle], []⟩ pumpThenSend).isSome
      = true := by decide +kernel
  have hboxes : (execute (Mailroom.step noSchemas) ⟨TraceStore.empty, [.idle], []⟩ twoInboxes).isSome
      = true := by decide +kernel
  have htwice : (ofStream Given.box (10, ⟨1⟩)
      (after (Mailroom.step noSchemas) ⟨TraceStore.empty, [.idle], []⟩ pumpThenSend).given).map Given.seq
      = [0, 0] := by decide +kernel
  have hskip : (ofStream Given.box (20, ⟨1⟩)
      (after (Mailroom.step noSchemas) ⟨TraceStore.empty, [.idle], []⟩ twoInboxes).given).map Given.seq
      = [1] := by decide +kernel
  refine ⟨⟨_, .after hpump, htwice, fun hone => ?_⟩, _, .after hboxes, hskip, by decide +kernel,
    fun hone => ?_⟩
  · have hnodup := (hone recorder).2.1
    rw [show (recorder.inbox, recorder.entity) = (10, ⟨1⟩) from rfl, htwice] at hnodup
    exact absurd hnodup (by decide)
  · have hnumbers := (hone listener).1
    rw [← List.length_map Given.seq, show (listener.inbox, listener.entity) = (20, ⟨1⟩) from rfl,
      hskip] at hnumbers
    exact absurd hnumbers (by decide)

/-- Relation 12 holds counters, relation 10 is an inbox. -/
def sampleRoles : Roles where
  counter := fun rel => rel == 12
  inbox := fun rel => rel == 10
  apart := fun rel h => by
    rw [eq_of_beq h]
    rfl

def sampleTimer : Scheduled := ⟨14, 5, 10, ⟨1⟩, ⟨[.text "tick"]⟩⟩

def sampleScheduler : Scheduler := ⟨14, 12, ⟨0, [⟨10, none⟩, ⟨12, none⟩, ⟨14, none⟩]⟩⟩

/-- Two senders race for a number, and a timer is fired by the one that lost. -/
def sendAndFire : List Mailroom.Act :=
  [.seedSeq 0 12 ⟨1⟩, .commit 0, .other [(14, timerRow sampleTimer, 1)],
    .enqueueSeq 0 10 12 ⟨1⟩ ⟨[.text "hi"]⟩, .enqueueSeq 1 10 12 ⟨1⟩ ⟨[.text "yo"]⟩, .draw 0, .draw 1,
    .commit 1, .commit 0, .fire 0 sampleScheduler (timerRow sampleTimer), .draw 0, .commit 0]

theorem inbox_one_sequence_sample : ∃ w,
    Run (Mailroom.step noSchemas) (fun w a => w.KeepsSequence sampleRoles a)
        ⟨TraceStore.empty, .replicate 2 .idle, []⟩ w ∧
      (w.given.map fun g => (g.seq, g.body)) = [(0, ⟨[.text "yo"]⟩), (1, ⟨[.text "tick"]⟩)] ∧
      OneSequence w := by
  have hex : (executeChecked (Mailroom.step noSchemas)
      (fun w a => decide (w.KeepsSequence sampleRoles a)) ⟨TraceStore.empty, .replicate 2 .idle, []⟩
      sendAndFire).isSome = true := by decide +kernel
  have hrun : Run (Mailroom.step noSchemas) (fun w a => w.KeepsSequence sampleRoles a)
      ⟨TraceStore.empty, .replicate 2 .idle, []⟩ _ := Run.afterChecked (by simp) hex
  exact ⟨_, hrun, by decide +kernel, inbox_one_sequence (fun _ _ _ => rfl) 2 hrun⟩

end Grmpl

import Grmpl.Proc.Timers
import Mathlib.Tactic.Ring

/-!
# Timers fire once

What any number of drivers do to what any commits schedule, in whatever order.

* `firedOnce_step`, `drawn_step`: what a step keeps of the timers, and of a counter.
* `fireDue_alone`: a call that is left alone fires all that is due.
* `timers_fire_once`: **a unit of a timer becomes one message**, and the messages to a process
  whose counter is seeded are numbered in turn.
-/

open OrdMap Runs

namespace Grmpl

/-! ## Runs -/

/-- What a patch writes of a row that it writes by scheduling only. -/
theorem netOn_schedules {p : Patch} {rel : RelId}
    (h : ∀ u ∈ ({ p with scheduled := [] } : Patch).updates, u.1 ≠ rel) (t : Tuple) :
    netOn rel t p.updates = p.timers.count ⟨rel, t⟩ := by
  have hcount : ∀ l : List Scheduled, netOn rel t (l.map fun s => (s.timers, timerRow s, 1))
      = (l.map fun s => (⟨s.timers, timerRow s⟩ : Fact)).count ⟨rel, t⟩ := by
    intro l
    induction l with
    | nil => rfl
    | cons s l ih =>
      rw [List.map_cons, List.map_cons, netOn_cons, ih, List.count_cons, Nat.cast_add, add_comm]
      simp [apply_ite]
  have hsplit : netOn rel t p.updates = netOn rel t ({ p with scheduled := [] } : Patch).updates
      + netOn rel t (p.scheduled.map fun s => (s.timers, timerRow s, 1)) := by
    simp only [Patch.updates, Patch.emitted, netOn_append, List.map_nil, netOn_nil]
    abel
  rw [hsplit, netOn_eq_zero fun u hu hrow => h u hu hrow.1, zero_add]
  exact hcount p.scheduled

namespace Clockwork

variable {r : Relations} {schemas : SchemaCatalog} {store : TraceStore} {w w' : Clockwork} {act : Act}

theorem Sound.setDriver (h : w.Sound) {a : Nat} {x : TimerDriver} (hx : x.Sound w a) : (w.setDriver a x).Sound := by
  intro b y hy
  rw [Clockwork.setDriver, List.getElem?_set] at hy
  split at hy
  · rename_i hab
    subst hab
    split at hy
    · cases hy
      exact ⟨hx.calls, hx.rows, hx.due, hx.after, hx.holds⟩
    · cases hy
  · obtain ⟨hcalls, hrows, hdue, hafter, hholds⟩ := h b y hy
    exact ⟨hcalls, hrows, hdue, hafter, hholds⟩

/-- A timer that was fired is out of its driver's way. -/
theorem Sound.fire (h : w.Sound) {a : Nat} {x : TimerDriver} {d : Draft} {t : FireTurn} (hx : w.drivers[a]? = some x)
    (hphase : x.phase = .drafted d t) (store : TraceStore) :
    Sound { w.setDriver a { x with phase := .next t.rest } with store, fired := w.fired ++ firedBy a x d t } := by
  intro b y hy
  have hnew : ∀ f ∈ firedBy a x d t, f.driver = a ∧ f.call = x.calls ∧ f.row = t.row := fun f hf => by
    obtain ⟨m, -, rfl⟩ := List.mem_map.1 hf
    exact ⟨rfl, rfl, rfl⟩
  have hsound := h a x hx
  have hrows := hsound.rows
  rw [hphase] at hrows
  change (w.drivers.set a _)[b]? = some y at hy
  rw [List.getElem?_set] at hy
  split at hy
  · rename_i hab
    subst hab
    split at hy
    · cases hy
      have hnext : ({ x with phase := .next t.rest } : TimerDriver).Sound w a :=
        hsound.phase (by rw [hphase]; exact List.sublist_cons_self _ _) trivial
      refine ⟨fun f hf ha => ?_, hnext.rows, hnext.due, fun f hf ha hcall row hrow => ?_, trivial⟩
      · rcases List.mem_append.1 hf with hf | hf
        · exact hnext.calls f hf ha
        · exact (hnew f hf).2.1.le
      · rcases List.mem_append.1 hf with hf | hf
        · exact hnext.after f hf ha hcall row hrow
        · rw [(hnew f hf).2.2]
          exact (List.pairwise_cons.1 hrows).1 row hrow
    · cases hy
  · rename_i hab
    obtain ⟨hcalls, hrows, hdue, hafter, hholds⟩ := h b y hy
    refine ⟨fun f hf hb => ?_, hrows, hdue, fun f hf hb => ?_, hholds⟩
    · rcases List.mem_append.1 hf with hf | hf
      · exact hcalls f hf hb
      · exact absurd ((hnew f hf).1.symm.trans hb) hab
    · rcases List.mem_append.1 hf with hf | hf
      · exact hafter f hf hb
      · exact absurd ((hnew f hf).1.symm.trans hb) hab

/-- **A timer that is fired** is one unit less of it, and one message more. -/
theorem FiredOnce.fire (h : w.FiredOnce r store) (hs : w.Sound) {a : Nat} {x : TimerDriver} {d : Draft} {t : FireTurn}
    (hx : w.drivers[a]? = some x) (hphase : x.phase = .drafted d t) {store' : TraceStore} {e : Nat}
    (hcommit : d.commit w.store schemas = .ok (store', .committed e)) :
    FiredOnce r store { w.setDriver a { x with phase := .next t.rest } with
      store := store', fired := w.fired ++ firedBy a x d t } := by
  have hsound := hs a x hx
  obtain ⟨due, inbox, target, body, hrow, hd⟩ : ∃ due inbox target body,
      decodeTimerRow t.row = .ok (due, inbox, target, body) ∧ x.scheduler.Drafts t.row inbox target body d := by
    have hholds := hsound.holds
    rwa [TimerDriver.Holds, hphase] at hholds
  have hnow : due ≤ x.now := by
    obtain ⟨m, hm, hle⟩ := hsound.due t.row (by rw [hphase]; exact List.mem_cons_self)
    cases hrow.symm.trans hm
    exact hle
  obtain ⟨g, hg, htimer, hmessage, hrow', hnow', hdriver, hcall⟩ : ∃ g : Fired, firedBy a x d t = [g] ∧
      g.timer = ⟨x.scheduler.timers, t.row⟩ ∧ g.message = inboxFact inbox target d.alloc.start body ∧
        decodeTimerRow g.row = .ok (due, g.inbox, g.target, g.body) ∧ due ≤ g.now ∧ g.driver = a ∧ g.call = x.calls := by
    rw [firedBy, hd.messages, hd.append]
    exact ⟨_, rfl, rfl, rfl, hrow, hnow, rfl, rfl⟩
  obtain ⟨hpre, rfl⟩ := Draft.commit_committed hd.plain hcommit
  rw [hg]
  refine ⟨fun rel row m hrel hm => ?_, fun rel row m hrel hm h0 => ?_, fun rel process seq b => ?_, fun f hf => ?_, ?_⟩
  · show (w.store.commit d.patch.updates).weight rel row + _ = _
    rw [TraceStore.weight_commit, hd.netOn_timer rel hm, timesFired, List.countP_append, List.countP_singleton,
      Nat.cast_add, htimer]
    have hunits := h.units rel row m hrel hm
    rw [timesFired] at hunits
    refine Eq.trans ?_ hunits
    by_cases hsame : x.scheduler.timers = rel ∧ t.row = row
    · rw [if_pos hsame, if_pos (decide_eq_true (by rw [hsame.1, hsame.2])), Nat.cast_one]
      ring
    · rw [if_neg hsame, if_neg fun hdec => hsame (Fact.mk.inj (of_decide_eq_true hdec)), Nat.cast_zero]
      ring
  · show 0 ≤ (w.store.commit d.patch.updates).weight rel row
    rw [TraceStore.weight_commit, hd.netOn_timer rel hm]
    have hlive := h.live rel row m hrel hm h0
    split_ifs with heq
    · obtain ⟨rfl, rfl⟩ := heq
      have hguard := hpre ⟨x.scheduler.timers, t.row⟩ (d.preconditions_base (by
        rw [hd.append]
        exact List.mem_cons_self))
      exact Int.sub_nonneg_of_le hguard
    · rwa [add_zero]
  · show (w.store.commit d.patch.updates).weight rel _ = store.weight rel _ + netOn rel _ w.wrote + _
    rw [TraceStore.weight_commit, hd.netOn_message hrow, h.messages, List.countP_append, List.countP_singleton,
      Nat.cast_add, hmessage]
    by_cases hsame : inboxFact inbox target d.alloc.start body = inboxFact rel process seq b
    · rw [if_pos hsame, if_pos (decide_eq_true hsame), Nat.cast_one, add_assoc]
    · rw [if_neg hsame, if_neg fun hdec => hsame (of_decide_eq_true hdec), Nat.cast_zero, add_assoc]
  · rcases List.mem_append.1 hf with hf | hf
    · exact h.due f hf
    · rw [List.mem_singleton.1 hf]
      exact ⟨due, hrow', hnow'⟩
  · refine List.pairwise_append.2 ⟨h.ordered, List.pairwise_singleton _ _, fun f hf g' hg' hsame hcalls => ?_⟩
    rw [List.mem_singleton.1 hg'] at hsame hcalls ⊢
    rw [show g.row = t.row from congrArg Fact.tuple htimer]
    exact hsound.after f hf (hsame.trans hdriver) (hcalls.trans hcall) t.row (by rw [hphase]; exact List.mem_cons_self)

/-- A commit that schedules timers adds a unit for each. -/
theorem FiredOnce.commit (h : w.FiredOnce r store) {p : Patch}
    (hp : ∀ u ∈ ({ p with scheduled := [] } : Patch).updates, r.timers u.1 = false ∧ r.counters u.1 = false) :
    FiredOnce r store { w with store := w.store.commit p.updates, scheduled := w.scheduled ++ p.timers,
                               wrote := w.wrote ++ p.updates } := by
  have hnet : ∀ rel row, r.timers rel = true → netOn rel row p.updates = p.timers.count ⟨rel, row⟩ := fun rel row hrel =>
    netOn_schedules (fun u hu heq => by rw [← heq, (hp u hu).1] at hrel; cases hrel) row
  refine ⟨fun rel row m hrel hm => ?_, fun rel row m hrel hm h0 => ?_, fun rel process seq b => ?_, h.due, h.ordered⟩
  · have hunits := h.units rel row m hrel hm
    show (w.store.commit p.updates).weight rel row + (w.timesFired rel row : Diff) = _
    rw [TraceStore.weight_commit, hnet rel row hrel, List.count_append, Nat.cast_add, ← add_assoc, ← hunits]
    ring
  · show 0 ≤ (w.store.commit p.updates).weight rel row
    rw [TraceStore.weight_commit, hnet rel row hrel]
    exact add_nonneg (h.live rel row m hrel hm h0) (Nat.cast_nonneg _)
  · show (w.store.commit p.updates).weight rel _ = _
    rw [TraceStore.weight_commit, h.messages, netOn_append]
    ring

theorem commitPatchChecked_committed {store store' : TraceStore} {checker : BehaviorChecker} {p : Patch} {authority : Authority}
    {e : Nat} (h : commitPatchChecked store schemas checker p authority = .ok (store', .committed e)) :
    store' = store.commit p.updates := by
  rcases commitPatchChecked_ok h with ⟨hrej, -⟩ | ⟨-, -, hstore⟩
  · cases hrej
  · exact hstore

theorem sound_step (hs : w.Sound) (hstep : w.step schemas act = some w') : w'.Sound := by
  cases step_does hs hstep with
  | stay => exact hs
  | move _ a x hx _ => exact hs.setDriver hx
  | fire a x d t hx hphase store' e hcommit => exact hs.fire hx hphase store'
  | commit p checker authority store' e hcommit =>
    intro a x hx
    obtain ⟨hcalls, hrows, hdue, hafter, hholds⟩ := hs a x hx
    exact ⟨hcalls, hrows, hdue, hafter, hholds⟩

theorem sound_start (store : TraceStore) (drivers : List Scheduler) : (start store drivers).Sound := by
  intro a x hx
  obtain ⟨s, -, rfl⟩ := List.mem_map.1 (List.mem_of_getElem? hx)
  exact ⟨nofun, .nil, nofun, nofun, trivial⟩

/-- **A step keeps what is fired once.** -/
theorem firedOnce_step (h : w.FiredOnce r store) (hs : w.Sound) (hok : w.Schedules r act)
    (hstep : w.step schemas act = some w') : w'.FiredOnce r store := by
  cases step_does hs hstep with
  | stay => exact h
  | move _ a x hx _ => exact ⟨h.units, h.live, h.messages, h.due, h.ordered⟩
  | fire a x d t hx hphase store' e hcommit => exact h.fire hs hx hphase hcommit
  | commit p checker authority store' e hcommit =>
    rw [commitPatchChecked_committed hcommit]
    exact h.commit hok

theorem firedOnce_start (r : Relations) (store : TraceStore) (drivers : List Scheduler) :
    (start store drivers).FiredOnce r store :=
  ⟨fun _ _ _ _ _ => rfl, fun _ _ _ _ _ h => h, fun _ _ _ _ => ((add_zero _).trans (add_zero _)).symm, nofun, .nil⟩

/-! ## Numbers in turn -/

section Numbers

variable {seqs : RelId} {target : Entity} {first : Int64} {earlier : List Int64}

/-- A counter that was found at a number has been drawn from so often since. -/
structure Drawn (seqs : RelId) (target : Entity) (first : Int64) (earlier : List Int64) (w : Clockwork) : Prop where
  counted : w.Counted seqs target
  numbers : ∃ count, w.numbers seqs target = earlier ++ (List.range count).map (fun i => first + Int64.ofNat i) ∧
    CounterAt w.store seqs (Scheduler.seqKey target) (first + Int64.ofNat count)

theorem Counted.setDriver (h : w.Counted seqs target) {a : Nat} {x : TimerDriver}
    (hx : ∀ d t, x.phase = .drafted d t → d.alloc.rel = seqs → d.alloc.key = Scheduler.seqKey target →
      d.alloc.present = true) : (w.setDriver a x).Counted seqs target := by
  intro y hy
  rcases List.mem_or_eq_of_mem_set hy with hmem | rfl
  · exact h y hmem
  · exact hx

/-- **A timer that is fired** takes the number its counter is at. -/
theorem Drawn.fire (h : w.Drawn seqs target first earlier) (hs : w.Sound) {a : Nat} {x : TimerDriver} {d : Draft} {t : FireTurn}
    (hx : w.drivers[a]? = some x) (hphase : x.phase = .drafted d t) {store' : TraceStore} {e : Nat}
    (hcommit : d.commit w.store schemas = .ok (store', .committed e)) :
    Drawn seqs target first earlier { w.setDriver a { x with phase := .next t.rest } with
      store := store', fired := w.fired ++ firedBy a x d t } := by
  obtain ⟨due, inbox, process, body, hrow, hd⟩ : ∃ due inbox process body,
      decodeTimerRow t.row = .ok (due, inbox, process, body) ∧ x.scheduler.Drafts t.row inbox process body d := by
    have hholds := (hs a x hx).holds
    rwa [TimerDriver.Holds, hphase] at hholds
  obtain ⟨count, hnumbers, hcounter⟩ := h.numbers
  obtain ⟨hpre, rfl⟩ := Draft.commit_committed hd.plain hcommit
  have hcounted : (w.setDriver a { x with phase := .next t.rest }).Counted seqs target := h.counted.setDriver fun _ _ heq => by
    cases heq
  refine ⟨hcounted, ?_⟩
  have hfired : Clockwork.numbers { w.setDriver a { x with phase := .next t.rest } with
      store := w.store.commit d.patch.updates, fired := w.fired ++ firedBy a x d t } seqs target
        = w.numbers seqs target ++ if x.scheduler.seqs = seqs ∧ process = target then [d.alloc.start] else [] := by
    obtain ⟨g, hg, hseqs, htarget, hseq⟩ : ∃ g : Fired, firedBy a x d t = [g] ∧ g.seqs = x.scheduler.seqs ∧
        g.target = process ∧ g.seq = d.alloc.start := by
      rw [firedBy, hd.messages, hd.append]
      exact ⟨_, rfl, rfl, rfl, rfl⟩
    rw [← hseqs, ← htarget, ← hseq, hg, Clockwork.numbers, List.filter_append, List.map_append]
    congr 1
    by_cases hown : g.seqs = seqs ∧ g.target = target
    · simp [hown]
    · simp [hown]
  rw [hfired]
  by_cases hown : x.scheduler.seqs = seqs ∧ process = target
  · obtain ⟨rfl, rfl⟩ := hown
    have hpresent := h.counted x (List.mem_of_getElem? hx) d t hphase hd.rel hd.key
    have hone : (1 : Int64) ≠ 0 := by decide
    -- the row that was read is still there, so the counter is at the number that was drawn
    have hguard : 0 < w.store.weight d.alloc.rel (SeqAlloc.counterTuple d.alloc.key d.alloc.start) := by
      refine hpre ⟨d.alloc.rel, SeqAlloc.counterTuple d.alloc.key d.alloc.start⟩ ?_
      have hmem := SeqAlloc.mem_preconditions_sealPatch (a := { d.alloc with n := 1 }) (p := d.appended) hone hpresent
      rwa [Draft.patch, hd.alloc_assign]
    have hat : CounterAt w.store d.alloc.rel d.alloc.key (first + Int64.ofNat count) := by
      rw [hd.rel, hd.key]
      exact hcounter
    have hstart : d.alloc.start = first + Int64.ofNat count := by
      by_contra hne
      rw [hat, if_neg hne] at hguard
      exact lt_irrefl _ hguard
    have hcurrent : ({ d.alloc with n := 1 } : SeqAlloc).Current w.store :=
      SeqAlloc.Current.of_guard hat hpresent hguard
    have hadvance : ∀ v, netOn d.alloc.rel (SeqAlloc.counterTuple d.alloc.key v) d.patch.updates
        = netOn d.alloc.rel (SeqAlloc.counterTuple d.alloc.key v)
          (({ d.alloc with n := 1 } : SeqAlloc).sealPatch Patch.new).updates := fun v => by
      rw [hd.key]
      exact hd.netOn_counter hrow _ process v
    have hmoved := hcurrent.advance hone hadvance
    refine ⟨count + 1, ?_, ?_⟩
    · rw [if_pos ⟨rfl, rfl⟩, hnumbers, List.range_succ, List.map_append, List.map_singleton, hstart, List.append_assoc]
    · change CounterAt _ d.alloc.rel d.alloc.key _ at hmoved
      rw [hd.rel, hd.key] at hmoved
      rw [Int64.ofNat_add, ← Int64.add_assoc, ← hstart]
      exact hmoved
  · refine ⟨count, by rw [if_neg hown, List.append_nil, hnumbers], fun v => ?_⟩
    show (w.store.commit d.patch.updates).weight _ _ = _
    rw [TraceStore.weight_commit, hd.netOn_counter hrow, SeqAlloc.netOn_sealPatch_other]
    · exact (add_zero _).trans (hcounter v)
    · rintro ⟨hrel, u, heq⟩
      refine hown ⟨hd.rel.symm.trans hrel.symm, ?_⟩
      have hkey := (SeqAlloc.counterTuple_inj heq).1
      rw [show ({ d.alloc with n := 1 } : SeqAlloc).key = d.alloc.key from rfl, hd.key] at hkey
      cases hkey
      rfl

theorem drawn_step (h : w.Drawn seqs target first earlier) (hs : w.Sound) (hseqs : r.counters seqs = true)
    (hok : w.Schedules r act) (hstep : w.step schemas act = some w') : w'.Drawn seqs target first earlier := by
  cases step_does hs hstep with
  | stay => exact h
  | move _ a x hx hdrawn =>
    refine ⟨h.counted.setDriver fun d t hphase hrel hkey => ?_, h.numbers⟩
    obtain ⟨count, -, hcounter⟩ := h.numbers
    have hread := hdrawn d t hphase
    rw [hrel, hkey, SeqAlloc.read_of_at hcounter] at hread
    exact congrArg SeqAlloc.present (Except.ok.inj hread).symm
  | fire a x d t hx hphase store' e hcommit => exact h.fire hs hx hphase hcommit
  | commit p checker authority store' e hcommit =>
    rw [commitPatchChecked_committed hcommit]
    obtain ⟨count, hnumbers, hcounter⟩ := h.numbers
    refine ⟨h.counted, count, hnumbers, Allocators.counterAt_spared hcounter fun v => ?_⟩
    have hspared : ∀ u ∈ ({ p with scheduled := [] } : Patch).updates, u.1 ≠ seqs := fun u hu heq => by
      have := (hok u hu).2
      rw [heq, hseqs] at this
      cases this
    rw [netOn_schedules hspared, List.count_eq_zero.2]
    · rfl
    · intro hmem
      obtain ⟨s, -, heq⟩ := List.mem_map.1 hmem
      have hcells := congrArg (fun f : Fact => f.tuple.cells.length) heq
      cases hcells

end Numbers

/-! ## A call that is left alone -/

/-- The steps of one driver. -/
def By (a : Nat) (_ : Clockwork) : Act → Prop
  | .fireDue b _ _ | .go b => b = a
  | _ => False

end Clockwork

namespace SeqAlloc

/-- A counter that was found is there. -/
theorem read_present {store : TraceStore} {rel : RelId} {key : List Value} {a : SeqAlloc} (h : read store rel key = .ok a)
    (hpresent : a.present = true) : 0 < store.weight rel (counterTuple key a.start) := by
  have hfold : ∀ (rows : List (Tuple × Diff)) (b : SeqAlloc), (rows.foldl meet b).present = true →
      b.present = true ∧ (rows.foldl meet b).start = b.start ∨
        ∃ row ∈ rows, numberIn b.key row = some (rows.foldl meet b).start := by
    intro rows
    induction rows with
    | nil => exact fun b hb => .inl ⟨hb, rfl⟩
    | cons row rows ih =>
      intro b hb
      have hkey : (meet b row).key = b.key := (foldl_meet [row] b).2.1
      rcases ih (meet b row) hb with ⟨hpresent, hstart⟩ | ⟨r, hr, hnumber⟩
      · rw [List.foldl_cons, hstart]
        cases hrow : numberIn b.key row with
        | some v =>
          refine .inr ⟨row, List.mem_cons_self, ?_⟩
          rw [meet, hrow]
        | none =>
          rw [meet, hrow] at hpresent ⊢
          exact .inl ⟨hpresent, rfl⟩
      · rw [hkey] at hnumber
        exact .inr ⟨r, List.mem_cons_of_mem _ hr, hnumber⟩
  rw [read_eq] at h
  cases h
  rcases hfold _ _ hpresent with ⟨hfalse, -⟩ | ⟨⟨t, d⟩, hr, hnumber⟩
  · cases hfalse
  · obtain ⟨hpos, heq⟩ := numberIn_eq_some.1 hnumber
    change t = _ at heq
    subst heq
    exact (TraceStore.mem_rowsAt.1 hr).2.symm ▸ hpos

end SeqAlloc

namespace Scheduler

variable {s : Scheduler} {row : Tuple} {inbox : RelId} {target : Entity} {body : Tuple} {d : Draft}

/-- A draft of a timer requires the timer and the counter. -/
theorem Drafts.preconditions (h : s.Drafts row inbox target body d) {f : Fact} (hf : f ∈ d.patch.preconditions) :
    f = ⟨s.timers, row⟩ ∨ d.alloc.present = true ∧ f = ⟨d.alloc.rel, SeqAlloc.counterTuple d.alloc.key d.alloc.start⟩ := by
  have hone : (1 : Int64) ≠ 0 := by decide
  rw [Draft.patch, h.alloc_assign, SeqAlloc.sealPatch, if_neg hone, Draft.appended, h.messages, h.append] at hf
  cases hpresent : d.alloc.present with
  | false =>
    rw [hpresent] at hf
    exact .inl (List.mem_singleton.1 hf)
  | true =>
    rw [hpresent] at hf
    rcases List.mem_append.1 hf with hf | hf
    · exact .inl (List.mem_singleton.1 hf)
    · exact .inr ⟨rfl, List.mem_singleton.1 hf⟩

/-- A commit that is rejected misses one of its preconditions. -/
theorem commitPatchChecked_rejected {store store' : TraceStore} {schemas : SchemaCatalog} {checker : BehaviorChecker}
    {p : Patch} {authority : Authority} (h : commitPatchChecked store schemas checker p authority = .ok (store', .rejected)) :
    ∃ f ∈ p.preconditions, ¬ 0 < store.weight f.rel f.tuple := by
  unfold commitPatchChecked at h
  obtain ⟨checked, hchecked, h⟩ := bind_ok h
  obtain ⟨hpre, -⟩ := checkPatch_ok hchecked
  dsimp only at h
  split at h
  · cases h
  · rename_i hnone
    unfold TraceStore.commitIf at hnone
    split at hnone
    · cases hnone
    · rename_i hall
      rw [hpre, List.all_map, List.all_eq_true] at hall
      simpa using hall

/-- **A try with nobody else about** fires a timer that is live, if it is not refused. -/
theorem tryFire_alone {store store' : TraceStore} {schemas : SchemaCatalog} {due : Int64} {out : Option Bool}
    (hrow : decodeTimerRow row = .ok (due, inbox, target, body)) (hlive : 0 < store.weight s.timers row)
    (h : s.tryFire store schemas row = .ok (store', out)) :
    out = some true ∧ ∃ d e, (s.append row inbox target body).draw store = .ok d ∧
      d.commit store schemas = .ok (store', .committed e) := by
  unfold tryFire at h
  rw [fireOne_live hrow hlive] at h
  obtain ⟨x, hx, h⟩ := bind_ok h
  cases hx
  obtain ⟨d, hdraw, h⟩ := bind_ok h
  obtain ⟨⟨store₁, outcome⟩, hcommit, h⟩ := bind_ok h
  cases outcome with
  | committed e =>
    cases h
    exact ⟨rfl, d, e, hdraw, hcommit⟩
  | rejected =>
    obtain ⟨hd, hread⟩ := Clockwork.draw_drafts hdraw
    have hauthority : d.append.authority = some s.authority := by rw [hd.append]; rfl
    rw [Draft.commit, hauthority] at hcommit
    obtain ⟨f, hf, hmissing⟩ := commitPatchChecked_rejected hcommit
    rcases hd.preconditions hf with rfl | ⟨hpresent, rfl⟩
    · exact absurd hlive hmissing
    · exact absurd (SeqAlloc.read_present hread hpresent) hmissing

/-- A timer that is live is fired at the first try. -/
theorem fire_alone {store store' : TraceStore} {schemas : SchemaCatalog} {due : Int64} {fired : Bool}
    (hrow : decodeTimerRow row = .ok (due, inbox, target, body)) (hlive : 0 < store.weight s.timers row)
    (h : s.fire store schemas row = .ok (store', fired)) :
    fired = true ∧ ∃ d e, (s.append row inbox target body).draw store = .ok d ∧
      d.commit store schemas = .ok (store', .committed e) := by
  have hmax : maxTries = 63 + 1 := rfl
  rw [fire, hmax, fireTries] at h
  obtain ⟨⟨store₁, out⟩, htry, h⟩ := bind_ok h
  obtain ⟨rfl, hd⟩ := tryFire_alone hrow hlive htry
  cases h
  exact ⟨rfl, hd⟩

end Scheduler

namespace Clockwork

variable {schemas : SchemaCatalog} {a : Nat}

/-- One timer of a call that is left alone. -/
theorem fireRow_alone {w : Clockwork} {x : TimerDriver} {row : Tuple} {rest : List Tuple} {m : Int64 × RelId × Entity × Tuple}
    {store' : TraceStore} {fired : Bool} (hx : w.drivers[a]? = some x) (hphase : x.phase = .next (row :: rest))
    (hrow : decodeTimerRow row = .ok m) (hlive : 0 < w.store.weight x.scheduler.timers row)
    (h : x.scheduler.fire w.store schemas row = .ok (store', fired)) :
    fired = true ∧ (∀ r m', decodeTimerRow r = .ok m' → r ≠ row →
        store'.weight x.scheduler.timers r = w.store.weight x.scheduler.timers r) ∧
      ∃ w' f, Run (step schemas) (By a) w w' ∧ w'.store = store' ∧
        w'.drivers[a]? = some { x with phase := .next rest } ∧ w'.fired = w.fired ++ [f] ∧
          f.timer = ⟨x.scheduler.timers, row⟩ := by
  obtain ⟨due, inbox, target, body⟩ := m
  obtain ⟨rfl, d, e, hdraw, hcommit⟩ := Scheduler.fire_alone hrow hlive h
  obtain ⟨hd, -⟩ := draw_drafts hdraw
  obtain ⟨g, hg, htimer⟩ : ∃ g : Fired, firedBy a x d ⟨row, rest, Scheduler.maxTries⟩ = [g] ∧
      g.timer = ⟨x.scheduler.timers, row⟩ := by
    rw [firedBy, hd.messages]
    exact ⟨_, rfl, rfl⟩
  have hat : ∀ y : TimerDriver, (w.setDriver a y).drivers[a]? = some y := fun y =>
    List.getElem?_set_self (List.getElem?_eq_some_iff.1 hx).1
  have hagain : ∀ y z : TimerDriver, (w.setDriver a y).setDriver a z = w.setDriver a z := fun y z => by
    rw [setDriver, setDriver, setDriver, List.set_set]
  -- the four steps of the loop's body
  have hattempt : step schemas w (.go a) = some (w.setDriver a { x with phase := .attempt ⟨row, rest, Scheduler.maxTries⟩ }) := by
    simp only [step, hx, hphase]
  have hready : step schemas (w.setDriver a { x with phase := .attempt ⟨row, rest, Scheduler.maxTries⟩ }) (.go a)
      = some (w.setDriver a { x with phase := .ready (x.scheduler.append row inbox target body) ⟨row, rest, Scheduler.maxTries⟩ }) := by
    simp only [step, hat, hagain]
    rw [if_neg (by decide), show (w.setDriver a _).store = w.store from rfl, Scheduler.fireOne_live hrow hlive]
  have hdrafted : step schemas (w.setDriver a
        { x with phase := .ready (x.scheduler.append row inbox target body) ⟨row, rest, Scheduler.maxTries⟩ }) (.go a)
      = some (w.setDriver a { x with phase := .drafted d ⟨row, rest, Scheduler.maxTries⟩ }) := by
    simp only [step, hat, hagain]
    rw [show (w.setDriver a _).store = w.store from rfl, hdraw]
  have hfired : step schemas (w.setDriver a { x with phase := .drafted d ⟨row, rest, Scheduler.maxTries⟩ }) (.go a)
      = some { w.setDriver a { x with phase := .next rest } with store := store', fired := w.fired ++ [g] } := by
    simp only [step, hat, hagain]
    rw [show (w.setDriver a _).store = w.store from rfl, hcommit]
    rw [← hg]
    rfl
  have hby : ∀ v, By a v (.go a) := fun _ => rfl
  have hrun := Run.snoc (.snoc (.snoc (.snoc .start (hby _) hattempt) (hby _) hready) (hby _) hdrafted) (hby _) hfired
  refine ⟨rfl, fun r m' hr hne => ?_, _, g, hrun, rfl, hat _, rfl, htimer⟩
  obtain ⟨-, rfl⟩ := Draft.commit_committed hd.plain hcommit
  rw [TraceStore.weight_commit, hd.netOn_timer _ hr, if_neg fun h => hne h.2.symm, add_zero]

/-- **The timers of a call that is left alone**, each fired in turn. -/
theorem fireRows_alone : ∀ (rows : List Tuple) {w : Clockwork} {x : TimerDriver} {store' : TraceStore} {n : Nat},
    w.drivers[a]? = some x → x.phase = .next rows → rows.Pairwise (· < ·) →
      (∀ row ∈ rows, 0 < w.store.weight x.scheduler.timers row ∧ ∃ m, decodeTimerRow row = .ok m) →
      x.scheduler.fireRows schemas rows w.store = .ok (store', n) → n = rows.length ∧
        ∃ w' fired, Run (step schemas) (By a) w w' ∧ w'.store = store' ∧
          w'.drivers[a]? = some { x with phase := .idle } ∧ w'.fired = w.fired ++ fired ∧
            fired.map Fired.timer = rows.map fun row => ⟨x.scheduler.timers, row⟩
  | [], w, x, store', n, hx, hphase, _, _, h => by
      cases h
      have hidle : step schemas w (.go a) = some (w.setDriver a { x with phase := .idle }) := by
        simp only [step, hx, hphase]
      exact ⟨rfl, _, [], .snoc .start (show By a w (.go a) from rfl) hidle, rfl, List.getElem?_set_self (List.getElem?_eq_some_iff.1 hx).1,
        (List.append_nil _).symm, rfl⟩
  | row :: rows, w, x, store', n, hx, hphase, hsorted, hlive, h => by
      rw [Scheduler.fireRows] at h
      obtain ⟨⟨store₁, fired⟩, hfire, h⟩ := bind_ok h
      dsimp only at h
      obtain ⟨⟨store₂, count⟩, hrest, hend⟩ := bind_ok h
      obtain ⟨hrow, m, hm⟩ := hlive row List.mem_cons_self
      obtain ⟨rfl, hothers, w₁, f, hrun, rfl, hx₁, hfired₁, hf⟩ := fireRow_alone hx hphase hm hrow hfire
      cases hend
      obtain ⟨hlt, hsorted⟩ := List.pairwise_cons.1 hsorted
      have hlive₁ : ∀ r ∈ rows, 0 < w₁.store.weight x.scheduler.timers r ∧ ∃ m, decodeTimerRow r = .ok m := fun r hr => by
        obtain ⟨hpos, m', hm'⟩ := hlive r (List.mem_cons_of_mem _ hr)
        rw [hothers r m' hm' (hlt r hr).ne']
        exact ⟨hpos, m', hm'⟩
      obtain ⟨rfl, w₂, fired, hrun₂, hstore, hx₂, hfired₂, htimers⟩ :=
        fireRows_alone rows hx₁ rfl hsorted hlive₁ hrest
      refine ⟨rfl, w₂, f :: fired, hrun.trans hrun₂, hstore, hx₂, ?_, ?_⟩
      · rw [hfired₂, hfired₁, List.append_assoc]
        rfl
      · rw [List.map_cons, List.map_cons, hf, htimers]

/-- **A call that is left alone** and not refused fires every timer that was due, once. -/
theorem fireDue_alone {w : Clockwork} {x : TimerDriver} {s : Scheduler} {now : Int64} {store' : TraceStore} {n : Nat}
    (hx : w.drivers[a]? = some x) (hidle : x.phase = .idle) (h : s.fireDue w.store schemas now = .ok (store', n)) :
    ∃ due, s.dueAt w.store now = .ok due ∧ n = due.length ∧ ∃ w' fired, Run (step schemas) (By a) w w' ∧
      w'.store = store' ∧ w'.fired = w.fired ++ fired ∧ fired.map Fired.timer = due.map fun row => ⟨s.timers, row⟩ := by
  obtain ⟨due, hdue, h⟩ := bind_ok h
  obtain ⟨hsorted, hmem⟩ := Scheduler.dueAt_ok hdue
  have hbegin : step schemas w (.fireDue a s now) = some (w.setDriver a ⟨x.calls + 1, s, now, .next due⟩) := by
    obtain ⟨calls, s', now', phase⟩ := x
    change phase = _ at hidle
    subst hidle
    simp only [step, begin, hx, hdue, id]
  have hx₁ : (w.setDriver a ⟨x.calls + 1, s, now, .next due⟩).drivers[a]? = some ⟨x.calls + 1, s, now, .next due⟩ :=
    List.getElem?_set_self (List.getElem?_eq_some_iff.1 hx).1
  have hlive : ∀ row ∈ due, 0 < w.store.weight s.timers row ∧ ∃ m, decodeTimerRow row = .ok m := fun row hrow => by
    obtain ⟨hpos, m, hm, -⟩ := (hmem row).1 hrow
    exact ⟨hpos, m, hm⟩
  obtain ⟨rfl, w', fired, hrun, hstore, -, hfired, htimers⟩ := fireRows_alone due hx₁ rfl hsorted hlive h
  exact ⟨due, hdue, rfl, w', fired, (Run.snoc .start (show By a w (.fireDue a s now) from rfl) hbegin).trans hrun, hstore, hfired, htimers⟩

end Clockwork

/-- Numbers one after another do not meet before they have gone all the way round. -/
theorem nodup_ramp (first : Int64) {count : Nat} (h : count ≤ 2 ^ 64) :
    ((List.range count).map fun i => first + Int64.ofNat i).Nodup := by
  refine List.nodup_range.map_on fun i hi j hj heq => ?_
  have hi := List.mem_range.1 hi
  have hj := List.mem_range.1 hj
  have hofNat : Int64.ofNat i = Int64.ofNat j := (Int64.add_right_inj first).1 heq
  have hbmod := congrArg Int64.toInt hofNat
  have hsize : Int64.size = 2 ^ 64 := rfl
  rw [Int64.toInt_ofNat', Int64.toInt_ofNat', hsize] at hbmod
  have hdvd := Int.dvd_of_bmod_eq_zero (Int.bmod_eq_bmod_iff_bmod_sub_eq_zero.1 hbmod)
  omega

/-- **Timers fire once**: whatever commits schedule and drivers fire, a unit of a timer is live or
has become one message, not before it was due, and those of one call are in order. Once a
process's counter is there, its messages are numbered in turn from there on, and a call that is
left alone, and not refused, fires every timer that is due. -/
theorem timers_fire_once {r : Clockwork.Relations} {schemas : SchemaCatalog} {store : TraceStore} {drivers : List Scheduler}
    {w₁ w : Clockwork} (h₁ : Run (Clockwork.step schemas) (Clockwork.Schedules r) (.start store drivers) w₁)
    (h : Run (Clockwork.step schemas) (Clockwork.Schedules r) w₁ w) :
    w.FiredOnce r store ∧
      (∀ seqs target first, r.counters seqs = true → w₁.Counted seqs target →
        CounterAt w₁.store seqs (Scheduler.seqKey target) first → ∃ drawn,
          w.numbers seqs target = w₁.numbers seqs target ++ drawn ∧
            drawn = (List.range drawn.length).map (fun i => first + Int64.ofNat i) ∧
            (drawn.length ≤ 2 ^ 64 → drawn.Nodup)) ∧
      ∀ (a : Nat) (x : TimerDriver) (s : Scheduler) (now : Int64) (store' : TraceStore) (n : Nat), w.drivers[a]? = some x → x.phase = .idle →
        s.fireDue w.store schemas now = .ok (store', n) → ∃ due, s.dueAt w.store now = .ok due ∧ n = due.length ∧
          ∃ w' fired, Run (Clockwork.step schemas) (Clockwork.By a) w w' ∧ w'.store = store' ∧ w'.fired = w.fired ++ fired ∧
            fired.map Fired.timer = due.map fun row => ⟨s.timers, row⟩ := by
  have hs₁ : w₁.Sound := h₁.invariant (Clockwork.sound_start store drivers) fun _ _ _ hs _ hstep => Clockwork.sound_step hs hstep
  refine ⟨?_, fun seqs target first hseqs hcounted hcounter => ?_, fun a x s now store' n => Clockwork.fireDue_alone⟩
  · exact ((h₁.trans h).invariant (I := fun w => w.FiredOnce r store ∧ w.Sound)
      ⟨Clockwork.firedOnce_start r store drivers, Clockwork.sound_start store drivers⟩ fun _ _ _ hw hok hstep =>
        ⟨Clockwork.firedOnce_step hw.1 hw.2 hok hstep, Clockwork.sound_step hw.2 hstep⟩).1
  · have hdrawn₁ : w₁.Drawn seqs target first (w₁.numbers seqs target) := by
      refine ⟨hcounted, 0, (List.append_nil _).symm, ?_⟩
      rwa [show Int64.ofNat 0 = 0 from rfl, Int64.add_zero]
    have hdrawn := (h.invariant (I := fun w => w.Drawn seqs target first (w₁.numbers seqs target) ∧ w.Sound)
      ⟨hdrawn₁, hs₁⟩ fun _ _ _ hw hok hstep => ⟨Clockwork.drawn_step hw.1 hw.2 hseqs hok hstep, Clockwork.sound_step hw.2 hstep⟩).1
    obtain ⟨count, hnumbers, -⟩ := hdrawn.numbers
    have hlen : ((List.range count).map fun i => first + Int64.ofNat i).length = count := by
      rw [List.length_map, List.length_range]
    exact ⟨_, hnumbers, by rw [hlen], fun hle => nodup_ramp first (hlen ▸ hle)⟩

/-! ## A bell that is to ring twice -/

namespace Clockwork

def bell : Scheduled := ⟨14, 5, 10, ⟨1⟩, ⟨[.text "ding"]⟩⟩

def ringer : Scheduler := ⟨14, 12, ⟨0, [⟨10, none⟩, ⟨12, none⟩, ⟨14, none⟩]⟩⟩

/-- Relation 14 holds timers, relation 12 counters. -/
def sampleRelations : Relations := ⟨fun rel => rel == 14, fun rel => rel == 12⟩

/-- The bell is scheduled twice; both drivers see it and draw before either commits. -/
def ringTwice : List Act :=
  [.commit ((Patch.new.schedule bell).schedule bell) noBehaviorCheck ringer.authority,
    .fireDue 0 ringer 5, .fireNextDue 1 ringer 5, .go 0, .go 1, .go 0, .go 1, .go 0, .go 1, .go 0, .go 1]

/-- The one that lost the race for the counter tries again. -/
def ringAgain : List Act := ringTwice ++ [.go 1, .go 1, .go 1]

/-- **A counter that nobody seeded** gives two messages one number. -/
theorem bell_one_number : ¬ ∀ (r : Relations) (schemas : SchemaCatalog) (store : TraceStore) (drivers : List Scheduler)
    (w : Clockwork), Run (step schemas) (Schedules r) (.start store drivers) w →
      ∀ seqs target, (w.numbers seqs target).Nodup := by
  intro hall
  have hran : (executeChecked (step noSchemas) (fun w act => decide (w.Schedules sampleRelations act))
      (.start .empty [ringer, ringer]) ringTwice).map (·.numbers 12 ⟨1⟩) = some [0, 0] := by decide +kernel
  obtain ⟨w, hw, hnumbers⟩ := Option.map_eq_some_iff.1 hran
  have hnodup := hall _ _ _ _ w (.ofChecked ringTwice (fun _ _ _ h => of_decide_eq_true h) _ hw) 12 ⟨1⟩
  rw [hnumbers] at hnodup
  exact absurd hnodup (by decide)

theorem bell_rings_twice : ∃ w : Clockwork, w.FiredOnce sampleRelations (countedFrom 12 [.ent ⟨1⟩] 0) ∧
    w.timesFired 14 (timerRow bell) = 2 ∧ w.numbers 12 ⟨1⟩ = [0, 1] := by
  have hran : (executeChecked (step noSchemas) (fun w act => decide (w.Schedules sampleRelations act))
      (.start (countedFrom 12 [.ent ⟨1⟩] 0) [ringer, ringer]) ringAgain).map
        (fun w => (w.timesFired 14 (timerRow bell), w.numbers 12 ⟨1⟩)) = some (2, [0, 1]) := by decide +kernel
  obtain ⟨w, hw, heq⟩ := Option.map_eq_some_iff.1 hran
  obtain ⟨hfired, hnumbers⟩ := Prod.mk.inj heq
  exact ⟨w, (timers_fire_once .start (.ofChecked ringAgain (fun _ _ _ h => of_decide_eq_true h) _ hw)).1, hfired, hnumbers⟩

end Clockwork

end Grmpl

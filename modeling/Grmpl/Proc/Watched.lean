import Grmpl.Proc.Mailroom

/-!
# What a watch appends

The appends of a store are recorded as they are committed. Where a watch is installed
once and nobody else writes its cursor, its batches cover consecutive intervals from
the edition it was installed at to the one its cursor is at, and each is what its view
answered of its interval.

* `Batch`, `Consecutive`: the batches of a watch, end to end.
* `Watched`, `Watched.step`: a mailroom whose commits are recorded.
* `Fed`: the invariant.
* `fed_run`: the run.
-/

open OrdMap Runs Numbering

namespace Grmpl

open Mailroom

/-- The activations of one interval of editions. -/
structure Batch where
  start : Nat
  upTo : Nat
  bodies : List Tuple
  deriving DecidableEq

/-- Batches of intervals that follow one another, from one edition to another. -/
def Consecutive (start : Nat) : List Batch → Nat → Prop
  | [], last => start = last
  | b :: bs, last => b.start = start ∧ start < b.upTo ∧ Consecutive b.upTo bs last

theorem Consecutive.snoc {last upTo : Nat} {bodies : List Tuple} (hlt : last < upTo) :
    ∀ {bs : List Batch} {start : Nat}, Consecutive start bs last →
      Consecutive start (bs ++ [⟨last, upTo, bodies⟩]) upTo := by
  intro bs
  induction bs with
  | nil =>
    rintro start rfl
    exact ⟨rfl, hlt, rfl⟩
  | cons b bs ih => exact fun h => ⟨h.1, h.2.1, ih h.2.2⟩

namespace OnWatch

variable (o : OnWatch)

/-- A row the watch's cursor would be read from. -/
def Own (rel : RelId) (t : Tuple) : Prop := rel = o.cursorRel ∧ t.cells[0]? = some (.ent o.watch)

/-- Updates that leave the cursor's rows alone. -/
def Spares (updates : List (RelId × Tuple × Diff)) : Prop := ∀ u ∈ updates, ¬ o.Own u.1 u.2.1

instance (rel : RelId) (t : Tuple) : Decidable (o.Own rel t) := inferInstanceAs (Decidable (_ ∧ _))

instance (updates : List (RelId × Tuple × Diff)) : Decidable (o.Spares updates) :=
  inferInstanceAs (Decidable (∀ u ∈ updates, _))

/-- What a pump appends of an interval. -/
def pumped (start upTo : Nat) (rows : List (Tuple × Diff)) : Append where
  inbox := o.inbox
  target := o.target
  seqs := o.seqs
  key := o.seqKey
  bodies := rows.map fun r => activationBody r.2 r.1
  base := (Patch.new.expect ⟨o.cursorRel, o.cursorTuple start⟩).advanceCursor
    ⟨o.cursorRel, some (o.cursorTuple start), o.cursorTuple upTo⟩
  authority := some o.authority

/-- The batch of an append that moves the watch's cursor. -/
def batchOf (x : Append) : Option Batch := do
  let mv ← x.base.cursorAdvance
  let old ← mv.retract
  let start ← o.cursorIn (old, 1)
  let upTo ← o.cursorIn (mv.assert, 1)
  if mv.rel = o.cursorRel then return ⟨start, upTo, x.bodies⟩ else none

/-- The edition a patch that starts the watch's cursor starts it at. -/
def startOf (p : Patch) : Option Nat :=
  p.asserts.findSome? fun f => if f.rel = o.cursorRel then o.cursorIn (f.tuple, 1) else none

/-- What the view says of an interval is a function of the history up to its end. -/
def Settled (o : OnWatch) : Prop :=
  ∀ (store : TraceStore) (updates : List (RelId × Tuple × Diff)) (start upTo : Nat), upTo ≤ store.current →
    o.view (store.commit updates) start upTo = o.view store start upTo

end OnWatch

/-- A mailroom, the appends committed, and the patches that made a counter's first row. -/
structure Watched where
  room : Mailroom
  appended : List Append
  seeded : List Patch

namespace Watched

/-- What the appenders do next; a commit that goes through is recorded. -/
def step (schemas : SchemaCatalog) (w : Watched) (a : Mailroom.Act) : Option Watched :=
  (w.room.step schemas a).map fun room =>
    match a with
    | .commit k =>
        if w.room.store.current < room.store.current then
          match w.room.appenders[k]? with
          | some (.drafted d) => ⟨room, w.appended ++ [d.append], w.seeded⟩
          | some (.seeding s) => ⟨room, w.appended, w.seeded ++ [s.base]⟩
          | _ => ⟨room, w.appended, w.seeded⟩
        else ⟨room, w.appended, w.seeded⟩
    | _ => ⟨room, w.appended, w.seeded⟩

/-- The batches of a watch, in the order they were committed. -/
def batches (w : Watched) (o : OnWatch) : List Batch := w.appended.filterMap o.batchOf

/-- The editions a watch was installed at. -/
def starts (w : Watched) (o : OnWatch) : List Nat := w.seeded.filterMap o.startOf

end Watched

/-- A watch's identity is its own, it is installed once, its cursor's rows are left to
it, and the editions fit them. -/
def KeepsWatch (o : OnWatch) (w : Mailroom) : Mailroom.Act → Prop
  | .cursor _ watch => watch.cursorRel = o.cursorRel → watch.watch = o.watch → watch = o
  | .batch _ => w.store.current < 2 ^ 63
  | .fire _ scheduler _ => scheduler.timers ≠ o.cursorRel
  | .commit a => match w.appenders[a]? with
      | some (.drafted d) => d.append.inbox ≠ o.cursorRel ∧ d.alloc.rel ≠ o.cursorRel
      | some (.seeding s) => s.alloc.rel ≠ o.cursorRel ∧ (o.Spares s.base.updates ∨
          o.cursor w.store = .ok none ∧
            ∃ start < 2 ^ 63, s.base = Patch.new.assert ⟨o.cursorRel, o.cursorTuple start⟩)
      | _ => True
  | .enqueue inbox _ _ _ => inbox ≠ o.cursorRel
  | .deliver m seen sender seq => o.Spares (m.arrival seen sender seq)
  | .other updates => o.Spares updates
  | _ => True

/-- The condition but for the watch's identity, as a check. -/
def checkWatch (o : OnWatch) (w : Mailroom) : Mailroom.Act → Bool
  | .batch _ => decide (w.store.current < 2 ^ 63)
  | .fire _ scheduler _ => decide (scheduler.timers ≠ o.cursorRel)
  | .commit a => match w.appenders[a]? with
      | some (.drafted d) => decide (d.append.inbox ≠ o.cursorRel ∧ d.alloc.rel ≠ o.cursorRel)
      | some (.seeding s) => decide (s.alloc.rel ≠ o.cursorRel) && (decide (o.Spares s.base.updates) ||
          (decide (o.cursor w.store = .ok none) && (o.startOf s.base).any fun start =>
            decide (start < 2 ^ 63 ∧ s.base = Patch.new.assert ⟨o.cursorRel, o.cursorTuple start⟩)))
      | _ => true
  | .enqueue inbox _ _ _ => decide (inbox ≠ o.cursorRel)
  | .deliver m seen sender seq => decide (o.Spares (m.arrival seen sender seq))
  | .other updates => decide (o.Spares updates)
  | _ => true

theorem keepsWatch_of_check {o : OnWatch} {w : Mailroom} {a : Mailroom.Act}
    (hid : ∀ k watch, a = .cursor k watch → watch.cursorRel = o.cursorRel → watch.watch = o.watch → watch = o)
    (h : checkWatch o w a = true) : KeepsWatch o w a := by
  cases a with
  | cursor k watch => exact hid k watch rfl
  | commit k =>
    simp only [checkWatch] at h
    simp only [KeepsWatch]
    split at h
    · simpa using h
    · simp only [Bool.and_eq_true, Bool.or_eq_true, decide_eq_true_eq, Option.any_eq_true] at h
      exact ⟨h.1, h.2.imp_right fun hinstall => ⟨hinstall.1, hinstall.2.imp fun _ hs => hs.2⟩⟩
    · trivial
  | batch k =>
    have hdec := of_decide_eq_true h
    exact hdec
  | fire k scheduler row =>
    have hdec := of_decide_eq_true h
    exact hdec
  | enqueue inbox process seq body =>
    have hdec := of_decide_eq_true h
    exact hdec
  | deliver m seen sender seq =>
    have hdec := of_decide_eq_true h
    exact hdec
  | other updates =>
    have hdec := of_decide_eq_true h
    exact hdec
  | _ => trivial

/-! ## The batches -/

section Batches

variable {o : OnWatch} {store : TraceStore}

/-- An append that leaves the watch's cursor alone, or is a batch of the watch: what its
view answered of an interval. -/
def OnWatch.Appends (o : OnWatch) (store : TraceStore) (x : Append) : Prop :=
  o.Spares x.base.updates ∨ ∃ start upTo rows, start < upTo ∧ upTo ≤ store.current ∧ upTo < 2 ^ 63 ∧
    o.view store start upTo = .ok rows ∧ rows ≠ [] ∧ x = o.pumped start upTo rows

theorem OnWatch.Appends.commit (hview : o.Settled) {x : Append} (h : o.Appends store x)
    (updates : List (RelId × Tuple × Diff)) : o.Appends (store.commit updates) x := by
  refine h.imp_right ?_
  rintro ⟨start, upTo, rows, hlt, hle, hroom, hrows, hne, rfl⟩
  refine ⟨start, upTo, rows, hlt, ?_, hroom, ?_, hne, rfl⟩
  · rw [TraceStore.current_commit]
    omega
  · rw [hview store updates start upTo hle]
    exact hrows

theorem OnWatch.cursorIn_cursorTuple {e : Nat} (h : e < 2 ^ 63) : o.cursorIn (o.cursorTuple e, 1) = some e := by
  unfold OnWatch.cursorIn
  rw [if_pos ⟨Int.one_pos, rfl⟩]
  show some (max (Int64.ofNat e).toInt 0).toNat = some e
  rw [Int64.toInt_ofNat_of_lt h]
  simp

theorem OnWatch.cursorTuple_inj {e e' : Nat} (he : e < 2 ^ 63) (he' : e' < 2 ^ 63)
    (h : o.cursorTuple e = o.cursorTuple e') : e = e' := by
  have hcell := OnWatch.cursorIn_cursorTuple (o := o) he
  rw [h, OnWatch.cursorIn_cursorTuple he'] at hcell
  exact (Option.some.inj hcell).symm

/-- A row the cursor is read from is the watch's own. -/
theorem OnWatch.own_of_cursorIn {t : Tuple} {d : Diff} {e : Nat} (h : o.cursorIn (t, d) = some e) :
    0 < d ∧ o.Own o.cursorRel t ∧ ∃ k : Int64, t.cells[1]? = some (.int k) ∧ e = (max k.toInt 0).toNat := by
  unfold OnWatch.cursorIn at h
  split_ifs at h with hrow
  refine ⟨hrow.1, ⟨rfl, hrow.2⟩, ?_⟩
  split at h
  · rename_i k hk
    exact ⟨k, hk, (Option.some.inj h).symm⟩
  · cases h

/-- A pump's append is a batch of its watch. -/
theorem OnWatch.batchOf_pumped {start upTo : Nat} (hlt : start < upTo) (hroom : upTo < 2 ^ 63)
    (rows : List (Tuple × Diff)) : o.batchOf (o.pumped start upTo rows)
      = some ⟨start, upTo, (o.pumped start upTo rows).bodies⟩ := by
  have hstart := OnWatch.cursorIn_cursorTuple (o := o) (hlt.trans hroom)
  have hupTo := OnWatch.cursorIn_cursorTuple (o := o) hroom
  unfold OnWatch.batchOf
  simp only [OnWatch.pumped, Patch.advanceCursor, Option.bind_eq_bind, Option.bind_some, hstart, hupTo]
  rfl

/-- An append that leaves the cursor alone is no batch. -/
theorem OnWatch.batchOf_spares {x : Append} (h : o.Spares x.base.updates) : o.batchOf x = none := by
  cases hx : o.batchOf x with
  | none => rfl
  | some b =>
    unfold OnWatch.batchOf at hx
    simp only [Option.bind_eq_bind, Option.bind_eq_some_iff] at hx
    obtain ⟨mv, hmv, old, -, start, -, upTo, hupTo, hx⟩ := hx
    split_ifs at hx with hrel
    obtain ⟨-, hown, -⟩ := OnWatch.own_of_cursorIn hupTo
    refine absurd ⟨hrel, hown.2⟩ (h (mv.rel, mv.assert, 1) ?_)
    simp [Patch.updates, hmv, CursorMove.updates]

theorem OnWatch.startOf_spares {p : Patch} (h : o.Spares p.updates) : o.startOf p = none := by
  rw [OnWatch.startOf, List.findSome?_eq_none_iff]
  intro f hf
  split_ifs with hrel
  · cases he : o.cursorIn (f.tuple, 1) with
    | none => rfl
    | some e =>
      obtain ⟨-, hown, -⟩ := OnWatch.own_of_cursorIn he
      refine absurd ⟨hrel, hown.2⟩ (h (f.rel, f.tuple, 1) ?_)
      simp only [Patch.updates, List.mem_append, List.mem_map]
      exact .inl (.inl (.inl ⟨f, hf, rfl⟩))
  · rfl

theorem OnWatch.startOf_install {start : Nat} (h : start < 2 ^ 63) :
    o.startOf (Patch.new.assert ⟨o.cursorRel, o.cursorTuple start⟩) = some start := by
  simp [OnWatch.startOf, Patch.assert, Patch.new, OnWatch.cursorIn_cursorTuple h]

/-- A pump that appends has something its view answered. -/
theorem OnWatch.batch_some {start : Nat} {x : Append} (h : o.batch store start = .ok (some x)) :
    ∃ rows, start < store.current ∧ o.quiet store start store.current = .ok false ∧
      o.view store start store.current = .ok rows ∧ rows ≠ [] ∧ x = o.pumped start store.current rows := by
  unfold OnWatch.batch at h
  dsimp only at h
  split at h
  · cases h
  · rename_i hle
    obtain ⟨quiet, hquiet, h⟩ := bind_ok h
    cases quiet
    · obtain ⟨rows, hrows, h⟩ := bind_ok h
      split at h
      · cases h
      · rename_i hne
        cases h
        exact ⟨rows, not_le.1 hle, hquiet, hrows, by simpa using hne, rfl⟩
    · cases h

/-- The updates of a pump's own patch are its cursor's move. -/
theorem OnWatch.mem_pumped_base {start upTo : Nat} {rows : List (Tuple × Diff)} {u : RelId × Tuple × Diff}
    (h : u ∈ (o.pumped start upTo rows).base.updates) :
    u = (o.cursorRel, o.cursorTuple start, -1) ∨ u = (o.cursorRel, o.cursorTuple upTo, 1) := by
  simpa [OnWatch.pumped, Patch.updates, Patch.emitted, Patch.advanceCursor, Patch.expect, Patch.new,
    CursorMove.updates] using h

/-- Another watch's batch leaves the cursor alone. -/
theorem OnWatch.spares_pumped {o' : OnWatch} (h : ¬ (o'.cursorRel = o.cursorRel ∧ o'.watch = o.watch))
    (start upTo : Nat) (rows : List (Tuple × Diff)) : o.Spares (o'.pumped start upTo rows).base.updates := by
  intro u hu hown
  rcases OnWatch.mem_pumped_base hu with rfl | rfl
  · exact h ⟨hown.1, Value.ent.inj (Option.some.inj hown.2)⟩
  · exact h ⟨hown.1, Value.ent.inj (Option.some.inj hown.2)⟩

end Batches

/-! ## The cursor -/

section Runs

variable {o : OnWatch} {schemas : SchemaCatalog} {w w' : Watched} {a : Mailroom.Act}

/-- What an appender is about to commit leaves the watch's cursor alone or is a batch of
the watch. -/
def OnWatch.PhaseAppends (o : OnWatch) (store : TraceStore) : Phase → Prop
  | .positioned watch _ => watch.cursorRel = o.cursorRel → watch.watch = o.watch → watch = o
  | .ready x => o.Appends store x
  | .drafted d => o.Appends store d.append
  | _ => True

/-- The cursor's rows: none of an edition before the watch is installed, then one of
weight one, at the end of its batches. -/
def CursorAt (o : OnWatch) (w : Watched) : Prop :=
  (w.starts o = [] ∧ w.batches o = [] ∧ ∀ t, o.Own o.cursorRel t → w.room.store.weight o.cursorRel t = 0) ∨
    ∃ start last, w.starts o = [start] ∧ Consecutive start (w.batches o) last ∧ last < 2 ^ 63 ∧
      ∀ t, o.Own o.cursorRel t → w.room.store.weight o.cursorRel t = if t = o.cursorTuple last then 1 else 0

/-- The batches of the watch are what its view answered, end to end, and its cursor is at
their end. -/
structure Fed (o : OnWatch) (w : Watched) : Prop where
  appended : ∀ x ∈ w.appended, o.Appends w.room.store x
  phases : ∀ x ∈ w.room.appenders, o.PhaseAppends w.room.store x
  cursor : CursorAt o w

/-- A cursor that is read as missing has no row. -/
theorem CursorAt.of_absent (h : CursorAt o w) (hnone : o.cursor w.room.store = .ok none) :
    w.starts o = [] ∧ w.batches o = [] ∧
      ∀ t, o.Own o.cursorRel t → w.room.store.weight o.cursorRel t = 0 := by
  rcases h with h | ⟨start, last, -, -, hroom, hrow⟩
  · exact h
  · have hmem : (o.cursorTuple last, (1 : Diff)) ∈ w.room.store.rowsAt o.cursorRel w.room.store.current := by
      refine TraceStore.mem_rowsAt.2 ⟨by decide, ?_⟩
      rw [hrow _ ⟨rfl, rfl⟩, if_pos rfl]
    unfold OnWatch.cursor at hnone
    rw [TraceStore.readAt_current] at hnone
    have hread := List.findSome?_eq_none_iff.1 (Except.ok.inj hnone) _ hmem
    rw [OnWatch.cursorIn_cursorTuple hroom] at hread
    cases hread

theorem netOn_spared {updates : List (RelId × Tuple × Diff)} (h : o.Spares updates) {t : Tuple}
    (ht : o.Own o.cursorRel t) : netOn o.cursorRel t updates = 0 := by
  refine netOn_eq_zero fun u hu hut => h u hu ?_
  rw [hut.1, hut.2]
  exact ht

/-- Updates that leave the cursor alone leave it where it was. -/
theorem CursorAt.spared (h : CursorAt o w) {updates : List (RelId × Tuple × Diff)}
    (hnet : ∀ t, o.Own o.cursorRel t → netOn o.cursorRel t updates = 0) {v : Watched}
    (hstore : v.room.store = w.room.store.commit updates) (hstarts : v.starts o = w.starts o)
    (hbatches : v.batches o = w.batches o) : CursorAt o v := by
  have hsame : ∀ t, o.Own o.cursorRel t →
      v.room.store.weight o.cursorRel t = w.room.store.weight o.cursorRel t := by
    intro t ht
    rw [hstore, TraceStore.weight_commit, hnet t ht, add_zero]
  unfold CursorAt
  rw [hstarts, hbatches]
  rcases h with ⟨hs, hb, hrow⟩ | ⟨start, last, hs, hc, hroom, hrow⟩
  · exact .inl ⟨hs, hb, fun t ht => (hsame t ht).trans (hrow t ht)⟩
  · exact .inr ⟨start, last, hs, hc, hroom, fun t ht => (hsame t ht).trans (hrow t ht)⟩

/-- **A batch moves the cursor from its start to its end, once.** -/
theorem CursorAt.append (h : CursorAt o w) {d : Draft} {start upTo : Nat} {rows : List (Tuple × Diff)}
    (hlt : start < upTo) (hroom : upTo < 2 ^ 63) (hd : d.append = o.pumped start upTo rows)
    (hinbox : d.append.inbox ≠ o.cursorRel) (hseqs : d.alloc.rel ≠ o.cursorRel)
    (hpre : ∀ f ∈ d.patch.preconditions, 0 < w.room.store.weight f.rel f.tuple) {v : Watched}
    (hstore : v.room.store = w.room.store.commit d.patch.updates) (hseeded : v.seeded = w.seeded)
    (happended : v.appended = w.appended ++ [d.append]) : CursorAt o v := by
  have hguard := hpre ⟨o.cursorRel, o.cursorTuple start⟩ (d.preconditions_base (by
    rw [hd]
    exact List.mem_singleton_self _))
  rcases h with ⟨-, -, hrow⟩ | ⟨first, last, hs, hc, hlast, hrow⟩
  · exact absurd hguard (by rw [hrow _ ⟨rfl, rfl⟩]; exact lt_irrefl _)
  · -- the guard holds only of the cursor's one row
    rw [hrow _ ⟨rfl, rfl⟩] at hguard
    split_ifs at hguard with heq
    · obtain rfl := OnWatch.cursorTuple_inj (hlt.trans hroom) hlast heq
      refine .inr ⟨first, upTo, ?_, ?_, hroom, fun t ht => ?_⟩
      · rw [← hs, Watched.starts, hseeded]
        rfl
      · have hb : v.batches o = w.batches o ++ [⟨start, upTo, (o.pumped start upTo rows).bodies⟩] := by
          rw [Watched.batches, happended, List.filterMap_append, hd]
          congr 1
          rw [List.filterMap_cons, OnWatch.batchOf_pumped hlt hroom]
          rfl
        rw [hb]
        exact hc.snoc hlt
      · have hne : o.cursorTuple start ≠ o.cursorTuple upTo := fun h =>
          hlt.ne (OnWatch.cursorTuple_inj (hlt.trans hroom) hroom h)
        have hnet : netOn o.cursorRel t d.append.base.updates = (if o.cursorTuple start = t then -1 else 0)
            + if o.cursorTuple upTo = t then 1 else 0 := by
          rw [hd]
          simp [OnWatch.pumped, Patch.updates, Patch.emitted, Patch.advanceCursor, Patch.expect, Patch.new,
            CursorMove.updates]
        rw [hstore, TraceStore.weight_commit, d.netOn_elsewhere hinbox hseqs, hrow t ht, hnet]
        by_cases hold : t = o.cursorTuple start
        · subst hold
          simp [hne, hne.symm]
        · simp [hold, Ne.symm hold, eq_comm]
    · exact absurd hguard (lt_irrefl 0)

/-- What appenders are about to commit leaves the cursor alone or is a batch. -/
theorem phases_fed (h : ∀ x ∈ w.room.appenders, o.PhaseAppends w.room.store x) (hok : KeepsWatch o w.room a)
    {room : Mailroom} (hstep : w.room.step schemas a = some room) :
    ∀ x ∈ room.appenders, o.PhaseAppends w.room.store x := by
  refine Mailroom.produces_step
    { idle := trivial
      seeding := fun _ => trivial
      enqueued := fun _ _ _ _ => .inl fun u hu => absurd hu (by
        simp [Grmpl.enqueueSeq, Patch.updates, Patch.emitted, Patch.new])
      fired := fun k scheduler row x hk hx => .inl ?_
      positioned := fun k watch start hk => ?_
      batched := fun k watch start x hk hid hx => ?_
      drawn := fun _ _ hx => hx } h hstep
  · subst hk
    unfold Scheduler.fireOne at hx
    obtain ⟨⟨due, inbox, target, body⟩, -, hx⟩ := bind_ok hx
    obtain ⟨live, -, hx⟩ := bind_ok hx
    cases live
    · cases hx
    · cases hx
      intro u hu hown
      obtain rfl : u = (scheduler.timers, row, -1) := by
        simpa [Patch.updates, Patch.emitted, Patch.retract, Patch.expect, Patch.new] using hu
      exact hok hown.1
  · subst hk
    exact hok
  · subst hk
    obtain ⟨rows, hlt, -, hrows, hne, rfl⟩ := OnWatch.batch_some hx
    by_cases hsame : watch.cursorRel = o.cursorRel ∧ watch.watch = o.watch
    · obtain rfl := hid hsame.1 hsame.2
      exact .inr ⟨start, _, rows, hlt, le_rfl, hok, hrows, hne, rfl⟩
    · exact .inl (OnWatch.spares_pumped hsame _ _ _)

theorem OnWatch.PhaseAppends.commit (hview : o.Settled) {store : TraceStore} {x : Phase}
    (h : o.PhaseAppends store x) (updates : List (RelId × Tuple × Diff)) :
    o.PhaseAppends (store.commit updates) x := by
  cases x with
  | ready x => exact OnWatch.Appends.commit hview h updates
  | drafted d => exact OnWatch.Appends.commit hview h updates
  | _ => exact h

/-- What a step records: nothing, or what it committed. -/
inductive Watched.Does (w : Watched) : Mailroom.Act → Watched → Prop
  | rest (a : Mailroom.Act) (room : Mailroom) : room.store = w.room.store → room.given = w.room.given →
      Does w a ⟨room, w.appended, w.seeded⟩
  | append (k : Nat) (d : Draft) (room : Mailroom) : w.room.appenders[k]? = some (.drafted d) →
      (∀ f ∈ d.patch.preconditions, 0 < w.room.store.weight f.rel f.tuple) →
      room.store = w.room.store.commit d.patch.updates → room.given = w.room.given ++ d.given →
      Does w (.commit k) ⟨room, w.appended ++ [d.append], w.seeded⟩
  | seed (k : Nat) (s : Seed) (room : Mailroom) : w.room.appenders[k]? = some (.seeding s) →
      room.store = w.room.store.commit (s.alloc.seed s.base).updates → room.given = w.room.given →
      Does w (.commit k) ⟨room, w.appended, w.seeded ++ [s.base]⟩
  | enqueue (inbox : RelId) (process : Entity) (seq : Int64) (body : Tuple) (room : Mailroom) :
      room.store = w.room.store.commit [(inbox, (inboxFact inbox process seq body).tuple, 1)] →
      room.given = w.room.given ++ [⟨inbox, process, none, seq, body⟩] →
      Does w (.enqueue inbox process seq body) ⟨room, w.appended, w.seeded⟩
  | deliver (m : Message) (seen : RelId) (sender : DomainId) (seq : Int64) (room : Mailroom) :
      room.store = w.room.store.commit (m.arrival seen sender seq) →
      room.given = w.room.given ++ m.given.toList →
      Does w (.deliver m seen sender seq) ⟨room, w.appended, w.seeded⟩
  | other (updates : List (RelId × Tuple × Diff)) (room : Mailroom) :
      room.store = w.room.store.commit updates → room.given = w.room.given →
      Does w (.other updates) ⟨room, w.appended, w.seeded⟩

theorem Watched.step_does (hs : w.room.Sound) (h : Watched.step schemas w a = some w') :
    Watched.Does w a w' := by
  obtain ⟨room, hroom, hw'⟩ := Option.map_eq_some_iff.1 h
  cases Mailroom.step_does hs hroom with
  | stay =>
    split at hw'
    · simp only [lt_irrefl, if_false] at hw'
      exact hw' ▸ .rest _ _ rfl rfl
    · exact hw' ▸ .rest _ _ rfl rfl
  | move _ k x hx =>
    split at hw'
    · simp only [Mailroom.setPhase, lt_irrefl, if_false] at hw'
      exact hw' ▸ .rest _ _ rfl rfl
    · exact hw' ▸ .rest _ _ rfl rfl
  | append k d hd store e hc =>
    obtain ⟨hpre, hstore⟩ := Draft.commit_committed (hs _ (List.mem_of_getElem? hd)).2.2 hc
    subst hstore
    simp only [hd, TraceStore.current_commit, Nat.lt_succ_self, if_true] at hw'
    exact hw' ▸ .append k d _ hd hpre rfl rfl
  | seed k s hphase store e hc =>
    have hstore := Seed.commit_committed (hs _ (List.mem_of_getElem? hphase)) hc
    subst hstore
    simp only [hphase, TraceStore.current_commit, Nat.lt_succ_self, if_true] at hw'
    exact hw' ▸ .seed k s _ hphase rfl rfl
  | enqueue inbox process seq body => exact hw' ▸ .enqueue inbox process seq body _ rfl rfl
  | deliver m seen sender seq => exact hw' ▸ .deliver m seen sender seq _ rfl rfl
  | other updates => exact hw' ▸ .other updates _ rfl rfl

theorem Watched.room_of_step {room : Mailroom} (hroom : w.room.step schemas a = some room)
    (h : Watched.step schemas w a = some w') : w'.room = room := by
  unfold Watched.step at h
  rw [hroom, Option.map_some, Option.some.injEq] at h
  rw [← h]
  split
  · split
    · split <;> rfl
    · rfl
  · rfl

/-- Updates that leave the cursor alone keep what is known of the watch. -/
theorem Fed.spared (h : Fed o w) (hview : o.Settled) {updates : List (RelId × Tuple × Diff)}
    (hnet : ∀ t, o.Own o.cursorRel t → netOn o.cursorRel t updates = 0) {room : Mailroom}
    (hstore : room.store = w.room.store.commit updates)
    (hphases : ∀ x ∈ room.appenders, o.PhaseAppends w.room.store x) :
    Fed o ⟨room, w.appended, w.seeded⟩ where
  appended x hx := hstore ▸ (h.appended x hx).commit hview updates
  phases x hx := hstore ▸ (hphases x hx).commit hview updates
  cursor := h.cursor.spared hnet hstore rfl rfl

/-- **Every step keeps the batches of a watch end to end.** -/
theorem fed_step (hview : o.Settled) (h : Fed o w) (hs : w.room.Sound) (hok : KeepsWatch o w.room a)
    (hstep : Watched.step schemas w a = some w') : Fed o w' := by
  obtain ⟨room, hroom, -⟩ := Option.map_eq_some_iff.1 hstep
  have hphases : ∀ x ∈ w'.room.appenders, o.PhaseAppends w.room.store x := by
    rw [Watched.room_of_step hroom hstep]
    exact phases_fed h.phases hok hroom
  cases Watched.step_does hs hstep with
  | rest _ room hstore hgiven =>
    refine ⟨fun x hx => hstore ▸ h.appended x hx, fun x hx => hstore ▸ hphases x hx, ?_⟩
    exact h.cursor.imp (fun hc => ⟨hc.1, hc.2.1, hstore ▸ hc.2.2⟩)
      fun ⟨start, last, hstart, hc, hroom, hrow⟩ => ⟨start, last, hstart, hc, hroom, hstore ▸ hrow⟩
  | append k d room hd hpre hstore hgiven =>
    simp only [KeepsWatch, hd] at hok
    have hmine := h.phases _ (List.mem_of_getElem? hd)
    refine ⟨fun x hx => ?_, fun x hx => hstore ▸ (hphases x hx).commit hview _, ?_⟩
    · refine hstore ▸ OnWatch.Appends.commit hview ?_ _
      rcases List.mem_append.1 hx with hx | hx
      · exact h.appended x hx
      · exact List.mem_singleton.1 hx ▸ hmine
    · rcases hmine with hspares | ⟨start, upTo, rows, hlt, -, hroom, -, -, heq⟩
      · refine h.cursor.spared (fun t ht => ?_) hstore rfl ?_
        · rw [d.netOn_elsewhere hok.1 hok.2]
          exact netOn_spared hspares ht
        · simp [Watched.batches, OnWatch.batchOf_spares hspares]
      · exact h.cursor.append hlt hroom heq hok.1 hok.2 hpre hstore rfl rfl
  | seed k s room hphase hstore hgiven =>
    simp only [KeepsWatch, hphase] at hok
    obtain ⟨hseqs, hbase⟩ := hok
    have hnet : ∀ t, netOn o.cursorRel t (s.alloc.seed s.base).updates
        = netOn o.cursorRel t s.base.updates := by
      intro t
      rw [SeqAlloc.seed]
      split
      · rfl
      · simp [hseqs]
    refine ⟨fun x hx => hstore ▸ (h.appended x hx).commit hview _,
      fun x hx => hstore ▸ (hphases x hx).commit hview _, ?_⟩
    rcases hbase with hspares | ⟨hnone, start, hstart, hinstall⟩
    · refine h.cursor.spared (fun t ht => ?_) hstore ?_ rfl
      · rw [hnet]
        exact netOn_spared hspares ht
      · simp [Watched.starts, OnWatch.startOf_spares hspares]
    · -- the first row of the cursor
      obtain ⟨hstarts, hbatches, hrow⟩ := h.cursor.of_absent hnone
      refine .inr ⟨start, start, ?_, ?_, hstart, fun t ht => ?_⟩
      · rw [Watched.starts] at hstarts
        simp [Watched.starts, hstarts, hinstall, OnWatch.startOf_install hstart]
      · show Consecutive start (w.batches o) start
        rw [hbatches]
        rfl
      · show room.store.weight o.cursorRel t = _
        rw [hstore, TraceStore.weight_commit, hrow t ht, hnet, hinstall, netOn_assert]
        simp [Patch.updates, Patch.emitted, Patch.new, eq_comm]
  | enqueue inbox process seq body room hstore hgiven =>
    refine h.spared hview (fun t ht => netOn_eq_zero fun u hu hut => ?_) hstore hphases
    rw [List.mem_singleton.1 hu] at hut
    exact hok hut.1
  | deliver m seen sender seq room hstore hgiven =>
    exact h.spared hview (fun t ht => netOn_spared hok ht) hstore hphases
  | other updates room hstore hgiven => exact h.spared hview (fun t ht => netOn_spared hok ht) hstore hphases

/-- The batches of a watch are what its view answers, end to end from where it was
installed to where its cursor is. -/
structure EndToEnd (o : OnWatch) (w : Watched) : Prop where
  answered : ∀ b ∈ w.batches o, ∃ rows, o.view w.room.store b.start b.upTo = .ok rows ∧
    b.bodies = rows.map fun r => activationBody r.2 r.1
  cursor : CursorAt o w

theorem Fed.endToEnd (h : Fed o w) : EndToEnd o w where
  answered b hb := by
    obtain ⟨x, hx, hxb⟩ := List.mem_filterMap.1 hb
    rcases h.appended x hx with hspares | ⟨start, upTo, rows, hlt, -, hroom, hrows, -, rfl⟩
    · rw [OnWatch.batchOf_spares hspares] at hxb
      cases hxb
    · rw [OnWatch.batchOf_pumped hlt hroom] at hxb
      cases hxb
      exact ⟨rows, hrows, rfl⟩
  cursor := h.cursor

/-- A store the watch is not installed in, before anybody has done anything. -/
def Watched.start (store : TraceStore) (n : Nat) : Watched := ⟨⟨store, .replicate n .idle, []⟩, [], []⟩

theorem fed_start {store : TraceStore} (hfresh : ∀ t, o.Own o.cursorRel t → store.weight o.cursorRel t = 0)
    (n : Nat) : Fed o (.start store n) ∧ (Watched.start store n).room.Sound := by
  have hidle : ∀ x ∈ (Watched.start store n).room.appenders, x = .idle :=
    fun x hx => List.eq_of_mem_replicate hx
  refine ⟨⟨nofun, fun x hx => ?_, .inl ⟨rfl, rfl, hfresh⟩⟩, fun x hx => ?_⟩
  · rw [hidle x hx]
    trivial
  · rw [hidle x hx]
    trivial

/-- **The batches of a watch run end to end from where it was installed to where its
cursor is**, in every run that leaves it its cursor. -/
theorem fed_run (hview : o.Settled) {store : TraceStore}
    (hfresh : ∀ t, o.Own o.cursorRel t → store.weight o.cursorRel t = 0) {n : Nat}
    (hrun : Run (Watched.step schemas) (fun v a => KeepsWatch o v.room a) (.start store n) w) :
    Fed o w ∧ w.room.Sound := by
  refine hrun.invariant (I := fun v => Fed o v ∧ v.room.Sound) (fed_start hfresh n) ?_
  rintro v a v' ⟨hv, hs⟩ hok hst
  obtain ⟨room, hroom, -⟩ := Option.map_eq_some_iff.1 hst
  refine ⟨fed_step hview hv hs hok hst, ?_⟩
  rw [Watched.room_of_step hroom hst]
  exact Mailroom.sound_step hs (Mailroom.step_does hs hroom)

end Runs

end Grmpl

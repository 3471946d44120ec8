import Grmpl.Proc.Append

/-!
# Scheduled messages

A scheduled message is a timer row until it is fired: one guarded commit retracts the
timer and appends the message.

* `decodeTimerRow`, `Scheduler.timerLive`, `Scheduler.dueAt`, `Scheduler.fireOne`: what is
  fired, and how.
* `Scheduler.fire`, `Scheduler.fireDue`, `Scheduler.fireNextDue`: firing with nobody else
  about.
-/

open OrdMap

namespace Grmpl

/-- A timer row as what was scheduled. -/
def decodeTimerRow (t : Tuple) : Result (Int64 × RelId × Entity × Tuple) :=
  match t.cells with
  | [.int due, .int inbox, .ent target, .tuple body] =>
      if 0 ≤ inbox.toInt ∧ inbox.toInt ≤ 2 ^ 32 - 1 then
        .ok (due, inbox.toInt.toNat, target, ⟨body⟩)
      else .error (.codec "malformed timer row")
  | _ => .error (.codec "malformed timer row")

/-- Fires the timers of one relation. -/
structure Scheduler where
  timers : RelId
  seqs : RelId
  authority : Authority

namespace Scheduler

variable (s : Scheduler)

/-- The key of an actor's inbox counter. -/
def seqKey (target : Entity) : List Value := [.ent target]

/-- Whether a row is a live timer. -/
def timerLive (store : TraceStore) (row : Tuple) : Result Bool := do
  let rows ← store.readAt s.timers store.current
  return rows.any fun r => 0 < r.2 ∧ r.1 = row

/-- The live timers due by a time, in the order of their rows. -/
def dueAt (store : TraceStore) (now : Int64) : Result (List Tuple) := do
  let rows ← store.readAt s.timers store.current
  let due ← (rows.filter fun r => 0 < r.2).filterMapM fun r => do
    let (at', _) ← decodeTimerRow r.1
    return if at' ≤ now then some r.1 else none
  return due.mergeSort fun a b => a ≤ b

/-- What firing a timer appends, while it is live. -/
def fireOne (store : TraceStore) (row : Tuple) : Result (Option Append) := do
  let (_, inbox, target, body) ← decodeTimerRow row
  let timer : Fact := ⟨s.timers, row⟩
  if ← s.timerLive store row then
    return some
      { inbox, target, seqs := s.seqs, key := seqKey target, bodies := [body],
        base := (Patch.new.expect timer).retract timer, authority := some s.authority }
  else return none

/-- One try at a timer: whether it was fired, unless it is to be tried again. -/
def tryFire (store : TraceStore) (schemas : SchemaCatalog) (row : Tuple) : Result (TraceStore × Option Bool) := do
  match ← s.fireOne store row with
  | none => return (store, some false)
  | some x =>
      let d ← x.draw store
      match ← d.commit store schemas with
      | (store', .committed _) => return (store', some true)
      | (_, .rejected) => return (store, none)

/-- So many tries at a timer. -/
def fireTries (schemas : SchemaCatalog) (row : Tuple) : Nat → TraceStore → Result (TraceStore × Bool)
  | 0, store => return (store, false)
  | tries + 1, store => do
      match ← s.tryFire store schemas row with
      | (store', some fired) => return (store', fired)
      | (store', none) => fireTries schemas row tries store'

/-- How often a timer is tried. -/
def maxTries : Nat := 64

/-- Fires a timer; not if it is gone, or there is too much contention. -/
def fire (store : TraceStore) (schemas : SchemaCatalog) (row : Tuple) : Result (TraceStore × Bool) :=
  s.fireTries schemas row maxTries store

/-- Fires timers in turn, and counts those that it fired. -/
def fireRows (schemas : SchemaCatalog) : List Tuple → TraceStore → Result (TraceStore × Nat)
  | [], store => return (store, 0)
  | row :: rows, store => do
      let (store, fired) ← s.fire store schemas row
      let (store, count) ← fireRows schemas rows store
      return (store, if fired then count + 1 else count)

/-- Fires every timer due by a time. -/
def fireDue (store : TraceStore) (schemas : SchemaCatalog) (now : Int64) : Result (TraceStore × Nat) := do
  let due ← s.dueAt store now
  s.fireRows schemas due store

inductive FireNextOutcome where
  | fired
  | noneDue
  | contended
  deriving DecidableEq

/-- Fires the least timer due by a time. -/
def fireNextDue (store : TraceStore) (schemas : SchemaCatalog) (now : Int64) :
    Result (TraceStore × FireNextOutcome) := do
  let due ← s.dueAt store now
  match due with
  | [] => return (store, .noneDue)
  | row :: _ =>
      let (store, fired) ← s.fire store schemas row
      return (store, if fired then .fired else .contended)

/-! ## What is fired, and when -/

/-- What firing a timer appends, by what it holds. -/
def append (row : Tuple) (inbox : RelId) (target : Entity) (body : Tuple) : Append where
  inbox := inbox
  target := target
  seqs := s.seqs
  key := seqKey target
  bodies := [body]
  base := (Patch.new.expect ⟨s.timers, row⟩).retract ⟨s.timers, row⟩
  authority := some s.authority

variable {s} {store : TraceStore} {row : Tuple}

theorem timerLive_eq : s.timerLive store row = .ok (decide (0 < store.weight s.timers row)) := by
  rw [timerLive, TraceStore.readAt_current]
  show Except.ok _ = Except.ok _
  congr 1
  rw [Bool.eq_iff_iff, List.any_eq_true, decide_eq_true_iff]
  constructor
  · rintro ⟨⟨t, d⟩, hmem, hrow⟩
    obtain ⟨hpos, rfl⟩ := of_decide_eq_true hrow
    rwa [(TraceStore.mem_rowsAt.1 hmem).2]
  · intro hpos
    exact ⟨(row, store.weight s.timers row), TraceStore.mem_rowsAt.2 ⟨hpos.ne', rfl⟩, decide_eq_true ⟨hpos, rfl⟩⟩

/-- What is fired is live, and is what its row says. -/
theorem fireOne_some {x : Append} (h : s.fireOne store row = .ok (some x)) :
    ∃ due inbox target body, decodeTimerRow row = .ok (due, inbox, target, body) ∧
      0 < store.weight s.timers row ∧ x = s.append row inbox target body := by
  unfold fireOne at h
  obtain ⟨⟨due, inbox, target, body⟩, hrow, h⟩ := bind_ok h
  rw [timerLive_eq] at h
  by_cases hpos : 0 < store.weight s.timers row
  · simp only [hpos, decide_true] at h
    cases h
    exact ⟨due, inbox, target, body, hrow, hpos, rfl⟩
  · simp only [hpos, decide_false] at h
    cases h

/-- A timer that is live is fired. -/
theorem fireOne_live {due : Int64} {inbox : RelId} {target : Entity} {body : Tuple}
    (hrow : decodeTimerRow row = .ok (due, inbox, target, body)) (hpos : 0 < store.weight s.timers row) :
    s.fireOne store row = .ok (some (s.append row inbox target body)) := by
  unfold fireOne
  rw [hrow, timerLive_eq]
  simp only [hpos, decide_true]
  rfl

/-- **The timers due**: those that are live and due by the time, each once and in order. -/
theorem dueAt_ok {now : Int64} {due : List Tuple} (h : s.dueAt store now = .ok due) :
    due.Pairwise (· < ·) ∧ ∀ row, row ∈ due ↔ 0 < store.weight s.timers row ∧
      ∃ m, decodeTimerRow row = .ok m ∧ m.1 ≤ now := by
  have hpick : ∀ (rows : List (Tuple × Diff)) (found : List Tuple), (rows.filterMapM fun r => do
      let (at', _) ← decodeTimerRow r.1
      return if at' ≤ now then some r.1 else none : Result (List Tuple)) = .ok found →
        found.Sublist (rows.map (·.1)) ∧
          ∀ row, row ∈ found ↔ (∃ r ∈ rows, r.1 = row) ∧ ∃ m, decodeTimerRow row = .ok m ∧ m.1 ≤ now := by
    intro rows
    induction rows with
    | nil =>
      intro found hfound
      cases hfound
      exact ⟨.slnil, fun row => ⟨fun h => absurd h List.not_mem_nil, fun ⟨⟨_, h, _⟩, _⟩ => absurd h List.not_mem_nil⟩⟩
    | cons r rows ih =>
      intro found hfound
      rw [List.filterMapM_cons] at hfound
      obtain ⟨o, ho, hfound⟩ := bind_ok hfound
      obtain ⟨⟨at', m⟩, hm, ho⟩ := bind_ok ho
      dsimp only at ho
      have hother : ∀ rest : List Tuple, (∀ row, row ∈ rest ↔ (∃ r ∈ rows, r.1 = row) ∧
          ∃ m, decodeTimerRow row = .ok m ∧ m.1 ≤ now) → ∀ row, (row ∈ rest ∨ row = r.1 ∧ at' ≤ now) ↔
            (∃ r' ∈ r :: rows, r'.1 = row) ∧ ∃ m, decodeTimerRow row = .ok m ∧ m.1 ≤ now := by
        intro rest hrest row
        rw [hrest, List.exists_mem_cons_iff]
        constructor
        · rintro (⟨hr, hrow⟩ | ⟨rfl, hle⟩)
          · exact ⟨.inr hr, hrow⟩
          · exact ⟨.inl rfl, _, hm, hle⟩
        · rintro ⟨rfl | hr, hrow⟩
          · obtain ⟨m', hm', hle⟩ := hrow
            cases hm.symm.trans hm'
            exact .inr ⟨rfl, hle⟩
          · exact .inl ⟨hr, hrow⟩
      by_cases hle : at' ≤ now
      · rw [if_pos hle] at ho
        cases ho
        obtain ⟨rest, hrest, hfound⟩ := bind_ok hfound
        cases hfound
        obtain ⟨hsub, hmem⟩ := ih rest hrest
        refine ⟨hsub.cons_cons _, fun row => ?_⟩
        rw [List.mem_cons, ← hother rest hmem row, and_iff_left hle, or_comm]
      · rw [if_neg hle] at ho
        cases ho
        obtain ⟨hsub, hmem⟩ := ih found hfound
        refine ⟨hsub.cons _, fun row => ?_⟩
        rw [← hother found hmem row, or_iff_left fun h => hle h.2]
  unfold dueAt at h
  rw [TraceStore.readAt_current] at h
  obtain ⟨rows, hrows, h⟩ := bind_ok h
  cases hrows
  obtain ⟨found, hfound, h⟩ := bind_ok h
  cases h
  obtain ⟨hsub, hmem⟩ := hpick _ found hfound
  have hsorted := store.sorted_rowsAt s.timers store.current
  constructor
  · have hnodup : found.Nodup := hsub.nodup ((hsorted.filter _).map _ fun _ _ h => ne_of_lt h)
    have hle : (found.mergeSort fun a b => a ≤ b).Pairwise fun a b => decide (a ≤ b) = true :=
      List.pairwise_mergeSort (fun a b c hab hbc => by simpa using le_trans (of_decide_eq_true hab) (of_decide_eq_true hbc))
        (fun a b => by simpa using le_total a b) found
    have hdistinct : (found.mergeSort fun a b => a ≤ b).Nodup := (List.mergeSort_perm found _).nodup_iff.2 hnodup
    exact (hle.and hdistinct).imp fun ⟨hle, hne⟩ => lt_of_le_of_ne (of_decide_eq_true hle) hne
  · intro row
    rw [List.mem_mergeSort, hmem]
    refine and_congr_left fun _ => ?_
    constructor
    · rintro ⟨⟨t, d⟩, hr, rfl⟩
      obtain ⟨hr, hpos⟩ := List.mem_filter.1 hr
      rw [(TraceStore.mem_rowsAt.1 hr).2]
      exact of_decide_eq_true hpos
    · intro hpos
      exact ⟨(row, store.weight s.timers row), List.mem_filter.2
        ⟨TraceStore.mem_rowsAt.2 ⟨hpos.ne', rfl⟩, decide_eq_true hpos⟩, rfl⟩

/-- A timer that was fired was one commit, of what the driver may write. -/
theorem fire_true {schemas : SchemaCatalog} {store' : TraceStore}
    (h : s.fire store schemas row = .ok (store', true)) : ∃ updates, store' = store.commit updates ∧
      ∀ u ∈ updates, ∃ f : Fact, s.authority.permits f = true ∧ f.rel = u.1 := by
  unfold fire at h
  generalize maxTries = tries at h
  induction tries with
  | zero => cases h
  | succ tries ih =>
    rw [fireTries] at h
    obtain ⟨⟨store₁, fired⟩, htry, h⟩ := bind_ok h
    unfold tryFire at htry
    obtain ⟨o, hone, htry⟩ := bind_ok htry
    cases o with
    | none =>
      cases htry
      cases h
    | some x =>
      obtain ⟨draft, hdraw, htry⟩ := bind_ok htry
      obtain ⟨⟨store₂, outcome⟩, hcommit, htry⟩ := bind_ok htry
      obtain ⟨due, inbox, target, body, -, -, rfl⟩ := fireOne_some hone
      cases outcome with
      | rejected =>
        cases htry
        exact ih h
      | committed e =>
        cases htry
        cases h
        obtain ⟨alloc, -, hd⟩ := bind_ok hdraw
        cases hd
        obtain ⟨rfl, hpermits⟩ := commitPatchChecked_permits hcommit
        refine ⟨_, rfl, fun u hu => ?_⟩
        -- what a draft is of, all of it is asserted or retracted
        have hbare : (⟨s.append row inbox target body, alloc⟩ : Draft).patch.Bare :=
          Patch.Bare.sealPatch (bare_foldl_assert _ _ ⟨rfl, rfl, rfl⟩) _
        rcases Patch.rel_of_mem_updates hu with ⟨f, hf, hrel⟩ | ⟨e, he, -⟩ | ⟨move, hmove, -⟩
        · exact ⟨f, hpermits f hf, hrel⟩
        · rw [hbare.1] at he
          exact absurd he List.not_mem_nil
        · rw [hbare.2.2] at hmove
          cases hmove

end Scheduler

end Grmpl

import Grmpl.Lib.Runs
import Grmpl.Session.Drive

/-!
# Drives, whole

A drive is some trips, each of one commit, and then what the views are refreshed with if
nothing is left to do. What is left to do is not changed by that, nor is there anything
left to refresh, so that a drive goes on from another as if it had had its fuel as well.

* `DrivenRuntime.Drives`: what a drive commits, and when it is idle.
* `DrivenRuntime.drive_drives`, `DrivenRuntime.drive_split`: one drive, and two.
* `DrivenRuntime.step`: what happens to the world of a package.
* `DrivenRuntime.driven_package`: whatever has happened, drives are such.
-/

open OrdMap Runs Fuelled

namespace Grmpl

/-- The counts of a report after those of an earlier one. -/
def DriveReport.after (r : DriveReport) (timers steps : Nat) : DriveReport :=
  ⟨r.status, (timers + steps) + r.committed, timers + r.timersFired, steps + r.actorSteps⟩

def Driving.after (x : Driving) (timers steps : Nat) : Driving :=
  ⟨x.world, timers + x.timersFired, steps + x.actorSteps⟩

@[simp] theorem Driving.report_after (x : Driving) (timers steps : Nat) (status : DriveStatus) :
    (x.after timers steps).report status = (x.report status).after timers steps := by
  simp only [report, after, DriveReport.after, DriveReport.mk.injEq, true_and, and_true]
  omega

namespace DrivenRuntime

variable {d : DrivenRuntime} {x y : Driving} {w w' : RoutedStore} {store : TraceStore}

/-- What was done before a drive shows in its counts only. -/
theorem trip_after (d : DrivenRuntime) (timers steps : Nat) (x : Driving) : d.trip (x.after timers steps)
    = (d.trip x).map (·.after timers steps) (Option.map fun r => (r.1, r.2.map (·.after timers steps))) := by
  have hworld : (x.after timers steps).world = x.world := rfl
  unfold trip
  rw [hworld]
  split
  · rfl
  · simp [Trip.map, Driving.after, Nat.add_assoc]
  · split
    · rfl
    · split
      · rfl
      · simp [Trip.map, Except.map]
    · split
      · simp [Trip.map, Driving.after, Nat.add_assoc]
      · rfl
      · simp [Trip.map, Except.map]
      · rfl

theorem fireTimer_none : d.fireTimer store = .ok none ↔ ∃ sample, d.clock.latest store = .ok sample ∧
    ∀ s, sample = some s → d.scheduler.dueAt store s.2.1 = .ok [] := by
  constructor
  · intro h
    obtain ⟨sample, hlatest, h⟩ := bind_ok h
    refine ⟨sample, hlatest, fun s hs => ?_⟩
    subst hs
    obtain ⟨⟨store₁, outcome⟩, hfire, h⟩ := bind_ok h
    obtain ⟨due, hdue, hfire⟩ := bind_ok hfire
    match due with
    | [] => exact hdue
    | row :: _ =>
      obtain ⟨⟨store₂, fired⟩, -, hfire⟩ := bind_ok hfire
      cases hfire
      cases fired <;> cases h
  · rintro ⟨sample, hlatest, hdue⟩
    unfold fireTimer
    rw [hlatest]
    cases sample with
    | none => rfl
    | some s =>
      have hnone := hdue s rfl
      simp only [Scheduler.fireNextDue, bind, Except.bind, hnone]
      rfl

/-- A package nothing is left to do in is left so by a refresh of its views. -/
theorem Quiescent.onward (hd : d.Loaded) (h : d.Quiescent w.store) (hon : w.Onward (OwnOf d.views) w') :
    d.Quiescent w'.store := by
  have hread : ∀ rel, (rel = d.clock.clock ∨ rel = d.scheduler.timers ∨ ∃ p ∈ d.actors, rel = p.inbox ∨ rel = p.cursorRel) →
      w'.store.readAt rel w'.store.current = w.store.readAt rel w.store.current := by
    intro rel hrel
    refine hon.readAt fun u ⟨m, hm, hown⟩ => ?_
    obtain ⟨hinto, hcursor⟩ := hd.roles m hm rel hrel
    rcases hown with hu | ⟨hu, -⟩
    · exact hu ▸ hinto
    · exact hu ▸ hcursor
  constructor
  · obtain ⟨sample, hlatest, hdue⟩ := fireTimer_none.1 h.1
    refine fireTimer_none.2 ⟨sample, ?_, fun s hs => ?_⟩
    · rw [← hlatest, ClockDriver.latest, ClockDriver.latest, hread _ (.inl rfl)]
    · rw [← hdue s hs, Scheduler.dueAt, Scheduler.dueAt, hread _ (.inr (.inl rfl))]
  · refine ready_nil.2 fun p hp => ?_
    rw [← ready_nil.1 h.2 p hp]
    unfold Process.nextPendingSequence Process.position Process.messageAt
    rw [hread _ (.inr (.inr ⟨p, hp, .inl rfl⟩)), hread _ (.inr (.inr ⟨p, hp, .inr rfl⟩))]

/-- What is not done was never there: no live timer is due by the latest sample, and no message is
at an actor's cursor. -/
structure Done (d : DrivenRuntime) (store : TraceStore) : Prop where
  timers : ∀ sample, d.clock.latest store = .ok (some sample) → ∀ row m, 0 < store.weight d.scheduler.timers row →
    decodeTimerRow row = .ok m → sample.2.1 < m.1
  actors : ∀ p ∈ d.actors, ∃ pos, p.position store = .ok pos ∧ p.messageAt store pos store.current = .ok none

theorem Quiescent.done (h : d.Quiescent store) : d.Done store := by
  constructor
  · intro sample hsample row m hpos hrow
    obtain ⟨sample', hlatest, hdue⟩ := fireTimer_none.1 h.1
    cases hsample.symm.trans hlatest
    by_contra hle
    have hmem := ((Scheduler.dueAt_ok (hdue sample rfl)).2 row).2 ⟨hpos, m, hrow, Int64.not_lt.1 hle⟩
    exact absurd hmem List.not_mem_nil
  · intro p hp
    obtain ⟨pos, hpos, hnext⟩ := bind_ok (ready_nil.1 h.2 p hp)
    obtain ⟨o, hbody, hnext⟩ := bind_ok hnext
    cases o with
    | none => exact ⟨pos, hpos, hbody⟩
    | some body => cases hnext

/-- So many trips are so many commits, none of a view's cursor. -/
theorem spent_commits (hd : d.Loaded) {n : Nat} (h : Spent d.trip n x y) :
    y.timersFired + y.actorSteps = x.timersFired + x.actorSteps + n ∧ y.world.interests = x.world.interests ∧
      ∃ ups, y.world.store = x.world.store.commits ups ∧ ups.length = n ∧
        ∀ m ∈ d.views, ∀ updates ∈ ups, ∀ u ∈ updates, u.1 ≠ m.cursorRel := by
  induction h with
  | none => exact ⟨rfl, rfl, [], rfl, rfl, fun _ _ _ h => absurd h List.not_mem_nil⟩
  | @more n s s' t htrip _ ih =>
    obtain ⟨hcount, hinterests, updates, hstore, hspare⟩ := trip_spent hd htrip
    obtain ⟨hcounts, hinterests', ups, hstore', hlen, hspares⟩ := ih
    refine ⟨by omega, hinterests'.trans hinterests, updates :: ups, ?_, congrArg (· + 1) hlen, fun m hm => ?_⟩
    · rw [hstore', hstore, TraceStore.commits_cons]
    · exact List.forall_mem_cons.2 ⟨hspare m hm, hspares m hm⟩

/-- **How a drive comes out**: some trips, and then it is out of fuel, or stops. -/
theorem drive_spent (d : DrivenRuntime) (fuel : Nat) (w : RoutedStore) :
    ∃ n x w' out, d.driveWithFuel fuel w = some (w', out) ∧ Spent d.trip n ⟨w, 0, 0⟩ x ∧
      (n = fuel ∧ w' = x.world ∧ out = .ok (x.report .fuelExhausted) ∨ n < fuel ∧ Stops d x w' out) := by
  unfold driveWithFuel
  cases h : spend d.trip fuel ⟨w, 0, 0⟩ with
  | inl x => exact ⟨fuel, x, _, _, rfl, spend_left h, .inl ⟨rfl, rfl, rfl⟩⟩
  | inr out =>
    obtain ⟨n, x, hn, hspent, hended⟩ := spend_right h
    obtain ⟨w', r, rfl, hstops⟩ := trip_ended hended
    exact ⟨n, x, w', r, rfl, hspent, .inr ⟨hn, hstops⟩⟩

/-- What a drive with so much fuel commits, and what it reports. -/
structure Drives (d : DrivenRuntime) (fuel : Nat) (w w' : RoutedStore) (out : Result DriveReport) : Prop where
  /-- Timers fired and actors stepped, a commit for each, and then what views own. -/
  paid : ∃ steps kept, w'.store = (w.store.commits steps).commits kept ∧ steps.length ≤ fuel ∧
    (∀ updates ∈ kept, ∀ u ∈ updates, OwnOf d.views u) ∧
      ∀ r, out = .ok r → r.committed = steps.length ∧ r.committed = r.timersFired + r.actorSteps ∧
        (r.status ≠ .idle → kept = [])
  idle : ∀ r, out = .ok r → r.status = .idle → d.Done w'.store

/-- A commit elsewhere than the views' cursors leaves them where they are. -/
theorem held_commits {m : Maintainer} {s : TraceStore} {c : Option Int64} (h : m.Held s c)
    {ups : List (List (RelId × Tuple × Diff))} (hspare : ∀ updates ∈ ups, ∀ u ∈ updates, u.1 ≠ m.cursorRel) :
    m.Held (s.commits ups) c := by
  intro t ht
  rw [TraceStore.weight_commits fun updates hupd u hu heq => hspare updates hupd u hu heq.1]
  exact h t ht

/-- What trips leave of the views' cursors. -/
theorem spent_held (hd : d.Loaded) {n : Nat} (h : Spent d.trip n x y)
    (hheld : ∀ m ∈ d.views, ∃ c, m.Held x.world.store c) : ∀ m ∈ d.views, ∃ c, m.Held y.world.store c := by
  obtain ⟨-, -, ups, hstore, -, hspare⟩ := spent_commits hd h
  intro m hm
  obtain ⟨c, hc⟩ := hheld m hm
  exact ⟨c, hstore ▸ held_commits hc (hspare m hm)⟩

/-- **Every drive** commits no more than its fuel, and is idle only when nothing is left to do. -/
theorem drive_drives (hd : d.Loaded) (hheld : ∀ m ∈ d.views, ∃ c, m.Held w.store c) (fuel : Nat) :
    ∃ w' out, d.driveWithFuel fuel w = some (w', out) ∧ d.Drives fuel w w' out ∧ ∀ m ∈ d.views, ∃ c, m.Held w'.store c := by
  obtain ⟨n, x, w', out, hdrive, hspent, hcases⟩ := drive_spent d fuel w
  obtain ⟨hcount, -, ups, hstore, hlen, -⟩ := spent_commits hd hspent
  have hheld' := spent_held hd hspent hheld
  have hcount : x.timersFired + x.actorSteps = ups.length := by
    rw [hcount, hlen]
    exact Nat.zero_add n
  have hview := fun world out (h : refreshViews d.schemas d.views x.world = (world, out)) => refreshViews_ok hd.views hheld' h
  refine ⟨w', out, hdrive, ?_⟩
  rcases hcases with ⟨rfl, rfl, rfl⟩ | ⟨hn, hstops⟩
  · refine ⟨⟨⟨ups, [], hstore, hlen.le, fun _ h => absurd h List.not_mem_nil, fun r hr => ?_⟩, fun r hr hidle => ?_⟩, hheld'⟩
    · cases hr
      exact ⟨hcount, rfl, fun _ => rfl⟩
    · cases hr
      cases hidle
  · have hle : ups.length ≤ fuel := hlen ▸ hn.le
    cases hstops with
    | failed e => exact ⟨⟨⟨ups, [], hstore, hle, fun _ h => absurd h List.not_mem_nil, nofun⟩, nofun⟩, hheld'⟩
    | fault actor sequence message =>
      refine ⟨⟨⟨ups, [], hstore, hle, fun _ h => absurd h List.not_mem_nil, fun r hr => ?_⟩, fun r hr hidle => ?_⟩, hheld'⟩
      · cases hr
        exact ⟨hcount, rfl, fun _ => rfl⟩
      · cases hr
        cases hidle
    | idle world k hquiet hviews =>
      obtain ⟨hon, hheld'', -⟩ := hview _ _ hviews
      obtain ⟨kept, hkept, hown⟩ := hon.commits
      refine ⟨⟨⟨ups, kept, hstore ▸ hkept, hle, hown, fun r hr => ?_⟩, fun r hr _ => ?_⟩, hheld''⟩
      · cases hr
        exact ⟨hcount, rfl, fun h => absurd rfl h⟩
      · cases hr
        exact (hquiet.onward hd hon).done
    | unrefreshed world e hviews =>
      obtain ⟨hon, hheld'', -⟩ := hview _ _ hviews
      obtain ⟨kept, hkept, hown⟩ := hon.commits
      exact ⟨⟨⟨ups, kept, hstore ▸ hkept, hle, hown, nofun⟩, nofun⟩, hheld''⟩

/-- A drive from a world, by what it does when it has done something before. -/
theorem spend_after (d : DrivenRuntime) (x : Driving) (fuel : Nat) : spend d.trip fuel x
    = (spend d.trip fuel ⟨x.world, 0, 0⟩).map (·.after x.timersFired x.actorSteps)
        (Option.map fun r => (r.1, r.2.map (·.after x.timersFired x.actorSteps))) :=
  spend_map (trip_after d x.timersFired x.actorSteps) fuel ⟨x.world, 0, 0⟩

/-- **To drive on is to have had the fuel from the start.** -/
theorem drive_split (hd : d.Loaded) (hheld : ∀ m ∈ d.views, ∃ c, m.Held w.store c) {a b : Nat} (hb : 0 < b)
    {w₁ w₂ : RoutedStore} {r₁ r₂ : DriveReport} (h₁ : d.driveWithFuel a w = some (w₁, .ok r₁))
    (h₂ : d.driveWithFuel b w₁ = some (w₂, .ok r₂)) (hroom : w₁.store.current < 2 ^ 64) :
    ∃ w₃, d.driveWithFuel (a + b) w = some (w₃, .ok ⟨r₂.status, r₁.committed + r₂.committed,
      r₁.timersFired + r₂.timersFired, r₁.actorSteps + r₂.actorSteps⟩) ∧ w₃.store = w₂.store := by
  unfold driveWithFuel at h₁ ⊢
  rw [spend_add]
  cases ha : spend d.trip a ⟨w, 0, 0⟩ with
  | inl x =>
    -- out of fuel: nothing was refreshed, and the rest goes on from there
    rw [ha] at h₁
    cases h₁
    unfold driveWithFuel at h₂
    dsimp only
    rw [spend_after d x b]
    cases hb : spend d.trip b ⟨x.world, 0, 0⟩ with
    | inl y =>
      rw [hb] at h₂
      cases h₂
      exact ⟨y.world, congrArg (fun r => some (y.world, Except.ok r)) (y.report_after _ _ _), rfl⟩
    | inr out =>
      rw [hb] at h₂
      cases h₂
      exact ⟨w₂, rfl, rfl⟩
  | inr out =>
    rw [ha] at h₁
    cases h₁
    obtain ⟨n, x, -, hspent, hended⟩ := spend_right ha
    obtain ⟨w', out, hout, hstops⟩ := trip_ended hended
    cases hout
    have hheld' := spent_held hd hspent hheld
    cases hstops with
    | fault actor sequence message =>
      -- the same message is refused again
      have htrip := trip_after d x.timersFired x.actorSteps ⟨x.world, 0, 0⟩
      replace htrip := hended.symm.trans htrip
      cases hz : d.trip ⟨x.world, 0, 0⟩ with
      | spent z =>
        rw [hz] at htrip
        cases htrip
      | ended out =>
        rw [hz] at htrip
        unfold driveWithFuel at h₂
        rw [spend_ended hb hz] at h₂
        cases h₂
        obtain ⟨hworld, hreport⟩ := Prod.mk.inj (Option.some.inj (Trip.ended.inj htrip))
        exact ⟨x.world, congrArg (fun r => some (x.world, r)) hreport, congrArg RoutedStore.store hworld⟩
    | idle world k hquiet hviews =>
      -- every view rests, so that it is refreshed once more without a commit
      obtain ⟨hon, -, hrest⟩ := refreshViews_ok hd.views hheld' hviews
      have hquiet' := hquiet.onward hd hon
      cases hviews' : refreshViews d.schemas d.views w₁ with
      | mk w₂' out =>
        have hstore := refreshViews_rested hd.views (hrest k rfl hroom) hviews'
        have htrip : d.trip ⟨w₁, 0, 0⟩ = .ended (some (w₂', out.map fun _ => ⟨.idle, 0, 0, 0⟩)) := by
          unfold trip
          rw [hquiet'.1]
          dsimp only
          rw [hquiet'.2]
          dsimp only
          rw [hviews']
          cases out <;> rfl
        unfold driveWithFuel at h₂
        cases out with
        | error e =>
          rw [spend_ended hb htrip] at h₂
          cases h₂
        | ok k' =>
          rw [spend_ended hb htrip] at h₂
          cases h₂
          exact ⟨w₁, rfl, hstore.symm⟩

/-! ## Every run of a loaded package -/

/-- What happens to the world of a package. -/
inductive Act where
  | drive (fuel : Nat)
  /-- Somebody commits: a clock sample, a message, a host's own writes. -/
  | commit (updates : List (RelId × Tuple × Diff))
  /-- Somebody asks whether a key range was touched. -/
  | ask (start upTo : Nat) (rel : RelId) (lo hi : Tuple)
  | consolidate (upTo : Nat)

def step (d : DrivenRuntime) (w : RoutedStore) : Act → Option RoutedStore
  | .drive fuel => (d.driveWithFuel fuel w).map (·.1)
  | .commit updates => some { w with store := w.store.commit updates }
  | .ask start upTo rel lo hi => some (w.touchedRangeSince start upTo rel lo hi).1
  | .consolidate upTo => some { w with store := w.store.consolidate upTo }

/-- Nobody else writes a view's cursor. -/
def LeavesCursors (d : DrivenRuntime) (_ : RoutedStore) : Act → Prop
  | .commit updates => ∀ m ∈ d.views, ∀ u ∈ updates, u.1 ≠ m.cursorRel
  | _ => True

/-- The world a package's bootstrap commit leaves: every view's cursor is at zero. -/
def installed (d : DrivenRuntime) (facts : List (RelId × Tuple × Diff)) : RoutedStore :=
  ⟨TraceStore.empty.commit (facts ++ d.views.map fun m => (m.cursorRel, m.cursorRow 0, 1)), []⟩

theorem installed_held (hd : d.Loaded) {facts : List (RelId × Tuple × Diff)}
    (hfacts : ∀ m ∈ d.views, ∀ u ∈ facts, u.1 ≠ m.cursorRel) :
    ∀ m ∈ d.views, ∃ c, m.Held (d.installed facts).store c := by
  have hone : ∀ {ms : List Maintainer} {m : Maintainer} {t : Tuple}, ms.Pairwise (fun m n => m.key ≠ n.key) → m ∈ ms →
      t.cells[0]? = some (.ent m.key) → netOn m.cursorRel t (ms.map fun m => (m.cursorRel, m.cursorRow 0, 1))
        = if m.cursorRow 0 = t then 1 else 0 := by
    intro ms m t hkeys hm ht
    have hother : ∀ n : Maintainer, n.key ≠ m.key → ¬ (n.cursorRel = m.cursorRel ∧ n.cursorRow 0 = t) := by
      rintro n hne ⟨-, rfl⟩
      exact hne (Value.ent.inj (Option.some.inj ht))
    induction ms with
    | nil => exact absurd hm List.not_mem_nil
    | cons n ms ih =>
      obtain ⟨hn, hkeys⟩ := List.pairwise_cons.1 hkeys
      rw [List.map_cons, netOn_cons]
      rcases List.mem_cons.1 hm with rfl | hm
      · have hrest : netOn m.cursorRel t (ms.map fun m => (m.cursorRel, m.cursorRow 0, 1)) = 0 := by
          refine netOn_eq_zero fun u hu => ?_
          obtain ⟨k, hk, rfl⟩ := List.mem_map.1 hu
          exact hother k (hn k hk).symm
        rw [hrest, add_zero]
        simp
      · rw [if_neg (hother n (hn m hm)), zero_add, ih hkeys hm]
  intro m hm
  refine ⟨some 0, fun t ht => ?_⟩
  show (TraceStore.empty.commit _).weight m.cursorRel t = _
  rw [TraceStore.weight_commit, TraceStore.weight_empty, netOn_append, hone hd.views.keys hm ht,
    netOn_eq_zero fun u hu heq => hfacts m hm u hu heq.1]
  simp

/-- What every step keeps of the views' cursors. -/
theorem step_held (hd : d.Loaded) {a : Act} (hheld : ∀ m ∈ d.views, ∃ c, m.Held w.store c)
    (hok : d.LeavesCursors w a) (hstep : d.step w a = some w') : ∀ m ∈ d.views, ∃ c, m.Held w'.store c := by
  cases a with
  | drive fuel =>
    obtain ⟨w₁, out, hdrive, -, hheld'⟩ := drive_drives hd hheld fuel
    replace hstep : (d.driveWithFuel fuel w).map (·.1) = some w' := hstep
    rw [hdrive] at hstep
    cases hstep
    exact hheld'
  | commit updates =>
    cases hstep
    intro m hm
    obtain ⟨c, hc⟩ := hheld m hm
    have hspare : ∀ us ∈ [updates], ∀ u ∈ us, u.1 ≠ m.cursorRel := fun us hus => List.mem_singleton.1 hus ▸ hok m hm
    exact ⟨c, held_commits hc hspare⟩
  | ask start upTo rel lo hi =>
    cases hstep
    rw [(w.touchedRangeSince_store start upTo rel lo hi).1]
    exact hheld
  | consolidate upTo =>
    cases hstep
    exact hheld

/-- **Driving a loaded package**, whatever has happened to its world: a drive returns, commits at
most as many timer fires and actor steps as it has fuel, and is idle only when nothing is left to
do; and to drive twice is to drive once with the fuel of both, to the same commits. -/
theorem driven_package (hd : d.Loaded) {facts : List (RelId × Tuple × Diff)}
    (hfacts : ∀ m ∈ d.views, ∀ u ∈ facts, u.1 ≠ m.cursorRel)
    (hrun : Run d.step d.LeavesCursors (d.installed facts) w) :
    (∀ fuel, ∃ w' out, d.driveWithFuel fuel w = some (w', out) ∧ d.Drives fuel w w' out) ∧
    ∀ a b w₁ r₁ w₂ r₂, 0 < b → d.driveWithFuel a w = some (w₁, .ok r₁) → d.driveWithFuel b w₁ = some (w₂, .ok r₂) →
      w₁.store.current < 2 ^ 64 → ∃ w₃, d.driveWithFuel (a + b) w = some (w₃, .ok ⟨r₂.status,
        r₁.committed + r₂.committed, r₁.timersFired + r₂.timersFired, r₁.actorSteps + r₂.actorSteps⟩) ∧
          w₃.store = w₂.store := by
  have hheld := hrun.invariant (I := fun w => ∀ m ∈ d.views, ∃ c, m.Held w.store c) (installed_held hd hfacts)
    fun _ _ _ hheld hok hstep => step_held hd hheld hok hstep
  refine ⟨fun fuel => ?_, fun a b w₁ r₁ w₂ r₂ hb h₁ h₂ hroom => drive_split hd hheld hb h₁ h₂ hroom⟩
  obtain ⟨w', out, hdrive, hdrives, -⟩ := drive_drives hd hheld fuel
  exact ⟨w', out, hdrive, hdrives⟩

/-! ## A bell that is rung -/

/-- An actor that writes down what it is told, and a view of what it has written. -/
def bell : DrivenRuntime where
  actors := [{
    entity := ⟨1⟩
    authority := ⟨0, [⟨8, none⟩]⟩
    inbox := 4
    cursorRel := 5
    behavior := fun _ body => .ok (Patch.new.assert ⟨8, body⟩) }]
  clock := ⟨1, ⟨0, [⟨1, none⟩]⟩⟩
  scheduler := ⟨2, 3, ⟨0, [⟨2, none⟩, ⟨3, none⟩, ⟨4, none⟩]⟩⟩
  views := [{
    delta := fun store start upTo => do
      let updates ← store.scanUpdates 8 start upTo
      return updates.map fun u => (u.tuple, u.diff)
    bases := [8]
    span := none
    into := 6
    key := ⟨6⟩
    cursorRel := 7
    authority := ⟨0, [⟨6, none⟩, ⟨7, none⟩]⟩ }]
  schemas := noSchemas
  behaviorChecker := noBehaviorCheck
  attempts := 16

/-- A clock sample, and a timer due before it. -/
def rung : List (RelId × Tuple × Diff) :=
  [(1, ⟨[.int 0, .int 100, .int 7]⟩, 1), (2, ⟨[.int 50, .int 4, .ent ⟨1⟩, .tuple [.text "ding"]]⟩, 1)]

theorem bell_loaded : bell.Loaded where
  views := ⟨List.pairwise_singleton _ _, by simp [bell, Maintainer.watched]⟩
  roles := by simp [bell]
  driver := by
    intro m hm f hf heq
    cases List.mem_singleton.1 hm
    rw [Authority.permits, heq] at hf
    simp [bell] at hf
  actors := by
    intro m hm p hp f hf heq
    cases List.mem_singleton.1 hm
    cases List.mem_singleton.1 hp
    rw [Authority.permits, heq] at hf
    simp at hf
  emits := by
    intro m hm p hp snap body patch hpatch e he
    cases List.mem_singleton.1 hm
    cases List.mem_singleton.1 hp
    cases hpatch
    exact absurd he List.not_mem_nil

/-- What a drive that did not fail came to. -/
def okOf : Option (RoutedStore × Result DriveReport) → Option (RoutedStore × DriveReport)
  | some (w, .ok r) => some (w, r)
  | _ => none

theorem eq_of_okOf {o : Option (RoutedStore × Result DriveReport)} (h : (okOf o).isSome = true) :
    ∃ x, okOf o = some x ∧ o = some (x.1, .ok x.2) := by
  match o with
  | some (w, .ok r) => exact ⟨(w, r), rfl, rfl⟩
  | some (w, .error e) => cases h
  | none => cases h

/-- The timer is fired with the first drive's fuel, and the actor stepped with the second's. -/
theorem bell_rings : ∃ w₁ r₁ w₂ r₂ w₃ r₃, bell.driveWithFuel 1 (bell.installed rung) = some (w₁, .ok r₁) ∧
    bell.driveWithFuel 5 w₁ = some (w₂, .ok r₂) ∧ bell.driveWithFuel 6 (bell.installed rung) = some (w₃, .ok r₃) ∧
      w₃.store = w₂.store ∧ r₃.timersFired = 1 ∧ r₃.actorSteps = 1 ∧ r₃.status = .idle := by
  obtain ⟨⟨w₁, r₁⟩, hok₁, h₁⟩ := eq_of_okOf (show (okOf (bell.driveWithFuel 1 (bell.installed rung))).isSome = true by decide +kernel)
  have hw₁ : w₁ = ((okOf (bell.driveWithFuel 1 (bell.installed rung))).map (·.1)).getD (bell.installed rung) := by
    rw [hok₁]
    rfl
  have hroom : w₁.store.current < 2 ^ 64 := by
    rw [hw₁]
    decide +kernel
  obtain ⟨⟨w₂, r₂⟩, -, h₂⟩ := eq_of_okOf (show (okOf (bell.driveWithFuel 5 w₁)).isSome = true by
    rw [hw₁]
    decide +kernel)
  have hfacts : ∀ m ∈ bell.views, ∀ u ∈ rung, u.1 ≠ m.cursorRel := by decide
  obtain ⟨w₃, h₃, hstore⟩ := (driven_package bell_loaded hfacts .start).2 1 5 w₁ r₁ w₂ r₂ (by decide) h₁ h₂ hroom
  have hreport : ∀ r, bell.driveWithFuel 6 (bell.installed rung) = some (w₃, .ok r) →
      r.timersFired = 1 ∧ r.actorSteps = 1 ∧ r.status = .idle := by
    intro r hr
    have heval : (okOf (bell.driveWithFuel 6 (bell.installed rung))).map (·.2) = some ⟨.idle, 2, 1, 1⟩ := by decide +kernel
    rw [hr] at heval
    cases heval
    exact ⟨rfl, rfl, rfl⟩
  exact ⟨w₁, r₁, w₂, r₂, w₃, _, h₁, h₂, h₃, hstore, hreport _ h₃⟩

end DrivenRuntime

end Grmpl

import Grmpl.Core.TraceStore
import Mathlib.Tactic.Abel

/-!
# The optimistic commit protocol

A patch is checked against its domain's authority, the registered schemas and the
stored-code checker, turned into preconditions and signed updates, and handed to
the store's guarded commit. What the schemas and the checker say is up to them.

* `checkPatch`: the laws, and the updates a patch stands for.
* `commitPatchChecked`, `commitPatch`: the commit.
* `commitPatchChecked_ok`: what a commit that went through did.
* `checkPatch_laws`: what a patch that passed meets.
-/

namespace Grmpl

/-- The registered schemas: a relation's schema, as the check it makes of a row. -/
abbrev SchemaCatalog := RelId → Result (Option (Tuple → Except String Unit))

/-- The check of the code a row carries, against an authority. -/
abbrev BehaviorChecker := Fact → Authority → Result Unit

def noSchemas : SchemaCatalog := fun _ => .ok none

def noBehaviorCheck : BehaviorChecker := fun _ _ => .ok ()

/-- A scheduled message as a timer row. -/
def timerRow (s : Scheduled) : Tuple :=
  ⟨[.int s.due, .int (Int64.ofNat s.inbox), .ent s.target, .tuple s.body.cells]⟩

/-- Every row conforms to its relation's schema, if it has one. -/
def checkSchema (schemas : SchemaCatalog) : List Fact → Result Unit
  | [] => .ok ()
  | f :: fs => do
      match ← schemas f.rel with
      | none => checkSchema schemas fs
      | some check =>
          match check f.tuple with
          | .error e => .error (.schema ("write to relation " ++ toString f.rel ++ ": " ++ e))
          | .ok () => checkSchema schemas fs

/-- Every asserted row passes the code checker. -/
def checkCode (checker : BehaviorChecker) (authority : Authority) : List Fact → Result Unit
  | [] => .ok ()
  | f :: fs => do
      checker f authority
      checkCode checker authority fs

/-- What attempting to commit a patch came to. -/
inductive CommitOutcome where
  | committed (edition : Nat)
  | rejected
  deriving DecidableEq

/-- A patch that passed the laws, as preconditions and updates; its emits are the
caller's to route. -/
structure CheckedPatch where
  preconditions : List (RelId × Tuple)
  writes : List (RelId × Tuple × Diff)
  rest : List (RelId × Tuple × Diff)

/-- A cursor move as updates. -/
def CursorMove.updates (m : CursorMove) : List (RelId × Tuple × Diff) :=
  (m.retract.toList.map fun old => (m.rel, old, -1)) ++ [(m.rel, m.assert, 1)]

def checkPatch (schemas : SchemaCatalog) (checker : BehaviorChecker) (patch : Patch)
    (authority : Authority) : Result CheckedPatch := do
  let sched := patch.scheduled.map fun s => (⟨s.timers, timerRow s⟩ : Fact)
  match (patch.asserts ++ patch.retracts ++ sched).find? fun f => !authority.permits f with
  | some f => .error (.authority ("write to relation RelId(" ++ toString f.rel ++
      ") outside authority domain DomainId(" ++ toString authority.domain ++ ")"))
  | none =>
      checkSchema schemas (patch.asserts ++ patch.retracts ++ sched)
      checkCode checker authority patch.asserts
      return ⟨patch.preconditions.map fun f => (f.rel, f.tuple),
        (patch.asserts.map fun f => (f.rel, f.tuple, 1)) ++
          patch.retracts.map fun f => (f.rel, f.tuple, -1),
        (sched.map fun f => (f.rel, f.tuple, 1)) ++
          (patch.cursorAdvance.toList.flatMap CursorMove.updates)⟩

/-- The emits of a patch, each a row of its inbox. -/
def Patch.emitted (patch : Patch) : List (RelId × Tuple × Diff) :=
  patch.emits.map fun m => (m.inbox, m.body, 1)

def commitPatchChecked (store : TraceStore) (schemas : SchemaCatalog) (checker : BehaviorChecker)
    (patch : Patch) (authority : Authority) : Result (TraceStore × CommitOutcome) := do
  let checked ← checkPatch schemas checker patch authority
  let updates := checked.writes ++ patch.emitted ++ checked.rest
  match store.commitIf checked.preconditions updates with
  | some store' => return (store', .committed store'.current)
  | none => return (store, .rejected)

def commitPatch (store : TraceStore) (schemas : SchemaCatalog) (patch : Patch)
    (authority : Authority) : Result (TraceStore × CommitOutcome) :=
  commitPatchChecked store schemas noBehaviorCheck patch authority

/-! ## What a commit does -/

/-- The updates a patch stands for. -/
def Patch.updates (patch : Patch) : List (RelId × Tuple × Diff) :=
  ((patch.asserts.map fun f => (f.rel, f.tuple, 1)) ++
      patch.retracts.map fun f => (f.rel, f.tuple, -1)) ++ patch.emitted ++
    ((patch.scheduled.map fun s => (s.timers, timerRow s, 1)) ++
      patch.cursorAdvance.toList.flatMap CursorMove.updates)

section Building

variable (p : Patch) (f : Fact) (rel : RelId) (t : Tuple)

@[simp] theorem netOn_assert : netOn rel t (p.assert f).updates
    = netOn rel t p.updates + if f.rel = rel ∧ f.tuple = t then 1 else 0 := by
  simp only [Patch.updates, Patch.assert, Patch.emitted, List.map_append, netOn_append, List.map_cons,
    List.map_nil, netOn_cons, netOn_nil]
  abel

@[simp] theorem netOn_retract : netOn rel t (p.retract f).updates
    = netOn rel t p.updates + if f.rel = rel ∧ f.tuple = t then -1 else 0 := by
  simp only [Patch.updates, Patch.retract, Patch.emitted, List.map_append, netOn_append, List.map_cons,
    List.map_nil, netOn_cons, netOn_nil]
  abel

@[simp] theorem updates_expect : (p.expect f).updates = p.updates := rfl

end Building

/-- An asserted row is one more update, and so is a retracted one. -/
theorem mem_updates_assert {p : Patch} {f : Fact} {u : RelId × Tuple × Diff} :
    u ∈ (p.assert f).updates ↔ u ∈ p.updates ∨ u = (f.rel, f.tuple, 1) := by
  simp only [Patch.updates, Patch.assert, Patch.emitted, List.map_append, List.mem_append, List.map_cons, List.map_nil,
    List.mem_singleton]
  tauto

theorem mem_updates_retract {p : Patch} {f : Fact} {u : RelId × Tuple × Diff} :
    u ∈ (p.retract f).updates ↔ u ∈ p.updates ∨ u = (f.rel, f.tuple, -1) := by
  simp only [Patch.updates, Patch.retract, Patch.emitted, List.map_append, List.mem_append, List.map_cons, List.map_nil,
    List.mem_singleton]
  tauto

/-- A patch that passed is its preconditions and updates. -/
theorem checkPatch_ok {schemas : SchemaCatalog} {checker : BehaviorChecker} {patch : Patch}
    {authority : Authority} {checked : CheckedPatch}
    (h : checkPatch schemas checker patch authority = .ok checked) :
    checked.preconditions = (patch.preconditions.map fun f => (f.rel, f.tuple)) ∧
      checked.writes ++ patch.emitted ++ checked.rest = patch.updates := by
  unfold checkPatch at h
  dsimp only at h
  split at h
  · exact absurd h (by simp)
  · cases hs : checkSchema schemas (patch.asserts ++ patch.retracts ++
        patch.scheduled.map fun s => (⟨s.timers, timerRow s⟩ : Fact)) with
    | error e =>
      rw [hs] at h
      cases h
    | ok u =>
      cases hc : checkCode checker authority patch.asserts with
      | error e =>
        rw [hs, hc] at h
        cases h
      | ok u =>
        rw [hs, hc] at h
        cases h
        refine ⟨rfl, ?_⟩
        simp [Patch.updates, Function.comp_def]

/-- The timer rows of a patch. -/
def Patch.timers (patch : Patch) : List Fact := patch.scheduled.map fun s => ⟨s.timers, timerRow s⟩

/-- A patch that passed met the three laws. -/
theorem checkPatch_laws {schemas : SchemaCatalog} {checker : BehaviorChecker} {patch : Patch}
    {authority : Authority} {checked : CheckedPatch}
    (h : checkPatch schemas checker patch authority = .ok checked) :
    (∀ f ∈ patch.asserts ++ patch.retracts ++ patch.timers, authority.permits f = true) ∧
      checkSchema schemas (patch.asserts ++ patch.retracts ++ patch.timers) = .ok () ∧
        checkCode checker authority patch.asserts = .ok () := by
  unfold checkPatch at h
  dsimp only at h
  split at h
  · exact absurd h (by simp)
  · rename_i hnone
    obtain ⟨_, hs, h⟩ := bind_ok h
    obtain ⟨_, hc, -⟩ := bind_ok h
    refine ⟨fun f hf => ?_, hs, hc⟩
    simpa using List.find?_eq_none.1 hnone f hf

/-- Every asserted row of a patch that passed the code check passed the checker. -/
theorem checkCode_ok {checker : BehaviorChecker} {authority : Authority} : ∀ {facts : List Fact},
    checkCode checker authority facts = .ok () → ∀ f ∈ facts, checker f authority = .ok () := by
  intro facts
  induction facts with
  | nil => exact fun _ f hf => absurd hf (by simp)
  | cons g gs ih =>
    intro h f hf
    rw [checkCode] at h
    obtain ⟨_, hg, h⟩ := bind_ok h
    rcases List.mem_cons.1 hf with rfl | hf
    · exact hg
    · exact ih h f hf

/-- A commit that went through met its preconditions and applied its updates. -/
theorem commitPatchChecked_ok {store store' : TraceStore} {schemas : SchemaCatalog}
    {checker : BehaviorChecker} {patch : Patch} {authority : Authority} {outcome : CommitOutcome}
    (h : commitPatchChecked store schemas checker patch authority = .ok (store', outcome)) :
    (outcome = .rejected ∧ store' = store) ∨ (outcome = .committed store'.current ∧
      (∀ f ∈ patch.preconditions, 0 < store.weight f.rel f.tuple) ∧
        store' = store.commit patch.updates) := by
  unfold commitPatchChecked at h
  cases hc : checkPatch schemas checker patch authority with
  | error e =>
    rw [hc] at h
    cases h
  | ok checked =>
    obtain ⟨hpre, hupd⟩ := checkPatch_ok hc
    rw [hc] at h
    simp only [bind, Except.bind, hupd, hpre] at h
    split at h
    · rename_i s hs
      cases h
      obtain ⟨hholds, hs⟩ := TraceStore.commitIf_eq_some.1 hs
      refine .inr ⟨rfl, fun f hf => ?_, hs⟩
      exact hholds (f.rel, f.tuple) (List.mem_map_of_mem hf)
    · cases h
      exact .inl ⟨rfl, rfl⟩

/-- A commit that was rejected missed a row it was guarded by. -/
theorem commitPatchChecked_rejected {store store' : TraceStore} {schemas : SchemaCatalog}
    {checker : BehaviorChecker} {patch : Patch} {authority : Authority}
    (h : commitPatchChecked store schemas checker patch authority = .ok (store', .rejected)) :
    ∃ f ∈ patch.preconditions, ¬ 0 < store.weight f.rel f.tuple := by
  unfold commitPatchChecked at h
  obtain ⟨checked, hc, h⟩ := bind_ok h
  obtain ⟨hpre, -⟩ := checkPatch_ok hc
  dsimp only at h
  split at h
  · cases h
  · rename_i hnone
    by_contra hall
    simp only [not_exists, not_and, not_not] at hall
    refine absurd hnone (Option.isSome_iff_ne_none.1 (Option.isSome_iff_exists.2 ⟨_, TraceStore.commitIf_eq_some.2 ⟨?_, rfl⟩⟩))
    intro p hp
    rw [hpre] at hp
    obtain ⟨f, hf, rfl⟩ := List.mem_map.1 hp
    exact hall f hf

/-- A commit that went through is of rows its authority permits, besides its messages and the move
of its cursor. -/
theorem commitPatchChecked_permits {store store' : TraceStore} {schemas : SchemaCatalog} {checker : BehaviorChecker}
    {patch : Patch} {authority : Authority} {e : Nat}
    (h : commitPatchChecked store schemas checker patch authority = .ok (store', .committed e)) :
    store' = store.commit patch.updates ∧ ∀ f ∈ patch.asserts ++ patch.retracts ++ patch.timers, authority.permits f = true := by
  refine ⟨?_, ?_⟩
  · rcases commitPatchChecked_ok h with ⟨hout, -⟩ | ⟨-, -, rfl⟩
    · cases hout
    · rfl
  · unfold commitPatchChecked at h
    obtain ⟨checked, hc, -⟩ := bind_ok h
    exact (checkPatch_laws hc).1

/-- What a patch updates. -/
theorem Patch.rel_of_mem_updates {patch : Patch} {u : RelId × Tuple × Diff} (h : u ∈ patch.updates) :
    (∃ f ∈ patch.asserts ++ patch.retracts ++ patch.timers, f.rel = u.1) ∨ (∃ e ∈ patch.emits, e.inbox = u.1) ∨
      ∃ move, patch.cursorAdvance = some move ∧ move.rel = u.1 := by
  simp only [Patch.updates, Patch.emitted, List.mem_append, List.mem_map, List.mem_flatMap, Option.mem_toList] at h
  rcases h with ((⟨f, hf, rfl⟩ | ⟨f, hf, rfl⟩) | ⟨e, he, rfl⟩) | ⟨s, hs, rfl⟩ | ⟨move, hmove, hu⟩
  · exact .inl ⟨f, by simp [hf], rfl⟩
  · exact .inl ⟨f, by simp [hf], rfl⟩
  · exact .inr (.inl ⟨e, he, rfl⟩)
  · refine .inl ⟨⟨s.timers, timerRow s⟩, ?_, rfl⟩
    rw [List.mem_append]
    exact .inr (List.mem_map.2 ⟨s, hs, rfl⟩)
  · refine .inr (.inr ⟨move, hmove, ?_⟩)
    rw [CursorMove.updates, List.mem_append, List.mem_map] at hu
    rcases hu with ⟨old, -, rfl⟩ | hu
    · rfl
    · rw [List.mem_singleton.1 hu]

end Grmpl

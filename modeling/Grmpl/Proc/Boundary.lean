import Grmpl.Lib.Runs
import Grmpl.Proc.Domain
import Grmpl.Proc.Process
import Grmpl.Proc.Schedule
import Grmpl.Proc.SchemaRegistry
import Grmpl.Proc.Watch

/-!
# The commit boundary over runs

Writers of one store put patches to the laws and commit them, each in several steps,
while schemas evolve and other writers commit. A patch writes rows through several
channels: its asserts and timers, which the laws see, and its emits and cursor move,
which they do not; a domain adds the rows of its outbox and counter, and applies what
other domains send it.

* `Ledger`, `Ledger.step`: a store, its schemas, its writers, and the rows they put in.
* `Writer.vetted`, `Writer.unvetted`: the rows of a writer's patch by whether the laws
  see them.
* `Writer.Vetted`: a patch in hand passed the laws.
* `Ledger.Does`, `ledger_does`: what a step does.
* `committing_covered`: every row a commit puts in is of one kind or the other.
-/

open OrdMap Runs

namespace Grmpl

/-- A row a commit put in: its relation's schema then, and the authority it was
committed on, if any. -/
structure Entry where
  rel : RelId
  row : Tuple
  schema : Option Schema
  authority : Option Authority

/-- Where a writer stands. -/
inductive Writer where
  | idle
  /-- A process has read its cursor. -/
  | positioned (p : Process) (pos : Int64)
  | prepared (p : Process) (x : Prepared)
  /-- A watch has read its cursor. -/
  | watching (watch : OnWatch) (start : Nat)
  | ready (x : Append)
  | drafted (d : Draft)
  | seeding (s : Seed)
  /-- Its patch passed the laws, the code law among them or not. -/
  | passed (patch : Patch) (authority : Authority) (coded : Bool) (checked : CheckedPatch)
  /-- The patch of a domain's commit passed the laws. -/
  | routed (d : Domain) (patch : Patch) (authority : Authority) (x : Routed)
  | drawn (d : Domain) (patch : Patch) (authority : Authority) (x : Routed) (alloc : SeqAlloc)
  | refused (d : Domain) (patch : Patch) (authority : Authority) (x : Routed)
  | polled (d : Domain) (sender : DomainId) (payload : List UInt8)
  | unseen (d : Domain) (sender : DomainId) (seq : Int64) (m : Message)

/-- A store, its schemas, its writers, and the rows that commits put in. -/
structure Ledger where
  store : TraceStore
  registry : SchemaRegistry
  writers : List Writer
  entered : List Entry

/-- What a commit would be: its preconditions, its updates, and the authority it is on. -/
structure Proposal where
  preconditions : List (RelId × Tuple)
  updates : List (RelId × Tuple × Diff)
  authority : Option Authority

namespace Writer

/-- What a writer is about to commit. -/
def pending : Writer → Option Proposal
  | .passed patch authority _ checked =>
      some ⟨checked.preconditions, checked.writes ++ patch.emitted ++ checked.rest, some authority⟩
  | .routed _ _ authority x =>
      if x.remotes = [] then some ⟨x.preconditions, x.updates, some authority⟩ else none
  | .drawn d _ authority x alloc => some ⟨(d.draft x alloc).1, (d.draft x alloc).2, some authority⟩
  | .unseen d sender seq m => some ⟨[], m.arrival d.seen sender seq, none⟩
  | _ => none

/-- After a refusal: a domain tells a lost number from a lost precondition, anyone else
starts over. -/
def afterRefusal : Writer → Writer
  | .drawn d patch authority x _ => .refused d patch authority x
  | _ => .idle

end Writer

namespace Ledger

/-- What a writer does between two reads or commits, or a schema's evolution. -/
inductive Act where
  | putSchema (rel : RelId) (s : Schema) (at' : Nat)
  | submit (i : Nat) (patch : Patch) (authority : Authority)
  | position (i : Nat) (p : Process)
  | prepare (i : Nat)
  | fire (i : Nat) (scheduler : Scheduler) (row : Tuple)
  | cursor (i : Nat) (watch : OnWatch)
  | batch (i : Nat)
  | draw (i : Nat)
  | install (i : Nat) (watch : OnWatch) (start : Nat)
  | check (i : Nat)
  | route (i : Nat) (d : Domain) (patch : Patch) (authority : Authority)
  | settle (i : Nat)
  | poll (i : Nat) (d : Domain) (sender : DomainId) (payload : List UInt8)
  | look (i : Nat)
  | commit (i : Nat)
  | crash (i : Nat)

def setWriter (w : Ledger) (i : Nat) (x : Writer) : Ledger := { w with writers := w.writers.set i x }

/-- The rows updates put in. -/
def entries (r : SchemaRegistry) (updates : List (RelId × Tuple × Diff)) (authority : Option Authority) :
    List Entry :=
  (updates.filter fun u => 0 < u.2.2).map fun u => ⟨u.1, u.2.1, r.schema u.1, authority⟩

/-- A commit that goes through. -/
def enter (w : Ledger) (i : Nat) (x : Proposal) : Ledger :=
  { w.setWriter i .idle with
    store := w.store.commit x.updates
    entered := w.entered ++ entries w.registry x.updates x.authority }

variable (checker : BehaviorChecker)

/-- A patch put to the laws. -/
def put (w : Ledger) (coded : Bool) (patch : Patch) (authority : Authority) : Writer :=
  match checkPatch w.registry.catalog (if coded then checker else noBehaviorCheck) patch authority with
  | .ok checked => .passed patch authority coded checked
  | .error _ => .idle

/-- What the code does next, if it can; an error gives the patch up. Processes and
patches that are submitted go through the code checker, appends and domains do not. -/
def step (w : Ledger) : Act → Option Ledger
  | .putSchema rel s at' => match w.registry.putSchema rel s at' with
    | .ok registry => some { w with registry }
    | .error _ => some w
  | .submit i patch authority => match w.writers[i]? with
    | some .idle => some (w.setWriter i (w.put checker true patch authority))
    | _ => none
  | .position i p => match w.writers[i]? with
    | some .idle => match p.position w.store with
      | .ok pos => some (w.setWriter i (.positioned p pos))
      | .error _ => some w
    | _ => none
  | .prepare i => match w.writers[i]? with
    | some (.positioned p pos) => match p.patchAt w.store pos w.store.current with
      | .ok (some patch) => some (w.setWriter i (.prepared p ⟨pos, patch⟩))
      | _ => some (w.setWriter i .idle)
    | _ => none
  | .fire i scheduler row => match w.writers[i]? with
    | some .idle => match scheduler.fireOne w.store row with
      | .ok (some x) => some (w.setWriter i (.ready x))
      | _ => some w
    | _ => none
  | .cursor i watch => match w.writers[i]? with
    | some .idle => match watch.cursor w.store with
      | .ok (some start) => some (w.setWriter i (.watching watch start))
      | _ => some w
    | _ => none
  | .batch i => match w.writers[i]? with
    | some (.watching watch start) => match watch.batch w.store start with
      | .ok (some x) => some (w.setWriter i (.ready x))
      | _ => some (w.setWriter i .idle)
    | _ => none
  | .draw i => match w.writers[i]? with
    | some (.ready x) => match x.draw w.store with
      | .ok d => some (w.setWriter i (.drafted d))
      | .error _ => some (w.setWriter i .idle)
    | some (.routed d patch authority x) =>
        if x.remotes = [] then none
        else match SeqAlloc.read w.store d.outseq [] with
          | .ok alloc => some (w.setWriter i (.drawn d patch authority x alloc))
          | .error _ => some (w.setWriter i .idle)
    | _ => none
  | .install i watch start => match w.writers[i]? with
    | some .idle => match watch.install w.store start with
      | .ok s => some (w.setWriter i (.seeding s))
      | .error _ => some w
    | _ => none
  | .check i => match w.writers[i]? with
    | some (.prepared p x) => some (w.setWriter i (w.put checker true x.patch p.authority))
    | some (.drafted d) => match d.append.authority with
      | some a => some (w.setWriter i (w.put checker false d.patch a))
      | none => some (w.setWriter i .idle)
    | some (.seeding s) => match s.authority with
      | some a => some (w.setWriter i (w.put checker false (s.alloc.seed s.base) a))
      | none => some (w.setWriter i .idle)
    | _ => none
  | .route i d patch authority => match w.writers[i]? with
    | some .idle => match d.route w.registry.catalog patch authority with
      | .ok x => some (w.setWriter i (.routed d patch authority x))
      | .error _ => some w
    | _ => none
  | .settle i => match w.writers[i]? with
    | some (.refused d patch authority x) => match Domain.allHold w.store x.preconditions with
      | .ok true => some (w.setWriter i (.routed d patch authority x))
      | _ => some (w.setWriter i .idle)
    | _ => none
  | .poll i d sender payload => match w.writers[i]? with
    | some .idle => some (w.setWriter i (.polled d sender payload))
    | _ => none
  | .look i => match w.writers[i]? with
    | some (.polled d sender payload) => match decodeEnvelope payload with
      | .ok (seq, m) => match d.seenHolds w.store sender seq with
        | .ok false => some (w.setWriter i (.unseen d sender seq m))
        | _ => some (w.setWriter i .idle)
      | .error _ => some (w.setWriter i .idle)
    | _ => none
  | .commit i => match w.writers[i]? with
    | some x => match x.pending with
      | some p => match w.store.commitIf p.preconditions p.updates with
        | some _ => some (w.enter i p)
        | none => some (w.setWriter i x.afterRefusal)
      | none => none
    | none => none
  | .crash i => some (w.setWriter i .idle)

/-- A world with nothing in it, its schemas, and idle writers. -/
def start (registry : SchemaRegistry) (n : Nat) : Ledger :=
  ⟨TraceStore.empty, registry, List.replicate n .idle, []⟩

end Ledger

/-! ## What the laws see of a patch -/

/-- The rows of a patch's emits and cursor move. -/
def Patch.unvetted (patch : Patch) (emits : List Message) : List (RelId × Tuple) :=
  (emits.map fun m => (m.inbox, m.body)) ++ patch.cursorAdvance.toList.map fun m => (m.rel, m.assert)

/-- The rows a draw adds to a domain's commit: the outbox's and the counter's. -/
def Domain.drawnRows (d : Domain) (x : Routed) (alloc : SeqAlloc) : List (RelId × Tuple) :=
  ((alloc.assign x.remotes).2.map fun m => (d.outbox, outboxRow m.1 m.2.1 m.2.2)) ++
    ((alloc.assign x.remotes).1.sealPatch Patch.new).asserts.map fun f => (f.rel, f.tuple)

namespace Writer

/-- The rows of a writer's patch that the laws have seen. -/
def vetted : Writer → List Fact
  | .passed patch _ _ _ | .routed _ patch _ _ | .drawn _ patch _ _ _ | .refused _ patch _ _ =>
      patch.asserts ++ patch.retracts ++ patch.timers
  | _ => []

/-- The rows its commit puts in that no law has seen. -/
def unvetted : Writer → List (RelId × Tuple)
  | .passed patch _ _ _ => patch.unvetted patch.emits
  | .routed d patch _ _ => patch.unvetted (patch.emits.filter fun m => d.isRemote m.inbox = none)
  | .drawn d patch _ x alloc =>
      patch.unvetted (patch.emits.filter fun m => d.isRemote m.inbox = none) ++ d.drawnRows x alloc
  | .unseen d sender seq m => [(m.inbox, m.body), (d.seen, seenRow sender seq)]
  | _ => []

/-- A writer's patch passed the laws under a registry. -/
def Vetted (checker : BehaviorChecker) (r : SchemaRegistry) : Writer → Prop
  | .passed patch authority coded checked => checkPatch r.catalog
      (if coded then checker else noBehaviorCheck) patch authority = .ok checked
  | .routed d patch authority x | .drawn d patch authority x _ | .refused d patch authority x =>
      d.route r.catalog patch authority = .ok x
  | _ => True

end Writer

section Channels

variable {checker : BehaviorChecker} {r : SchemaRegistry}

/-- A routed patch passed the laws, and is its updates less its messages to others. -/
theorem Domain.route_ok {d : Domain} {schemas : SchemaCatalog} {patch : Patch} {authority : Authority}
    {x : Routed} (h : d.route schemas patch authority = .ok x) :
    ∃ checked, checkPatch schemas noBehaviorCheck patch authority = .ok checked ∧
      x.updates = checked.writes ++ ((patch.emits.filter fun m => d.isRemote m.inbox = none).map
        fun m => (m.inbox, m.body, 1)) ++ checked.rest := by
  unfold Domain.route at h
  obtain ⟨checked, hc, h⟩ := bind_ok h
  cases h
  exact ⟨checked, hc, rfl⟩

/-- A row a checked patch puts in is an assert, a timer, an emit or the cursor's. -/
theorem checked_covered {schemas : SchemaCatalog} {patch : Patch} {authority : Authority}
    {checked : CheckedPatch} (h : checkPatch schemas checker patch authority = .ok checked)
    (emits : List Message) {u : RelId × Tuple × Diff}
    (hu : u ∈ checked.writes ++ (emits.map fun m => (m.inbox, m.body, 1)) ++ checked.rest)
    (hpos : 0 < u.2.2) :
    (⟨u.1, u.2.1⟩ : Fact) ∈ patch.asserts ∨ (⟨u.1, u.2.1⟩ : Fact) ∈ patch.timers ∨
      (u.1, u.2.1) ∈ patch.unvetted emits := by
  unfold checkPatch at h
  dsimp only at h
  split at h
  · exact absurd h (by simp)
  · obtain ⟨_, -, h⟩ := bind_ok h
    obtain ⟨_, -, h⟩ := bind_ok h
    cases h
    rcases List.mem_append.1 hu with hu | hu
    · rcases List.mem_append.1 hu with hu | hu
      · rcases List.mem_append.1 hu with hu | hu
        · obtain ⟨f, hf, rfl⟩ := List.mem_map.1 hu
          exact .inl hf
        · obtain ⟨f, hf, rfl⟩ := List.mem_map.1 hu
          exact absurd hpos (show ¬ (0 : Int) < -1 by decide)
      · obtain ⟨m, hm, rfl⟩ := List.mem_map.1 hu
        exact .inr (.inr (List.mem_append_left _ (List.mem_map_of_mem hm)))
    · rcases List.mem_append.1 hu with hu | hu
      · obtain ⟨f, hf, rfl⟩ := List.mem_map.1 hu
        exact .inr (.inl hf)
      · obtain ⟨m, hm, hu⟩ := List.mem_flatMap.1 hu
        rcases List.mem_append.1 hu with hu | hu
        · obtain ⟨old, -, rfl⟩ := List.mem_map.1 hu
          exact absurd hpos (show ¬ (0 : Int) < -1 by decide)
        · obtain rfl := List.mem_singleton.1 hu
          exact .inr (.inr (List.mem_append_right _ (List.mem_map_of_mem hm)))

/-- A row a draft puts in is the routed patch's, or one the draw adds. -/
theorem draft_covered {d : Domain} {x : Routed} {alloc : SeqAlloc} {u : RelId × Tuple × Diff}
    (hu : u ∈ (d.draft x alloc).2) (hpos : 0 < u.2.2) :
    u ∈ x.updates ∨ (u.1, u.2.1) ∈ d.drawnRows x alloc := by
  rcases List.mem_append.1 hu with hu | hu
  · rcases List.mem_append.1 hu with hu | hu
    · exact .inl hu
    · obtain ⟨m, hm, rfl⟩ := List.mem_map.1 hu
      exact .inr (List.mem_append_left _ (List.mem_map.2 ⟨m, hm, rfl⟩))
  · rcases List.mem_append.1 hu with hu | hu
    · obtain ⟨f, hf, rfl⟩ := List.mem_map.1 hu
      exact absurd hpos (show ¬ (0 : Int) < -1 by decide)
    · obtain ⟨f, hf, rfl⟩ := List.mem_map.1 hu
      exact .inr (List.mem_append_right _ (List.mem_map.2 ⟨f, hf, rfl⟩))

/-- The asserts of a writer's patch. -/
def Writer.asserts : Writer → List Fact
  | .passed patch _ _ _ | .routed _ patch _ _ | .drawn _ patch _ _ _ | .refused _ patch _ _ => patch.asserts
  | _ => []

/-- The timer rows of a writer's patch. -/
def Writer.timers : Writer → List Fact
  | .passed patch _ _ _ | .routed _ patch _ _ | .drawn _ patch _ _ _ | .refused _ patch _ _ => patch.timers
  | _ => []

theorem Writer.mem_vetted_asserts {x : Writer} {f : Fact} (h : f ∈ x.asserts) : f ∈ x.vetted := by
  cases x with
  | passed | routed | drawn | refused => exact List.mem_append_left _ (List.mem_append_left _ h)
  | _ => exact absurd h (by simp [asserts])

theorem Writer.mem_vetted_timers {x : Writer} {f : Fact} (h : f ∈ x.timers) : f ∈ x.vetted := by
  cases x with
  | passed | routed | drawn | refused => exact List.mem_append_right _ h
  | _ => exact absurd h (by simp [timers])

/-- **Every row a commit puts in is one the laws have seen or one they have not.** -/
theorem pending_covered {x : Writer} (hx : x.Vetted checker r) {p : Proposal} (hp : x.pending = some p)
    {u : RelId × Tuple × Diff} (hu : u ∈ p.updates) (hpos : 0 < u.2.2) :
    (⟨u.1, u.2.1⟩ : Fact) ∈ x.asserts ∨ (⟨u.1, u.2.1⟩ : Fact) ∈ x.timers ∨
      (u.1, u.2.1) ∈ x.unvetted := by
  cases x with
  | passed patch authority coded checked =>
    cases hp
    exact checked_covered hx patch.emits hu hpos
  | routed d patch authority x =>
    obtain ⟨checked, hc, hupd⟩ := Domain.route_ok hx
    rw [Writer.pending] at hp
    split_ifs at hp
    cases hp
    dsimp only at hu
    rw [hupd] at hu
    exact checked_covered hc _ hu hpos
  | drawn d patch authority x alloc =>
    obtain ⟨checked, hc, hupd⟩ := Domain.route_ok hx
    cases hp
    rcases draft_covered hu hpos with hu | hu
    · rw [hupd] at hu
      rcases checked_covered hc _ hu hpos with hf | hf | hf
      · exact .inl hf
      · exact .inr (.inl hf)
      · exact .inr (.inr (List.mem_append_left _ hf))
    · exact .inr (.inr (List.mem_append_right _ hu))
  | unseen d sender seq m =>
    cases hp
    refine .inr (.inr ?_)
    rcases List.mem_cons.1 hu with rfl | hu
    · exact List.mem_cons_self
    · obtain rfl := List.mem_singleton.1 hu
      exact List.mem_cons_of_mem _ List.mem_cons_self
  | _ => cases hp

/-- What the laws have seen conforms to the schemas they saw it under. -/
theorem Writer.Vetted.conforms {x : Writer} (hx : x.Vetted checker r) :
    ∀ f ∈ x.vetted, ∀ s, r.schema f.rel = some s → s.Conforms f.tuple := by
  cases x with
  | passed patch authority coded checked =>
    exact SchemaRegistry.checkSchema_conforms (checkPatch_laws hx).2.1
  | routed d patch authority x =>
    obtain ⟨checked, hc, -⟩ := Domain.route_ok hx
    exact SchemaRegistry.checkSchema_conforms (checkPatch_laws hc).2.1
  | drawn d patch authority x alloc =>
    obtain ⟨checked, hc, -⟩ := Domain.route_ok hx
    exact SchemaRegistry.checkSchema_conforms (checkPatch_laws hc).2.1
  | refused d patch authority x =>
    obtain ⟨checked, hc, -⟩ := Domain.route_ok hx
    exact SchemaRegistry.checkSchema_conforms (checkPatch_laws hc).2.1
  | _ => exact fun f hf => absurd hf (by simp [Writer.vetted])

end Channels

/-! ## What a step does -/

section Steps

variable {checker : BehaviorChecker} {w w' : Ledger} {act : Ledger.Act}

/-- What a writer may become of itself: one with nothing in hand, one whose patch passed
the laws now, or one with the patch that was in hand. -/
inductive Ledger.Becomes (checker : BehaviorChecker) (w : Ledger) : Writer → Prop
  | bare (x : Writer) : x.vetted = [] → (∀ r, x.Vetted checker r) → Becomes checker w x
  | now (x : Writer) : x.Vetted checker w.registry → Becomes checker w x
  | still (x y : Writer) : y ∈ w.writers → x.vetted = y.vetted →
      (∀ r, y.Vetted checker r → x.Vetted checker r) → Becomes checker w x

/-- What a step does. -/
inductive Ledger.Does (checker : BehaviorChecker) (w : Ledger) : Ledger.Act → Ledger → Prop
  | stay (act : Ledger.Act) : Does checker w act w
  | evolve (rel : RelId) (s : Schema) (at' : Nat) (registry : SchemaRegistry) :
      w.registry.putSchema rel s at' = .ok registry →
      Does checker w (.putSchema rel s at') { w with registry }
  | turn (act : Ledger.Act) (i : Nat) (x : Writer) : w.Becomes checker x → Does checker w act (w.setWriter i x)
  | commit (i : Nat) (x : Writer) (p : Proposal) : w.writers[i]? = some x → x.pending = some p →
      (∀ q ∈ p.preconditions, 0 < w.store.weight q.1 q.2) → Does checker w (.commit i) (w.enter i p)

theorem Ledger.becomes_idle : w.Becomes checker .idle := .bare _ rfl fun _ => trivial

/-- A patch put to the laws passed them or is given up. -/
theorem Ledger.becomes_put (coded : Bool) (patch : Patch) (authority : Authority) :
    w.Becomes checker (w.put checker coded patch authority) := by
  unfold Ledger.put
  split
  · rename_i checked hc
    exact .now _ hc
  · exact becomes_idle

theorem ledger_does (h : Ledger.step checker w act = some w') : Ledger.Does checker w act w' := by
  cases act with
  | putSchema rel s at' =>
    simp only [Ledger.step] at h
    split at h
    · rename_i registry hput
      cases h
      exact .evolve rel s at' registry hput
    · cases h
      exact .stay _
  | submit i patch authority =>
    simp only [Ledger.step] at h
    split at h
    · cases h
      exact .turn _ i _ (Ledger.becomes_put true patch authority)
    · cases h
  | position i p =>
    simp only [Ledger.step] at h
    split at h
    · split at h
      · cases h
        exact .turn _ i _ (.bare _ rfl fun _ => trivial)
      · cases h
        exact .stay _
    · cases h
  | prepare i =>
    simp only [Ledger.step] at h
    split at h
    · split at h
      · cases h
        exact .turn _ i _ (.bare _ rfl fun _ => trivial)
      · cases h
        exact .turn _ i _ Ledger.becomes_idle
    · cases h
  | fire i scheduler row =>
    simp only [Ledger.step] at h
    split at h
    · split at h
      · cases h
        exact .turn _ i _ (.bare _ rfl fun _ => trivial)
      · cases h
        exact .stay _
    · cases h
  | cursor i watch =>
    simp only [Ledger.step] at h
    split at h
    · split at h
      · cases h
        exact .turn _ i _ (.bare _ rfl fun _ => trivial)
      · cases h
        exact .stay _
    · cases h
  | batch i =>
    simp only [Ledger.step] at h
    split at h
    · split at h
      · cases h
        exact .turn _ i _ (.bare _ rfl fun _ => trivial)
      · cases h
        exact .turn _ i _ Ledger.becomes_idle
    · cases h
  | draw i =>
    simp only [Ledger.step] at h
    split at h
    · split at h
      · cases h
        exact .turn _ i _ (.bare _ rfl fun _ => trivial)
      · cases h
        exact .turn _ i _ Ledger.becomes_idle
    · rename_i d patch authority x hx
      split at h
      · cases h
      · split at h
        · cases h
          exact .turn _ i _ (.still _ _ (List.mem_of_getElem? hx) rfl fun _ hv => hv)
        · cases h
          exact .turn _ i _ Ledger.becomes_idle
    · cases h
  | install i watch start =>
    simp only [Ledger.step] at h
    split at h
    · split at h
      · cases h
        exact .turn _ i _ (.bare _ rfl fun _ => trivial)
      · cases h
        exact .stay _
    · cases h
  | check i =>
    simp only [Ledger.step] at h
    split at h
    · cases h
      exact .turn _ i _ (Ledger.becomes_put true _ _)
    · split at h
      · cases h
        exact .turn _ i _ (Ledger.becomes_put false _ _)
      · cases h
        exact .turn _ i _ Ledger.becomes_idle
    · split at h
      · cases h
        exact .turn _ i _ (Ledger.becomes_put false _ _)
      · cases h
        exact .turn _ i _ Ledger.becomes_idle
    · cases h
  | route i d patch authority =>
    simp only [Ledger.step] at h
    split at h
    · split at h
      · rename_i x hx
        cases h
        exact .turn _ i _ (.now _ hx)
      · cases h
        exact .stay _
    · cases h
  | settle i =>
    simp only [Ledger.step] at h
    split at h
    · rename_i d patch authority x hx
      split at h
      · cases h
        exact .turn _ i _ (.still _ _ (List.mem_of_getElem? hx) rfl fun _ hv => hv)
      · cases h
        exact .turn _ i _ Ledger.becomes_idle
    · cases h
  | poll i d sender payload =>
    simp only [Ledger.step] at h
    split at h
    · cases h
      exact .turn _ i _ (.bare _ rfl fun _ => trivial)
    · cases h
  | look i =>
    simp only [Ledger.step] at h
    split at h
    · split at h
      · split at h
        · cases h
          exact .turn _ i _ (.bare _ rfl fun _ => trivial)
        · cases h
          exact .turn _ i _ Ledger.becomes_idle
      · cases h
        exact .turn _ i _ Ledger.becomes_idle
    · cases h
  | commit i =>
    simp only [Ledger.step] at h
    split at h
    · rename_i x hx
      split at h
      · rename_i p hp
        split at h
        · rename_i store hcommit
          cases h
          exact .commit i x p hx hp (TraceStore.commitIf_eq_some.1 hcommit).1
        · cases h
          refine .turn _ i _ ?_
          cases x with
          | drawn d patch authority x alloc =>
            exact .still _ _ (List.mem_of_getElem? hx) rfl fun _ hv => hv
          | _ => exact Ledger.becomes_idle
      · cases h
    · cases h
  | crash i =>
    cases h
    exact .turn _ i _ Ledger.becomes_idle

/-- Every writer's patch passed the laws under a registry that has something to do with
the rows they saw. -/
def Ledger.EachVetted (checker : BehaviorChecker) (P : SchemaRegistry → List Fact → Prop) (w : Ledger) :
    Prop :=
  ∀ x ∈ w.writers, ∃ r, x.Vetted checker r ∧ P r x.vetted

theorem eachVetted_turn {P : SchemaRegistry → List Fact → Prop} (hnow : ∀ facts, P w.registry facts)
    (h : w.EachVetted checker P) (i : Nat) {x : Writer} (hx : w.Becomes checker x) :
    (w.setWriter i x).EachVetted checker P := by
  intro y hy
  rcases List.mem_or_eq_of_mem_set hy with hy | rfl
  · exact h y hy
  · cases hx with
    | bare hnil hv => exact ⟨w.registry, hv _, hnow _⟩
    | now hv => exact ⟨w.registry, hv, hnow _⟩
    | still z hz hsame hv =>
      obtain ⟨r, hr, hP⟩ := h z hz
      exact ⟨r, hv r hr, hsame ▸ hP⟩

/-- Every row a commit put in is logged. -/
def Ledger.Logged (w : Ledger) : Prop :=
  ∀ u ∈ w.store.patches.flatten, 0 < u.2.2 → ∃ x ∈ w.entered, x.rel = u.1 ∧ x.row = u.2.1

theorem mem_entries {r : SchemaRegistry} {updates : List (RelId × Tuple × Diff)}
    {authority : Option Authority} {x : Entry} : x ∈ Ledger.entries r updates authority ↔
      ∃ u ∈ updates, 0 < u.2.2 ∧ x = ⟨u.1, u.2.1, r.schema u.1, authority⟩ := by
  unfold Ledger.entries
  rw [List.mem_map]
  constructor
  · rintro ⟨u, hu, rfl⟩
    obtain ⟨hu, hpos⟩ := List.mem_filter.1 hu
    exact ⟨u, hu, by simpa using hpos, rfl⟩
  · rintro ⟨u, hu, hpos, rfl⟩
    exact ⟨u, List.mem_filter.2 ⟨hu, by simpa using hpos⟩, rfl⟩

theorem logged_step (h : w.Logged) (hd : Ledger.Does checker w act w') : w'.Logged := by
  cases hd with
  | stay => exact h
  | evolve => exact h
  | turn => exact h
  | commit i x p hx hp hpre =>
    intro u hu hpos
    have hmem : u ∈ w.store.patches.flatten ++ p.updates := by
      simpa [Ledger.enter, TraceStore.commit] using hu
    rcases List.mem_append.1 hmem with hu | hu
    · obtain ⟨e, he, hrow⟩ := h u hu hpos
      exact ⟨e, List.mem_append_left _ he, hrow⟩
    · exact ⟨_, List.mem_append_right _ (mem_entries.2 ⟨u, hu, hpos, rfl⟩), rfl, rfl⟩

/-- **Every row present at some edition is logged.** -/
theorem Ledger.Logged.present (h : w.Logged) {rel : RelId} {at' : Nat} {t : Tuple} {d : Diff}
    (hrow : (t, d) ∈ w.store.rowsAt rel at') (hpos : 0 < d) :
    ∃ x ∈ w.entered, x.rel = rel ∧ x.row = t := by
  have hlook := lookup_addRows rel t (w.store.patches.take at').flatten []
  have hval : (lookup t (w.store.rowsAt rel at')).getD 0 = d := by
    rw [lookup_of_mem (w.store.sorted_rowsAt rel at') hrow]
    rfl
  have hnet : 0 < netOn rel t (w.store.patches.take at').flatten := by
    rw [← hval, TraceStore.rowsAt, hlook] at hpos
    exact lt_of_lt_of_eq hpos (zero_add _)
  obtain ⟨u, hu, rfl, rfl, hu'⟩ := exists_pos_of_netOn_pos hnet
  obtain ⟨p, hp, hup⟩ := List.mem_flatten.1 hu
  exact h u (List.mem_flatten.2 ⟨p, List.mem_of_mem_take hp, hup⟩) hu'

end Steps

end Grmpl

import Grmpl.Proc.SeqAlloc

/-!
# Appending to an inbox

An inbox row is the process it is for, its number and its body. An appender knows
what it appends before it draws numbers for it: the inbox and the process, the
counter it draws from, the bodies, and whatever else its patch does. What it commits
is that patch with a row for each body and the counter's advance.

* `inboxFact`, `enqueue`: a row at a given number.
* `Append`, `Append.draw`, `Draft.patch`, `Draft.commit`: rows at drawn numbers.
* `enqueueSeq`: one message, on nobody's authority.
* `Seed`, `Seed.commit`, `seedSeq`: a counter's first row.
-/

open Numbering

namespace Grmpl

/-- A row of an inbox: the process it is for, its number, its body. -/
def inboxFact (inbox : RelId) (process : Entity) (seq : Int64) (body : Tuple) : Fact :=
  ⟨inbox, ⟨[.ent process, .int seq, .tuple body.cells]⟩⟩

/-- A message at a number the sender has chosen. -/
def enqueue (store : TraceStore) (inbox : RelId) (process : Entity) (seq : Int64) (body : Tuple) :
    TraceStore := store.commit [(inbox, (inboxFact inbox process seq body).tuple, 1)]

/-- What an appender is about to append: the bodies, the counter it draws their
numbers from, and the patch they are added to. No authority is the sender's side,
which commits unchecked. -/
structure Append where
  inbox : RelId
  target : Entity
  seqs : RelId
  key : List Value
  bodies : List Tuple
  base : Patch
  authority : Option Authority

/-- What is appended, and the counter read for it. -/
structure Draft where
  append : Append
  alloc : SeqAlloc

def Append.draw (x : Append) (store : TraceStore) : Result Draft := do
  let alloc ← SeqAlloc.read store x.seqs x.key
  return ⟨x, alloc⟩

namespace Draft

variable (d : Draft)

/-- The bodies with their numbers. -/
def messages : List (Int64 × Tuple) := (d.alloc.assign d.append.bodies).2

/-- The rows of the messages, on top of the appender's own patch. -/
def appended : Patch :=
  d.messages.foldl (fun p m => p.assert (inboxFact d.append.inbox d.append.target m.1 m.2)) d.append.base

def patch : Patch := (d.alloc.assign d.append.bodies).1.sealPatch d.appended

end Draft

/-- A patch's asserts and retracts. -/
def Patch.writes (p : Patch) : List (RelId × Tuple × Diff) :=
  (p.asserts.map fun f => (f.rel, f.tuple, 1)) ++ p.retracts.map fun f => (f.rel, f.tuple, -1)

/-- A patch of asserts and retracts, through the store's guarded commit. -/
def commitGuarded (store : TraceStore) (p : Patch) : TraceStore × CommitOutcome :=
  match store.commitIf (p.preconditions.map fun f => (f.rel, f.tuple)) p.writes with
  | some store' => (store', .committed store'.current)
  | none => (store, .rejected)

def Draft.commit (d : Draft) (store : TraceStore) (schemas : SchemaCatalog) :
    Result (TraceStore × CommitOutcome) :=
  match d.append.authority with
  | some a => commitPatch store schemas d.patch a
  | none => .ok (commitGuarded store d.patch)

/-- One message to a process, its number drawn from the process's counter. -/
def enqueueSeq (inbox seqs : RelId) (process : Entity) (body : Tuple) : Append where
  inbox := inbox
  target := process
  seqs := seqs
  key := [.ent process]
  bodies := [body]
  base := Patch.new
  authority := none

/-- A counter's first row, as part of a patch. -/
structure Seed where
  alloc : SeqAlloc
  base : Patch
  authority : Option Authority

/-- Nothing is committed on nobody's authority if there is nothing to assert. -/
def Seed.commit (s : Seed) (store : TraceStore) (schemas : SchemaCatalog) :
    Result (TraceStore × CommitOutcome) :=
  match s.authority with
  | some a => commitPatch store schemas (s.alloc.seed s.base) a
  | none =>
      if (s.alloc.seed s.base).asserts = [] then .ok (store, .rejected)
      else
        let store' := store.commit ((s.alloc.seed s.base).asserts.map fun f => (f.rel, f.tuple, 1))
        .ok (store', .committed store'.current)

def seedSeq (store : TraceStore) (seqs : RelId) (process : Entity) : Result Seed := do
  let alloc ← SeqAlloc.read store seqs [.ent process]
  return ⟨alloc, Patch.new, none⟩

/-! ## What a commit does -/

/-- A patch of asserts and retracts only. -/
def Patch.Bare (p : Patch) : Prop := p.emits = [] ∧ p.scheduled = [] ∧ p.cursorAdvance = none

theorem Patch.Bare.updates {p : Patch} (h : p.Bare) : p.updates = p.writes := by
  obtain ⟨hemits, hscheduled, hcursor⟩ := h
  simp [Patch.updates, Patch.writes, Patch.emitted, hemits, hscheduled, hcursor]

theorem Patch.Bare.assert {p : Patch} (h : p.Bare) (f : Fact) : (p.assert f).Bare := h

theorem Patch.Bare.sealPatch {p : Patch} (h : p.Bare) (a : SeqAlloc) : (a.sealPatch p).Bare := by
  unfold SeqAlloc.sealPatch
  by_cases hn : a.n = 0
  · rw [if_pos hn]
    exact h
  · rw [if_neg hn]
    cases a.present
    · exact h
    · exact h

theorem Patch.Bare.new : Patch.new.Bare := ⟨rfl, rfl, rfl⟩

/-- A guarded commit that goes through meets its preconditions. -/
theorem commitGuarded_committed {store store' : TraceStore} {p : Patch} {e : Nat}
    (h : commitGuarded store p = (store', .committed e)) :
    (∀ f ∈ p.preconditions, 0 < store.weight f.rel f.tuple) ∧ store' = store.commit p.writes := by
  unfold commitGuarded at h
  split at h
  · rename_i s hs
    obtain ⟨hholds, rfl⟩ := TraceStore.commitIf_eq_some.1 hs
    refine ⟨fun f hf => hholds (f.rel, f.tuple) (List.mem_map_of_mem hf), ?_⟩
    exact (Prod.mk.inj h).1.symm
  · exact absurd (Prod.mk.inj h).2 (by simp)

/-- A draft on nobody's authority adds nothing but rows to what its appender has. -/
def Draft.Plain (d : Draft) : Prop := d.append.authority = none → d.append.base.Bare

theorem bare_foldl_assert (facts : Int64 × Tuple → Fact) : ∀ (ms : List (Int64 × Tuple)) {p : Patch},
    p.Bare → (ms.foldl (fun p m => p.assert (facts m)) p).Bare := by
  intro ms
  induction ms with
  | nil => exact fun h => h
  | cons m ms ih => exact fun h => ih (h.assert (facts m))

/-- A draft that was committed met its guard and applied its patch. -/
theorem Draft.commit_committed {d : Draft} (hplain : d.Plain) {store store' : TraceStore}
    {schemas : SchemaCatalog} {e : Nat} (h : d.commit store schemas = .ok (store', .committed e)) :
    (∀ f ∈ d.patch.preconditions, 0 < store.weight f.rel f.tuple) ∧
      store' = store.commit d.patch.updates := by
  unfold Draft.commit at h
  split at h
  · rcases commitPatchChecked_ok h with ⟨hrej, _⟩ | ⟨_, hpre, hstore⟩
    · exact absurd hrej (by simp)
    · exact ⟨hpre, hstore⟩
  · rename_i hauth
    obtain ⟨hpre, hstore⟩ := commitGuarded_committed (Except.ok.inj h)
    have hbare : d.patch.Bare := Patch.Bare.sealPatch (bare_foldl_assert _ _ (hplain hauth)) _
    rw [hbare.updates]
    exact ⟨hpre, hstore⟩

/-- What the rows of numbered messages add to a row. -/
theorem netOn_foldl_assert (inbox : RelId) (target : Entity) (rel : RelId) (t : Tuple) :
    ∀ (ms : List (Int64 × Tuple)) (p : Patch),
      netOn rel t (ms.foldl (fun p m => p.assert (inboxFact inbox target m.1 m.2)) p).updates
        = netOn rel t p.updates
          + (ms.countP fun m => inbox = rel ∧ (inboxFact inbox target m.1 m.2).tuple = t : Nat) := by
  intro ms
  induction ms with
  | nil => exact fun p => (add_zero _).symm
  | cons m ms ih =>
    intro p
    rw [List.foldl_cons, ih, netOn_assert, List.countP_cons]
    show netOn rel t p.updates + (if inbox = rel ∧ (inboxFact inbox target m.1 m.2).tuple = t then 1
      else 0) + _ = _
    simp only [decide_eq_true_eq, Nat.cast_add, Nat.cast_ite, Nat.cast_one, Nat.cast_zero]
    rw [add_assoc, add_comm (ite _ _ _)]

/-- A draft requires what its appender's patch requires. -/
theorem Draft.preconditions_base (d : Draft) : d.append.base.preconditions ⊆ d.patch.preconditions := by
  have hpre : ∀ (ms : List (Int64 × Tuple)) (p : Patch), (ms.foldl (fun p m =>
      p.assert (inboxFact d.append.inbox d.append.target m.1 m.2)) p).preconditions = p.preconditions := by
    intro ms
    induction ms with
    | nil => exact fun _ => rfl
    | cons m ms ih => exact fun p => ih _
  intro f hf
  rw [← hpre d.messages] at hf
  rw [Draft.patch, SeqAlloc.sealPatch]
  split
  · exact hf
  · dsimp only
    split
    · exact List.mem_append_left _ hf
    · exact hf

/-- Elsewhere than its inbox and its counter a draft does what its appender's patch does. -/
theorem Draft.netOn_elsewhere (d : Draft) {rel : RelId} (hinbox : d.append.inbox ≠ rel) (hseqs : d.alloc.rel ≠ rel)
    (t : Tuple) : netOn rel t d.patch.updates = netOn rel t d.append.base.updates := by
  obtain ⟨halloc, -, -⟩ := SeqAlloc.assign_eq d.append.bodies d.alloc
  rw [Draft.patch, SeqAlloc.netOn_sealPatch_other, Draft.appended, netOn_foldl_assert,
    List.countP_eq_zero.2 fun m _ => by simp [hinbox]]
  · simp
  · rw [halloc]
    exact fun hc => hseqs hc.1.symm

end Grmpl

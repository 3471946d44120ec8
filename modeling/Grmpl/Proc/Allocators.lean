import Grmpl.Lib.Runs
import Grmpl.Proc.Alloc
import Grmpl.Proc.Append

/-!
# Allocators racing for one counter

Any number of allocations on one counter are under way at once. Each reads the counter,
hands out numbers, seals its advance into a patch and commits that; one that is rejected
reads again. Between its read and its commit anyone else may commit.

* `Drawing`: an allocation, by either allocator; `Allocators`, `Allocators.step`.
* `Allocators.InSequence`: the numbers committed follow one another, and there is one
  counter row.
* `allocators_in_sequence`: **so it is in every run that does not overrun the counter.**
-/

open Numbering OrdMap Runs

namespace Grmpl

/-- An allocation on a counter, by `SeqAlloc` or, where the key is empty, by `Alloc`. -/
inductive Drawing where
  | seq (a : SeqAlloc)
  | ent (a : Alloc)

/-- An allocator of entities as one of numbers under the empty key. -/
def Alloc.toSeq (a : Alloc) : SeqAlloc := ⟨a.rel, [], a.start, a.present, a.n⟩

namespace Drawing

def alloc : Drawing → SeqAlloc
  | seq a => a
  | ent a => a.toSeq

/-- The next number, which an allocator of entities hands out as an entity. -/
def fresh : Drawing → Int64 × Drawing
  | seq a => (a.fresh.1, seq a.fresh.2)
  | ent a => (a.fresh.1.id.toInt64, ent a.fresh.2)

def sealPatch : Drawing → Patch → Patch
  | seq a, p => a.sealPatch p
  | ent a, p => a.sealPatch p

end Drawing

/-- An allocation under way, with the numbers it has handed out. -/
structure Attempt where
  drawing : Drawing
  numbers : List Int64

/-- A store, the allocations under way on one counter of it, and the numbers of those
that were committed, in the order of the commits. -/
structure Allocators where
  store : TraceStore
  attempts : List (Option Attempt)
  committed : List Int64

/-- A patch committed under an authority, or on nobody's by the sender's side. -/
def commitAs (store : TraceStore) (schemas : SchemaCatalog) (p : Patch) :
    Option Authority → Result (TraceStore × CommitOutcome)
  | some authority => commitPatch store schemas p authority
  | none => .ok (commitGuarded store p)

namespace Allocators

/-- What an allocation does next, or somebody else's commit. -/
inductive Act where
  | read (i : Nat)
  | readEntities (i : Nat) (base : Int64)
  | fresh (i : Nat)
  | commit (i : Nat) (patch : Patch) (authority : Option Authority)
  | crash (i : Nat)
  | other (updates : List (RelId × Tuple × Diff))

section Step

variable (rel : RelId) (key : List Value) (schemas : SchemaCatalog)

def setAttempt (w : Allocators) (i : Nat) (x : Option Attempt) : Allocators :=
  { w with attempts := w.attempts.set i x }

/-- What the code does next, if it can: an allocation that is rejected, or that meets an
error, starts from its read. -/
def step (w : Allocators) : Act → Option Allocators
  | .read i => match w.attempts[i]? with
      | some none => match SeqAlloc.read w.store rel key with
        | .ok a => some (w.setAttempt i (some ⟨.seq a, []⟩))
        | .error _ => some w
      | _ => none
  | .readEntities i base => match w.attempts[i]? with
      | some none => if key ≠ [] then none else match Alloc.read w.store rel base with
        | .ok a => some (w.setAttempt i (some ⟨.ent a, []⟩))
        | .error _ => some w
      | _ => none
  | .fresh i => match w.attempts[i]? with
      | some (some x) =>
          let (number, drawing) := x.drawing.fresh
          some (w.setAttempt i (some ⟨drawing, x.numbers ++ [number]⟩))
      | _ => none
  | .commit i patch authority => match w.attempts[i]? with
      | some (some x) => match commitAs w.store schemas (x.drawing.sealPatch patch) authority with
        | .ok (store, .committed _) =>
            some { w.setAttempt i none with store, committed := w.committed ++ x.numbers }
        | _ => some (w.setAttempt i none)
      | _ => none
  | .crash i => some (w.setAttempt i none)
  | .other updates => some { w with store := w.store.commit updates }

end Step

/-- **One sequence**: the numbers committed are distinct, they rise, each by one over the
one before, and the counter is one row of weight one, at the number after them. -/
structure InSequence (rel : RelId) (key : List Value) (first : Int64) (w : Allocators) : Prop where
  distinct : w.committed.Nodup
  rising : w.committed.Pairwise (· < ·)
  contiguous : w.committed.map Int64.toInt = (List.range w.committed.length).map fun i : Nat => first.toInt + (i : Int)
  counter : ∃ next, CounterAt w.store rel key next ∧ next.toInt = first.toInt + w.committed.length

/-- Updates that leave a counter's rows as they are. -/
def Spares (rel : RelId) (key : List Value) (updates : List (RelId × Tuple × Diff)) : Prop :=
  ∀ u, netOn rel (SeqAlloc.counterTuple key u) updates = 0

/-- The counter's rows are left to the allocations: a patch and anyone else's commit spare
them, and the sender's side asserts and retracts only. -/
def LeavesCounter (rel : RelId) (key : List Value) (_ : Allocators) : Act → Prop
  | .commit _ patch authority => Spares rel key patch.updates ∧ (authority = none → patch.Bare)
  | .other updates => Spares rel key updates
  | _ => True

/-- And no allocation takes the counter past its type, unless the counter has moved since it
read it. -/
def KeepsCounter (rel : RelId) (key : List Value) (w : Allocators) (act : Act) : Prop :=
  w.LeavesCounter rel key act ∧ match act with
    | .commit i _ _ => ∀ x, w.attempts[i]? = some (some x) →
        x.drawing.alloc.n = 0 ∨ 0 < w.store.weight rel (SeqAlloc.counterTuple key x.drawing.alloc.start) →
          x.drawing.alloc.start.toInt + (x.numbers.length : Int) < 2 ^ 63
    | _ => True

/-- Allocators at rest over a store. -/
def start (store : TraceStore) (count : Nat) : Allocators := ⟨store, List.replicate count none, []⟩

end Allocators

/-! ## Numbers that fit -/

theorem toInt_add_ofNat {a : Int64} {k : Nat} (h : a.toInt + k < 2 ^ 63) :
    (a + Int64.ofNat k).toInt = a.toInt + k := by
  have hlo := a.le_toInt
  have hsize : (Int64.size : Int) = 2 ^ 64 := rfl
  rw [Int64.toInt_add, Int64.toInt_ofNat', Int.add_bmod_bmod, Int.bmod_eq_of_le] <;> omega

/-- So many numbers, one by one over the one before. -/
theorem map_toInt_ramp {a : Int64} {k : Nat} (h : a.toInt + k < 2 ^ 63) :
    ((List.range k).map fun i => a + Int64.ofNat i).map Int64.toInt = (List.range k).map fun i : Nat => a.toInt + (i : Int) := by
  rw [List.map_map]
  refine List.map_congr_left fun i hi => ?_
  have hlt := List.mem_range.1 hi
  exact toInt_add_ofNat (by omega)

theorem ofNat_ne_zero {k : Nat} (hpos : 0 < k) (h : k < 2 ^ 64) : Int64.ofNat k ≠ 0 := fun hz => by
  have hbmod := congrArg Int64.toInt hz
  have hsize : (Int64.size : Int) = 2 ^ 64 := rfl
  rw [Int64.toInt_ofNat', Int64.toInt_zero] at hbmod
  have hdvd := Int.dvd_of_bmod_eq_zero hbmod
  rw [hsize] at hdvd
  omega

/-! ## What a step keeps -/

namespace Attempt

/-- An allocation found a counter, and has handed out the numbers from there on. -/
structure Sound (rel : RelId) (key : List Value) (x : Attempt) : Prop where
  rel_eq : x.drawing.alloc.rel = rel
  key_eq : x.drawing.alloc.key = key
  present : x.drawing.alloc.present = true
  count : x.drawing.alloc.n = Int64.ofNat x.numbers.length
  numbers : x.numbers = (List.range x.numbers.length).map fun i => x.drawing.alloc.start + Int64.ofNat i

variable {rel : RelId} {key : List Value} {x : Attempt}

theorem Sound.fresh (h : x.Sound rel key) : (Attempt.mk x.drawing.fresh.2 (x.numbers ++ [x.drawing.fresh.1])).Sound rel key := by
  have hnumber : x.drawing.fresh.1 = x.drawing.alloc.start + x.drawing.alloc.n := by
    cases x.drawing with
    | seq a => rfl
    | ent a => exact Int64.toInt64_toUInt64 _
  have halloc : x.drawing.fresh.2.alloc = { x.drawing.alloc with n := x.drawing.alloc.n + 1 } := by
    cases x.drawing <;> rfl
  refine ⟨?_, ?_, ?_, ?_, ?_⟩
  · rw [halloc]
    exact h.rel_eq
  · rw [halloc]
    exact h.key_eq
  · rw [halloc]
    exact h.present
  · rw [halloc, List.length_append, Int64.ofNat_add, ← h.count]
    rfl
  · rw [halloc, List.length_append, List.length_singleton, List.range_succ, List.map_append, ← h.numbers,
      hnumber, h.count]
    rfl

end Attempt

namespace Allocators

variable {rel : RelId} {key : List Value} {schemas : SchemaCatalog} {first next : Int64} {w w' : Allocators} {act : Act}

/-- What holds throughout a run. -/
structure Counted (rel : RelId) (key : List Value) (first : Int64) (w : Allocators) : Prop where
  contiguous : w.committed.map Int64.toInt = (List.range w.committed.length).map fun i : Nat => first.toInt + (i : Int)
  counter : ∃ next, CounterAt w.store rel key next ∧ next.toInt = first.toInt + w.committed.length
  attempts : ∀ x, some x ∈ w.attempts → x.Sound rel key

theorem Counted.inSequence (h : w.Counted rel key first) : w.InSequence rel key first := by
  have hrising : w.committed.Pairwise (· < ·) := by
    have hpairs : (w.committed.map Int64.toInt).Pairwise (· < ·) := by
      rw [h.contiguous, List.pairwise_map]
      exact List.pairwise_lt_range.imp fun hlt => by omega
    exact (List.pairwise_map.1 hpairs).imp Int64.lt_iff_toInt_lt.2
  exact ⟨hrising.imp fun hlt heq => by simp [heq] at hlt, hrising, h.contiguous, h.counter⟩

theorem Counted.setAttempt (h : w.Counted rel key first) {i : Nat} {x : Option Attempt}
    (hx : ∀ y, x = some y → y.Sound rel key) : (w.setAttempt i x).Counted rel key first := by
  refine ⟨h.contiguous, h.counter, fun y hy => ?_⟩
  rcases List.mem_or_eq_of_mem_set hy with hmem | heq
  · exact h.attempts y hmem
  · exact hx y heq.symm

/-- Updates that spare a counter leave it where it is. -/
theorem counterAt_spared {store : TraceStore} {v : Int64} {updates : List (RelId × Tuple × Diff)}
    (h : CounterAt store rel key v) (hspared : Spares rel key updates) :
    CounterAt (store.commit updates) rel key v := fun u => by
  rw [TraceStore.weight_commit, hspared u, add_zero]
  exact h u

/-- An allocator of entities finds a counter that is there. -/
theorem alloc_read_present {store : TraceStore} {v base : Int64} {a : Alloc} (h : CounterAt store rel [] v)
    (hread : Alloc.read store rel base = .ok a) : a.rel = rel ∧ a.present = true ∧ a.n = 0 := by
  have hfold : ∀ (rows : List (Tuple × Diff)) (b : Alloc), (rows.foldl Alloc.meet b).rel = b.rel ∧
      (rows.foldl Alloc.meet b).n = b.n ∧
      (b.present = true ∨ (∃ row ∈ rows, 0 < row.2 ∧ row.1.cells.head? = some (.int v)) →
        (rows.foldl Alloc.meet b).present = true) := by
    intro rows
    induction rows with
    | nil => exact fun b => ⟨rfl, rfl, fun h => h.resolve_right (by simp)⟩
    | cons row rows ih =>
      intro b
      have hmeet : (b.meet row).rel = b.rel ∧ (b.meet row).n = b.n ∧
          (b.present = true ∨ (0 < row.2 ∧ row.1.cells.head? = some (.int v)) → (b.meet row).present = true) := by
        unfold Alloc.meet
        split_ifs with hpos
        · split
          · exact ⟨rfl, rfl, fun _ => rfl⟩
          · rename_i hno
            exact ⟨rfl, rfl, fun h => h.resolve_right fun hrow => hno v hrow.2⟩
        · exact ⟨rfl, rfl, fun h => h.resolve_right fun hrow => hpos hrow.1⟩
      obtain ⟨hrel, hn, hpresent⟩ := ih (b.meet row)
      refine ⟨hrel.trans hmeet.1, hn.trans hmeet.2.1, fun h => hpresent ?_⟩
      rcases h with h | ⟨r, hr, hrow⟩
      · exact .inl (hmeet.2.2 (.inl h))
      · rcases List.mem_cons.1 hr with rfl | hr
        · exact .inl (hmeet.2.2 (.inr hrow))
        · exact .inr ⟨r, hr, hrow⟩
  rw [Alloc.read, TraceStore.readAt_current] at hread
  cases hread
  obtain ⟨hrel, hn, hpresent⟩ := hfold (store.rowsAt rel store.current) ⟨rel, base, false, 0⟩
  refine ⟨hrel, hpresent (.inr ⟨(SeqAlloc.counterTuple [] v, 1), ?_, Int.one_pos, rfl⟩), hn⟩
  refine TraceStore.mem_rowsAt.2 ⟨Int.one_ne_zero, ?_⟩
  rw [h v, if_pos rfl]

/-- What was committed met its guard and applied its patch. -/
theorem commitAs_committed {store store' : TraceStore} {p : Patch} {authority : Option Authority} {e : Nat}
    (hbare : authority = none → p.Bare) (h : commitAs store schemas p authority = .ok (store', .committed e)) :
    (∀ f ∈ p.preconditions, 0 < store.weight f.rel f.tuple) ∧ store' = store.commit p.updates := by
  cases authority with
  | some a =>
    rcases commitPatchChecked_ok h with ⟨hrej, -⟩ | ⟨-, hpre, hstore⟩
    · cases hrej
    · exact ⟨hpre, hstore⟩
  | none =>
    obtain ⟨hpre, hstore⟩ := commitGuarded_committed (Except.ok.inj h)
    rw [(hbare rfl).updates]
    exact ⟨hpre, hstore⟩

/-- **A commit moves the counter by the numbers it commits, which start where it was.** -/
theorem Counted.commit (h : w.Counted rel key first) {i : Nat} {x : Attempt} (hx : x.Sound rel key) {p : Patch}
    (hspared : Spares rel key p.updates)
    (hpre : ∀ f ∈ (x.drawing.sealPatch p).preconditions, 0 < w.store.weight f.rel f.tuple)
    (hroom : x.drawing.alloc.n = 0 ∨ 0 < w.store.weight rel (SeqAlloc.counterTuple key x.drawing.alloc.start) →
      x.drawing.alloc.start.toInt + x.numbers.length < 2 ^ 63) :
    Counted rel key first { w.setAttempt i none with
      store := w.store.commit (x.drawing.sealPatch p).updates, committed := w.committed ++ x.numbers } := by
  obtain ⟨next, hnext, hnum⟩ := h.counter
  have hseal : x.drawing.sealPatch p = x.drawing.alloc.sealPatch p := by cases x.drawing <;> rfl
  rw [hseal] at hpre ⊢
  have hattempts := (h.setAttempt (i := i) (x := none) nofun).attempts
  by_cases hnil : x.numbers = []
  · have hn : x.drawing.alloc.n = 0 := by rw [hx.count, hnil]; rfl
    rw [SeqAlloc.sealPatch, if_pos hn, hnil, List.append_nil]
    exact ⟨h.contiguous, ⟨next, counterAt_spared hnext hspared, hnum⟩, hattempts⟩
  · have hlo := x.drawing.alloc.start.le_toInt
    have hn : x.drawing.alloc.n ≠ 0 := fun hn => by
      have hfits := hroom (.inl hn)
      exact ofNat_ne_zero (List.length_pos_iff.2 hnil) (by omega) (hx.count.symm.trans hn)
    -- the row that was read is still there, so the counter is where it was
    have hguard : 0 < w.store.weight rel (SeqAlloc.counterTuple key x.drawing.alloc.start) := by
      have := hpre _ (SeqAlloc.mem_preconditions_sealPatch (p := p) hn hx.present)
      rwa [hx.rel_eq, hx.key_eq] at this
    have hstart : x.drawing.alloc.start = next := by
      by_contra hne
      rw [hnext, if_neg hne] at hguard
      exact lt_irrefl _ hguard
    have hfits := hroom (.inr hguard)
    have hcurrent : x.drawing.alloc.Current w.store := by
      rw [SeqAlloc.Current, if_pos hx.present, hx.rel_eq, hx.key_eq, hstart]
      exact hnext
    have hadvance : ∀ u, netOn x.drawing.alloc.rel (SeqAlloc.counterTuple x.drawing.alloc.key u)
        (x.drawing.alloc.sealPatch p).updates = netOn x.drawing.alloc.rel
          (SeqAlloc.counterTuple x.drawing.alloc.key u) (x.drawing.alloc.sealPatch Patch.new).updates := fun u => by
      rw [SeqAlloc.netOn_sealPatch_eq, hx.rel_eq, hx.key_eq, hspared u, zero_add]
    have hmoved := hcurrent.advance hn hadvance
    rw [hx.rel_eq, hx.key_eq, hx.count] at hmoved
    refine ⟨?_, ⟨_, hmoved, ?_⟩, hattempts⟩
    · have hnumbers : x.numbers.map Int64.toInt
          = (List.range x.numbers.length).map fun i : Nat => x.drawing.alloc.start.toInt + (i : Int) := by
        rw [hx.numbers, map_toInt_ramp (by simpa using hfits)]
        simp
      rw [List.map_append, h.contiguous, hnumbers, List.length_append, List.range_add, List.map_append, List.map_map]
      refine congrArg _ (List.map_congr_left fun i _ => ?_)
      rw [hstart, hnum, Function.comp, Nat.cast_add, add_assoc]
    · rw [toInt_add_ofNat hfits, hstart, hnum, List.length_append, Nat.cast_add, add_assoc]

/-- **A step keeps the sequence.** -/
theorem counted_step (h : w.Counted rel key first) (hok : KeepsCounter rel key w act)
    (hstep : step rel key schemas w act = some w') : w'.Counted rel key first := by
  cases act with
  | read i =>
    simp only [step] at hstep
    split at hstep
    · obtain ⟨next, hnext, -⟩ := h.counter
      rw [SeqAlloc.read_of_at hnext] at hstep
      cases hstep
      refine h.setAttempt fun y hy => ?_
      cases hy
      exact ⟨rfl, rfl, rfl, rfl, rfl⟩
    · cases hstep
  | readEntities i base =>
    simp only [step] at hstep
    split at hstep
    · split_ifs at hstep with hkey
      obtain rfl := not_not.1 hkey
      split at hstep
      · rename_i a ha
        cases hstep
        obtain ⟨next, hnext, -⟩ := h.counter
        obtain ⟨hrel, hpresent, hn⟩ := alloc_read_present hnext ha
        refine h.setAttempt fun y hy => ?_
        cases hy
        exact ⟨hrel, rfl, hpresent, hn, rfl⟩
      · cases hstep
        exact h
    · cases hstep
  | fresh i =>
    simp only [step] at hstep
    split at hstep
    · rename_i x hx
      cases hstep
      refine h.setAttempt fun y hy => ?_
      cases hy
      exact (h.attempts x (List.mem_of_getElem? hx)).fresh
    · cases hstep
  | commit i patch authority =>
    obtain ⟨⟨hspared, hbare⟩, hroom⟩ := hok
    simp only [step] at hstep
    split at hstep
    · rename_i x hx
      split at hstep
      · rename_i store e hcommit
        cases hstep
        obtain ⟨hpre, rfl⟩ := commitAs_committed (fun hnone => by
          cases x.drawing with
          | seq a => exact (hbare hnone).sealPatch a
          | ent a => exact (hbare hnone).sealPatch a.toSeq) hcommit
        exact h.commit (h.attempts x (List.mem_of_getElem? hx)) hspared hpre (hroom x hx)
      · cases hstep
        exact h.setAttempt nofun
    · cases hstep
  | crash i =>
    cases hstep
    exact h.setAttempt nofun
  | other updates =>
    cases hstep
    obtain ⟨next, hnext, hnum⟩ := h.counter
    exact ⟨h.contiguous, ⟨next, counterAt_spared hnext hok.1, hnum⟩, h.attempts⟩

theorem counted_start {store : TraceStore} (hseed : CounterAt store rel key first) (count : Nat) :
    (start store count).Counted rel key first := by
  refine ⟨rfl, ⟨first, hseed, by simp [start]⟩, fun x hx => ?_⟩
  cases (List.eq_of_mem_replicate hx)

/-! ## What a step reads off -/

/-- A counter is at one number. -/
theorem counterAt_unique {store : TraceStore} {u v : Int64} (hu : CounterAt store rel key u) (hv : CounterAt store rel key v) :
    u = v := by
  have hone := hu u
  rw [hv u, if_pos rfl] at hone
  by_contra hne
  rw [if_neg hne] at hone
  exact absurd hone (by decide)

/-- A step that moves the store is an allocation's commit or anyone else's. -/
theorem step_store (hstep : step rel key schemas w act = some w') : w'.store = w.store ∨
    (∃ i patch authority x e, act = .commit i patch authority ∧ w.attempts[i]? = some (some x) ∧
      commitAs w.store schemas (x.drawing.sealPatch patch) authority = .ok (w'.store, .committed e) ∧
      w'.committed = w.committed ++ x.numbers) ∨
    ∃ updates, act = .other updates ∧ w'.store = w.store.commit updates ∧ w'.committed = w.committed := by
  cases act with
  | read i =>
    left
    simp only [step] at hstep
    split at hstep
    · split at hstep
      · cases hstep
        rfl
      · cases hstep
        rfl
    · cases hstep
  | readEntities i base =>
    left
    simp only [step] at hstep
    split at hstep
    · split_ifs at hstep
      split at hstep
      · cases hstep
        rfl
      · cases hstep
        rfl
    · cases hstep
  | fresh i =>
    left
    simp only [step] at hstep
    split at hstep
    · cases hstep
      rfl
    · cases hstep
  | commit i patch authority =>
    simp only [step] at hstep
    split at hstep
    · rename_i x hx
      split at hstep
      · rename_i store e hcommit
        cases hstep
        exact .inr (.inl ⟨i, patch, authority, x, e, rfl, hx, hcommit, rfl⟩)
      · cases hstep
        exact .inl rfl
    · cases hstep
  | crash i =>
    cases hstep
    exact .inl rfl
  | other updates =>
    cases hstep
    exact .inr (.inr ⟨updates, rfl, rfl, rfl⟩)

/-- An allocation commits only if it is under way. -/
theorem attempt_of_commit {i : Nat} {patch : Patch} {authority : Option Authority}
    (hstep : step rel key schemas w (.commit i patch authority) = some w') : ∃ x, w.attempts[i]? = some (some x) := by
  simp only [step] at hstep
  split at hstep
  · rename_i x hx
    exact ⟨x, hx⟩
  · cases hstep

/-- The numbers committed lead to the one the counter is at. -/
theorem Counted.next_eq (h : w.Counted rel key first) (hnext : CounterAt w.store rel key next) :
    next.toInt = first.toInt + w.committed.length := by
  obtain ⟨next', hnext', hnum⟩ := h.counter
  rw [counterAt_unique hnext hnext']
  exact hnum

theorem Counted.lt_next (h : w.Counted rel key first) (hnext : CounterAt w.store rel key next) {v : Int64}
    (hv : v ∈ w.committed) : v.toInt < next.toInt := by
  have hmem := List.mem_map_of_mem (f := Int64.toInt) hv
  rw [h.contiguous, List.mem_map] at hmem
  obtain ⟨i, hi, heq⟩ := hmem
  have hlt := List.mem_range.1 hi
  have hnum := h.next_eq hnext
  omega

end Allocators

/-- **Allocators**: from a seeded counter with no allocation under way, whatever order reads,
draws and commits come in, the numbers committed are in sequence, as long as no allocation
takes the counter past its type. -/
theorem allocators_in_sequence {rel : RelId} {key : List Value} {schemas : SchemaCatalog} {store : TraceStore}
    {first : Int64} {count : Nat} {w : Allocators} (hseed : CounterAt store rel key first)
    (hrun : Run (Allocators.step rel key schemas) (Allocators.KeepsCounter rel key) (.start store count) w) :
    w.InSequence rel key first :=
  (hrun.invariant (Allocators.counted_start hseed count) fun _ _ _ h hok hstep =>
    Allocators.counted_step h hok hstep).inSequence

/-! ## Sequence numbers of an inbox -/

/-- A counter and nothing else. -/
def countedFrom (rel : RelId) (key : List Value) (v : Int64) : TraceStore :=
  TraceStore.empty.commit [(rel, SeqAlloc.counterTuple key v, 1)]

theorem countedFrom_at (rel : RelId) (key : List Value) (v : Int64) : CounterAt (countedFrom rel key v) rel key v := by
  intro u
  have hsame : SeqAlloc.counterTuple key v = SeqAlloc.counterTuple key u ↔ u = v :=
    ⟨fun h => (SeqAlloc.counterTuple_inj h).2.symm, fun h => by rw [h]⟩
  rw [countedFrom, TraceStore.weight_commit, TraceStore.weight_empty, netOn_cons, netOn_nil]
  simp [hsame]

theorem spares_of_rel {rel : RelId} {key : List Value} {updates : List (RelId × Tuple × Diff)}
    (h : ∀ u ∈ updates, u.1 ≠ rel) : Allocators.Spares rel key updates := fun _ =>
  netOn_eq_zero fun u hu hrow => h u hu hrow.1

namespace Allocators

/-- A test for leaving a counter alone: nothing is written in its relation at all. -/
def checkLeaves (rel : RelId) : Act → Bool
  | .commit _ patch authority => patch.updates.all (fun u => u.1 ≠ rel) &&
      (authority.isSome || (patch.emits.isEmpty && patch.scheduled.isEmpty && patch.cursorAdvance.isNone))
  | .other updates => updates.all fun u => u.1 ≠ rel
  | _ => true

/-- A test for room in a counter, whether an allocation is turned away or not. -/
def checkRoom (w : Allocators) : Act → Bool
  | .commit i _ _ => (w.attempts[i]?.join).all fun x => x.drawing.alloc.start.toInt + (x.numbers.length : Int) < 2 ^ 63
  | _ => true

theorem leaves_of_check {rel : RelId} (key : List Value) {w : Allocators} {act : Act}
    (h : checkLeaves rel act = true) : w.LeavesCounter rel key act := by
  cases act with
  | commit i patch authority =>
    obtain ⟨hrel, hbare⟩ := Bool.and_eq_true_iff.1 h
    refine ⟨spares_of_rel (by simpa using hrel), fun hnone => ?_⟩
    subst hnone
    simpa [Patch.Bare, and_assoc] using hbare
  | other updates => exact spares_of_rel (by simpa [checkLeaves] using h)
  | _ => trivial

theorem keeps_of_check {rel : RelId} (key : List Value) (w : Allocators) (act : Act)
    (h : (checkLeaves rel act && w.checkRoom act) = true) : w.KeepsCounter rel key act := by
  obtain ⟨hleaves, hroom⟩ := Bool.and_eq_true_iff.1 h
  refine ⟨leaves_of_check key hleaves, ?_⟩
  cases act with
  | commit i patch authority =>
    intro x hx _
    simpa [checkRoom, hx] using hroom
  | _ => trivial

end Allocators

/-- Two messages to one process: both senders draw before either commits, one of them two
numbers, and the one that is turned away tries again. -/
def racingSenders : List Allocators.Act :=
  [.read 0, .read 1, .fresh 0, .fresh 1, .fresh 1,
    .commit 0 (Patch.new.assert (inboxFact 3 ⟨1⟩ 0 ⟨[]⟩)) none,
    .commit 1 (Patch.new.assert (inboxFact 3 ⟨1⟩ 0 ⟨[]⟩)) none, .read 1, .fresh 1, .fresh 1,
    .commit 1 ((Patch.new.assert (inboxFact 3 ⟨1⟩ 1 ⟨[]⟩)).assert (inboxFact 3 ⟨1⟩ 2 ⟨[]⟩)) none]

theorem allocators_in_sequence_racing : ∃ w : Allocators, w.committed = [0, 1, 2] ∧ w.InSequence 7 [.ent ⟨1⟩] 0 := by
  have hran : (executeChecked (Allocators.step 7 [.ent ⟨1⟩] noSchemas)
      (fun w a => Allocators.checkLeaves 7 a && w.checkRoom a) (.start (countedFrom 7 [.ent ⟨1⟩] 0) 2)
      racingSenders).map (·.committed) = some [0, 1, 2] := by decide +kernel
  obtain ⟨w, hw, hcommitted⟩ := Option.map_eq_some_iff.1 hran
  exact ⟨w, hcommitted, allocators_in_sequence (countedFrom_at 7 [.ent ⟨1⟩] 0)
    (.ofChecked racingSenders (fun a _ s => Allocators.keeps_of_check _ s a) _ hw)⟩

/-- One allocation after another takes the last number there is and the first. -/
def lastTwo : List Allocators.Act :=
  [.read 0, .fresh 0, .commit 0 Patch.new none, .read 0, .fresh 0, .commit 0 Patch.new none]

/-- **A counter at the last number goes round**: the next one is below it. -/
theorem allocators_overrun : ¬ ∀ (rel : RelId) (key : List Value) (schemas : SchemaCatalog) (store : TraceStore)
    (first : Int64) (count : Nat) (w : Allocators), CounterAt store rel key first →
      Run (Allocators.step rel key schemas) (Allocators.LeavesCounter rel key) (.start store count) w →
        w.InSequence rel key first := by
  intro h
  have hran : (executeChecked (Allocators.step 7 [.ent ⟨1⟩] noSchemas) (fun _ a => Allocators.checkLeaves 7 a)
      (.start (countedFrom 7 [.ent ⟨1⟩] Int64.maxValue) 1) lastTwo).map (·.committed)
        = some [Int64.maxValue, Int64.minValue] := by decide +kernel
  obtain ⟨w, hw, hcommitted⟩ := Option.map_eq_some_iff.1 hran
  have hrising := (h 7 [.ent ⟨1⟩] noSchemas _ _ 1 w (countedFrom_at 7 [.ent ⟨1⟩] Int64.maxValue)
    (.ofChecked lastTwo (fun _ _ _ => Allocators.leaves_of_check _) _ hw)).rising
  rw [hcommitted] at hrising
  exact absurd hrising (by decide)

end Grmpl

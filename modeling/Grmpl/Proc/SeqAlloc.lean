import Grmpl.Lib.Numbered
import Grmpl.Proc.Commit
import Mathlib.Tactic.NormNum

/-!
# Sequence numbers from a counter row

A durable allocator over a counter relation: rows of a key and the next number. The
advance is folded into the committing patch, with the row that was read as a
precondition, if there was one.

* `SeqAlloc`: `read`, `fresh`, `seed`, `sealPatch`, and `assign`, which numbers a list.
* `CounterAbsent`, `CounterAt`: no counter row, and one of weight one.
* `read_of_absent`, `read_of_at`: what an allocation reads.
* `netOn_sealPatch`: what a sealed patch does to the counter.
-/

open OrdMap Numbering

namespace Grmpl

/-- A monotonic sequence allocator over a counter relation. -/
structure SeqAlloc where
  rel : RelId
  key : List Value
  /-- The counter's value when read. -/
  start : Int64
  /-- Whether a counter row existed. -/
  present : Bool
  /-- How many numbers have been handed out. -/
  n : Int64
  deriving DecidableEq

namespace SeqAlloc

/-- The number a counter row of a key holds. -/
def numberIn (key : List Value) (row : Tuple × Diff) : Option Int64 :=
  if 0 < row.2 ∧ row.1.cells.length = key.length + 1 ∧ row.1.cells.take key.length = key then
    match row.1.cells[key.length]? with
    | some (Value.int v) => some v
    | _ => none
  else none

/-- A row met while looking for the counter: the last one of the key wins. -/
def meet (a : SeqAlloc) (row : Tuple × Diff) : SeqAlloc :=
  match numberIn a.key row with
  | some v => { a with start := v, present := true }
  | none => a

def fromRows (rel : RelId) (key : List Value) (rows : List (Tuple × Diff)) : SeqAlloc :=
  rows.foldl meet ⟨rel, key, 0, false, 0⟩

def read (store : TraceStore) (rel : RelId) (key : List Value) : Result SeqAlloc := do
  let rows ← store.readAt rel store.current
  return fromRows rel key rows

def fresh (a : SeqAlloc) : Int64 × SeqAlloc := (a.start + a.n, { a with n := a.n + 1 })

def counterTuple (key : List Value) (v : Int64) : Tuple := ⟨key ++ [.int v]⟩

/-- The counter row at 0, if there is none yet. -/
def seed (a : SeqAlloc) (patch : Patch) : Patch :=
  if a.present then patch else patch.assert ⟨a.rel, counterTuple a.key 0⟩

/-- The counter's advance, guarded by the row that was read. -/
def sealPatch (a : SeqAlloc) (patch : Patch) : Patch :=
  if a.n = 0 then patch
  else
    let row : Fact := ⟨a.rel, counterTuple a.key a.start⟩
    let guarded := if a.present then (patch.expect row).retract row else patch
    guarded.assert ⟨a.rel, counterTuple a.key (a.start + a.n)⟩

/-- A list's elements, each with a fresh number. -/
def assign {β : Type} : List β → SeqAlloc → SeqAlloc × List (Int64 × β)
  | [], a => (a, [])
  | b :: bs, a =>
      let drawn := a.fresh
      let rest := assign bs drawn.2
      (rest.1, (drawn.1, b) :: rest.2)

end SeqAlloc

/-! ## Counters -/

/-- No row counts for a key. -/
def CounterAbsent (store : TraceStore) (rel : RelId) (key : List Value) : Prop :=
  ∀ row ∈ store.rowsAt rel store.current, SeqAlloc.numberIn key row = none

instance (store : TraceStore) (rel : RelId) (key : List Value) :
    Decidable (CounterAbsent store rel key) :=
  inferInstanceAs (Decidable (∀ row ∈ _, _))

/-- No row of a key has weight. -/
def Uncounted (store : TraceStore) (rel : RelId) (key : List Value) : Prop :=
  ∀ u, store.weight rel (SeqAlloc.counterTuple key u) = 0

/-- One row counts for a key, with weight one, and holds the number. -/
def CounterAt (store : TraceStore) (rel : RelId) (key : List Value) (v : Int64) : Prop :=
  ∀ u, store.weight rel (SeqAlloc.counterTuple key u) = if u = v then 1 else 0

namespace SeqAlloc

variable {store : TraceStore} {rel : RelId} {key : List Value}

theorem counterTuple_inj {key' : List Value} {u v : Int64}
    (h : counterTuple key u = counterTuple key' v) : key = key' ∧ u = v := by
  have hcells := congrArg Tuple.cells h
  obtain ⟨hk, hv⟩ := List.append_inj' hcells rfl
  exact ⟨hk, Value.int.inj (List.cons.inj hv).1⟩

/-- A row counts if it is the key and a number, with weight. -/
theorem numberIn_eq_some {row : Tuple × Diff} {v : Int64} :
    numberIn key row = some v ↔ 0 < row.2 ∧ row.1 = counterTuple key v := by
  unfold numberIn
  split_ifs with h
  · obtain ⟨hd, hlen, htake⟩ := h
    obtain ⟨⟨cells⟩, d⟩ := row
    dsimp only at hd hlen htake ⊢
    obtain ⟨x, hx⟩ : ∃ x, cells.drop key.length = [x] :=
      List.length_eq_one_iff.1 (by rw [List.length_drop]; omega)
    have hcells : cells = key ++ [x] := by
      rw [← hx, ← List.take_append_drop key.length cells, htake, List.drop_left]
    subst hcells
    simp only [counterTuple, List.getElem?_concat_length, hd, true_and, Tuple.mk.injEq,
      List.append_cancel_left_eq, List.cons.injEq, and_true]
    cases x <;> simp
  · refine ⟨fun hn => (nomatch hn), fun hr => absurd ⟨hr.1, ?_⟩ h⟩
    rw [hr.2]
    simp [counterTuple]

/-- Looking through rows changes neither the relation, nor the key, nor the count. -/
theorem foldl_meet (rows : List (Tuple × Diff)) (a : SeqAlloc) :
    (rows.foldl meet a).rel = a.rel ∧ (rows.foldl meet a).key = a.key ∧ (rows.foldl meet a).n = a.n := by
  induction rows generalizing a with
  | nil => exact ⟨rfl, rfl, rfl⟩
  | cons row rows ih =>
    have hmeet : (meet a row).rel = a.rel ∧ (meet a row).key = a.key ∧ (meet a row).n = a.n := by
      unfold meet
      split <;> exact ⟨rfl, rfl, rfl⟩
    obtain ⟨hrel, hkey, hn⟩ := ih (meet a row)
    exact ⟨hrel.trans hmeet.1, hkey.trans hmeet.2.1, hn.trans hmeet.2.2⟩

/-- A search that has found no counter has found nothing. -/
theorem foldl_meet_of_missing : ∀ (rows : List (Tuple × Diff)) (a : SeqAlloc),
    (rows.foldl meet a).present = false → rows.foldl meet a = a := by
  intro rows
  induction rows with
  | nil => exact fun a _ => rfl
  | cons row rows ih =>
    intro a h
    rw [List.foldl_cons] at h ⊢
    have hrest := ih _ h
    rw [hrest] at h ⊢
    unfold meet at h ⊢
    split at h
    · exact absurd h (by simp)
    · rfl

theorem foldl_meet_of_none {rows : List (Tuple × Diff)} {a : SeqAlloc}
    (h : ∀ row ∈ rows, numberIn a.key row = none) : rows.foldl meet a = a := by
  induction rows with
  | nil => rfl
  | cons row rows ih =>
    have hmeet : meet a row = a := by rw [meet, h row (by simp)]
    rw [List.foldl_cons, hmeet]
    exact ih fun r hr => h r (List.mem_cons_of_mem _ hr)

/-- Rows that hold one number or none, found by a search that has it or will meet it. -/
theorem foldl_meet_of_some {v : Int64} : ∀ (rows : List (Tuple × Diff)) (a : SeqAlloc),
    (∀ row ∈ rows, ∀ u, numberIn a.key row = some u → u = v) →
    (a.start = v ∧ a.present = true ∨ ∃ row ∈ rows, numberIn a.key row = some v) →
    (rows.foldl meet a).start = v ∧ (rows.foldl meet a).present = true := by
  intro rows
  induction rows with
  | nil =>
    rintro a _ (hs | ⟨row, hrow, _⟩)
    · exact hs
    · exact absurd hrow (by simp)
  | cons row rows ih =>
    intro a hall hs
    rw [List.foldl_cons]
    cases hrow : numberIn a.key row with
    | some u =>
      obtain rfl := hall row (by simp) u hrow
      have hmeet : meet a row = { a with start := u, present := true } := by rw [meet, hrow]
      rw [hmeet]
      exact ih _ (fun r hr => hall r (List.mem_cons_of_mem _ hr)) (.inl ⟨rfl, rfl⟩)
    | none =>
      have hmeet : meet a row = a := by rw [meet, hrow]
      rw [hmeet]
      refine ih _ (fun r hr => hall r (List.mem_cons_of_mem _ hr)) ?_
      rcases hs with hs | ⟨r, hmem, hsome⟩
      · exact .inl hs
      · rcases List.mem_cons.1 hmem with rfl | hmem
        · rw [hrow] at hsome
          cases hsome
        · exact .inr ⟨r, hmem, hsome⟩

theorem read_eq (store : TraceStore) (rel : RelId) (key : List Value) :
    read store rel key = .ok (fromRows rel key (store.rowsAt rel store.current)) := by
  rw [read, TraceStore.readAt_current]
  rfl

/-- What a read keeps of what was asked. -/
theorem read_ok {a : SeqAlloc} (h : read store rel key = .ok a) :
    a.rel = rel ∧ a.key = key ∧ a.n = 0 ∧ (a.present = false → a.start = 0) := by
  rw [read_eq] at h
  obtain rfl := Except.ok.inj h
  obtain ⟨hrel, hkey, hn⟩ := foldl_meet (store.rowsAt rel store.current) ⟨rel, key, 0, false, 0⟩
  exact ⟨hrel, hkey, hn, fun hp => by rw [fromRows, foldl_meet_of_missing _ _ hp]⟩

theorem read_of_absent (h : CounterAbsent store rel key) :
    read store rel key = .ok ⟨rel, key, 0, false, 0⟩ := by
  have hnone := foldl_meet_of_none (a := ⟨rel, key, 0, false, 0⟩) h
  rw [read_eq, fromRows, hnone]

theorem read_of_at {v : Int64} (h : CounterAt store rel key v) :
    read store rel key = .ok ⟨rel, key, v, true, 0⟩ := by
  have hone : (0 : Diff) < 1 := by decide
  have hmem : (counterTuple key v, (1 : Diff)) ∈ store.rowsAt rel store.current := by
    refine TraceStore.mem_rowsAt.2 ⟨hone.ne', ?_⟩
    rw [h v, if_pos rfl]
  have hall : ∀ row ∈ store.rowsAt rel store.current, ∀ u, numberIn key row = some u → u = v := by
    rintro ⟨t, d⟩ hrow u hu
    obtain ⟨hd, rfl⟩ := numberIn_eq_some.1 hu
    have hw := (TraceStore.mem_rowsAt.1 hrow).2
    rw [h u] at hw
    by_contra hne
    rw [if_neg hne] at hw
    exact hd.ne hw
  obtain ⟨hstart, hpresent⟩ := foldl_meet_of_some _ ⟨rel, key, 0, false, 0⟩ hall
    (.inr ⟨_, hmem, numberIn_eq_some.2 ⟨hone, rfl⟩⟩)
  obtain ⟨hrel, hkey, hn⟩ := foldl_meet (store.rowsAt rel store.current) ⟨rel, key, 0, false, 0⟩
  rw [read_eq, fromRows]
  congr 1
  cases hf : (store.rowsAt rel store.current).foldl meet ⟨rel, key, 0, false, 0⟩
  rw [hf] at hstart hpresent hrel hkey hn
  dsimp only at hstart hpresent hrel hkey hn
  rw [hstart, hpresent, hrel, hkey, hn]

theorem not_absent_of_at {v : Int64} (h : CounterAt store rel key v) :
    ¬ CounterAbsent store rel key := fun habs => by
  have heq := (read_of_absent habs).symm.trans (read_of_at h)
  simp at heq

/-! ## Advancing a counter -/

section Advance

variable (a : SeqAlloc) (p : Patch)

/-- What a sealed patch adds to a row: the counter's advance. -/
theorem netOn_sealPatch (hn : a.n ≠ 0) (rel : RelId) (t : Tuple) :
    netOn rel t (a.sealPatch p).updates = netOn rel t p.updates
      + (if a.present = true ∧ a.rel = rel ∧ counterTuple a.key a.start = t then -1 else 0)
      + if a.rel = rel ∧ counterTuple a.key (a.start + a.n) = t then 1 else 0 := by
  unfold sealPatch
  rw [if_neg hn]
  cases hp : a.present <;> simp

/-- A sealed patch is the patch and the advance. -/
theorem netOn_sealPatch_eq (rel : RelId) (t : Tuple) : netOn rel t (a.sealPatch p).updates
    = netOn rel t p.updates + netOn rel t (a.sealPatch Patch.new).updates := by
  have hnew : netOn rel t Patch.new.updates = 0 := rfl
  by_cases hn : a.n = 0
  · rw [sealPatch, sealPatch, if_pos hn, if_pos hn, hnew, add_zero]
  · rw [netOn_sealPatch a p hn, netOn_sealPatch a Patch.new hn, hnew, zero_add, add_assoc]

/-- Rows other than the counter's are left to the patch. -/
theorem netOn_sealPatch_other {rel : RelId} {t : Tuple}
    (h : ¬ (rel = a.rel ∧ ∃ u, t = counterTuple a.key u)) :
    netOn rel t (a.sealPatch p).updates = netOn rel t p.updates := by
  by_cases hn : a.n = 0
  · rw [sealPatch, if_pos hn]
  · rw [netOn_sealPatch a p hn, if_neg fun hc => h ⟨hc.2.1.symm, _, hc.2.2.symm⟩,
      if_neg fun hc => h ⟨hc.1.symm, _, hc.2.symm⟩, add_zero, add_zero]

/-- The counter read is still the counter: its row holds, or no row has weight. -/
def Current (store : TraceStore) : Prop :=
  if a.present then CounterAt store a.rel a.key a.start
  else Uncounted store a.rel a.key

variable {a p}

/-- **A commit with the advance in it moves the counter that was read by what was
handed out.** -/
theorem Current.advance (h : a.Current store) (hn : a.n ≠ 0)
    {updates : List (RelId × Tuple × Diff)}
    (hu : ∀ u, netOn a.rel (counterTuple a.key u) updates
      = netOn a.rel (counterTuple a.key u) (a.sealPatch Patch.new).updates) :
    CounterAt (store.commit updates) a.rel a.key (a.start + a.n) := by
  intro u
  have hmoved : ∀ v, counterTuple a.key v = counterTuple a.key u ↔ u = v :=
    fun v => ⟨fun heq => (counterTuple_inj heq).2.symm, fun heq => by rw [heq]⟩
  have hnew : netOn a.rel (counterTuple a.key u) Patch.new.updates = 0 := rfl
  rw [TraceStore.weight_commit, hu u, netOn_sealPatch a Patch.new hn, hnew]
  unfold Current at h
  split_ifs at h with hpres
  · rw [h u]
    simp only [hpres, hmoved, true_and, zero_add]
    by_cases hu : u = a.start
    · simp [hu, hn]
    · simp [hu]
  · rw [h u]
    simp [hpres, hmoved]

/-- A guard that held at the commit is a counter read that is still current. -/
theorem Current.of_guard {v : Int64} (h : CounterAt store a.rel a.key v) (hpres : a.present = true)
    (hguard : 0 < store.weight a.rel (counterTuple a.key a.start)) : a.Current store := by
  unfold Current
  rw [if_pos hpres]
  rw [h a.start] at hguard
  split_ifs at hguard with heq
  · rw [heq]
    exact h
  · exact absurd hguard (by decide)

/-- A counter that numbered so many, read at some time and guarded at the commit, is
current and holds that number. -/
theorem current_of_read {count : Nat}
    (hcounter : Uncounted store a.rel a.key ∧ count = 0 ∨ CounterAt store a.rel a.key (Int64.ofNat count))
    (hread : a.present = false → a.start = 0)
    (hnow : a.present = true ∨ CounterAbsent store a.rel a.key)
    (hguard : a.present = true → 0 < store.weight a.rel (counterTuple a.key a.start)) :
    a.Current store ∧ a.start = Int64.ofNat count := by
  rcases hcounter with ⟨hun, rfl⟩ | hat
  · -- nothing was drawn yet: the counter was read as missing
    have hpres : a.present = false := by
      by_contra hp
      have := hguard (by simpa using hp)
      rw [hun] at this
      exact lt_irrefl _ this
    refine ⟨?_, hread hpres⟩
    unfold Current
    rw [hpres]
    exact hun
  · have hpres : a.present = true := by
      rcases hnow with hp | habs
      · exact hp
      · exact absurd habs (not_absent_of_at hat)
    refine ⟨Current.of_guard hat hpres (hguard hpres), ?_⟩
    have hstart := hguard hpres
    rw [hat] at hstart
    by_contra hne
    rw [if_neg hne] at hstart
    exact lt_irrefl _ hstart

theorem mem_preconditions_sealPatch (hn : a.n ≠ 0) (hpres : a.present = true) :
    (⟨a.rel, counterTuple a.key a.start⟩ : Fact) ∈ (a.sealPatch p).preconditions := by
  unfold sealPatch
  simp [hn, hpres, Patch.assert, Patch.retract, Patch.expect]

/-- A seed that finds no counter makes one at zero. -/
theorem seed_counterAt (h : Uncounted store a.rel a.key) (hpres : a.present = false)
    (hp : ∀ u, netOn a.rel (counterTuple a.key u) p.updates = 0) :
    CounterAt (store.commit (a.seed p).updates) a.rel a.key 0 := by
  intro u
  have hmoved : counterTuple a.key 0 = counterTuple a.key u ↔ u = 0 :=
    ⟨fun heq => (counterTuple_inj heq).2.symm, fun heq => by rw [heq]⟩
  rw [TraceStore.weight_commit, seed, hpres, if_neg (by simp), netOn_assert, hp u, h u]
  simp [hmoved]

end Advance

section Assign

variable {β : Type}

/-- A list is numbered from the next number on. -/
theorem assign_eq : ∀ (bs : List β) (a : SeqAlloc),
    (assign bs a).1 = { a with n := a.n + Int64.ofNat bs.length } ∧
      (assign bs a).2.map Prod.snd = bs ∧
      ∀ start, a.start + a.n = Int64.ofNat start →
        (assign bs a).2.map Prod.fst = numbers Int64.ofNat start bs.length := by
  intro bs
  induction bs with
  | nil => exact fun a => ⟨by simp [assign], rfl, fun _ _ => rfl⟩
  | cons b bs ih =>
    intro a
    obtain ⟨halloc, hbodies, hnums⟩ := ih a.fresh.2
    refine ⟨?_, ?_, fun start hs => ?_⟩
    · show (assign bs a.fresh.2).1 = _
      rw [halloc, List.length_cons, Int64.ofNat_add]
      show ({ a with n := a.n + 1 + Int64.ofNat bs.length } : SeqAlloc) = _
      rw [Int64.add_assoc, Int64.add_comm 1]
      rfl
    · show b :: (assign bs a.fresh.2).2.map Prod.snd = _
      rw [hbodies]
    · have hnext : a.fresh.2.start + a.fresh.2.n = Int64.ofNat (start + 1) := by
        rw [Int64.ofNat_add, ← hs, Int64.add_assoc]
        rfl
      show (a.start + a.n) :: (assign bs a.fresh.2).2.map Prod.fst = _
      rw [hnums (start + 1) hnext, hs]
      rfl

/-- Handing out some numbers moves the count. -/
theorem assign_ne_zero {a : SeqAlloc} (hn : a.n = 0) {bs : List β} (hnil : bs ≠ [])
    (hlt : bs.length < 2 ^ 63) : (assign bs a).1.n ≠ 0 := by
  obtain ⟨halloc, _, _⟩ := assign_eq bs a
  have hlen : 0 < bs.length := List.length_pos_iff.2 hnil
  rw [halloc]
  show a.n + _ ≠ 0
  rw [hn, Int64.zero_add]
  exact fun hz => hlen.ne' (ofNat_inj hlt (by norm_num) hz)

end Assign

end SeqAlloc

end Grmpl

import Grmpl.Core.Patch
import Grmpl.Lib.OrdMap
import Mathlib.Algebra.BigOperators.Group.List.Basic
import Mathlib.Algebra.Order.Group.Int

/-!
# A store that keeps its contract

The patches a store has committed, oldest first, and the edition below which it
answers no read. A relation as of an edition is every row whose diffs up to that
edition sum to something other than zero.

* `TraceStore`: the patches, with a watermark no later than the last of them.
* `TraceStore.commit`, `TraceStore.commitIf`, `TraceStore.readAt`,
  `TraceStore.scanUpdates`, `TraceStore.consolidate`: the contract.
* `TraceStore.weight`, `weight_commit`: a row's weight now, and what a commit adds.
-/

open OrdMap

namespace Grmpl

/-- A read below the editions still held. -/
def door (op : String) (at' watermark : Nat) : Error :=
  .store (op ++ " at edition " ++ toString at' ++ " below watermark " ++ toString watermark)

/-- An update as a scan reports it. -/
structure Update where
  tuple : Tuple
  edition : Nat
  diff : Diff
  deriving DecidableEq

/-- One row's weight raised by a diff, and dropped at zero. -/
def addRow (rows : List (Tuple × Diff)) (t : Tuple) (d : Diff) : List (Tuple × Diff) :=
  let net := (lookup t rows).getD 0 + d
  if net = 0 then drop t rows else put t net rows

/-- The updates of one relation folded into its rows. -/
def addRows (rel : RelId) (rows : List (Tuple × Diff)) (updates : List (RelId × Tuple × Diff)) :
    List (Tuple × Diff) :=
  updates.foldl (fun rows u => if u.1 = rel then addRow rows u.2.1 u.2.2 else rows) rows

/-- What updates sum to on one row. -/
def netOn (rel : RelId) (t : Tuple) (updates : List (RelId × Tuple × Diff)) : Diff :=
  ((updates.filter fun u => u.1 = rel ∧ u.2.1 = t).map fun u => u.2.2).sum

/-- The patches committed so far, and the edition below which reads are refused. -/
structure TraceStore where
  patches : List (List (RelId × Tuple × Diff))
  watermark : Nat
  watermark_le : watermark ≤ patches.length

namespace TraceStore

/-- The empty world. -/
def empty : TraceStore := ⟨[], 0, le_rfl⟩

def current (s : TraceStore) : Nat := s.patches.length

/-- The rows of a relation as of an edition, each with its weight. -/
def rowsAt (s : TraceStore) (rel : RelId) (at' : Nat) : List (Tuple × Diff) :=
  addRows rel [] (s.patches.take at').flatten

def readAt (s : TraceStore) (rel : RelId) (at' : Nat) : Result (List (Tuple × Diff)) :=
  if at' < s.watermark then .error (door "read_at" at' s.watermark) else .ok (s.rowsAt rel at')

/-- The updates of a relation after one edition up to another. -/
def updatesBetween (s : TraceStore) (rel : RelId) (start upTo : Nat) : List Update :=
  ((s.patches.zipIdx 1).filter fun p => start < p.2 ∧ p.2 ≤ upTo).flatMap fun p =>
    (p.1.filter fun u => u.1 = rel).map fun u => ⟨u.2.1, p.2, u.2.2⟩

def scanUpdates (s : TraceStore) (rel : RelId) (start upTo : Nat) : Result (List Update) :=
  if start < s.watermark then .error (door "scan_updates" start s.watermark)
  else .ok (s.updatesBetween rel start upTo)

def commit (s : TraceStore) (updates : List (RelId × Tuple × Diff)) : TraceStore where
  patches := s.patches ++ [updates]
  watermark := s.watermark
  watermark_le := by
    rw [List.length_append]
    exact s.watermark_le.trans (Nat.le_add_right _ _)

/-- A row's weight now. -/
def weight (s : TraceStore) (rel : RelId) (t : Tuple) : Diff :=
  (lookup t (s.rowsAt rel s.current)).getD 0

/-- A commit guarded by rows that must hold now; none if one does not. -/
def commitIf (s : TraceStore) (pre : List (RelId × Tuple)) (updates : List (RelId × Tuple × Diff)) :
    Option TraceStore :=
  if pre.all fun p => 0 < s.weight p.1 p.2 then some (s.commit updates) else none

/-- The history up to an edition folded away. -/
def consolidate (s : TraceStore) (upTo : Nat) : TraceStore where
  patches := s.patches
  watermark := max s.watermark (min upTo s.current)
  watermark_le := max_le s.watermark_le (min_le_right _ _)

end TraceStore

/-! ## Rows and weights -/

theorem sorted_addRow {rows : List (Tuple × Diff)} (h : Sorted rows) (t : Tuple) (d : Diff) :
    Sorted (addRow rows t d) := by
  unfold addRow
  dsimp only
  split_ifs
  · exact h.filter _
  · exact sorted_put h

/-- Every row kept has weight. -/
def Weighted (rows : List (Tuple × Diff)) : Prop := ∀ e ∈ rows, e.2 ≠ 0

theorem weighted_addRow {rows : List (Tuple × Diff)} (h : Weighted rows) (t : Tuple) (d : Diff) :
    Weighted (addRow rows t d) := by
  intro e he
  unfold addRow at he
  dsimp only at he
  split_ifs at he with hnet
  · exact h e (List.mem_filter.1 he).1
  · rcases mem_put he with rfl | he
    · exact hnet
    · exact h e he

theorem lookup_drop (k k' : Tuple) (rows : List (Tuple × Diff)) :
    lookup k' (drop k rows) = if k' = k then none else lookup k' rows := by
  split_ifs with h
  · subst h
    exact lookup_absent fun e he => by simpa using (List.mem_filter.1 he).2
  · exact lookup_filter_keep fun v => by simpa using h

/-- A row's weight after one update. -/
theorem lookup_addRow (rows : List (Tuple × Diff)) (t t' : Tuple) (d : Diff) :
    (lookup t' (addRow rows t d)).getD 0 = (lookup t' rows).getD 0 + if t' = t then d else 0 := by
  unfold addRow
  dsimp only
  split_ifs with hnet ht ht
  · rw [lookup_drop, if_pos ht, ht]
    exact hnet.symm
  · rw [lookup_drop, if_neg ht, add_zero]
  · rw [lookup_put, if_pos ht, ht]
    rfl
  · rw [lookup_put, if_neg ht, add_zero]

section AddRows

variable (rel : RelId)

theorem sorted_addRows : ∀ (updates : List (RelId × Tuple × Diff)) {rows : List (Tuple × Diff)},
    Sorted rows → Sorted (addRows rel rows updates) := by
  intro updates
  induction updates with
  | nil => exact fun h => h
  | cons u us ih =>
    intro rows h
    refine ih ?_
    dsimp only
    split_ifs
    · exact sorted_addRow h _ _
    · exact h

theorem weighted_addRows : ∀ (updates : List (RelId × Tuple × Diff)) {rows : List (Tuple × Diff)},
    Weighted rows → Weighted (addRows rel rows updates) := by
  intro updates
  induction updates with
  | nil => exact fun h => h
  | cons u us ih =>
    intro rows h
    refine ih ?_
    dsimp only
    split_ifs
    · exact weighted_addRow h _ _
    · exact h

/-- A row's weight after a list of updates: what it was, and what they sum to. -/
theorem lookup_addRows (t : Tuple) : ∀ (updates : List (RelId × Tuple × Diff))
    (rows : List (Tuple × Diff)), (lookup t (addRows rel rows updates)).getD 0
      = (lookup t rows).getD 0 + netOn rel t updates := by
  intro updates
  induction updates with
  | nil => exact fun rows => (add_zero _).symm
  | cons u us ih =>
    intro rows
    have hstep : addRows rel rows (u :: us)
        = addRows rel (if u.1 = rel then addRow rows u.2.1 u.2.2 else rows) us := rfl
    rw [hstep, ih]
    by_cases hrel : u.1 = rel
    · rw [if_pos hrel, lookup_addRow, netOn, netOn]
      by_cases ht : u.2.1 = t
      · rw [if_pos ht.symm, List.filter_cons_of_pos (by simp [hrel, ht])]
        simp [add_assoc]
      · rw [if_neg fun h => ht h.symm, List.filter_cons_of_neg (by simp [ht]), add_zero]
    · rw [if_neg hrel, netOn, netOn, List.filter_cons_of_neg (by simp [hrel])]

end AddRows

/-- Updates of other relations fold into none of its rows. -/
theorem addRows_spared (rel : RelId) : ∀ {updates : List (RelId × Tuple × Diff)} (rows : List (Tuple × Diff)),
    (∀ u ∈ updates, u.1 ≠ rel) → addRows rel rows updates = rows := by
  intro updates
  induction updates with
  | nil => exact fun rows _ => rfl
  | cons u us ih =>
    intro rows h
    have hstep : addRows rel rows (u :: us)
        = addRows rel (if u.1 = rel then addRow rows u.2.1 u.2.2 else rows) us := rfl
    rw [hstep, if_neg (h u List.mem_cons_self)]
    exact ih rows fun v hv => h v (List.mem_cons_of_mem u hv)

@[simp] theorem netOn_nil (rel : RelId) (t : Tuple) : netOn rel t [] = 0 := rfl

theorem netOn_append (rel : RelId) (t : Tuple) (us vs : List (RelId × Tuple × Diff)) :
    netOn rel t (us ++ vs) = netOn rel t us + netOn rel t vs := by
  simp [netOn]

@[simp] theorem netOn_cons (rel : RelId) (t : Tuple) (u : RelId × Tuple × Diff)
    (us : List (RelId × Tuple × Diff)) :
    netOn rel t (u :: us) = (if u.1 = rel ∧ u.2.1 = t then u.2.2 else 0) + netOn rel t us := by
  unfold netOn
  by_cases h : u.1 = rel ∧ u.2.1 = t
  · rw [List.filter_cons_of_pos (by simpa using h)]
    simp [h]
  · rw [List.filter_cons_of_neg (by simpa using h)]
    simp [h]

/-- What updates sum to does not depend on their order. -/
theorem netOn_perm {rel : RelId} {t : Tuple} {us vs : List (RelId × Tuple × Diff)} (h : us.Perm vs) :
    netOn rel t us = netOn rel t vs := ((h.filter _).map _).sum_eq

/-- Updates that leave a row sum to nothing on it. -/
theorem netOn_eq_zero {rel : RelId} {t : Tuple} {updates : List (RelId × Tuple × Diff)}
    (h : ∀ u ∈ updates, ¬ (u.1 = rel ∧ u.2.1 = t)) : netOn rel t updates = 0 := by
  rw [netOn, filter_eq_nil_of fun u hu => by simpa using h u hu]
  rfl

/-- A row with weight was put in. -/
theorem exists_pos_of_netOn_pos {rel : RelId} {t : Tuple} : ∀ {updates : List (RelId × Tuple × Diff)},
    0 < netOn rel t updates → ∃ u ∈ updates, u.1 = rel ∧ u.2.1 = t ∧ 0 < u.2.2 := by
  intro updates
  induction updates with
  | nil => exact fun h => absurd h (by simp)
  | cons u us ih =>
    intro h
    rw [netOn_cons] at h
    by_cases hu : (u.1 = rel ∧ u.2.1 = t) ∧ 0 < u.2.2
    · exact ⟨u, List.mem_cons_self, hu.1.1, hu.1.2, hu.2⟩
    · have hle : (if u.1 = rel ∧ u.2.1 = t then u.2.2 else 0) ≤ 0 := by
        split_ifs with hrow
        · exact not_lt.1 fun hpos => hu ⟨hrow, hpos⟩
        · exact le_rfl
      obtain ⟨v, hv, hrow⟩ := ih (lt_of_lt_of_le h (add_le_of_nonpos_left hle))
      exact ⟨v, List.mem_cons_of_mem _ hv, hrow⟩

namespace TraceStore

variable {s : TraceStore} {rel : RelId}

theorem sorted_rowsAt (s : TraceStore) (rel : RelId) (at' : Nat) : Sorted (s.rowsAt rel at') :=
  sorted_addRows rel _ List.Pairwise.nil

theorem weighted_rowsAt (s : TraceStore) (rel : RelId) (at' : Nat) : Weighted (s.rowsAt rel at') :=
  weighted_addRows rel _ fun _ he => absurd he (by simp)

/-- The rows of a relation now are those with weight. -/
theorem mem_rowsAt {t : Tuple} {d : Diff} :
    (t, d) ∈ s.rowsAt rel s.current ↔ d ≠ 0 ∧ s.weight rel t = d := by
  constructor
  · intro h
    refine ⟨s.weighted_rowsAt rel s.current _ h, ?_⟩
    rw [weight, lookup_of_mem (s.sorted_rowsAt rel s.current) h]
    rfl
  · rintro ⟨hd, hw⟩
    rw [weight] at hw
    cases hl : lookup t (s.rowsAt rel s.current) with
    | none =>
      rw [hl] at hw
      exact absurd hw.symm hd
    | some w =>
      rw [hl] at hw
      exact hw ▸ mem_of_lookup hl

theorem readAt_current (s : TraceStore) (rel : RelId) :
    s.readAt rel s.current = .ok (s.rowsAt rel s.current) := if_neg s.watermark_le.not_gt

/-- A row's weight is what every update so far sums to on it. -/
theorem weight_eq_netOn (s : TraceStore) (rel : RelId) (t : Tuple) :
    s.weight rel t = netOn rel t s.patches.flatten := by
  rw [weight, rowsAt, lookup_addRows, current, List.take_length]
  exact zero_add _

/-- The rows of a relation now are those before the commit, and its updates. -/
theorem rowsAt_commit_current (s : TraceStore) (updates : List (RelId × Tuple × Diff)) (rel : RelId) :
    (s.commit updates).rowsAt rel (s.commit updates).current = addRows rel (s.rowsAt rel s.current) updates := by
  have hlen : (s.patches ++ [updates]).length = s.patches.length + 1 := by simp
  have htake : ((s.patches ++ [updates]).take (s.patches.length + 1)).flatten
      = s.patches.flatten ++ updates := by
    rw [← hlen, List.take_length, List.flatten_append]
    simp
  show addRows rel [] ((s.patches ++ [updates]).take (s.patches ++ [updates]).length).flatten = _
  rw [hlen, htake]
  show (s.patches.flatten ++ updates).foldl _ [] = updates.foldl _ (addRows rel [] _)
  rw [List.foldl_append, TraceStore.current, List.take_length]
  rfl

/-- What a commit adds to a row's weight. -/
theorem weight_commit (s : TraceStore) (updates : List (RelId × Tuple × Diff)) (rel : RelId)
    (t : Tuple) : (s.commit updates).weight rel t = s.weight rel t + netOn rel t updates := by
  rw [weight, rowsAt_commit_current, lookup_addRows]
  rfl

/-- An edition already committed keeps its rows. -/
theorem rowsAt_commit {h : TraceStore} {at' : Nat} (hle : at' ≤ h.current) (rel : RelId)
    (updates : List (RelId × Tuple × Diff)) : (h.commit updates).rowsAt rel at' = h.rowsAt rel at' := by
  unfold rowsAt commit
  dsimp only
  rw [List.take_append_of_le_length hle]

/-- A row present after a commit was present before it, or is one of its updates'. -/
theorem mem_rowsAt_commit {h : TraceStore} {updates : List (RelId × Tuple × Diff)} {rel : RelId}
    {e : Tuple × Diff} (he : e ∈ (h.commit updates).rowsAt rel (h.commit updates).current) :
    e ∈ h.rowsAt rel h.current ∨ ∃ u ∈ updates, u.1 = rel ∧ u.2.1 = e.1 := by
  obtain ⟨hne, hw⟩ := mem_rowsAt.1 he
  rw [weight_commit] at hw
  by_cases hex : ∃ u ∈ updates, u.1 = rel ∧ u.2.1 = e.1
  · exact .inr hex
  · have hnet : netOn rel e.1 updates = 0 := netOn_eq_zero fun u hu hrow => hex ⟨u, hu, hrow⟩
    rw [hnet, add_zero] at hw
    exact .inl (mem_rowsAt.2 ⟨hne, hw⟩)

@[simp] theorem current_commit (h : TraceStore) (updates : List (RelId × Tuple × Diff)) :
    (h.commit updates).current = h.current + 1 := by
  simp [current, commit]

/-- An interval already committed keeps its updates. -/
theorem updatesBetween_commit_of_le {h : TraceStore} {upTo : Nat} (hle : upTo ≤ h.current)
    (updates : List (RelId × Tuple × Diff)) (rel : RelId) (start : Nat) :
    (h.commit updates).updatesBetween rel start upTo = h.updatesBetween rel start upTo := by
  have hlt : ¬ 1 + h.patches.length ≤ upTo := by
    rw [current] at hle
    omega
  rw [updatesBetween, updatesBetween, commit]
  dsimp only
  rw [List.zipIdx_append, List.filter_append, List.flatMap_append]
  simp [hlt]

/-- A commit's updates come after all those before it. -/
theorem updatesBetween_commit_from (s : TraceStore) (updates : List (RelId × Tuple × Diff)) (rel : RelId)
    (start : Nat) : (s.commit updates).updatesBetween rel start (s.commit updates).current
      = s.updatesBetween rel start s.current ++ if start ≤ s.current then
          (updates.filter fun u => u.1 = rel).map fun u => ⟨u.2.1, s.current + 1, u.2.2⟩ else [] := by
  have hold : ((s.patches.zipIdx 1).filter fun p => start < p.2 ∧ p.2 ≤ s.current + 1)
      = (s.patches.zipIdx 1).filter fun p => start < p.2 ∧ p.2 ≤ s.current := by
    refine List.filter_congr fun p hp => ?_
    have hlt := List.snd_lt_of_mem_zipIdx hp
    have hle : p.2 ≤ s.current := by
      rw [current]
      omega
    simp [hle, Nat.le_succ_of_le hle]
  rw [current_commit, updatesBetween, updatesBetween, commit]
  dsimp only
  rw [List.zipIdx_append, List.filter_append, hold, List.flatMap_append]
  congr 1
  by_cases hle : start ≤ s.current
  · rw [if_pos hle]
    have hlt : start < s.current + 1 := Nat.lt_succ_of_le hle
    simp [current, Nat.add_comm] at hlt ⊢
    simp [hlt]
  · rw [if_neg hle]
    simp [current, Nat.add_comm] at hle ⊢
    omega

theorem updatesBetween_commit (h : TraceStore) (updates : List (RelId × Tuple × Diff)) (rel : RelId) :
    (h.commit updates).updatesBetween rel 0 (h.commit updates).current
      = h.updatesBetween rel 0 h.current
        ++ (updates.filter fun u => u.1 = rel).map fun u => ⟨u.2.1, h.current + 1, u.2.2⟩ := by
  rw [updatesBetween_commit_from, if_pos (Nat.zero_le _)]

theorem commitIf_eq_some {pre : List (RelId × Tuple)} {updates : List (RelId × Tuple × Diff)}
    {s' : TraceStore} : s.commitIf pre updates = some s' ↔
      (∀ p ∈ pre, 0 < s.weight p.1 p.2) ∧ s' = s.commit updates := by
  unfold commitIf
  split_ifs with h
  · simp only [List.all_eq_true, decide_eq_true_eq] at h
    rw [Option.some.injEq]
    exact ⟨fun hs => ⟨h, hs.symm⟩, fun hs => hs.2.symm⟩
  · simp only [List.all_eq_true, decide_eq_true_eq] at h
    exact ⟨fun hs => (nomatch hs), fun hs => absurd hs.1 h⟩

@[simp] theorem weight_empty (rel : RelId) (t : Tuple) : empty.weight rel t = 0 := rfl

/-! ## Commits one after the other -/

/-- Commits made one after the other. -/
def commits (s : TraceStore) (later : List (List (RelId × Tuple × Diff))) : TraceStore := later.foldl commit s

@[simp] theorem commits_nil (s : TraceStore) : s.commits [] = s := rfl

@[simp] theorem commits_cons (s : TraceStore) (updates : List (RelId × Tuple × Diff)) (later) :
    s.commits (updates :: later) = (s.commit updates).commits later := rfl

theorem commits_append (s : TraceStore) (later latest : List (List (RelId × Tuple × Diff))) :
    s.commits (later ++ latest) = (s.commits later).commits latest := List.foldl_append

theorem patches_commits (s : TraceStore) (later : List (List (RelId × Tuple × Diff))) :
    (s.commits later).patches = s.patches ++ later ∧ (s.commits later).watermark = s.watermark := by
  induction later generalizing s with
  | nil => exact ⟨(List.append_nil _).symm, rfl⟩
  | cons updates later ih =>
    obtain ⟨hpatches, hwatermark⟩ := ih (s.commit updates)
    refine ⟨?_, hwatermark⟩
    rw [commits_cons, hpatches]
    exact List.append_assoc ..

theorem current_commits (s : TraceStore) (later : List (List (RelId × Tuple × Diff))) :
    (s.commits later).current = s.current + later.length := by
  rw [current, (s.patches_commits later).1, List.length_append, current]

section Spared

variable {later : List (List (RelId × Tuple × Diff))}

/-- A relation no commit touches reads as it did. -/
theorem rowsAt_commits (h : ∀ updates ∈ later, ∀ u ∈ updates, u.1 ≠ rel) :
    (s.commits later).rowsAt rel (s.commits later).current = s.rowsAt rel s.current := by
  induction later generalizing s with
  | nil => rfl
  | cons updates later ih =>
    rw [commits_cons, ih fun us hus => h us (List.mem_cons_of_mem _ hus), rowsAt_commit_current,
      addRows_spared rel _ (h updates List.mem_cons_self)]

theorem readAt_commits (h : ∀ updates ∈ later, ∀ u ∈ updates, u.1 ≠ rel) :
    (s.commits later).readAt rel (s.commits later).current = s.readAt rel s.current := by
  rw [readAt_current, readAt_current, rowsAt_commits h]

/-- And nothing was updated in it. -/
theorem updatesBetween_commits (h : ∀ updates ∈ later, ∀ u ∈ updates, u.1 ≠ rel) (start : Nat) :
    (s.commits later).updatesBetween rel start (s.commits later).current = s.updatesBetween rel start s.current := by
  induction later generalizing s with
  | nil => rfl
  | cons updates later ih =>
    have hnone : updates.filter (fun u => u.1 = rel) = [] :=
      List.filter_eq_nil_iff.2 fun u hu => by simpa using h updates List.mem_cons_self u hu
    rw [commits_cons, ih fun us hus => h us (List.mem_cons_of_mem _ hus), updatesBetween_commit_from, hnone]
    simp

/-- A row no commit touches keeps its weight. -/
theorem weight_commits {t : Tuple} (h : ∀ updates ∈ later, ∀ u ∈ updates, ¬ (u.1 = rel ∧ u.2.1 = t)) :
    (s.commits later).weight rel t = s.weight rel t := by
  induction later generalizing s with
  | nil => rfl
  | cons updates later ih =>
    rw [commits_cons, ih fun us hus => h us (List.mem_cons_of_mem _ hus), weight_commit,
      netOn_eq_zero (h updates List.mem_cons_self), add_zero]

end Spared

/-- Nothing was updated after the last commit. -/
theorem updatesBetween_ended {start : Nat} (h : s.current ≤ start) : s.updatesBetween rel start s.current = [] := by
  rw [updatesBetween, List.filter_eq_nil_iff.2 fun p _ => by simp; omega]
  rfl

end TraceStore

end Grmpl

import Grmpl.Proc.Derived

/-!
# Refreshing the views a runtime keeps

A runtime refreshes its views one after the other. Before a view's change is looked up
the store is asked whether anything it reads was touched since its cursor: of a view
over a key range by the range, which the store routes commits to from the first time it
is asked on, of any other by the relations it reads.

* `TraceStore.touchedSince`, `RoutedStore.touchedRangeSince`: what the store answers.
* `Maintainer`, `Maintainer.refresh`, `refreshViews`: the code.
* `Maintainer.Held`: a view's cursor is one row, or none.
* `Maintainer.Rested`: a view whose refresh has nothing to commit.
* `refreshViews_rested`: after a refresh of all views, every one of them rests.
-/

open OrdMap

namespace Grmpl

/-- Whether a commit after one edition up to another touched one of the relations. -/
def TraceStore.touchedSince (s : TraceStore) (start upTo : Nat) (rels : List RelId) : Bool :=
  if start < s.watermark then true else rels.any fun rel => !(s.updatesBetween rel start upTo).isEmpty

/-- A store, and the key ranges it routes commits to, each with the edition it has done so
from. -/
structure RoutedStore where
  store : TraceStore
  interests : List ((RelId × Tuple × Tuple) × Nat)

namespace RoutedStore

/-- Whether a commit touched rows of a relation in a key range. -/
def touchedRangeSince (w : RoutedStore) (start upTo : Nat) (rel : RelId) (lo hi : Tuple) : RoutedStore × Bool :=
  if start < w.store.watermark then (w, true)
  else
    match w.interests.lookup (rel, lo, hi) with
    | none =>
        let w := { w with interests := ((rel, lo, hi), w.store.current) :: w.interests }
        if upTo ≤ start then (w, false) else (w, w.store.touchedSince start upTo [rel])
    | some since =>
        if upTo ≤ start then (w, false)
        else if start < since then (w, w.store.touchedSince start upTo [rel])
        else (w, (w.store.updatesBetween rel start upTo).any fun u => lo ≤ u.tuple ∧ u.tuple < hi)

end RoutedStore

/-- A materialized view, with what it reads. -/
structure Maintainer where
  /-- What the view changes by after one edition up to another, in the order of rows. -/
  delta : TraceStore → Nat → Nat → Result (List (Tuple × Diff))
  /-- The relations the view reads. -/
  bases : List RelId
  /-- The key range the view reads, if it reads no more. -/
  span : Option (RelId × Tuple × Tuple)
  into : RelId
  key : Entity
  cursorRel : RelId
  authority : Authority

namespace Maintainer

variable (m : Maintainer)

/-- The view as it is when something it reads was touched. -/
def materialized : Materialized where
  view := m.delta
  quiet := fun _ _ _ => .ok false
  into := m.into
  key := m.key
  cursorRel := m.cursorRel
  authority := m.authority

/-- Whether anything the view reads was touched. -/
def touched (w : RoutedStore) (start upTo : Nat) : RoutedStore × Bool :=
  match m.span with
  | some (rel, lo, hi) => w.touchedRangeSince start upTo rel lo hi
  | none => (w, w.store.touchedSince start upTo m.bases)

/-- What a refresh commits of a view that was touched, and how many rows it writes. -/
def commitFold (schemas : SchemaCatalog) (store : TraceStore) (start upTo : Nat) :
    Result (Nat × TraceStore × CommitOutcome) := do
  let rows ← m.delta store start upTo
  let out ← commitPatch store schemas (rows.foldl m.materialized.foldRow (m.materialized.advance start upTo)) m.authority
  return (rows.length, out)

/-- One try at a refresh: the rows written, unless it is to be tried again. -/
def tryRefresh (schemas : SchemaCatalog) (w : RoutedStore) : RoutedStore × Result (Option Nat) :=
  match m.materialized.cursor w.store with
  | .error e => (w, .error e)
  | .ok none => (w, .ok (some 0))
  | .ok (some start) =>
      let upTo := w.store.current
      if upTo ≤ start then (w, .ok (some 0))
      else
        match m.touched w start upTo with
        | (w, false) => (w, .ok (some 0))
        | (w, true) =>
            match m.commitFold schemas w.store start upTo with
            | .error e => (w, .error e)
            | .ok (n, store, .committed _) => ({ w with store }, .ok (some n))
            | .ok (_, _, .rejected) => (w, .ok none)

/-- So many tries at a refresh. -/
def refreshTries (schemas : SchemaCatalog) : Nat → RoutedStore → RoutedStore × Result Nat
  | 0, w => (w, .ok 0)
  | tries + 1, w =>
      match m.tryRefresh schemas w with
      | (w, .error e) => (w, .error e)
      | (w, .ok (some n)) => (w, .ok n)
      | (w, .ok none) => refreshTries schemas tries w

/-- How often a refresh is tried. -/
def maxTries : Nat := 256

def refresh (schemas : SchemaCatalog) (w : RoutedStore) : RoutedStore × Result Nat := m.refreshTries schemas maxTries w

end Maintainer

/-- Every view refreshed in turn, and the rows written. -/
def refreshViews (schemas : SchemaCatalog) : List Maintainer → RoutedStore → RoutedStore × Result Nat
  | [], w => (w, .ok 0)
  | m :: ms, w =>
      match m.refresh schemas w with
      | (w, .error e) => (w, .error e)
      | (w, .ok n) =>
          match refreshViews schemas ms w with
          | (w, .error e) => (w, .error e)
          | (w, .ok k) => (w, .ok (n + k))

/-! ## What a view reads, and what its refresh writes -/

/-- Every key range routed before still is, from when it was. -/
def RoutedStore.Wider (w w' : RoutedStore) : Prop :=
  ∀ k since, w.interests.lookup k = some since → w'.interests.lookup k = some since

/-- To be asked about a key range changes nothing but that it is routed to from then on. -/
theorem RoutedStore.touchedRangeSince_store (w : RoutedStore) (start upTo : Nat) (rel : RelId) (lo hi : Tuple) :
    (w.touchedRangeSince start upTo rel lo hi).1.store = w.store ∧ w.Wider (w.touchedRangeSince start upTo rel lo hi).1 := by
  unfold RoutedStore.touchedRangeSince
  split
  · exact ⟨rfl, fun _ _ h => h⟩
  · split
    · rename_i hnew
      have hwider : w.Wider { w with interests := ((rel, lo, hi), w.store.current) :: w.interests } := by
        intro k since hk
        have hne : (k == (rel, lo, hi)) = false := by
          rw [beq_eq_false_iff_ne]
          rintro rfl
          rw [hnew] at hk
          cases hk
        rw [List.lookup_cons, hne]
        exact hk
      dsimp only
      split
      · exact ⟨rfl, hwider⟩
      · exact ⟨rfl, hwider⟩
    · split
      · exact ⟨rfl, fun _ _ h => h⟩
      · split
        · exact ⟨rfl, fun _ _ h => h⟩
        · exact ⟨rfl, fun _ _ h => h⟩

/-- A store some commits later, each of updates that meet a condition. -/
structure RoutedStore.Onward (ok : RelId × Tuple × Diff → Prop) (w w' : RoutedStore) : Prop where
  wider : w.Wider w'
  commits : ∃ ups, w'.store = w.store.commits ups ∧ ∀ updates ∈ ups, ∀ u ∈ updates, ok u

namespace RoutedStore.Onward

variable {ok ok' : RelId × Tuple × Diff → Prop} {w w' w'' : RoutedStore}

theorem of_eq (hwider : w.Wider w') (hstore : w'.store = w.store) : Onward ok w w' :=
  ⟨hwider, [], hstore, fun _ h => absurd h List.not_mem_nil⟩

theorem of_commit (hwider : w.Wider w') {updates : List (RelId × Tuple × Diff)} (hstore : w'.store = w.store.commit updates)
    (hok : ∀ u ∈ updates, ok u) : Onward ok w w' :=
  ⟨hwider, [updates], hstore, fun _ hus => List.mem_singleton.1 hus ▸ hok⟩

theorem refl (w : RoutedStore) : Onward ok w w := .of_eq (fun _ _ h => h) rfl

theorem trans (h : Onward ok w w') (h' : Onward ok w' w'') : Onward ok w w'' := by
  obtain ⟨ups, hstore, hok⟩ := h.commits
  obtain ⟨ups', hstore', hok'⟩ := h'.commits
  refine ⟨fun k since hk => h'.wider k since (h.wider k since hk), ups ++ ups', ?_, fun updates hupd => ?_⟩
  · rw [hstore', hstore, TraceStore.commits_append]
  · exact (List.mem_append.1 hupd).elim (hok updates) (hok' updates)

theorem mono (hle : ∀ u, ok u → ok' u) (h : Onward ok w w') : Onward ok' w w' := by
  obtain ⟨ups, hstore, hok⟩ := h.commits
  exact ⟨h.wider, ups, hstore, fun updates hupd u hu => hle u (hok updates hupd u hu)⟩

/-- Editions are never taken back. -/
theorem current_le (h : Onward ok w w') : w.store.current ≤ w'.store.current := by
  obtain ⟨ups, hstore, -⟩ := h.commits
  rw [hstore, TraceStore.current_commits]
  exact Nat.le_add_right _ _

/-- What no update is in reads as it did. -/
theorem readAt (h : Onward ok w w') {rel : RelId} (hrel : ∀ u, ok u → u.1 ≠ rel) :
    w'.store.readAt rel w'.store.current = w.store.readAt rel w.store.current := by
  obtain ⟨ups, hstore, hok⟩ := h.commits
  rw [hstore]
  exact TraceStore.readAt_commits fun updates hupd u hu => hrel u (hok updates hupd u hu)

end RoutedStore.Onward

namespace Maintainer

variable {m n : Maintainer} {schemas : SchemaCatalog} {w w' : RoutedStore} {c : Option Int64}

/-- The relations a view asks the store about. -/
def watched (m : Maintainer) : List RelId :=
  match m.span with
  | some (rel, _, _) => [rel]
  | none => m.bases

/-- A row a view's refresh writes. -/
def Own (m : Maintainer) (u : RelId × Tuple × Diff) : Prop :=
  u.1 = m.into ∨ u.1 = m.cursorRel ∧ u.2.1.cells[0]? = some (.ent m.key)

/-- An update of nothing a view reads, nor of its cursor. -/
def Spares (m : Maintainer) (u : RelId × Tuple × Diff) : Prop :=
  u.1 ∉ m.watched ∧ ¬ (u.1 = m.cursorRel ∧ u.2.1.cells[0]? = some (.ent m.key))

/-- A row of a view's cursor. -/
def cursorRow (m : Maintainer) (v : Int64) : Tuple := ⟨[.ent m.key, .int v]⟩

/-- A view's cursor is one row, or none. -/
def Held (m : Maintainer) (store : TraceStore) (c : Option Int64) : Prop :=
  ∀ t, t.cells[0]? = some (.ent m.key) → store.weight m.cursorRel t = if c.map m.cursorRow = some t then 1 else 0

/-- Nothing a view reads was touched since an edition, as far as the store tells. -/
def Unstirred (m : Maintainer) (w : RoutedStore) (start : Nat) : Prop :=
  w.store.watermark ≤ start ∧
    ((∀ rel ∈ m.watched, w.store.updatesBetween rel start w.store.current = []) ∨
      ∃ rel lo hi since, m.span = some (rel, lo, hi) ∧ w.interests.lookup (rel, lo, hi) = some since ∧ since ≤ start ∧
        ∀ u ∈ w.store.updatesBetween rel start w.store.current, ¬ (lo ≤ u.tuple ∧ u.tuple < hi))

/-- A view whose refresh has nothing to commit. -/
def Rested (m : Maintainer) (w : RoutedStore) : Prop :=
  ∃ c, m.Held w.store c ∧ ∀ v, c = some v → v.toInt < 0 ∨ m.Unstirred w v.toInt.toNat

/-! ## What commits elsewhere leave -/

theorem Held.onward (h : m.Held w.store c) (hon : w.Onward m.Spares w') : m.Held w'.store c := by
  obtain ⟨ups, hstore, hspare⟩ := hon.commits
  intro t ht
  rw [hstore, TraceStore.weight_commits fun updates hupd u hu ⟨hrel, hrow⟩ =>
    (hspare updates hupd u hu).2 ⟨hrel, hrow ▸ ht⟩]
  exact h t ht

theorem Unstirred.onward {start : Nat} (h : m.Unstirred w start) (hon : w.Onward m.Spares w') : m.Unstirred w' start := by
  obtain ⟨ups, hstore, hspare⟩ := hon.commits
  have hkept : ∀ rel ∈ m.watched, w'.store.updatesBetween rel start w'.store.current
      = w.store.updatesBetween rel start w.store.current := by
    intro rel hrel
    rw [hstore]
    exact TraceStore.updatesBetween_commits (fun updates hupd u hu heq => (hspare updates hupd u hu).1 (heq ▸ hrel)) start
  refine ⟨?_, ?_⟩
  · rw [hstore, (w.store.patches_commits ups).2]
    exact h.1
  · rcases h.2 with hnone | ⟨rel, lo, hi, since, hspan, hlookup, hle, hout⟩
    · exact .inl fun rel hrel => (hkept rel hrel).trans (hnone rel hrel)
    · have hrel : rel ∈ m.watched := by
        rw [watched, hspan]
        exact List.mem_singleton_self rel
      refine .inr ⟨rel, lo, hi, since, hspan, hon.wider _ _ hlookup, hle, ?_⟩
      rw [hkept rel hrel]
      exact hout

/-- A view goes on resting while nothing it reads is touched. -/
theorem Rested.onward (h : m.Rested w) (hon : w.Onward m.Spares w') : m.Rested w' := by
  obtain ⟨c, hheld, hc⟩ := h
  exact ⟨c, hheld.onward hon, fun v hv => (hc v hv).imp_right fun hstill => hstill.onward hon⟩

/-! ## What the store answers -/

theorem touched_store (m : Maintainer) (w : RoutedStore) (start upTo : Nat) :
    (m.touched w start upTo).1.store = w.store ∧ w.Wider (m.touched w start upTo).1 := by
  unfold touched
  split
  · exact w.touchedRangeSince_store _ _ _ _ _
  · exact ⟨rfl, fun _ _ h => h⟩

theorem touchedSince_false {s : TraceStore} {start upTo : Nat} {rels : List RelId} :
    s.touchedSince start upTo rels = false ↔ s.watermark ≤ start ∧ ∀ rel ∈ rels, s.updatesBetween rel start upTo = [] := by
  unfold TraceStore.touchedSince
  split_ifs with h
  · simp
    omega
  · simp
    omega

/-- What nothing has stirred is not touched. -/
theorem Unstirred.touched {start : Nat} (h : m.Unstirred w start) :
    (m.touched w start w.store.current).2 = false := by
  obtain ⟨hmark, h⟩ := h
  unfold Maintainer.touched
  split
  · rename_i rel lo hi hspan
    have hmem : rel ∈ m.watched := by
      rw [watched, hspan]
      exact List.mem_singleton_self rel
    unfold RoutedStore.touchedRangeSince
    rw [if_neg (not_lt.2 hmark)]
    rcases h with hnone | ⟨rel', lo', hi', since, hspan', hlookup, hle, hout⟩
    · have hrel : w.store.touchedSince start w.store.current [rel] = false :=
        touchedSince_false.2 ⟨hmark, fun r hr => hnone r (List.mem_singleton.1 hr ▸ hmem)⟩
      split
      · dsimp only
        split
        · rfl
        · exact hrel
      · split
        · rfl
        · split
          · exact hrel
          · simp [hnone rel hmem]
    · cases hspan.symm.trans hspan'
      rw [hlookup]
      dsimp only
      split
      · rfl
      · rw [if_neg (not_lt.2 hle)]
        simpa using hout
  · rename_i hspan
    rcases h with hnone | ⟨rel', lo', hi', since, hspan', _⟩
    · refine touchedSince_false.2 ⟨hmark, fun rel hrel => hnone rel ?_⟩
      rw [watched, hspan]
      exact hrel
    · rw [hspan] at hspan'
      cases hspan'

/-- A key range that is not touched: nor is its relation, or the range is routed to since. -/
theorem range_of_touched {start : Nat} {rel : RelId} {lo hi : Tuple} (hlt : start < w.store.current)
    (h : (w.touchedRangeSince start w.store.current rel lo hi).2 = false) :
    w.store.watermark ≤ start ∧ (w.store.updatesBetween rel start w.store.current = [] ∨
      ∃ since, w.interests.lookup (rel, lo, hi) = some since ∧ since ≤ start ∧
        ∀ u ∈ w.store.updatesBetween rel start w.store.current, ¬ (lo ≤ u.tuple ∧ u.tuple < hi)) := by
  have hrel : w.store.touchedSince start w.store.current [rel] = false →
      w.store.updatesBetween rel start w.store.current = [] :=
    fun h => (touchedSince_false.1 h).2 rel (List.mem_singleton_self rel)
  unfold RoutedStore.touchedRangeSince at h
  split at h
  · cases h
  · rename_i hmark
    refine ⟨not_lt.1 hmark, ?_⟩
    split at h
    · dsimp only at h
      rw [if_neg (not_le.2 hlt)] at h
      exact .inl (hrel h)
    · rename_i since hlookup
      rw [if_neg (not_le.2 hlt)] at h
      split at h
      · exact .inl (hrel h)
      · rename_i hsince
        exact .inr ⟨since, hlookup, not_lt.1 hsince, by simpa using h⟩

/-- And what is not touched, nothing has stirred. -/
theorem unstirred_of_touched {start : Nat} (hlt : start < w.store.current)
    (h : (m.touched w start w.store.current).2 = false) :
    m.Unstirred (m.touched w start w.store.current).1 start := by
  obtain ⟨hstore, hwider⟩ := m.touched_store w start w.store.current
  suffices hstill : m.Unstirred w start from
    hstill.onward (.of_eq hwider hstore)
  unfold Maintainer.touched at h
  split at h
  · rename_i rel lo hi hspan
    obtain ⟨hmark, hrange⟩ := range_of_touched hlt h
    refine ⟨hmark, hrange.imp (fun hnone rel' hrel' => ?_) fun ⟨since, hlookup, hle, hout⟩ =>
      ⟨rel, lo, hi, since, hspan, hlookup, hle, hout⟩⟩
    rw [watched, hspan] at hrel'
    rw [List.mem_singleton.1 hrel']
    exact hnone
  · rename_i hspan
    obtain ⟨hmark, hnone⟩ := touchedSince_false.1 h
    refine ⟨hmark, .inl fun rel hrel => hnone rel ?_⟩
    rw [watched, hspan] at hrel
    exact hrel

/-! ## The cursor -/

theorem cursorRow_inj {u v : Int64} (h : m.cursorRow u = m.cursorRow v) : u = v :=
  Value.int.inj (List.cons.inj (List.cons.inj (congrArg Tuple.cells h)).2).1

theorem cursorIn_some {row : Tuple × Diff} {e : Nat} (h : m.materialized.cursorIn row = some e) :
    0 < row.2 ∧ row.1.cells[0]? = some (.ent m.key) ∧ ∃ v, row.1.cells[1]? = some (.int v) ∧ e = (max v.toInt 0).toNat := by
  unfold Materialized.cursorIn at h
  split_ifs at h with hrow
  split at h
  · rename_i v hv
    cases h
    exact ⟨hrow.1, hrow.2, v, hv, rfl⟩
  · cases h

theorem cursorIn_row (m : Maintainer) (v : Int64) (d : Diff) (hd : 0 < d) :
    m.materialized.cursorIn (m.cursorRow v, d) = some (max v.toInt 0).toNat := by
  unfold Materialized.cursorIn
  rw [if_pos ⟨hd, rfl⟩]
  rfl

/-- What the cursor is read as. -/
theorem Held.cursor {store : TraceStore} (h : m.Held store c) :
    m.materialized.cursor store = .ok (c.map fun v => (max v.toInt 0).toNat) := by
  have hall : ∀ row ∈ store.rowsAt m.cursorRel store.current, ∀ e, m.materialized.cursorIn row = some e →
      c.map (fun v => (max v.toInt 0).toNat) = some e := by
    rintro ⟨t, d⟩ hmem e he
    obtain ⟨hpos, hkey, v, hv, rfl⟩ := cursorIn_some he
    have hw := h t hkey
    rw [(TraceStore.mem_rowsAt.1 hmem).2] at hw
    split_ifs at hw with hc
    · obtain ⟨v', rfl, rfl⟩ := Option.map_eq_some_iff.1 hc
      cases hv
      rfl
    · exact absurd hpos (not_lt.2 hw.le)
  unfold Materialized.cursor
  rw [TraceStore.readAt_current]
  show Except.ok _ = Except.ok _
  congr 1
  show (store.rowsAt m.cursorRel store.current).findSome? m.materialized.cursorIn = _
  cases hfound : (store.rowsAt m.cursorRel store.current).findSome? m.materialized.cursorIn with
  | some e =>
    obtain ⟨row, hmem, he⟩ := List.exists_of_findSome?_eq_some hfound
    exact (hall row hmem e he).symm
  | none =>
    cases c with
    | none => rfl
    | some v =>
      have hw := h (m.cursorRow v) rfl
      rw [if_pos (by rfl)] at hw
      have hmem := TraceStore.mem_rowsAt.2 ⟨one_ne_zero, hw⟩
      have hnone := List.findSome?_eq_none_iff.1 hfound _ hmem
      rw [cursorIn_row m v 1 one_pos] at hnone
      cases hnone

/-! ## One refresh -/

/-- What holds of a patch and of every row's addition to it holds of the fold. -/
theorem fold_induction {P : Patch → Prop} (hassert : ∀ p t, P p → P (p.assert ⟨m.into, t⟩))
    (hretract : ∀ p t, P p → P (p.retract ⟨m.into, t⟩)) :
    ∀ (rows : List (Tuple × Diff)) {p : Patch}, P p → P (rows.foldl m.materialized.foldRow p) := by
  have hone : ∀ (row : Tuple × Diff) (n : Nat) (p : Patch), P p → P ((fun p : Patch =>
      if 0 < row.2 then p.assert ⟨m.into, row.1⟩ else p.retract ⟨m.into, row.1⟩)^[n] p) := by
    intro row n
    induction n with
    | zero => exact fun _ h => h
    | succ n ih =>
      intro p h
      refine ih _ ?_
      split
      · exact hassert p row.1 h
      · exact hretract p row.1 h
  intro rows
  induction rows with
  | nil => exact fun h => h
  | cons row rows ih => exact fun h => ih (hone row _ _ h)

/-- What a view's commit does: it moves the cursor if that is where it was read, and writes
nothing but the view's own rows. -/
theorem commitFold_ok (hinto : m.into ≠ m.cursorRel) {store store' : TraceStore} {start upTo n : Nat}
    {outcome : CommitOutcome} (h : m.commitFold schemas store start upTo = .ok (n, store', outcome)) :
    (outcome = .rejected ∧ store' = store ∧ ¬ 0 < store.weight m.cursorRel (m.cursorRow (Int64.ofNat start))) ∨
      outcome = .committed store'.current ∧ ∃ updates, store' = store.commit updates ∧ (∀ u ∈ updates, m.Own u) ∧
        0 < store.weight m.cursorRel (m.cursorRow (Int64.ofNat start)) ∧
          ∀ t, netOn m.cursorRel t updates = (if m.cursorRow (Int64.ofNat start) = t then -1 else 0)
            + if m.cursorRow (Int64.ofNat upTo) = t then 1 else 0 := by
  unfold commitFold at h
  obtain ⟨rows, -, h⟩ := bind_ok h
  obtain ⟨⟨store₁, outcome₁⟩, hcommit, h⟩ := bind_ok h
  cases h
  have hpre : (rows.foldl m.materialized.foldRow (m.materialized.advance start upTo)).preconditions
      = [⟨m.cursorRel, m.cursorRow (Int64.ofNat start)⟩] :=
    fold_induction (P := fun p => p.preconditions = [⟨m.cursorRel, m.cursorRow (Int64.ofNat start)⟩])
      (fun _ _ h => h) (fun _ _ h => h) rows rfl
  have hmove : (m.materialized.advance start upTo).updates = [(m.cursorRel, m.cursorRow (Int64.ofNat start), -1),
      (m.cursorRel, m.cursorRow (Int64.ofNat upTo), 1)] := rfl
  rcases commitPatchChecked_ok hcommit with ⟨rfl, rfl⟩ | ⟨rfl, hholds, rfl⟩
  · obtain ⟨f, hf, hmissed⟩ := commitPatchChecked_rejected hcommit
    rw [hpre] at hf
    cases List.mem_singleton.1 hf
    exact .inl ⟨rfl, rfl, hmissed⟩
  · refine .inr ⟨rfl, _, rfl, ?_, ?_, fun t => ?_⟩
    · refine fold_induction (P := fun p => ∀ u ∈ p.updates, m.Own u) (fun p t hp u hu => ?_) (fun p t hp u hu => ?_) rows ?_
      · rcases mem_updates_assert.1 hu with hu | rfl
        · exact hp u hu
        · exact .inl rfl
      · rcases mem_updates_retract.1 hu with hu | rfl
        · exact hp u hu
        · exact .inl rfl
      · intro u hu
        rw [hmove] at hu
        refine .inr ?_
        rcases List.mem_cons.1 hu with rfl | hu
        · exact ⟨rfl, rfl⟩
        · rw [List.mem_singleton.1 hu]
          exact ⟨rfl, rfl⟩
    · exact hholds _ (hpre ▸ List.mem_singleton_self _)
    · have hkept : netOn m.cursorRel t (rows.foldl m.materialized.foldRow (m.materialized.advance start upTo)).updates
          = netOn m.cursorRel t (m.materialized.advance start upTo).updates :=
        fold_induction (P := fun p => netOn m.cursorRel t p.updates = netOn m.cursorRel t (m.materialized.advance start upTo).updates)
          (fun p t' hp => by simp [hinto, hp]) (fun p t' hp => by simp [hinto, hp]) rows rfl
      rw [hkept, hmove]
      simp

/-- Where the cursor is after a view's commit. -/
theorem Held.moved {store : TraceStore} {start upTo : Nat} {updates : List (RelId × Tuple × Diff)} {v : Int64}
    (h : m.Held store (some v)) (hstart : m.cursorRow (Int64.ofNat start) = m.cursorRow v)
    (hnet : ∀ t, netOn m.cursorRel t updates = (if m.cursorRow (Int64.ofNat start) = t then -1 else 0)
      + if m.cursorRow (Int64.ofNat upTo) = t then 1 else 0) :
    m.Held (store.commit updates) (some (Int64.ofNat upTo)) := by
  intro t ht
  rw [TraceStore.weight_commit, h t ht, hnet, hstart]
  simp only [Option.map_some, Option.some.injEq]
  split_ifs <;> rfl

/-- What one try at a refresh leaves. -/
inductive Tried (m : Maintainer) (w w' : RoutedStore) : Result (Option Nat) → Prop
  | failed (e : Error) : w'.store = w.store → Tried m w w' (.error e)
  | idle (o : Option Nat) : w'.store = w.store → m.Rested w' → Tried m w w' (.ok o)
  | folded (n : Nat) (updates : List (RelId × Tuple × Diff)) : w'.store = w.store.commit updates →
      (∀ u ∈ updates, m.Own u) → (∃ c, m.Held w'.store c) → (w'.store.current < 2 ^ 64 → m.Rested w') →
      Tried m w w' (.ok (some n))

/-- A view's relations are its own, and nothing it reads. -/
structure Apart (m : Maintainer) : Prop where
  into : m.into ≠ m.cursorRel
  rows : m.into ∉ m.watched
  cursor : m.cursorRel ∉ m.watched

/-- A commit of the view's own rows is nothing it reads. -/
theorem Own.unwatched (hapart : m.Apart) {u : RelId × Tuple × Diff} (h : m.Own u) {rel : RelId} (hrel : rel ∈ m.watched) :
    u.1 ≠ rel := by
  rintro rfl
  rcases h with hinto | ⟨hcursor, -⟩
  · exact hapart.rows (hinto ▸ hrel)
  · exact hapart.cursor (hcursor ▸ hrel)

theorem ofNat_toNat {v : Int64} (h : 0 ≤ v.toInt) : Int64.ofNat v.toInt.toNat = v := by
  apply Int64.toInt.inj
  rw [Int64.toInt_ofNat', Int.toNat_of_nonneg h]
  exact Int64.toInt_bmod_size v

/-- What an edition is read back as, unless it is read as a negative number. -/
theorem toNat_ofNat {e : Nat} (h : e < 2 ^ 64) (hpos : 0 ≤ (Int64.ofNat e).toInt) : (Int64.ofNat e).toInt.toNat = e := by
  have hsize : (Int64.size : Int) = 2 ^ 64 := rfl
  rw [Int64.toInt_ofNat', Int.bmod_def, hsize] at hpos ⊢
  split_ifs at hpos ⊢ <;> omega

/-- A view rests once its cursor is moved to the edition its commit was made on. -/
theorem rested_commit (hapart : m.Apart) {w₁ : RoutedStore} {updates : List (RelId × Tuple × Diff)}
    (hown : ∀ u ∈ updates, m.Own u) (hheld : m.Held (w.store.commit updates) (some (Int64.ofNat w.store.current)))
    (hroom : (w.store.commit updates).current < 2 ^ 64) :
    m.Rested { w₁ with store := w.store.commit updates } := by
  refine ⟨_, hheld, fun v hv => ?_⟩
  cases hv
  refine (lt_or_ge _ _).imp_right fun hpos => ?_
  rw [TraceStore.current_commit] at hroom
  rw [toNat_ofNat ((Nat.lt_succ_self _).trans hroom) hpos]
  refine ⟨w.store.watermark_le, .inl fun rel hrel => ?_⟩
  have hnone : updates.filter (fun u => u.1 = rel) = [] :=
    List.filter_eq_nil_iff.2 fun u hu => by simpa using (hown u hu).unwatched hapart hrel
  show (w.store.commit updates).updatesBetween rel w.store.current (w.store.commit updates).current = []
  rw [TraceStore.updatesBetween_commit_from, TraceStore.updatesBetween_ended le_rfl, hnone]
  simp

theorem tryRefresh_tried (hapart : m.Apart) (hheld : m.Held w.store c) {out : Result (Option Nat)}
    (h : m.tryRefresh schemas w = (w', out)) : w.Wider w' ∧ Tried m w w' out := by
  unfold tryRefresh at h
  rw [hheld.cursor] at h
  cases c with
  | none =>
    cases h
    exact ⟨fun _ _ h => h, .idle _ rfl ⟨none, hheld, nofun⟩⟩
  | some v =>
    dsimp only [Option.map_some] at h
    split at h
    · -- the cursor is at the last edition, or past it
      rename_i hle
      cases h
      refine ⟨fun _ _ h => h, .idle _ rfl ⟨some v, hheld, fun v' hv' => ?_⟩⟩
      cases hv'
      refine (lt_or_ge v.toInt 0).imp_right fun hpos => ?_
      rw [max_eq_left hpos] at hle
      exact ⟨w.store.watermark_le.trans hle, .inl fun rel _ => TraceStore.updatesBetween_ended hle⟩
    · rename_i hlt
      obtain ⟨hstore, hwider⟩ := m.touched_store w (max v.toInt 0).toNat w.store.current
      split at h
      · rename_i w₁ htouched
        cases h
        rw [htouched] at hstore hwider
        refine ⟨hwider, .idle _ hstore ⟨some v, hstore ▸ hheld, fun v' hv' => ?_⟩⟩
        cases hv'
        refine (lt_or_ge v.toInt 0).imp_right fun hpos => ?_
        rw [max_eq_left hpos] at hlt htouched
        have hstill := unstirred_of_touched (m := m) (not_le.1 hlt) (by rw [htouched])
        rwa [htouched] at hstill
      · rename_i w₁ htouched
        rw [htouched] at hstore hwider
        dsimp only at hstore hwider
        split at h
        · cases h
          exact ⟨hwider, .failed _ hstore⟩
        · rename_i n store e hfold
          cases h
          rw [hstore] at hfold
          refine ⟨hwider, ?_⟩
          rcases commitFold_ok hapart.into hfold with ⟨hout, -⟩ | ⟨-, updates, rfl, hown, hpos, hnet⟩
          · cases hout
          · rw [hheld _ rfl] at hpos
            split_ifs at hpos with hrow
            · have hmoved := hheld.moved (Option.some.inj hrow).symm hnet
              exact .folded n updates rfl hown ⟨_, hmoved⟩ fun hroom => rested_commit hapart hown hmoved hroom
            · exact absurd hpos (lt_irrefl 0)
        · rename_i n store hfold
          cases h
          rw [hstore] at hfold
          refine ⟨hwider, .idle _ hstore ⟨some v, hstore ▸ hheld, fun v' hv' => .inl ?_⟩⟩
          cases hv'
          rcases commitFold_ok hapart.into hfold with ⟨-, -, hmissed⟩ | ⟨hout, -⟩
          · -- the row the cursor was read from is there, so the commit looked for another
            by_contra hpos
            rw [max_eq_left (not_lt.1 hpos), ofNat_toNat (not_lt.1 hpos), hheld _ rfl, if_pos (by rfl)] at hmissed
            exact hmissed one_pos
          · cases hout

/-- **A view that rests commits nothing.** -/
theorem Rested.tryRefresh (hapart : m.Apart) (h : m.Rested w) {out : Result (Option Nat)}
    (htry : m.tryRefresh schemas w = (w', out)) : w'.store = w.store := by
  obtain ⟨c, hheld, hc⟩ := h
  unfold Maintainer.tryRefresh at htry
  rw [hheld.cursor] at htry
  cases c with
  | none =>
    cases htry
    rfl
  | some v =>
    dsimp only [Option.map_some] at htry
    obtain ⟨hstore, -⟩ := m.touched_store w (max v.toInt 0).toNat w.store.current
    split at htry
    · cases htry
      rfl
    · split at htry
      · rename_i w₁ htouched
        cases htry
        rwa [htouched] at hstore
      · rename_i w₁ htouched
        rw [htouched] at hstore
        dsimp only at hstore htry
        split at htry
        · cases htry
          exact hstore
        · rename_i n store e hfold
          cases htry
          rw [hstore] at hfold
          rcases commitFold_ok hapart.into hfold with ⟨hout, -⟩ | ⟨-, updates, -, -, hpos, -⟩
          · cases hout
          · rcases lt_or_ge v.toInt 0 with hneg | hnonneg
            · -- no row of edition zero is there to move the cursor from
              rw [max_eq_right hneg.le, hheld _ rfl] at hpos
              split_ifs at hpos with hrow
              · rw [cursorRow_inj (Option.some.inj hrow)] at hneg
                exact absurd hneg (by decide)
              · exact absurd hpos (lt_irrefl 0)
            · have hquiet := ((hc v rfl).resolve_left hnonneg.not_gt).touched
              rw [max_eq_left hnonneg] at htouched
              rw [htouched] at hquiet
              cases hquiet
        · cases htry
          exact hstore

/-! ## A refresh, and a refresh of them all -/

theorem wider_tryRefresh (m : Maintainer) (schemas : SchemaCatalog) (w : RoutedStore) : w.Wider (m.tryRefresh schemas w).1 := by
  unfold Maintainer.tryRefresh
  split
  · exact fun _ _ h => h
  · exact fun _ _ h => h
  · rename_i start _
    have hwider := (m.touched_store w start w.store.current).2
    dsimp only
    split
    · exact fun _ _ h => h
    · split
      · rename_i htouched
        rwa [htouched] at hwider
      · rename_i htouched
        rw [htouched] at hwider
        split
        · exact hwider
        · exact hwider
        · exact hwider

/-- A view that rests commits nothing, however often it is tried. -/
theorem Rested.refreshTries (hapart : m.Apart) (h : m.Rested w) (tries : Nat) {out : Result Nat}
    (hout : m.refreshTries schemas tries w = (w', out)) : w.Wider w' ∧ w'.store = w.store := by
  induction tries generalizing w with
  | zero =>
    cases hout
    exact ⟨fun _ _ h => h, rfl⟩
  | succ tries ih =>
    rw [Maintainer.refreshTries] at hout
    have hwider := wider_tryRefresh m schemas w
    split at hout
    · rename_i w₁ e htry
      cases hout
      rw [htry] at hwider
      exact ⟨hwider, h.tryRefresh hapart htry⟩
    · rename_i w₁ n htry
      cases hout
      rw [htry] at hwider
      exact ⟨hwider, h.tryRefresh hapart htry⟩
    · rename_i w₁ htry
      rw [htry] at hwider
      have hstore := h.tryRefresh hapart htry
      have hrest : m.Rested w₁ := h.onward (.of_eq hwider hstore)
      obtain ⟨hwider', hstore'⟩ := ih hrest hout
      exact ⟨fun k since hk => hwider' k since (hwider k since hk), hstore'.trans hstore⟩

/-- **A refresh** commits nothing but what the view owns, and the view rests after it. -/
theorem refresh_ok (hapart : m.Apart) (hheld : m.Held w.store c) {out : Result Nat}
    (h : m.refresh schemas w = (w', out)) : w.Onward m.Own w' ∧ (∃ c, m.Held w'.store c) ∧
      ∀ n, out = .ok n → w'.store.current < 2 ^ 64 → m.Rested w' := by
  unfold refresh maxTries at h
  rw [refreshTries] at h
  split at h
  · rename_i w₁ e htry
    cases h
    obtain ⟨hwider, htried⟩ := tryRefresh_tried hapart hheld htry
    cases htried with
    | failed e hstore => exact ⟨.of_eq hwider hstore, ⟨c, hstore ▸ hheld⟩, nofun⟩
  · rename_i w₁ n htry
    cases h
    obtain ⟨hwider, htried⟩ := tryRefresh_tried hapart hheld htry
    cases htried with
    | idle o hstore hrest => exact ⟨.of_eq hwider hstore, ⟨c, hstore ▸ hheld⟩, fun _ _ _ => hrest⟩
    | folded n updates hstore hown hheld hrest =>
      exact ⟨.of_commit hwider hstore hown, hheld, fun _ _ hroom => hrest hroom⟩
  · rename_i w₁ htry
    obtain ⟨hwider, htried⟩ := tryRefresh_tried hapart hheld htry
    cases htried with
    | idle o hstore hrest =>
      obtain ⟨hwider', hstore'⟩ := hrest.refreshTries hapart 255 h
      refine ⟨.trans (.of_eq hwider hstore) (.of_eq hwider' hstore'), ⟨c, ?_⟩, fun _ _ _ => ?_⟩
      · rw [hstore', hstore]
        exact hheld
      · exact hrest.onward (.of_eq hwider' hstore')

end Maintainer

/-- Views that keep out of each other's way. -/
structure ViewsApart (ms : List Maintainer) : Prop where
  keys : ms.Pairwise fun m n => m.key ≠ n.key
  apart : ∀ m ∈ ms, ∀ n ∈ ms, m.into ≠ n.cursorRel ∧ m.into ∉ n.watched ∧ m.cursorRel ∉ n.watched

/-- A row one of some views owns. -/
def OwnOf (ms : List Maintainer) (u : RelId × Tuple × Diff) : Prop := ∃ m ∈ ms, m.Own u

theorem ViewsApart.tail {m : Maintainer} {ms : List Maintainer} (h : ViewsApart (m :: ms)) : ViewsApart ms :=
  ⟨(List.pairwise_cons.1 h.keys).2, fun _ ha _ hb => h.apart _ (List.mem_cons_of_mem m ha) _ (List.mem_cons_of_mem m hb)⟩

theorem ViewsApart.self {m : Maintainer} {ms : List Maintainer} (h : ViewsApart ms) (hm : m ∈ ms) : m.Apart :=
  ⟨(h.apart m hm m hm).1, (h.apart m hm m hm).2.1, (h.apart m hm m hm).2.2⟩

/-- What one view owns is nothing to another. -/
theorem Maintainer.Own.spares {m n : Maintainer} (hkey : m.key ≠ n.key)
    (hapart : m.into ≠ n.cursorRel ∧ m.into ∉ n.watched ∧ m.cursorRel ∉ n.watched) {u : RelId × Tuple × Diff}
    (h : m.Own u) : n.Spares u := by
  obtain ⟨hinto, hrows, hcursor⟩ := hapart
  rcases h with hu | ⟨hu, hrow⟩
  · exact ⟨hu ▸ hrows, fun heq => hinto (hu.symm.trans heq.1)⟩
  · refine ⟨hu ▸ hcursor, fun heq => hkey ?_⟩
    exact Value.ent.inj (Option.some.inj (hrow.symm.trans heq.2))

/-- **A refresh of all views** commits nothing but what they own, and every one of them rests after
it. -/
theorem refreshViews_ok {schemas : SchemaCatalog} {ms : List Maintainer} {w w' : RoutedStore} {out : Result Nat}
    (hapart : ViewsApart ms) (hheld : ∀ m ∈ ms, ∃ c, m.Held w.store c) (h : refreshViews schemas ms w = (w', out)) :
    w.Onward (OwnOf ms) w' ∧ (∀ m ∈ ms, ∃ c, m.Held w'.store c) ∧
      ∀ n, out = .ok n → w'.store.current < 2 ^ 64 → ∀ m ∈ ms, m.Rested w' := by
  induction ms generalizing w w' out with
  | nil =>
    cases h
    exact ⟨.refl w, hheld, fun _ _ _ m hm => absurd hm List.not_mem_nil⟩
  | cons m ms ih =>
    have hkeys := (List.pairwise_cons.1 hapart.keys).1
    have hone : ∀ u, m.Own u → OwnOf (m :: ms) u := fun u hu => ⟨m, List.mem_cons_self, hu⟩
    have hrestOwn : ∀ u, OwnOf ms u → OwnOf (m :: ms) u := fun u ⟨n, hn, hu⟩ => ⟨n, List.mem_cons_of_mem m hn, hu⟩
    -- neither the view nor those after it write what the other reads
    have hfirst : ∀ n ∈ ms, ∀ u, m.Own u → n.Spares u := fun n hn u hu => hu.spares (hkeys n hn)
      (hapart.apart m List.mem_cons_self n (List.mem_cons_of_mem m hn))
    have hlater : ∀ u, OwnOf ms u → m.Spares u := fun u ⟨n, hn, hu⟩ => hu.spares (hkeys n hn).symm
      (hapart.apart n (List.mem_cons_of_mem m hn) m List.mem_cons_self)
    obtain ⟨c, hc⟩ := hheld m List.mem_cons_self
    unfold refreshViews at h
    cases hrefresh : m.refresh schemas w with
    | mk w₁ out₁ =>
      obtain ⟨hon, ⟨c₁, hc₁⟩, hrest⟩ := Maintainer.refresh_ok (hapart.self List.mem_cons_self) hc hrefresh
      have hheld₁ : ∀ n ∈ ms, ∃ c, n.Held w₁.store c := by
        intro n hn
        obtain ⟨c, hc⟩ := hheld n (List.mem_cons_of_mem m hn)
        exact ⟨c, hc.onward (hon.mono (hfirst n hn))⟩
      rw [hrefresh] at h
      cases out₁ with
      | error e =>
        cases h
        exact ⟨hon.mono hone, List.forall_mem_cons.2 ⟨⟨c₁, hc₁⟩, hheld₁⟩, nofun⟩
      | ok n =>
        cases hviews : refreshViews schemas ms w₁ with
        | mk w₂ out₂ =>
          obtain ⟨hon₂, hheld₂, hrest₂⟩ := ih hapart.tail hheld₁ hviews
          have hall : ∀ a ∈ m :: ms, ∃ c, a.Held w₂.store c :=
            List.forall_mem_cons.2 ⟨⟨c₁, hc₁.onward (hon₂.mono hlater)⟩, hheld₂⟩
          dsimp only at h
          rw [hviews] at h
          cases out₂ with
          | error e =>
            cases h
            exact ⟨(hon.mono hone).trans (hon₂.mono hrestOwn), hall, nofun⟩
          | ok k =>
            cases h
            refine ⟨(hon.mono hone).trans (hon₂.mono hrestOwn), hall, fun _ _ hroom => ?_⟩
            refine List.forall_mem_cons.2 ⟨?_, hrest₂ k rfl hroom⟩
            exact (hrest n rfl (lt_of_le_of_lt hon₂.current_le hroom)).onward (hon₂.mono hlater)

/-- Views that all rest are refreshed without a commit. -/
theorem refreshViews_rested {schemas : SchemaCatalog} {ms : List Maintainer} {w w' : RoutedStore} {out : Result Nat}
    (hapart : ViewsApart ms) (hrest : ∀ m ∈ ms, m.Rested w) (h : refreshViews schemas ms w = (w', out)) :
    w'.store = w.store := by
  induction ms generalizing w w' out with
  | nil =>
    cases h
    rfl
  | cons m ms ih =>
    have hm := hrest m List.mem_cons_self
    unfold refreshViews at h
    split at h
    · rename_i w₁ e hrefresh
      cases h
      exact (hm.refreshTries (hapart.self List.mem_cons_self) _ hrefresh).2
    · rename_i w₁ n hrefresh
      obtain ⟨hwider, hstore⟩ := hm.refreshTries (hapart.self List.mem_cons_self) _ hrefresh
      have hrest₁ : ∀ a ∈ ms, a.Rested w₁ :=
        fun a ha => (hrest a (List.mem_cons_of_mem m ha)).onward (.of_eq hwider hstore)
      split at h
      · rename_i w₂ e hviews
        cases h
        exact (ih hapart.tail hrest₁ hviews).trans hstore
      · rename_i w₂ k hviews
        cases h
        exact (ih hapart.tail hrest₁ hviews).trans hstore

end Grmpl

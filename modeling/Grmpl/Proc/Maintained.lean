import Grmpl.Diff.Answers
import Grmpl.Lib.Runs
import Grmpl.Proc.Derived

/-!
# A materialized view is the view at its cursor

Maintainers of one materialization race each other and everybody else's commits: each reads
the cursor, folds what the view has changed by since, and commits it guarded by the cursor
it read. At every edition what is kept is what the view answers at the cursor there.

* `Told`: what a view answers, as the changes it tells add up to it.
* `Maintenance`, `Maintenance.step`: a store, and the maintainers of a materialization.
* `Materialized.KeptAt`: what is kept as of an edition.
* `netOn_foldl_foldRow`: the rows of a fold, one for each unit of weight.
* `keptLaw_run`: the law, in every run.
-/

open OrdMap Runs

namespace Grmpl

/-- What a view answers as of each edition: nothing of the empty world, the same whatever
comes later, and its changes over an interval take one answer to the other. -/
structure Told (good : TraceStore → Prop) (ans : TraceStore → Nat → Tuple →₀ ℤ) (m : Materialized) : Prop where
  zero (s : TraceStore) : ans s 0 = 0
  commit {s : TraceStore} {e : Nat} (updates : List (RelId × Tuple × Diff)) :
    e ≤ s.current → ans (s.commit updates) e = ans s e
  consolidate (s : TraceStore) (upTo e : Nat) : ans (s.consolidate upTo) e = ans s e
  changes {s : TraceStore} {a b : Nat} {rows : Rows} : good s → s.watermark ≤ a → a ≤ b → b ≤ s.current →
    m.view s a b = .ok rows → ZSet.total rows = ans s b - ans s a

/-- Where a maintainer stands. -/
inductive Hand where
  | idle
  /-- It has read the cursor. -/
  | positioned (start : Nat)
  /-- It has the patch it will commit. -/
  | folded (patch : Patch)

/-- A store, and the maintainers of a materialization. -/
structure Maintenance where
  store : TraceStore
  hands : List Hand

namespace Maintenance

/-- What is done between two reads or commits. -/
inductive Act where
  | install
  | cursor (k : Nat)
  | fold (k : Nat)
  | commit (k : Nat)
  | crash (k : Nat)
  | other (updates : List (RelId × Tuple × Diff))
  | consolidate (upTo : Nat)

def setHand (w : Maintenance) (k : Nat) (x : Hand) : Maintenance := { w with hands := w.hands.set k x }

/-- What happens next, if it can. A commit that is rejected is tried again from the cursor;
an error gives the refresh up. -/
def step (schemas : SchemaCatalog) (m : Materialized) (w : Maintenance) : Act → Option Maintenance
  | .install => match m.install w.store schemas with
      | .ok (store, _) => some { w with store }
      | .error _ => some w
  | .cursor k => match w.hands[k]?, m.cursor w.store with
      | some .idle, .ok (some start) => some (w.setHand k (.positioned start))
      | some .idle, _ => some w
      | _, _ => none
  | .fold k => match w.hands[k]? with
      | some (.positioned start) => match m.fold w.store start with
          | .ok (some patch) => some (w.setHand k (.folded patch))
          | _ => some (w.setHand k .idle)
      | _ => none
  | .commit k => match w.hands[k]? with
      | some (.folded patch) => match commitPatch w.store schemas patch m.authority with
          | .ok (store, _) => some { w.setHand k .idle with store }
          | .error _ => some (w.setHand k .idle)
      | _ => none
  | .crash k => some (w.setHand k .idle)
  | .other updates => some { w with store := w.store.commit updates }
  | .consolidate upTo => some { w with store := w.store.consolidate upTo }

/-- Updates that leave a materialization's rows and its cursor to it. -/
def Spares (m : Materialized) (updates : List (RelId × Tuple × Diff)) : Prop :=
  ∀ u ∈ updates, u.1 ≠ m.into ∧ ¬ (u.1 = m.cursorRel ∧ u.2.1.cells[0]? = some (.ent m.key))

/-- The materialization is installed once, while all history is there, its rows are left to it,
the view can be read where it is folded, and history is not folded away past its cursor. -/
def KeepsView (good : TraceStore → Prop) (m : Materialized) (w : Maintenance) : Act → Prop
  | .install => m.cursor w.store = .ok none ∧ w.store.watermark = 0
  | .fold _ => good w.store ∧ w.store.current < 2 ^ 63
  | .other updates => Spares m updates
  | .consolidate upTo => ∀ start, m.cursor w.store = .ok (some start) → upTo ≤ start
  | _ => True

instance (m : Materialized) (updates : List (RelId × Tuple × Diff)) : Decidable (Spares m updates) :=
  inferInstanceAs (Decidable (∀ u ∈ updates, _))

/-- The condition but for the view, as a check. -/
def checkView (m : Materialized) (w : Maintenance) : Act → Bool
  | .install => decide (m.cursor w.store = .ok none ∧ w.store.watermark = 0)
  | .fold _ => decide (w.store.current < 2 ^ 63)
  | .other updates => decide (Spares m updates)
  | .consolidate _ => false
  | _ => true

theorem keepsView_of_check {good : TraceStore → Prop} (hgood : ∀ s, good s) {m : Materialized} {w : Maintenance}
    {a : Act} (h : checkView m w a = true) : KeepsView good m w a := by
  cases a with
  | install => exact of_decide_eq_true (p := m.cursor w.store = .ok none ∧ w.store.watermark = 0) h
  | fold k => exact ⟨hgood _, of_decide_eq_true h⟩
  | other updates => exact of_decide_eq_true (p := Spares m updates) h
  | consolidate upTo => cases h
  | cursor k | commit k | crash k => trivial

end Maintenance

open Maintenance

namespace Materialized

/-- What is kept of a view as of an edition: nothing before it is installed, then its cursor,
one row, and what the view answers there. -/
structure KeptAs (m : Materialized) (ans : TraceStore → Nat → Tuple →₀ ℤ) (s : TraceStore) (e : Nat)
    (c : Option Nat) : Prop where
  bound : ∀ x, c = some x → x ≤ e ∧ x < 2 ^ 63
  cursor : ∀ t : Tuple, t.cells[0]? = some (.ent m.key) →
    (s.contents e m.cursorRel).weight t = if c.map m.cursorTuple = some t then 1 else 0
  rows : (s.contents e m.into).den = c.elim 0 (ans s)

def KeptAt (m : Materialized) (ans : TraceStore → Nat → Tuple →₀ ℤ) (s : TraceStore) (e : Nat) : Prop :=
  ∃ c, m.KeptAs ans s e c

end Materialized

section Law

variable {good : TraceStore → Prop} {ans : TraceStore → Nat → Tuple →₀ ℤ} {m : Materialized} {schemas : SchemaCatalog}
  {s : TraceStore} {e : Nat} {c : Option Nat} {w w' : Maintenance} {act : Maintenance.Act}

/-! ## The rows of a fold -/

/-- One changed row adds its weight to the row, and nothing else. -/
theorem netOn_foldRow (m : Materialized) (rel : RelId) (t : Tuple) (row : Tuple × Diff) (p : Patch) :
    netOn rel t (m.foldRow p row).updates =
      netOn rel t p.updates + if m.into = rel ∧ row.1 = t then row.2 else 0 := by
  have hone : ∀ (n : Nat) (p : Patch), netOn rel t ((fun p : Patch =>
      if 0 < row.2 then p.assert ⟨m.into, row.1⟩ else p.retract ⟨m.into, row.1⟩)^[n] p).updates =
        netOn rel t p.updates + if m.into = rel ∧ row.1 = t then (if 0 < row.2 then (n : ℤ) else -n) else 0 := by
    intro n
    induction n with
    | zero => exact fun p => by simp
    | succ n ih =>
      intro p
      rw [Function.iterate_succ_apply, ih]
      by_cases hpos : 0 < row.2
      · rw [if_pos hpos, netOn_assert]
        split_ifs <;> push_cast <;> ring
      · rw [if_neg hpos, netOn_retract]
        split_ifs <;> push_cast <;> ring
  rw [Materialized.foldRow, hone]
  split_ifs with h hpos
  · rw [Int.natAbs_of_nonneg hpos.le]
  · rw [Int.ofNat_natAbs_of_nonpos (not_lt.1 hpos), neg_neg]
  · rfl

/-- **A fold adds its rows' weights**, one assert or retract for each unit. -/
theorem netOn_foldl_foldRow (m : Materialized) (rel : RelId) (t : Tuple) : ∀ (rows : Rows) (p : Patch),
    netOn rel t (rows.foldl m.foldRow p).updates =
      netOn rel t p.updates + if m.into = rel then ZSet.total rows t else 0 := by
  intro rows
  induction rows with
  | nil => exact fun p => by simp
  | cons row rows ih =>
    intro p
    rw [List.foldl_cons, ih, netOn_foldRow, ZSet.total_cons, Finsupp.add_apply, Finsupp.single_apply]
    split_ifs <;> simp_all [add_assoc]

theorem preconditions_foldl_foldRow (m : Materialized) : ∀ (rows : Rows) (p : Patch),
    (rows.foldl m.foldRow p).preconditions = p.preconditions := by
  have hone : ∀ (row : Tuple × Diff) (n : Nat) (p : Patch), ((fun p : Patch =>
      if 0 < row.2 then p.assert ⟨m.into, row.1⟩ else p.retract ⟨m.into, row.1⟩)^[n] p).preconditions =
        p.preconditions := by
    intro row n
    induction n with
    | zero => exact fun p => rfl
    | succ n ih =>
      intro p
      rw [Function.iterate_succ_apply, ih]
      split_ifs <;> rfl
  intro rows
  induction rows with
  | nil => exact fun p => rfl
  | cons row rows ih => exact fun p => (ih _).trans (hone row _ p)

/-- The cursor's move, as updates. -/
theorem netOn_advance (m : Materialized) (rel : RelId) (t : Tuple) (start upTo : Nat) :
    netOn rel t (m.advance start upTo).updates =
      (if m.cursorRel = rel ∧ m.cursorTuple start = t then -1 else 0) +
        if m.cursorRel = rel ∧ m.cursorTuple upTo = t then 1 else 0 := by
  have hmove : (m.advance start upTo).updates =
      [(m.cursorRel, m.cursorTuple start, -1), (m.cursorRel, m.cursorTuple upTo, 1)] := rfl
  rw [hmove]
  simp

/-! ## The cursor -/

theorem cursorIn_cursorTuple {a : Nat} {d : Diff} (hd : 0 < d) (ha : a < 2 ^ 63) :
    m.cursorIn (m.cursorTuple a, d) = some a := by
  unfold Materialized.cursorIn
  rw [if_pos ⟨hd, rfl⟩]
  show some (max (Int64.ofNat a).toInt 0).toNat = some a
  rw [Int64.toInt_ofNat_of_lt ha]
  simp

theorem cursorTuple_inj {a b : Nat} (ha : a < 2 ^ 63) (hb : b < 2 ^ 63) (h : m.cursorTuple a = m.cursorTuple b) :
    a = b := by
  have hread := cursorIn_cursorTuple (m := m) one_pos ha
  rw [h, cursorIn_cursorTuple one_pos hb] at hread
  exact (Option.some.inj hread).symm

/-- A row of the cursor is the cursor's. -/
theorem Materialized.KeptAs.of_row (h : m.KeptAs ans s e c) {t : Tuple} {d : Diff}
    (hmem : (t, d) ∈ s.rowsAt m.cursorRel e) (hpos : 0 < d) (hkey : t.cells[0]? = some (.ent m.key)) :
    ∃ x, c = some x ∧ x < 2 ^ 63 ∧ t = m.cursorTuple x := by
  have hw := h.cursor t hkey
  rw [ZSet.weight_of_mem (m := s.contents e m.cursorRel) hmem] at hw
  split_ifs at hw with hc
  · obtain ⟨x, rfl, rfl⟩ := Option.map_eq_some_iff.1 hc
    exact ⟨x, rfl, (h.bound x rfl).2, rfl⟩
  · exact absurd hpos (not_lt.2 hw.le)

/-- The cursor as it is read. -/
theorem Materialized.KeptAs.read (h : m.KeptAs ans s s.current c) : m.cursor s = .ok c := by
  unfold Materialized.cursor
  rw [TraceStore.readAt_current]
  refine congrArg Except.ok ?_
  show (s.rowsAt m.cursorRel s.current).findSome? m.cursorIn = c
  cases hfound : (s.rowsAt m.cursorRel s.current).findSome? m.cursorIn with
  | some e =>
    obtain ⟨⟨t, d⟩, hmem, he⟩ := List.exists_of_findSome?_eq_some hfound
    have hrow := he
    unfold Materialized.cursorIn at hrow
    split_ifs at hrow with hkey
    obtain ⟨x, rfl, hroom, rfl⟩ := h.of_row hmem hkey.1 hkey.2
    exact he.symm.trans (cursorIn_cursorTuple hkey.1 hroom)
  | none =>
    cases c with
    | none => rfl
    | some x =>
      have hw := h.cursor (m.cursorTuple x) rfl
      rw [if_pos (by rfl)] at hw
      have hnone := List.findSome?_eq_none_iff.1 hfound _ (TraceStore.mem_rowsAt.2 ⟨one_ne_zero, hw⟩)
      rw [cursorIn_cursorTuple one_pos (h.bound x rfl).2] at hnone
      cases hnone

/-! ## What commits do to what is kept -/

theorem weight_contents_commit (s : TraceStore) (updates : List (RelId × Tuple × Diff)) (rel : RelId) (t : Tuple) :
    ((s.commit updates).contents (s.current + 1) rel).weight t =
      (s.contents s.current rel).weight t + netOn rel t updates := by
  have hw := s.weight_commit updates rel t
  rw [TraceStore.weight, TraceStore.current_commit] at hw
  exact hw

/-- What is kept as of an edition stays so. -/
theorem Materialized.KeptAs.later (ht : Told good ans m) (h : m.KeptAs ans s e c) (hle : e ≤ s.current)
    (updates : List (RelId × Tuple × Diff)) : m.KeptAs ans (s.commit updates) e c := by
  refine ⟨h.bound, fun t hkey => ?_, ?_⟩
  · rw [contents_commit hle]
    exact h.cursor t hkey
  · rw [contents_commit hle, h.rows]
    cases c with
    | none => rfl
    | some x => exact (ht.commit updates ((h.bound x rfl).1.trans hle)).symm

/-- What a commit makes of what is kept. -/
theorem Materialized.KeptAs.next (h : m.KeptAs ans s s.current c) {updates : List (RelId × Tuple × Diff)}
    {c' : Option Nat} (hbound : ∀ x, c' = some x → x ≤ s.current + 1 ∧ x < 2 ^ 63)
    (hcursor : ∀ t : Tuple, t.cells[0]? = some (.ent m.key) →
      (if c.map m.cursorTuple = some t then 1 else 0) + netOn m.cursorRel t updates =
        if c'.map m.cursorTuple = some t then 1 else 0)
    (hrows : ∀ t, c.elim 0 (ans s) t + netOn m.into t updates = c'.elim 0 (ans (s.commit updates)) t) :
    m.KeptAs ans (s.commit updates) (s.current + 1) c' := by
  refine ⟨hbound, fun t hkey => ?_, Finsupp.ext fun t => ?_⟩
  · rw [weight_contents_commit, h.cursor t hkey, hcursor t hkey]
  · rw [ZSet.den_apply, weight_contents_commit, ← ZSet.den_apply, h.rows, hrows]

/-- Updates elsewhere leave it as it is. -/
theorem Materialized.KeptAs.spared (ht : Told good ans m) (h : m.KeptAs ans s s.current c)
    {updates : List (RelId × Tuple × Diff)} (hs : Maintenance.Spares m updates) :
    m.KeptAs ans (s.commit updates) (s.current + 1) c := by
  refine h.next (fun x hx => ⟨Nat.le_succ_of_le (h.bound x hx).1, (h.bound x hx).2⟩) (fun t hkey => ?_) fun t => ?_
  · rw [netOn_eq_zero fun u hu hrow => (hs u hu).2 ⟨hrow.1, by rw [hrow.2]; exact hkey⟩, add_zero]
  · rw [netOn_eq_zero fun u hu hrow => (hs u hu).1 hrow.1, add_zero]
    cases c with
    | none => rfl
    | some x => exact congrArg (· t) (ht.commit updates (h.bound x rfl).1).symm

/-- The first row of the cursor, at the empty world. -/
theorem Materialized.KeptAs.installed (ht : Told good ans m) (hapart : m.into ≠ m.cursorRel)
    (h : m.KeptAs ans s s.current none) :
    m.KeptAs ans (s.commit (Patch.new.assert ⟨m.cursorRel, m.cursorTuple 0⟩).updates) (s.current + 1) (some 0) := by
  have hnew : ∀ rel t, netOn rel t Patch.new.updates = 0 := fun _ _ => rfl
  refine h.next (fun x hx => ?_) (fun t _ => ?_) fun t => ?_
  · cases hx
    exact ⟨Nat.zero_le _, by decide⟩
  · rw [netOn_assert, hnew]
    simp
  · rw [netOn_assert, hnew, if_neg fun hrow => hapart hrow.1.symm, Option.elim_none, Option.elim_some, ht.zero]
    rfl

/-- **A fold that goes through** takes what is kept from the view at one cursor to the view at
the next. -/
theorem Materialized.KeptAs.moved (ht : Told good ans m) (hapart : m.into ≠ m.cursorRel) {start upTo : Nat} {rows : Rows}
    (h : m.KeptAs ans s s.current (some start)) (hle : upTo ≤ s.current) (hroom : upTo < 2 ^ 63)
    (hrows : ZSet.total rows = ans s upTo - ans s start) :
    m.KeptAs ans (s.commit (rows.foldl m.foldRow (m.advance start upTo)).updates) (s.current + 1) (some upTo) := by
  refine h.next (fun x hx => ?_) (fun t _ => ?_) fun t => ?_
  · cases hx
    exact ⟨Nat.le_succ_of_le hle, hroom⟩
  · rw [netOn_foldl_foldRow, if_neg hapart, add_zero, netOn_advance]
    simp only [Option.map_some, Option.some.injEq, true_and]
    split_ifs <;> rfl
  · rw [netOn_foldl_foldRow, if_pos rfl, netOn_advance, if_neg fun hrow => hapart hrow.1.symm,
      if_neg fun hrow => hapart hrow.1.symm, hrows, Finsupp.sub_apply, Option.elim_some, Option.elim_some,
      ht.commit _ hle]
    ring

/-! ## The law -/

/-- What a maintainer is about to commit is what the view changed by over an interval. -/
def Hand.Sound (m : Materialized) (ans : TraceStore → Nat → Tuple →₀ ℤ) (s : TraceStore) : Hand → Prop
  | .folded patch => ∃ start upTo rows, patch = rows.foldl m.foldRow (m.advance start upTo) ∧ start < upTo ∧
      upTo ≤ s.current ∧ upTo < 2 ^ 63 ∧ (s.watermark ≤ start → ZSet.total rows = ans s upTo - ans s start)
  | _ => True

theorem Hand.Sound.commit (ht : Told good ans m) {x : Hand} (h : x.Sound m ans s)
    (updates : List (RelId × Tuple × Diff)) : x.Sound m ans (s.commit updates) := by
  cases x with
  | idle | positioned start => trivial
  | folded patch =>
    obtain ⟨start, upTo, rows, hpatch, hlt, hle, hroom, hrows⟩ := h
    refine ⟨start, upTo, rows, hpatch, hlt, hle.trans ?_, hroom, fun hmark => ?_⟩
    · rw [TraceStore.current_commit]
      exact Nat.le_succ _
    · rw [hrows hmark, ht.commit updates hle, ht.commit updates (hlt.le.trans hle)]

theorem Hand.Sound.consolidate (ht : Told good ans m) {x : Hand} (h : x.Sound m ans s) (upTo : Nat) :
    x.Sound m ans (s.consolidate upTo) := by
  cases x with
  | idle | positioned start => trivial
  | folded patch =>
    obtain ⟨start, last, rows, hpatch, hlt, hle, hroom, hrows⟩ := h
    refine ⟨start, last, rows, hpatch, hlt, hle, hroom, fun hmark => ?_⟩
    rw [hrows ((le_max_left _ _).trans hmark), ht.consolidate, ht.consolidate]

/-- What a refresh folds is what the view changed by. -/
theorem fold_sound (ht : Told good ans m) (hgood : good s) (hroom : s.current < 2 ^ 63) {start : Nat} {patch : Patch}
    (h : m.fold s start = .ok (some patch)) : (Hand.folded patch).Sound m ans s := by
  unfold Materialized.fold at h
  dsimp only at h
  split at h
  · cases h
  · rename_i hlt
    obtain ⟨quiet, -, h⟩ := bind_ok h
    cases quiet with
    | true => cases h
    | false =>
      obtain ⟨rows, hrows, h⟩ := bind_ok h
      cases h
      exact ⟨start, s.current, rows, rfl, not_le.1 hlt, le_rfl, hroom, fun hmark =>
        ht.changes hgood hmark (not_le.1 hlt).le le_rfl hrows⟩

/-- At every edition what is kept is the view at the cursor there, and history reaches back to
the cursor. -/
structure KeptLaw (m : Materialized) (ans : TraceStore → Nat → Tuple →₀ ℤ) (w : Maintenance) : Prop where
  kept : ∀ e < w.store.current, m.KeptAt ans w.store e
  now : ∃ c, m.KeptAs ans w.store w.store.current c ∧ ∀ x, c = some x → w.store.watermark ≤ x
  hands : ∀ x ∈ w.hands, x.Sound m ans w.store

/-- A commit keeps what was kept, and what it makes of it is to be said. -/
theorem KeptLaw.commit (ht : Told good ans m) (h : KeptLaw m ans w) {updates : List (RelId × Tuple × Diff)}
    {hands : List Hand} (hhands : ∀ x ∈ hands, x ∈ w.hands ∨ x = .idle)
    (hnow : ∃ c, m.KeptAs ans (w.store.commit updates) (w.store.current + 1) c ∧ ∀ x, c = some x → w.store.watermark ≤ x) :
    KeptLaw m ans ⟨w.store.commit updates, hands⟩ := by
  refine ⟨fun e he => ?_, ?_, fun x hx => ?_⟩
  · dsimp only at he
    rw [TraceStore.current_commit] at he
    rcases Nat.lt_succ_iff_lt_or_eq.1 he with hlt | rfl
    · obtain ⟨c, hc⟩ := h.kept e hlt
      exact ⟨c, hc.later ht hlt.le updates⟩
    · obtain ⟨c, hc, -⟩ := h.now
      exact ⟨c, hc.later ht le_rfl updates⟩
  · dsimp only
    rw [TraceStore.current_commit]
    exact hnow
  · rcases hhands x hx with hx | rfl
    · exact (h.hands x hx).commit ht updates
    · trivial

/-- A maintainer that goes on to what is sound changes nothing else. -/
theorem KeptLaw.setHand (h : KeptLaw m ans w) (k : Nat) {x : Hand} (hx : x.Sound m ans w.store) :
    KeptLaw m ans (w.setHand k x) := by
  refine ⟨h.kept, h.now, fun y hy => ?_⟩
  rcases List.mem_or_eq_of_mem_set hy with hy | rfl
  · exact h.hands y hy
  · exact hx

theorem keptLaw_step (ht : Told good ans m) (hapart : m.into ≠ m.cursorRel) (h : KeptLaw m ans w)
    (hok : w.KeepsView good m act) (hstep : w.step schemas m act = some w') : KeptLaw m ans w' := by
  obtain ⟨c, hc, hmark⟩ := h.now
  cases act with
  | install =>
    obtain ⟨hnone, hzero⟩ := hok
    rw [hc.read] at hnone
    cases hnone
    simp only [Maintenance.step] at hstep
    split at hstep
    · rename_i store outcome hinstall
      cases hstep
      rcases commitPatchChecked_ok hinstall with ⟨-, rfl⟩ | ⟨-, -, rfl⟩
      · exact h
      · refine h.commit ht (fun x hx => .inl hx) ⟨some 0, hc.installed ht hapart, fun x hx => ?_⟩
        cases hx
        exact hzero.le
    · cases hstep
      exact h
  | cursor k =>
    simp only [Maintenance.step] at hstep
    split at hstep
    · cases hstep
      exact h.setHand k trivial
    · cases hstep
      exact h
    · cases hstep
  | fold k =>
    simp only [Maintenance.step] at hstep
    split at hstep
    · split at hstep
      · rename_i patch hfold
        cases hstep
        exact h.setHand k (fold_sound ht hok.1 hok.2 hfold)
      · cases hstep
        exact h.setHand k trivial
    · cases hstep
  | commit k =>
    simp only [Maintenance.step] at hstep
    split at hstep
    · rename_i patch hk
      have hidle := h.setHand k (x := .idle) trivial
      split at hstep
      · rename_i store outcome hcommit
        cases hstep
        rcases commitPatchChecked_ok hcommit with ⟨-, rfl⟩ | ⟨-, hholds, rfl⟩
        · exact hidle
        · obtain ⟨start, upTo, rows, rfl, hlt, hle, hroom, hrows⟩ := h.hands _ (List.mem_of_getElem? hk)
          -- the guard held, so the cursor is where it was read
          have hguard := hholds ⟨m.cursorRel, m.cursorTuple start⟩ (by
            rw [preconditions_foldl_foldRow]
            exact List.mem_singleton_self _)
          have hw := hc.cursor (m.cursorTuple start) rfl
          rw [show (w.store.contents w.store.current m.cursorRel).weight (m.cursorTuple start) =
            w.store.weight m.cursorRel (m.cursorTuple start) from rfl] at hw
          rw [hw] at hguard
          split_ifs at hguard with hat
          · obtain ⟨x, rfl, hx⟩ := Option.map_eq_some_iff.1 hat
            obtain rfl := cursorTuple_inj (hc.bound x rfl).2 (hlt.trans hroom) hx
            refine hidle.commit ht (fun y hy => .inl hy)
              ⟨some upTo, hc.moved ht hapart hle hroom (hrows (hmark x rfl)), fun y hy => ?_⟩
            cases hy
            exact (hmark x rfl).trans hlt.le
          · exact absurd hguard (lt_irrefl 0)
      · cases hstep
        exact hidle
    · cases hstep
  | crash k =>
    cases hstep
    exact h.setHand k trivial
  | other updates =>
    cases hstep
    exact h.commit ht (fun x hx => .inl hx) ⟨c, hc.spared ht hok, hmark⟩
  | consolidate upTo =>
    cases hstep
    have hsame : ∀ {e : Nat} {c : Option Nat}, m.KeptAs ans w.store e c → m.KeptAs ans (w.store.consolidate upTo) e c := by
      intro e c hc
      refine ⟨hc.bound, hc.cursor, ?_⟩
      rw [show (w.store.consolidate upTo).contents e m.into = w.store.contents e m.into from rfl, hc.rows]
      cases c with
      | none => rfl
      | some x => exact (ht.consolidate w.store upTo x).symm
    refine ⟨fun e he => ?_, ⟨c, hsame hc, fun x hx => ?_⟩, fun x hx => (h.hands x hx).consolidate ht upTo⟩
    · obtain ⟨c, hc⟩ := h.kept e he
      exact ⟨c, hsame hc⟩
    · have hle := hok x (hc.read.trans (congrArg Except.ok hx))
      exact max_le (hmark x hx) ((min_le_left _ _).trans hle)

theorem keptLaw_start (hfresh : ∀ updates ∈ s.patches, Maintenance.Spares m updates) (n : Nat) :
    KeptLaw m ans ⟨s, .replicate n .idle⟩ := by
  have hnone : ∀ e, m.KeptAs ans s e none := by
    intro e
    have hspare : ∀ u ∈ (s.patches.take e).flatten, u.1 ≠ m.into ∧
        ¬ (u.1 = m.cursorRel ∧ u.2.1.cells[0]? = some (.ent m.key)) := by
      intro u hu
      obtain ⟨updates, hmem, hu⟩ := List.mem_flatten.1 hu
      exact hfresh updates (List.mem_of_mem_take hmem) u hu
    refine ⟨(fun x hx => by cases hx), fun t hkey => ?_, Finsupp.ext fun t => ?_⟩
    · rw [TraceStore.weight_contents, netOn_eq_zero fun u hu hrow =>
        (hspare u hu).2 ⟨hrow.1, by rw [hrow.2]; exact hkey⟩]
      rfl
    · rw [ZSet.den_apply, TraceStore.weight_contents, netOn_eq_zero fun u hu hrow => (hspare u hu).1 hrow.1]
      rfl
  refine ⟨fun e _ => ⟨none, hnone e⟩, ⟨none, hnone _, fun x hx => by cases hx⟩, fun x hx => ?_⟩
  rw [List.eq_of_mem_replicate hx]
  trivial

/-- **At every edition what is kept of a view is the view at its cursor there**, however
refreshes race each other and everybody else. -/
theorem keptLaw_run (ht : Told good ans m) (hapart : m.into ≠ m.cursorRel)
    (hfresh : ∀ updates ∈ s.patches, Maintenance.Spares m updates) {n : Nat}
    (hrun : Run (Maintenance.step schemas m) (Maintenance.KeepsView good m) ⟨s, .replicate n .idle⟩ w) : KeptLaw m ans w :=
  hrun.invariant (keptLaw_start hfresh n) fun _ _ _ hv hok hst => keptLaw_step ht hapart hv hok hst

end Law

end Grmpl

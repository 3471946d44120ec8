import Grmpl.Proc.Transparent
import Grmpl.Proc.Watched
import Grmpl.Proc.OneSequence

/-!
# What a watch delivers of a plan

However many pumps race for a watch, what it has appended is, row by row, what its plan has
changed by since it was installed, and a pump that appends nothing leaves nothing to tell.

* `OnWatch.Tells`: a watch of a plan.
* `onWatch_exact`: every run.
-/

open OrdMap Runs

namespace Grmpl

/-- A watch of a plan: it appends what the plan's changes are evaluated to, in order, and is
quiet where the store can tell that nothing the plan reads was touched. -/
structure OnWatch.Tells (fuel : Nat) (serve : TraceStore → DynTraceStore) (q : Query) (o : OnWatch) :
    Prop where
  settled : o.Settled
  view (s : TraceStore) {a b : Nat} (rows : Rows) : a ≤ b →
    (o.view s a b = .ok rows ↔ ∃ d, evalDelta fuel (serve s) a b q = .ok d ∧ rows = toSortedVec d)
  quiet (s : TraceStore) (a b : Nat) : o.quiet s a b = q.untouched (serve s) a b

/-- What a watch has appended since it was installed: in batches end to end, the rows its plan
has changed by up to its cursor. A pump that would append no more has nothing left to tell. -/
structure OnWatch.Exact (fuel : Nat) (q : Query) (o : OnWatch) (w : Watched) (start last : Nat) : Prop where
  consecutive : Consecutive start (w.batches o) last
  cursor : w.room.store.weight o.cursorRel (o.cursorTuple last) = 1
  rows : ∃ rows : Rows, (w.batches o).flatMap Batch.bodies = rows.map (fun r => activationBody r.2 r.1) ∧
    ZSet.total rows = answerDen fuel q w.room.store last - answerDen fuel q w.room.store start
  pumped : last ≤ w.room.store.current → ∃ x, o.batch w.room.store last = .ok x ∧ (x = none →
    answerDen fuel q w.room.store last = answerDen fuel q w.room.store w.room.store.current)

/-- Batches end to end add up to what an answer changes by from the first to the last. -/
theorem Consecutive.sum (ans : Nat → Tuple →₀ ℤ) : ∀ {bs : List Batch} {start last : Nat},
    Consecutive start bs last → (∀ b ∈ bs, start ≤ b.start → b.start < b.upTo → ∃ rows : Rows,
      b.bodies = rows.map (fun r => activationBody r.2 r.1) ∧ ZSet.total rows = ans b.upTo - ans b.start) →
    start ≤ last ∧ ∃ rows : Rows, bs.flatMap Batch.bodies = rows.map (fun r => activationBody r.2 r.1) ∧
      ZSet.total rows = ans last - ans start := by
  intro bs
  induction bs with
  | nil =>
    rintro start _ rfl -
    exact ⟨le_rfl, [], rfl, by rw [sub_self, ZSet.total_nil]⟩
  | cons b bs ih =>
    rintro _ last ⟨rfl, hlt, hrest⟩ hb
    obtain ⟨rows, hrows, hsum⟩ := hb b List.mem_cons_self le_rfl hlt
    obtain ⟨hle, more, hmore, hmoresum⟩ := ih hrest fun b' hb' hle =>
      hb b' (List.mem_cons_of_mem _ hb') (hlt.le.trans hle)
    refine ⟨hlt.le.trans hle, rows ++ more, ?_, ?_⟩
    · rw [List.flatMap_cons, hrows, hmore, List.map_append]
    · rw [ZSet.total_append, hsum, hmoresum, add_comm, sub_add_sub_cancel]

section Runs

variable {fuel : Nat} {serve : TraceStore → DynTraceStore} {q : Query} {o : OnWatch} {schemas : SchemaCatalog}
  {s : TraceStore} {w : Watched}

/-- A pump goes through, and one that appends nothing leaves nothing untold. -/
theorem OnWatch.Tells.pumped (h : o.Tells fuel serve q) (hread : Answerable fuel (serve s) q s) {last : Nat}
    (hmark : s.watermark ≤ last) (hle : last ≤ s.current) : ∃ x, o.batch s last = .ok x ∧
      (x = none → answerDen fuel q s last = answerDen fuel q s s.current) := by
  unfold OnWatch.batch
  dsimp only
  split_ifs with hpast
  · exact ⟨none, rfl, fun _ => by rw [le_antisymm hle hpast]⟩
  · obtain ⟨u, hu, hsame⟩ := @untouched_spec fuel _ _ _ _ hread.keeps hle q
    rw [h.quiet, hu]
    cases u with
    | true => exact ⟨none, rfl, fun _ => by rw [answerDen, hsame rfl, ← answerDen]⟩
    | false =>
      obtain ⟨d, hd, htotal⟩ := hread.total_delta hmark hle le_rfl
      rw [(h.view s _ hle).2 ⟨d, hd, rfl⟩]
      cases hempty : toSortedVec d with
      | nil =>
        rw [hempty, ZSet.total_nil] at htotal
        exact ⟨none, rfl, fun _ => (sub_eq_zero.1 htotal.symm).symm⟩
      | cons row rows => exact ⟨_, rfl, fun hnone => by cases hnone⟩

/-- **A watch delivers what its plan changes by, once**, in every run that leaves it its cursor. -/
theorem onWatch_exact (htells : o.Tells fuel serve q)
    (hfresh : ∀ t, o.Own o.cursorRel t → s.weight o.cursorRel t = 0) {n : Nat}
    (hrun : Run (Watched.step schemas) (fun v a => KeepsWatch o v.room a) (.start s n) w)
    (hread : Answerable fuel (serve w.room.store) q w.room.store) :
    ∀ start ∈ w.starts o, w.room.store.watermark ≤ start → ∃ last, o.Exact fuel q w start last := by
  intro start hstart hmark
  obtain ⟨hfed, -⟩ := fed_run htells.settled hfresh hrun
  rcases hfed.cursor with ⟨hstarts, -, -⟩ | ⟨start', last, hstarts, hc, -, hrow⟩
  · rw [hstarts] at hstart
    cases hstart
  · obtain rfl : start = start' := by rwa [hstarts, List.mem_singleton] at hstart
    obtain ⟨hle, hrows⟩ := hc.sum (answerDen fuel q w.room.store) fun b hb hle hlt => by
      obtain ⟨x, hx, hxb⟩ := List.mem_filterMap.1 hb
      rcases hfed.appended x hx with hspares | ⟨a, upTo, rows, hlt', hupTo, hroom, hrows, -, rfl⟩
      · rw [OnWatch.batchOf_spares hspares] at hxb
        cases hxb
      · rw [OnWatch.batchOf_pumped hlt' hroom] at hxb
        cases hxb
        obtain ⟨d, hd, rfl⟩ := (htells.view _ _ hlt.le).1 hrows
        obtain ⟨d', hd', hsum⟩ := hread.total_delta (hmark.trans hle) hlt.le hupTo
        cases hd.symm.trans hd'
        exact ⟨_, rfl, hsum⟩
    exact ⟨last, hc, (hrow _ ⟨rfl, rfl⟩).trans (if_pos rfl), hrows, htells.pumped hread (hmark.trans hle)⟩

end Runs

/-- Sends the rows of relation 1, each once. -/
def presentWatch : OnWatch := { doorWatch with
  view := fun s a b => if a ≤ b then presentKept.view s a b else .ok []
  quiet := fun s a b => presentRows.untouched s.telling a b }

theorem presentWatch_tells : presentWatch.Tells 0 TraceStore.telling presentRows where
  settled s updates a b hle := by
    show (if a ≤ b then presentKept.view (s.commit updates) a b else _) = if a ≤ b then presentKept.view s a b else _
    split_ifs with hab
    · have hread : ∀ e ≤ b, (s.commit updates).readAt 1 e = s.readAt 1 e := fun e he => by
        unfold TraceStore.readAt
        rw [TraceStore.rowsAt_commit (he.trans hle)]
        rfl
      have hcompare : (s.commit updates).telling.compare 1 a b = s.telling.compare 1 a b := by
        unfold TraceStore.telling TraceStore.dyn
        dsimp only
        rw [hread a hab, hread b le_rfl]
      unfold presentKept presentRows
      simp only [evalDelta, baseOf, hcompare]
    · rfl
  view s a b rows hab := by
    show (if a ≤ b then presentKept.view s a b else _) = _ ↔ _
    rw [if_pos hab]
    unfold presentKept
    dsimp only
    split
    · rename_i d hd
      simp [hd, eq_comm]
    · rename_i e he
      simp [he]
    · rename_i he
      simp [he]
  quiet _ _ _ := rfl

/-- Installed, the relation changed, and pumped. -/
def pumpedOnce : List Mailroom.Act :=
  [.install 0 presentWatch 1, .commit 0, .other [(1, pair 1 3, 1)], .cursor 0 presentWatch, .batch 0, .draw 0, .commit 0]

theorem onWatch_exact_pumped : ∃ w last, w.batches presentWatch = [⟨1, 3, [activationBody 1 (pair 1 3)]⟩] ∧
    presentWatch.Exact 0 presentRows w 1 last := by
  have hkept : ∀ a ∈ pumpedOnce, ∀ v : Watched, checkWatch presentWatch v.room a = true →
      KeepsWatch presentWatch v.room a := fun a ha v => keepsWatch_of_check fun k watch hk => by
    subst hk
    simp only [pumpedOnce, List.mem_cons, Mailroom.Act.cursor.injEq, reduceCtorEq, List.not_mem_nil, or_false,
      false_or] at ha
    exact fun _ _ => ha.2
  have hrun : Run (Watched.step noSchemas) (fun v a => KeepsWatch presentWatch v.room a) (.start onePair 1) _ :=
    Run.afterCheckedAll hkept (by decide +kernel)
  obtain ⟨last, hlast⟩ := onWatch_exact presentWatch_tells (fun t ht => rfl) hrun
    (presentRows_answerable (TraceStore.telling_keeps _)) 1 (by decide +kernel) (by decide +kernel)
  exact ⟨_, last, by decide +kernel, hlast⟩

end Grmpl

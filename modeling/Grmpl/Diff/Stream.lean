import Grmpl.Diff.Answers
import Grmpl.Lib.Runs

/-!
# A query as a stream of changes

A stream delivers a plan's snapshot at the edition it starts from, and from then on, each
time it is asked, what the plan has changed by since it was last asked. What it has delivered
adds up to the plan's answer at its cursor.

* `DeltaStream`, `DeltaStream.poll`: the code.
* `Streaming`, `Streaming.step`: a store that is committed to, and a stream over it.
* `InStep`: what was delivered is the answer at the cursor.
* `deltaStream_exact`: every run.
-/

open OrdMap Runs

namespace Grmpl

/-- The rows of a collection in order, without those that cancelled. -/
def toSortedVec (m : Multiset) : Rows := m.rows.filter fun e => e.2 ≠ 0

theorem total_toSortedVec (m : Multiset) : ZSet.total (toSortedVec m) = m.den := ZSet.total_nonzero m.rows

structure DeltaStream where
  query : Query
  cursor : Nat
  started : Bool

namespace DeltaStream

def new (query : Query) (start : Nat) : DeltaStream := ⟨query, start, false⟩

/-- The next batch: the snapshot at first, then what changed up to the current edition. -/
def poll (fuel : Nat) (store : DynTraceStore) (s : DeltaStream) : Except Fault Rows × DeltaStream :=
  if s.started then
    if store.current = s.cursor then (.ok [], s)
    else match evalDelta fuel store s.cursor store.current s.query with
      | .ok delta => (.ok (toSortedVec delta), { s with cursor := store.current })
      | .error e => (.error e, s)
  else
    -- it counts as started whether the snapshot goes through or not
    match evalSnapshot fuel s.query store s.cursor with
    | .ok snap => (.ok (toSortedVec snap), { s with started := true })
    | .error e => (.error e, { s with started := true })

end DeltaStream

/-! ## Commits and polls -/

/-- A store's history, a stream over it, and what the stream has delivered. -/
structure Streaming where
  hist : TraceStore
  stream : DeltaStream
  delivered : Rows

namespace Streaming

/-- A commit, a fold of the history up to an edition, or a poll. -/
inductive Act where
  | commit (updates : List (RelId × Tuple × Diff))
  | consolidate (upTo : Nat)
  | poll

variable (fuel : Nat) (serve : TraceStore → DynTraceStore)

/-- What happens next; the store serves the history as it is then. -/
def step (w : Streaming) : Act → Option Streaming
  | .commit updates => some { w with hist := w.hist.commit updates }
  | .consolidate upTo => some { w with hist := w.hist.consolidate upTo }
  | .poll => match w.stream.poll fuel (serve w.hist) with
      | (.ok batch, stream) => some { w with stream, delivered := w.delivered ++ batch }
      | (.error _, stream) => some { w with stream }

/-- The plan can be read over what is committed, and no history from the cursor on is folded
away. -/
def KeepsReading (q : Query) (w : Streaming) : Act → Prop
  | .commit updates => Answerable fuel (serve (w.hist.commit updates)) q (w.hist.commit updates)
  | .consolidate upTo => upTo ≤ w.stream.cursor ∧
      Answerable fuel (serve (w.hist.consolidate upTo)) q (w.hist.consolidate upTo)
  | .poll => True

/-- A stream that has just been made. -/
def start (q : Query) (hist : TraceStore) (from' : Nat) : Streaming := ⟨hist, .new q from', []⟩

end Streaming

/-- What a stream has delivered adds up to the plan's answer at its cursor, and another poll
goes through and leaves the cursor at the current edition, unless it is the first. -/
structure InStep (fuel : Nat) (serve : TraceStore → DynTraceStore) (w : Streaming) : Prop where
  unstarted : w.stream.started = false → w.delivered = []
  started : w.stream.started = true →
    ∃ m, w.hist.answer fuel w.stream.cursor w.stream.query = .ok m ∧ ZSet.total w.delivered = m.den
  polled : ∃ batch, (w.stream.poll fuel (serve w.hist)).1 = .ok batch ∧
    (w.stream.started = true → (w.stream.poll fuel (serve w.hist)).2.cursor = w.hist.current)

section Runs

variable {fuel : Nat} {serve : TraceStore → DynTraceStore} {q : Query} {w w' : Streaming} {a : Streaming.Act}

/-- What every step keeps: the cursor lies in the history that can be read. -/
structure Following (fuel : Nat) (serve : TraceStore → DynTraceStore) (q : Query) (w : Streaming) : Prop where
  query : w.stream.query = q
  readable : Answerable fuel (serve w.hist) q w.hist
  mark : w.hist.watermark ≤ w.stream.cursor
  within : w.stream.cursor ≤ w.hist.current
  unstarted : w.stream.started = false → w.delivered = []
  started : w.stream.started = true →
    ∃ m, w.hist.answer fuel w.stream.cursor q = .ok m ∧ ZSet.total w.delivered = m.den

/-- **A poll** delivers the snapshot at the cursor, and from then on what takes the answer
there to the answer at the current edition. -/
theorem Following.poll (h : Following fuel serve q w) : ∃ batch stream,
    w.stream.poll fuel (serve w.hist) = (.ok batch, stream) ∧
      Following fuel serve q { w with stream, delivered := w.delivered ++ batch } ∧
        (w.stream.started = true → stream.cursor = w.hist.current) := by
  have hcurrent := h.readable.keeps.current
  obtain ⟨m, hm⟩ := h.readable.answers _ h.within
  cases hstarted : w.stream.started with
  | false =>
    refine ⟨toSortedVec m, { w.stream with started := true }, ?_, ⟨h.query, h.readable, h.mark, h.within, ?_, ?_⟩,
      fun hs => by cases hs⟩
    · have hsnap : evalSnapshot fuel w.stream.query (serve w.hist) w.stream.cursor = .ok m := by
        rw [h.query, h.readable.snapshot h.mark h.within, hm]
      rw [DeltaStream.poll, if_neg (by rw [hstarted]; decide), hsnap]
    · exact fun hs => by cases hs
    · refine fun _ => ⟨m, hm, ?_⟩
      rw [h.unstarted hstarted, List.nil_append, total_toSortedVec]
  | true =>
    obtain ⟨m', hm', htotal⟩ := h.started hstarted
    cases hm.symm.trans hm'
    by_cases heq : w.hist.current = w.stream.cursor
    · refine ⟨[], w.stream, ?_, ⟨h.query, h.readable, h.mark, h.within, ?_, ?_⟩, fun _ => heq.symm⟩
      · rw [DeltaStream.poll, if_pos hstarted, if_pos (hcurrent.trans heq)]
      · exact fun hs => by
          rw [hstarted] at hs
          cases hs
      · refine fun _ => ⟨m, hm, ?_⟩
        rw [List.append_nil, htotal]
    · obtain ⟨n, hn⟩ := h.readable.answers _ le_rfl
      have hdelta : evalDelta fuel (serve w.hist) w.stream.cursor w.hist.current w.stream.query =
          .ok (n.difference m) := by
        rw [h.query]
        exact h.readable.delta h.mark h.within le_rfl hm hn
      refine ⟨toSortedVec (n.difference m), { w.stream with cursor := w.hist.current }, ?_,
        ⟨h.query, h.readable, w.hist.watermark_le, le_rfl, ?_, ?_⟩, fun _ => rfl⟩
      · rw [DeltaStream.poll, if_pos hstarted, hcurrent, if_neg heq, hdelta]
      · exact fun hs => by
          rw [hstarted] at hs
          cases hs
      · refine fun _ => ⟨n, hn, ?_⟩
        rw [ZSet.total_append, htotal, total_toSortedVec, (ZSet.change_difference n m).den]
        exact add_sub_cancel _ _

theorem following_step (h : Following fuel serve q w) (hok : w.KeepsReading fuel serve q a)
    (hstep : w.step fuel serve a = some w') : Following fuel serve q w' := by
  cases a with
  | commit updates =>
    cases hstep
    have hle : w.hist.current ≤ (w.hist.commit updates).current := by
      rw [TraceStore.current_commit]
      exact Nat.le_succ _
    refine ⟨h.query, hok, h.mark, h.within.trans hle, h.unstarted, fun hs => ?_⟩
    obtain ⟨m, hm, htotal⟩ := h.started hs
    exact ⟨m, (answer_commit h.within updates).trans hm, htotal⟩
  | consolidate upTo =>
    cases hstep
    refine ⟨h.query, hok.2, max_le h.mark ((min_le_left _ _).trans hok.1), h.within, h.unstarted, h.started⟩
  | poll =>
    obtain ⟨batch, stream, hpoll, hnext, -⟩ := h.poll
    rw [Streaming.step, hpoll] at hstep
    cases hstep
    exact hnext

/-- **What a stream delivers adds up to the plan's answer at its cursor**, whatever is
committed between its polls. -/
theorem deltaStream_exact {hist : TraceStore} {from' : Nat} (hread : Answerable fuel (serve hist) q hist)
    (hmark : hist.watermark ≤ from') (hwithin : from' ≤ hist.current)
    (hrun : Run (Streaming.step fuel serve) (Streaming.KeepsReading fuel serve q) (.start q hist from') w) :
    InStep fuel serve w := by
  have h : Following fuel serve q w := hrun.invariant
    ⟨rfl, hread, hmark, hwithin, fun _ => rfl, fun hs => by cases hs⟩ fun _ _ _ hv hok hst => following_step hv hok hst
  obtain ⟨batch, stream, hpoll, -, hcaught⟩ := h.poll
  refine ⟨h.unstarted, fun hs => h.query ▸ h.started hs, batch, ?_, ?_⟩
  · rw [hpoll]
  · rw [hpoll]
    exact hcaught

/-- The rows of relation 1, each once. -/
def presentRows : Query := .distinct (.rel 1)

theorem presentRows_answerable {store : DynTraceStore} {hist : TraceStore} (hk : Keeps store hist) :
    Answerable 0 store presentRows hist where
  keeps := hk
  addressed _ _ _ h := h.elim
  answers at' _ := by
    obtain ⟨rows, hrows, -⟩ := (TraceStore.forwardingReader_keeps (h := hist.whole) (Nat.zero_le at')).read 1
    refine ⟨(ZSet.ofPairs rows).positive, ?_⟩
    show (do return (← (do return ZSet.ofPairs (← ask ((hist.whole.forwardingReader at').read 1)))).positive) = _
    rw [hrows]
    rfl
  copies _ _ _ := trivial
  grouped _ _ _ _ := trivial

/-- A poll, a commit, and a poll. -/
def pollTwice : List Streaming.Act := [.poll, .commit [(1, pair 1 3, 1), (1, pair 1 2, -1)], .poll]

theorem deltaStream_exact_twice : InStep 0 TraceStore.dyn
    ((executeChecked (Streaming.step 0 TraceStore.dyn) (fun _ _ => true) (.start presentRows onePair 1) pollTwice).getD
      (.start presentRows onePair 1)) := by
  refine deltaStream_exact (presentRows_answerable onePair.dyn_keeps) (Nat.zero_le 1) (by decide)
    (Run.afterCheckedAll (fun a ha w _ => ?_) (by decide +kernel))
  simp only [pollTwice, List.mem_cons, List.not_mem_nil, or_false] at ha
  rcases ha with rfl | rfl | rfl
  · trivial
  · exact presentRows_answerable (TraceStore.dyn_keeps _)
  · trivial

end Runs

end Grmpl

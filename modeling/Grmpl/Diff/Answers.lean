import Grmpl.Diff.Agreement

/-!
# What a plan answers of a history

The answer of a plan at an edition is a matter of the patches committed up to it: it does not
depend on the store that serves them, on what is kept of views, or on what is committed or
folded away later. Every snapshot of a store that keeps the contract is that answer, every
change is the difference of two, and where the span of rows a plan reads is left alone the
answer is too.

* `TraceStore.answer`: the answer at an edition.
* `answer_commit`, `answer_congr`, `answer_zero`: what it depends on, and where it starts.
* `Query.keySpan`, `answer_span`: a plan that reads one span of one relation.
* `Answerable`, `Answerable.snapshot`, `Answerable.delta`: a history a plan can be read over.
-/

open OrdMap

namespace Grmpl

/-- A history with none of it folded away. -/
def TraceStore.whole (hist : TraceStore) : TraceStore := ⟨hist.patches, 0, Nat.zero_le _⟩

/-- What a plan answers of a history as of an edition, every view evaluated. -/
def TraceStore.answer (hist : TraceStore) (fuel at' : Nat) (q : Query) : Except Fault Multiset :=
  answerOf fuel (hist.whole.forwardingReader at') none q.unstored

section Answers

variable {fuel : Nat} {hist hist' : TraceStore} {reader : EditionReader} {q : Query} {a b at' : Nat} {m n : Multiset}

/-- Whoever reads a history reads its answers. -/
theorem answer_eq (hr : ReaderKeeps reader hist) :
    answerOf fuel reader none q.unstored = hist.answer fuel reader.edition q :=
  have hwhole := TraceStore.forwardingReader_keeps (h := hist.whole) (Nat.zero_le reader.edition)
  answer_same hr hwhole none fun _ _ => rfl

/-- **An answer is made of what the plan's relations hold.** -/
theorem answer_congr (h : ∀ rel ∈ q.rels, hist.contents a rel = hist'.contents b rel) :
    hist.answer fuel a q = hist'.answer fuel b q :=
  answer_same (TraceStore.forwardingReader_keeps (h := hist.whole) (Nat.zero_le a))
    (TraceStore.forwardingReader_keeps (h := hist'.whole) (Nat.zero_le b)) none h

theorem contents_commit (hle : at' ≤ hist.current) (rel : RelId) (updates : List (RelId × Tuple × Diff)) :
    (hist.commit updates).contents at' rel = hist.contents at' rel :=
  ZSet.ext (TraceStore.rowsAt_commit hle rel updates)

/-- What is committed later changes no answer. -/
theorem answer_commit (hle : at' ≤ hist.current) (updates : List (RelId × Tuple × Diff)) :
    (hist.commit updates).answer fuel at' q = hist.answer fuel at' q :=
  answer_congr fun rel _ => contents_commit hle rel updates

/-- Nor what is folded away. -/
theorem answer_consolidate (upTo : Nat) : (hist.consolidate upTo).answer fuel at' q = hist.answer fuel at' q := rfl

/-- A plan's relations left alone, its answer is. -/
theorem answer_unmoved (hle : a ≤ b) (h : ∀ rel ∈ q.rels, hist.Still rel a b) :
    hist.answer fuel a q = hist.answer fuel b q :=
  answer_congr fun rel hrel => (h rel hrel).contents_eq hle

/-! ## The empty world -/

/-- **In the empty world every plan answers nothing.** -/
theorem answer_zero : ∀ {m : Multiset}, hist.answer fuel 0 q = .ok m → m = .empty := by
  have scanned : ∀ {p : Tuple → Bool} {rel : RelId} {x : Result Rows} {m : Multiset},
      Answers x (keepRows p (hist.whole.rowsAt rel 0)) →
        (do return ZSet.ofPairs (← ask x) : Except Fault Multiset) = .ok m → m = .empty := by
    intro p rel x m hx h
    obtain ⟨hden, hclean⟩ := scanned_den hx h
    rw [hist.whole.contents_zero, ZSet.den_empty, Finsupp.filter_zero] at hden
    exact ZSet.ext ((ZSet.rows_eq_nil_iff hclean).2 hden)
  have hr := TraceStore.forwardingReader_keeps (h := hist.whole) (Nat.zero_le 0)
  -- the recursion variable starts from nothing too
  suffices hall : ∀ {q : Query} {recur : Option Multiset} {m : Multiset}, (∀ s, recur = some s → s = .empty) →
      answerOf fuel (hist.whole.forwardingReader 0) recur q.unstored = .ok m → m = .empty from
    fun {_} h => @hall q none _ (fun s hs => by cases hs) h
  intro q
  induction q with
  | rel r => exact fun _ h => scanned (hr.read r).whole h
  | rangeRel r lo hi => exact fun _ h => scanned (hr.readRange r lo hi) h
  | rangeRelOn r col lo hi => exact fun _ h => scanned (hr.readRangeOn r col lo hi) h
  | recur =>
    intro recur m hrecur h
    cases h
    cases recur with
    | none => rfl
    | some s => exact hrecur s rfl
  | map input f ih | filter input pred ih | project input cols ih | negate input ih | distinct input ih
  | reduce input key agg ih =>
    intro recur m hrecur h
    obtain ⟨x, hx, h⟩ := bind_ok h
    obtain rfl := ih hrecur hx
    exact (Except.ok.inj h).symm
  | inherit input col key ctx ih =>
    intro recur m hrecur h
    obtain ⟨x, hx, h⟩ := bind_ok h
    obtain ⟨rows, -, h⟩ := bind_ok h
    obtain rfl := ih hrecur hx
    exact (Except.ok.inj h).symm
  | join l r lk rk ihl ihr | union l r ihl ihr =>
    intro recur m hrecur h
    obtain ⟨x, hx, h⟩ := bind_ok h
    obtain ⟨y, hy, h⟩ := bind_ok h
    obtain rfl := ihl hrecur hx
    obtain rfl := ihr hrecur hy
    exact (Except.ok.inj h).symm
  | iterate init step ihi ihs =>
    intro recur m hrecur h
    rw [Query.unstored, answerOf] at h
    split_ifs at h
    obtain ⟨x, hx, h⟩ := bind_ok h
    obtain rfl := ihi (fun s hs => by cases hs) hx
    -- the first round finds nothing, and is the last
    cases fuel with
    | zero => cases h
    | succ fuel =>
      obtain ⟨s, hs, h⟩ := bind_ok h
      obtain rfl := ihs (fun s' hs' => by cases hs'; rfl) hs
      dsimp only at h
      rw [if_pos (by rfl)] at h
      cases h
      rfl
  | materialized plan into pre cursorRel key reduce ih => exact fun hrecur h => ih hrecur h
  | shared arc inner ih => exact fun hrecur h => ih hrecur h

end Answers

/-! ## The interest of a plan -/

/-- The one relation and span of it that a plan reads, if it reads no more. -/
def Query.keySpan : Query → Option (RelId × Tuple × Tuple)
  | .rangeRel r lo hi => some (r, lo, hi)
  | .map input _ | .filter input _ | .project input _ | .distinct input | .reduce input .. => input.keySpan
  | .shared _ inner => inner.keySpan
  | .materialized plan .. => plan.keySpan
  | _ => none

/-- Whether the store can tell that nothing a plan reads moved: by the span of rows it reads,
if it reads one, else by its relations. -/
def Query.untouched (store : DynTraceStore) (q : Query) (start upTo : Nat) : Result Bool :=
  match q.keySpan with
  | some (r, lo, hi) => return !(← store.touchedRangeSince start upTo r lo hi)
  | none => return !(← store.touchedSince start upTo q.baseRelations)

section Interest

variable {fuel : Nat} {store : DynTraceStore} {hist : TraceStore} {q : Query} {a b at' : Nat} {m n : Multiset}

/-- Rows outside a span may move without the span's. -/
theorem contents_span {rel : RelId} {lo hi : Tuple} (hle : a ≤ b)
    (h : ∀ u ∈ hist.updatesBetween rel a b, inRange lo hi u.tuple = false) :
    keepRows (inRange lo hi) (hist.rowsAt rel a) = keepRows (inRange lo hi) (hist.rowsAt rel b) := by
  have hsame : (hist.contents a rel).filter (inRange lo hi) = (hist.contents b rel).filter (inRange lo hi) := by
    refine ZSet.ext_of_den ((hist.clean_contents a rel).filter _) ((hist.clean_contents b rel).filter _) ?_
    have hnone : ((hist.updatesBetween rel a b).map fun u => (u.tuple, u.diff)).filter (fun e => inRange lo hi e.1) = [] := by
      refine List.filter_eq_nil_iff.2 fun e he => ?_
      obtain ⟨u, hu, rfl⟩ := List.mem_map.1 he
      simp [h u hu]
    have hmoved := ZSet.total_filter (inRange lo hi) ((hist.updatesBetween rel a b).map fun u => (u.tuple, u.diff))
    rw [hnone, hist.total_updatesBetween rel hle, Finsupp.filter_sub, ZSet.total_nil] at hmoved
    rw [ZSet.den_filter, ZSet.den_filter]
    exact (sub_eq_zero.1 hmoved.symm).symm
  exact congrArg ZSet.rows hsame

/-- **A plan that reads one span answers the same while the span is left alone.** -/
theorem answer_span (hle : a ≤ b) : ∀ {q : Query} {rel : RelId} {lo hi : Tuple}, q.keySpan = some (rel, lo, hi) →
    (∀ u ∈ hist.updatesBetween rel a b, inRange lo hi u.tuple = false) →
      hist.answer fuel a q = hist.answer fuel b q := by
  intro q
  induction q with
  | rangeRel rel lo hi =>
    intro r l h hspan hout
    cases hspan
    have hr := (TraceStore.forwardingReader_keeps (h := hist.whole) (Nat.zero_le a)).readRange rel lo hi
    have hr' := (TraceStore.forwardingReader_keeps (h := hist.whole) (Nat.zero_le b)).readRange rel lo hi
    have hspan : keepRows (inRange lo hi) (hist.whole.rowsAt rel a) = keepRows (inRange lo hi)
        (hist.whole.rowsAt rel b) := contents_span hle hout
    exact read_same hr (hspan ▸ hr')
  | map input f ih | filter input pred ih | project input cols ih | distinct input ih | reduce input key agg ih =>
    intro rel lo hi hspan hout
    have hinput := ih hspan hout
    unfold TraceStore.answer at hinput ⊢
    simp only [Query.unstored, answerOf, hinput]
  | shared arc inner ih => exact fun hspan hout => ih hspan hout
  | materialized plan into pre cursorRel key reduce ih => exact fun hspan hout => ih hspan hout
  | _ => exact fun hspan => by cases hspan

/-- **What a plan's interest is told untouched, its answer is.** -/
theorem untouched_spec (hk : Keeps store hist) (hle : a ≤ b) (q : Query) :
    ∃ u, q.untouched store a b = .ok u ∧ (u = true → hist.answer fuel a q = hist.answer fuel b q) := by
  unfold Query.untouched
  cases hspan : q.keySpan with
  | some span =>
    obtain ⟨rel, lo, hi⟩ := span
    obtain ⟨t, ht, hout⟩ := hk.touchedRangeSince a b rel lo hi
    exact ⟨!t, by simp [ht, bind, Except.bind, pure, Except.pure], fun h =>
      answer_span hle hspan (hout (by simpa using h))⟩
  | none =>
    obtain ⟨t, ht, hstill⟩ := hk.touchedSince a b q.baseRelations
    exact ⟨!t, by simp [ht, bind, Except.bind, pure, Except.pure], fun h =>
      answer_unmoved hle fun rel hrel => hstill (by simpa using h) rel (mem_baseRelations.2 hrel)⟩

end Interest

/-! ## Histories a plan can be read over -/

/-- A history, and a store that serves it, over which a plan has an answer at every edition,
its views' copies stand for them, and its groups can be made of what is there. -/
structure Answerable (fuel : Nat) (store : DynTraceStore) (q : Query) (hist : TraceStore) : Prop where
  keeps : Keeps store hist
  addressed : q.Addressed
  answers : ∀ at' ≤ hist.current, ∃ m, hist.answer fuel at' q = .ok m
  copies : ∀ at', hist.watermark ≤ at' → at' ≤ hist.current → q.EachCopy (TrueCopy fuel hist (store.readerAt at'))
  grouped : ∀ start ≤ hist.current, ∀ upTo ≤ hist.current, q.Grouped hist start upTo

section Answerable

variable {fuel : Nat} {store : DynTraceStore} {hist : TraceStore} {q : Query} {a b : Nat} {m n : Multiset}

/-- A snapshot is the answer. -/
theorem snapshot_answer (hk : Keeps store hist) (hmark : hist.watermark ≤ a) (haddr : q.Addressed)
    (hcopies : q.EachCopy (TrueCopy fuel hist (store.readerAt a))) :
    evalSnapshot fuel q store a = hist.answer fuel a q := by
  obtain ⟨hedition, hr⟩ := hk.readerAt hmark
  rw [snapshot_eq hk hmark haddr hcopies, answer_eq hr, hedition]

theorem Answerable.snapshot (h : Answerable fuel store q hist) (hmark : hist.watermark ≤ a) (hle : a ≤ hist.current) :
    evalSnapshot fuel q store a = hist.answer fuel a q :=
  snapshot_answer h.keeps hmark h.addressed (h.copies a hmark hle)

/-- A change is the difference of two answers. -/
theorem Answerable.delta (h : Answerable fuel store q hist) (hmark : hist.watermark ≤ a) (hab : a ≤ b)
    (hle : b ≤ hist.current) (hm : hist.answer fuel a q = .ok m) (hn : hist.answer fuel b q = .ok n) :
    evalDelta fuel store a b q = .ok (n.difference m) :=
  evalDelta_exact h.keeps hmark hab h.addressed (h.copies a hmark (hab.trans hle)) (h.copies b (hmark.trans hab) hle)
    (h.grouped a (hab.trans hle) b hle) ((h.snapshot hmark (hab.trans hle)).trans hm)
    ((h.snapshot (hmark.trans hab) hle).trans hn)

end Answerable

end Grmpl

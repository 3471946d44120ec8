import Grmpl.Diff.RowWise
import Grmpl.Diff.Readers

/-!
# Views and their copies

A view's copy is the rows of a relation that start with the view's arguments, and a cursor
says up to where they reflect it. Where copies stand for their views, a plan answers alike
with them and without, and the change of a copy is the change of its view.

* `storedView_spec`: what a reader answers from a copy.
* `Query.unstored`, `Query.EachCopy`, `TrueCopy`: views whose copies are what they stand for.
* `answer_unstored`, `answer_same`: plans with the copies left out.
* `storedDelta_change`: the change of a copy.
-/

open OrdMap

namespace Grmpl

/-! ## Rows that start with a view's arguments -/

theorem not_append_lt (cells rest : List Value) : ¬ (⟨cells ++ rest⟩ : Tuple) < ⟨cells⟩ := by
  induction cells with
  | nil => exact Tuple.not_lt_nil
  | cons v cells ih =>
    rw [List.cons_append, Tuple.cells_lt_cons]
    rintro (hlt | ⟨-, hlt⟩)
    · exact lt_irrefl v hlt
    · exact ih hlt

theorem append_lt {last next : Value} (h : last < next) (init rest : List Value) :
    (⟨init ++ last :: rest⟩ : Tuple) < ⟨init ++ [next]⟩ := by
  induction init with
  | nil => exact Tuple.cells_lt_cons.2 (.inl h)
  | cons v init ih => exact Tuple.cells_lt_cons.2 (.inr ⟨rfl, ih⟩)

/-- A row that starts with a row lies between it and it with its last cell raised. -/
theorem inRange_of_take {pre : Tuple} {last next : Value} (hlast : pre.cells.getLast? = some last)
    (hnext : last.successor = some next) {t : Tuple} (ht : t.cells.take pre.arity = pre.cells) :
    inRange pre ⟨pre.cells.dropLast ++ [next]⟩ t = true := by
  have hlt : last < next := ((Value.successor_spec hnext last).2 rfl).2
  have hpre : pre.cells = pre.cells.dropLast ++ [last] := (List.dropLast_append_getLast? last hlast).symm
  have hcells : t = ⟨pre.cells ++ t.cells.drop pre.arity⟩ := by
    rw [← ht, List.take_append_drop]
  rw [hcells]
  simp only [inRange, Bool.and_eq_true, decide_eq_true_eq]
  refine ⟨not_lt.1 (not_append_lt pre.cells _), ?_⟩
  have hraised := append_lt hlt pre.cells.dropLast (t.cells.drop pre.arity)
  rw [List.append_cons, ← hpre] at hraised
  exact hraised

/-- A relation's rows that start with a view's arguments, without them. -/
def TraceStore.storedIn (hist : TraceStore) (at' : Nat) (into : RelId) (pre : Tuple) : Multiset :=
  .ofPairs ((hist.rowsAt into at').filterMap fun e => (e.1.after? pre).map (·, e.2))

theorem after?_eq_some {t pre t' : Tuple} : t.after? pre = some t' ↔ t = ⟨pre.cells ++ t'.cells⟩ := by
  unfold Tuple.after?
  constructor
  · intro h
    split_ifs at h with htake
    cases h
    dsimp only
    rw [← htake, List.take_append_drop]
  · rintro rfl
    rw [if_pos (by simp [Tuple.arity])]
    simp [Tuple.arity]

/-- A row of a copy weighs what the row it is kept as weighs. -/
theorem weight_storedIn (hist : TraceStore) (at' : Nat) (into : RelId) (pre t : Tuple) :
    (hist.storedIn at' into pre).weight t = (hist.contents at' into).weight ⟨pre.cells ++ t.cells⟩ := by
  rw [← ZSet.den_apply, TraceStore.storedIn, ZSet.den_ofPairs,
    ZSet.total_filterMap fun t : Tuple => t.after? pre, ← ZSet.den_apply]
  exact ZSet.spread_apply_of_iff (fun k => after?_eq_some) _

section Stored

variable {reader : EditionReader} {hist : TraceStore}

/-- The stored rows a reader finds for a view are those that start with its arguments. -/
theorem storedRows_spec (hr : ReaderKeeps reader hist) (into : RelId) (pre : Tuple) :
    ∃ rows, storedRows reader into pre = .ok rows ∧
      rows.Perm ((hist.rowsAt into reader.edition).filter fun e => e.1.cells.take pre.arity == pre.cells) := by
  unfold storedRows
  cases hlast : pre.cells.getLast? with
  | none =>
    obtain ⟨got, hgot, hperm⟩ := hr.read into
    refine ⟨got, hgot, hperm.trans (.of_eq (List.filter_eq_self.2 fun e _ => ?_).symm)⟩
    rw [Tuple.arity, List.getLast?_eq_none_iff.1 hlast]
    simp
  | some last =>
    dsimp only
    cases hnext : last.successor with
    | some next =>
      obtain ⟨got, hgot, hperm⟩ := hr.readRange into pre ⟨pre.cells.dropLast ++ [next]⟩
      refine ⟨got, hgot, hperm.trans (.of_eq (List.filter_congr fun e _ => ?_))⟩
      rw [Bool.eq_iff_iff, beq_iff_eq]
      exact ⟨take_of_inRange hlast hnext, inRange_of_take hlast hnext⟩
    | none =>
      obtain ⟨got, hgot, hperm⟩ := hr.read into
      refine ⟨_, by rw [hgot]; rfl, hperm.filter _⟩

theorem cursorAt_ok (hr : ReaderKeeps reader hist) (cursorRel : RelId) (key : Entity) :
    ∃ cursor, cursorAt reader cursorRel key = .ok cursor := by
  unfold cursorAt
  cases (Value.ent key).successor with
  | none => exact ⟨none, rfl⟩
  | some next =>
    obtain ⟨got, hgot, -⟩ := hr.readRange cursorRel ⟨[.ent key]⟩ ⟨[next]⟩
    exact ⟨_, by dsimp only; rw [hgot]; rfl⟩

/-- **What a reader answers from a copy**: nothing, unless there is a cursor and the plan's
relations have stood still since; then the rows that start with the view's arguments. -/
theorem storedView_spec (hr : ReaderKeeps reader hist) (rels : List RelId) (into : RelId) (pre : Tuple)
    (cursorRel : RelId) (key : Entity) :
    ∃ o, storedView reader rels into pre cursorRel key = .ok o ∧ ∀ rows, o = some rows →
      rows = hist.storedIn reader.edition into pre ∧
        ∃ c, cursorAt reader cursorRel key = .ok (some c) ∧ ∀ rel ∈ rels, hist.Still rel c reader.edition := by
  obtain ⟨cursor, hcursor⟩ := cursorAt_ok hr cursorRel key
  unfold storedView
  rw [hcursor]
  cases cursor with
  | none => exact ⟨none, rfl, fun rows h => by cases h⟩
  | some c =>
    obtain ⟨touched, htouched, hstill⟩ := hr.touchedSince c rels
    simp only [ask, bind, Except.bind, htouched]
    cases touched with
    | true => exact ⟨none, rfl, fun rows h => by cases h⟩
    | false =>
      obtain ⟨rows, hrows, hperm⟩ := storedRows_spec hr into pre
      have htake : ∀ e ∈ rows, e.1.cells.take pre.arity = pre.cells := fun e he =>
        beq_iff_eq.1 (List.mem_filter.1 (hperm.mem_iff.1 he)).2
      have hdrop : ∀ t : Tuple, t.cells.take pre.arity = pre.cells → t.drop? pre.arity = t.after? pre := by
        intro t ht
        have hlen := congrArg List.length ht
        rw [List.length_take] at hlen
        have hle : pre.arity ≤ t.arity := min_eq_left_iff.1 hlen
        rw [Tuple.drop?, if_pos hle, Tuple.after?, if_pos ht]
      obtain ⟨out, hout⟩ := mapM_isSome (l := rows) (f := fun e => (e.1.drop? pre.arity).map (·, e.2))
        fun e he => by
          rw [hdrop _ (htake e he), Tuple.after?, if_pos (htake e he)]
          rfl
      refine ⟨some (.ofPairs out), by simp [hrows, hout, inBounds, pure, Except.pure], fun rows' h => ?_⟩
      cases h
      refine ⟨?_, c, rfl, hstill rfl⟩
      refine ZSet.ext_of_den (ZSet.clean_ofPairs _) (ZSet.clean_ofPairs _) ?_
      rw [TraceStore.storedIn, ZSet.den_ofPairs, ZSet.den_ofPairs,
        total_mapM (f := fun t => t.drop? pre.arity) hout, ZSet.total_filterMap fun t : Tuple => t.after? pre,
        ZSet.total_perm hperm, ZSet.total_filter fun t : Tuple => t.cells.take pre.arity == pre.cells]
      have hafter : ∀ v : Tuple →₀ ℤ,
          ZSet.spread (fun t : Tuple => t.after? pre)
            (v.filter fun t => (t.cells.take pre.arity == pre.cells) = true) =
            ZSet.spread (fun t : Tuple => t.after? pre) v := fun v =>
        ZSet.spread_filter _ _ fun t _ ht => if_neg (by simpa using ht)
      rw [← hafter]
      refine ZSet.spread_congr fun t ht => hdrop t ?_
      by_contra hne
      exact ht (Finsupp.filter_apply_neg _ _ (by simpa using hne))

end Stored

/-! ## Views without their copies -/

/-- A plan with every view evaluated, whatever is kept of it. -/
def Query.unstored : Query → Query
  | .rel r => .rel r
  | .rangeRel r lo hi => .rangeRel r lo hi
  | .rangeRelOn r col lo hi => .rangeRelOn r col lo hi
  | .map input f => .map input.unstored f
  | .filter input pred => .filter input.unstored pred
  | .project input cols => .project input.unstored cols
  | .join left right leftKey rightKey => .join left.unstored right.unstored leftKey rightKey
  | .union a b => .union a.unstored b.unstored
  | .negate a => .negate a.unstored
  | .distinct a => .distinct a.unstored
  | .reduce input key agg => .reduce input.unstored key agg
  | .recur => .recur
  | .iterate init step => .iterate init.unstored step.unstored
  | .inherit input col key ctx => .inherit input.unstored col key ctx
  | .materialized plan .. => plan.unstored
  | .shared arc inner => .shared arc inner.unstored

/-- Whether every view of a plan, with its copy, has a property. -/
def Query.EachCopy (P : Query → RelId → Tuple → RelId → Entity → Option (List Nat × Agg) → Prop) : Query → Prop
  | .rel _ | .rangeRel .. | .rangeRelOn .. | .recur => True
  | .map input _ | .filter input _ | .project input _ | .negate input | .distinct input | .reduce input ..
  | .inherit input .. | .shared _ input => input.EachCopy P
  | .join l r .. | .union l r | .iterate l r => l.EachCopy P ∧ r.EachCopy P
  | .materialized plan into pre cursorRel key fold => P plan into pre cursorRel key fold ∧ plan.EachCopy P

/-- A copy stands for its view: wherever the relations of the plan have stood still since
its cursor, it is what the plan answers. -/
def TrueCopy (fuel : Nat) (hist : TraceStore) (reader : EditionReader) (plan : Query) (into : RelId) (pre : Tuple)
    (cursorRel : RelId) (key : Entity) (reduce : Option (List Nat × Agg)) : Prop :=
  ∀ c, cursorAt reader cursorRel key = .ok (some c) →
    (∀ rel ∈ plan.baseRelations, hist.Still rel c reader.edition) →
      ∃ rows, viewOf reduce (hist.storedIn reader.edition into pre) = some rows ∧
        answerOf fuel reader none plan.unstored = .ok rows

theorem mem_baseRelations {q : Query} {rel : RelId} : rel ∈ q.baseRelations ↔ rel ∈ q.rels := by
  rw [Query.baseRelations, List.mem_dedup, List.mem_insertionSort]

theorem containsReduce_unstored (q : Query) : q.unstored.containsReduce = q.containsReduce := by
  induction q <;> simp_all [Query.unstored, Query.containsReduce]

theorem baseOf_unstored : ∀ {q : Query} {b : BaseRel}, baseOf q = some b → baseOf q.unstored = some b := by
  intro q
  induction q with
  | rel _ | rangeRel _ _ _ | rangeRelOn _ _ _ _ => exact fun h => h
  | shared arc inner ih => exact fun h => ih h
  | _ => intro b h; cases h

theorem rowsOf_unstored : ∀ {q : Query} {rs : RowWise}, rowsOf q = some rs → rowsOf q.unstored = some rs := by
  intro q
  induction q with
  | filter input pred ih =>
    intro rs h
    obtain ⟨rs', hrs', rfl⟩ := Option.map_eq_some_iff.1 h
    exact congrArg (Option.map _) (ih hrs')
  | project input cols ih =>
    intro rs h
    obtain ⟨rs', hrs', rfl⟩ := Option.map_eq_some_iff.1 h
    exact congrArg (Option.map _) (ih hrs')
  | rel _ | rangeRel _ _ _ | rangeRelOn _ _ _ _ => exact fun h => h
  | shared arc inner ih => exact fun h => ih h
  | _ => intro rs h; cases h

section Answers

variable {fuel : Nat} {reader reader' : EditionReader} {hist hist' : TraceStore}

/-- **Views answer alike with their copies and without**, where the copies stand for them. -/
theorem answer_unstored (hr : ReaderKeeps reader hist) : ∀ {q : Query} (recur : Option Multiset),
    q.EachCopy (TrueCopy fuel hist reader) → answerOf fuel reader recur q = answerOf fuel reader recur q.unstored := by
  intro q
  induction q with
  | rel _ | rangeRel _ _ _ | rangeRelOn _ _ _ _ | recur => exact fun _ _ => rfl
  | map input f ih | filter input pred ih | project input cols ih | negate input ih | distinct input ih
  | reduce input key agg ih | inherit input col key ctx ih =>
    exact fun recur h => by simp only [Query.unstored, answerOf, ih recur h]
  | shared arc inner ih => exact fun recur h => ih recur h
  | join l r lk rk ihl ihr | union l r ihl ihr =>
    exact fun recur h => by simp only [Query.unstored, answerOf, ihl recur h.1, ihr recur h.2]
  | iterate init step ihi ihs =>
    intro recur h
    simp only [Query.unstored, answerOf, containsReduce_unstored, ihi none h.1]
    have hstep : (fun r => answerOf fuel reader (some r) step) =
        fun r => answerOf fuel reader (some r) step.unstored := funext fun r => ihs (some r) h.2
    rw [hstep]
  | materialized plan into pre cursorRel key reduce ih =>
    intro recur h
    cases recur with
    | some S => exact ih (some S) h.2
    | none =>
      obtain ⟨o, ho, hrows⟩ := storedView_spec hr plan.baseRelations into pre cursorRel key
      rw [answerOf, ho, Query.unstored]
      cases o with
      | none => exact ih none h.2
      | some rows =>
        obtain ⟨rfl, c, hc, hstill⟩ := hrows rows rfl
        obtain ⟨out, hout, hanswer⟩ := h.1 c hc hstill
        rw [hanswer]
        show inBounds (viewOf reduce _) = _
        rw [hout]
        rfl

/-- Two reads of the same rows are one collection. -/
theorem read_same {x y : Result Rows} {rows : Rows} (hx : Answers x rows) (hy : Answers y rows) :
    (do return ZSet.ofPairs (← ask x) : Except Fault Multiset) = do return ZSet.ofPairs (← ask y) := by
  obtain ⟨got, rfl, hperm⟩ := hx
  obtain ⟨got', rfl, hperm'⟩ := hy
  exact congrArg Except.ok (ofPairs_perm (hperm.trans hperm'.symm))

/-- What rows inherit does not depend on the order of the scopes. -/
theorem inherit_perm {ctx ctx' : Rows} (h : ctx.Perm ctx') (m : Multiset) (col : Nat) (key : Value) :
    inherit m col key ctx = inherit m col key ctx' := by
  unfold inherit
  dsimp only
  refine congrArg ZSet.ofPairs (List.filterMap_congr fun e _ => ?_)
  have hsame : ∀ v, innermost (scopesOf key ctx) v = innermost (scopesOf key ctx') v := fun v =>
    innermost_congr fun s _ _ => by
      rw [mem_scopesOf, mem_scopesOf]
      exact exists_congr fun w => and_congr_right fun _ => h.mem_iff
  simp only [hsame]

/-- **A plan answers the same wherever what it reads is the same.** -/
theorem answer_same (hr : ReaderKeeps reader hist) (hr' : ReaderKeeps reader' hist') :
    ∀ {q : Query} (recur : Option Multiset),
      (∀ rel ∈ q.rels, hist.contents reader.edition rel = hist'.contents reader'.edition rel) →
        answerOf fuel reader recur q.unstored = answerOf fuel reader' recur q.unstored := by
  have hrows : ∀ {rel}, hist.contents reader.edition rel = hist'.contents reader'.edition rel →
      hist.rowsAt rel reader.edition = hist'.rowsAt rel reader'.edition := fun h => congrArg ZSet.rows h
  intro q
  induction q with
  | rel r =>
    intro recur h
    exact read_same (hr.read r) (hrows (h r (by simp [Query.rels])) ▸ hr'.read r)
  | rangeRel r lo hi =>
    intro recur h
    exact read_same (hr.readRange r lo hi) (hrows (h r (by simp [Query.rels])) ▸ hr'.readRange r lo hi)
  | rangeRelOn r col lo hi =>
    intro recur h
    exact read_same (hr.readRangeOn r col lo hi)
      (hrows (h r (by simp [Query.rels])) ▸ hr'.readRangeOn r col lo hi)
  | recur => exact fun _ _ => rfl
  | map input f ih | filter input pred ih | project input cols ih | negate input ih | distinct input ih
  | reduce input key agg ih => exact fun recur h => by simp only [Query.unstored, answerOf, ih recur h]
  | shared arc inner ih => exact fun recur h => ih recur h
  | materialized plan into pre cursorRel key reduce ih => exact fun recur h => ih recur h
  | join l r lk rk ihl ihr | union l r ihl ihr =>
    exact fun recur h => by
      simp only [Query.unstored, answerOf, ihl recur fun rel hrel => h rel (List.mem_append_left _ hrel),
        ihr recur fun rel hrel => h rel (List.mem_append_right _ hrel)]
  | iterate init step ihi ihs =>
    intro recur h
    have hinit := ihi none fun rel hrel => h rel (List.mem_append_left _ hrel)
    have hstep : (fun r => answerOf fuel reader (some r) step.unstored) =
        fun r => answerOf fuel reader' (some r) step.unstored :=
      funext fun r => ihs (some r) fun rel hrel => h rel (List.mem_append_right _ hrel)
    simp only [Query.unstored, answerOf, hinit, hstep]
  | inherit input col key ctx ih =>
    intro recur h
    have hinput := ih recur fun rel hrel => h rel (List.mem_append_left _ hrel)
    have hctx := hrows (h ctx (List.mem_append_right _ List.mem_cons_self))
    simp only [Query.unstored, answerOf, hinput]
    refine congrArg _ (funext fun m => ?_)
    obtain ⟨got, hgot, hperm⟩ := hr.readContaining ctx 0 1 (distinctCells m col)
    obtain ⟨got', hgot', hperm'⟩ := hr'.readContaining ctx 0 1 (distinctCells m col)
    rw [hgot, hgot']
    rw [hctx] at hperm
    exact congrArg Except.ok (inherit_perm (hperm.trans hperm'.symm) m col key)

end Answers

/-! ## The change of a copy -/

section CopyChange

variable {fuel : Nat} {store : DynTraceStore} {hist : TraceStore} {start upTo : Nat}

/-- No relation moves over an interval that is empty. -/
theorem still_of_le (hist : TraceStore) {rel : RelId} {a b : Nat} (hle : b ≤ a) : hist.Still rel a b := by
  have hnil := hist.updatesBetween_pairs rel a b
  rw [Nat.sub_eq_zero_of_le hle, List.take_zero] at hnil
  exact List.map_eq_nil_iff.1 hnil

/-- A copy that calls itself current has a cursor its plan's relations have stood still
since. -/
theorem copyCurrent_spec (hk : Keeps store hist) {plan : Query} {cursorRel : RelId} {key : Entity} {at' : Nat}
    (hat : hist.watermark ≤ at') : ∃ b, copyCurrent store plan cursorRel key at' = .ok b ∧
      (b = true → ∃ c, cursorAt (store.readerAt at') cursorRel key = .ok (some c) ∧
        ∀ rel ∈ plan.baseRelations, hist.Still rel c at') := by
  obtain ⟨-, hr⟩ := hk.readerAt hat
  obtain ⟨cursor, hcursor⟩ := cursorAt_ok hr cursorRel key
  unfold copyCurrent
  rw [hcursor]
  cases cursor with
  | none => exact ⟨false, rfl, fun h => by cases h⟩
  | some c =>
    by_cases hc : at' ≤ c
    · refine ⟨true, if_pos hc, fun _ => ⟨c, rfl, fun rel _ => ?_⟩⟩
      exact still_of_le hist hc
    · obtain ⟨touched, htouched, hstill⟩ := hk.touchedSince c at' plan.baseRelations
      refine ⟨!touched, ?_, fun h => ⟨c, rfl, hstill (by simpa using h)⟩⟩
      simp [ask, bind, Except.bind, pure, Except.pure, htouched, hc]

/-- **The change of a view's copy is the change of the view.** -/
theorem storedDelta_change (hk : Keeps store hist) (hstart : hist.watermark ≤ start) (hle : start ≤ upTo)
    {plan : Query} {into : RelId} {pre : Tuple} {cursorRel : RelId} {key : Entity} {was is : Multiset}
    (hfrom : TrueCopy fuel hist (store.readerAt start) plan into pre cursorRel key none)
    (hto : TrueCopy fuel hist (store.readerAt upTo) plan into pre cursorRel key none)
    (hwas : answerOf fuel (store.readerAt start) none plan.unstored = .ok was)
    (his : answerOf fuel (store.readerAt upTo) none plan.unstored = .ok is) :
    ∃ o, storedDelta store start upTo plan into pre cursorRel key = .ok o ∧ ∀ d, o = some d → d.Change was is := by
  have hend := hstart.trans hle
  obtain ⟨b, hb, hcurrent⟩ := @copyCurrent_spec _ _ hk plan cursorRel key _ hstart
  obtain ⟨b', hb', hcurrent'⟩ := @copyCurrent_spec _ _ hk plan cursorRel key _ hend
  unfold storedDelta
  rw [hb]
  cases b with
  | false => exact ⟨none, rfl, fun d h => by cases h⟩
  | true =>
    rw [hb']
    cases b' with
    | false => exact ⟨none, rfl, fun d h => by cases h⟩
    | true =>
      obtain ⟨cs, hcs, hsorted, -⟩ := hk.compare hstart hend into
      obtain ⟨cs', hcs', htotal⟩ := compare_total hk hstart hle into
      cases hcs.symm.trans hcs'
      refine ⟨_, by simp only [bind, Except.bind, if_true, ask, hcs]; rfl, fun d h => ?_⟩
      cases h
      -- each end is the copy read as a set
      have hset : ∀ {at' c : Nat} {m : Multiset}, (store.readerAt at').edition = at' →
          TrueCopy fuel hist (store.readerAt at') plan into pre cursorRel key none →
          cursorAt (store.readerAt at') cursorRel key = .ok (some c) →
          (∀ rel ∈ plan.baseRelations, hist.Still rel c at') →
          answerOf fuel (store.readerAt at') none plan.unstored = .ok m →
            m = (hist.storedIn at' into pre).positive := by
        intro at' c m hedition hfaith hc hstill hm
        obtain ⟨rows, hrows, hanswer⟩ := hfaith c hc (by rwa [hedition])
        cases hrows
        rw [hedition] at hanswer
        exact Except.ok.inj (hm.symm.trans hanswer)
      obtain ⟨c, hc, hstill⟩ := hcurrent rfl
      obtain ⟨c', hc', hstill'⟩ := hcurrent' rfl
      rw [hset (hk.readerAt hstart).1 hfrom hc hstill hwas, hset (hk.readerAt hend).1 hto hc' hstill' his]
      have hmap : (cs.filterMap fun c => (c.1.after? pre).map (·, entering c.2.1 c.2.2)) =
          (cs.map fun c => (c.1, entering c.2.1 c.2.2)).filterMap fun e => (e.1.after? pre).map (·, e.2) := by
        rw [List.filterMap_map]
        rfl
      refine ZSet.Change.of_weight (ZSet.clean_addAll ?_) fun t => ?_
      · refine List.pairwise_filterMap.2 (hsorted.imp fun hlt e he e' he' heq => ?_)
        obtain ⟨t, ht, rfl⟩ := Option.map_eq_some_iff.1 he
        obtain ⟨t', ht', rfl⟩ := Option.map_eq_some_iff.1 he'
        obtain rfl : t = t' := heq
        exact hlt.ne ((after?_eq_some.1 ht).trans (after?_eq_some.1 ht').symm)
      · rw [← ZSet.den_apply, ZSet.den_addAll, ZSet.den_empty, zero_add, hmap,
          ZSet.total_filterMap fun t : Tuple => t.after? pre,
          ZSet.spread_apply_of_iff (fun k => after?_eq_some), htotal entering entering_self,
          ← weight_storedIn, ← weight_storedIn, entering_positive]

end CopyChange

end Grmpl

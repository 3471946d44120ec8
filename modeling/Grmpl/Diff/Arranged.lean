import Grmpl.Diff.Shapes

/-!
# What a plan answers, arranged or not

A shared subplan is evaluated once and its rows are kept, under the address it lives at
and the edition. The address of a plan that is gone can be another plan's later, so what is
kept answers for a subplan only as long as it was made for it.

* `answerOf`: a plan's rows, every shared subplan evaluated where it stands.
* `Query.HasNode`: the shared subplans of a plan, with their addresses.
* `evalInner_computes`: from arrangements that stand for its subplans a plan is evaluated
  to its answer, and so are the arrangements it makes.
* `Caller`, `Caller.Step`: the calls that pass one cache, with what is shared and dropped
  in between.
* `arrangements_transparent`: what such a call returns.
-/

namespace Grmpl

/-! ## Answers -/

/-- From one set to the next until nothing changes. -/
def roundsFrom (step : Multiset → Except Fault Multiset) (initVal : Multiset) :
    Nat → Multiset → Except Fault Multiset
  | 0, _ => .error .spin
  | fuel + 1, r => do
      let stepped ← step r
      let next := (initVal.merge stepped).positive
      if next = r then pure r else roundsFrom step initVal fuel next

section Answer

variable (fuel : Nat) (reader : EditionReader)

/-- A plan's rows at the reader's edition, every shared subplan evaluated where it
stands. -/
def answerOf (recur : Option Multiset) : Query → Except Fault Multiset
  | .rel r => return .ofPairs (← ask (reader.read r))
  | .rangeRel r lo hi => return .ofPairs (← ask (reader.readRange r lo hi))
  | .rangeRelOn r col lo hi => return .ofPairs (← ask (reader.readRangeOn r col lo hi))
  | .map input f => do inBounds (mapped f (← answerOf recur input))
  | .filter input pred => do inBounds (filtered pred (← answerOf recur input))
  | .project input cols => do inBounds (mapped (·.project cols) (← answerOf recur input))
  | .join left right leftKey rightKey => do
      let l ← answerOf recur left
      let r ← answerOf recur right
      inBounds (joinMultisets l leftKey r rightKey)
  | .union a b => do
      let l ← answerOf recur a
      let r ← answerOf recur b
      pure (l.merge r).strip
  | .negate a => return (← answerOf recur a).negate
  | .distinct a => return (← answerOf recur a).positive
  | .reduce input key agg => do inBounds (reduceSnapshot (← answerOf recur input) key agg)
  | .recur => pure (recur.getD .empty)
  | .iterate init step =>
      if init.containsReduce || step.containsReduce then
        .error (.error (.query "Reduce (aggregate) is not permitted inside Iterate"))
      else do
        let initVal ← answerOf none init
        roundsFrom (fun r => answerOf (some r) step) initVal fuel initVal.positive
  | .inherit input col key ctx => do
      let rows ← answerOf recur input
      let ctxRows ← ask (reader.readContaining ctx 0 1 (distinctCells rows col))
      pure (inherit rows col key ctxRows)
  | .materialized plan into pre cursorRel key reduce =>
      match recur with
      | none => do
          match ← storedView reader plan.baseRelations into pre cursorRel key with
          | some rows => inBounds (viewOf reduce rows)
          | none => answerOf recur plan
      | some _ => answerOf recur plan
  | .shared _ inner => answerOf recur inner

end Answer

/-- A shared subplan, by its address. -/
def Query.HasNode : Query → Nat → Query → Prop
  | .rel _, _, _ | .rangeRel .., _, _ | .rangeRelOn .., _, _ | .recur, _, _ => False
  | .map input _, a, q | .filter input _, a, q | .project input _, a, q | .negate input, a, q
  | .distinct input, a, q | .reduce input .., a, q | .inherit input .., a, q
  | .materialized input .., a, q => input.HasNode a q
  | .join l r .., a, q | .union l r, a, q | .iterate l r, a, q => l.HasNode a q ∨ r.HasNode a q
  | .shared arc inner, a, q => (a = arc ∧ q = inner) ∨ inner.HasNode a q

/-- An address is one subplan's. -/
def Query.Addressed (q : Query) : Prop := ∀ a p p', q.HasNode a p → q.HasNode a p' → p = p'

/-! ## Arrangements that stand for their subplans -/

section Computes

variable (fuel : Nat) (reader : EditionReader) (N : Nat → Query → Prop)

/-- What is kept at the edition under a subplan's address is what the subplan answers. -/
def Stands (arr : Arrangements) : Prop :=
  ∀ a q v, N a q → arr (a, reader.edition) = some v → answerOf fuel reader none q = .ok v

/-- Nothing kept is lost, and what is new is a subplan's answer. -/
def Made (arr arr' : Arrangements) : Prop :=
  ∀ k, arr' k = arr k ∨ arr k = none ∧
    ∃ a q v, k = (a, reader.edition) ∧ N a q ∧ arr' k = some v ∧ answerOf fuel reader none q = .ok v

/-- From arrangements that stand for their subplans, a computation comes to an answer and
makes no others. -/
def Computes {α : Type} (x : Eval α) (e : Except Fault α) : Prop :=
  ∀ arr, Stands fuel reader N arr → x.value arr = e ∧ Made fuel reader N arr (x.run arr).2

variable {fuel reader N} {arr arr' arr'' : Arrangements}

theorem Made.refl (arr : Arrangements) : Made fuel reader N arr arr := fun _ => .inl rfl

theorem Made.trans (h : Made fuel reader N arr arr') (h' : Made fuel reader N arr' arr'') :
    Made fuel reader N arr arr'' := by
  intro k
  rcases h' k with hk' | ⟨hnone, a, q, v, rfl, hN, hv, hans⟩
  · rcases h k with hk | ⟨hnone, a, q, v, rfl, hN, hv, hans⟩
    · exact .inl (hk'.trans hk)
    · exact .inr ⟨hnone, a, q, v, rfl, hN, hk'.trans hv, hans⟩
  · rcases h (a, reader.edition) with hk | ⟨-, a', q', v', -, -, hv', -⟩
    · exact .inr ⟨hk ▸ hnone, a, q, v, rfl, hN, hv, hans⟩
    · rw [hnone] at hv'
      cases hv'

/-- What is made of subplans known by their addresses stands for them. -/
theorem Made.stands (h : Made fuel reader N arr arr') (hN : ∀ a p p', N a p → N a p' → p = p')
    (hs : Stands fuel reader N arr) : Stands fuel reader N arr' := by
  intro a q v hq hv
  rcases h (a, reader.edition) with hk | ⟨-, a', q', v', hk, hq', hv', hans⟩
  · exact hs a q v hq (hk ▸ hv)
  · obtain ⟨rfl, -⟩ := Prod.mk.inj hk
    obtain rfl := hN _ _ _ hq hq'
    rw [hv] at hv'
    cases hv'
    exact hans

/-- A subplan's answer kept under its address. -/
theorem Made.keep {a : Nat} {q : Query} {v : Multiset} (hq : N a q)
    (hans : answerOf fuel reader none q = .ok v) (hs : Stands fuel reader N arr) :
    Made fuel reader N arr (Function.update arr (a, reader.edition) (some v)) := by
  intro k
  by_cases hk : k = (a, reader.edition)
  · subst hk
    cases hkept : arr (a, reader.edition) with
    | none => exact .inr ⟨rfl, a, q, v, rfl, hq, Function.update_self .., hans⟩
    | some w =>
      have hw := hs a q w hq hkept
      exact .inl ((Function.update_self ..).trans (congrArg some (Except.ok.inj (hans.symm.trans hw))))
  · exact .inl (Function.update_of_ne hk _ _)

namespace Computes

variable {α β : Type}

theorem pure (a : α) : Computes fuel reader N (Pure.pure a : Eval α) (.ok a) := fun arr _ => ⟨rfl, .refl arr⟩

theorem lift (e : Except Fault α) : Computes fuel reader N (liftM e : Eval α) e := fun arr _ => ⟨rfl, .refl arr⟩

theorem throw (e : Fault) : Computes fuel reader N (MonadExcept.throw e : Eval α) (.error e) :=
  fun arr _ => ⟨rfl, .refl arr⟩

theorem run_bind (x : Eval α) (f : α → Eval β) (arr : Arrangements) :
    ((x >>= f).run arr).2 = match x.value arr with
      | .ok a => ((f a).run (x.run arr).2).2
      | .error _ => (x.run arr).2 := by
  show ((ExceptT.mk (x.run >>= ExceptT.bindCont f)).run arr).2 = _
  show (ExceptT.bindCont f (x.run arr).1 (x.run arr).2).2 = match (x.run arr).1 with
      | .ok a => ((f a).run (x.run arr).2).2
      | .error _ => (x.run arr).2
  cases (x.run arr).1 <;> rfl

theorem bind (hN : ∀ a p p', N a p → N a p' → p = p') {x : Eval α} {e : Except Fault α}
    {f : α → Eval β} {g : α → Except Fault β} (hx : Computes fuel reader N x e)
    (hf : ∀ a, Computes fuel reader N (f a) (g a)) : Computes fuel reader N (x >>= f) (e >>= g) := by
  intro arr hs
  obtain ⟨hv, hm⟩ := hx arr hs
  rw [Eval.value_bind, run_bind, hv]
  cases e with
  | error e => exact ⟨rfl, hm⟩
  | ok a =>
    obtain ⟨hv', hm'⟩ := hf a _ (hm.stands hN hs)
    exact ⟨hv', hm.trans hm'⟩

/-- The loop settles where the loop over answers does. -/
theorem iterateFrom (hN : ∀ a p p', N a p → N a p' → p = p') {step : Multiset → Eval Multiset}
    {step' : Multiset → Except Fault Multiset} (hstep : ∀ r, Computes fuel reader N (step r) (step' r))
    (initVal : Multiset) : ∀ (n : Nat) (r : Multiset),
      Computes fuel reader N (Grmpl.iterateFrom step initVal n r) (roundsFrom step' initVal n r) := by
  intro n
  induction n with
  | zero => exact fun r => throw _
  | succ n ih =>
    intro r
    refine (hstep r).bind hN fun stepped => ?_
    dsimp only
    split_ifs
    · exact pure r
    · exact ih _

end Computes

/-- A shared subplan's rows are those kept under its address, or else made and kept. -/
theorem shared_eq (arc : Nat) (inner : Query) :
    evalInner fuel reader none none (.shared arc inner) =
      ((MonadState.get : Eval Arrangements) >>= fun kept => match kept (arc, reader.edition) with
        | some hit => pure hit
        | none => evalInner fuel reader none none inner >>= fun v => do
            modify fun arr => Function.update arr (arc, reader.edition) (some v)
            pure v) := rfl

theorem shared_value (arc : Nat) (inner : Query) (arr : Arrangements) :
    (evalInner fuel reader none none (.shared arc inner)).value arr =
      match arr (arc, reader.edition) with
      | some hit => .ok hit
      | none => (evalInner fuel reader none none inner).value arr := by
  rw [shared_eq, Eval.value_bind]
  show Eval.value (match arr (arc, reader.edition) with | some hit => _ | none => _) arr = _
  cases arr (arc, reader.edition) with
  | some hit => rfl
  | none =>
    rw [Eval.value_bind]
    cases (evalInner fuel reader none none inner).value arr <;> rfl

theorem shared_run (arc : Nat) (inner : Query) (arr : Arrangements) :
    ((evalInner fuel reader none none (.shared arc inner)).run arr).2 =
      match arr (arc, reader.edition) with
      | some _ => arr
      | none => match (evalInner fuel reader none none inner).value arr with
          | .ok v => Function.update ((evalInner fuel reader none none inner).run arr).2
              (arc, reader.edition) (some v)
          | .error _ => ((evalInner fuel reader none none inner).run arr).2 := by
  rw [shared_eq, Computes.run_bind]
  show ((match arr (arc, reader.edition) with | some hit => _ | none => _ : Eval Multiset).run arr).2 = _
  cases arr (arc, reader.edition) with
  | some hit => rfl
  | none =>
    rw [Computes.run_bind]
    cases (evalInner fuel reader none none inner).value arr <;> rfl

/-- Nothing arranged stands for anything. -/
theorem stands_start : Stands fuel reader N fun _ => none := fun _ _ _ _ h => nomatch h

/-- **From arrangements that stand for its subplans a plan is evaluated to its answer**, and
what it adds to them stands for its subplans too. -/
theorem evalInner_computes (hN : ∀ a p p', N a p → N a p' → p = p') :
    ∀ (q : Query) (recur : Option Multiset), (∀ a p, q.HasNode a p → N a p) →
      Computes fuel reader N (evalInner fuel reader none recur q) (answerOf fuel reader recur q) := by
  intro q
  induction q with
  | rel r => exact fun _ _ => (Computes.lift _).bind hN fun _ => .pure _
  | rangeRel rel lo hi => exact fun _ _ => (Computes.lift _).bind hN fun _ => .pure _
  | rangeRelOn rel col lo hi => exact fun _ _ => (Computes.lift _).bind hN fun _ => .pure _
  | map input f ih => exact fun recur hq => (ih recur hq).bind hN fun _ => .lift _
  | filter input pred ih => exact fun recur hq => (ih recur hq).bind hN fun _ => .lift _
  | project input cols ih => exact fun recur hq => (ih recur hq).bind hN fun _ => .lift _
  | join left right leftKey rightKey ihl ihr =>
    exact fun recur hq => (ihl recur fun a p h => hq a p (.inl h)).bind hN fun _ =>
      (ihr recur fun a p h => hq a p (.inr h)).bind hN fun _ => .lift _
  | union a b iha ihb =>
    exact fun recur hq => (iha recur fun a p h => hq a p (.inl h)).bind hN fun _ =>
      (ihb recur fun a p h => hq a p (.inr h)).bind hN fun _ => .pure _
  | negate a ih => exact fun recur hq => (ih recur hq).bind hN fun _ => .pure _
  | distinct a ih => exact fun recur hq => (ih recur hq).bind hN fun _ => .pure _
  | reduce input key agg ih => exact fun recur hq => (ih recur hq).bind hN fun _ => .lift _
  | recur => exact fun _ _ => .pure _
  | iterate init step ihi ihs =>
    intro recur hq
    simp only [evalInner, answerOf]
    split_ifs
    · exact .throw _
    · exact (ihi none fun a p h => hq a p (.inl h)).bind hN fun initVal =>
        .iterateFrom hN (fun r => ihs (some r) fun a p h => hq a p (.inr h)) initVal fuel _
  | inherit input col key ctx ih =>
    exact fun recur hq => (ih recur hq).bind hN fun _ => (Computes.lift _).bind hN fun _ => .pure _
  | materialized plan into pre cursorRel key reduce ih =>
    intro recur hq
    cases recur with
    | none =>
      refine (Computes.lift _).bind hN fun stored => ?_
      cases stored with
      | none => exact ih none hq
      | some rows => exact .lift _
    | some m => exact ih (some m) hq
  | shared arc inner ih =>
    intro recur hq
    have hinner : ∀ a p, inner.HasNode a p → N a p := fun a p h => hq a p (.inr h)
    cases recur with
    | some m => exact ih (some m) hinner
    | none =>
      intro arr hs
      have hnode : N arc inner := hq arc inner (.inl ⟨rfl, rfl⟩)
      have hans := ih none hinner arr hs
      rw [shared_value, shared_run]
      cases hhit : arr (arc, reader.edition) with
      | some hit => exact ⟨(hs arc inner hit hnode hhit).symm, .refl arr⟩
      | none =>
        dsimp only
        cases hv : (evalInner fuel reader none none inner).value arr with
        | error e => exact ⟨hv.symm.trans hans.1, hans.2⟩
        | ok v =>
          have hanswer : answerOf fuel reader none inner = .ok v := hans.1.symm.trans hv
          exact ⟨hanswer.symm, hans.2.trans (.keep hnode hanswer (hans.2.stands hN hs))⟩

end Computes

/-- A plan evaluated with nothing arranged comes to its answer. -/
theorem evalSnapshotOn_eq {q : Query} (hq : q.Addressed) (fuel : Nat) (reader : EditionReader) :
    evalSnapshotOn fuel q reader = answerOf fuel reader none q :=
  (evalInner_computes hq q none (fun _ _ h => h) _ stands_start).1

/-- And so does one with its recursion variable given. -/
theorem evalWithRecur_eq {q : Query} (hq : q.Addressed) (fuel : Nat) (store : DynTraceStore) (at' : Nat)
    (r : Multiset) : evalWithRecur fuel q store at' r = answerOf fuel (store.readerAt at') (some r) q :=
  (evalInner_computes hq q (some r) (fun _ _ h => h) _ stands_start).1

/-! ## Calls that pass one cache -/

/-- A plan evaluated at an edition of a store with what has been arranged before, and what
has been arranged after. -/
def evalSnapshotWith (fuel : Nat) (q : Query) (store : DynTraceStore) (at' : Nat) (arr : Arrangements) :
    Except Fault Multiset × Arrangements := (evalInner fuel (store.readerAt at') none none q).run arr

/-- Who passes the cache: the shared plans alive, by the addresses they live at, what is
arranged, and of what plan and reader each arrangement was made. -/
structure Caller where
  heap : Nat → Option Query
  arr : Arrangements
  madeOf : Nat × Nat → Option (Query × EditionReader)

namespace Caller

def start : Caller := ⟨fun _ => none, fun _ => none, fun _ => none⟩

/-- Every shared subplan lives at its address. -/
def Holds (c : Caller) (q : Query) : Prop := ∀ a p, q.HasNode a p → c.heap a = some p

/-- What is arranged under an address of the plan's, at the reader's edition, was made of
the subplan that lives there, and by the reader. -/
def Own (c : Caller) (q : Query) (reader : EditionReader) : Prop :=
  ∀ a p, q.HasNode a p → c.arr (a, reader.edition) ≠ none →
    c.madeOf (a, reader.edition) = some (p, reader)

/-- After a call. -/
def called (c : Caller) (arr : Arrangements) (reader : EditionReader) : Caller :=
  { c with
    arr := arr
    madeOf := fun k => match c.arr k with
      | some _ => c.madeOf k
      | none => (c.heap k.1).map (·, reader) }

/-- What a caller does: give a plan an address nothing lives at, drop one that no plan
alive refers to, or evaluate. -/
inductive Act where
  | share (a : Nat) (p : Query)
  | drop (a : Nat)
  | call (q : Query) (store : DynTraceStore) (at' : Nat)

inductive Step (fuel : Nat) : Caller → Act → Caller → Prop
  | share {c a p} : c.heap a = none → c.Holds p →
      Step fuel c (.share a p) { c with heap := Function.update c.heap a (some p) }
  | drop {c a} : (∀ b p, c.heap b = some p → ∀ p', ¬ p.HasNode a p') →
      Step fuel c (.drop a) { c with heap := Function.update c.heap a none }
  | call {c q store at'} : c.Holds q → Step fuel c (.call q store at')
      (c.called (evalSnapshotWith fuel q store at' c.arr).2 (store.readerAt at'))

/-- Reached by steps that all meet a condition. -/
inductive Run (fuel : Nat) (ok : Caller → Act → Prop) : Caller → Prop
  | start : Run fuel ok start
  | step {c act c'} : Run fuel ok c → ok c act → Step fuel c act c' → Run fuel ok c'

/-- Every call finds its own. -/
def OwnCalls (c : Caller) : Act → Prop
  | .call q store at' => c.Own q (store.readerAt at')
  | _ => True

/-- What is arranged is what the plan it was made of answered. -/
def Kept (fuel : Nat) (c : Caller) : Prop :=
  ∀ k v, c.arr k = some v → ∃ q reader, c.madeOf k = some (q, reader) ∧ k.2 = reader.edition ∧
    answerOf fuel reader none q = .ok v

variable {fuel : Nat} {c c' : Caller} {q : Query} {reader : EditionReader}

theorem Holds.addressed (h : c.Holds q) : q.Addressed := fun a p p' hp hp' =>
  Option.some.inj ((h a p hp).symm.trans (h a p' hp'))

theorem Kept.stands (hk : Kept fuel c) (ho : c.Own q reader) : Stands fuel reader q.HasNode c.arr := by
  intro a p v hp hv
  obtain ⟨p', reader', hmade, -, hans⟩ := hk _ _ hv
  rw [ho a p hp (hv ▸ Option.some_ne_none v)] at hmade
  cases hmade
  exact hans

theorem Kept.called (hk : Kept fuel c) (hq : c.Holds q) {arr : Arrangements}
    (hm : Made fuel reader q.HasNode c.arr arr) : Kept fuel (c.called arr reader) := by
  intro k v hv
  rcases hm k with hsame | ⟨hnone, a, p, w, rfl, hp, hw, hans⟩
  · have hold : c.arr k = some v := hsame.symm.trans hv
    simp only [Caller.called, hold]
    exact hk k v hold
  · obtain rfl := Option.some.inj (hw.symm.trans hv)
    refine ⟨p, reader, ?_, rfl, hans⟩
    simp only [Caller.called, hnone, hq a p hp, Option.map_some]

/-- **What is arranged was answered, in every run whose calls find their own.** -/
theorem Run.kept (h : Run fuel OwnCalls c) : Kept fuel c := by
  induction h with
  | start => exact fun _ _ h => nomatch h
  | step _ hok hstep ih =>
    cases hstep with
    | share => exact ih
    | drop => exact ih
    | call hq =>
      have hcomp := evalInner_computes hq.addressed _ none (fun _ _ h => h) _ (ih.stands hok)
      exact ih.called hq hcomp.2

end Caller

/-- **Arrangements are transparent where they are one's own**: in every run whose calls find
under their subplans' addresses what was made of these, a call that does answers what it
would with nothing arranged. -/
theorem arrangements_transparent {fuel : Nat} {c : Caller} (h : Caller.Run fuel Caller.OwnCalls c)
    {q : Query} {store : DynTraceStore} {at' : Nat} (hq : c.Holds q) (ho : c.Own q (store.readerAt at')) :
    (evalSnapshotWith fuel q store at' c.arr).1 = evalSnapshot fuel q store at' :=
  (evalInner_computes hq.addressed q none (fun _ _ h => h) _ (h.kept.stands ho)).1.trans
    (evalSnapshotOn_eq hq.addressed fuel _).symm

/-- One row in relation 1, none in any other. -/
def oneRow : TraceStore := TraceStore.empty.commit [(1, ⟨[.ent ⟨7⟩]⟩, 1)]

/-- A caller with one shared plan, at address 0, once evaluated. -/
def sharedOnce (r : RelId) : Caller :=
  { Caller.start with heap := Function.update Caller.start.heap 0 (some (.rel r)) }

/-- And after the call. -/
def calledOnce (r : RelId) : Caller :=
  (sharedOnce r).called (evalSnapshotWith 0 (.shared 0 (.rel r)) oneRow.dyn 1 fun _ => none).2
    (oneRow.dyn.readerAt 1)

theorem sharedOnce_holds (r : RelId) : (sharedOnce r).Holds (.shared 0 (.rel r)) := by
  rintro a p (⟨rfl, rfl⟩ | h)
  · rfl
  · exact h.elim

theorem calledOnce_run {ok : Caller → Caller.Act → Prop} (r : RelId)
    (hok : ∀ c a p, ok c (.share a p)) (hcall : ok (sharedOnce r) (.call (.shared 0 (.rel r)) oneRow.dyn 1)) :
    Caller.Run 0 ok (calledOnce r) :=
  .step (.step .start (hok _ 0 (.rel r)) (.share rfl fun _ _ h => h.elim)) hcall (.call (sharedOnce_holds r))

theorem arrangements_transparent_again :
    (evalSnapshotWith 0 (.shared 0 (.rel 1)) oneRow.dyn 1 (calledOnce 1).arr).1 =
      evalSnapshot 0 (.shared 0 (.rel 1)) oneRow.dyn 1 := by
  refine arrangements_transparent (calledOnce_run 1 (fun _ _ _ => trivial) ?_) (sharedOnce_holds 1) ?_
  · exact fun _ _ _ h => absurd rfl h
  · rintro a p (⟨rfl, rfl⟩ | h) -
    · rfl
    · exact h.elim

/-- **An address taken again answers for the plan that is gone**: relation 1 arranged, its
plan dropped, and relation 2 shared at its address. -/
theorem arrangements_not_transparent : ¬ ∀ (fuel : Nat) (c : Caller),
    Caller.Run fuel (fun _ _ => True) c → ∀ (q : Query) (store : DynTraceStore) (at' : Nat), c.Holds q →
      (evalSnapshotWith fuel q store at' c.arr).1 = evalSnapshot fuel q store at' := by
  intro h
  have hrun : Caller.Run 0 (fun _ _ => True) (calledOnce 1) := calledOnce_run 1 (fun _ _ _ => trivial) trivial
  have hfree : ∀ b p, (calledOnce 1).heap b = some p → ∀ p', ¬ p.HasNode 0 p' := by
    intro b p hb p' hp
    by_cases hb0 : b = 0
    · subst hb0
      cases hb
      exact hp
    · have hnone : (calledOnce 1).heap b = none := Function.update_of_ne hb0 _ _
      rw [hnone] at hb
      cases hb
  have hdropped := hrun.step trivial (.drop hfree)
  have hgone : Function.update (calledOnce 1).heap 0 none 0 = none := Function.update_self ..
  have hagain := hdropped.step trivial (.share (a := 0) (p := .rel 2) hgone fun _ _ h => h.elim)
  have heq := h 0 _ hagain (.shared 0 (.rel 2)) oneRow.dyn 1 (by
    rintro a p (⟨rfl, rfl⟩ | hp)
    · rfl
    · exact hp.elim)
  have hstale : ((evalSnapshotWith 0 (.shared 0 (.rel 2)) oneRow.dyn 1 (calledOnce 1).arr).1.toOption.map
      (·.rows.length)) = some 1 := by
    decide +kernel
  have hfresh : ((evalSnapshot 0 (.shared 0 (.rel 2)) oneRow.dyn 1).toOption.map (·.rows.length)) = some 0 := by
    decide +kernel
  rw [show (evalSnapshotWith 0 (.shared 0 (.rel 2)) oneRow.dyn 1 (calledOnce 1).arr).1 =
    evalSnapshot 0 (.shared 0 (.rel 2)) oneRow.dyn 1 from heq, hfresh] at hstale
  cases hstale

end Grmpl

import Grmpl.Diff.Operators

/-!
# Queries

A plan is a value; evaluating it against a reader is a computation, which keeps what it
has made of each shared subplan, reads a maintained copy of a view where the reader
proves it current, and may come to no answer: an error of the store, an index past the
end of a row, or an iteration that has not settled.

* `Query`: the plans.
* `Query.baseRelations`, `Query.containsReduce`: what a plan reads, and whether it
  aggregates.
* `Eval`, `Fault`: evaluations, and how they fail.
* `storedView`: the stored rows of a view, where they are provably its answer.
* `evalInner`, `evalSnapshot`: the evaluator.
-/

namespace Grmpl

/-- An immutable plan. A shared subplan carries the address it is known by. -/
inductive Query where
  | rel (r : RelId)
  | rangeRel (rel : RelId) (lo hi : Tuple)
  | rangeRelOn (rel : RelId) (col : Nat) (lo hi : Value)
  | map (input : Query) (f : Tuple → Option Tuple)
  | filter (input : Query) (pred : Tuple → Option Bool)
  | project (input : Query) (cols : List Nat)
  | join (left right : Query) (leftKey rightKey : List Nat)
  | union (a b : Query)
  | negate (a : Query)
  | distinct (a : Query)
  | reduce (input : Query) (key : List Nat) (agg : Agg)
  /-- The value of the enclosing iteration so far. -/
  | recur
  | iterate (init step : Query)
  | inherit (input : Query) (col : Nat) (key : Value) (ctx : RelId)
  /-- A plan with a copy of its rows kept in `into`, led by the view's arguments. -/
  | materialized (plan : Query) (into : RelId) (pre : Tuple) (cursorRel : RelId) (key : Entity)
      (reduce : Option (List Nat × Agg))
  | shared (arc : Nat) (inner : Query)

namespace Query

/-- The relations a plan names, as often as it names them. -/
def rels : Query → List RelId
  | .rel r | .rangeRel r .. | .rangeRelOn r .. => [r]
  | .recur => []
  | .map input _ | .filter input _ | .project input _ | .negate input | .distinct input
  | .reduce input .. | .shared _ input | .materialized input .. => input.rels
  | .join left right .. | .union left right | .iterate left right => left.rels ++ right.rels
  | .inherit input _ _ ctx => input.rels ++ [ctx]

/-- Every base relation a plan reads: not where a view's copy is kept. -/
def baseRelations (q : Query) : List RelId := (q.rels.insertionSort (· ≤ ·)).dedup

/-- Whether a plan aggregates anywhere. -/
def containsReduce : Query → Bool
  | .reduce .. => true
  | .rel _ | .rangeRel .. | .rangeRelOn .. | .recur => false
  | .map input _ | .filter input _ | .project input _ | .negate input | .distinct input
  | .shared _ input | .materialized input .. | .inherit input .. => input.containsReduce
  | .join left right .. | .union left right | .iterate left right =>
      left.containsReduce || right.containsReduce

end Query

/-! ## Evaluations -/

/-- How an evaluation fails. -/
inductive Fault where
  | error (e : Error)
  /-- An index past the end of a row. -/
  | panic
  /-- An iteration that has not settled within the rounds it was given. -/
  | spin
  deriving DecidableEq

/-- What has been made of each shared subplan, by its address and the edition. -/
abbrev Arrangements := Nat × Nat → Option Multiset

/-- A computation that may fail, over the arrangements made so far. -/
abbrev Eval := ExceptT Fault (StateM Arrangements)

/-- The contents some relations are given in place of the store's. -/
abbrev Overrides := RelId → Option Multiset

/-- What the store answers, or its error. -/
def ask {α : Type} : Result α → Except Fault α
  | .ok a => .ok a
  | .error e => .error (.error e)

/-- An index past the end of a row ends the evaluation. -/
def inBounds {α : Type} : Option α → Except Fault α
  | some a => .ok a
  | none => .error .panic

/-- The edition a view's copy reflects, if there is one. -/
def cursorAt (reader : EditionReader) (cursorRel : RelId) (key : Entity) : Result (Option Nat) :=
  match (Value.ent key).successor with
  | none => .ok none
  | some next => do
      let rows ← reader.readRange cursorRel ⟨[.ent key]⟩ ⟨[next]⟩
      pure (rows.findSome? fun e => match e.1.cells with
        | [_, .int n] => if 0 < e.2 then some n.toInt.toNat else none
        | _ => none)

/-- The rows of a copy that start with the arguments. -/
def storedRows (reader : EditionReader) (into : RelId) (pre : Tuple) : Result Rows :=
  match pre.cells.getLast? with
  | none => reader.read into
  | some last => match last.successor with
      | some next => reader.readRange into pre ⟨pre.cells.dropLast ++ [next]⟩
      | none => keepRows (fun t => t.cells.take pre.arity == pre.cells) <$> reader.read into

/-- A row without its leading columns. -/
def Tuple.drop? (t : Tuple) (n : Nat) : Option Tuple :=
  if n ≤ t.arity then some ⟨t.cells.drop n⟩ else none

/-- The stored rows of a view, unless a relation of the plan moved since they were
stored. -/
def storedView (reader : EditionReader) (rels : List RelId) (into : RelId) (pre : Tuple)
    (cursorRel : RelId) (key : Entity) : Except Fault (Option Multiset) := do
  match ← ask (cursorAt reader cursorRel key) with
  | none => pure none
  | some cursor =>
      if ← ask (reader.touchedSince cursor rels) then pure none
      else
        let rows ← ask (storedRows reader into pre)
        let out ← inBounds (rows.mapM fun e => (e.1.drop? pre.arity).map (·, e.2))
        pure (some (.ofPairs out))

/-- A view's rows as it answers them: a set, folded if it aggregates. -/
def viewOf (reduce : Option (List Nat × Agg)) (rows : Multiset) : Option Multiset :=
  match reduce with
  | none => some rows.positive
  | some (cols, agg) => reduceSnapshot rows.positive cols agg

/-- From one set to the next until nothing changes. -/
def iterateFrom (step : Multiset → Eval Multiset) (initVal : Multiset) :
    Nat → Multiset → Eval Multiset
  | 0, _ => throw .spin
  | fuel + 1, r => do
      let stepped ← step r
      let next := (initVal.merge stepped).positive
      if next = r then pure r else iterateFrom step initVal fuel next

section Evaluate

variable (fuel : Nat) (reader : EditionReader) (overrides : Option Overrides)

/-- What stands in for a relation. -/
def overlay (rel : RelId) : Option Multiset := overrides.bind (· rel)

/-- A plan's rows at the reader's edition. -/
def evalInner (recur : Option Multiset) : Query → Eval Multiset
  | .rel r => match overlay overrides r with
      | some m => pure m
      | none => return .ofPairs (← liftM (ask (reader.read r)))
  | .rangeRel rel lo hi => match overlay overrides rel with
      | some m => pure (m.filter (inRange lo hi))
      | none => return .ofPairs (← liftM (ask (reader.readRange rel lo hi)))
  | .rangeRelOn rel col lo hi => match overlay overrides rel with
      | some m => pure (m.filter (inColumn col lo hi))
      | none => return .ofPairs (← liftM (ask (reader.readRangeOn rel col lo hi)))
  | .map input f => do liftM (inBounds (mapped f (← evalInner recur input)))
  | .filter input pred => do liftM (inBounds (filtered pred (← evalInner recur input)))
  | .project input cols => do liftM (inBounds (mapped (·.project cols) (← evalInner recur input)))
  | .join left right leftKey rightKey => do
      let l ← evalInner recur left
      let r ← evalInner recur right
      liftM (inBounds (joinMultisets l leftKey r rightKey))
  | .union a b => do
      let l ← evalInner recur a
      let r ← evalInner recur b
      pure (l.merge r).strip
  | .negate a => return (← evalInner recur a).negate
  | .distinct a => return (← evalInner recur a).positive
  | .reduce input key agg => do liftM (inBounds (reduceSnapshot (← evalInner recur input) key agg))
  | .recur => pure (recur.getD .empty)
  | .iterate init step =>
      if init.containsReduce || step.containsReduce then
        throw (.error (.query "Reduce (aggregate) is not permitted inside Iterate"))
      else do
        let initVal ← evalInner none init
        iterateFrom (fun r => evalInner (some r) step) initVal fuel initVal.positive
  | .inherit input col key ctx => do
      let rows ← evalInner recur input
      let ctxRows ← match overlay overrides ctx with
        | some m => pure m.rows
        | none => liftM (ask (reader.readContaining ctx 0 1 (distinctCells rows col)))
      pure (inherit rows col key ctxRows)
  | .materialized plan into pre cursorRel key reduce =>
      match recur, overrides with
      | none, none => do
          match ← liftM (storedView reader plan.baseRelations into pre cursorRel key) with
          | some rows => liftM (inBounds (viewOf reduce rows))
          | none => evalInner recur plan
      | _, _ => evalInner recur plan
  | .shared arc inner =>
      match recur, overrides with
      | none, none => do
          match (← get) (arc, reader.edition) with
          | some hit => pure hit
          | none => do
              let v ← evalInner none inner
              modify fun arr => Function.update arr (arc, reader.edition) (some v)
              pure v
      | _, _ => evalInner recur inner

end Evaluate

/-- The value of a computation from given arrangements. -/
def Eval.value {α : Type} (x : Eval α) (arr : Arrangements) : Except Fault α := (x.run arr).1

/-- A plan evaluated against a reader. -/
def evalSnapshotOn (fuel : Nat) (q : Query) (reader : EditionReader) : Except Fault Multiset :=
  (evalInner fuel reader none none q).value fun _ => none

/-- A plan evaluated at an edition of a store. -/
def evalSnapshot (fuel : Nat) (q : Query) (store : DynTraceStore) (at' : Nat) : Except Fault Multiset :=
  evalSnapshotOn fuel q (store.readerAt at')

/-- A plan evaluated with its recursion variable given. -/
def evalWithRecur (fuel : Nat) (q : Query) (store : DynTraceStore) (at' : Nat) (recur : Multiset) :
    Except Fault Multiset :=
  (evalInner fuel (store.readerAt at') none (some recur) q).value fun _ => none

end Grmpl

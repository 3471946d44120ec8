import Grmpl.Diff.Grouped

/-!
# The change of a query's answer

The change of an answer over an interval is made from the changes of the plan's parts where
the operator is linear, by the rule of products at a join, from the difference of two
versions where a relation is read through `distinct`, from the groups that changed where it
is aggregated, and from both ends otherwise, unless the store can tell that nothing moved.

* `BaseRel`, `RowWise`: plans that read one relation, row by row.
* `matching`: the side of a join that did not change, where it can meet what did.
* `reduceByKey`: the groups that changed, folded at both ends.
* `storedDelta`: the change of a view's copy.
* `evalDelta`: the change of a plan's answer.
-/

open OrdMap

namespace Grmpl

/-! ## Plans that read one relation -/

/-- How a plan restricts the relation it reads, if it does. -/
inductive BaseSpan where
  | whole
  | tuples (lo hi : Tuple)
  | column (col : Nat) (lo hi : Value)

/-- A plan that reads one relation. -/
structure BaseRel where
  rel : RelId
  span : BaseSpan

/-- Whether a row falls inside the restriction. -/
def BaseRel.admits (b : BaseRel) (t : Tuple) : Bool :=
  match b.span with
  | .whole => true
  | .tuples lo hi => inRange lo hi t
  | .column col lo hi => inColumn col lo hi t

def baseOf : Query → Option BaseRel
  | .rel r => some ⟨r, .whole⟩
  | .rangeRel r lo hi => some ⟨r, .tuples lo hi⟩
  | .rangeRelOn r col lo hi => some ⟨r, .column col lo hi⟩
  | .shared _ inner => baseOf inner
  | _ => none

/-- What a row-wise operator does to a row. -/
inductive RowStep where
  | filter (pred : Tuple → Option Bool)
  | project (cols : List Nat)

/-- A relation seen through row-wise operators, the innermost first. -/
structure RowWise where
  base : BaseRel
  steps : List RowStep

/-- A row sent through the operators: dropped, or replaced; an index past its end stops. -/
def throughSteps : List RowStep → Tuple → Option (Option Tuple)
  | [], t => some (some t)
  | .filter pred :: steps, t => do
      if ← pred t then throughSteps steps t else some none
  | .project cols :: steps, t => do throughSteps steps (← t.project cols)

/-- What the plan makes of a row of the relation. -/
def RowWise.image (rs : RowWise) (t : Tuple) : Option (Option Tuple) :=
  if rs.base.admits t then throughSteps rs.steps t else some none

/-- The column of the relation that a column of the plan carries. -/
def RowWise.source (rs : RowWise) (col : Nat) : Option Nat :=
  rs.steps.foldr (fun step src => src.bind fun col => match step with
    | .filter _ => some col
    | .project cols => cols[col]?) (some col)

def rowsOf : Query → Option RowWise
  | .filter input pred => (rowsOf input).map fun rs => { rs with steps := rs.steps ++ [.filter pred] }
  | .project input cols => (rowsOf input).map fun rs => { rs with steps := rs.steps ++ [.project cols] }
  | .shared _ inner => rowsOf inner
  | q => (baseOf q).map (⟨·, []⟩)

/-- A plan without the `distinct`s it starts with: an aggregate sees through them. -/
def Query.undistinct : Query → Query
  | .distinct inner => inner.undistinct
  | .shared _ inner => inner.undistinct
  | q => q

/-! ## The change of an answer -/

section Delta

variable (fuel : Nat) (store : DynTraceStore) (start upTo : Nat)

/-- The most distinct keys that are looked up one at a time. -/
def probeLimit : Nat := 1024

/-- The rows of a side of a join, at least those that can meet the other side's change. -/
def matching (side : Query) (sideKey : List Nat) (delta : Multiset) (deltaKey : List Nat) (at' : Nat) :
    Except Fault Multiset :=
  match baseOf side, sideKey.head?, deltaKey.head? with
  | some base, some col, some dcol =>
      let keys := distinctCells delta dcol
      if keys.length ≤ probeLimit then do
        let rows ← ask (store.lookup base.rel at' col keys)
        pure (.ofPairs (keepRows base.admits rows))
      else evalSnapshot fuel side store at'
  | _, _, _ => evalSnapshot fuel side store at'

/-- Rows' images with their groups, unless one is too short to have a group. -/
def imagesByGroup (rs : RowWise) (key : List Nat) :
    Rows → Except Fault (Option (List (List Value × Tuple × Diff)))
  | [] => pure (some [])
  | e :: rows => do
      match ← inBounds (rs.image e.1) with
      | none => imagesByGroup rs key rows
      | some image => match image.key key with
          | none => pure none
          | some group => do
              let rest ← imagesByGroup rs key rows
              pure (rest.map ((group, image, e.2) :: ·))

/-- The change of an aggregate over a relation seen row by row: the groups whose rows
changed, folded as they are and with the changes put back. -/
def reduceByKey (input : Query) (key : List Nat) (agg : Agg) : Except Fault (Option Multiset) :=
  match rowsOf input.undistinct, key.head? with
  | some rs, some lead => match rs.source lead with
      | none => pure none
      | some col => do
          let changed ← ask (store.compare rs.base.rel start upTo)
          match ← imagesByGroup rs key (changed.map fun c => (c.1, c.2.1 - c.2.2)) with
          | none => pure none
          | some back =>
              let groups := back.map Prod.fst
              let leads := ((groups.filterMap List.head?).insertionSort (· ≤ ·)).dedup
              if leads = [] then pure (some .empty)
              else if probeLimit < leads.length then pure none
              else do
                let members ← ask (store.lookup rs.base.rel upTo col leads)
                match ← imagesByGroup rs key members with
                | none => pure none
                | some members =>
                    let atTo := ZSet.empty.addAll ((members.filter fun g => groups.contains g.1).map Prod.snd)
                    let atFrom := atTo.merge (ZSet.empty.addAll (back.map Prod.snd))
                    let is ← inBounds (reduceSnapshot atTo key agg)
                    let was ← inBounds (reduceSnapshot atFrom key agg)
                    pure (some (is.difference was))
  | _, _ => pure none

/-- Whether the store can tell that nothing a plan reads moved. -/
def quiet (q : Query) : Except Fault Bool := do
  return !(← ask (store.touchedSince start upTo q.baseRelations))

/-- What a row's presence changes by. -/
def entering (wFrom wTo : Diff) : Diff := (if 0 < wTo then 1 else 0) - if 0 < wFrom then 1 else 0

/-- Whether a view's copy is what its plan answers at an edition. -/
def copyCurrent (plan : Query) (cursorRel : RelId) (key : Entity) (at' : Nat) : Except Fault Bool := do
  match ← ask (cursorAt (store.readerAt at') cursorRel key) with
  | none => pure false
  | some c =>
      if at' ≤ c then pure true
      else return !(← ask (store.touchedSince c at' plan.baseRelations))

/-- A row without the arguments it starts with. -/
def Tuple.after? (t pre : Tuple) : Option Tuple :=
  if t.cells.take pre.arity = pre.cells then some ⟨t.cells.drop pre.arity⟩ else none

/-- The change of a view from its copy, if the copy is current at both ends. -/
def storedDelta (plan : Query) (into : RelId) (pre : Tuple) (cursorRel : RelId) (key : Entity) :
    Except Fault (Option Multiset) := do
  if ← copyCurrent store plan cursorRel key start then
    if ← copyCurrent store plan cursorRel key upTo then
      let changed ← ask (store.compare into start upTo)
      pure (some (.addAll .empty (changed.filterMap fun c =>
        (c.1.after? pre).map (·, entering c.2.1 c.2.2))))
    else pure none
  else pure none

/-- The change of a plan's answer over an interval. -/
def evalDelta : Query → Except Fault Multiset
  | .rel r => do
      let us ← ask (store.scanUpdates r start upTo)
      pure (.ofPairs (us.map fun u => (u.tuple, u.diff)))
  | .rangeRel r lo hi => do
      let us ← ask (store.scanUpdates r start upTo)
      pure (.ofPairs ((us.filter fun u => inRange lo hi u.tuple).map fun u => (u.tuple, u.diff)))
  | .rangeRelOn r col lo hi => do
      let us ← ask (store.scanUpdates r start upTo)
      pure (.ofPairs ((us.filter fun u => inColumn col lo hi u.tuple).map fun u => (u.tuple, u.diff)))
  | .map input f => do inBounds (mapped f (← evalDelta input))
  | .filter input pred => do inBounds (filtered pred (← evalDelta input))
  | .project input cols => do inBounds (mapped (·.project cols) (← evalDelta input))
  | .join left right leftKey rightKey => do
      let da ← evalDelta left
      let db ← evalDelta right
      -- each side that did not change is read only if the other did
      let left' ← (if da.rows = [] then pure .empty
        else do inBounds (joinMultisets da leftKey (← matching fuel store right rightKey da leftKey upTo) rightKey))
      let right' ← (if db.rows = [] then pure .empty
        else do inBounds (joinMultisets (← matching fuel store left leftKey db rightKey upTo) leftKey db rightKey))
      let both ← (if da.rows = [] ∨ db.rows = [] then pure .empty
        else inBounds (joinMultisets da leftKey db rightKey))
      pure ((left'.merge right').merge both.negate).strip
  | .union a b => do
      let l ← evalDelta a
      let r ← evalDelta b
      pure (l.merge r).strip
  | .negate a => return (← evalDelta a).negate
  | .distinct a => match baseOf a with
      | some base => do
          let changed ← ask (store.compare base.rel start upTo)
          pure (ZSet.addAll .empty ((changed.filter fun c => base.admits c.1).map fun c =>
            (c.1, entering c.2.1 c.2.2))).strip
      | none => do
          if ← quiet store start upTo (.distinct a) then pure .empty
          else
            let toSet := (← evalSnapshot fuel a store upTo).positive
            pure (toSet.difference (← evalSnapshot fuel a store start).positive)
  | .reduce input key agg => do
      if ← quiet store start upTo (.reduce input key agg) then pure .empty
      else match ← reduceByKey store start upTo input key agg with
        | some out => pure out
        | none => do
            let toSet ← inBounds (reduceSnapshot (← evalSnapshot fuel input store upTo) key agg)
            let fromSet ← inBounds (reduceSnapshot (← evalSnapshot fuel input store start) key agg)
            pure (toSet.difference fromSet)
  | .iterate init step => do
      if ← quiet store start upTo (.iterate init step) then pure .empty
      else
        let toVal ← evalSnapshot fuel (.iterate init step) store upTo
        pure (toVal.difference (← evalSnapshot fuel (.iterate init step) store start))
  | .recur => pure .empty
  | .shared _ inner => evalDelta inner
  | .inherit input col key ctx => do
      if ← ask (store.touchedSince start upTo [ctx]) then
        let toVal ← evalSnapshot fuel (.inherit input col key ctx) store upTo
        pure (toVal.difference (← evalSnapshot fuel (.inherit input col key ctx) store start))
      else
        let d ← evalDelta input
        let ctxRows ← ask (store.readContaining ctx upTo 0 1 (distinctCells d col))
        pure (inherit d col key ctxRows)
  | .materialized plan into pre cursorRel key reduce => match reduce with
      | none => do
          match ← storedDelta store start upTo plan into pre cursorRel key with
          | some d => pure d
          | none => evalDelta plan
      | some _ => evalDelta plan

end Delta

end Grmpl

import Grmpl.Diff.Query
import Grmpl.Lang.BehaviorIr

/-!
# Plans as data

A plan whose predicates and row transforms are data, and its lowering to a runnable
query: closures are made last, and an equality of a base relation's column with a
literal becomes a range read where the literal has a next value.

* `RowExpr.eval`, `PredExpr.test`, `MapExpr.apply`: the closures.
* `QueryIr`: the plans.
* `pushdownColEq`, `pushdownAnyEq`, `QueryIr.lower`: the lowering.
-/

namespace Grmpl

/-- A scalar on a row; a column past the end has no value. -/
def RowExpr.eval (row : Tuple) : RowExpr → Option Value
  | .col i => row.cells[i]?
  | .lit v => some v

mutual

/-- A predicate on a row. -/
def PredExpr.test (row : Tuple) : PredExpr → Option Bool
  | .eq a b => do pure ((← a.eval row) == (← b.eval row))
  | .and ps => PredExpr.testAll row ps

/-- The conjuncts in turn, up to one that fails. -/
def PredExpr.testAll (row : Tuple) : List PredExpr → Option Bool
  | [] => some true
  | p :: ps => do if ← PredExpr.test row p then PredExpr.testAll row ps else pure false

end

/-- A row transform, one expression for each column of its result. -/
structure MapExpr where
  out : List RowExpr

def MapExpr.apply (m : MapExpr) (row : Tuple) : Option Tuple := (m.out.mapM (RowExpr.eval row)).map Tuple.mk

/-- A plan as data. -/
inductive QueryIr where
  | rel (r : RelId)
  | map (input : QueryIr) (f : MapExpr)
  | filter (input : QueryIr) (pred : PredExpr)
  | project (input : QueryIr) (cols : List Nat)
  | join (left right : QueryIr) (leftKey rightKey : List Nat)
  | union (a b : QueryIr)
  | negate (a : QueryIr)
  | distinct (a : QueryIr)
  | reduce (input : QueryIr) (key : List Nat) (agg : Agg)
  | recur
  | iterate (init step : QueryIr)
  | inherit (input : QueryIr) (col : Nat) (key : Value) (ctx : RelId)
  | materialized (plan : QueryIr) (into : RelId) (pre : List Value) (cursorRel : RelId) (key : Entity)
      (reduce : Option (List Nat × Agg))

/-! ## Lowering -/

def conjunctsOf : PredExpr → List PredExpr
  | .and ps => ps
  | p => [p]

/-- The column, the literal and its next value, where a predicate pins a column to a
literal that has one. -/
def colLit : PredExpr → Option (Nat × Value × Value)
  | .eq (.col c) (.lit v) | .eq (.lit v) (.col c) => v.successor.map fun hi => (c, v, hi)
  | _ => none

/-- Every conjunct but one, put together again. -/
def residualOf (conjuncts : List PredExpr) (k : Nat) : Option PredExpr :=
  match conjuncts.eraseIdx k with
  | [] => none
  | [p] => some p
  | ps => some (.and ps)

/-- The first conjunct that pins a column that passes a test, and the others. -/
def pushdown (want : Nat → Bool) (pred : PredExpr) : Option (Nat × Value × Value × Option PredExpr) := do
  let conjuncts := conjunctsOf pred
  let k ← conjuncts.findIdx? fun p => (colLit p).any fun x => want x.1
  let (c, v, hi) ← conjuncts[k]?.bind colLit
  pure (c, v, hi, residualOf conjuncts k)

def pushdownColEq (pred : PredExpr) (want : Nat) : Option (Nat × Value × Value × Option PredExpr) :=
  pushdown (· == want) pred

def pushdownAnyEq (pred : PredExpr) : Option (Nat × Value × Value × Option PredExpr) :=
  pushdown (· != 0) pred

/-- What a pushdown did not consume, as a filter above it. -/
def residualFilter (base : Query) : Option PredExpr → Query
  | none => base
  | some p => .filter base fun t => p.test t

/-- A filter of a base relation: a range of its primary order, or of another column, or
a plain filter. -/
def lowerFilter (r : RelId) (pred : PredExpr) : Query :=
  match pushdownColEq pred 0 with
  | some (_, key, hi, residual) => residualFilter (.rangeRel r ⟨[key]⟩ ⟨[hi]⟩) residual
  | none => match pushdownAnyEq pred with
      | some (col, key, hi, residual) => residualFilter (.rangeRelOn r col key hi) residual
      | none => .filter (.rel r) fun t => pred.test t

/-- A plan as a runnable query. -/
def QueryIr.lower : QueryIr → Query
  | .rel r => .rel r
  | .map input f => .map input.lower f.apply
  | .filter input pred => match input with
      | .rel r => lowerFilter r pred
      | input => .filter input.lower fun t => pred.test t
  | .project input cols => .project input.lower cols
  | .join left right leftKey rightKey => .join left.lower right.lower leftKey rightKey
  | .union a b => .union a.lower b.lower
  | .negate a => .negate a.lower
  | .distinct a => .distinct a.lower
  | .reduce input key agg => .reduce input.lower key agg
  | .recur => .recur
  | .iterate init step => .iterate init.lower step.lower
  | .inherit input col key ctx => .inherit input.lower col key ctx
  | .materialized plan into pre cursorRel key fold =>
      .materialized plan.lower into ⟨pre⟩ cursorRel key fold

end Grmpl

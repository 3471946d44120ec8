import Grmpl.Proc.Commit

/-!
# Views kept as relations

A materialization keeps a view's rows in a relation of its own. A refresh commits what
the view has changed by since the materialization's cursor into that relation and moves
the cursor, in one guarded commit. What the view says of an interval of editions is up
to it.

* `Materialized`, `Materialized.cursor`, `Materialized.install`, `Materialized.fold`.
-/

open OrdMap

namespace Grmpl

/-- A view whose rows are kept in a relation. -/
structure Materialized where
  /-- What the view changes by after one edition up to another, in the order of rows. -/
  view : TraceStore → Nat → Nat → Result (List (Tuple × Diff))
  /-- Whether nothing the view reads was touched in between. -/
  quiet : TraceStore → Nat → Nat → Result Bool
  into : RelId
  key : Entity
  cursorRel : RelId
  authority : Authority

namespace Materialized

variable (m : Materialized)

def cursorTuple (edition : Nat) : Tuple := ⟨[.ent m.key, .int (Int64.ofNat edition)]⟩

/-- The edition a row of the cursor relation records for the materialization. -/
def cursorIn (row : Tuple × Diff) : Option Nat :=
  if 0 < row.2 ∧ row.1.cells[0]? = some (.ent m.key) then
    match row.1.cells[1]? with
    | some (Value.int e) => some (max e.toInt 0).toNat
    | _ => none
  else none

def cursor (store : TraceStore) : Result (Option Nat) := do
  let rows ← store.readAt m.cursorRel store.current
  return rows.findSome? m.cursorIn

/-- The cursor's first row, at the empty world. -/
def install (store : TraceStore) (schemas : SchemaCatalog) : Result (TraceStore × CommitOutcome) :=
  commitPatch store schemas (Patch.new.assert ⟨m.cursorRel, m.cursorTuple 0⟩) m.authority

/-- One changed row, as often as its weight. -/
def foldRow (patch : Patch) (row : Tuple × Diff) : Patch :=
  (fun p : Patch => if 0 < row.2 then p.assert ⟨m.into, row.1⟩ else p.retract ⟨m.into, row.1⟩)^[row.2.natAbs]
    patch

/-- The guarded move of the cursor from one edition to another. -/
def advance (start upTo : Nat) : Patch :=
  (Patch.new.expect ⟨m.cursorRel, m.cursorTuple start⟩).advanceCursor
    ⟨m.cursorRel, some (m.cursorTuple start), m.cursorTuple upTo⟩

/-- What a refresh commits: the view's changes since the cursor, and the cursor's move
past them. -/
def fold (store : TraceStore) (start : Nat) : Result (Option Patch) := do
  let upTo := store.current
  if upTo ≤ start then return none
  if ← m.quiet store start upTo then return none
  let rows ← m.view store start upTo
  return some (rows.foldl m.foldRow (m.advance start upTo))

end Materialized

end Grmpl

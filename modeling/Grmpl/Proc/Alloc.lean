import Grmpl.Core.TraceStore

/-!
# Entities from a counter row

An allocator of entities over a relation whose one row is the next entity. The advance is
folded into the committing patch, with the row that was read as a precondition.

* `Alloc`: `read`, `fresh`, `seed`, `sealPatch`.
-/

namespace Grmpl

/-- An allocator of entities over a counter row. -/
structure Alloc where
  rel : RelId
  /-- The counter's value when read. -/
  start : Int64
  present : Bool
  /-- How many have been handed out. -/
  n : Int64
  deriving DecidableEq

namespace Alloc

def meet (a : Alloc) (row : Tuple × Diff) : Alloc :=
  if 0 < row.2 then
    match row.1.cells.head? with
    | some (.int v) => { a with start := v, present := true }
    | _ => a
  else a

def fromRows (rel : RelId) (rows : List (Tuple × Diff)) (base : Int64) : Alloc :=
  rows.foldl meet ⟨rel, base, false, 0⟩

def fresh (a : Alloc) : Entity × Alloc := (⟨(a.start + a.n).toUInt64⟩, { a with n := a.n + 1 })

/-- The counter's row at a value. -/
def row (a : Alloc) (v : Int64) : Fact := ⟨a.rel, ⟨[.int v]⟩⟩

def read (store : TraceStore) (rel : RelId) (base : Int64) : Result Alloc := do
  let rows ← store.readAt rel store.current
  return fromRows rel rows base

/-- The counter's advance, guarded if there was a row. -/
def sealPatch (a : Alloc) (patch : Patch) : Patch :=
  if a.n = 0 then patch
  else (if a.present then (patch.expect (a.row a.start)).retract (a.row a.start) else patch).assert
    (a.row (a.start + a.n))

end Alloc

end Grmpl

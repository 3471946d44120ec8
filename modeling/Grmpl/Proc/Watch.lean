import Grmpl.Proc.Append

/-!
# Watches

A watch binds a view to a process's inbox. A pump appends what the view has changed
by since the watch's cursor, one message a row, and moves the cursor, in one guarded
commit. What the view says of an interval of editions is up to it.

* `OnWatch`, `OnWatch.cursor`, `OnWatch.install`, `OnWatch.batch`.
-/

open OrdMap

namespace Grmpl

/-- A view whose changes are sent to a process. -/
structure OnWatch where
  /-- What the view changes by after one edition up to another, in the order of rows. -/
  view : TraceStore → Nat → Nat → Result (List (Tuple × Diff))
  /-- Whether nothing the view reads was touched in between. -/
  quiet : TraceStore → Nat → Nat → Result Bool
  watch : Entity
  target : Entity
  inbox : RelId
  cursorRel : RelId
  seqs : RelId
  authority : Authority

/-- The body of the message for one changed row. -/
def activationBody (diff : Diff) (row : Tuple) : Tuple :=
  ⟨[.int (Int64.ofInt diff), .tuple row.cells]⟩

namespace OnWatch

variable (w : OnWatch)

/-- The key of the counter the watch draws from. -/
def seqKey : List Value := [.int (Int64.ofNat w.inbox), .ent w.target]

def cursorTuple (edition : Nat) : Tuple := ⟨[.ent w.watch, .int (Int64.ofNat edition)]⟩

/-- The edition a row of the cursor relation records for the watch. -/
def cursorIn (row : Tuple × Diff) : Option Nat :=
  if 0 < row.2 ∧ row.1.cells[0]? = some (.ent w.watch) then
    match row.1.cells[1]? with
    | some (Value.int e) => some (max e.toInt 0).toNat
    | _ => none
  else none

def cursor (store : TraceStore) : Result (Option Nat) := do
  let rows ← store.readAt w.cursorRel store.current
  return rows.findSome? w.cursorIn

/-- The cursor's first row, with the counter's if there is none. -/
def install (store : TraceStore) (start : Nat) : Result Seed := do
  let alloc ← SeqAlloc.read store w.seqs w.seqKey
  return ⟨alloc, Patch.new.assert ⟨w.cursorRel, w.cursorTuple start⟩, some w.authority⟩

/-- What the view has changed by since the cursor, if anything. -/
def batch (store : TraceStore) (start : Nat) : Result (Option Append) := do
  let upTo := store.current
  if upTo ≤ start then return none
  if ← w.quiet store start upTo then return none
  let rows ← w.view store start upTo
  if rows.isEmpty then return none
  return some
    { inbox := w.inbox, target := w.target, seqs := w.seqs, key := w.seqKey
      bodies := rows.map fun r => activationBody r.2 r.1
      base := (Patch.new.expect ⟨w.cursorRel, w.cursorTuple start⟩).advanceCursor
        ⟨w.cursorRel, some (w.cursorTuple start), w.cursorTuple upTo⟩
      authority := some w.authority }

end OnWatch

end Grmpl

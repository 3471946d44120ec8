import Grmpl.Ent.Family
import Grmpl.Ent.TreeGraft

/-!
# A Fact enfilade as its rows

The plain sorted map every version of a tree denotes offers a Fact enfilade's
operations itself. It is the enfilade the runs on fixed inputs are made with,
stored a branch's state to a frame.
-/

open OrdMap

namespace Grmpl

/-- Rows with weights, in key order. -/
abbrev FactRows := List (Tuple × Diff)

namespace FactRows

/-- Whether every entity cell of a row lies in a span of ids. -/
def cellsWithin (t : Tuple) (lo hi : UInt64) : Bool :=
  t.cells.all fun c => match c with
    | .ent e => lo ≤ e.id && e.id < hi
    | _ => true

instance instFactEnf : FactEnf FactRows where
  new := []
  get m t := lookup t m
  insertWith _ m t d _ := put t d m
  remove _ m t := drop t m
  iter m := m
  rangeCollect m lo hi := if lo < hi then between lo hi m else []
  anyIn m lo hi := lo < hi && !(between lo hi m).isEmpty
  spanWithin m lo hi a b := (between lo hi m).all fun e => cellsWithin e.1 a b
  graft _ m lo hi d := Tree.graftMap lo hi d m

instance instFramed : Framed FactRows (BranchId × Nat) where
  nodes := ⟨fun _ => [], fun _ => 0, by simp⟩
  slots r := r.branches.map fun e => (e.1, e.2.current)

end FactRows

end Grmpl

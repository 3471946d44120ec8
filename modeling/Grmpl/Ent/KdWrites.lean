import Grmpl.Ent.KdInv

/-!
# Building a k-d tree

A k-d tree is built by splitting on the column of widest spread at its median, down to
leaves.

* `Leaf.splitOn`, `Leaf.disjoint`: a leaf's items divided by a column, and set apart.
* `widest`, `median`: where a split goes.
* `Tree.build`: a balanced tree over items.
-/

open Bisect

namespace Grmpl

/-! ## Items -/

namespace Leaf

variable {V : Type}

/-- The first row of a span on the other side of a pivot than its first. A run moves
linearly in every column, so this is found by bisection. -/
def boundary (col : Nat) (pivot : Tuple) (s : Span Tuple) : Nat :=
  point s.n fun i => Tree.isBelow col pivot (s.row i) = Tree.isBelow col pivot s.first

/-- A span's items below a pivot and those at or above it. -/
def splitSpan (col : Nat) (pivot : Tuple) (it : Item Tuple V) (s : Span Tuple) (v : Option V) :
    List (Item Tuple V) × List (Item Tuple V) :=
  let first := Tree.isBelow col pivot s.first
  if first = Tree.isBelow col pivot s.last then if first then ([it], []) else ([], [it])
  else
    let a := boundary col pivot s
    let head := spanItems (s.slice 0 a) v
    let tail := spanItems (s.slice a s.n) v
    if first then (head, tail) else (tail, head)

/-- The items whose keys lie below a pivot on a column and those at or above it. -/
def splitOn (items : List (Item Tuple V)) (col : Nat) (pivot : Tuple) :
    List (Item Tuple V) × List (Item Tuple V) :=
  let sides := items.map fun it => match it with
    | .one k _ => if Tree.isBelow col pivot k then ([it], []) else ([], [it])
    | .run s v => splitSpan col pivot it s (some v)
    | .hole s => splitSpan col pivot it s none
  (sides.flatMap Prod.fst, sides.flatMap Prod.snd)

/-- The rows and the reserved keys of some items. -/
def weight (items : List (Item Tuple V)) : Nat := (items.map fun it => it.rows + it.reserved).sum

/-- Items in the order of their least keys. -/
def byLoKey (items : List (Item Tuple V)) : List (Item Tuple V) :=
  items.mergeSort fun a b => a.loKey ≤ b.loKey

/-- An item put where its least key belongs. -/
def place (items : List (Item Tuple V)) (it : Item Tuple V) : List (Item Tuple V) :=
  let p := partitionPoint items fun x => x.loKey < it.loKey
  items.take p ++ it :: items.drop p

/-- Each item cut where the next begins inside it, from index `i` on. -/
def disjointFrom : Nat → List (Item Tuple V) → Nat → List (Item Tuple V)
  | 0, items, _ => items
  | fuel + 1, items, i =>
      match items[i]?, items[i + 1]? with
      | some a, some b =>
          if a.hiKey < b.loKey then disjointFrom fuel items (i + 1)
          else
            let (head, tail) := splitItem a b.loKey
            disjointFrom fuel (tail.foldl place (splice items i head)) (i + head.length - 1)
      | _, _ => items

/-- Items in key order with none inside another's range. -/
def disjoint (items : List (Item Tuple V)) : List (Item Tuple V) :=
  -- a round goes on by one item or cuts one, which leaves no item to the left of it
  disjointFrom (2 * weight items + 1) (byLoKey items) 0

end Leaf

/-! ## Where a split goes -/

/-- The arithmetic of floats that columns are compared by. Floats that are not negative
are ordered as their bits are. -/
class FloatRange where
  /-- The bits of a number rounded to a float. -/
  ofNat : Nat → Nat
  /-- The bits of one float less another not above it. -/
  sub : FiniteF64 → FiniteF64 → Nat

section Pivots

variable {V : Type}

/-- The least and greatest keys of some items. -/
def endsOf (items : List (Item Tuple V)) : List Tuple := items.flatMap fun it => [it.loKey, it.hiKey]

/-- Two ends of a range widened to one cell more, if it is of their kind. -/
def widen {α : Type} [Min α] [Max α] (kind : Value → Option α) (b : α × α) (c : Option Value) :
    Option (α × α) :=
  (c.bind kind).map fun x => (min b.1 x, max b.2 x)

def Value.asEnt : Value → Option Nat
  | .ent e => some e.id.toNat
  | _ => none

def Value.asInt : Value → Option Int
  | .int n => some n.toInt
  | _ => none

def Value.asFloat : Value → Option FiniteF64
  | .float x => some x
  | _ => none

variable [FloatRange]

/-- The lesser and the greater of two floats. -/
instance : Min FiniteF64 := ⟨fun a b => if b.totalKey < a.totalKey then b else a⟩
instance : Max FiniteF64 := ⟨fun a b => if a.totalKey < b.totalKey then b else a⟩

/-- The range of a column if every key holds a number of one kind there. -/
def numericRange (cells : List (Option Value)) : Option Nat :=
  match cells with
  | some (.ent e) :: rest =>
      (rest.foldlM (widen Value.asEnt) (e.id.toNat, e.id.toNat)).map fun b => FloatRange.ofNat (b.2 - b.1)
  | some (.int n) :: rest =>
      (rest.foldlM (widen Value.asInt) (n.toInt, n.toInt)).map fun b => FloatRange.ofNat (b.2 - b.1).toNat
  | some (.float x) :: rest =>
      (rest.foldlM (widen Value.asFloat) (x, x)).map fun b => FloatRange.sub b.2 b.1
  | _ => none

/-- The first column of the most, if any has more than a number. -/
def most (arity least : Nat) (score : Nat → Option Nat) : Option (Nat × Nat) :=
  (List.range arity).foldl (fun best col => match score col with
    | some r => if least < r ∧ best.all (·.2 < r) then some (col, r) else best
    | none => best) none

/-- The column of widest spread: of numbers if any varies, else of the most cells. -/
def widest (items : List (Item Tuple V)) : Nat :=
  let ends := endsOf items
  let arity := (ends.map fun k => k.cells.length).foldr max 0
  let cells := fun col => ends.map fun k : Tuple => k.cells[col]?
  match most arity 0 fun col => numericRange (cells col) with
  | some b => b.1
  | none => ((most arity 1 fun col => some (cells col).dedup.length).map Prod.fst).getD 0

omit [FloatRange]

/-- How much of some items weighs below a pivot. -/
def weightBelow (items : List (Item Tuple V)) (col : Nat) (pivot : Tuple) : Nat :=
  let span := fun s : Span Tuple =>
    if Tree.isBelow col pivot s.first then Leaf.boundary col pivot s else s.n - Leaf.boundary col pivot s
  (items.map fun it => match it with
    | .one k _ => if Tree.isBelow col pivot k then 1 else 0
    | .run s _ => span s
    | .hole s => span s).sum

/-- The numbers of a column, if all are entities or all integers. -/
def columnNumbers (cells : List (Option Value)) : Option (Bool × List Int) :=
  ((cells.mapM fun c : Option Value => c.bind Value.asEnt).map fun l => (true, l.map Int.ofNat)).or
    ((cells.mapM fun c : Option Value => c.bind Value.asInt).map fun l => (false, l))

/-- The weighted median of cells no item varies in: the last before which half the
weight lies, but never the first. -/
def medianCell (total : Nat) :
    List (Option Value × Nat) → Option (Option Value) → Nat → Option Value → Option Value
  | [], _, _, pick => pick
  | (c, w) :: cells, before, acc, pick =>
      if c.isSome ∧ before.any (· ≠ c) ∧ 0 < acc then
        if total ≤ 2 * acc then c else medianCell total cells (some c) (acc + w) c
      else medianCell total cells (some c) (acc + w) pick

/-- A cell before another, a missing one first. -/
def cellLe : Option Value → Option Value → Bool
  | none, _ => true
  | some _, none => false
  | some x, some y => x ≤ y

/-- A pivot on a column nearest the weighted median of some items. -/
def median (items : List (Item Tuple V)) (col : Nat) : Option Value :=
  let total := Leaf.weight items
  match columnNumbers ((endsOf items).map fun k => k.cells[col]?) with
  | some (ent, x :: xs) =>
      let cell := fun x : Int => if ent then Value.ent ⟨UInt64.ofNat x.toNat⟩ else .int (Int64.ofInt x)
      let below := fun x => weightBelow items col ⟨[cell x]⟩
      let lo := xs.foldl min x
      let hi := xs.foldl max x
      -- the least pivot with half the weight below it, or the one before if that is nearer
      let a := lo + 1 + point (hi - (lo + 1)).toNat fun i => 2 * below (lo + 1 + i) < total
      let far := fun n : Nat => (total - 2 * n) + (2 * n - total)
      if lo + 1 < a ∧ 0 < below (a - 1) ∧ far (below (a - 1)) < far (below a) then some (cell (a - 1))
      else some (cell a)
  | _ =>
      let cells := items.map fun it => (it.loKey.cells[col]?, it.rows + it.reserved)
      medianCell total (cells.mergeSort fun a b => cellLe a.1 b.1) none 0 none

end Pivots

namespace Tree

variable {V M : Type}

variable [Measure Tuple V M]

/-- A balanced tree over items, with fuel for the splits. -/
def buildIn [FloatRange] : Nat → List (Item Tuple V) → Tree Tuple V M
  | 0, items => leaf items
  | fuel + 1, items =>
      if items.isEmpty then nil
      else
        let items := Leaf.disjoint items
        if items.length ≤ arityB then leaf items
        else
          let col := widest items
          match median items col with
          | none => leaf items
          | some v =>
              let (lo, hi) := Leaf.splitOn items col ⟨[v]⟩
              splitNode col ⟨[v]⟩ (buildIn fuel lo) (buildIn fuel hi)

/-- A balanced tree over items in key order; each split leaves weight on both sides. -/
def build [FloatRange] (items : List (Item Tuple V)) : Tree Tuple V M := buildIn (Leaf.weight items + 1) items

/-! ## Insert and remove -/

section Rows

variable [RunValue V]

end Rows

/-! ## Join and cut on one column -/

/-! ## A range of a column -/

end Tree

end Grmpl

import Grmpl.Ent.TreeDiff
import Grmpl.Lib.MapDiff

/-!
# Comparing two k-d trees

Each side of the comparison is a list of pieces covering one region. Pieces that
are the same node at the same absolute position cancel; otherwise the largest
split on either side divides both sides at its pivot, opening only the pieces
that straddle it; what is left is compared entry by entry, and the whole result
is put in key order.

* `Tree.Piece`, `Region`: one item of a side, and the bounds its splits put on it.
* `Tree.cancelShared`, `Tree.partition`, `Tree.diffEntries`: the steps.
* `Tree.diffPieces`: the comparison, and `Tree.diff`, of trees of either kind.
-/

open OrdMap

namespace Grmpl

/-- What the splits above a piece say about it: for a column, every key's cell
is at or above the first bound and below the second. -/
abbrev Region (K : Type) := List (Nat × Option K × Option K)

section Regions

variable {K : Type} [LinearOrder K]

/-- Bounds tightened to one side of a pivot. -/
def tighten (b : Option K × Option K) (pivot : K) (below : Bool) : Option K × Option K :=
  if below then (b.1, if b.2.all (pivot < ·) then some pivot else b.2)
  else (if b.1.all (· < pivot) then some pivot else b.1, b.2)

/-- A region narrowed to one side of a split on a column at a pivot. -/
def narrowed (col : Nat) (pivot : K) (below : Bool) : Region K → Region K
  | [] => [(col, tighten (none, none) pivot below)]
  | r :: rest =>
      if r.1 = col then (col, tighten r.2 pivot below) :: rest
      else r :: narrowed col pivot below rest

/-- Which side of a split a region lies wholly on, if it is known. -/
def regionSide (region : Region K) (col : Nat) (pivot : K) : Option Bool :=
  (region.find? (·.1 = col)).bind fun r =>
    if r.2.2.any (· ≤ pivot) then some true
    else if r.2.1.any (pivot ≤ ·) then some false
    else none

end Regions

namespace Tree

variable {K V M : Type}

/-- One item of a side: a subtree under a parent frame with the bounds on it and
its path, or one entry in the absolute frame. -/
inductive Piece (K V M : Type) where
  | node (t : Tree K V M) (off : Dsp) (region : Region K) (path : Path)
  | entry (k : K) (v : V)

/-- A side with one piece for the whole tree, or none if it is empty. -/
def Piece.side (t : Tree K V M) : List (Piece K V M) :=
  if t.isEmpty then [] else [.node t 0 [] []]

/-- The last position in `ys` of a node at `off` that `marked` accepts. -/
def lastNode (ys : List (Piece K V M)) (off : Dsp) (marked : Path → Bool) : Option Nat :=
  (ys.zipIdx.filter fun y => match y.1 with
    | .node t off' _ q => !t.isEmpty && off' + t.dsp = off && marked q
    | .entry .. => false).getLast?.map Prod.snd

/-- The piece of the other side known to be the node `x`, at its position: by
address, else by content key. -/
def hit (A B : Marks) (ys : List (Piece K V M)) : Piece K V M → Option Nat
  | .node t off _ p =>
      if t.isEmpty then none
      else
        (lastNode ys (off + t.dsp) fun q => A.addr p = B.addr q).or
          ((A.ck p).bind fun ck => lastNode ys (off + t.dsp) fun q => B.ck q = some ck)
  | .entry .. => none

/-- The pieces of one side kept, and the positions of the other side's that they
cancel with, beside those gone before. -/
def cancel (A B : Marks) (ys : List (Piece K V M)) :
    List (Piece K V M) → List Nat → List (Piece K V M) × List Nat
  | [], gone => ([], gone)
  | x :: xs, gone =>
      match (hit A B ys x).filter fun j => !gone.contains j with
      | some j => cancel A B ys xs (j :: gone)
      | none => (x :: (cancel A B ys xs gone).1, (cancel A B ys xs gone).2)

/-- The pieces left at the positions not gone. -/
def keptAt (ys : List (Piece K V M)) (gone : List Nat) : List (Piece K V M) :=
  (ys.zipIdx.filter fun y => !gone.contains y.2).map Prod.fst

/-- Drop every pair of pieces, one from each side, that are the same node at the
same absolute position. -/
def cancelShared (A B : Marks) (xs ys : List (Piece K V M)) :
    List (Piece K V M) × List (Piece K V M) :=
  ((cancel A B ys xs []).1, keptAt ys (cancel A B ys xs []).2)

variable [Displace K]

/-- The size, column and absolute pivot of a piece that is a split. -/
def splitOf : Piece K V M → Option (Nat × Nat × K)
  | .node t off _ _ =>
      match t with
      | nodeSplit d _ col pivot _ _ => some (t.len, col, displace pivot (off + d))
      | _ => none
  | .entry .. => none

/-- The largest split of either side, the last of equals. -/
def splitter (ps : List (Piece K V M)) : Option (Nat × Nat × K) :=
  (ps.filterMap splitOf).foldl (fun best s =>
    if best.all (·.1 ≤ s.1) then some s else best) none

/-- The entry's cell in a column lies below a pivot. -/
def isBelow (col : Nat) (pivot k : K) : Bool := cmpColumn k col pivot 0 = .lt

/-- Every entry of a piece. -/
def Piece.entries : Piece K V M → List (K × V)
  | .node t off _ _ => collectAll t off
  | .entry k v => [(k, v)]

/-- Every entry of some pieces, in key order. -/
def flat (ps : List (Piece K V M)) : List (K × V) :=
  sortKeys (ps.flatMap Piece.entries)

/-- Compare what is left entry by entry. -/
def diffEntries [DecidableEq V] (xs ys : List (Piece K V M)) : List (EntryDiff K V) :=
  mergeDiff (flat xs) (flat ys)

/-- Divide a leaf's items at a split: the whole leaf, if the ends of every item lie
on one side, or its entries one by one. -/
def partitionLeaf (col : Nat) (pivot : K) (items : List (Item K V)) (off : Dsp)
    (whole : Bool → Piece K V M) : List (Piece K V M) × List (Piece K V M) :=
  if items.all fun it => isBelow col pivot (displace it.loKey off) &&
      isBelow col pivot (displace it.hiKey off) then
    ([whole true], [])
  else if items.all fun it => !isBelow col pivot (displace it.loKey off) &&
      !isBelow col pivot (displace it.hiKey off) then
    ([], [whole false])
  else
    let es := items.flatMap (·.eachRow off)
    ((es.filter fun e => isBelow col pivot e.1).map fun e => .entry e.1 e.2,
      (es.filter fun e => !isBelow col pivot e.1).map fun e => .entry e.1 e.2)

variable [Measure K V M]

/-- Which side of a pivot a summary says a subtree lies on. -/
def summarySide (m : M) (off : Dsp) (col : Nat) (pivot : K) : Option Bool :=
  Measure.sideOf V (if off = 0 then m else Measure.displaceM K V m off) col pivot

/-- Divide one subtree at a split: the pieces below it and those at or above. -/
def partitionNode (col : Nat) (pivot : K) :
    Nat → Tree K V M → Dsp → Region K → Path → List (Piece K V M) × List (Piece K V M)
  | 0, _, _, _, _ => ([], [])
  | fuel + 1, t, poff, region, path =>
      match t.localMeasure with
      | none => ([], [])
      | some m =>
          let off := poff + t.dsp
          match (regionSide region col pivot).or (summarySide (V := V) m off col pivot) with
          | some true => ([.node t poff region path], [])
          | some false => ([], [.node t poff region path])
          | none =>
              match t with
              | nil => ([], [])
              | nodeLeaf _ _ items =>
                  partitionLeaf col pivot items off fun b =>
                    .node t poff (narrowed col pivot b region) path
              | nodeSplit _ _ c q lo hi =>
                  let q := displace q off
                  let l := partitionNode col pivot fuel lo off (narrowed c q true region) (0 :: path)
                  let h := partitionNode col pivot fuel hi off (narrowed c q false region) (1 :: path)
                  (l.1 ++ h.1, l.2 ++ h.2)
              | nodeInternal _ _ _ children =>
                  let parts := children.zipIdx.map fun (c, i) =>
                    partitionNode col pivot fuel c off region (i :: path)
                  (parts.flatMap Prod.fst, parts.flatMap Prod.snd)

/-- Divide one piece at a split. -/
def partitionPiece (col : Nat) (pivot : K) : Piece K V M → List (Piece K V M) × List (Piece K V M)
  | .entry k v => if isBelow col pivot k then ([.entry k v], []) else ([], [.entry k v])
  | .node t off region path => partitionNode col pivot t.depth t off region path

/-- Divide pieces at a split on a column at a pivot. -/
def partition (ps : List (Piece K V M)) (col : Nat) (pivot : K) :
    List (Piece K V M) × List (Piece K V M) :=
  (ps.flatMap fun p => (partitionPiece col pivot p).1,
    ps.flatMap fun p => (partitionPiece col pivot p).2)

variable [DecidableEq V]

/-- The comparison of two sides, one division for each unit of fuel. -/
def diffPieces (A B : Marks) :
    Nat → List (Piece K V M) → List (Piece K V M) → List (EntryDiff K V)
  | 0, _, _ => []
  | fuel + 1, xs, ys =>
      let (xs, ys) := cancelShared A B xs ys
      if xs.isEmpty && ys.isEmpty then []
      else
        match splitter (xs ++ ys) with
        | none => diffEntries xs ys
        | some (_, col, pivot) =>
            let x := partition xs col pivot
            let y := partition ys col pivot
            diffPieces A B fuel x.1 y.1 ++ diffPieces A B fuel x.2 y.2

mutual

/-- The splits of a tree. -/
def splits : Tree K V M → Nat
  | nil => 0
  | nodeLeaf .. => 0
  | nodeInternal _ _ _ children => splitsList children
  | nodeSplit _ _ _ _ lo hi => splits lo + splits hi + 1

def splitsList : List (Tree K V M) → Nat
  | [] => 0
  | c :: cs => splits c + splitsList cs

end

/-- The comparison of two k-d trees, in no order. -/
def kdDiff (A B : Marks) (a b : Tree K V M) : List (EntryDiff K V) :=
  diffPieces A B (splits a + splits b + 1) (Piece.side a) (Piece.side b)

/-- **The difference** of two trees: each key whose presence or value differs,
with its value on either side. -/
def diff (A B : Marks) (a b : Tree K V M) : List (EntryDiff K V) :=
  if a.isKd || b.isKd then sortKeys (kdDiff A B a b)
  else diffOrdered A B a b

end Tree

end Grmpl

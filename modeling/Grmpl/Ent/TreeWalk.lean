import Grmpl.Ent.Tree
import Mathlib.Data.List.Sort

/-!
# Read walks of a tree

A walk's query stays in the frame it was asked in, and an offset carries the
current node's frame to it. A bound threaded down from an ancestor's separators
travels with its own offset; it is what lets a subtree wholly inside a span
answer from what it caches.

* `Tree.get`, `Tree.lastLe`: lookups.
* `Tree.rangeCollect`, `Tree.countRange`, `Tree.measureRange`, `Tree.anyIn`: spans.
* `Tree.search`: the search by measure.
* `Tree.iter`: the in-order iterator, as the stack machine it is.
* `Tree.graft`: the virtual copy of a span.
-/

open Bisect

namespace Grmpl

/-- A known bound on a subtree's keys: a separator and the offset that carries
its frame to the query's. -/
abbrev Bound (K : Type) := Option (K × Dsp)

/-- How a read walk sees a node: items, children divided by separators (an
internal node, or a split on column `0`), or children whose keys interleave. -/
inductive View (K V M : Type) where
  | leaf (items : List (Item K V))
  | sep (keys : List K) (children : List (Tree K V M))
  | mixed (children : List (Tree K V M))

namespace Tree

def view {K V M : Type} : Tree K V M → View K V M
  | nil => .leaf []
  | nodeLeaf _ _ items => .leaf items
  | nodeInternal _ _ keys children => .sep keys children
  | nodeSplit _ _ 0 pivot lo hi => .sep [pivot] [lo, hi]
  | nodeSplit _ _ _ _ lo hi => .mixed [lo, hi]

variable {K V M : Type} [Displace K]

/-- A subtree bounded by `[nlo, nhi)` cannot meet `[lo, hi)`. -/
def disjoint (nlo nhi : Bound K) (lo hi : K) : Bool :=
  nlo.any (fun b => cmpDisplaced b.1 b.2 hi ≠ .lt) || nhi.any fun b => cmpDisplaced b.1 b.2 lo ≠ .gt

/-- A subtree bounded by `[nlo, nhi)` lies wholly inside `[lo, hi)`. -/
def contained (nlo nhi : Bound K) (lo hi : K) : Bool :=
  nlo.any (fun b => cmpDisplaced b.1 b.2 lo ≠ .lt) && nhi.any fun b => cmpDisplaced b.1 b.2 hi ≠ .gt

/-- The children whose spans can overlap `[lo, hi)`, with their indices. -/
def span (keys : List K) (children : List (Tree K V M)) (off : Dsp) (lo hi : K) :
    List (Nat × Tree K V M) :=
  let first := partitionPoint keys fun k => cmpDisplaced k off lo ≠ .gt
  let last := min (partitionPoint keys fun k => cmpDisplaced k off hi = .lt) (children.length - 1)
  (List.range' first (max last first + 1 - first)).filterMap fun i =>
    (children[i]?).map fun c => (i, c)

/-- The lower bound of child `idx`. -/
def lowBound (nlo : Bound K) (keys : List K) (off : Dsp) (idx : Nat) : Bound K :=
  if idx = 0 then nlo else (keys[idx - 1]?).map fun k => (k, off)

/-- The upper bound of child `idx` of `n`. -/
def highBound (nhi : Bound K) (keys : List K) (off : Dsp) (n idx : Nat) : Bound K :=
  if idx = n - 1 then nhi else (keys[idx]?).map fun k => (k, off)

/-! ## Lookups -/

/-- The value at `key` in the subtree under `t`. -/
def getIn (key : K) : Nat → Tree K V M → Dsp → Option V
  | 0, _, _ => none
  | fuel + 1, t, off =>
      match t with
      | nil => none
      | nodeLeaf d _ items => Leaf.get items (off + d) key
      | nodeInternal d _ keys children =>
          (children[childIndex keys (off + d) key]?).bind (getIn key fuel · (off + d))
      | nodeSplit d _ col pivot lo hi =>
          getIn key fuel (if cmpColumn key col pivot (off + d) ≠ .lt then hi else lo) (off + d)

/-- The value bound to `key`. -/
def get (t : Tree K V M) (key : K) : Option V := getIn key t.depth t 0

/-- The greatest of two entries by key, the later one on a tie. -/
def maxEntry (a b : Option (K × V)) : Option (K × V) :=
  match a, b with
  | some a, some b => some (if b.1 < a.1 then a else b)
  | some a, none => some a
  | none, b => b

/-- The greatest entry at or below `key` in the subtree under `t`. -/
def lastLeIn (key : K) : Nat → Tree K V M → Dsp → Option (K × V)
  | 0, _, _ => none
  | fuel + 1, t, off =>
      let off := off + t.dsp
      match t.view with
      | .leaf items => Leaf.lastLe items off key
      | .sep keys children =>
          (children.take (childIndex keys off key + 1)).reverse.findSome? (lastLeIn key fuel · off)
      | .mixed children => (children.map (lastLeIn key fuel · off)).foldl maxEntry none

/-- The greatest entry at or below `key`. -/
def lastLe (t : Tree K V M) (key : K) : Option (K × V) := lastLeIn key t.depth t 0

/-! ## Spans -/

/-- The entries of the subtree under `t` with key in `[lo, hi)`. -/
def rangeInto (lo hi : K) : Nat → Tree K V M → Dsp → List (K × V)
  | 0, _, _ => []
  | fuel + 1, t, off =>
      let off := off + t.dsp
      match t.view with
      | .leaf items => Leaf.rangeIn items off lo hi
      | .sep keys children =>
          (span keys children off lo hi).flatMap fun c => rangeInto lo hi fuel c.2 off
      | .mixed children => children.flatMap (rangeInto lo hi fuel · off)

/-- Entries sorted by key unless they already are. -/
def inKeyOrder (out : List (K × V)) : List (K × V) :=
  if out.Pairwise fun a b => a.1 ≤ b.1 then out else out.mergeSort fun a b => a.1 ≤ b.1

/-- The entries with key in `[lo, hi)`, in order. -/
def rangeCollect (t : Tree K V M) (lo hi : K) : List (K × V) :=
  if lo < hi then inKeyOrder (rangeInto lo hi t.depth t 0) else []

/-- The entry count in `[lo, hi)` from the cached sizes. -/
def countInto (lo hi : K) : Nat → Tree K V M → Bound K → Bound K → Dsp → Nat
  | 0, _, _, _, _ => 0
  | fuel + 1, t, nlo, nhi, off =>
      if t.isEmpty || disjoint nlo nhi lo hi then 0
      else if contained nlo nhi lo hi then t.len
      else
        let off := off + t.dsp
        match t.view with
        | .leaf items => Leaf.countIn items off lo hi
        | .sep keys children =>
            ((span keys children off lo hi).map fun c => countInto lo hi fuel c.2
              (lowBound nlo keys off c.1) (highBound nhi keys off children.length c.1) off).sum
        | .mixed children => (children.map (countInto lo hi fuel · nlo nhi off)).sum

/-- How many entries have a key in `[lo, hi)`. -/
def countRange (t : Tree K V M) (lo hi : K) : Nat :=
  if lo < hi then countInto lo hi t.depth t none none 0 else 0

/-- Whether the subtree under `t` has a key in `[lo, hi)`. -/
def anyInto (lo hi : K) : Nat → Tree K V M → Bound K → Bound K → Dsp → Bool
  | 0, _, _, _, _ => false
  | fuel + 1, t, nlo, nhi, off =>
      if t.isEmpty || disjoint nlo nhi lo hi then false
      else if contained nlo nhi lo hi then 0 < t.len || 0 < t.reserved
      else
        let off := off + t.dsp
        match t.view with
        | .leaf items => Leaf.anyIn items off lo hi
        | .sep keys children =>
            (span keys children off lo hi).any fun c => anyInto lo hi fuel c.2
              (lowBound nlo keys off c.1) (highBound nhi keys off children.length c.1) off
        | .mixed children => children.any (anyInto lo hi fuel · nlo nhi off)

/-- Whether any key lies in `[lo, hi)`. -/
def anyIn (t : Tree K V M) (lo hi : K) : Bool :=
  lo < hi && anyInto lo hi t.depth t none none 0

section Measured

variable [Measure K V M]

/-- The measures of everything in `[lo, hi)` folded into `acc`. -/
def foldRange (lo hi : K) : Nat → Tree K V M → Bound K → Bound K → Dsp → M → M
  | 0, _, _, _, _, acc => acc
  | fuel + 1, t, nlo, nhi, off, acc =>
      match t.localMeasure with
      | none => acc
      | some m =>
          if disjoint nlo nhi lo hi then acc
          else
            let off := off + t.dsp
            if contained nlo nhi lo hi then
              Measure.combine K V acc (if off = 0 then m else Measure.displaceM K V m off)
            else match t.view with
              | .leaf items => Leaf.foldIn items off lo hi acc
              | .sep keys children =>
                  (span keys children off lo hi).foldl (fun acc c => foldRange lo hi fuel c.2
                    (lowBound nlo keys off c.1) (highBound nhi keys off children.length c.1) off acc)
                    acc
              | .mixed children =>
                  children.foldl (fun acc c => foldRange lo hi fuel c nlo nhi off acc) acc

/-- The measure of the entries with key in `[lo, hi)`. -/
def measureRange (t : Tree K V M) (lo hi : K) : M :=
  if lo < hi then foldRange lo hi t.depth t none none 0 (Measure.empty K V)
  else Measure.empty K V

/-- The entries of the subtree under `t` that `keep` accepts, visiting only
subtrees and runs whose measure `admits` accepts. -/
def searchInto (admits : M → Bool) (keep : K → V → Bool) : Nat → Tree K V M → Dsp → List (K × V)
  | 0, _, _ => []
  | fuel + 1, t, off =>
      match t.localMeasure with
      | none => []
      | some m =>
          let off := off + t.dsp
          if admits (if off = 0 then m else Measure.displaceM K V m off) then
            match t.view with
            | .leaf items => items.flatMap fun it => match it with
                | .one k v => if keep (displace k off) v then [(displace k off, v)] else []
                | it =>
                    if it.rows = 0 || !admits (Measure.displaceM K V (it.measure M) off) then []
                    else (it.eachRow off).filter fun e => keep e.1 e.2
            | .sep _ children => children.flatMap (searchInto admits keep fuel · off)
            | .mixed children => children.flatMap (searchInto admits keep fuel · off)
          else []

/-- The entries `keep` accepts, in key order. -/
def search (t : Tree K V M) (admits : M → Bool) (keep : K → V → Bool) : List (K × V) :=
  inKeyOrder (searchInto admits keep t.depth t 0)

end Measured

/-! ## The iterator -/

mutual

/-- Every entry under `t`, in the frame `off` carries its parent to, in the order
the nodes hold them. -/
def collectAll : Tree K V M → Dsp → List (K × V)
  | nil, _ => []
  | nodeLeaf d _ items, off => items.flatMap (·.eachRow (off + d))
  | nodeInternal d _ _ children, off => collectList children (off + d)
  | nodeSplit d _ _ _ lo hi, off => collectAll lo (off + d) ++ collectAll hi (off + d)

def collectList : List (Tree K V M) → Dsp → List (K × V)
  | [], _ => []
  | c :: cs, off => collectAll c off ++ collectList cs off

end

/-- The iterator: the children still to visit at each node of the descent, the
leaf being drained, and a sorted subtree being drained. -/
structure Iter (K V M : Type) where
  stack : List (List (Tree K V M) × Dsp) := []
  leaf : Option (List (Item K V) × Nat × Dsp) := none
  sorted : List (K × V) := []

/-- Walk to the leftmost leaf of `t`, recording the nodes passed. -/
def Iter.descend (it : Iter K V M) : Nat → Tree K V M → Dsp → Iter K V M
  | 0, _, _ => it
  | fuel + 1, t, off =>
      let off := off + t.dsp
      match t.view with
      | .leaf items => { it with leaf := some (items, 0, off) }
      | .sep _ (c :: cs) => Iter.descend { it with stack := (cs, off) :: it.stack } fuel c off
      | .sep _ [] => it
      | .mixed children =>
          { it with sorted := (collectList children off).mergeSort fun a b => a.1 ≤ b.1 }

/-- The next row of the leaf being drained: the items and the row left. -/
def nextRow : List (Item K V) → Nat → Dsp → Option ((K × V) × List (Item K V) × Nat)
  | [], _, _ => none
  | .one k v :: items, _, off => some ((displace k off, v), items, 0)
  | .run s v :: items, j, off =>
      if j < s.n then some ((displace (s.row j) off, v), .run s v :: items, j + 1)
      else nextRow items 0 off
  | .hole _ :: items, _, off => nextRow items 0 off

/-- The rows the iterator yields, one turn of its loop for each unit of fuel. -/
def Iter.drain : Nat → Iter K V M → List (K × V)
  | 0, _ => []
  | fuel + 1, it =>
      match it.leaf with
      | some (items, j, off) =>
          match nextRow items j off with
          | some (e, items', j') => e :: Iter.drain fuel { it with leaf := some (items', j', off) }
          | none => Iter.drain fuel { it with leaf := none }
      | none =>
          match it.sorted with
          | e :: rest => e :: Iter.drain fuel { it with sorted := rest }
          | [] =>
              match it.stack with
              | [] => []
              | ([], _) :: rest => Iter.drain fuel { it with stack := rest }
              | (c :: cs, off) :: rest =>
                  Iter.drain fuel (Iter.descend { it with stack := (cs, off) :: rest } c.depth c off)

mutual

/-- The turns the iterator's loop takes over a subtree. -/
def turns : Tree K V M → Nat
  | nil => 2
  | nodeLeaf _ _ items => (items.map Item.rows).sum + 2
  | nodeInternal _ _ _ children => turnsList children + 2
  | nodeSplit _ _ _ _ lo hi => turns lo + turns hi + 2

def turnsList : List (Tree K V M) → Nat
  | [] => 0
  | c :: cs => turns c + turnsList cs

end

/-- The entries in key order. -/
def iter (t : Tree K V M) : List (K × V) :=
  Iter.drain (turns t + 1) (Iter.descend {} t.depth t 0)

/-! ## Virtual copy -/

/-- Copy the entries in `[lo, hi)` to the same keys displaced by `d`, leaving the
originals in place; `none` if the target is occupied or the span is not carried
cleanly into it. -/
def graft [Measure K V M] [RunValue V] (t : Tree K V M) (lo hi : K) (d : Dsp) :
    Option (Tree K V M) :=
  if hi ≤ lo then some t
  else
    let span := ((t.split lo).2.split hi).1
    if span.isEmpty then some t
    else
      let tlo := displace lo d
      let thi := displace hi d
      if thi ≤ tlo || t.anyIn tlo thi then none
      else
        let copy := span.relocate d
        match copy.minKey, copy.maxKey with
        | some first, some last =>
            if first < tlo || thi ≤ last then none
            else
              let (below, above) := t.split tlo
              some (join (join below copy) above)
        | _, _ => none

end Tree

end Grmpl

import Grmpl.Ent.Leaf

/-!
# The displaced, measured B+ tree

A tree is a handle on a node: the node and a displacement, its position relative
to whatever points at it. A node caches the number of its rows, the keys its
holes reserve and its measure, all in its own frame, and is a leaf of items, an
internal node of children between separators, or a k-d split of two children on
one column.

An operation that rewrites a node first *opens* it into its parent's frame. The
recursions follow the tree's depth, which bounds them.

* `Tree`, `Tree.opened`: handles and opened nodes.
* `Tree.insertWith`, `Tree.remove`: writes of one row.
* `Tree.split`, `Tree.join`, `Tree.graft`, `Tree.relocate`: whole spans.
-/

open Bisect

namespace Grmpl

/-- Node arity: the most items of a leaf and children of an internal node. -/
def arityB : Nat := 64

/-- The occupancy floor of a node that is not the root. -/
def minB : Nat := arityB / 2

/-- What a node caches of its subtree, in its own frame. -/
structure Summary (M : Type) where
  size : Nat
  reserved : Nat
  measure : M
deriving DecidableEq

/-- A shared node and the displacement it sits at, or no node at all. -/
inductive Tree (K V M : Type) where
  | nil
  | nodeLeaf (dsp : Dsp) (sum : Summary M) (items : List (Item K V))
  | nodeInternal (dsp : Dsp) (sum : Summary M) (keys : List K) (children : List (Tree K V M))
  | nodeSplit (dsp : Dsp) (sum : Summary M) (col : Nat) (pivot : K) (lo hi : Tree K V M)

/-- A node's contents, expressed in its parent's frame. -/
inductive Opened (K V M : Type) where
  | leaf (items : List (Item K V))
  | internal (keys : List K) (children : List (Tree K V M))
  | split (col : Nat) (pivot : K) (lo hi : Tree K V M)

/-- The result of rewriting a subtree: a replacement, or two trees with a
separator between them. -/
inductive Ins (K V M : Type) where
  | done (t : Tree K V M)
  | split (l : Tree K V M) (sep : K) (r : Tree K V M)

namespace Tree

section Shape

variable {K V M : Type}

/-- The handle's displacement; `0` for the empty tree. -/
def dsp : Tree K V M → Dsp
  | nil => 0
  | nodeLeaf d _ _ | nodeInternal d _ _ _ | nodeSplit d _ _ _ _ _ => d

/-- The root node's cached summary. -/
def sum : Tree K V M → Option (Summary M)
  | nil => none
  | nodeLeaf _ s _ | nodeInternal _ s _ _ | nodeSplit _ s _ _ _ _ => some s

/-- The cached entry count. -/
def len (t : Tree K V M) : Nat := (t.sum.map Summary.size).getD 0

/-- The cached count of keys reserved by holes. -/
def reserved (t : Tree K V M) : Nat := (t.sum.map Summary.reserved).getD 0

/-- The root node's measure in its own frame. -/
def localMeasure (t : Tree K V M) : Option M := t.sum.map Summary.measure

def isEmpty : Tree K V M → Bool
  | nil => true
  | _ => false

/-- The same tree with every key displaced: the same root under a new
displacement. -/
def relocate (t : Tree K V M) (d : Dsp) : Tree K V M :=
  match t with
  | nil => nil
  | nodeLeaf e s items => nodeLeaf (e + d) s items
  | nodeInternal e s keys children => nodeInternal (e + d) s keys children
  | nodeSplit e s col pivot lo hi => nodeSplit (e + d) s col pivot lo hi

/-- Whether the root is a k-d split. -/
def isKd : Tree K V M → Bool
  | nodeSplit .. => true
  | _ => false

mutual

/-- The number of levels, down the deepest path. -/
def depth : Tree K V M → Nat
  | nil => 0
  | nodeLeaf _ _ _ => 1
  | nodeInternal _ _ _ children => depthList children + 1
  | nodeSplit _ _ _ _ lo hi => max (depth lo) (depth hi) + 1

def depthList : List (Tree K V M) → Nat
  | [] => 0
  | c :: cs => max (depth c) (depthList cs)

end

mutual

/-- The number of levels down the leftmost spine: `0` empty, `1` a leaf. -/
def height : Tree K V M → Nat
  | nil => 0
  | nodeLeaf _ _ _ => 1
  | nodeInternal _ _ _ children => heightFirst children + 1
  | nodeSplit _ _ _ _ lo _ => height lo + 1

def heightFirst : List (Tree K V M) → Nat
  | [] => 0
  | c :: _ => height c

end

end Shape

variable {K V M : Type} [Displace K] [Measure K V M]

/-- The measure of the whole tree. -/
def measure (t : Tree K V M) : M :=
  match t.localMeasure with
  | some m => Measure.displaceM K V m t.dsp
  | none => Measure.empty K V

/-! ## Construction -/

/-- What a leaf caches of its items. -/
def leafSummary (items : List (Item K V)) : Summary M :=
  let s := Leaf.summary M items
  ⟨s.2.1, s.2.2, s.1⟩

/-- A leaf over items in its frame. -/
def leaf (items : List (Item K V)) : Tree K V M := nodeLeaf 0 (leafSummary items) items

/-- A child's measure in its parent's frame. -/
def childMeasure (c : Tree K V M) : M :=
  match c.dsp == 0, c.localMeasure with
  | true, some m => m
  | _, _ => c.measure

/-- What a node caches of its children. -/
def childSummary (children : List (Tree K V M)) : Summary M :=
  ⟨(children.map len).sum, (children.map reserved).sum,
    children.foldl (fun m c => Measure.combine K V m c.childMeasure) (Measure.empty K V)⟩

/-- An internal node over children in its frame. -/
def internal (keys : List K) (children : List (Tree K V M)) : Tree K V M :=
  nodeInternal 0 (childSummary children) keys children

/-- A k-d split over two children in its frame. -/
def splitNode (col : Nat) (pivot : K) (lo hi : Tree K V M) : Tree K V M :=
  nodeSplit 0 (childSummary [lo, hi]) col pivot lo hi

/-- A tree from a list of children and the separators between them. -/
def fromParts (keys : List K) (children : List (Tree K V M)) : Tree K V M :=
  match children with
  | [] => nil
  | [c] => c
  | _ => internal keys children

/-- A leaf's items split evenly in two, the right half's least key between. -/
def halved (e : List (Item K V)) : Ins K V M :=
  let right := e.drop (e.length / 2)
  match right.head? with
  | some it => .split (leaf (e.take (e.length / 2))) it.loKey (leaf right)
  | none => .done (leaf e)

/-- A rewritten leaf, its runs folded and split in two if it overflowed. -/
def finishLeaf [RunValue V] (e : List (Item K V)) (runs : Bool) : Ins K V M :=
  let e := if arityB < e.length then Leaf.compress e runs else e
  if e.length ≤ arityB then .done (if e.isEmpty then nil else leaf e) else halved e

/-- A rewritten list of children, split in two if it overflowed, the separator
between the halves promoted. -/
def finish (keys : List K) (children : List (Tree K V M)) : Ins K V M :=
  if children.length ≤ arityB then .done (internal keys children)
  else
    let mid := children.length / 2
    match (keys.take mid).getLast? with
    | some promoted =>
        .split (internal (keys.take mid).dropLast (children.take mid)) promoted
          (internal (keys.drop mid) (children.drop mid))
    | none => .done (internal keys children)

/-- The node opened into its parent's frame: the displacement is pushed down one
level, the children stay shared. -/
def opened : Tree K V M → Opened K V M
  | nil => .leaf []
  | nodeLeaf d _ items => .leaf (items.map (·.displaced d))
  | nodeInternal d _ keys children => .internal (keys.map (displace · d)) (children.map (·.relocate d))
  | nodeSplit d _ col pivot lo hi => .split col (displace pivot d) (lo.relocate d) (hi.relocate d)

/-- The least or the greatest key, in the frame `off` carries the parent to. -/
def extremeKey (greatest : Bool) : Nat → Tree K V M → Dsp → Option K
  | 0, _, _ => none
  | fuel + 1, t, off =>
      match t with
      | nil => none
      | nodeLeaf d _ items => Leaf.extreme items (off + d) greatest
      | nodeInternal d _ _ children =>
          (if greatest then children.getLast? else children.head?).bind
            (extremeKey greatest fuel · (off + d))
      | nodeSplit d _ 0 _ lo hi => extremeKey greatest fuel (if greatest then hi else lo) (off + d)
      | nodeSplit d _ _ _ lo hi =>
          match extremeKey greatest fuel lo (off + d), extremeKey greatest fuel hi (off + d) with
          | some a, some b => some (if greatest then max a b else min a b)
          | _, _ => none

def minKey (t : Tree K V M) : Option K := extremeKey false t.depth t 0

def maxKey (t : Tree K V M) : Option K := extremeKey true t.depth t 0

/-- The child whose span contains `key`, the separators taken at offset `off`. -/
def childIndex (keys : List K) (off : Dsp) (key : K) : Nat :=
  partitionPoint keys fun k => cmpDisplaced k off key ≠ .gt

/-! ## Balance -/

/-- Occupancy below the floor. -/
def underflows : Tree K V M → Bool
  | nil => true
  | nodeLeaf _ _ items => items.length < minB
  | nodeInternal _ _ _ children => children.length < minB
  | nodeSplit .. => false

/-- Two siblings as one node, consuming the separator between them, split evenly
back in two if it overflows. -/
def fusePair (sep : K) (left right : Tree K V M) : Ins K V M :=
  match left.opened, right.opened with
  | .leaf entries, .leaf rest =>
      if (entries ++ rest).length ≤ arityB then .done (leaf (entries ++ rest))
      else halved (entries ++ rest)
  | .internal keys children, .internal rkeys rchildren =>
      finish (keys ++ sep :: rkeys) (children ++ rchildren)
  | _, _ => .split left sep right

/-- Siblings `j` and `j + 1` fused. -/
def fuse (ks : List K) (ch : List (Tree K V M)) (j : Nat) : List K × List (Tree K V M) :=
  match ks[j]?, ch[j]?, ch[j + 1]? with
  | some sep, some left, some right =>
      match fusePair sep left right with
      | .done t => (ks.take j ++ ks.drop (j + 1), ch.take j ++ t :: ch.drop (j + 2))
      | .split l s r => (ks.take j ++ s :: ks.drop (j + 1), ch.take j ++ l :: r :: ch.drop (j + 2))
  | _, _, _ => (ks, ch)

/-- The occupancy floor of child `i` restored by fusing it with a sibling. -/
def fix (ks : List K) (ch : List (Tree K V M)) (i : Nat) : List K × List (Tree K V M) :=
  if ((ch[i]?).map underflows).getD false then
    if 0 < i then fuse ks ch (i - 1)
    else if 1 < ch.length then fuse ks ch i
    else (ks, ch)
  else (ks, ch)

/-! ## Insert and remove -/

variable [RunValue V]

/-- Insert into the subtree under `t`; the key and the result are in `t`'s
parent frame. -/
def ins (runs : Bool) (key : K) (val : V) : Nat → Tree K V M → Ins K V M
  | 0, t => .done t
  | fuel + 1, t =>
      match t.opened with
      | .leaf e => finishLeaf (Leaf.insert e key val runs) runs
      | .internal ks ch =>
          let i := childIndex ks 0 key
          match ch[i]? with
          | none => .done t
          | some c =>
              match ins runs key val fuel c with
              | .done c' =>
                  let (ks, ch) := fix ks (ch.set i c') i
                  .done (fromParts ks ch)
              | .split l sep r =>
                  finish (ks.take i ++ sep :: ks.drop i) (ch.take i ++ l :: r :: ch.drop (i + 1))
      | .split .. => .done t

/-- A new tree with `key` bound to `val`, rows folded into runs if `runs`. -/
def insertWith (t : Tree K V M) (key : K) (val : V) (runs : Bool) : Tree K V M :=
  if t.isEmpty then leaf [.one key val]
  else match ins runs key val t.depth t with
    | .done t => t
    | .split l sep r => internal [sep] [l, r]

/-- Remove `key` from the subtree under `t`, or `none` if it was absent. The
offset carries `t`'s parent frame to the key's; the result is in `t`'s parent
frame. -/
def rem (key : K) : Nat → Tree K V M → Dsp → Option (Ins K V M)
  | 0, _, _ => none
  | fuel + 1, t, off =>
      match t with
      | nil => none
      | nodeLeaf d s items =>
          match Leaf.findRow items (off + d) key, (nodeLeaf d s items : Tree K V M).opened with
          | some (i, j), .leaf e => some (finishLeaf (Leaf.removeAt e i j) false)
          | _, _ => none
      | nodeInternal d s keys children =>
          let i := childIndex keys (off + d) key
          match children[i]?, (nodeInternal d s keys children : Tree K V M).opened with
          | some c, .internal ks ch =>
              match rem key fuel c (off + d) with
              | none => none
              | some (.done c') =>
                  let (ks, ch) := fix ks (ch.set i (c'.relocate d)) i
                  some (.done (internal ks ch))
              | some (.split l sep r) =>
                  some (finish (ks.take i ++ displace sep d :: ks.drop i)
                    (ch.take i ++ l.relocate d :: r.relocate d :: ch.drop (i + 1)))
          | _, _ => none
      | nodeSplit .. => none

/-- An internal root down to one child becomes that child, an emptied leaf root
the empty tree. -/
def shrinkRoot (t : Tree K V M) : Tree K V M :=
  match t with
  | nodeInternal d _ _ [c] => c.relocate d
  | nodeLeaf _ _ [] => nil
  | t => t

/-- A new tree with `key` removed; an absent key returns the same version. -/
def remove (t : Tree K V M) (key : K) : Tree K V M :=
  match rem key t.depth t 0 with
  | none => t
  | some (.done t) => shrinkRoot t
  | some (.split l sep r) => internal [sep] [l, r]

/-! ## Join and split -/

omit [RunValue V] in
/-- Two trees of equal height, their roots fused as siblings. -/
def joinSame (l r : Tree K V M) : Ins K V M :=
  match r.minKey with
  | none => .done l
  | some k =>
      match fuse [k] [l, r] 0 with
      | (_, [t]) => .done t
      | ([s], [a, b]) => .split a s b
      | _ => .done l

/-- Hang `r`, of height `hr`, off the right spine of `t`, of height `ht`. -/
def joinRight (r : Tree K V M) (hr : Nat) : Nat → Tree K V M → Nat → Ins K V M
  | 0, t, _ => .done t
  | fuel + 1, t, ht =>
      match t.opened with
      | .internal ks ch =>
          if ht - 1 = hr then
            match r.minKey with
            | none => .done t
            | some k =>
                let (ks, ch) := fix (ks ++ [k]) (ch ++ [r]) ch.length
                finish ks ch
          else
            match ch.getLast? with
            | none => .done t
            | some c =>
                match joinRight r hr fuel c (ht - 1) with
                | .done c' => finish ks (ch.dropLast ++ [c'])
                | .split a s b => finish (ks ++ [s]) (ch.dropLast ++ [a, b])
      | _ => .done t

/-- Hang `l`, of height `hl`, off the left spine of `t`, of height `ht`. -/
def joinLeft (l : Tree K V M) (hl : Nat) : Nat → Tree K V M → Nat → Ins K V M
  | 0, t, _ => .done t
  | fuel + 1, t, ht =>
      match t.opened with
      | .internal ks ch =>
          match ch.head? with
          | none => .done t
          | some c =>
              if ht - 1 = hl then
                match c.minKey with
                | none => .done t
                | some k =>
                    let (ks, ch) := fix (k :: ks) (l :: ch) 0
                    finish ks ch
              else
                match joinLeft l hl fuel c (ht - 1) with
                | .done c' => finish ks (c' :: ch.tail)
                | .split a s b => finish (s :: ks) (a :: b :: ch.tail)
      | _ => .done t

/-- Concatenate two trees, every key of `left` below every key of `right`. -/
def join (left right : Tree K V M) : Tree K V M :=
  if left.isEmpty then right
  else if right.isEmpty then left
  else
    let hl := left.height
    let hr := right.height
    let res :=
      if hl = hr then joinSame left right
      else if hr < hl then joinRight right hr left.depth left hl
      else joinLeft left hl right.depth right hr
    match res with
    | .done t => t
    | .split l sep r => internal [sep] [l, r]

/-- A side of a cut leaf. -/
def side (items : List (Item K V)) : Tree K V M := if items.isEmpty then nil else leaf items

/-- Split the subtree under `t` at `key`; the key and both halves are in `t`'s
parent frame. -/
def splitAt (key : K) : Nat → Tree K V M → Tree K V M × Tree K V M
  | 0, t => (t, nil)
  | fuel + 1, t =>
      if t.isEmpty then (nil, nil)
      else match t.opened with
        | .leaf e => (side (Leaf.splitAt e key).1, side (Leaf.splitAt e key).2)
        | .internal ks ch =>
            let i := childIndex ks 0 key
            match ch[i]? with
            | none => (t, nil)
            | some mid =>
                let (ml, mr) := splitAt key fuel mid
                let left := fromParts (ks.take (i - 1)) (ch.take i)
                let right := fromParts (ks.drop (i + 1)) (ch.drop (i + 1))
                (join left ml, join mr right)
        | .split .. => (t, nil)

/-- Split into the entries below `key` and those at or above it. -/
def split (t : Tree K V M) (key : K) : Tree K V M × Tree K V M :=
  match t.maxKey, t.minKey with
  | some mx, some mn =>
      if mx < key then (t, nil)
      else if key ≤ mn then (nil, t)
      else splitAt key t.depth t
  | _, _ => (nil, nil)

end Tree

end Grmpl

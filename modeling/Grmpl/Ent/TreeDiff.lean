import Grmpl.Ent.TreeWalk

/-!
# Comparing two trees

A tree's difference from another is found by walking both in step. Each side is
a *frontier*, a key-ordered run of rows and subtrees not yet opened; two heads
that are the same node at the same absolute position are dropped together, and
two that differ are opened.

A node is the same as another when it has the same address, or when both have
their content key in memory and the keys agree. Addresses and content keys are
not part of a tree's value, so a walk is given the `Marks` of either tree's
nodes, which are named by their path from the root.

* `Marks`, `Marks.Faithful`: what is in memory, and that it does not mislead.
* `Tree.Head`, `Tree.step`, `Tree.openOnto`: the frontiers.
* `Tree.diffInto`: the walk.
-/

namespace Grmpl

/-- A content key, the hash of a node's stored frame. -/
abbrev ContentKey := BitVec 256

/-- Where a node is in its tree: the child taken at each level, last level
first. -/
abbrev Path := List Nat

/-- The addresses of a tree's nodes and the content keys in memory. -/
structure Marks where
  addr : Path → Nat
  ck : Path → Option ContentKey

/-- What a walk finds between two trees at a key: the value on either side. -/
abbrev EntryDiff (K V : Type) := K × Option V × Option V

namespace Tree

variable {K V M : Type}

/-- The child of a node at an index. -/
def child : Tree K V M → Nat → Option (Tree K V M)
  | nodeInternal _ _ _ children, i => children[i]?
  | nodeSplit _ _ _ _ lo hi, i => [lo, hi][i]?
  | _, _ => none

/-- The node at a path. -/
def nodeAt (t : Tree K V M) : Path → Option (Tree K V M)
  | [] => some t
  | i :: path => (nodeAt t path).bind (·.child i)

/-- Whether the node marked by `A` at `p` is known to be the one marked by `B` at
`q`: by address, or by content key. -/
def sameNode (A B : Marks) (p q : Path) : Bool :=
  A.addr p = B.addr q || ((A.ck p).isSome && A.ck p = B.ck q)

/-- Whether `a`, under a parent frame at `i`, and `b`, at `j`, are the same node
at the same absolute position. -/
def sameAt (A B : Marks) (a : Tree K V M) (i : Dsp) (p : Path) (b : Tree K V M) (j : Dsp)
    (q : Path) : Bool :=
  i + a.dsp = j + b.dsp && !a.isEmpty && !b.isEmpty && sameNode A B p q

/-- One item of a frontier: a row with the offset carrying its key to the
absolute frame, a run from its row `i` on, or a subtree with the offset of its
parent's frame, the separator bounding it below and its path. -/
inductive Head (K V M : Type) where
  | entry (k : K) (off : Dsp) (v : V)
  | run (s : Span K) (v : V) (off : Dsp) (i : Nat)
  | node (t : Tree K V M) (off : Dsp) (lo : Option (K × Dsp)) (path : Path)

/-- What to do with the heads of two frontiers. -/
inductive Step where
  | skip | left | right | pair | openLeft | openRight | openBoth

/-- A whole tree as a frontier of one head. -/
def frontier (t : Tree K V M) : List (Head K V M) :=
  if t.isEmpty then [] else [.node t 0 none []]

/-- Consume `by` rows from the head of a frontier. -/
def advance : List (Head K V M) → Nat → List (Head K V M)
  | .run s v off i :: rest, n => if i + n < s.n then .run s v off (i + n) :: rest else rest
  | _ :: rest, _ => rest
  | [], _ => []

variable [Displace K]

/-- Replace a frontier's head node with its contents, in key order. -/
def openOnto : List (Head K V M) → List (Head K V M)
  | .node t off lo path :: rest =>
      let off := off + t.dsp
      match t with
      | nodeLeaf _ _ items =>
          (items.filterMap fun it => match it with
            | .one k v => some (.entry k off v)
            | .run s v => some (.run s v off 0)
            | .hole _ => none) ++ rest
      | nodeInternal _ _ keys children =>
          (children.zipIdx.map fun (c, i) =>
            .node c off (if i = 0 then lo else keys[i - 1]?.map (·, off)) (i :: path)) ++ rest
      | _ => rest
  | stack => stack

/-- The row a row head stands at, key in the absolute frame. -/
def headRow : Head K V M → Option (K × V)
  | .entry k off v => some (displace k off, v)
  | .run s v off i => some (displace (s.row i) off, v)
  | .node .. => none

/-- A separator lies above an absolute key. -/
def aboveKey (lo : Option (K × Dsp)) (k : K) : Bool :=
  lo.any fun l => cmpDisplaced l.1 l.2 k = .gt

/-- What to do with two heads: consume one, or open one. -/
def step (A B : Marks) (x y : Head K V M) : Step :=
  match x, y with
  | .node a i _ p, .node b j _ q => if sameAt A B a i p b j q then .skip else .openBoth
  | x, .node _ _ lo _ =>
      if (headRow x).any fun r => aboveKey lo r.1 then .left else .openRight
  | .node _ _ lo _, y =>
      if (headRow y).any fun r => aboveKey lo r.1 then .right else .openLeft
  | x, y =>
      match headRow x, headRow y with
      | some r, some r' =>
          match compare r.1 r'.1 with
          | .lt => .left
          | .gt => .right
          | .eq => .pair
      | _, _ => .openBoth

/-- How many rows a step over two heads at one key may take: two runs with one
stride hold the same keys for as long as both last. -/
def stretch : Head K V M → Head K V M → Nat
  | .run s _ _ i, .run s' _ _ j => if s.stride = s'.stride then min (s.n - i) (s'.n - j) else 1
  | _, _ => 1

/-- The key `t` rows on from the head at `k`. -/
def stretchKey (x : Head K V M) (k : K) (t : Nat) : K :=
  match t, x with
  | 0, _ => k
  | _, .run s _ _ _ => Displace.step k s.stride t
  | _, _ => k

/-- Report two heads at one key, if their values differ, for the rows the step
takes. -/
def emitPair [DecidableEq V] (x y : Head K V M) : List (EntryDiff K V) :=
  match headRow x, headRow y with
  | some (k, v), some (_, w) =>
      if v = w then []
      else (List.range (stretch x y)).map fun t => (stretchKey x k t, some v, some w)
  | _, _ => []

variable [Measure K V M]

/-- The rows of a frontier's head: a whole node, or one row. -/
def emitted : Head K V M → List (K × V)
  | .node t off _ _ => Iter.drain (turns t + 1) (Iter.descend {} t.depth t off)
  | head => (headRow head).toList

/-- The frontier past what `emitted` reports. -/
def afterEmit : List (Head K V M) → List (Head K V M)
  | .node .. :: rest => rest
  | stack => advance stack 1

variable [DecidableEq V]

/-- The walk, one step for each unit of fuel. -/
def diffInto (A B : Marks) : Nat → List (Head K V M) → List (Head K V M) → List (EntryDiff K V)
  | 0, _, _ => []
  | _ + 1, [], [] => []
  | fuel + 1, x :: xs, [] =>
      ((emitted x).map fun e => (e.1, some e.2, none)) ++
        diffInto A B fuel (afterEmit (x :: xs)) []
  | fuel + 1, [], y :: ys =>
      ((emitted y).map fun e => (e.1, none, some e.2)) ++
        diffInto A B fuel [] (afterEmit (y :: ys))
  | fuel + 1, x :: xs, y :: ys =>
      match step A B x y with
      | .skip => diffInto A B fuel xs ys
      | .left =>
          ((emitted x).map fun e => (e.1, some e.2, none)) ++
            diffInto A B fuel (afterEmit (x :: xs)) (y :: ys)
      | .right =>
          ((emitted y).map fun e => (e.1, none, some e.2)) ++
            diffInto A B fuel (x :: xs) (afterEmit (y :: ys))
      | .pair =>
          emitPair x y ++
            diffInto A B fuel (advance (x :: xs) (stretch x y)) (advance (y :: ys) (stretch x y))
      | .openLeft => diffInto A B fuel (openOnto (x :: xs)) (y :: ys)
      | .openRight => diffInto A B fuel (x :: xs) (openOnto (y :: ys))
      | .openBoth => diffInto A B fuel (openOnto (x :: xs)) (openOnto (y :: ys))

/-- The walk over two whole trees. -/
def diffOrdered (A B : Marks) (a b : Tree K V M) : List (EntryDiff K V) :=
  diffInto A B (turns a + turns b + 1) (frontier a) (frontier b)

end Tree

/-- Nodes that are marked alike have the same contents: two handles on one node
differ only in their displacements. -/
def Marks.Faithful {K V M : Type} (A B : Marks) (a b : Tree K V M) : Prop :=
  ∀ p q x y, a.nodeAt p = some x → b.nodeAt q = some y → Tree.sameNode A B p q = true →
    x.relocate (-x.dsp) = y.relocate (-y.dsp)

end Grmpl

import Grmpl.Lib.NodeStore

/-!
# The node store, its pages and its collection

The granfilade keeps every node frame under its content key, and one root record.
In memory a node is either resident or still on disk, known by its key alone; the
first read pages it in. A write collects the nodes not known to be stored, a
collection sweeps what neither the root record nor an unread node reaches.

An action is what one thread does between two points where another may run: a
page is read and decoded apart, a group is taken, put in and synced apart, and a
collection takes its roots, sweeps and settles apart. Whoever stages or collects
holds the root lock, so nothing is staged while a collection is in progress.

* `MemNode`, `Granfilade`: a node in memory, and everything.
* `Granfilade.collect`, `Granfilade.stub`, `Granfilade.load`: the code.
* `GranAction`, `Granfilade.step`: what happens next.
-/

namespace Grmpl

/-- A node in memory: the key of its frame, whether that key is memoized, whether
its contents are in memory, and its children. -/
structure MemNode (C : Type) where
  key : C
  memo : Bool
  resident : Bool
  children : List Nat
  deriving DecidableEq

/-- One staged write: the nodes it adds, and the whole root record. -/
structure StagedWrite (C : Type) where
  nodes : List C
  root : List C
  deriving DecidableEq

/-- Where a group's write stands: taken off the queue, or in the node store and not
yet synced. -/
inductive GroupWrite (C : Type) where
  | taken (group : List (StagedWrite C))
  | batched (written : List C)
  deriving DecidableEq

/-- Where a collection stands: the keys it marks from, or the keys it swept. -/
inductive Collection (C : Type) where
  | marking (roots : List C)
  | swept (keys : List C)
  deriving DecidableEq

/-- The node store and what refers to it. `disks` are the states a crash may
recover, the last synced one first; `held` are the nodes some handle holds, and
`paging` those whose frame a reader has in hand. -/
structure Granfilade (C : Type) where
  nodes : List C
  root : List C
  disks : List (List C × List C)
  present : List C
  remembered : List Nat
  pruneAt : Nat
  memory : List (Option (MemNode C))
  held : List Nat
  paging : List Nat
  pending : List (StagedWrite C)
  writing : Option (GroupWrite C)
  failed : Bool
  collection : Option (Collection C)
  /-- A read met a key with no frame. -/
  missing : Bool
  deriving DecidableEq

/-- What one thread does next; a flag says how an attempt ends. -/
inductive GranAction (C : Type) where
  /-- A node built in memory over existing ones. -/
  | build (key : C) (children : List Nat)
  | hold (i : Nat)
  | drop (i : Nat)
  /-- A node nothing refers to goes. -/
  | free (i : Nat)
  /-- Keys computed and memoized without the store. -/
  | contentKey (i : Nat)
  | read (i : Nat)
  | decode (i : Nat)
  | stage (roots : List Nat)
  | lead
  | batch (ok : Bool)
  | sync (ok : Bool)
  | gc
  | sweep (ok : Bool)
  | settle (ok : Bool)
  /-- A crash or a shutdown, and an open of a state it left. -/
  | reopen (disk : Nat)

namespace Granfilade

variable {C : Type}

/-- A node in memory. -/
def node (g : Granfilade C) (i : Nat) : Option (MemNode C) := (g.memory[i]?).join

/-- Whether a node is there and its contents are still on disk. -/
def unread (g : Granfilade C) (i : Nat) : Bool := (g.node i).any fun n => !n.resident

def setNode (g : Granfilade C) (i : Nat) (n : Option (MemNode C)) : Granfilade C :=
  { g with memory := g.memory.set i n }

/-- A store nothing was ever written to. -/
def empty : Granfilade C :=
  ⟨[], [], [([], [])], [], [], 1024, [], [], [], [], none, false, none, false⟩

/-- The nodes under `i` a walk visits, children first, stopping at those it skips. -/
def collect (g : Granfilade C) (skip : MemNode C → Bool) : Nat → Nat → List Nat
  | 0, _ => []
  | fuel + 1, i =>
      match g.node i with
      | none => []
      | some n => if skip n then [] else n.children.flatMap (g.collect skip fuel) ++ [i]

/-- The keys of some nodes. -/
def keysOf (g : Granfilade C) (is : List Nat) : List C := is.filterMap fun i => (g.node i).map MemNode.key

/-- The keys of a node's children, none for one that is gone. -/
def childKeys (g : Granfilade C) (is : List Nat) : List (Option C) :=
  is.map fun i => (g.node i).map MemNode.key

/-- The keys of some nodes memoized. -/
def memoize (g : Granfilade C) (is : List Nat) : Granfilade C :=
  is.foldl (fun g i => g.setNode i ((g.node i).map fun n => { n with memo := true })) g

/-- A new node in memory, and its place. -/
def add (g : Granfilade C) (n : MemNode C) : Granfilade C × Nat :=
  ({ g with memory := g.memory ++ [some n] }, g.memory.length)

/-- The remembered nodes thinned out when they have grown many. -/
def prune (g : Granfilade C) : Granfilade C :=
  if g.pruneAt ≤ g.remembered.length then
    let kept := g.remembered.filter g.unread
    { g with remembered := kept, pruneAt := max (kept.length * 2) 1024 }
  else g

/-- A paged node for a stored frame: known to be stored, and remembered. -/
def stub (g : Granfilade C) (key : C) : Granfilade C × Nat :=
  let (g, i) := g.add ⟨key, true, false, []⟩
  ({ g with present := key :: g.present, remembered := g.remembered ++ [i] }.prune, i)

/-- A paged node for every reference of a frame. -/
def stubs (g : Granfilade C) : List C → Granfilade C × List Nat
  | [] => (g, [])
  | key :: keys =>
      let (g, i) := g.stub key
      let (g, is) := g.stubs keys
      (g, i :: is)

/-- Whether a node is neither held nor read nor anyone's child. -/
def unreferenced (g : Granfilade C) (i : Nat) : Bool :=
  !(g.held.contains i) && !(g.paging.contains i) &&
    g.memory.all fun n => n.all fun n => !(n.children.contains i)

variable (N : Nodes C) [DecidableEq C]

/-- The root's node read, everything beneath it paged; a handle holds it. -/
def load (g : Granfilade C) (key : C) : Granfilade C :=
  if key ∈ g.nodes then
    let (g, is) := g.stubs (N.refs key)
    let (g, i) := g.add ⟨key, true, true, is⟩
    { g with present := key :: g.present, held := i :: g.held }
  else { g with missing := true }

/-- A granfilade opened on what is on disk, its root record's trees loaded. -/
def opened (nodes root : List C) : Granfilade C :=
  root.foldl (load N) { (empty : Granfilade C) with nodes, root, disks := [(nodes, root)] }

/-- The memory a decoded frame leaves: its children paged, the node resident. -/
def decode (g : Granfilade C) (i : Nat) (n : MemNode C) : Granfilade C :=
  let (g, is) := g.stubs (N.refs n.key)
  { g.setNode i (some { n with resident := true, children := is }) with
    paging := g.paging.filter (· ≠ i) }

/-- A write staged: the nodes under its roots that are not known to be stored. -/
def stage (g : Granfilade C) (visited roots : List Nat) : Granfilade C :=
  { g.memoize visited with pending := g.pending ++ [⟨g.keysOf visited, g.keysOf roots⟩] }

/-- The nodes a write of some trees visits: a memoized key known to be stored needs
no new frame. -/
def toStage (g : Granfilade C) (roots : List Nat) : List Nat :=
  roots.flatMap fun i => g.collect (fun n => n.memo && decide (n.key ∈ g.present))
    (((g.node i).map fun n => N.depth n.key + 1).getD 0) i

/-- The nodes whose keys a walk without a store memoizes. -/
def toKey (g : Granfilade C) (i : Nat) : List Nat :=
  g.collect MemNode.memo (((g.node i).map fun n => N.depth n.key + 1).getD 0) i

/-- What the code does next, if it can. -/
def step (g : Granfilade C) : GranAction C → Option (Granfilade C)
  | .build key children =>
      if g.childKeys children = (N.refs key).map some then
        some { (g.add ⟨key, false, true, children⟩).1 with held := g.memory.length :: g.held }
      else none
  | .hold i => (g.node i).map fun _ => { g with held := i :: g.held }
  | .drop i => if i ∈ g.held then some { g with held := g.held.erase i } else none
  | .free i => if g.unreferenced i then some (g.setNode i none) else none
  | .contentKey i => some (g.memoize (g.toKey N i))
  | .read i => do
      let n ← g.node i
      if n.resident || g.paging.contains i then none
      else if n.key ∈ g.nodes then some { g with paging := i :: g.paging }
      else some { g with missing := true }
  | .decode i => do
      let n ← g.node i
      if i ∈ g.paging then some (g.decode N i n) else none
  | .stage roots =>
      -- the root lock is free, the trees are there, and what was met unread is read
      if g.collection.isNone && roots.all (fun i => (g.node i).isSome) &&
          (g.toStage N roots).all (fun i => !g.unread i) then
        some (g.stage (g.toStage N roots) roots)
      else none
  | .lead =>
      if g.writing.isNone && !g.pending.isEmpty then
        some { g with pending := [], writing := some (.taken g.pending) }
      else none
  | .batch ok =>
      match g.writing with
      | some (.taken group) =>
          if ok then
            let nodes := g.nodes ++ group.flatMap StagedWrite.nodes
            let root := (group.getLast?.map StagedWrite.root).getD g.root
            some { g with
              nodes, root
              disks := g.disks ++ [(nodes, root)]
              writing := some (.batched (group.flatMap StagedWrite.nodes)) }
          else some { g with writing := none, failed := true }
      | _ => none
  | .sync ok =>
      match g.writing with
      | some (.batched written) =>
          if ok then some { g with
              present := g.present ++ written
              disks := [(g.nodes, g.root)]
              writing := none }
          else some { g with writing := none, failed := true }
      | _ => none
  | .gc =>
      if g.collection.isNone && g.pending.isEmpty && g.writing.isNone && !g.failed then
        let remembered := g.remembered.filter g.unread
        some { g with
          remembered
          collection := some (.marking (g.root ++ g.keysOf remembered)) }
      else none
  | .sweep ok =>
      match g.collection with
      | some (.marking roots) =>
          let marked := N.mark g.nodes roots
          if ok then
            let nodes := g.nodes.filter (· ∈ marked)
            some { g with
              nodes
              disks := g.disks ++ [(nodes, g.root)]
              collection := some (.swept (g.nodes.filter (· ∉ marked))) }
          else some { g with collection := none }
      | _ => none
  | .settle ok =>
      match g.collection with
      | some (.swept keys) =>
          if ok then some { g with
              present := g.present.filter (· ∉ keys)
              disks := [(g.nodes, g.root)]
              collection := none }
          else some { g with collection := none }
      | _ => none
  | .reopen d => (g.disks[d]?).map fun disk => opened N disk.1 disk.2

/-- A run of actions. -/
def run (g : Granfilade C) (as : List (GranAction C)) : Option (Granfilade C) := as.foldlM (step N) g

end Granfilade

end Grmpl

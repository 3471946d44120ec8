import Grmpl.Ent.Store
import Grmpl.Lib.NodeStore
import Grmpl.Lib.Runs

/-!
# A durable world and its group commit

Every branch of a world shares one root record and one queue of staged writes. A
commit edits its handle's own state, puts it in the root, stages the whole root
as it then stands, and waits; whoever finds nobody writing leads, writing
everything staged as one batch.

An action is what one thread does between taking and releasing the locks, so a
run is an interleaving. A write ends in one of three ways: it lands, it is lost,
or its sync fails after the batch went in, when a crash may keep it or not.

* `EntRoot`, `Durable`, `World`: the root, the queue, and everything.
* `Durable.doom`, `World.stageIn`, `World.on`, `World.step`: the code.
* `World.opened`: a world just opened on what is on disk.
-/

open OrdMap

namespace Grmpl

/-- A branch's parents: where it was forked or merged from. -/
structure Branch where
  parent : Option (BranchId × Nat)
  merged : Option (BranchId × Nat × Nat)
  deriving DecidableEq

/-- The branches of a world, and the next id. -/
structure Dag where
  branches : List (BranchId × Branch)
  next : BranchId
  deriving DecidableEq

namespace Dag

def root : BranchId := 0

def new : Dag := ⟨[(root, ⟨none, none⟩)], 1⟩

def fork (g : Dag) (parent : BranchId) (at' : Nat) : Dag × BranchId :=
  (⟨put g.next ⟨some (parent, at'), none⟩ g.branches, g.next + 1⟩, g.next)

def merge (g : Dag) (parent : BranchId) (at' : Nat) (other : BranchId) (otherAt since : Nat) :
    Dag × BranchId :=
  (⟨put g.next ⟨some (parent, at'), some (other, otherAt, since)⟩ g.branches, g.next + 1⟩, g.next)

end Dag

/-- The branches, and each one's state as of its latest stage. -/
structure EntRoot (F : Type) where
  dag : Dag
  branches : List (BranchId × Inner F)

namespace EntRoot

variable {F : Type}

def empty : EntRoot F := ⟨Dag.new, []⟩

/-- A branch's state, a fresh one if it never committed; none if unknown. -/
def state (r : EntRoot F) (b : BranchId) : Option (Inner F) :=
  (lookup b r.dag.branches).map fun _ => (lookup b r.branches).getD Inner.empty

/-- The edition the root records for a branch. -/
def edition (r : EntRoot F) (b : BranchId) : Nat := ((lookup b r.branches).map Inner.current).getD 0

end EntRoot

/-- The frames a root record is written as: what each node's key was hashed over,
and the keys the record itself holds. -/
class Framed (F : Type) (C : outParam Type) where
  nodes : Nodes C
  slots : EntRoot F → List C

/-- One staged write waiting for its group. -/
structure Pending (F C : Type) where
  seq : Nat
  branch : BranchId
  edition : Nat
  nodes : List C
  root : EntRoot F

/-- The group-commit queue. -/
structure Durable (F C : Type) where
  pending : List (Pending F C)
  staged : Nat
  landed : Nat
  durable : List (BranchId × Nat)
  writing : Bool
  failure : Option (Nat × String)

namespace Durable

variable {F C : Type}

def new : Durable F C := ⟨[], 0, 0, [], false, none⟩

/-- The failure that dooms a committer waiting for a stage, or any flusher. -/
def doom (d : Durable F C) (target : Option Nat) : Option String :=
  d.failure.bind fun f => match target with
    | some s => if f.1 < s then none else some f.2
    | none => some f.2

/-- Whether what a caller waits for is done. -/
def done (d : Durable F C) (target : Option Nat) : Bool :=
  match target with
  | some s => s ≤ d.landed
  | none => d.pending.isEmpty && !d.writing

/-- A branch's highest edition counted as durable. -/
def edition (d : Durable F C) (b : BranchId) : Nat := (lookup b d.durable).getD 0

/-- A branch's frontier raised to an edition. -/
def raise (durable : List (BranchId × Nat)) (p : Pending F C) : List (BranchId × Nat) :=
  put p.branch (max ((lookup p.branch durable).getD 0) p.edition) durable

end Durable

/-- A handle on a branch: its own copy of the branch's state, and whether a fork
holds its edition lock. -/
structure Handle (F : Type) where
  branch : BranchId
  inner : Inner F
  held : Bool

/-- What a thread is waiting to finish. -/
inductive Op (F : Type) where
  | commit (handle : Nat) (branch : BranchId) (seq : Nat)
      (updates : List (RelId × Tuple × Diff)) (state : Inner F)
  | flush
  /-- A fork that holds its handle and first lands what is staged. -/
  | fork (handle : Nat) (at' : Nat)
  /-- A fork or a merge whose new branch is staged. -/
  | spawn (branch : BranchId) (seq : Nat) (state : Inner F)

/-- Where a thread stands. -/
inductive Pc where
  | waiting (target : Option Nat)
  | leading (target : Option Nat)
  | returned (r : Result Unit)
  /-- Its answer has been used. -/
  | over

structure Call (F : Type) where
  op : Op F
  pc : Pc

/-- How a group's write ends. -/
inductive Outcome where
  | landed
  | lost (msg : String)
  /-- The batch went in and its sync failed; a crash keeps it or not. -/
  | unsynced (msg : String) (kept : Bool)

/-- Everything: the node store and the root record a crash would recover, what
the family shares, the group being written, the sequence numbers of the groups
that landed, the handles made, and the threads. -/
structure World (F C : Type) where
  stored : List C
  known : List C
  disk : EntRoot F
  root : EntRoot F
  dur : Durable F C
  group : List (Pending F C)
  written : List Nat
  handles : List (Option (Handle F))
  calls : List (Call F)

/-- What one thread does between taking and releasing the locks. -/
inductive Action where
  | commit (handle : Nat) (pre : List (RelId × Tuple)) (updates : List (RelId × Tuple × Diff))
  | flush
  | fork (handle : Nat) (at' : Nat)
  | forkStage (call : Nat)
  /-- A merge that found the patches `todo` missing. -/
  | merge (handle other : Nat) (todo : List Replay)
  | branch (b : BranchId)
  /-- The thread whose fork or merge landed makes its handle. -/
  | adopt (call : Nat)
  | drop (handle : Nat)
  | lead (call : Nat)
  | wrote (call : Nat) (outcome : Outcome)
  | finish (call : Nat)

/-- A target as an error names it. -/
def showTarget : Option Nat → String
  | none => "None"
  | some s => "Some(" ++ toString s ++ ")"

namespace World

variable {F C : Type}

/-- The handle `h`, if it is live and its edition lock is free. -/
def freeHandle (w : World F C) (h : Nat) : Option (Handle F) :=
  (w.handles[h]?).join.filter fun k => !k.held

def setHandle (w : World F C) (h : Nat) (k : Option (Handle F)) : World F C :=
  { w with handles := w.handles.set h k }

def setCall (w : World F C) (c : Nat) (call : Call F) : World F C :=
  { w with calls := w.calls.set c call }

def addCall (w : World F C) (call : Call F) : World F C :=
  { w with calls := w.calls ++ [call] }

variable [DecidableEq C] [Framed F C]

/-- A branch's state put in the root, and the whole root staged. -/
def stageIn (w : World F C) (b : BranchId) (inner : Inner F) : World F C :=
  let root : EntRoot F := { w.root with branches := put b inner w.root.branches }
  let nodes := Framed.nodes (F := F).collectAll (fun c => decide (c ∈ w.known)) (Framed.slots root)
  { w with
    root := root
    dur := { w.dur with
      staged := w.dur.staged + 1
      pending := w.dur.pending ++ [⟨w.dur.staged + 1, b, inner.current, nodes, root⟩] } }

omit [DecidableEq C] [Framed F C] in
/-- A new handle on a branch. -/
def on (w : World F C) (b : BranchId) (inner : Inner F) : World F C :=
  { w with
    dur := { w.dur with durable := put b inner.current w.dur.durable }
    handles := w.handles ++ [some ⟨b, inner, false⟩] }

/-- A new branch of the root, staged, and the thread that waits for it. -/
def spawn (w : World F C) (dag : Dag × BranchId) (state : Inner F) : World F C :=
  { w with root := { w.root with dag := dag.1 } }.stageIn dag.2 state

omit [DecidableEq C] [Framed F C] in
/-- The group's batch in the node store, with the root its last stage left. -/
def batch (w : World F C) : World F C :=
  match w.group.getLast? with
  | none => w
  | some p => { w with stored := w.stored ++ w.group.flatMap Pending.nodes, disk := p.root }

omit [DecidableEq C] [Framed F C] in
/-- The leader back from its write. -/
def endWrite (w : World F C) (c : Nat) (op : Op F) (target : Option Nat) (outcome : Outcome) :
    World F C :=
  let hi := ((w.group.getLast?).map Pending.seq).getD 0
  let fail := fun (w : World F C) (msg : String) => { w with
      group := []
      dur := { w.dur with writing := false, failure := some (hi, msg) } }.setCall c
    ⟨op, .returned (.error (.store msg))⟩
  match outcome with
  | .landed => { w.batch with
      known := w.known ++ w.group.flatMap Pending.nodes
      group := []
      written := w.written ++ w.group.map Pending.seq
      dur := { w.dur with
        writing := false
        landed := max w.dur.landed hi
        durable := w.group.foldl Durable.raise w.dur.durable } }.setCall c ⟨op, .waiting target⟩
  | .lost msg => fail w msg
  | .unsynced msg kept => fail (if kept then w.batch else w) msg

/-- What the code does next, if it can. -/
def step [FactEnf F] (w : World F C) : Action → Option (World F C)
  | .commit h pre updates => do
      let k ← w.freeHandle h
      if pre.all fun p => k.inner.holdsNow p.1 p.2 then
        let inner := k.inner.apply (k.inner.current + 1) pre updates none
        let seq := w.dur.staged + 1
        some (((w.setHandle h (some { k with inner })).stageIn k.branch inner).addCall
          ⟨.commit h k.branch seq updates inner, .waiting (some seq)⟩)
      else some w
  | .flush => some (w.addCall ⟨.flush, .waiting none⟩)
  | .fork h at' => do
      let k ← w.freeHandle h
      if at' < k.inner.watermark then none
      else some ((w.setHandle h (some { k with held := true })).addCall ⟨.fork h at', .waiting none⟩)
  | .forkStage c =>
      match w.calls[c]? with
      | some ⟨.fork h at', .returned r⟩ => do
          let k ← (w.handles[h]?).join
          let w := w.setHandle h (some { k with held := false })
          match r with
          | .error _ => some (w.setCall c ⟨.fork h at', .over⟩)
          | .ok () =>
              let dag := w.root.dag.fork k.branch at'
              let child := k.inner.forkAt at'
              let seq := w.dur.staged + 1
              some ((w.spawn dag child).setCall c ⟨.spawn dag.2 seq child, .waiting (some seq)⟩)
      | _ => none
  | .merge h h' todo => do
      let k ← w.freeHandle h
      let k' ← (w.handles[h']?).join
      -- two handles of one branch: only the first is read
      let theirs := if k.branch = k'.branch then k.inner else k'.inner
      if k.branch ≠ k'.branch ∧ k'.held then none
      else match k.inner.merge theirs todo with
      | none => some w
      | some merged =>
          let dag := w.root.dag.merge k.branch k.inner.current k'.branch theirs.current merged.current
          let seq := w.dur.staged + 1
          some ((w.spawn dag merged).addCall ⟨.spawn dag.2 seq merged, .waiting (some seq)⟩)
  | .branch b => (w.root.state b).map (w.on b)
  | .adopt c =>
      match w.calls[c]? with
      | some ⟨.spawn b seq state, .returned (.ok ())⟩ =>
          some ((w.on b state).setCall c ⟨.spawn b seq state, .over⟩)
      | _ => none
  | .drop h => do
      let _ ← w.freeHandle h
      some (w.setHandle h none)
  | .lead c =>
      match w.calls[c]? with
      | some ⟨op, .waiting target⟩ =>
          if (w.dur.doom target).isSome || w.dur.done target || w.dur.writing then none
          else if w.dur.pending.isEmpty then
            some (w.setCall c ⟨op, .returned (.error (.store ("group commit: stage " ++
              showTarget target ++ " is neither pending nor durable (landed=" ++
              toString w.dur.landed ++ ")")))⟩)
          else some ({ w with
              group := w.dur.pending
              dur := { w.dur with pending := [], writing := true } }.setCall c ⟨op, .leading target⟩)
      | _ => none
  | .wrote c outcome =>
      match w.calls[c]? with
      | some ⟨op, .leading target⟩ => some (w.endWrite c op target outcome)
      | _ => none
  | .finish c =>
      match w.calls[c]? with
      | some ⟨op, .waiting target⟩ =>
          match w.dur.doom target with
          | some msg => some (w.setCall c ⟨op, .returned (.error (.store msg))⟩)
          | none => if w.dur.done target then some (w.setCall c ⟨op, .returned (.ok ())⟩) else none
      | _ => none

omit [DecidableEq C] [Framed F C] in
/-- A world just opened on branch `b` of what is on disk. -/
def opened (stored known : List C) (disk : EntRoot F) (b : BranchId) (inner : Inner F) :
    World F C :=
  World.on ⟨stored, known, disk, disk, Durable.new, [], [], [], []⟩ b inner

end World

end Grmpl

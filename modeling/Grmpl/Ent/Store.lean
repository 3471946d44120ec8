import Grmpl.Core.TraceStore
import Grmpl.Ent.Canopy
import Mathlib.Data.Prod.Lex

/-!
# One branch's state

A branch holds, for every relation, its versions (edition to Fact enfilade) and
its Edition log, and beside them the interests its commits are routed to. The
directories are plain maps; a Fact enfilade is whatever offers the operations of
`FactEnf`, trees of either layout among them.

* `FactEnf`: what a branch's state asks of a Fact enfilade.
* `RelRoots`, `Inner`: a relation's roots, and the state.
* `Inner.apply`, `Inner.graft`, `Inner.forkAt`, `Inner.merge`, `Inner.consolidate`:
  the writes.
* `Inner.readAt`, `Inner.scanUpdates`, `Inner.touchedSince`,
  `Inner.touchedRangeSince`: the reads.
-/

open OrdMap

namespace Grmpl

/-- How a relation's Fact enfilades are laid out. -/
inductive Layout where
  | ordered
  | kd
  deriving DecidableEq

/-- A layout, and whether rows fold into runs. -/
structure Shape where
  layout : Layout
  runs : Bool
  deriving DecidableEq

instance : Inhabited Shape := ⟨⟨.ordered, false⟩⟩

/-- What a branch's state asks of a Fact enfilade: rows with weights by tuple. -/
class FactEnf (F : Type) where
  new : F
  get : F → Tuple → Option Diff
  insertWith : Layout → F → Tuple → Diff → Bool → F
  remove : Layout → F → Tuple → F
  iter : F → List (Tuple × Diff)
  rangeCollect : F → Tuple → Tuple → List (Tuple × Diff)
  anyIn : F → Tuple → Tuple → Bool
  /-- Whether the extent of the rows between two tuples lies within two ids. -/
  spanWithin : F → Tuple → Tuple → UInt64 → UInt64 → Bool
  /-- A copy of the rows between two tuples, displaced; none if its place is
  taken or the displacement does not fit. -/
  graft : Layout → F → Tuple → Tuple → Dsp → Option F

/-- Where a merge replayed a patch from. -/
abbrev Origin := Option (BranchId × Nat)

/-- What an edition was. -/
inductive PatchRecord where
  | commit (pre : List (RelId × Tuple)) (rels : List RelId) (origin : Origin)
  | graft (rels : List RelId) (block : UInt64 × UInt64) (shift : Dsp) (origin : Origin)
  deriving DecidableEq

/-- A patch as a merge replays it. -/
inductive Replay where
  | commit (pre : List (RelId × Tuple)) (updates : List (RelId × Tuple × Diff)) (origin : Origin)
  | graft (rels : List RelId) (blockLo blockHi : UInt64) (shift : Dsp) (origin : Origin)
  deriving DecidableEq

/-- One record of an Edition log. -/
inductive LogEntry where
  | update (tuple : Tuple) (diff : Diff)
  | graft (lo hi : Tuple)
  deriving DecidableEq

/-- A place in an Edition log: an edition, and a place in its patch. -/
abbrev LogKey := Nat ×ₗ Nat

/-- One relation's roots. -/
structure RelRoots (F : Type) where
  versions : List (Nat × F)
  log : List (LogKey × LogEntry)
  orders : List (Nat × F)

/-- The roots of a relation never written. -/
def RelRoots.empty {F : Type} : RelRoots F := ⟨[], [], []⟩

/-- One branch's whole state. -/
structure Inner (F : Type) where
  current : Nat
  watermark : Nat
  rels : List (RelId × RelRoots F)
  canopy : Canopy
  fired : List ((Nat ×ₗ Nat) × Unit)
  interests : List ((Nat ×ₗ (Tuple ×ₗ Tuple)) × Nat)
  registered : List (Nat × Nat)
  patches : List (Nat × PatchRecord)
  shape : Shape
  shapes : List (RelId × Shape)

namespace Inner

variable {F : Type}

def empty : Inner F := ⟨0, 0, [], Canopy.new, [], [], [], [], default, []⟩

def roots (i : Inner F) (rel : RelId) : Option (RelRoots F) := lookup rel i.rels

/-- The roots of a relation, empty if it was never written. -/
def rootsOr (i : Inner F) (rel : RelId) : RelRoots F := (i.roots rel).getD RelRoots.empty

/-- The latest version at or before an edition. -/
def lastLe (at' : Nat) (versions : List (Nat × F)) : Option F :=
  ((versions.filter fun e => e.1 ≤ at').getLast?).map Prod.snd

/-- The Fact root in force at an edition. -/
def factAt (i : Inner F) (rel : RelId) (at' : Nat) : Option F :=
  (i.roots rel).bind fun r => lastLe at' r.versions

def shapeOf (i : Inner F) (rel : RelId) : Shape := (lookup rel i.shapes).getD i.shape

def layoutOf (i : Inner F) (rel : RelId) : Layout := (i.shapeOf rel).layout

def put (i : Inner F) (rel : RelId) (r : RelRoots F) : Inner F :=
  { i with rels := OrdMap.put rel r i.rels }

/-! ## Writes -/

/-- `tuple` with column `col` in front, if it has one. -/
def rotate (tuple : Tuple) (col : Nat) : Option Tuple :=
  (tuple.cells[col]?).map fun c => ⟨c :: tuple.cells.take col ++ tuple.cells.drop (col + 1)⟩

variable [FactEnf F]

/-- Whether a row holds now. -/
def holdsNow (i : Inner F) (rel : RelId) (tuple : Tuple) : Bool :=
  ((i.factAt rel i.current).bind (FactEnf.get · tuple)).any (0 < ·)

/-- An arrangement led by `col` kept in step with one row's new weight. -/
def arrange (col : Nat) (arr : F) (tuple : Tuple) (net : Diff) : F :=
  match rotate tuple col with
  | none => arr
  | some key =>
      if net = 0 then FactEnf.remove .ordered arr key else FactEnf.insertWith .ordered arr key net false

/-- One update folded into a relation's Fact enfilade at edition `e`. -/
def foldFact (i : Inner F) (e : Nat) (rel : RelId) (tuple : Tuple) (diff : Diff) : Inner F :=
  let r := i.rootsOr rel
  let base := (lastLe e r.versions).getD FactEnf.new
  let net := (FactEnf.get base tuple).getD 0 + diff
  let shape := i.shapeOf rel
  let root := if net = 0 then FactEnf.remove shape.layout base tuple
    else FactEnf.insertWith shape.layout base tuple net shape.runs
  i.put rel ⟨OrdMap.put e root r.versions, r.log,
    r.orders.map fun o => (o.1, arrange o.1 o.2 tuple net)⟩

omit [FactEnf F] in
/-- Interests recorded as touched by edition `e`. -/
def fire (i : Inner F) (e : Nat) (ids : List Nat) : Inner F :=
  { i with fired := ids.foldl (fun f id => OrdMap.put (toLex (id, e)) () f) i.fired }

omit [FactEnf F] in
/-- The interests a commit touches, recorded. -/
def route (i : Inner F) (e : Nat) (updates : List (RelId × Tuple × Diff)) : Inner F :=
  if i.canopy.isEmpty then i
  else i.fire e (i.canopy.route updates)

/-- One update logged at its place in its patch, and folded. -/
def applyOne (e : Nat) (i : Inner F) (u : (RelId × Tuple × Diff) × Nat) : Inner F :=
  let r := i.rootsOr u.1.1
  (i.put u.1.1 { r with log := OrdMap.put (toLex (e, u.2)) (.update u.1.2.1 u.1.2.2) r.log }).foldFact
    e u.1.1 u.1.2.1 u.1.2.2

/-- A patch applied as edition `e`. -/
def apply (i : Inner F) (e : Nat) (pre : List (RelId × Tuple))
    (updates : List (RelId × Tuple × Diff)) (origin : Origin) : Inner F :=
  let rels := ((updates.map Prod.fst).mergeSort (· ≤ ·)).dedup
  let i := { i with patches := OrdMap.put e (.commit pre rels origin) i.patches }
  { (updates.zipIdx.foldl (applyOne e) i).route e updates with current := e }

/-- One relation's graft recorded: its new Fact root, its log entry, and the
interests its span touches. -/
def applyGraft (e : Nat) (lo hi : Tuple) (i : Inner F) (g : RelId × F) : Inner F :=
  let r := i.rootsOr g.1
  let i := i.put g.1 ⟨OrdMap.put e g.2 r.versions, OrdMap.put (toLex (e, 0)) (.graft lo hi) r.log, []⟩
  if i.canopy.isEmpty then i
  else i.fire e (i.canopy.routeSpan g.1 lo hi)

def applyGrafts (i : Inner F) (e : Nat) (grafts : List (RelId × F)) (lo hi : Tuple) : Inner F :=
  { grafts.foldl (applyGraft e lo hi) i with current := e }

/-- The key of a lone entity. -/
def entKey (id : UInt64) : Tuple := ⟨[.ent ⟨id⟩]⟩

/-- The new Fact root of one relation of a graft, if it has rows to copy. -/
def graftOne (i : Inner F) (blockLo blockHi : UInt64) (shift : Dsp) (rel : RelId) :
    Result (Option (RelId × F)) :=
  match i.factAt rel i.current with
  | none => .ok none
  | some facts =>
      let lo := entKey blockLo
      let hi := entKey blockHi
      if !FactEnf.anyIn facts lo hi then .ok none
      else if !FactEnf.spanWithin facts lo hi blockLo blockHi then
        .error (.store ("instance_template: relation " ++ toString rel ++
          " has template facts naming entities outside [" ++ toString blockLo ++ ", " ++
          toString blockHi ++ "); a graft would move them too"))
      else match FactEnf.graft (i.layoutOf rel) facts lo hi shift with
        | none => .error (.store ("instance_template: relation " ++ toString rel ++
            " already has facts in the target block [" ++ toString blockLo ++ "+" ++ toString shift ++
            ", " ++ toString blockHi ++ "+" ++ toString shift ++ "), or the shift wraps the id space"))
        | some grafted => .ok (some (rel, grafted))

/-- The new Fact roots of a graft, or the first refusal. -/
def graftRoots (i : Inner F) (blockLo blockHi : UInt64) (shift : Dsp) :
    List RelId → Result (List (RelId × F))
  | [] => .ok []
  | rel :: rels => do
      let g ← i.graftOne blockLo blockHi shift rel
      let gs ← graftRoots i blockLo blockHi shift rels
      return g.toList ++ gs

/-- A block of a set of relations copied, as the next edition. -/
def graft (i : Inner F) (rels : List RelId) (blockLo blockHi : UInt64) (shift : Dsp)
    (origin : Origin) : Result (Inner F) := do
  let rels := (rels.mergeSort (· ≤ ·)).dedup
  let grafts ← i.graftRoots blockLo blockHi shift rels
  let i' := i.applyGrafts (i.current + 1) grafts (displace (entKey blockLo) shift)
    (displace (entKey blockHi) shift)
  return { i' with
    patches := OrdMap.put (i.current + 1) (.graft rels (blockLo, blockHi) shift origin) i'.patches }

omit [FactEnf F] in
/-- The state of a fork as of an edition. -/
def forkAt (i : Inner F) (at' : Nat) : Inner F :=
  let rels := if at' = i.current then i.rels
    else i.rels.filterMap fun r =>
      let versions := r.2.versions.filter fun v => v.1 ≤ at'
      let log := r.2.log.filter fun l => (ofLex l.1).1 ≤ at'
      if versions.isEmpty && log.isEmpty then none else some (r.1, ⟨versions, log, []⟩)
  ⟨at', i.watermark, rels, Canopy.new, [], [], [], [], i.shape, i.shapes⟩

omit [FactEnf F] in
/-- The shapes of another branch taken in; none if one relation has two. -/
def uniteShapes (i : Inner F) (theirs : List (RelId × Shape)) : Option (Inner F) :=
  theirs.foldlM (fun i s => match lookup s.1 i.shapes with
    | some l => if l = s.2 then some i else none
    | none => if i.shapeOf s.1 = s.2 then some i
        else some { i with shapes := OrdMap.put s.1 s.2 i.shapes }) i

/-- One patch replayed; none if it no longer applies. -/
def replayOne (i : Inner F) : Replay → Option (Inner F)
  | .commit pre updates origin =>
      if pre.all fun p => i.holdsNow p.1 p.2 then
        some (i.apply (i.current + 1) pre updates origin)
      else none
  | .graft rels blockLo blockHi shift origin => (i.graft rels blockLo blockHi shift origin).toOption

/-- The state a merge ends in: this branch's present with another's shapes taken
in and its missing patches replayed. -/
def merge (i theirs : Inner F) (todo : List Replay) : Option (Inner F) := do
  let i ← uniteShapes { i with canopy := Canopy.new, fired := [], interests := [], registered := [] }
    theirs.shapes
  todo.foldlM replayOne i

omit [FactEnf F] in
/-- The editions up to one folded into a checkpoint. -/
def consolidate (i : Inner F) (upTo : Nat) : Inner F :=
  let wm := min upTo i.current
  if wm ≤ i.watermark then i
  else
    { i with
      rels := i.rels.map fun r =>
        let kept := r.2.versions.filter fun v => wm < v.1
        let versions := match lastLe wm r.2.versions with
          | some t => OrdMap.put wm t kept
          | none => kept
        (r.1, ⟨versions, r.2.log.filter fun l => wm < (ofLex l.1).1, []⟩)
      patches := i.patches.filter fun p => wm < p.1
      watermark := wm }

/-! ## Reads -/

def readAt (i : Inner F) (rel : RelId) (at' : Nat) : Result (List (Tuple × Diff)) :=
  if at' < i.watermark then .error (door "read_at" at' i.watermark)
  else .ok (((i.factAt rel at').map FactEnf.iter).getD [])

/-- What one log record says happened. -/
def expand (versions : List (Nat × F)) (l : LogKey × LogEntry) : Result (List Update) :=
  let edition := (ofLex l.1).1
  match l.2 with
  | .update tuple diff => .ok [⟨tuple, edition, diff⟩]
  | .graft lo hi =>
      match lookup edition versions with
      | none => .error (.store ("graft at edition " ++ toString edition ++ " has no Fact root"))
      | some root => .ok ((FactEnf.rangeCollect root lo hi).map fun e => ⟨e.1, edition, e.2⟩)

/-- The log records of the editions after `start` through `upTo`. -/
def logBetween (start upTo : Nat) (log : List (LogKey × LogEntry)) : List (LogKey × LogEntry) :=
  between (toLex (start + 1, 0)) (toLex (upTo + 1, 0)) log

def scanUpdates (i : Inner F) (rel : RelId) (start upTo : Nat) : Result (List Update) :=
  if start < i.watermark then .error (door "scan_updates" start i.watermark)
  else match i.roots rel with
    | none => .ok []
    | some r => (·.flatten) <$> (logBetween start upTo r.log).mapM (expand r.versions)

omit [FactEnf F] in
/-- Whether anything was logged for one of the relations. -/
def touchedSince (i : Inner F) (start upTo : Nat) (rels : List RelId) : Bool :=
  if start < i.watermark then true
  else rels.any fun rel => (i.roots rel).any fun r => 0 < (logBetween start upTo r.log).length

omit [FactEnf F] in
/-- The interest in a range, registered if it is new. -/
def interest (i : Inner F) (rel : RelId) (lo hi : Tuple) : Inner F × Nat × Bool :=
  let key := toLex (rel, toLex (lo, hi))
  match lookup key i.interests with
  | some id => (i, id, false)
  | none =>
      let (canopy, id) := i.canopy.register rel lo hi
      ({ i with
          canopy := canopy
          interests := OrdMap.put key id i.interests
          registered := OrdMap.put id i.current i.registered }, id, true)

omit [FactEnf F] in
/-- Whether a change may have landed in a range, and the state with the interest
in it registered. -/
def touchedRangeSince (i : Inner F) (start upTo : Nat) (rel : RelId) (lo hi : Tuple) :
    Inner F × Bool :=
  if start < i.watermark then (i, true)
  else
    let (i, id, fresh) := i.interest rel lo hi
    if upTo ≤ start then (i, false)
    else if fresh || start < (lookup id i.registered).getD 0 then (i, i.touchedSince start upTo [rel])
    else (i, 0 < (between (toLex (id, start + 1)) (toLex (id, upTo + 1)) i.fired).length)

end Inner

end Grmpl

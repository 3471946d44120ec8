import Grmpl.Ent.NodeCodec
import Grmpl.Ent.Store
import Grmpl.Ent.Family
import Grmpl.Ent.Spanfilade

/-!
# The kinds of tree a store holds

Each tree of the store's state as a kind of tree, its keys, values and measures stored as the
source stores them. Keys are fixed coordinates, but for tuples, which step; a tree in a tree is
a link.

* `Persist.Plain`: what links to nothing.
* `TreeKind.stepping`, `TreeKind.fixed`: kinds by whether their keys step.
* `TreeKinds.fact` to `TreeKinds.registered`: the trees of a branch, its world and its history.
* `TreeKind.stepping_measured`: a leaf of a tree of tuples adds up to what the tree's model says.
-/

namespace Grmpl

/-! ## What the trees are made of -/

namespace Persist

variable {α β : Type}

/-- Something that links to nothing. -/
def Plain (p : Persist α) : Prop := ∀ a, (p.encode a).refs = []

theorem Plain.pair {p : Persist α} {q : Persist β} (hp : p.Plain) (hq : q.Plain) : (p.pair q).Plain := by
  intro x
  show (p.encode x.1).refs ++ (q.encode x.2).refs = []
  rw [hp, hq]
  rfl

theorem Plain.flagged {p : Persist α} (hp : p.Plain) (bad : UInt8 → String) : (p.flagged bad).Plain := by
  intro a
  cases a with
  | none => rfl
  | some a => exact hp a

theorem Plain.option {p : Persist α} (hp : p.Plain) : (Persist.option p).Plain := hp.flagged _

theorem Plain.counted {p : Persist α} (hp : p.Plain) (hleast : 0 < p.least) : (p.counted hleast).Plain :=
  fun as => eachOf_plain (fun _ => hp) as

def count : Persist Count := u64.map Count.mk Count.n fun _ => rfl

/-- The rows, then the columns, each its bounds and its entity cells. -/
def extent : Persist Extent :=
  (u64.pair (counted ((option (u64.pair u64)).pair u64) (Nat.succ_pos _))).map
    (fun x => ⟨x.2.map Prod.fst, x.2.map Prod.snd, x.1⟩) (fun x => (x.rows, x.bounds.zip x.ents)) fun x => by
      have hzip : x.2 = (x.2.map Prod.fst).zip (x.2.map Prod.snd) := List.zip_of_prod rfl rfl
      exact Prod.ext rfl hzip.symm

theorem plain_extent : extent.Plain := fun x =>
  Plain.pair (p := u64) (fun _ => rfl) (.counted (.pair (.option fun _ => rfl) fun _ => rfl) _)
    (x.rows, x.bounds.zip x.ents)

def contentKey : Persist {ck : Sha256Digest // ck.length = ckLen} := exact ckLen

/-- A difference, in a signed word. -/
def diff : Persist Diff := i64.map Int64.toInt Int64.ofInt Int64.ofInt_toInt

def rels : Persist (List RelId) := u32.counted (Nat.succ_pos _)

def origin : Persist Origin := option (size.pair size)

/-- A layout's tag, then whether rows fold into runs. -/
def shape : Persist Shape :=
  ((exact 2).refine
    (fun bs => match bs with
      | ⟨[tag, runs], _⟩ =>
          if tag = 0 ∨ tag = 1 then
            if runs = 0 ∨ runs = 1 then .ok ⟨if tag = 0 then .ordered else .kd, runs = 1⟩
            else .error ("ent: bad runs flag " ++ toString runs.toNat)
          else .error ("ent: unknown layout tag " ++ toString tag.toNat))
    (fun s => ⟨[match s.layout with | .ordered => 0 | .kd => 1, if s.runs then 1 else 0], rfl⟩) (by
      rintro ⟨bs, hlen⟩ s hs
      obtain ⟨tag, runs, rfl⟩ := List.length_eq_two.1 hlen
      dsimp only at hs
      split_ifs at hs with htag hruns h₀ <;> cases hs
      · obtain rfl := h₀
        rcases hruns with rfl | rfl <;> rfl
      · obtain rfl := htag.resolve_left h₀
        rcases hruns with rfl | rfl <;> rfl))

/-- What an Edition log holds: a tag and a tuple, then the difference or the other end. -/
def logEntry : Persist LogEntry :=
  (byte.pair tuple).select
    (fun x =>
      if x.1 = 0 then some (diff.arm (.update x.2) (fun | .update _ d => some d | _ => none) fun _ => rfl)
      else if x.1 = 1 then some (tuple.arm (.graft x.2) (fun | .graft _ hi => some hi | _ => none) fun _ => rfl)
      else none)
    (fun | .update t _ => (0, t) | .graft lo _ => (1, lo))
    (fun x => "granfilade: unknown log entry tag " ++ toString x.1.toNat) (by
      rintro ⟨tag, t⟩ q harm a ha
      dsimp only at harm
      split_ifs at harm with h₀ h₁
      · cases harm
        obtain ⟨_, -, rfl⟩ := read_arm ha
        exact Prod.ext h₀.symm rfl
      · cases harm
        obtain ⟨_, -, rfl⟩ := read_arm ha
        exact Prod.ext h₁.symm rfl)

/-- What a patch log holds, behind a tag of four bytes. -/
def patchRecord : Persist PatchRecord :=
  u32.select
    (fun tag =>
      if tag = 0 then some ((((u32.pair tuple).counted (Nat.succ_pos _)).pair (rels.pair origin)).arm
        (fun x => .commit x.1 x.2.1 x.2.2) (fun | .commit pre rels o => some (pre, rels, o) | _ => none) fun _ => rfl)
      else if tag = 1 then some ((rels.pair ((u64.pair u64).pair (i64.pair origin))).arm
        (fun x => .graft x.1 x.2.1 x.2.2.1 x.2.2.2)
        (fun | .graft rels block shift o => some (rels, block, shift, o) | _ => none) fun _ => rfl)
      else none)
    (fun | .commit _ _ _ => 0 | .graft _ _ _ _ => 1)
    (fun tag => "ent: bad patch record tag " ++ toString tag) (by
      intro tag q harm a ha
      split_ifs at harm with h₀ h₁
      · cases harm
        obtain ⟨_, -, rfl⟩ := read_arm ha
        exact h₀.symm
      · cases harm
        obtain ⟨_, -, rfl⟩ := read_arm ha
        exact h₁.symm)

/-- A branch, by its id: the point it was forked from, and what was merged into it. -/
def branch : Persist (BranchId × Branch) :=
  (size.pair ((option (size.pair size)).pair (option (size.pair (size.pair size))))).map
    (fun x => (x.1, ⟨x.2.1, x.2.2⟩)) (fun x => (x.1, x.2.parent, x.2.merged)) fun _ => rfl

def reach : Persist Reach :=
  ((option tuple).pair u64).map (fun x => ⟨x.1, x.2⟩) (fun x => (x.maxHi, x.endorse)) fun _ => rfl

end Persist

namespace Persist

def leg : Persist Leg := (u64.pair rels).map (fun x => ⟨x.1, x.2⟩) (fun l => (l.width, l.rels)) fun _ => rfl

def legKey : Persist LegKey :=
  (u64.pair (u64.pair size)).map (fun x => ⟨x.1, x.2.1, x.2.2⟩) (fun k => (k.side, k.other, k.edition)) fun _ => rfl

def interestKey : Persist InterestKey :=
  (u32.pair (tuple.pair size)).map (fun x => ⟨x.1, x.2.1, x.2.2⟩) (fun k => (k.rel, k.lo, k.id)) fun _ => rfl

def hull : Persist Hull := (option (u64.pair u64)).map Hull.mk Hull.ends fun _ => rfl

end Persist

/-- A relation's trees: its versions, its log and its orders. -/
structure RelLinks where
  versions : Option (Stub Count)
  log : Option (Stub Count)
  orders : Option (Stub Count)

/-- A branch's state: its clock, its shape, and links to its trees. -/
structure BranchLinks where
  current : UInt64
  watermark : UInt64
  rels : Option (Stub Count)
  ctx : Option (Stub Count)
  canopy : UInt64 × Option (Stub Reach)
  fired : Option (Stub Count)
  interests : Option (Stub Count)
  registered : Option (Stub Count)
  grafts : Option (Stub Hull) × Option (Stub Hull)
  patches : Option (Stub Count)
  shape : Shape
  shapes : Option (Stub Count)

namespace Persist

def relLinks : Persist RelLinks :=
  (count.link.pair (count.link.pair count.link)).map (fun x => ⟨x.1, x.2.1, x.2.2⟩)
    (fun r => (r.versions, r.log, r.orders)) fun _ => rfl

def branchLinks : Persist BranchLinks :=
  ((u64.pair u64).pair ((count.link.pair count.link).pair ((u64.pair reach.link).pair
    ((count.link.pair (count.link.pair count.link)).pair ((hull.link.pair hull.link).pair
      (count.link.pair (shape.pair count.link))))))).map
    (fun x => ⟨x.1.1, x.1.2, x.2.1.1, x.2.1.2, x.2.2.1, x.2.2.2.1.1, x.2.2.2.1.2.1, x.2.2.2.1.2.2, x.2.2.2.2.1,
      x.2.2.2.2.2.1, x.2.2.2.2.2.2.1, x.2.2.2.2.2.2.2⟩)
    (fun s => ((s.current, s.watermark), (s.rels, s.ctx), s.canopy, (s.fired, s.interests, s.registered), s.grafts,
      s.patches, s.shape, s.shapes)) fun _ => rfl

end Persist

/-! ## Kinds of tree -/

namespace TreeKind

variable {K V M : Type}

/-- A tree whose keys step, with the measures its model has. -/
def stepping [Displace K] [Measure K V M] (key : Persist K) (val : Persist V) (measure : Persist M)
    (key_least : 0 < key.least) (key_plain : key.Plain) (measure_plain : measure.Plain) : TreeKind K V M where
  key := key
  val := val
  measure := measure
  runs := true
  empty := Measure.empty K V
  entry := Measure.entry
  combine := Measure.combine K V
  displace := Measure.displaceM K V
  run first stride n v := some (Measure.run first stride n v)
  hole first stride n := some (Measure.hole V first stride n)
  key_least := key_least
  run_some _ _ _ _ _ := ⟨_, rfl⟩
  hole_some _ _ _ _ := ⟨_, rfl⟩
  key_plain := key_plain
  measure_plain := measure_plain

/-- A tree of fixed coordinates. A hole of them counts for nothing, and a run is measured by its
length if at all. -/
def fixed (key : Persist K) (val : Persist V) (measure : Persist M) (empty : M) (entry : K → V → M)
    (combine : M → M → M) (run : Nat → Option M) (key_least : 0 < key.least) (key_plain : key.Plain)
    (measure_plain : measure.Plain) : TreeKind K V M where
  key := key
  val := val
  measure := measure
  runs := false
  empty := empty
  entry := entry
  combine := combine
  displace m _ := m
  run _ _ n _ := run n
  hole _ _ _ := some empty
  key_least := key_least
  run_some _ _ _ _ h := nomatch h
  hole_some _ _ _ h := nomatch h
  key_plain := key_plain
  measure_plain := measure_plain

/-- A counted tree of fixed coordinates. -/
def counted (key : Persist K) (val : Persist V) (key_least : 0 < key.least) (key_plain : key.Plain) :
    TreeKind K V Count :=
  fixed key val Persist.count ⟨0⟩ (fun _ _ => ⟨1⟩) (fun a b => ⟨a.n + b.n⟩) (fun n => some ⟨UInt64.ofNat n⟩)
    key_least key_plain fun _ => rfl

/-- **What a leaf of a tree of tuples adds up to** is what the model of the tree says, its rows,
its reserved keys and its measure. -/
theorem stepping_measured [Displace K] [Measure K V M] {key : Persist K} {val : Persist V} {measure : Persist M}
    {hleast : 0 < key.least} {hkey : key.Plain} {hmeasure : measure.Plain} (items : List (Item K V)) :
    (stepping key val measure hleast hkey hmeasure).measured (.leaf items) = some (Leaf.summary M items).1 := by
  have hfold : ∀ (items : List (Item K V)) (m : M),
      items.foldlM (fun m it => ((stepping key val measure hleast hkey hmeasure).itemMeasure it).map
        (Measure.combine K V m)) m = some (items.foldl (fun m it => Measure.combine K V m (it.measure M)) m) := by
    intro items
    induction items with
    | nil => exact fun _ => rfl
    | cons it items ih =>
      intro m
      have hit : (stepping key val measure hleast hkey hmeasure).itemMeasure it = some (it.measure M) := by
        cases it <;> rfl
      rw [List.foldlM_cons, hit]
      exact ih _
  exact hfold items _

end TreeKind

namespace TreeKinds

open Persist

/-- The facts of a relation, in its own order or another column's. -/
def fact : TreeKind Tuple Diff (Count × Extent) :=
  .stepping tuple diff (count.pair extent) (Nat.succ_pos _) (fun _ => rfl) (.pair (fun _ => rfl) plain_extent)

/-- The context: catalog names and schemas. -/
def context : TreeKind Tuple Value Count :=
  .stepping tuple value count (Nat.succ_pos _) (fun _ => rfl) fun _ => rfl

/-- A relation's Fact trees by edition, and by column. -/
def versions : TreeKind UInt64 (Option (Stub (Count × Extent))) Count :=
  .counted u64 (count.pair extent).link (Nat.succ_pos _) fun _ => rfl

def orders : TreeKind RelId (Option (Stub (Count × Extent))) Count :=
  .counted u32 (count.pair extent).link (Nat.succ_pos _) fun _ => rfl

def log : TreeKind (UInt64 × UInt64) LogEntry Count :=
  .counted (u64.pair u64) logEntry (Nat.succ_pos _) fun _ => rfl

def rels : TreeKind RelId RelLinks Count := .counted u32 relLinks (Nat.succ_pos _) fun _ => rfl

def fired : TreeKind (UInt64 × UInt64) Unit Count := .counted (u64.pair u64) unit (Nat.succ_pos _) fun _ => rfl

def shapes : TreeKind RelId Shape Count := .counted u32 shape (Nat.succ_pos _) fun _ => rfl

def patches : TreeKind UInt64 PatchRecord Count := .counted u64 patchRecord (Nat.succ_pos _) fun _ => rfl

def interests : TreeKind (RelId × Tuple × Tuple) UInt64 Count :=
  .counted (u32.pair (tuple.pair tuple)) u64 (Nat.succ_pos _) fun _ => rfl

def registered : TreeKind UInt64 UInt64 Count := .counted u64 u64 (Nat.succ_pos _) fun _ => rfl

/-- The branches of a world: where each was forked from, and its state. -/
def branches : TreeKind BranchId (BranchId × Branch) Count := .counted size branch (Nat.succ_pos _) fun _ => rfl

def states : TreeKind BranchId BranchLinks Count := .counted size branchLinks (Nat.succ_pos _) fun _ => rfl

/-- The history index: a node's parents, who holds it as a root, where it was born, and how far
each branch is indexed. -/
def parents : TreeKind ({ck : Sha256Digest // ck.length = ckLen} × {ck : Sha256Digest // ck.length = ckLen} × Dsp)
    Unit Count :=
  .counted (contentKey.pair (contentKey.pair i64)) unit (Nat.succ_pos _) fun _ => rfl

def holders : TreeKind ({ck : Sha256Digest // ck.length = ckLen} × UInt64 × UInt64 × UInt64) Unit Count :=
  .counted (contentKey.pair (u64.pair (u64.pair u64))) unit (Nat.succ_pos _) fun _ => rfl

def born : TreeKind ({ck : Sha256Digest // ck.length = ckLen} × UInt64) UInt64 Count :=
  .counted (contentKey.pair u64) u64 (Nat.succ_pos _) fun _ => rfl

def cursor : TreeKind UInt64 UInt64 Count := .counted u64 u64 (Nat.succ_pos _) fun _ => rfl

/-- The canopy. A run of interests would be taken one by one, stepping keys that do not. -/
def canopy : TreeKind InterestKey (Tuple × Endorsement) Reach :=
  .fixed interestKey (tuple.pair u64) reach (Measure.empty InterestKey (Tuple × Endorsement)) Measure.entry
    (Measure.combine InterestKey (Tuple × Endorsement))
    (fun n => if n = 0 then some (Measure.empty InterestKey (Tuple × Endorsement)) else none) (Nat.succ_pos _)
    (fun _ => rfl) fun r => Plain.pair (.option fun _ => rfl) (fun _ => rfl) (r.maxHi, r.endorse)

/-- The grafts, by either side. -/
def grafts : TreeKind LegKey Leg Hull :=
  .fixed legKey leg hull (Measure.empty LegKey Leg) Measure.entry (Measure.combine LegKey Leg)
    (fun n => if n = 0 then some (Measure.empty LegKey Leg) else none) (Nat.succ_pos _) (fun _ => rfl)
    fun h => Plain.option (p := u64.pair u64) (fun _ => rfl) h.ends

end TreeKinds

end Grmpl

import Grmpl.Ent.TreeWalk
import Mathlib.Data.Prod.Lex
import Mathlib.Data.UInt

/-!
# The canopy

Standing interests in the rows of a relation between two keys, held in a measured
tree by relation, low end and id. A change is routed to the interests it touches
by stabbing the tree with each updated row, or with the span a graft lands in.

* `InterestKey`, `Reach`: the tree's keys and its measure.
* `Canopy.register`, `Canopy.route`, `Canopy.routeSpan`.
-/

namespace Grmpl

/-- A set of authority flags. -/
abbrev Endorsement := UInt64

namespace Endorsement

/-- Every flag. -/
def all : Endorsement := 0xFFFFFFFFFFFFFFFF

/-- No flag. -/
def none : Endorsement := 0

/-- Whether an endorsement holds every required flag. -/
def dominates (e required : Endorsement) : Bool := e &&& required = required

theorem dominates_none (e : Endorsement) : dominates e none = true := by
  simp [dominates, none]

end Endorsement

/-- The key of an interest: its relation, its low end, its id. -/
structure InterestKey where
  rel : Nat
  lo : Tuple
  id : Nat
  deriving DecidableEq

namespace InterestKey

/-- Keys ordered by relation, then low end, then id. -/
def toLexKey (k : InterestKey) : Nat ×ₗ (Tuple ×ₗ Nat) := toLex (k.rel, toLex (k.lo, k.id))

theorem toLexKey_injective : Function.Injective toLexKey := by
  rintro ⟨r, l, i⟩ ⟨r', l', i'⟩ h
  have h' := Prod.ext_iff.1 (toLex.injective h)
  have h'' := Prod.ext_iff.1 (toLex.injective h'.2)
  simp_all

instance : LinearOrder InterestKey := LinearOrder.lift' toLexKey toLexKey_injective

theorem lt_iff (a b : InterestKey) : a < b ↔
    a.rel < b.rel ∨ a.rel = b.rel ∧ (a.lo < b.lo ∨ a.lo = b.lo ∧ a.id < b.id) := by
  show toLexKey a < toLexKey b ↔ _
  simp only [toLexKey, Prod.Lex.toLex_lt_toLex]

/-- An interest moves with its low end. -/
instance instDisplace : Displace InterestKey where
  displace k d := ⟨k.rel, displace k.lo d, k.id⟩
  cmpDisplaced k d other := compare (⟨k.rel, displace k.lo d, k.id⟩ : InterestKey) other
  cmpColumn k _ p d := compare k ⟨p.rel, displace p.lo d, p.id⟩
  strideTo _ _ := none
  step k _ _ := k
  fits _ _ := False
  displace_zero := by simp
  displace_displace := by simp
  cmpDisplaced_eq := by simp
  cmpColumn_eq := by simp
  strideTo_fits := by simp
  strideTo_lt := by simp
  strideTo_step := by simp
  fits_step := by simp
  fits_displace := by simp
  step_zero := by simp
  step_step := by simp
  displace_step := by simp

end InterestKey

/-- The greatest high end under a subtree, and every flag beneath it. -/
structure Reach where
  maxHi : Option Tuple
  endorse : Endorsement
  deriving DecidableEq

namespace Reach

/-- The later of two high ends. -/
def later : Option Tuple → Option Tuple → Option Tuple
  | none, r => r
  | l, none => l
  | some l, some r => some (max l r)

instance instMeasure : Measure InterestKey (Tuple × Endorsement) Reach where
  empty := ⟨none, Endorsement.none⟩
  entry _ v := ⟨some v.1, v.2⟩
  combine a b := ⟨later a.maxHi b.maxHi, a.endorse ||| b.endorse⟩
  displaceM m _ := m
  sideOf _ _ _ := none
  run _ _ n v := if n = 0 then ⟨none, Endorsement.none⟩ else ⟨some v.1, v.2⟩
  hole _ _ _ := ⟨none, Endorsement.none⟩

end Reach

/-- Standing interests as a measured tree. -/
abbrev CanopyEnf := Tree InterestKey (Tuple × Endorsement) Reach

/-- The canopy: the next interest id, and the interests. -/
structure Canopy where
  next : Nat
  enf : CanopyEnf

namespace Canopy

open Grmpl.Tree

def new : Canopy := ⟨0, nil⟩

def isEmpty (c : Canopy) : Bool := c.enf.isEmpty

/-- A new interest in the rows of `rel` between `lo` and `hi`, and its id. -/
def registerEndorsed (c : Canopy) (rel : Nat) (lo hi : Tuple) (endorse : Endorsement) :
    Canopy × Nat :=
  (⟨c.next + 1, c.enf.insertWith ⟨rel, lo, c.next⟩ (hi, endorse) false⟩, c.next)

def register (c : Canopy) (rel : Nat) (lo hi : Tuple) : Canopy × Nat :=
  c.registerEndorsed rel lo hi Endorsement.all

/-- The children a walk of an internal node enters: up to the first separator
past its target, less those that end before its relation. -/
def childrenFor (rel : Nat) (past : Tuple → Bool) (keys : List InterestKey)
    (children : List CanopyEnf) : List CanopyEnf :=
  let stop : Nat → Bool := fun i => 0 < i && (keys[i - 1]?).any fun k =>
    decide (rel < k.rel) || (k.rel = rel && past k.lo)
  let skip : Nat → Bool := fun i => (keys[i]?).any fun k => decide (k.rel < rel)
  (((List.range children.length).takeWhile (!stop ·)).filter (!skip ·)).filterMap (children[·]?)

/-- The interests of `rel` that a walk finds: subtrees that reach nothing past
`from` are pruned, as are those without the required flags. -/
def walk (rel : Nat) (start : Tuple) (past : Tuple → Bool) (required : Endorsement)
    (keep : InterestKey → Tuple → Bool) : Nat → CanopyEnf → List Nat
  | 0, _ => []
  | fuel + 1, t =>
      if t.isEmpty then []
      else if t.measure.maxHi.all (· ≤ start) then []
      else if !t.measure.endorse.dominates required then []
      else match t.view with
        | .leaf items => (items.filterMap Item.asOne).filterMap fun e =>
            if e.1.rel = rel && keep e.1 e.2.1 && e.2.2.dominates required then some e.1.id else none
        | .sep keys children =>
            (childrenFor rel past keys children).flatMap (walk rel start past required keep fuel)
        | .mixed _ => []

/-- The interests of `rel` that contain `point`. -/
def stab (c : Canopy) (rel : Nat) (point : Tuple) (required : Endorsement) : List Nat :=
  walk rel point (fun lo => point < lo) required (fun k hi => k.lo ≤ point && point < hi)
    c.enf.depth c.enf

/-- The interests of `rel` that overlap the span from `lo` to `hi`. -/
def overlap (c : Canopy) (rel : Nat) (lo hi : Tuple) : List Nat :=
  walk rel lo (fun l => hi ≤ l) Endorsement.none (fun k ihi => k.lo < hi && lo < ihi)
    c.enf.depth c.enf

/-- The interests a list of updates touches, in order and without repeats. -/
def routeEndorsed (c : Canopy) (updates : List (Nat × Tuple × Int)) (required : Endorsement) :
    List Nat :=
  ((updates.flatMap fun u => c.stab u.1 u.2.1 required).mergeSort (· ≤ ·)).dedup

def route (c : Canopy) (updates : List (Nat × Tuple × Int)) : List Nat :=
  c.routeEndorsed updates Endorsement.none

/-- The interests a span touches. -/
def routeSpan (c : Canopy) (rel : Nat) (lo hi : Tuple) : List Nat :=
  (if lo < hi then c.overlap rel lo hi else []).mergeSort (· ≤ ·)

end Canopy

end Grmpl

import Grmpl.Ent.TreeSearch
import Grmpl.Ent.TreeWrites
import Grmpl.Core.Patch
import Grmpl.Lib.Fuelled
import Mathlib.Data.Prod.Lex
import Mathlib.Data.UInt

/-!
# The spanfilade

Every graft of a branch, indexed by the block it copied and again by the block it filled. Each
tree is measured by the hull of its spans, the least start and the greatest end, so that a
search for the spans over a block prunes on both ends. The index only grows.

* `GraftSpan`, `LegKey`, `Leg`, `Hull`: a graft, and what the trees hold and measure.
* `Spanfilade.record`, `copiesOf`, `sourcesOf`, `asOf`: the index, and what is asked of it.
* `Spanfilade.origin`: an entity followed back through the grafts that carried it.
-/

open Fuelled

namespace Grmpl

/-- One graft: a block copied to another, in some relations, at an edition. -/
structure GraftSpan where
  source : UInt64 × UInt64
  target : UInt64 × UInt64
  edition : Nat
  rels : List RelId
  deriving DecidableEq

/-- The key of a leg: where its side starts, where the other does, and its edition. -/
structure LegKey where
  side : UInt64
  other : UInt64
  edition : Nat
  deriving DecidableEq

namespace LegKey

def toLexKey (k : LegKey) : Nat ×ₗ (Nat ×ₗ Nat) := toLex (k.side.toNat, toLex (k.other.toNat, k.edition))

theorem toLexKey_injective : Function.Injective toLexKey := by
  rintro ⟨s, o, e⟩ ⟨s', o', e'⟩ h
  have h' := Prod.ext_iff.1 (toLex.injective h)
  have h'' := Prod.ext_iff.1 (toLex.injective h'.2)
  obtain rfl := UInt64.toNat_inj.1 h'.1
  obtain rfl := UInt64.toNat_inj.1 h''.1
  exact congrArg (LegKey.mk s o) h''.2

instance : LinearOrder LegKey := LinearOrder.lift' toLexKey toLexKey_injective

/-- Legs are fixed coordinates. -/
instance instDisplace : Displace LegKey where
  displace k _ := k
  cmpDisplaced k _ other := compare k other
  cmpColumn k _ p _ := compare k p
  strideTo _ _ := none
  step k _ _ := k
  fits _ _ := False
  displace_zero _ := rfl
  displace_displace _ _ _ := rfl
  cmpDisplaced_eq _ _ _ := rfl
  cmpColumn_eq _ _ _ _ := rfl
  strideTo_fits := by simp
  strideTo_lt := by simp
  strideTo_step := by simp
  fits_step := by simp
  fits_displace := by simp
  step_zero := by simp
  step_step := by simp
  displace_step := by simp

end LegKey

/-- What a leg holds beyond its key: its width and the relations copied. -/
structure Leg where
  width : UInt64
  rels : List RelId
  deriving DecidableEq

/-- The least start and the greatest end of the spans under a subtree. -/
structure Hull where
  ends : Option (UInt64 × UInt64)
  deriving DecidableEq

/-- A sum in a word, if it fits. -/
def plus (a b : UInt64) : Option UInt64 := if a.toNat + b.toNat < 2 ^ 64 then some (a + b) else none

/-- A sum, stopped at the greatest word. -/
def saturatingAdd (a b : UInt64) : UInt64 := (plus a b).getD 0xFFFFFFFFFFFFFFFF

namespace Hull

/-- Whether some span under a hull may overlap `[lo, hi)`. -/
def meets (h : Hull) (lo hi : UInt64) : Bool :=
  match h.ends with
  | none => false
  | some (start, stop) => start < hi && lo < stop

def join : Option (UInt64 × UInt64) → Option (UInt64 × UInt64) → Option (UInt64 × UInt64)
  | none, r => r
  | l, none => l
  | some (a₀, a₁), some (b₀, b₁) => some (min a₀ b₀, max a₁ b₁)

def entry (k : LegKey) (leg : Leg) : Hull := ⟨some (k.side, saturatingAdd k.side leg.width)⟩

instance instMeasure : Measure LegKey Leg Hull where
  empty := ⟨none⟩
  entry := entry
  combine a b := ⟨join a.ends b.ends⟩
  displaceM m _ := m
  sideOf _ _ _ := none
  run k _ n leg := if n = 0 then ⟨none⟩ else entry k leg
  hole _ _ _ := ⟨none⟩

end Hull

abbrev SpanEnf := Tree LegKey Leg Hull

/-- Every graft of a branch, by its source and again by its target. -/
structure Spanfilade where
  bySource : SpanEnf
  byTarget : SpanEnf

namespace Spanfilade

def new : Spanfilade := ⟨.nil, .nil⟩

/-- A graft recorded in both trees. -/
def record (x : Spanfilade) (g : GraftSpan) : Spanfilade :=
  let leg : Leg := ⟨if g.source.1 ≤ g.source.2 then g.source.2 - g.source.1 else 0, g.rels⟩
  ⟨x.bySource.insertWith ⟨g.source.1, g.target.1, g.edition⟩ leg false,
    x.byTarget.insertWith ⟨g.target.1, g.source.1, g.edition⟩ leg false⟩

/-- The legs over `[lo, hi)` made at or before an edition. -/
def stab (tree : SpanEnf) (lo hi : UInt64) (at' : Nat) : List (LegKey × Leg) :=
  tree.search (·.meets lo hi) fun k leg => (Hull.entry k leg).meets lo hi && k.edition ≤ at'

/-- A leg as the graft it was; none where an end is past the greatest word. -/
def span (s t : UInt64) (edition : Nat) (leg : Leg) : Option GraftSpan := do
  let stop ← plus s leg.width
  let stop' ← plus t leg.width
  return ⟨(s, stop), (t, stop'), edition, leg.rels⟩

/-- The grafts made by an edition whose source overlaps `[lo, hi)`, in source order. -/
def copiesOf (x : Spanfilade) (lo hi : UInt64) (at' : Nat) : Option (List GraftSpan) :=
  (stab x.bySource lo hi at').mapM fun e => span e.1.side e.1.other e.1.edition e.2

/-- The grafts made by an edition whose target overlaps `[lo, hi)`, in target order. -/
def sourcesOf (x : Spanfilade) (lo hi : UInt64) (at' : Nat) : Option (List GraftSpan) :=
  (stab x.byTarget lo hi at').mapM fun e => span e.1.other e.1.side e.1.edition e.2

/-- The last of the latest legs. -/
def latest : List (LegKey × Leg) → Option (LegKey × Leg)
  | [] => none
  | e :: es =>
      match latest es with
      | none => some e
      | some l => if e.1.edition ≤ l.1.edition then some l else some e

/-- Where an origin is followed to: the entity, the edition its next graft is older than, and
the grafts so far. -/
structure Following where
  entity : UInt64
  before : Nat
  chain : List GraftSpan

/-- One graft further back. It panics on an edition below none, and where a word is exceeded. -/
def follow (x : Spanfilade) (f : Following) : Trip Following (Option (UInt64 × List GraftSpan)) :=
  match f.before with
  | 0 => .ended none
  | before + 1 =>
      match latest (stab x.byTarget f.entity (saturatingAdd f.entity 1) before) with
      | none => .ended (some (f.entity, f.chain))
      | some (k, leg) =>
          if f.entity < k.side then .ended none
          else
            match plus k.other (f.entity - k.side), span k.other k.side k.edition leg with
            | some entity, some g => .spent ⟨entity, k.edition, f.chain ++ [g]⟩
            | _, _ => .ended none

/-- The entity an entity started as, as of an edition, and the grafts that carried it, the most
recent first. -/
def origin (x : Spanfilade) (fuel : Nat) (entity : UInt64) (at' : Nat) :
    Following ⊕ Option (UInt64 × List GraftSpan) :=
  spend (follow x) fuel ⟨entity, at' + 1, []⟩

/-- The index of the grafts made by an edition. -/
def asOf (x : Spanfilade) (at' : Nat) : Option Spanfilade :=
  x.bySource.iter.foldlM (fun out e =>
    if e.1.edition ≤ at' then (span e.1.side e.1.other e.1.edition e.2).map out.record else some out) new

end Spanfilade

end Grmpl

import Grmpl.Ent.Dsp

/-!
# Subtree measures

Every node of a tree caches a *measure*: a summary of the subtree beneath it,
combined associatively up the tree. `Measure` is the operations a tree calls;
`LawfulMeasure` is what they promise about the rows summarised.

* `Count`: the number of entries, wrapping.
* `Extent`: per column, the least and greatest entity id in it.
* The product of two measures.
-/

namespace Grmpl

/-- A monoidal summary of a subtree of entries. -/
class Measure (K V M : Type) [Displace K] where
  empty : M
  entry : K → V → M
  combine : M → M → M
  /-- The measure of the same subtree with every key displaced. -/
  displaceM : M → Dsp → M
  /-- Which side of a pivot on a column every key lies on, if it can tell. -/
  sideOf : M → Nat → K → Option Bool
  /-- The measure of rows stepped from a first key, all with one value. -/
  run : K → K → Nat → V → M
  /-- The measure of keys reserved but holding no rows. -/
  hole : K → K → Nat → M

/-- The fold of a list of entries, the measure the tree caches in a shape-free
form. -/
def Measure.ofEntries {K V : Type} (M : Type) [Displace K] [Measure K V M] (l : List (K × V)) : M :=
  l.foldl (fun m e => Measure.combine K V m (Measure.entry e.1 e.2)) (Measure.empty K V)

/-- What a measure promises: a monoid, displaced as its keys are, whose runs are
the fold of their rows and whose holes count for nothing. -/
class LawfulMeasure (K V M : Type) [Displace K] [Measure K V M] : Prop where
  combine_assoc : ∀ a b c : M,
    Measure.combine K V (Measure.combine K V a b) c = Measure.combine K V a (Measure.combine K V b c)
  empty_combine : ∀ a : M, Measure.combine K V (Measure.empty K V) a = a
  combine_empty : ∀ a : M, Measure.combine K V a (Measure.empty K V) = a
  displace_zero : ∀ a : M, Measure.displaceM K V a 0 = a
  displace_empty : ∀ d, Measure.displaceM K V (Measure.empty K V : M) d = Measure.empty K V
  displace_combine : ∀ (a b : M) d, Measure.displaceM K V (Measure.combine K V a b) d
    = Measure.combine K V (Measure.displaceM K V a d) (Measure.displaceM K V b d)
  displace_entry : ∀ (k : K) (v : V) d,
    Measure.displaceM K V (Measure.entry k v : M) d = Measure.entry (displace k d) v
  run_eq : ∀ (first stride : K) (n : Nat) (v : V), fits first stride →
    (Measure.run first stride n v : M)
      = Measure.ofEntries M ((List.range n).map fun i : Nat => (step first stride i, v))
  hole_eq : ∀ (first stride : K) (n : Nat), (Measure.hole V first stride n : M) = Measure.empty K V

section Lawful

variable {K V M : Type} [Displace K] [Measure K V M] [LawfulMeasure K V M]

/-- Folding entries into an accumulator is combining their measure with it. -/
theorem Measure.foldl_eq (l : List (K × V)) (acc : M) :
    l.foldl (fun m e => Measure.combine K V m (Measure.entry e.1 e.2)) acc
      = Measure.combine K V acc (Measure.ofEntries M l) := by
  induction l generalizing acc with
  | nil => exact (LawfulMeasure.combine_empty acc).symm
  | cons e l ih =>
    rw [Measure.ofEntries, List.foldl_cons, List.foldl_cons, ih, ih,
      LawfulMeasure.empty_combine, LawfulMeasure.combine_assoc]

theorem Measure.ofEntries_append (a b : List (K × V)) :
    Measure.ofEntries M (a ++ b)
      = Measure.combine K V (Measure.ofEntries M a) (Measure.ofEntries M b) := by
  rw [Measure.ofEntries, List.foldl_append, Measure.foldl_eq b]
  rfl

theorem Measure.ofEntries_singleton (e : K × V) :
    Measure.ofEntries M [e] = Measure.entry e.1 e.2 :=
  LawfulMeasure.empty_combine _

/-- The measure of displaced entries is the displaced measure. -/
theorem Measure.ofEntries_displace (l : List (K × V)) (d : Dsp) :
    Measure.ofEntries M (l.map fun e => (displace e.1 d, e.2))
      = Measure.displaceM K V (Measure.ofEntries M l) d := by
  induction l with
  | nil => exact (LawfulMeasure.displace_empty d).symm
  | cons e l ih =>
    rw [List.map_cons, ← List.singleton_append, Measure.ofEntries_append, ih,
      Measure.ofEntries_singleton, ← LawfulMeasure.displace_entry,
      ← LawfulMeasure.displace_combine, ← Measure.ofEntries_singleton e,
      ← Measure.ofEntries_append]
    rfl

end Lawful

/-! ## The entry count -/

/-- The number of entries. -/
structure Count where
  n : UInt64
deriving DecidableEq, Repr

instance instMeasureCount {K V : Type} [Displace K] : Measure K V Count where
  empty := ⟨0⟩
  entry _ _ := ⟨1⟩
  combine a b := ⟨a.n + b.n⟩
  displaceM m _ := m
  sideOf _ _ _ := none
  run _ _ n _ := ⟨UInt64.ofNat n⟩
  hole _ _ _ := ⟨0⟩

theorem Count.ofEntries {K V : Type} [Displace K] (l : List (K × V)) :
    Measure.ofEntries Count l = ⟨UInt64.ofNat l.length⟩ := by
  have fold : ∀ (l : List (K × V)) (c : Count),
      l.foldl (fun m e => Measure.combine K V m (Measure.entry e.1 e.2)) c
        = ⟨c.n + UInt64.ofNat l.length⟩ := by
    intro l
    induction l with
    | nil => intro c; simp
    | cons e l ih =>
      intro c
      rw [List.foldl_cons, ih]
      simp only [Measure.combine, Measure.entry, List.length_cons, UInt64.ofNat_add]
      congr 1
      rw [UInt64.add_assoc, UInt64.add_comm 1]
      rfl
  exact (fold l ⟨0⟩).trans (by simp)

instance {K V : Type} [Displace K] : LawfulMeasure K V Count where
  combine_assoc a b c := by simp [Measure.combine, UInt64.add_assoc]
  empty_combine a := by simp [Measure.combine, Measure.empty]
  combine_empty a := by simp [Measure.combine, Measure.empty]
  displace_zero _ := rfl
  displace_empty _ := rfl
  displace_combine _ _ _ := rfl
  displace_entry _ _ _ := rfl
  run_eq first stride n v _ := by
    rw [Count.ofEntries]
    simp [Measure.run]
  hole_eq _ _ _ := rfl

/-! ## The extent in entity space -/

/-- Per column, the least and greatest entity id, the number of rows holding an
entity there, and the rows summarised. -/
structure Extent where
  bounds : List (Option (UInt64 × UInt64)) := []
  ents : List UInt64 := []
  rows : UInt64 := 0
deriving DecidableEq, Repr

namespace Extent

/-- A list grown to `n` elements, as `Vec::resize` grows it. -/
def grow {α : Type} (l : List α) (n : Nat) (d : α) : List α := l ++ List.replicate (n - l.length) d

/-- The bounds of column `col`, if an entity lies in it. -/
def column (x : Extent) (col : Nat) : Option (UInt64 × UInt64) := x.bounds[col]?.join

/-- Whether column `col` may hold an entity in `[lo, hi)`. -/
def meets (x : Extent) (col : Nat) (lo hi : UInt64) : Bool :=
  match x.column col with
  | some (mn, mx) => mn < hi && lo ≤ mx
  | none => false

/-- Whether every entity cell, in every column, lies in `[lo, hi)`. -/
def within (x : Extent) (lo hi : UInt64) : Bool :=
  x.bounds.all fun b => match b with
    | some (mn, mx) => lo ≤ mn && mx < hi
    | none => true

/-- Two bounds of one column put together. -/
def joinBounds : Option (UInt64 × UInt64) → Option (UInt64 × UInt64) → Option (UInt64 × UInt64)
  | none, b => b
  | a, none => a
  | some (a₀, a₁), some (b₀, b₁) => some (min a₀ b₀, max a₁ b₁)

/-- The cells of a row as bounds of their columns. -/
def cellBounds (x y : Value) : Option (UInt64 × UInt64) :=
  match x, y with
  | .ent x, .ent y => some (min x.id y.id, max x.id y.id)
  | _, _ => none

/-- Lists added column by column, the longer one's tail kept. -/
def zipTail {α : Type} (f : α → α → α) : List α → List α → List α
  | as, [] => as
  | [], bs => bs
  | a :: as, b :: bs => f a b :: zipTail f as bs

/-- The extent of `n` rows from `first` to `last`: per column, the bounds its two
end rows have. -/
def ofEnds (first last : Tuple) (n : UInt64) : Extent :=
  let cols := first.cells.zip last.cells
  { bounds := grow (cols.map fun p => cellBounds p.1 p.2) first.cells.length none
    ents := grow (cols.map fun p => if (cellBounds p.1 p.2).isSome then n else 0)
      first.cells.length 0
    rows := n }

/-- Two extents put together. -/
def combine (a b : Extent) : Extent :=
  { bounds := zipTail joinBounds a.bounds b.bounds
    ents := zipTail (· + ·) a.ents b.ents
    rows := a.rows + b.rows }

/-- The extent of `n` rows stepped from `first`. -/
def run (first stride : Tuple) (n : Nat) : Extent :=
  if n = 0 then {} else ofEnds first (first.step stride (n - 1)) (UInt64.ofNat n)

/-- Every bound moves with the entity cells it summarises. -/
def displace (x : Extent) (d : Dsp) : Extent :=
  if d = 0 then x
  else { x with bounds := x.bounds.map (Option.map fun b => (b.1 + d.toUInt64, b.2 + d.toUInt64)) }

/-- The bounds of column `col` if every row summarised holds an entity there. -/
def full (x : Extent) (col : Nat) : Option (UInt64 × UInt64) :=
  if 0 < x.rows ∧ x.ents[col]? = some x.rows then x.column col else none

/-- Only a column every row holds an entity in, against an entity pivot. -/
def sideOf (x : Extent) (col : Nat) (pivot : Tuple) : Option Bool :=
  match pivot.cells.head?, x.full col with
  | some (.ent p), some (mn, mx) =>
      if mx < p.id then some true else if p.id ≤ mn then some false else none
  | _, _ => none

end Extent

instance instMeasureExtent {V : Type} : Measure Tuple V Extent where
  empty := {}
  entry k _ := Extent.ofEnds k k 1
  combine := Extent.combine
  displaceM := Extent.displace
  sideOf := Extent.sideOf
  run first stride n _ := Extent.run first stride n
  hole := Extent.run

/-! ## Products -/

instance instMeasureProd {K V A B : Type} [Displace K] [Measure K V A] [Measure K V B] :
    Measure K V (A × B) where
  empty := (Measure.empty K V, Measure.empty K V)
  entry k v := (Measure.entry k v, Measure.entry k v)
  combine a b := (Measure.combine K V a.1 b.1, Measure.combine K V a.2 b.2)
  displaceM m d := (Measure.displaceM K V m.1 d, Measure.displaceM K V m.2 d)
  sideOf m col p :=
    (Measure.sideOf V m.1 col p).or (Measure.sideOf V m.2 col p)
  run first stride n v := (Measure.run first stride n v, Measure.run first stride n v)
  hole first stride n := (Measure.hole V first stride n, Measure.hole V first stride n)

end Grmpl

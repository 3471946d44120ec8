import Grmpl.Ent.KdDiffWalk
import Grmpl.Ent.TreeVersions

/-!
# The difference of any two trees is exact

Two trees of one kind are compared exactly, whatever their shapes and whatever
nodes they share at whatever displacements: a pair of trees pruned as the same
holds the same rows. Both kinds need displacements that keep what their layout
rests on, the key order or the sides of the pivots; a displacement that wraps, or
a run whose cells wrap, breaks it.
-/

open OrdMap

namespace Grmpl

open Grmpl.Tree

variable {K V M : Type} [Displace K] [PivotKey K] [Measure K V M]

/-- Two trees of one kind, each well formed. -/
inductive Comparable (a b : Tree K V M) : Prop where
  | ordered {p q : Bool} : Sound p anyKey a → Sound q anyKey b → Comparable a b
  | kd : KdSound a → KdSound b → Comparable a b

omit [PivotKey K] in
/-- A tree in key order has no split at its root. -/
theorem Tree.Sound.isKd {p : Bool} {U : K → Prop} {t : Tree K V M} (ht : Sound p U t) :
    t.isKd = false := by
  rcases ht with rfl | ⟨h, ht⟩
  · rfl
  · cases h <;> cases t <;> first | rfl | exact ht.elim

/-- A well-formed k-d tree with no split at its root is in key order. -/
theorem Tree.KdSound.ordered {t : Tree K V M} (ht : KdSound t) (hkd : t.isKd = false) :
    Sound false anyKey t := by
  cases t with
  | nil => exact Sound.nil
  | nodeLeaf d s items => exact ht.leaf
  | nodeInternal d s keys children => exact absurd ht (by simp [KdSound, KdAt])
  | nodeSplit d s col pivot lo hi => cases hkd

variable [DecidableEq V] {a b : Tree K V M} {A B : Marks}

omit [PivotKey K] in
/-- The walk of two trees in key order is exact. -/
theorem Tree.diffOrdered_exact {p q : Bool} (hAB : A.Faithful B a b) (ha : Sound p anyKey a)
    (hb : Sound q anyKey b) :
    ExactDiff (rows a) (rows b) (diffOrdered A B a b) ∧
      (diffOrdered A B a b).Pairwise fun c c' => c.1 < c'.1 := by
  have hsa : Sorted (rows a) := sorted_rowsOf ha.sorted
  have hsb : Sorted (rows b) := sorted_rowsOf hb.sorted
  rw [diffOrdered_spec hAB ha hb]
  exact ⟨exact_mergeDiff hsa hsb, sorted_mergeDiff hsa hsb⟩

/-- **`diff` is exact**: for two well-formed trees of one kind and marks that name
one node alike, it returns the keys whose presence or value differs, each once
with its two values, in key order. -/
theorem diff_exact (hAB : A.Faithful B a b) (hab : Comparable a b) :
    ExactDiff (rows a) (rows b) (diff A B a b) ∧
      (diff A B a b).Pairwise fun c c' => c.1 < c'.1 := by
  cases hab with
  | ordered ha hb =>
      rw [diff, ha.isKd, hb.isKd]
      exact diffOrdered_exact hAB ha hb
  | kd ha hb =>
      rw [diff]
      cases hkd : a.isKd || b.isKd with
      | true =>
          have hexact := kdDiff_spec hAB ha hb
          rw [if_pos rfl]
          exact ⟨hexact.perm (sortKeys_perm _).symm, sorted_sortKeys hexact.once⟩
      | false =>
          rw [Bool.or_eq_false_iff] at hkd
          exact diffOrdered_exact hAB (ha.ordered hkd.1) (hb.ordered hkd.2)

omit [DecidableEq V] in
/-- The versions of any two legal runs from the empty tree are comparable. -/
theorem Comparable.versions {ops ops' : List (TreeOp K V)} [RunValue V]
    (hrun : LegalRun ops [(nil : Tree K V M)]) (hrun' : LegalRun ops' [(nil : Tree K V M)])
    (ha : a ∈ runTrees ops [nil]) (hb : b ∈ runTrees ops' [nil]) : Comparable a b := by
  have sound : ∀ (ops : List (TreeOp K V)) (t : Tree K V M), LegalRun ops [(nil : Tree K V M)] →
      t ∈ runTrees ops [nil] → Sound false anyKey t := by
    intro ops t hrun ht
    have hden := run_denotes (p := false) ops [(nil : Tree K V M)] [[]]
      (.cons ⟨Sound.nil, rfl⟩ .nil) hrun (by simp)
    obtain ⟨i, hi, rfl⟩ := List.mem_iff_getElem.1 ht
    exact (hden.get hi (by rw [← hden.length_eq]; exact hi)).sound
  exact .ordered (sound ops a hrun ha) (sound ops' b hrun' hb)

/-- The marks of a tree whose nodes are all kept apart from another's. -/
def apartAt (addr : Nat) : Marks := ⟨fun _ => addr, fun _ => none⟩

omit [Displace K] [PivotKey K] [Measure K V M] [DecidableEq V] in
theorem faithful_apart {m n : Nat} (h : m ≠ n) : (apartAt m).Faithful (apartAt n) a b := by
  intro p q x y _ _ hsame
  simp [sameNode, apartAt, h] at hsame

/-- Rows moved, kept apart and joined, for comparing with what they were. -/
def movedRun : List (TreeOp Tuple Int) :=
  [.insertWith 0 (entRow 1) 1 false, .insertWith 1 (entRow 2) 1 false, .relocate 2 5, .join 2 3]

/-- The version of a run at an index. -/
def versionAt (ops : List (TreeOp Tuple Int)) (n : Nat) : Tree Tuple Int Count :=
  ((runTrees ops [(nil : Tree Tuple Int Count)])[n]?).getD nil

theorem versionAt_mem {ops : List (TreeOp Tuple Int)} {n : Nat}
    (h : n < (runTrees ops [(nil : Tree Tuple Int Count)]).length) :
    versionAt ops n ∈ runTrees ops [(nil : Tree Tuple Int Count)] := by
  simp [versionAt, h]

theorem diff_exact_sample :
    ExactDiff (rows (versionAt movedRun 2)) (rows (versionAt movedRun 4))
        (diff (apartAt 0) (apartAt 1) (versionAt movedRun 2) (versionAt movedRun 4)) ∧
      (diff (apartAt 0) (apartAt 1) (versionAt movedRun 2) (versionAt movedRun 4)).Pairwise
        fun c c' => c.1 < c'.1 :=
  diff_exact (faithful_apart (by decide))
    (Comparable.versions (by decide +kernel)
      (by decide +kernel) (versionAt_mem (by decide +kernel)) (versionAt_mem (by decide +kernel)))

/-- A row of two entities. -/
def entPair (a b : Nat) : Tuple := ⟨[.ent ⟨UInt64.ofNat a⟩, .ent ⟨UInt64.ofNat b⟩]⟩

/-- Rows folded into one run whose second column wraps. -/
def wrappedLeaf : Tree Tuple Int Count :=
  [entPair 0 0, entPair 1 (2 ^ 63 - 1), entPair 2 (2 ^ 64 - 2), entPair 3 (2 ^ 63 - 3)].foldl
    (fun t k => t.insertWith k 1 true) nil

/-- The same rows under a split on the second column. -/
def unwrappedSplit : Tree Tuple Int Count :=
  .nodeSplit 0 ⟨4, 0, ⟨4⟩⟩ 1 ⟨[.ent ⟨2 ^ 63⟩]⟩
    (leaf [.one (entPair 0 0) 1, .one (entPair 1 (2 ^ 63 - 1)) 1, .one (entPair 3 (2 ^ 63 - 3)) 1])
    (leaf [.one (entPair 2 (2 ^ 64 - 2)) 1])

/-- Two rows at the ends of the entity ids, in order. -/
def endsRun : List (TreeOp Tuple Int) :=
  [.insertWith 0 (entRow 0) 1 false, .insertWith 1 (entRow 1) 1 false]

/-- A displacement that wraps a row, and a run whose cells wrap, make `diff` report
a key the two trees agree on, and twice. -/
theorem diff_wrapped :
    (diff (apartAt 0) (apartAt 1) (versionAt wrapRun 3) (versionAt endsRun 2)
        = [(entRow 0, none, some 1), (entRow 0, some 1, none)] ∧
      ¬ExactDiff (rows (versionAt wrapRun 3)) (rows (versionAt endsRun 2))
        (diff (apartAt 0) (apartAt 1) (versionAt wrapRun 3) (versionAt endsRun 2))) ∧
    (diff (apartAt 0) (apartAt 1) wrappedLeaf unwrappedSplit
        = [(entPair 2 (2 ^ 64 - 2), some 1, none), (entPair 2 (2 ^ 64 - 2), none, some 1)] ∧
      ¬ExactDiff (rows wrappedLeaf) (rows unwrappedSplit)
        (diff (apartAt 0) (apartAt 1) wrappedLeaf unwrappedSplit)) := by
  refine ⟨⟨by decide +kernel, fun h => absurd h.once (by decide +kernel)⟩, by decide +kernel,
    fun h => absurd h.once (by decide +kernel)⟩

end Grmpl

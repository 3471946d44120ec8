import Grmpl.Ent.KdDiff
import Grmpl.Ent.TreeGraft
import Grmpl.Ent.TreeSearch

/-!
# Well-formed k-d trees

A k-d tree is well formed at an offset when, in the absolute frame, every key of
a split's children lies on the side of its pivot that the split sends it to,
every run moves straight in every column, so that its ends say which side of a
pivot it is on, and every summary places its subtree rightly. The invariant is
about the absolute frame, so it says of a displacement what it must not disturb.

* `PivotKey`: the keys a split may have as pivots.
* `Tree.Straight`, `Tree.Placed`: runs, and what a summary claims.
* `Tree.KdAt`, `Tree.KdSound`: well-formedness.
-/

open Compare OrdMap

namespace Grmpl

/-- The keys a split may use as pivots: moving keeps them pivots, and what lies
below one lies below every greater one. -/
class PivotKey (K : Type) [Displace K] where
  isPivot : K → Prop
  isPivot_displace : ∀ p d, isPivot p → isPivot (displace p d)
  column_mono : ∀ k col p q, isPivot p → isPivot q → p ≤ q →
    cmpColumn k col p 0 = .lt → cmpColumn k col q 0 = .lt

/-- A row's cell compares with a one-column pivot in place as values do. -/
theorem Tuple.cmpColumn_pivot (k : Tuple) (col : Nat) (v : Value) :
    k.cmpColumn col ⟨[v]⟩ 0 = (k.cells[col]?).elim .lt (compare · v) := by
  unfold Tuple.cmpColumn
  cases hx : k.cells[col]? with
  | none => rfl
  | some x =>
    cases x <;> cases v <;> simp [Value.compare_def, Value.cmp, cmpEntity, toUInt64_zero]

/-- One-column rows compare as their cells. -/
theorem Tuple.pivot_le {v w : Value} (h : (⟨[v]⟩ : Tuple) ≤ ⟨[w]⟩) : v ≤ w := by
  by_contra hlt
  refine absurd h (not_le.2 (compare_lt_iff_lt.1 ?_))
  have hcmp : Value.cmp w v = .lt := compare_lt_iff_lt.2 (not_le.1 hlt)
  simp [Tuple.compare_def, lexCmp, hcmp]

/-- A pivot of rows is a one-column row. -/
instance instPivotKeyTuple : PivotKey Tuple where
  isPivot p := ∃ v, p = ⟨[v]⟩
  isPivot_displace := by
    rintro p d ⟨v, rfl⟩
    exact ⟨v.displace d, by simp [displace, Tuple.displace_eq]⟩
  column_mono := by
    rintro k col _ _ ⟨v, rfl⟩ ⟨w, rfl⟩ hle hlt
    have hlt' : k.cmpColumn col ⟨[v]⟩ 0 = .lt := hlt
    show k.cmpColumn col ⟨[w]⟩ 0 = .lt
    rw [Tuple.cmpColumn_pivot] at hlt' ⊢
    cases hx : k.cells[col]? with
    | none => rfl
    | some x =>
        rw [hx] at hlt'
        exact compare_lt_iff_lt.2 ((compare_lt_iff_lt.1 hlt').trans_le (Tuple.pivot_le hle))

namespace Tree

variable {K V M : Type} [Displace K]

/-- The two ends of every item say which side of a pivot all its keys lie on. -/
def Straight [PivotKey K] (items : List (Item K V)) (off : Dsp) : Prop :=
  ∀ it ∈ items, ∀ col pivot, PivotKey.isPivot pivot → ∀ b : Bool,
    isBelow col pivot (displace it.loKey off) = b → isBelow col pivot (displace it.hiKey off) = b →
      ∀ e ∈ (it.displaced off).slots, isBelow col pivot e.1 = b

variable [Measure K V M]

/-- What a summary says of a pivot holds of every key in `l`. -/
def Placed [PivotKey K] (m : M) (off : Dsp) (l : List (K × Option V)) : Prop :=
  ∀ col pivot b, PivotKey.isPivot pivot → summarySide (V := V) m off col pivot = some b →
    ∀ e ∈ l, isBelow col pivot e.1 = b

variable [PivotKey K]

/-- `t`, under a parent frame at `off`, is a well-formed k-d tree: leaves of
well-formed items that keep their order, splits with every key on its side,
summaries of the right size that place what they summarize. -/
def KdAt : Tree K V M → Dsp → Prop
  | nil, _ => False
  | nodeLeaf d s items, off =>
      LeafOk false items ∧ Straight items (off + d) ∧
        Placed s.measure (off + d) (slotsAt (nodeLeaf d s items) off) ∧
          s = leafSummary items ∧ Sorted (slotsAt (nodeLeaf d s items) off)
  | nodeInternal .., _ => False
  | nodeSplit d s col pivot lo hi, off =>
      PivotKey.isPivot pivot ∧ KdAt lo (off + d) ∧ KdAt hi (off + d) ∧
        (∀ e ∈ slotsAt lo (off + d), isBelow col (displace pivot (off + d)) e.1 = true) ∧
        (∀ e ∈ slotsAt hi (off + d), isBelow col (displace pivot (off + d)) e.1 = false) ∧
        Placed s.measure (off + d) (slotsAt (nodeSplit d s col pivot lo hi) off) ∧
          s.size = lo.len + hi.len ∧ s.reserved = lo.reserved + hi.reserved

/-- A k-d tree that is empty, or well formed where it stands. -/
def KdSound (t : Tree K V M) : Prop := t = nil ∨ KdAt t 0

variable {t : Tree K V M} {off : Dsp}

theorem KdAt.isEmpty (ht : KdAt t off) : t.isEmpty = false := by
  cases t <;> first | rfl | exact ht.elim

/-- A well-formed k-d tree holds keys. -/
theorem KdAt.slots_ne_nil (ht : KdAt t off) : slotsAt t off ≠ [] := by
  induction t, off using KdAt.induct with
  | case1 => exact ht.elim
  | case3 => exact ht.elim
  | case2 d s items off =>
    obtain ⟨it, hit⟩ := List.exists_mem_of_ne_nil _ ht.1.ne_nil
    obtain ⟨w, hw⟩ := Item.loKey_mem_slots (ht.1.ok.items_ok it hit)
    rw [slotsAt, Leaf.slots_displaced ht.1.ok.items_ok]
    simpa using List.ne_nil_of_mem (Leaf.mem_slots.2 ⟨it, hit, hw⟩)
  | case4 d s col pivot lo hi off ihlo ihhi =>
    rw [slotsAt]
    exact List.append_ne_nil_of_left_ne_nil (ihlo ht.2.1) _

/-- No key lies twice in a well-formed k-d tree. -/
theorem KdAt.distinct (ht : KdAt t off) : Distinct (slotsAt t off) := by
  induction t, off using KdAt.induct with
  | case1 => exact ht.elim
  | case3 => exact ht.elim
  | case2 d s items off =>
    rw [slotsAt, Leaf.slots_displaced ht.1.ok.items_ok, Distinct, List.map_map]
    have hkeys : ((Leaf.slots items).map Prod.fst).Nodup := ht.1.ok.sorted.distinct
    have hmap := hkeys.map (displace_injective (off + d))
    rwa [List.map_map] at hmap
  | case4 d s col pivot lo hi off ihlo ihhi =>
    obtain ⟨-, hlo, hhi, hbelow, habove, -, -⟩ := ht
    rw [slotsAt, Distinct, List.map_append, List.nodup_append]
    refine ⟨ihlo hlo, ihhi hhi, ?_⟩
    intro k hk l hl heq
    obtain ⟨e, he, rfl⟩ := List.mem_map.1 hk
    obtain ⟨f, hf, rfl⟩ := List.mem_map.1 hl
    have := hbelow e he
    have := habove f hf
    simp_all

/-- The rows of a well-formed k-d tree, as the walk of its nodes finds them. -/
theorem KdAt.collectAll_eq (ht : KdAt t off) :
    collectAll t off = Leaf.rowsOf (slotsAt t off) := by
  induction t, off using KdAt.induct with
  | case1 => exact ht.elim
  | case3 => exact ht.elim
  | case2 d s items off =>
    rw [collectAll, slotsAt, leaf_rows ht.1.ok.items_ok]
  | case4 d s col pivot lo hi off ihlo ihhi =>
    rw [collectAll, slotsAt, Leaf.rowsOf_append, ihlo ht.2.1, ihhi ht.2.2.1]

/-- A lone leaf is well formed in either layout. -/
theorem KdSound.leaf {d : Dsp} {s : Summary M} {items : List (Item K V)}
    (h : KdSound (nodeLeaf d s items)) : Sound false anyKey (nodeLeaf d s items) := by
  rcases h with h | h
  · cases h
  obtain ⟨hok, -, -, hs, hsorted⟩ := h
  rw [slotsAt, Int64.zero_add, Leaf.slots_displaced hok.ok.items_ok, Sorted,
    List.pairwise_map] at hsorted
  refine Or.inr ⟨1, rfl, hok, hs, fun k => ∃ e ∈ Leaf.slots items, e.1 = k, ⟨?_, ?_⟩, ?_⟩
  · exact fun _ _ => trivial
  · rintro a b ⟨e, he, rfl⟩ ⟨f, hf, rfl⟩ hlt
    -- the leaf's order before the move and after it agree on every pair
    have hraw : (Leaf.slots items).Pairwise fun x y => x.1 < y.1 := hok.ok.sorted
    have hmoved : (Leaf.slots items).Pairwise fun x y =>
        x.1 < y.1 → displace x.1 d < displace y.1 d :=
      hsorted.imp fun {x y} (h : displace x.1 d < displace y.1 d) _ => h
    exact hmoved.forall_of_forall_of_flip (fun _ _ h => absurd h (lt_irrefl _))
      (hraw.imp fun h h' => absurd h' h.not_gt) he hf hlt
  · exact fun e he => ⟨e, he, rfl⟩

end Tree

end Grmpl

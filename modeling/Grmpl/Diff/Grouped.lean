import Grmpl.Diff.Fixpoint
import Grmpl.Lib.ZSetChange

/-!
# Groups and what they fold to

An aggregate reads its input as a set: the rows present fall into groups by their key, and
each group folds to one value. So its answer at a group depends on which rows of that group
are present, and on nothing else of the input.

* `membersOf`: the rows present in a group.
* `Folded`: a group's key with what the group folds to.
* `reduce_keys`, `reduce_folds`, `exists_reduce`: when an aggregate has an answer.
* `reduce_isSet`, `reduce_weight`: what it answers.
-/

open OrdMap

namespace Grmpl

variable {m n out : Multiset} {cols : List Nat} {agg : Agg} {k : List Value}

/-- The rows present in a group, in order. -/
def membersOf (m : Multiset) (cols : List Nat) (k : List Value) : List Tuple :=
  ((m.rows.filter fun e => 0 < e.2).map Prod.fst).filter fun t => t.key cols = some k

theorem mem_membersOf {t : Tuple} : t ∈ membersOf m cols k ↔ 0 < m.weight t ∧ t.key cols = some k := by
  simp only [membersOf, List.mem_filter, List.mem_map, decide_eq_true_eq]
  refine and_congr_left fun _ => ⟨?_, fun hw => ?_⟩
  · rintro ⟨e, ⟨he, hpos⟩, rfl⟩
    rwa [ZSet.weight_of_mem he]
  · exact ⟨_, ⟨ZSet.mem_of_weight hw.ne', hw⟩, rfl⟩

theorem sorted_membersOf (m : Multiset) (cols : List Nat) (k : List Value) :
    (membersOf m cols k).Pairwise (· < ·) :=
  List.Pairwise.filter _ (List.pairwise_map.2 (m.sorted.filter _))

/-- A group is its rows' alone. -/
theorem membersOf_congr (h : ∀ t, t.key cols = some k → (0 < m.weight t ↔ 0 < n.weight t)) :
    membersOf m cols k = membersOf n cols k := by
  have hanti : ∀ a b : Tuple, a ∈ membersOf m cols k → b ∈ membersOf n cols k → a < b → b < a → a = b :=
    fun a b _ _ hab hba => absurd hba hab.not_gt
  refine List.Perm.eq_of_pairwise hanti (sorted_membersOf m cols k) (sorted_membersOf n cols k) ?_
  refine (List.perm_ext_iff_of_nodup ?_ ?_).2 fun t => ?_
  · exact (sorted_membersOf m cols k).imp ne_of_lt
  · exact (sorted_membersOf n cols k).imp ne_of_lt
  · rw [mem_membersOf, mem_membersOf]
    exact and_congr_left fun hk => h t hk

/-- Every question is answered by one of the answers. -/
theorem exists_of_mapM {α β : Type} {f : α → Option β} {as : List α} {bs : List β}
    (h : as.mapM f = some bs) {a : α} (ha : a ∈ as) : ∃ b ∈ bs, f a = some b := by
  have hall := mapM_some_iff.1 h
  induction hall with
  | nil => exact absurd ha (by simp)
  | cons hab hrest ih =>
    rcases List.mem_cons.1 ha with rfl | ha
    · exact ⟨_, List.mem_cons_self, hab⟩
    · obtain ⟨b, hb, hf⟩ := ih (mapM_some_iff.2 hrest) ha
      exact ⟨b, List.mem_cons_of_mem _ hb, hf⟩

/-! ## The groups as they are gathered -/

/-- The rows gathered so far under each key, and those still to come under it. -/
theorem lookup_groups (k : List Value) : ∀ (rows : List (List Value × Tuple × Diff))
    (gs : List (Tuple × List Tuple)),
    (lookup ⟨k⟩ (rows.foldl (fun gs r => put ⟨r.1⟩ ((lookup ⟨r.1⟩ gs).getD [] ++ [r.2.1]) gs) gs)).getD [] =
      (lookup ⟨k⟩ gs).getD [] ++ (rows.filter fun r => r.1 = k).map fun r => r.2.1 := by
  intro rows
  induction rows with
  | nil => exact fun gs => (List.append_nil _).symm
  | cons r rows ih =>
    intro gs
    rw [List.foldl_cons, ih, lookup_put]
    by_cases hr : r.1 = k
    · rw [List.filter_cons_of_pos (by simpa using hr), if_pos (by rw [hr]), hr]
      simp
    · rw [List.filter_cons_of_neg (by simpa using hr), if_neg fun h => hr (congrArg Tuple.cells h).symm]

theorem sorted_groups (rows : List (List Value × Tuple × Diff)) : Sorted (groups rows) := by
  have fold : ∀ (rs : List (List Value × Tuple × Diff)) (gs : List (Tuple × List Tuple)), Sorted gs →
      Sorted (rs.foldl (fun gs r => put ⟨r.1⟩ ((lookup ⟨r.1⟩ gs).getD [] ++ [r.2.1]) gs) gs) := by
    intro rs
    induction rs with
    | nil => exact fun _ h => h
    | cons r rs ih => exact fun gs h => ih _ (sorted_put h)
  exact fold rows [] List.Pairwise.nil

/-- A group is gathered under its key if it has a row, and is all its rows. -/
theorem mem_groups_iff {rows : List (List Value × Tuple × Diff)} {g : Tuple × List Tuple} :
    g ∈ groups rows ↔ g.2 ≠ [] ∧ g.2 = (rows.filter fun r => r.1 = g.1.cells).map fun r => r.2.1 := by
  have hlook := lookup_groups g.1.cells rows []
  constructor
  · intro hg
    refine ⟨(mem_groups hg).1, ?_⟩
    have hfound := lookup_of_mem (sorted_groups rows) hg
    rw [groups] at hfound
    rw [hfound] at hlook
    exact hlook
  · rintro ⟨hne, heq⟩
    cases hl : lookup g.1 (groups rows) with
    | none =>
      rw [groups] at hl
      rw [hl] at hlook
      exact absurd (heq.trans hlook.symm) hne
    | some ts =>
      have hmem := mem_of_lookup hl
      rw [groups] at hl
      rw [hl] at hlook
      have hts : ts = g.2 := hlook.trans heq.symm
      rwa [hts] at hmem

/-- The rows gathered under a key are the members of its group. -/
theorem gathered_eq {ks : List (List Value × Tuple × Diff)}
    (hks : keyed cols (m.rows.filter fun e => 0 < e.2) = some ks) (k : List Value) :
    (ks.filter fun r => r.1 = k).map (fun r => r.2.1) = membersOf m cols k := by
  have hall := mapM_some_iff.1 hks
  rw [membersOf]
  clear hks
  generalize m.rows.filter (fun e => 0 < e.2) = rows at hall
  induction hall with
  | nil => rfl
  | @cons e x rows ks hab hrest ih =>
    obtain ⟨kx, hkx, rfl⟩ := Option.map_eq_some_iff.1 hab
    rw [List.map_cons]
    by_cases hk : kx = k
    · rw [List.filter_cons_of_pos (by simpa using hk), List.filter_cons_of_pos (by simp [hkx, hk]),
        List.map_cons, ih]
    · rw [List.filter_cons_of_neg (by simpa using hk), List.filter_cons_of_neg (by simp [hkx, hk]), ih]

/-! ## What an aggregate answers -/

/-- A group's key with what the group folds to. -/
def Folded (m : Multiset) (cols : List Nat) (agg : Agg) (row : Tuple) : Prop :=
  ∃ k v, row = ⟨k ++ [v]⟩ ∧ membersOf m cols k ≠ [] ∧ foldAgg (membersOf m cols k) agg = some v

theorem reduce_eq {out : Multiset} (h : reduceSnapshot m cols agg = some out) :
    ∃ ks rows, keyed cols (m.rows.filter fun e => 0 < e.2) = some ks ∧
      (groups ks).mapM (fun g => (foldAgg g.2 agg).map fun v => ((⟨g.1.cells ++ [v]⟩, 1) : Tuple × Diff)) =
        some rows ∧ out = ZSet.empty.addAll rows := by
  obtain ⟨ks, hks, h⟩ := Option.bind_eq_some_iff.1 h
  obtain ⟨rows, hrows, h⟩ := Option.bind_eq_some_iff.1 h
  exact ⟨ks, rows, hks, hrows, (Option.some.inj h).symm⟩

/-- A group is gathered if it has a member, and is its members. -/
theorem mem_gathered {ks : List (List Value × Tuple × Diff)}
    (hks : keyed cols (m.rows.filter fun e => 0 < e.2) = some ks) {g : Tuple × List Tuple} :
    g ∈ groups ks ↔ g.2 = membersOf m cols g.1.cells ∧ membersOf m cols g.1.cells ≠ [] := by
  rw [mem_groups_iff, gathered_eq hks]
  constructor
  · rintro ⟨hne, heq⟩
    exact ⟨heq, heq ▸ hne⟩
  · rintro ⟨heq, hne⟩
    exact ⟨heq ▸ hne, heq⟩

/-- It folded every group that has a member. -/
theorem reduce_folds (h : reduceSnapshot m cols agg = some out) (hne : membersOf m cols k ≠ []) :
    ∃ v, foldAgg (membersOf m cols k) agg = some v := by
  obtain ⟨ks, rows, hks, hrows, -⟩ := reduce_eq h
  have hg : ((⟨k⟩, membersOf m cols k) : Tuple × List Tuple) ∈ groups ks := (mem_gathered hks).2 ⟨rfl, hne⟩
  obtain ⟨x, -, hx⟩ := exists_of_mapM hrows hg
  obtain ⟨v, hv, -⟩ := Option.map_eq_some_iff.1 hx
  exact ⟨v, hv⟩

/-- And where every key is found and every group folds, there is an answer. -/
theorem exists_reduce (hkey : ∀ t, 0 < m.weight t → ∃ k, t.key cols = some k)
    (hfold : ∀ k, membersOf m cols k ≠ [] → ∃ v, foldAgg (membersOf m cols k) agg = some v) :
    ∃ out, reduceSnapshot m cols agg = some out := by
  obtain ⟨ks, hks⟩ := mapM_isSome (l := m.rows.filter fun e => 0 < e.2)
    (f := fun e => (e.1.key cols).map (·, e)) fun e he => by
      obtain ⟨hmem, hpos⟩ := List.mem_filter.1 he
      obtain ⟨k, hk⟩ := hkey e.1 (by rw [ZSet.weight_of_mem hmem]; simpa using hpos)
      rw [hk]
      rfl
  obtain ⟨rows, hrows⟩ := mapM_isSome (l := groups ks)
    (f := fun g => (foldAgg g.2 agg).map fun v => ((⟨g.1.cells ++ [v]⟩, 1) : Tuple × Diff)) fun g hg => by
      obtain ⟨heq, hne⟩ := (mem_gathered hks).1 hg
      obtain ⟨v, hv⟩ := hfold _ hne
      rw [heq, hv]
      rfl
  exact ⟨_, by rw [reduceSnapshot, keyed, hks]; exact congrArg (· >>= _) hrows⟩

/-- The rows an aggregate answers: each group's key with what the group folds to, once. -/
theorem reduce_rows (h : reduceSnapshot m cols agg = some out) : ∃ rows : Rows,
    out = ZSet.empty.addAll rows ∧ (rows.Pairwise fun a b => a.1 ≠ b.1) ∧ (∀ e ∈ rows, e.2 = 1) ∧
      ∀ row, (row, 1) ∈ rows ↔ Folded m cols agg row := by
  obtain ⟨ks, rows, hks, hrows, rfl⟩ := reduce_eq h
  have hall := mapM_some_iff.1 hrows
  have hfrom : ∀ e ∈ rows, ∃ g ∈ groups ks, ∃ v, foldAgg g.2 agg = some v ∧ e = (⟨g.1.cells ++ [v]⟩, 1) := by
    intro e he
    obtain ⟨g, hg, hfg⟩ := mem_of_mapM hrows he
    obtain ⟨v, hv, heq⟩ := Option.map_eq_some_iff.1 hfg
    exact ⟨g, hg, v, hv, heq.symm⟩
  refine ⟨rows, rfl, ?_, fun e he => ?_, fun row => ⟨fun hrow => ?_, ?_⟩⟩
  · -- the groups have different keys
    have hsorted := sorted_groups ks
    clear hks hrows hfrom h
    generalize groups ks = gs at hall hsorted
    induction hall with
    | nil => exact .nil
    | @cons g e gs es hab hrest ih =>
      obtain ⟨hg, hgs⟩ := List.pairwise_cons.1 hsorted
      refine List.pairwise_cons.2 ⟨fun e' he' => ?_, ih hgs⟩
      obtain ⟨v, -, rfl⟩ := Option.map_eq_some_iff.1 hab
      obtain ⟨g', hg', hfg'⟩ := mem_of_mapM (mapM_some_iff.2 hrest) he'
      obtain ⟨v', -, rfl⟩ := Option.map_eq_some_iff.1 hfg'
      intro heq
      have hcells : g.1.cells = g'.1.cells :=
        (List.append_inj' (congrArg Tuple.cells heq) rfl).1
      exact (hg g' hg').ne (congrArg Tuple.mk hcells)
  · obtain ⟨g, -, v, -, rfl⟩ := hfrom e he
    rfl
  · obtain ⟨g, hg, v, hv, heq⟩ := hfrom _ hrow
    obtain ⟨hmem, hne⟩ := (mem_gathered hks).1 hg
    exact ⟨g.1.cells, v, (Prod.mk.inj heq).1, hne, hmem ▸ hv⟩
  · rintro ⟨k, v, rfl, hne, hv⟩
    have hg : ((⟨k⟩, membersOf m cols k) : Tuple × List Tuple) ∈ groups ks := (mem_gathered hks).2 ⟨rfl, hne⟩
    obtain ⟨x, hx, hfx⟩ := exists_of_mapM hrows hg
    obtain ⟨v', hv', rfl⟩ := Option.map_eq_some_iff.1 hfx
    obtain rfl : v' = v := Option.some.inj (hv'.symm.trans hv)
    exact hx

/-- An aggregate answers a set. -/
theorem reduce_isSet (h : reduceSnapshot m cols agg = some out) : IsSet out := by
  obtain ⟨rows, rfl, hnd, hone, -⟩ := reduce_rows h
  intro e he
  rcases ZSet.mem_addAll he with ⟨x, hx, -⟩ | ⟨x, hx, hxe⟩
  · exact absurd hx (by simp [ZSet.empty])
  · rw [← ZSet.weight_of_mem he, ← ZSet.den_apply, ZSet.den_addAll, ZSet.den_empty, zero_add, ← hxe,
      ZSet.total_apply_of_mem hnd hx, hone x hx]

/-- **It answers what the groups fold to**, and nothing else. -/
theorem reduce_weight (h : reduceSnapshot m cols agg = some out) (row : Tuple) :
    0 < out.weight row ↔ Folded m cols agg row := by
  obtain ⟨rows, rfl, hnd, hone, hiff⟩ := reduce_rows h
  rw [← hiff, ← ZSet.den_apply, ZSet.den_addAll, ZSet.den_empty, zero_add]
  constructor
  · intro hpos
    by_contra hnot
    refine hpos.ne' (ZSet.total_apply_of_absent fun e he heq => hnot ?_)
    rw [← heq, ← hone e he]
    exact he
  · intro hmem
    rw [ZSet.total_apply_of_mem hnd hmem]
    exact one_pos

/-- Two aggregates answer alike where what folds is alike. -/
theorem reduce_weight_congr {out' : Multiset} (h : reduceSnapshot m cols agg = some out)
    (h' : reduceSnapshot n cols agg = some out') {row : Tuple}
    (hrow : Folded m cols agg row ↔ Folded n cols agg row) : out.weight row = out'.weight row := by
  have hiff := (reduce_weight h row).trans (hrow.trans (reduce_weight h' row).symm)
  rcases (reduce_isSet h).weight row with hw | hw <;> rcases (reduce_isSet h').weight row with hw' | hw' <;>
    rw [hw, hw'] at hiff <;> simp_all

end Grmpl

import Grmpl.Ent.Lineage

/-!
# Common ancestors

The merge base of two versions is sought on one lineage, in the order it was walked, among
the branches of the other. A walk goes down first parents to the root before it looks at what
was merged in, and the root is on every lineage: so what is found is always on the line of
first parents, though what both share may come later on a branch that a merge brought in.

* `Dag.commonAncestor`: the version found.
* `Dag.firstParents`: a branch's line of first parents; `lineage_starts`: the walk starts with it.
* `common_ancestor_greatest`: when what is found is the latest version shared.
* `merge_base_missed`: a merge after which it is not.
-/

open OrdMap Worklist

namespace Grmpl

namespace Dag

/-- The first branch of one lineage that is on the other as well, at the lesser edition. -/
def commonAncestor (g : Dag) (a b : BranchId × Nat) : Option (BranchId × Nat) :=
  -- a lineage lists a branch once, so it is the map from its branches to their editions
  (g.lineage b.1 b.2).findSome? fun x => (lookup x.1 (g.lineage a.1 a.2)).map fun e => (x.1, min e x.2)

/-- A version before both of two, and no other version after it is. -/
def GreatestCommon (g : Dag) (a b : BranchId × Nat) (r : Option (BranchId × Nat)) : Prop :=
  ∃ p, r = some p ∧ g.isAncestor p a = true ∧ g.isAncestor p b = true ∧
    ∀ q, g.isAncestor q a = true → g.isAncestor q b = true → g.isAncestor p q = true → q = p

/-- A branch and its first parents, so many of them. -/
def parentLine (g : Dag) : Nat → BranchId → List BranchId
  | 0, _ => []
  | fuel + 1, b =>
      b :: match g.parent b with
        | some p => g.parentLine fuel p.1
        | none => []

/-- The line of first parents, from a branch to the root. -/
def firstParents (g : Dag) (b : BranchId) : List BranchId := g.parentLine g.next b

/-- The edition up to which two versions share a branch. -/
def shared (g : Dag) (a b : BranchId × Nat) (c : BranchId) : Option Nat :=
  match lookup c (g.lineage a.1 a.2), lookup c (g.lineage b.1 b.2) with
  | some i, some j => some (min i j)
  | _, _ => none

/-- What is shared off the line of first parents comes after nothing shared on it, but for
what a nearer branch of the line comes after. -/
def FirstParentsSuffice (g : Dag) (a b : BranchId × Nat) : Prop :=
  ∀ c i d j, c ∈ g.firstParents b.1 → d ∉ g.firstParents b.1 → g.shared a b c = some i → g.shared a b d = some j →
    g.isAncestor (c, i) (d, j) = true → ∃ c' ∈ g.firstParents b.1, c < c' ∧ (g.shared a b c').isSome

variable {g : Dag} {a b : BranchId × Nat} {c : BranchId}

/-! ## The order of a walk -/

theorem foldl_grows {f : BranchId × Nat → List BranchId × List (BranchId × Nat) → List BranchId × List (BranchId × Nat)}
    (hf : ∀ y acc, acc.1 <+: (f y acc).1) (ys : List (BranchId × Nat)) (acc : List BranchId × List (BranchId × Nat)) :
    acc.1 <+: (ys.foldl (fun acc y => f y acc) acc).1 := by
  induction ys generalizing acc with
  | nil => exact List.prefix_rfl
  | cons y ys ih => exact (hf y acc).trans (ih _)

/-- A walk adds to the nodes met at their end. -/
theorem order_grows (fuel : Nat) (x : BranchId × Nat) (acc : List BranchId × List (BranchId × Nat)) :
    acc.1 <+: (visit g.onward fuel x acc).1 := by
  induction fuel generalizing x acc with
  | zero => exact List.prefix_rfl
  | succ fuel ih =>
    rw [visit]
    split_ifs
    · exact List.prefix_rfl
    · have hmeet : acc.1 <+: (meet x acc).1 := by
        unfold meet
        split_ifs
        · exact List.prefix_rfl
        · exact List.prefix_append _ _
      exact hmeet.trans (foldl_grows ih _ _)

theorem parentLine_le (hg : g.Rooted) : ∀ (fuel : Nat) (b : BranchId), ∀ c ∈ g.parentLine fuel b, c ≤ b := by
  intro fuel
  induction fuel with
  | zero => exact fun b c hc => nomatch hc
  | succ fuel ih =>
    intro b c hc
    rw [parentLine, List.mem_cons] at hc
    rcases hc with rfl | hc
    · exact le_rfl
    · split at hc
      · rename_i p hp
        obtain ⟨br, hbr, hp⟩ := Option.bind_eq_some_iff.1 hp
        exact (ih _ _ hc).trans (hg.parent hbr hp).1.le
      · cases hc

theorem parentLine_descends (hg : g.Rooted) : ∀ (fuel : Nat) (b : BranchId),
    (g.parentLine fuel b).Pairwise (· > ·) := by
  intro fuel
  induction fuel with
  | zero => exact fun b => .nil
  | succ fuel ih =>
    intro b
    rw [parentLine, List.pairwise_cons]
    split
    · rename_i p hp
      obtain ⟨br, hbr, hp⟩ := Option.bind_eq_some_iff.1 hp
      exact ⟨fun c hc => (parentLine_le hg _ _ c hc).trans_lt (hg.parent hbr hp).1, ih p.1⟩
    · exact ⟨nofun, .nil⟩

/-- The line of first parents ends at the root. -/
theorem root_mem_parentLine (hg : g.Rooted) : ∀ (fuel : Nat) (b : BranchId), b < fuel → (g.get b).isSome →
    root ∈ g.parentLine fuel b := by
  intro fuel
  induction fuel with
  | zero => exact fun b hb => absurd hb (Nat.not_lt_zero _)
  | succ fuel ih =>
    intro b hb hknown
    obtain ⟨br, hbr⟩ := Option.isSome_iff_exists.1 hknown
    rw [parentLine, List.mem_cons]
    cases hp : g.parent b with
    | none =>
      rw [Dag.parent, hbr] at hp
      exact .inl (hg.orphan hbr hp).symm
    | some p =>
      rw [Dag.parent, hbr] at hp
      obtain ⟨hlt, hk⟩ := hg.parent hbr hp
      exact .inr (ih p.1 (hlt.trans_le (Nat.lt_succ_iff.1 hb)) hk)

/-- **A walk goes down the line of first parents first**, where none of them was met. -/
theorem visit_parentLine (hg : g.Rooted) : ∀ (fuel : Nat) (x : BranchId × Nat)
    (acc : List BranchId × List (BranchId × Nat)), (∀ c ≤ x.1, lookup c acc.2 = none) →
    acc.1 ++ g.parentLine fuel x.1 <+: (visit g.onward fuel x acc).1 := by
  intro fuel
  induction fuel with
  | zero => exact fun x acc _ => by simp [parentLine, visit]
  | succ fuel ih =>
    intro x acc hunmet
    have hnone := hunmet x.1 le_rfl
    have huncovered : covers acc.2 x = false := by rw [covers, hnone]; rfl
    have hmeet : meet x acc = (acc.1 ++ [x.1], put x.1 x.2 acc.2) := by rw [meet, hnone]; rfl
    rw [visit, huncovered, hmeet, parentLine]
    show _ <+: ((g.onward x).foldl (fun acc y => visit g.onward fuel y acc) (acc.1 ++ [x.1], put x.1 x.2 acc.2)).1
    have hfold := foldl_grows (order_grows (g := g) fuel)
    cases hp : g.parent x.1 with
    | none => exact hfold (g.onward x) (acc.1 ++ [x.1], put x.1 x.2 acc.2)
    | some p =>
      obtain ⟨br, hbr, hp⟩ := Option.bind_eq_some_iff.1 hp
      have hlt := (hg.parent hbr hp).1
      obtain ⟨ys, hys⟩ : ∃ ys, g.onward x = p :: ys := by
        unfold onward
        rw [hbr]
        dsimp only
        rw [hp]
        exact ⟨_, rfl⟩
      rw [hys, List.foldl_cons]
      refine List.IsPrefix.trans ?_ (hfold ys _)
      have hline := ih p (acc.1 ++ [x.1], put x.1 x.2 acc.2) fun c hc => by
        rw [lookup_put_ne (hc.trans_lt hlt).ne]
        exact hunmet c (hc.trans hlt.le)
      rwa [List.append_assoc] at hline

theorem lineage_starts (hg : g.Rooted) (b : BranchId) (e : Nat) :
    g.firstParents b <+: (g.lineage b e).map Prod.fst := by
  have hwalk := visit_parentLine hg g.next (b, e) ([], []) fun _ _ => rfl
  rw [lineage, walkBack_eq_visit, List.map_map]
  simpa [firstParents, Function.comp_def] using hwalk

/-! ## What two versions share -/

theorem lookup_lineage (hg : g.Rooted) {b c e i : Nat} : lookup c (g.lineage b e) = some i ↔ (c, i) ∈ g.lineage b e := by
  refine ⟨mem_of_lookup, fun h => ?_⟩
  cases hl : lookup c (g.lineage b e) with
  | none =>
    rw [lookup, Option.map_eq_none_iff, List.find?_eq_none] at hl
    exact absurd (decide_eq_true rfl) (hl _ h)
  | some j => rw [lineage_unique hg h (mem_of_lookup hl)]

theorem shared_eq_some (hg : g.Rooted) {i : Nat} : g.shared a b c = some i ↔
    ∃ x y, (c, x) ∈ g.lineage a.1 a.2 ∧ (c, y) ∈ g.lineage b.1 b.2 ∧ min x y = i := by
  simp only [← lookup_lineage hg]
  unfold shared
  constructor
  · intro h
    split at h
    · rename_i x y hx hy
      exact ⟨x, y, hx, hy, Option.some.inj h⟩
    · cases h
  · rintro ⟨x, y, hx, hy, rfl⟩
    rw [hx, hy]

/-- A version before both is at most at the edition both share its branch up to. -/
theorem common_iff (hg : g.Rooted) {q : BranchId × Nat} :
    (g.isAncestor q a = true ∧ g.isAncestor q b = true) ↔ ∃ i, g.shared a b q.1 = some i ∧ q.2 ≤ i := by
  have hlisted : ∀ {r : BranchId × Nat}, g.isAncestor q r = true ↔ ∃ e, (q.1, e) ∈ g.lineage r.1 r.2 ∧ q.2 ≤ e := by
    intro r
    rw [isAncestor_iff hg]
    constructor
    · rintro ⟨e, he, hle⟩
      obtain ⟨e', hmem, hle'⟩ := (lineage_spec hg r.1 r.2).2.2 _ he
      exact ⟨e', hmem, hle.trans hle'⟩
    · rintro ⟨e, hmem, hle⟩
      exact ⟨e, (lineage_spec hg r.1 r.2).2.1 _ hmem, hle⟩
  rw [hlisted, hlisted]
  constructor
  · rintro ⟨⟨x, hx, hxle⟩, y, hy, hyle⟩
    exact ⟨min x y, (shared_eq_some hg).2 ⟨x, y, hx, hy, rfl⟩, le_min hxle hyle⟩
  · rintro ⟨i, hi, hle⟩
    obtain ⟨x, y, hx, hy, rfl⟩ := (shared_eq_some hg).1 hi
    exact ⟨⟨x, hx, hle.trans (min_le_left _ _)⟩, y, hy, hle.trans (min_le_right _ _)⟩

theorem root_listed (hg : g.Rooted) (ha : (g.get a.1).isSome) : ∃ e, (root, e) ∈ g.lineage a.1 a.2 := by
  obtain ⟨br, hbr⟩ := Option.isSome_iff_exists.1 ha
  have hroot := (lineage_starts hg a.1 a.2).subset (root_mem_parentLine hg g.next a.1 (hg.below hbr) ha)
  obtain ⟨x, hx, hxr⟩ := List.mem_map.1 hroot
  exact ⟨x.2, by rw [← hxr]; exact hx⟩

/-- **What is found** is the nearest branch on the line of first parents that is shared, at
the edition it is shared up to. -/
theorem commonAncestor_spec (hg : g.Rooted) (ha : (g.get a.1).isSome) (hb : (g.get b.1).isSome) :
    ∃ c i, g.commonAncestor a b = some (c, i) ∧ c ∈ g.firstParents b.1 ∧ g.shared a b c = some i ∧
      ∀ c' ∈ g.firstParents b.1, (g.shared a b c').isSome → c' ≤ c := by
  set f : BranchId × Nat → Option (BranchId × Nat) := fun x =>
    (lookup x.1 (g.lineage a.1 a.2)).map fun e => (x.1, min e x.2) with hf
  have hfound : ∀ x ∈ g.lineage b.1 b.2, f x = (g.shared a b x.1).map fun i => (x.1, i) := by
    intro x hx
    have hlook := (lookup_lineage hg).2 (show (x.1, x.2) ∈ g.lineage b.1 b.2 from hx)
    rw [hf]
    dsimp only
    rw [shared, hlook]
    cases lookup x.1 (g.lineage a.1 a.2) <;> rfl
  obtain ⟨more, hmore⟩ := lineage_starts hg b.1 b.2
  obtain ⟨near, far, hline, hnear, -⟩ := List.map_eq_append_iff.1 hmore.symm
  have hmem : ∀ x ∈ near, x ∈ g.lineage b.1 b.2 := fun x hx => hline ▸ List.mem_append_left _ hx
  -- the root is on the line and shared
  obtain ⟨brb, hbrb⟩ := Option.isSome_iff_exists.1 hb
  have hroot : root ∈ near.map Prod.fst := hnear ▸ root_mem_parentLine hg g.next b.1 (hg.below hbrb) hb
  obtain ⟨r, hr, hrroot⟩ := List.mem_map.1 hroot
  obtain ⟨e, he⟩ := root_listed hg ha
  have hsome : (near.findSome? f).isSome := by
    refine List.findSome?_isSome_iff.2 ⟨r, hr, ?_⟩
    rw [hf]
    dsimp only
    rw [hrroot, (lookup_lineage hg).2 he]
    rfl
  obtain ⟨p, hp⟩ := Option.isSome_iff_exists.1 hsome
  obtain ⟨before, x, after, hsplit, hx, hnone⟩ := List.findSome?_eq_some_iff.1 hp
  have hxmem : x ∈ near := by simp [hsplit]
  rw [hfound x (hmem x hxmem)] at hx
  obtain ⟨i, hi, rfl⟩ := Option.map_eq_some_iff.1 hx
  refine ⟨x.1, i, ?_, hnear ▸ List.mem_map_of_mem hxmem, hi, fun c' hc' hshared => ?_⟩
  · rw [commonAncestor, hline, List.findSome?_append]
    show (near.findSome? f).or _ = _
    rw [hp]
    rfl
  · have hdesc : (near.map Prod.fst).Pairwise (· > ·) := hnear ▸ parentLine_descends hg g.next b.1
    rw [← hnear] at hc'
    obtain ⟨y, hy, rfl⟩ := List.mem_map.1 hc'
    have hynear := hy
    rw [hsplit, List.mem_append, List.mem_cons] at hy
    rcases hy with hy | rfl | hy
    · have := hnone y hy
      rw [hfound y (hmem y hynear), Option.map_eq_none_iff] at this
      rw [this] at hshared
      cases hshared
    · exact le_rfl
    · rw [hsplit, List.map_append, List.map_cons] at hdesc
      have hafter := (List.pairwise_append.1 hdesc).2.1
      exact ((List.pairwise_cons.1 hafter).1 y.1 (List.mem_map_of_mem hy)).le

/-- What is found is the greatest common ancestor just if the line of first parents suffices. -/
theorem greatestCommon_iff (hg : g.Rooted) (ha : (g.get a.1).isSome) (hb : (g.get b.1).isSome) :
    g.GreatestCommon a b (g.commonAncestor a b) ↔ g.FirstParentsSuffice a b := by
  obtain ⟨c₀, i₀, hfound, hon, hshared, hnearest⟩ := commonAncestor_spec hg ha hb
  constructor
  · rintro ⟨p, hp, -, -, hgreatest⟩ c i d j hc hd hi hj hanc
    obtain rfl : (c₀, i₀) = p := Option.some.inj (hfound.symm.trans hp)
    by_contra hnone
    -- the branch found is this one
    have hle := hnearest c hc (hi ▸ rfl)
    obtain rfl : c = c₀ := by
      by_contra hne
      exact hnone ⟨c₀, hon, lt_of_le_of_ne hle hne, hshared ▸ rfl⟩
    obtain rfl : i₀ = i := Option.some.inj (hshared.symm.trans hi)
    obtain ⟨hqa, hqb⟩ := (common_iff hg (a := a) (b := b) (q := (d, j))).2 ⟨j, hj, le_rfl⟩
    obtain ⟨rfl, -⟩ := Prod.ext_iff.1 (hgreatest (d, j) hqa hqb hanc)
    exact hd hc
  · intro hsuffice
    obtain ⟨hpa, hpb⟩ := (common_iff hg (a := a) (b := b) (q := (c₀, i₀))).2 ⟨i₀, hshared, le_rfl⟩
    refine ⟨_, hfound, hpa, hpb, fun q hqa hqb hanc => ?_⟩
    obtain ⟨d, k⟩ := q
    obtain ⟨j, hj, hle⟩ := (common_iff hg).1 ⟨hqa, hqb⟩
    dsimp only at hj hle
    obtain ⟨e, hback, hie⟩ := (isAncestor_iff hg).1 hanc
    by_cases hd : d ∈ g.firstParents b.1
    · have hdle := hnearest d hd (hj ▸ rfl)
      rcases hback.branch_le hg with hlt | heq
      · exact absurd (hlt.trans_le hdle) (lt_irrefl _)
      · obtain ⟨rfl, rfl⟩ := Prod.ext_iff.1 heq
        dsimp only at hj hie ⊢
        rw [hshared] at hj
        rw [Option.some.inj hj] at hie ⊢
        exact Prod.ext rfl (le_antisymm hle hie)
    · -- a shared branch off the line comes after what is found
      have hlater : g.isAncestor (c₀, i₀) (d, j) = true :=
        isAncestor_trans hg hanc ((isAncestor_iff hg).2 ⟨j, .refl, hle⟩)
      obtain ⟨c', hc', hlt, hs⟩ := hsuffice c₀ i₀ d j hon hd hshared hj hlater
      exact absurd (hnearest c' hc' hs) (not_le.2 hlt)

/-- Where nothing was ever merged, every branch there is a way back to is on the line. -/
theorem mem_firstParents_of_flows (hg : g.Rooted) (hplain : ∀ c br, g.get c = some br → br.merged = none) :
    ∀ (fuel : Nat) {b e : Nat} {y : BranchId × Nat}, g.rank b < fuel → g.Flows (b, e) y → y.1 ∈ g.parentLine fuel b := by
  intro fuel
  induction fuel with
  | zero => exact fun h => absurd h (Nat.not_lt_zero _)
  | succ fuel ih =>
    intro b e y hrank h
    rw [parentLine, List.mem_cons]
    rcases Relation.ReflTransGen.cases_head h with rfl | ⟨z, hz, h⟩
    · exact .inl rfl
    · have hless := onward_rank hg (b, e) z (mem_onward.2 hz)
      cases hz with
      | @fork _ _ br p hbr hp =>
        have hparent : g.parent b = some z := by rw [Dag.parent, hbr]; exact hp
        rw [hparent]
        exact .inr (ih (by dsimp only at hless; omega) h)
      | merge hbr hm _ =>
        rw [hplain _ _ hbr] at hm
        cases hm

/-- Without merges the line of first parents suffices. -/
theorem firstParentsSuffice_of_plain (hg : g.Rooted) (hplain : ∀ c br, g.get c = some br → br.merged = none)
    (a b : BranchId × Nat) : g.FirstParentsSuffice a b := by
  intro c i d j _ hd _ hj _
  obtain ⟨x, y, -, hy, -⟩ := (shared_eq_some hg).1 hj
  have hflows := (lineage_spec hg b.1 b.2).2.1 _ hy
  exact absurd (mem_firstParents_of_flows hg hplain g.next (rank_lt hg b.1) hflows) hd

end Dag

/-- **The merge base.** What is found for two versions of a graph of forks and merges, and
what is found for them the other way round, are greatest common ancestors of the two if and
only if whatever the two share off either one's line of first parents comes after nothing
shared on the line, but for what a nearer branch of the line comes after as well. -/
theorem common_ancestor_greatest {g : Dag} (hg : g.Forked) {a b : BranchId × Nat} (ha : (g.get a.1).isSome)
    (hb : (g.get b.1).isSome) :
    (g.GreatestCommon a b (g.commonAncestor a b) ∧ g.GreatestCommon a b (g.commonAncestor b a)) ↔
      g.FirstParentsSuffice a b ∧ g.FirstParentsSuffice b a := by
  have hr := hg.rooted
  have hswap : ∀ r, g.GreatestCommon a b r ↔ g.GreatestCommon b a r := by
    refine fun r => exists_congr fun p => ?_
    constructor
    · rintro ⟨hp, hpa, hpb, hgreatest⟩
      exact ⟨hp, hpb, hpa, fun q hqb hqa => hgreatest q hqa hqb⟩
    · rintro ⟨hp, hpb, hpa, hgreatest⟩
      exact ⟨hp, hpa, hpb, fun q hqa hqb => hgreatest q hqb hqa⟩
  rw [hswap (g.commonAncestor b a), Dag.greatestCommon_iff hr ha hb, Dag.greatestCommon_iff hr hb ha]

/-- Forks alone: the first fork and its own fork share the first fork, as far as both go. -/
def Dag.twoForks : Dag := ((Dag.new.fork 0 5).1.fork 1 3).1

theorem twoForks_greatest : Dag.twoForks.commonAncestor (1, 2) (2, 9) = some (1, 2) ∧
    (Dag.twoForks.GreatestCommon (1, 2) (2, 9) (Dag.twoForks.commonAncestor (1, 2) (2, 9)) ∧
      Dag.twoForks.GreatestCommon (1, 2) (2, 9) (Dag.twoForks.commonAncestor (2, 9) (1, 2))) := by
  have hg : Dag.twoForks.Forked := .fork 3 (.fork 5 .new rfl) rfl
  have hplain : ∀ c br, Dag.twoForks.get c = some br → br.merged = none := by
    intro c br h
    have hall : ∀ x ∈ Dag.twoForks.branches, x.2.merged = none := by decide
    exact hall _ (mem_of_lookup h)
  have hsuffice := Dag.firstParentsSuffice_of_plain hg.rooted hplain
  exact ⟨by decide, (common_ancestor_greatest hg rfl rfl).2 ⟨hsuffice _ _, hsuffice _ _⟩⟩

/-- A fork of the root at 5, and the root's edition 5 with the fork's history merged in. -/
def Dag.mergedFork : Dag := ((Dag.new.fork 0 5).1.merge 0 5 1 7 9).1

/-- The fork's version 7 is in the merge's history, and yet an older version is found. -/
theorem merge_base_missed : Dag.mergedFork.Forked ∧ Dag.mergedFork.commonAncestor (1, 7) (2, 10) = some (0, 5) ∧
    Dag.mergedFork.isAncestor (1, 7) (2, 10) = true ∧ Dag.mergedFork.isAncestor (0, 5) (1, 7) = true ∧
    ¬ Dag.mergedFork.GreatestCommon (1, 7) (2, 10) (Dag.mergedFork.commonAncestor (1, 7) (2, 10)) := by
  have hfound : Dag.mergedFork.commonAncestor (1, 7) (2, 10) = some (0, 5) := by decide
  refine ⟨.merge 5 7 9 (.fork 5 .new rfl) rfl rfl, hfound, by decide, by decide, ?_⟩
  rintro ⟨p, hp, -, -, hgreatest⟩
  rw [hfound] at hp
  obtain rfl := Option.some.inj hp
  exact absurd (hgreatest (1, 7) (by decide) (by decide) (by decide)) (by decide)

end Grmpl

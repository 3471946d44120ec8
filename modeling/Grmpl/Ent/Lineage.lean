import Grmpl.Ent.History
import Grmpl.Lib.Worklist

/-!
# Lineages

A version flows into what was forked from it, and into what a merge replayed it into once the
replay has ended. Walking back from a version a branch can be met many times, at editions in
any order; its lineage keeps the greatest.

* `Dag.Forked`: the graphs that forks and merges build.
* `Dag.Edge`, `Dag.Flows`: one step back from a version, and any number of them.
* `Dag.isAncestor`: whether a version lies on another's lineage.
* `lineage_greatest`: a lineage lists each branch once, at the greatest edition there is a way
  back to, and ancestry orders the versions.
-/

open OrdMap Worklist

namespace Grmpl

namespace Dag

/-- The graphs built by forks and merges of branches that are there. -/
inductive Forked : Dag → Prop
  | new : Forked new
  | fork {g : Dag} {parent : BranchId} (at' : Nat) : Forked g → (g.get parent).isSome →
      Forked (g.fork parent at').1
  | merge {g : Dag} {parent other : BranchId} (at' otherAt since : Nat) : Forked g → (g.get parent).isSome →
      (g.get other).isSome → Forked (g.merge parent at' other otherAt since).1

/-- One step back from a version: to where its branch was forked, from any edition, and to
what was merged into it, from where the replay ended on. -/
inductive Edge (g : Dag) : BranchId × Nat → BranchId × Nat → Prop
  | fork {b e : Nat} {br : Branch} {p : BranchId × Nat} : g.get b = some br → br.parent = some p → Edge g (b, e) p
  | merge {b e : Nat} {br : Branch} {m at' since : Nat} : g.get b = some br → br.merged = some (m, at', since) →
      since ≤ e → Edge g (b, e) (m, at')

/-- A version is on the history that flows into another, some steps back from it. -/
def Flows (g : Dag) : BranchId × Nat → BranchId × Nat → Prop := Relation.ReflTransGen g.Edge

/-- What is pushed for a version: its first parent on top, so that it is walked first. -/
def onward (g : Dag) (x : BranchId × Nat) : List (BranchId × Nat) :=
  match g.get x.1 with
  | none => []
  | some br =>
      br.parent.toList ++ match br.merged with
        | some (m, at', since) => if since ≤ x.2 then [(m, at')] else []
        | none => []

/-- The branches a walk met in order, each with its greatest edition. -/
def listed (w : Walk BranchId Nat) : List (BranchId × Nat) := w.order.map fun b => (b, (lookup b w.best).getD 0)

/-- Whether a version lies on the history that flows into another. -/
def isAncestor (g : Dag) (p q : BranchId × Nat) : Bool :=
  match (g.lineage q.1 q.2).find? fun x => x.1 = p.1 with
  | some x => p.2 ≤ x.2
  | none => false

/-! ## Graphs -/

variable {g : Dag}

/-- Branches are numbered after those they come from, and only the root comes from none. -/
structure Rooted (g : Dag) : Prop where
  root : (g.get root).isSome
  below : ∀ {b br}, g.get b = some br → b < g.next
  parent : ∀ {b br p}, g.get b = some br → br.parent = some p → p.1 < b ∧ (g.get p.1).isSome
  merged : ∀ {b br m}, g.get b = some br → br.merged = some m → m.1 < b ∧ (g.get m.1).isSome
  orphan : ∀ {b br}, g.get b = some br → br.parent = none → b = Dag.root

theorem rooted_new : Rooted new := by
  have hget : ∀ {b br}, new.get b = some br → b = root ∧ br = ⟨none, none⟩ := by
    intro b br h
    have hmem := mem_of_lookup h
    simpa [new] using hmem
  refine ⟨rfl, fun h => ?_, fun h hp => ?_, fun h hm => ?_, fun h _ => (hget h).1⟩
  · rw [(hget h).1]
    exact Nat.zero_lt_one
  · rw [(hget h).2] at hp
    cases hp
  · rw [(hget h).2] at hm
    cases hm

/-- A branch added under the next number. -/
theorem Rooted.add (hg : g.Rooted) {br : Branch} (hparent : ∃ p, br.parent = some p ∧ (g.get p.1).isSome)
    (hmerged : ∀ m, br.merged = some m → (g.get m.1).isSome) : Rooted ⟨put g.next br g.branches, g.next + 1⟩ := by
  set g' : Dag := ⟨put g.next br g.branches, g.next + 1⟩ with hg'
  have hget : ∀ b, g'.get b = if b = g.next then some br else g.get b := fun b => lookup_put g.next b br g.branches
  have hknown : ∀ {b}, (g.get b).isSome → b < g.next ∧ (g'.get b).isSome := by
    intro b hb
    obtain ⟨br', hbr'⟩ := Option.isSome_iff_exists.1 hb
    have hlt := hg.below hbr'
    rw [hget, if_neg hlt.ne]
    exact ⟨hlt, hb⟩
  have hcases : ∀ {b br'}, g'.get b = some br' → b = g.next ∧ br' = br ∨ g.get b = some br' := by
    intro b br' h
    rw [hget] at h
    split_ifs at h with hb
    · exact .inl ⟨hb, (Option.some.inj h).symm⟩
    · exact .inr h
  refine ⟨(hknown hg.root).2, fun h => ?_, fun h hp => ?_, fun h hm => ?_, fun h hp => ?_⟩
  · rcases hcases h with ⟨rfl, -⟩ | h
    · exact Nat.lt_succ_self _
    · exact (hg.below h).trans (Nat.lt_succ_self _)
  · rcases hcases h with ⟨rfl, rfl⟩ | h
    · obtain ⟨p, hp', hk⟩ := hparent
      rw [hp'] at hp
      rw [← Option.some.inj hp]
      exact hknown hk
    · exact ⟨(hg.parent h hp).1, (hknown (hg.parent h hp).2).2⟩
  · rcases hcases h with ⟨rfl, rfl⟩ | h
    · exact hknown (hmerged _ hm)
    · exact ⟨(hg.merged h hm).1, (hknown (hg.merged h hm).2).2⟩
  · rcases hcases h with ⟨-, rfl⟩ | h
    · obtain ⟨p, hp', -⟩ := hparent
      rw [hp'] at hp
      cases hp
    · exact hg.orphan h hp

theorem Forked.rooted (h : g.Forked) : g.Rooted := by
  induction h with
  | new => exact rooted_new
  | fork at' _ hp ih => exact ih.add ⟨_, rfl, hp⟩ nofun
  | merge at' otherAt since _ hp ho ih =>
    refine ih.add ⟨_, rfl, hp⟩ fun m hm => ?_
    rw [← Option.some.inj hm]
    exact ho

/-! ## Steps back -/

theorem mem_onward {x y : BranchId × Nat} : y ∈ g.onward x ↔ g.Edge x y := by
  obtain ⟨b, e⟩ := x
  unfold onward
  constructor
  · intro h
    split at h
    · cases h
    · rename_i br hbr
      rcases List.mem_append.1 h with h | h
      · exact .fork hbr (Option.mem_toList.1 h)
      · split at h
        · rename_i m at' since hm
          split_ifs at h with hle
          · rw [List.mem_singleton.1 h]
            exact .merge hbr hm hle
          · cases h
        · cases h
  · rintro (⟨hbr, hp⟩ | ⟨hbr, hm, hle⟩)
    · rw [hbr]
      exact List.mem_append_left _ (Option.mem_toList.2 hp)
    · rw [hbr]
      refine List.mem_append_right _ ?_
      rw [hm]
      simp [hle]

theorem reaches_onward : Reaches g.onward = g.Flows := by
  unfold Reaches Flows
  congr
  funext x y
  exact propext mem_onward

/-- Later editions of a branch have come from no less. -/
theorem Edge.later {b e e' : Nat} {y : BranchId × Nat} (h : g.Edge (b, e) y) (hle : e ≤ e') : g.Edge (b, e') y := by
  cases h with
  | fork hbr hp => exact .fork hbr hp
  | merge hbr hm hs => exact .merge hbr hm (hs.trans hle)

theorem Edge.lt {x y : BranchId × Nat} (hg : g.Rooted) (h : g.Edge x y) : y.1 < x.1 ∧ (g.get y.1).isSome := by
  cases h with
  | fork hbr hp => exact hg.parent hbr hp
  | merge hbr hm _ => exact hg.merged hbr hm

/-- A way back starts from a later edition as well, unless it stays where it is. -/
theorem Flows.later {b e e' : Nat} {y : BranchId × Nat} (h : g.Flows (b, e) y) (hle : e ≤ e') :
    y = (b, e) ∨ g.Flows (b, e') y := by
  rcases Relation.ReflTransGen.cases_head h with rfl | ⟨z, hz, h⟩
  · exact .inl rfl
  · exact .inr (.head (hz.later hle) h)

theorem Flows.branch_le {x y : BranchId × Nat} (hg : g.Rooted) (h : g.Flows x y) : y.1 < x.1 ∨ y = x := by
  induction h with
  | refl => exact .inr rfl
  | tail _ hyz ih =>
    have hlt := (hyz.lt hg).1
    rcases ih with hlt' | rfl
    · exact .inl (hlt.trans hlt')
    · exact .inl hlt

/-! ## The walk -/

/-- The recursion of the walk is the one the stack works off. -/
theorem walkBack_eq_visit (fuel : Nat) (x : BranchId × Nat) (acc : List BranchId × List (BranchId × Nat)) :
    g.walkBack fuel x acc = visit g.onward fuel x acc := by
  induction fuel generalizing x acc with
  | zero => rfl
  | succ fuel ih =>
    obtain ⟨b, e⟩ := x
    obtain ⟨order, best⟩ := acc
    rw [walkBack, visit]
    refine if_congr Iff.rfl rfl ?_
    cases hget : g.get b with
    | none =>
      have hnone : g.onward (b, e) = [] := by rw [onward, hget]
      rw [hnone]
      rfl
    | some br =>
      obtain ⟨parent, merged⟩ := br
      have hsome : g.onward (b, e) = parent.toList ++ (merged.toList.filter (·.2.2 ≤ e)).map
          fun m => (m.1, m.2.1) := by
        rcases merged with _ | ⟨m, at', since⟩
        · simp [onward, hget]
        · by_cases hs : since ≤ e <;> simp [onward, hget, hs]
      have hmeet : ((if (lookup b best).isSome then order else order ++ [b], put b e best) :
          List BranchId × List (BranchId × Nat)) = meet (b, e) (order, best) := rfl
      rw [hsome, List.foldl_append]
      dsimp only
      rw [hmeet]
      generalize meet (b, e) (order, best) = acc
      rcases parent with _ | p <;> rcases merged with _ | ⟨m, at', since⟩
      · rfl
      · by_cases hs : since ≤ e <;> simp [hs, ih]
      · exact ih p acc
      · by_cases hs : since ≤ e <;> simp [hs, ih]

/-- A known branch is ranked by its number, any other before them all. -/
def rank (g : Dag) (b : BranchId) : Nat := if (g.get b).isSome then b else 0

theorem Edge.known {x y : BranchId × Nat} (h : g.Edge x y) : (g.get x.1).isSome := by
  cases h with
  | fork hbr _ | merge hbr _ _ => exact hbr ▸ rfl

theorem onward_rank (hg : g.Rooted) (x : BranchId × Nat) : ∀ y ∈ g.onward x, g.rank y.1 < g.rank x.1 := by
  intro y hy
  have hedge := mem_onward.1 hy
  obtain ⟨hlt, hknown⟩ := hedge.lt hg
  rw [rank, rank, if_pos hknown, if_pos hedge.known]
  exact hlt

theorem rank_lt (hg : g.Rooted) (b : BranchId) : g.rank b < g.next := by
  unfold rank
  split_ifs with hb
  · obtain ⟨br, hbr⟩ := Option.isSome_iff_exists.1 hb
    exact hg.below hbr
  · obtain ⟨br, hbr⟩ := Option.isSome_iff_exists.1 hg.root
    exact (Nat.zero_le _).trans_lt (hg.below hbr)

/-- **The walk ends**, with the lineage. -/
theorem walk_ends (hg : g.Rooted) (b : BranchId) (e : Nat) : ∃ n w,
    (pop g.onward)^[n] ⟨[(b, e)], [], []⟩ = w ∧ w.stack = [] ∧ listed w = g.lineage b e := by
  obtain ⟨n, hn⟩ := pops_visit (onward_rank hg) g.next (b, e) (rank_lt hg b) [] ([], [])
  refine ⟨n, _, hn, rfl, ?_⟩
  rw [lineage, walkBack_eq_visit]
  rfl

/-- **What a lineage lists**: each branch there is a way back to, at the greatest edition. -/
theorem lineage_spec (hg : g.Rooted) (b : BranchId) (e : Nat) : ((g.lineage b e).map Prod.fst).Nodup ∧
    (∀ y ∈ g.lineage b e, g.Flows (b, e) y) ∧
    ∀ y, g.Flows (b, e) y → ∃ e', (y.1, e') ∈ g.lineage b e ∧ y.2 ≤ e' := by
  obtain ⟨n, w, hw, hend, hlisted⟩ := walk_ends hg b e
  have hwalk : Walking g.onward (b, e) w := hw ▸ (walking_start (b, e)).pops n
  have hlisting : ∀ y, y ∈ g.lineage b e ↔ lookup y.1 w.best = some y.2 := by
    intro y
    rw [← hlisted, listed, List.mem_map]
    constructor
    · rintro ⟨c, hc, rfl⟩
      obtain ⟨e', he'⟩ := Option.isSome_iff_exists.1 ((hwalk.met c).1 hc)
      simp [he']
    · intro hy
      exact ⟨y.1, (hwalk.met y.1).2 (hy ▸ rfl), by rw [hy]; rfl⟩
  refine ⟨?_, fun y hy => ?_, fun y hy => ?_⟩
  · rw [← hlisted, listed, List.map_map]
    exact (List.map_id w.order).symm ▸ hwalk.nodup
  · rw [← reaches_onward]
    exact hwalk.sound y (.inr ((hlisting y).1 hy))
  · have hmono : ∀ b e e', e ≤ e' → g.onward (b, e) ⊆ g.onward (b, e') := fun b e e' hle z hz =>
      mem_onward.2 ((mem_onward.1 hz).later hle)
    rw [← reaches_onward] at hy
    obtain ⟨e', he', hle⟩ := covers_iff.1 (hwalk.covers_of_reaches hmono hend hy)
    exact ⟨e', (hlisting (y.1, e')).2 he', hle⟩

/-- A branch is listed once, with one edition. -/
theorem lineage_unique (hg : g.Rooted) {b e c i j : Nat} (hi : (c, i) ∈ g.lineage b e) (hj : (c, j) ∈ g.lineage b e) :
    i = j :=
  congrArg Prod.snd (List.inj_on_of_nodup_map (lineage_spec hg b e).1 hi hj rfl)

theorem mem_lineage (hg : g.Rooted) {b e : Nat} {y : BranchId × Nat} :
    y ∈ g.lineage b e ↔ g.Flows (b, e) y ∧ ∀ e', g.Flows (b, e) (y.1, e') → e' ≤ y.2 := by
  obtain ⟨-, hsound, hall⟩ := lineage_spec hg b e
  constructor
  · refine fun hy => ⟨hsound y hy, fun e' he' => ?_⟩
    obtain ⟨e'', hmem, hle⟩ := hall _ he'
    rwa [lineage_unique hg hmem hy] at hle
  · rintro ⟨hy, hgreatest⟩
    obtain ⟨e', hmem, hle⟩ := hall y hy
    rwa [le_antisymm (hgreatest e' (hsound _ hmem)) hle] at hmem

/-! ## Ancestry -/

/-- Ancestry is a way back to the version's branch, at its edition or later. -/
theorem isAncestor_iff (hg : g.Rooted) {p q : BranchId × Nat} :
    g.isAncestor p q = true ↔ ∃ e, g.Flows q (p.1, e) ∧ p.2 ≤ e := by
  obtain ⟨-, hsound, hall⟩ := lineage_spec hg q.1 q.2
  unfold isAncestor
  cases hfind : (g.lineage q.1 q.2).find? fun x => x.1 = p.1 with
  | none =>
    refine iff_of_false (by simp) ?_
    rintro ⟨e, he, -⟩
    obtain ⟨e', hmem, -⟩ := hall _ he
    exact List.find?_eq_none.1 hfind _ hmem (by simp)
  | some x =>
    obtain ⟨c, i⟩ := x
    obtain rfl : c = p.1 := by simpa using List.find?_some hfind
    have hmem := List.mem_of_find?_eq_some hfind
    show decide (p.2 ≤ i) = true ↔ _
    rw [decide_eq_true_iff]
    refine ⟨fun hle => ⟨i, hsound _ hmem, hle⟩, ?_⟩
    rintro ⟨e, he, hle⟩
    exact hle.trans (((mem_lineage hg).1 hmem).2 e he)

theorem isAncestor_refl (hg : g.Rooted) (p : BranchId × Nat) : g.isAncestor p p = true :=
  (isAncestor_iff hg).2 ⟨p.2, .refl, le_rfl⟩

theorem isAncestor_trans (hg : g.Rooted) {p q r : BranchId × Nat} (hpq : g.isAncestor p q = true)
    (hqr : g.isAncestor q r = true) : g.isAncestor p r = true := by
  obtain ⟨i, hi, hle⟩ := (isAncestor_iff hg).1 hpq
  obtain ⟨j, hj, hle'⟩ := (isAncestor_iff hg).1 hqr
  rcases hi.later hle' with heq | hi
  · -- the way back from `q` stays at `q`
    obtain ⟨hb, rfl⟩ := Prod.ext_iff.1 heq
    dsimp only at hb
    exact (isAncestor_iff hg).2 ⟨j, hb ▸ hj, hle.trans hle'⟩
  · exact (isAncestor_iff hg).2 ⟨i, hj.trans hi, hle⟩

theorem isAncestor_antisymm (hg : g.Rooted) {p q : BranchId × Nat} (hpq : g.isAncestor p q = true)
    (hqp : g.isAncestor q p = true) : p = q := by
  obtain ⟨i, hi, hle⟩ := (isAncestor_iff hg).1 hpq
  obtain ⟨j, hj, hle'⟩ := (isAncestor_iff hg).1 hqp
  rcases hi.branch_le hg with hlt | hi
  · rcases hj.branch_le hg with hlt' | hj
    · exact absurd (hlt.trans hlt') (lt_irrefl _)
    · exact absurd hlt (by rw [← (Prod.ext_iff.1 hj).1]; exact lt_irrefl _)
  · rcases hj.branch_le hg with hlt' | hj
    · exact absurd hlt' (by rw [← (Prod.ext_iff.1 hi).1]; exact lt_irrefl _)
    · obtain ⟨hb, rfl⟩ := Prod.ext_iff.1 hi
      obtain ⟨-, rfl⟩ := Prod.ext_iff.1 hj
      exact Prod.ext hb (le_antisymm hle hle')

end Dag

/-- **Lineages.** In every graph of forks and merges the walk back from a version ends, and
lists each branch there is a way back to, once and at the greatest edition there is a way
back to; and ancestry, defined from it, is a partial order of the versions. -/
theorem lineage_greatest {g : Dag} (hg : g.Forked) :
    (∀ b e, (∃ n w, (pop g.onward)^[n] ⟨[(b, e)], [], []⟩ = w ∧ w.stack = [] ∧ Dag.listed w = g.lineage b e) ∧
      ((g.lineage b e).map Prod.fst).Nodup ∧
      (∀ y, y ∈ g.lineage b e ↔ g.Flows (b, e) y ∧ ∀ e', g.Flows (b, e) (y.1, e') → e' ≤ y.2) ∧
      ∀ y, g.Flows (b, e) y → ∃ e', (y.1, e') ∈ g.lineage b e) ∧
    (∀ p, g.isAncestor p p = true) ∧
    (∀ p q r, g.isAncestor p q = true → g.isAncestor q r = true → g.isAncestor p r = true) ∧
    ∀ p q, g.isAncestor p q = true → g.isAncestor q p = true → p = q := by
  have hr := hg.rooted
  refine ⟨fun b e => ⟨Dag.walk_ends hr b e, (Dag.lineage_spec hr b e).1, fun y => Dag.mem_lineage hr, fun y hy => ?_⟩,
    Dag.isAncestor_refl hr, fun _ _ _ => Dag.isAncestor_trans hr, fun _ _ => Dag.isAncestor_antisymm hr⟩
  obtain ⟨e', hmem, -⟩ := (Dag.lineage_spec hr b e).2.2 y hy
  exact ⟨e', hmem⟩

/-- Two forks of the root, a fork of the first, and a merge of the two, of which the second
is in from edition 10 on. -/
def Dag.fixture : Dag := ((((Dag.new.fork 0 5).1.fork 0 8).1.fork 1 3).1.merge 1 7 2 9 10).1

theorem Dag.forked_fixture : Dag.fixture.Forked :=
  .merge 7 9 10 (.fork 3 (.fork 8 (.fork 5 .new rfl) rfl) rfl) rfl rfl

/-- The root flows in at the later of its two forks, and a branch is its own ancestor. -/
theorem fixture_lineage : Dag.fixture.lineage 4 10 = [(4, 10), (1, 7), (0, 8), (2, 9)] ∧
    ((Dag.fixture.lineage 4 10).map Prod.fst).Nodup ∧ Dag.fixture.isAncestor (4, 10) (4, 10) = true :=
  ⟨by decide, ((lineage_greatest Dag.forked_fixture).1 4 10).2.1, (lineage_greatest Dag.forked_fixture).2.1 (4, 10)⟩

end Grmpl

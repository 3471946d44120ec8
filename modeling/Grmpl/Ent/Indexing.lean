import Grmpl.Ent.History
import Grmpl.Ent.StoreHistory

/-!
# How far the index has got

Bringing the index up to date adds a holder for every version between where a branch was
indexed through before and where it is now, and none for anything else.

* `mem_toIndex_iff`: the versions a catch-up goes through.
* `indexEditions_reaches`: whole editions, in order, up to the cursor it leaves.
* `History.Reindexed`, `reindexed_catchUp`: what a catch-up leaves of the whole index.
-/

open OrdMap Contents

namespace Grmpl

namespace History

variable {F N : Type}

/-- The versions of a branch past an edition are those it has since, relation by relation. -/
theorem mem_toIndex_iff {i : Inner F} (hs : Sorted i.rels) {start : Nat} {v : Nat × RelId × F} :
    v ∈ toIndex i start ↔
      (start < v.1 ∧ v.1 ≤ i.current) ∧ (v.1, v.2.2) ∈ (i.rootsOr v.2.1).versions := by
  unfold toIndex
  rw [List.mem_insertionSort, List.mem_flatMap]
  constructor
  · rintro ⟨r, hr, hv⟩
    obtain ⟨x, hx, rfl⟩ := List.mem_map.1 hv
    obtain ⟨hx, hbetween⟩ := List.mem_filter.1 hx
    simp only [decide_eq_true_eq] at hbetween
    refine ⟨⟨hbetween.1, Nat.lt_succ_iff.1 hbetween.2⟩, ?_⟩
    rw [Inner.rootsOr, Inner.roots, lookup_of_mem hs hr]
    exact hx
  · rintro ⟨⟨hstart, hcur⟩, hv⟩
    rw [Inner.rootsOr, Inner.roots] at hv
    cases hr : lookup v.2.1 i.rels with
    | none =>
      rw [hr] at hv
      exact absurd hv List.not_mem_nil
    | some r =>
      rw [hr] at hv
      refine ⟨_, mem_of_lookup hr, List.mem_map.2 ⟨_, List.mem_filter.2 ⟨hv, ?_⟩, rfl⟩⟩
      exact decide_eq_true ⟨hstart, Nat.lt_succ_of_le hcur⟩

/-- The editions a catch-up goes through, in order and each once. -/
theorem toIndex_editions (i : Inner F) (start : Nat) :
    ((toIndex i start).map Prod.fst).dedup.Pairwise (· < ·) := by
  let r := fun a b : Nat × RelId × F => a.1 < b.1 ∨ (a.1 = b.1 ∧ a.2.1 ≤ b.2.1)
  have : Std.Total r := ⟨fun a b => by
    rcases lt_trichotomy a.1 b.1 with h | h | h
    · exact .inl (.inl h)
    · exact (le_total a.2.1 b.2.1).imp (fun hab => .inr ⟨h, hab⟩) fun hba => .inr ⟨h.symm, hba⟩
    · exact .inr (.inl h)⟩
  have : IsTrans _ r := ⟨fun a b c hab hbc => by
    rcases hab with hab | ⟨hab, hab'⟩ <;> rcases hbc with hbc | ⟨hbc, hbc'⟩
    · exact .inl (hab.trans hbc)
    · exact .inl (hab.trans_eq hbc)
    · exact .inl (hab.trans_lt hbc)
    · exact .inr ⟨hab.trans hbc, hab'.trans hbc'⟩⟩
  have hsorted : (toIndex i start).Pairwise r := List.pairwise_insertionSort r _
  have hle : ((toIndex i start).map Prod.fst).Pairwise (· ≤ ·) :=
    List.pairwise_map.2 (hsorted.imp fun hab => hab.elim le_of_lt fun heq => heq.1.le)
  exact ((hle.sublist (List.dedup_sublist _)).and (List.nodup_dedup _)).imp fun h =>
    lt_of_le_of_ne h.1 h.2

variable [Parts N Dsp] [DecidableEq N]

/-- A visit leaves the holders and the cursors. -/
theorem visit_frame (lineage : List (BranchId × Nat)) (b : BranchId) (e : Nat) :
    ∀ (fuel : Nat) (n : N) (h : History N), (visit lineage b e fuel n h).holders = h.holders ∧
      (visit lineage b e fuel n h).cursor = h.cursor := by
  intro fuel
  induction fuel with
  | zero => exact fun _ _ => ⟨rfl, rfl⟩
  | succ fuel ih =>
    intro n h
    unfold visit
    split_ifs
    · exact ⟨rfl, rfl⟩
    · have hloop : ∀ (ps : List (N × Dsp)) (h : History N),
          (ps.foldl (fun h p => visit lineage b e fuel p.1 (h.addParent p.1 n p.2)) h).holders =
            h.holders ∧
          (ps.foldl (fun h p => visit lineage b e fuel p.1 (h.addParent p.1 n p.2)) h).cursor =
            h.cursor := by
        intro ps
        induction ps with
        | nil => exact fun _ => ⟨rfl, rfl⟩
        | cons p ps ihps =>
          intro h
          obtain ⟨h1, h2⟩ := ih p.1 (h.addParent p.1 n p.2)
          obtain ⟨h3, h4⟩ := ihps (visit lineage b e fuel p.1 (h.addParent p.1 n p.2))
          exact ⟨h3.trans h1, h4.trans h2⟩
      exact hloop (parts n) (h.bear n b e)

variable [ContentTree F N]

theorem indexVersion_cursor (g : Dag) (at' : Holder) (t : F) (h : History N) :
    (h.indexVersion g at' t).cursor = h.cursor := by
  unfold indexVersion
  split
  · rfl
  · exact (visit_frame _ _ _ _ _ _).2

/-- Indexing a version adds its root's holder. -/
theorem mem_indexVersion {g : Dag} {at' : Holder} {t : F} {h : History N} {x : N × Holder} :
    x ∈ (h.indexVersion g at' t).holders ↔
      x ∈ h.holders ∨ (ContentTree.root t = some x.1 ∧ x.2 = at') := by
  unfold indexVersion
  split
  · rename_i hnone
    simp [hnone]
  · rename_i r hr
    rw [(visit_frame _ _ _ _ _ _).1, List.mem_insert_iff, hr, Option.some.injEq, or_comm]
    refine or_congr_right ⟨?_, ?_⟩
    · rintro rfl
      exact ⟨rfl, rfl⟩
    · rintro ⟨rfl, rfl⟩
      rfl

/-- A holder of one of some versions of a branch. -/
def Lists (b : BranchId) (versions : List (Nat × RelId × F)) (x : N × Holder) : Prop :=
  ∃ v ∈ versions, ContentTree.root v.2.2 = some x.1 ∧ x.2 = ⟨b, v.2.1, v.1⟩

/-- Indexing versions in turn adds their holders. -/
theorem mem_indexAll (g : Dag) (b : BranchId) {x : N × Holder} :
    ∀ (now : List (Nat × RelId × F)) (h : History N),
      x ∈ (now.foldl (fun h v => h.indexVersion g ⟨b, v.2.1, v.1⟩ v.2.2) h).holders ↔
        x ∈ h.holders ∨ Lists b now x := by
  intro now
  induction now with
  | nil => simp [Lists]
  | cons v now ih =>
    intro h
    rw [List.foldl_cons, ih, mem_indexVersion, or_assoc, Lists, Lists, List.exists_mem_cons_iff]

theorem indexAll_cursor (g : Dag) (b : BranchId) : ∀ (now : List (Nat × RelId × F)) (h : History N),
    (now.foldl (fun h v => h.indexVersion g ⟨b, v.2.1, v.1⟩ v.2.2) h).cursor = h.cursor := by
  intro now
  induction now with
  | nil => exact fun _ => rfl
  | cons v now ih => exact fun h => (ih _).trans (indexVersion_cursor _ _ _ _)

/-- **Whole editions are indexed in order**: from where a branch was indexed through, up
to the cursor it is left at. -/
theorem indexEditions_reaches (g : Dag) (b : BranchId) (budget : Option Nat) {current : Nat}
    (versions : List (Nat × RelId × F)) :
    ∀ (es : List Nat) (through : Nat) (h : History N) (done : Nat), es.Pairwise (· < ·) →
      (∀ e ∈ es, through < e ∧ e ≤ current) → through ≤ current →
      let h' := (indexEditions g b budget current versions es through h done).1
      ∃ e, through ≤ e ∧ e ≤ current ∧ h'.cursor = put b e h.cursor ∧
        (∀ x ∈ h.holders, x ∈ h'.holders) ∧ (∀ x ∈ h'.holders, x ∈ h.holders ∨ Lists b versions x) ∧
        ∀ v ∈ versions, v.1 ∈ es → v.1 ≤ e → ∀ n, ContentTree.root v.2.2 = some n →
          (n, ⟨b, v.2.1, v.1⟩) ∈ h'.holders := by
  intro es
  induction es with
  | nil =>
    intro through h done _ _ hth
    exact ⟨current, hth, le_rfl, rfl, fun _ hx => hx, fun _ hx => .inl hx,
      fun _ _ hv => absurd hv List.not_mem_nil⟩
  | cons e es ih =>
    intro through h done hord hes hth
    obtain ⟨hfirst, hord⟩ := List.pairwise_cons.1 hord
    obtain ⟨hlt, hle⟩ := hes e List.mem_cons_self
    unfold indexEditions
    split_ifs
    · refine ⟨through, le_rfl, hth, rfl, fun _ hx => hx, fun _ hx => .inl hx, fun v _ hv hve => ?_⟩
      have := (hes v.1 hv).1
      omega
    · dsimp only
      set now := versions.filter fun v => v.1 = e with hnow
      obtain ⟨e', hee, hecur, hcur, hkept, hfresh, hall⟩ := ih e
        (now.foldl (fun h v => h.indexVersion g ⟨b, v.2.1, v.1⟩ v.2.2) h) (done + now.length) hord
        (fun d hd => ⟨hfirst d hd, (hes d (List.mem_cons_of_mem e hd)).2⟩) hle
      refine ⟨e', hlt.le.trans hee, hecur, ?_,
        fun x hx => hkept x ((mem_indexAll g b now h).2 (.inl hx)), ?_, ?_⟩
      · rw [hcur, indexAll_cursor]
      · intro x hx
        rcases hfresh x hx with hx | hx
        · refine ((mem_indexAll g b now h).1 hx).imp_right ?_
          rintro ⟨v, hv, hx⟩
          exact ⟨v, (List.mem_filter.1 hv).1, hx⟩
        · exact .inr hx
      · intro v hv hves hve n hn
        rcases List.mem_cons.1 hves with rfl | hves
        · exact hkept _ ((mem_indexAll g b now h).2 (.inr ⟨v, List.mem_filter.2 ⟨hv, by simp⟩, hn, rfl⟩))
        · exact hall v hv hves hve n hn

/-- A holder of a version its branch has. -/
def Names (states : BranchId → Option (Inner F)) (x : N × Holder) : Prop :=
  ∃ i, states x.2.branch = some i ∧ x.2.edition ≤ i.current ∧
    ∃ t, (x.2.edition, t) ∈ (i.rootsOr x.2.rel).versions ∧ ContentTree.root t = some x.1

/-- What bringing the index up to date leaves: what it held, and a holder for each version
between where a branch was indexed through and where it is. -/
structure Reindexed (g : Dag) (states : BranchId → Option (Inner F)) (h h' : History N) : Prop where
  kept : ∀ x ∈ h.holders, x ∈ h'.holders
  fresh : ∀ x ∈ h'.holders, x ∈ h.holders ∨ (h.startOf g x.2.branch < x.2.edition ∧ Names states x)
  start : ∀ b, h.startOf g b ≤ h'.startOf g b
  reached : ∀ b i, states b = some i → h'.startOf g b ≤ max (h.startOf g b) i.current
  others : ∀ b, states b = none → lookup b h'.cursor = lookup b h.cursor
  found : ∀ x : N × Holder, Names states x → h.startOf g x.2.branch < x.2.edition →
    x.2.edition ≤ h'.startOf g x.2.branch → x ∈ h'.holders

variable {g : Dag} {states : BranchId → Option (Inner F)}

omit [DecidableEq N] in
theorem Reindexed.refl (h : History N) : Reindexed g states h h where
  kept _ hx := hx
  fresh _ hx := .inl hx
  start _ := le_rfl
  reached _ _ _ := le_max_left _ _
  others _ _ := rfl
  found _ _ hlt hle := absurd hlt (not_lt.2 hle)

omit [DecidableEq N] in
theorem Reindexed.trans {h h' h'' : History N} (h₁ : Reindexed g states h h')
    (h₂ : Reindexed g states h' h'') : Reindexed g states h h'' where
  kept x hx := h₂.kept x (h₁.kept x hx)
  fresh x hx := by
    rcases h₂.fresh x hx with hx | ⟨hstart, hx⟩
    · exact h₁.fresh x hx
    · exact .inr ⟨(h₁.start _).trans_lt hstart, hx⟩
  start b := (h₁.start b).trans (h₂.start b)
  reached b i hi := by
    have h1 := h₁.reached b i hi
    have h2 := h₂.reached b i hi
    omega
  others b hb := (h₂.others b hb).trans (h₁.others b hb)
  found x hx hlt hle := by
    rcases le_or_gt x.2.edition (h'.startOf g x.2.branch) with hmid | hmid
    · exact h₂.kept x (h₁.found x hx hlt hmid)
    · exact h₂.found x hx hmid hle

theorem reindexed_catchUpBranch (budget : Option Nat) {b : BranchId} {i : Inner F}
    (hi : states b = some i) (hs : Sorted i.rels) (h : History N) (done : Nat) :
    Reindexed g states h (catchUpBranch g budget b i h done).1 := by
  unfold catchUpBranch
  dsimp only
  split_ifs with hcur
  · exact .refl h
  · obtain ⟨e, he, hecur, hc, hkept, hfresh, hall⟩ := indexEditions_reaches g b budget
      (toIndex i (h.startOf g b)) _ (h.startOf g b) h done (toIndex_editions i _) (fun e he => by
        obtain ⟨v, hv, rfl⟩ := List.mem_map.1 (List.mem_dedup.1 he)
        exact mem_toIndex hv) (not_le.1 hcur).le
    have hstart := fun b' => startOf_put hc g b'
    refine ⟨hkept, fun x hx => (hfresh x hx).imp_right ?_, fun b' => ?_, fun b' i' hi' => ?_, fun b' hb' => ?_,
      fun x hx hlt hle => ?_⟩
    · obtain ⟨n, y⟩ := x
      rintro ⟨v, hv, hroot, rfl⟩
      obtain ⟨⟨hlt, hle⟩, hver⟩ := (mem_toIndex_iff hs).1 hv
      exact ⟨hlt, i, hi, hle, v.2.2, hver, hroot⟩
    · rw [hstart]
      split_ifs with hb
      · exact hb ▸ he
      · exact le_rfl
    · rw [hstart]
      split_ifs with hb
      · subst hb
        cases hi.symm.trans hi'
        exact le_max_of_le_right hecur
      · exact le_max_left _ _
    · rw [hc, lookup_put_ne]
      rintro rfl
      rw [hi] at hb'
      cases hb'
    · rw [hstart] at hle
      split_ifs at hle with hb
      · obtain ⟨i', hi', hxcur, t, ht, hroot⟩ := hx
        obtain ⟨n, b', rel, d⟩ := x
        dsimp only at *
        subst hb
        cases hi.symm.trans hi'
        have hv : (d, rel, t) ∈ toIndex i (h.startOf g b') := (mem_toIndex_iff hs).2 ⟨⟨hlt, hxcur⟩, ht⟩
        exact hall _ hv (List.mem_dedup.2 (List.mem_map.2 ⟨_, hv, rfl⟩)) hle n hroot
      · exact absurd hlt (not_lt.2 hle)

theorem reindexed_catchUpAll {budget : Option Nat} (hs : ∀ b i, states b = some i → Sorted i.rels) :
    ∀ (bs : List BranchId) (h : History N) (done : Nat),
      Reindexed g states h (catchUpAll g budget states bs h done) := by
  intro bs
  induction bs with
  | nil => exact fun h _ => .refl h
  | cons b bs ih =>
    intro h done
    unfold catchUpAll
    cases hb : states b with
    | none => exact ih h done
    | some i =>
      have h1 := reindexed_catchUpBranch (g := g) budget hb (hs b i hb) h done
      dsimp only
      split
      · rename_i h' done' heq
        rw [heq] at h1
        exact h1.trans (ih h' done')
      · rename_i h' done' heq
        rw [heq] at h1
        exact h1

/-- **Bringing the index up to date** holds every version between the cursors it finds
and those it leaves, and nothing else. -/
theorem reindexed_catchUp (hs : ∀ b i, states b = some i → Sorted i.rels) (budget : Option Nat)
    (h : History N) : Reindexed g states h (h.catchUp g states budget) :=
  reindexed_catchUpAll hs _ h 0

end History

end Grmpl

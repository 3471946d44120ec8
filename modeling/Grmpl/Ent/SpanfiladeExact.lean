import Grmpl.Ent.Spanfilade
import Grmpl.Ent.TreeVersions
import Mathlib.Data.List.Perm.Basic

/-!
# The copy index is the list of copies

The index is two trees searched by hull; a reader is promised a filter of the grafts made.
The invariant says what the trees denote: each holds one leg a graft, and nothing else.

* `Hull` as a lawful measure, so that a search that prunes by it misses nothing.
* `GraftSpan.Even`, `GraftSpan.Listed`: what is promised of the grafts recorded.
* `Spanfilade.Indexes`: the invariant.
* `Indexes.copiesOf`, `Indexes.sourcesOf`, `Indexes.asOf`, `Indexes.origin`: what the index answers.
-/

open OrdMap Fuelled

namespace Grmpl

/-! ## Hulls -/

namespace Hull

theorem toNat_min (a b : UInt64) : (min a b).toNat = min a.toNat b.toNat := by
  show (if a ≤ b then a else b).toNat = _
  split_ifs with h
  · exact (Nat.min_eq_left (UInt64.le_iff_toNat_le.1 h)).symm
  · exact (Nat.min_eq_right (UInt64.le_iff_toNat_le.1 (UInt64.le_of_lt (UInt64.not_le.1 h)))).symm

theorem toNat_max (a b : UInt64) : (max a b).toNat = max a.toNat b.toNat := by
  show (if a ≤ b then b else a).toNat = _
  split_ifs with h
  · exact (Nat.max_eq_right (UInt64.le_iff_toNat_le.1 h)).symm
  · exact (Nat.max_eq_left (UInt64.le_iff_toNat_le.1 (UInt64.le_of_lt (UInt64.not_le.1 h)))).symm

theorem join_assoc : ∀ a b c : Option (UInt64 × UInt64), join (join a b) c = join a (join b c)
  | none, _, _ => rfl
  | some _, none, _ => rfl
  | some _, some _, none => rfl
  | some _, some _, some _ => by
      refine congrArg some (Prod.ext (UInt64.toNat_inj.1 ?_) (UInt64.toNat_inj.1 ?_))
      · simp only [toNat_min, min_assoc]
      · simp only [toNat_max, max_assoc]

theorem join_none (a : Option (UInt64 × UInt64)) : join a none = a := by cases a <;> rfl

instance instLawful : LawfulMeasure LegKey Leg Hull where
  combine_assoc a b c := congrArg Hull.mk (join_assoc a.ends b.ends c.ends)
  empty_combine _ := rfl
  combine_empty a := congrArg Hull.mk (join_none a.ends)
  displace_zero _ := rfl
  displace_empty _ := rfl
  displace_combine _ _ _ := rfl
  displace_entry _ _ _ := rfl
  run_eq _ _ _ _ h := h.elim
  hole_eq _ _ _ := rfl

/-- A hull meets what a part of it meets. -/
theorem meets_join {a b : Hull} {lo hi : UInt64} (h : a.meets lo hi ∨ b.meets lo hi) :
    (⟨join a.ends b.ends⟩ : Hull).meets lo hi := by
  obtain ⟨a⟩ := a
  obtain ⟨b⟩ := b
  match a, b with
  | none, b => simpa [meets, join] using h
  | some a, none => simpa [meets, join] using h
  | some (a₀, a₁), some (b₀, b₁) =>
    simp only [meets, join, Bool.and_eq_true, decide_eq_true_eq, UInt64.lt_iff_toNat_lt, toNat_min, toNat_max,
      min_lt_iff, lt_max_iff] at h ⊢
    tauto

theorem meets_ofEntries {l : List (LegKey × Leg)} {e : LegKey × Leg} {lo hi : UInt64} (he : e ∈ l)
    (hmeets : (entry e.1 e.2).meets lo hi) : (Measure.ofEntries Hull l).meets lo hi := by
  induction l with
  | nil => exact absurd he (by simp)
  | cons x l ih =>
    rw [← List.singleton_append, Measure.ofEntries_append, Measure.ofEntries_singleton]
    refine meets_join ?_
    rcases List.mem_cons.1 he with rfl | he
    · exact .inl hmeets
    · exact .inr (ih he)

end Hull

/-! ## The grafts recorded -/

namespace GraftSpan

/-- What a graft the store makes is: from one block to another of its width, at an edition past
the first. -/
structure Even (g : GraftSpan) : Prop where
  source : g.source.1 < g.source.2
  target : g.target.1 < g.target.2
  width : g.target.2 - g.target.1 = g.source.2 - g.source.1
  edition : 0 < g.edition

/-- Whether one side of a graft overlaps `[lo, hi)`. -/
def meets (block : UInt64 × UInt64) (lo hi : UInt64) : Bool := block.1 < hi && lo < block.2

/-- A block overlaps a span that is not empty where they have an entity in common. -/
theorem meets_iff {block : UInt64 × UInt64} {lo hi : UInt64} (hblock : block.1 < block.2) (hlt : lo < hi) :
    meets block lo hi = true ↔ ∃ e, (block.1 ≤ e ∧ e < block.2) ∧ lo ≤ e ∧ e < hi := by
  simp only [meets, Bool.and_eq_true, decide_eq_true_eq, UInt64.lt_iff_toNat_lt, UInt64.le_iff_toNat_le] at *
  constructor
  · rintro ⟨hb, hl⟩
    refine ⟨max block.1 lo, ?_⟩
    rw [Hull.toNat_max]
    exact ⟨⟨le_max_left _ _, max_lt hblock hl⟩, le_max_right _ _, max_lt hb hlt⟩
  · rintro ⟨e, ⟨hb, hb'⟩, hl, hl'⟩
    exact ⟨hb.trans_lt hl', hl.trans_lt hb'⟩

/-- A graft's width and relations. -/
def leg (g : GraftSpan) : Leg := ⟨g.source.2 - g.source.1, g.rels⟩

def bySource (g : GraftSpan) : LegKey × Leg := (⟨g.source.1, g.target.1, g.edition⟩, g.leg)

def byTarget (g : GraftSpan) : LegKey × Leg := (⟨g.target.1, g.source.1, g.edition⟩, g.leg)

variable {g : GraftSpan}

/-- A block's start and width come to its end. -/
theorem plus_width {a b : UInt64} (h : a < b) : plus a (b - a) = some b := by
  have hsub : (b - a).toNat = b.toNat - a.toNat := UInt64.toNat_sub_of_le _ _ (UInt64.le_of_lt h)
  have hle : a.toNat < b.toNat := UInt64.lt_iff_toNat_lt.1 h
  have hlt : b.toNat < 2 ^ 64 := b.toNat_lt
  rw [plus, if_pos (by omega), UInt64.add_comm, UInt64.sub_add_cancel]

theorem Even.plus_source (h : g.Even) : plus g.source.1 g.leg.width = some g.source.2 := plus_width h.source

theorem Even.plus_target (h : g.Even) : plus g.target.1 g.leg.width = some g.target.2 := by
  rw [leg, ← h.width]
  exact plus_width h.target

/-- A leg comes back as the graft it was. -/
theorem Even.span (h : g.Even) : Spanfilade.span g.source.1 g.target.1 g.edition g.leg = some g := by
  rw [Spanfilade.span, h.plus_source, h.plus_target]
  rfl

theorem Even.meets_source (h : g.Even) (lo hi : UInt64) :
    (Hull.entry g.bySource.1 g.bySource.2).meets lo hi = meets g.source lo hi := by
  show Hull.meets ⟨some (g.source.1, (plus g.source.1 g.leg.width).getD _)⟩ lo hi = _
  rw [h.plus_source]
  rfl

theorem Even.meets_target (h : g.Even) (lo hi : UInt64) :
    (Hull.entry g.byTarget.1 g.byTarget.2).meets lo hi = meets g.target lo hi := by
  show Hull.meets ⟨some (g.target.1, (plus g.target.1 g.leg.width).getD _)⟩ lo hi = _
  rw [h.plus_target]
  rfl

end GraftSpan

/-- What is promised of the grafts of a branch: each an even one, no two of one edition. -/
structure GraftSpan.Listed (gs : List GraftSpan) : Prop where
  even : ∀ g ∈ gs, g.Even
  distinct : (gs.map GraftSpan.edition).Nodup

/-! ## What the index holds -/

/-- A list of images in another order is the images of a list in another order. -/
theorem exists_of_perm_map {α β : Type} {f : α → β} {l : List β} {as : List α} (h : l.Perm (as.map f)) :
    ∃ as' : List α, l = as'.map f ∧ as'.Perm as := by
  have hcomp : Relation.Comp (fun r s => r = List.map f s) (fun r s => r.Perm s) l as := by
    rw [List.eq_map_comp_perm]
    exact h
  exact hcomp

/-- Images that are each read back are read back together. -/
theorem mapM_map_back {α β : Type} {f : α → β} {back : β → Option α} {as : List α}
    (hback : ∀ a ∈ as, back (f a) = some a) : (as.map f).mapM back = some as := by
  induction as with
  | nil => rfl
  | cons a as ih =>
    rw [List.map_cons, List.mapM_cons, hback a (by simp), ih fun b hb => hback b (by simp [hb])]
    rfl

namespace Spanfilade

variable {tree : SpanEnf} {leg : GraftSpan → LegKey × Leg} {x : Spanfilade} {g : GraftSpan} {gs gs' : List GraftSpan}
  {lo hi : UInt64} {at' : Nat}

/-- A tree that denotes one leg for each graft. -/
def Lists (tree : SpanEnf) (leg : GraftSpan → LegKey × Leg) (gs : List GraftSpan) : Prop :=
  ∃ held : List GraftSpan, Denotes true tree (held.map leg) ∧ held.Perm gs

theorem Lists.new : Lists .nil leg [] := ⟨[], ⟨.inl rfl, rfl⟩, .nil⟩

theorem Lists.perm (h : Lists tree leg gs) (hperm : gs.Perm gs') : Lists tree leg gs' := by
  obtain ⟨held, hm, hheld⟩ := h
  exact ⟨held, hm, hheld.trans hperm⟩

theorem Lists.insert (h : Lists tree leg gs) (hnew : ∀ g' ∈ gs, (leg g').1 ≠ (leg g).1) :
    Lists (tree.insertWith (leg g).1 (leg g).2 false) leg (g :: gs) := by
  obtain ⟨held, hm, hheld⟩ := h
  obtain ⟨hsound, hslots⟩ := Tree.insertWith_spec hm.sound false (fun _ => rfl) (leg g).1 trivial (leg g).2
  rw [hm.slots_eq, asSlots_put] at hslots
  have habsent : ∀ e ∈ held.map leg, e.1 ≠ (leg g).1 := by
    intro e he
    obtain ⟨g', hg', rfl⟩ := List.mem_map.1 he
    exact hnew g' (hheld.subset hg')
  have hput : (put (leg g).1 (leg g).2 (held.map leg)).Perm ((g :: held).map leg) := perm_put habsent
  obtain ⟨held', heq, hheld'⟩ := exists_of_perm_map hput
  exact ⟨held', ⟨hsound, by rw [hslots, heq]⟩, hheld'.trans (hheld.cons g)⟩

/-- A search by hull finds the grafts whose leg meets the span, and misses none. -/
theorem Lists.stab (h : Lists tree leg gs) :
    ∃ found : List GraftSpan, stab tree lo hi at' = found.map leg ∧
      found.Perm (gs.filter fun g => (Hull.entry (leg g).1 (leg g).2).meets lo hi && (leg g).1.edition ≤ at') := by
  obtain ⟨held, hm, hheld⟩ := h
  have hrows : Tree.rows tree = held.map leg := by rw [Tree.rows, hm.slots_eq, rowsOf_asSlots]
  refine ⟨_, ?_, hheld.filter _⟩
  rw [Spanfilade.stab, Tree.search_entries hm.sound fun l e he hkeep =>
    Hull.meets_ofEntries he (Bool.and_eq_true_iff.1 hkeep).1, hrows, List.filter_map]
  rfl

/-- The index of these grafts. -/
structure Indexes (x : Spanfilade) (gs : List GraftSpan) : Prop where
  source : Lists x.bySource GraftSpan.bySource gs
  target : Lists x.byTarget GraftSpan.byTarget gs

theorem indexes_new : Indexes new [] := ⟨.new, .new⟩

theorem Indexes.perm (h : Indexes x gs) (hperm : gs.Perm gs') : Indexes x gs' :=
  ⟨h.source.perm hperm, h.target.perm hperm⟩

/-- A graft of another edition than all before it is one more. -/
theorem Indexes.record (h : Indexes x gs) (hg : g.Even) (hnew : ∀ g' ∈ gs, g'.edition ≠ g.edition) :
    Indexes (x.record g) (g :: gs) := by
  have hleg : (⟨if g.source.1 ≤ g.source.2 then g.source.2 - g.source.1 else 0, g.rels⟩ : Leg) = g.leg := by
    rw [if_pos (UInt64.le_of_lt hg.source), GraftSpan.leg]
  unfold Spanfilade.record
  rw [hleg]
  exact ⟨h.source.insert fun g' hg' hkey => hnew g' hg' (congrArg LegKey.edition hkey),
    h.target.insert fun g' hg' hkey => hnew g' hg' (congrArg LegKey.edition hkey)⟩

theorem Indexes.stab_source (h : Indexes x gs) (hgs : GraftSpan.Listed gs) (lo hi : UInt64) (at' : Nat) :
    ∃ found : List GraftSpan, stab x.bySource lo hi at' = found.map GraftSpan.bySource ∧
      found.Perm (gs.filter fun g => GraftSpan.meets g.source lo hi && g.edition ≤ at') := by
  obtain ⟨found, hfound, hperm⟩ := h.source.stab
  rw [List.filter_congr fun g hg => by rw [(hgs.even g hg).meets_source]] at hperm
  exact ⟨found, hfound, hperm⟩

theorem Indexes.stab_target (h : Indexes x gs) (hgs : GraftSpan.Listed gs) (lo hi : UInt64) (at' : Nat) :
    ∃ found : List GraftSpan, stab x.byTarget lo hi at' = found.map GraftSpan.byTarget ∧
      found.Perm (gs.filter fun g => GraftSpan.meets g.target lo hi && g.edition ≤ at') := by
  obtain ⟨found, hfound, hperm⟩ := h.target.stab
  rw [List.filter_congr fun g hg => by rw [(hgs.even g hg).meets_target]] at hperm
  exact ⟨found, hfound, hperm⟩

/-- The copies of a block are the grafts made by then whose source meets it. -/
theorem Indexes.copiesOf (h : Indexes x gs) (hgs : GraftSpan.Listed gs) (lo hi : UInt64) (at' : Nat) :
    ∃ l, x.copiesOf lo hi at' = some l ∧
      l.Perm (gs.filter fun g => GraftSpan.meets g.source lo hi && g.edition ≤ at') := by
  obtain ⟨found, hfound, hperm⟩ := h.stab_source hgs lo hi at'
  refine ⟨found, ?_, hperm⟩
  rw [Spanfilade.copiesOf, hfound]
  exact mapM_map_back fun g hg => (hgs.even g (List.mem_of_mem_filter (hperm.subset hg))).span

/-- The sources of a block are the grafts made by then whose target meets it. -/
theorem Indexes.sourcesOf (h : Indexes x gs) (hgs : GraftSpan.Listed gs) (lo hi : UInt64) (at' : Nat) :
    ∃ l, x.sourcesOf lo hi at' = some l ∧
      l.Perm (gs.filter fun g => GraftSpan.meets g.target lo hi && g.edition ≤ at') := by
  obtain ⟨found, hfound, hperm⟩ := h.stab_target hgs lo hi at'
  refine ⟨found, ?_, hperm⟩
  rw [Spanfilade.sourcesOf, hfound]
  exact mapM_map_back fun g hg => (hgs.even g (List.mem_of_mem_filter (hperm.subset hg))).span

/-! ## The index of a fork -/

theorem foldlM_record (at' : Nat) : ∀ (gs' : List GraftSpan) (x : Spanfilade) (gs : List GraftSpan),
    Indexes x gs → (∀ g ∈ gs', g.Even) → ((gs' ++ gs).map GraftSpan.edition).Nodup →
      ∃ x', (gs'.map GraftSpan.bySource).foldlM (fun out e =>
          if e.1.edition ≤ at' then (span e.1.side e.1.other e.1.edition e.2).map out.record else some out) x
        = some x' ∧ Indexes x' (gs'.filter (·.edition ≤ at') ++ gs) := by
  intro gs'
  induction gs' with
  | nil => exact fun x gs h _ _ => ⟨x, rfl, h⟩
  | cons g gs' ih =>
    intro x gs h heven hdistinct
    rw [List.cons_append, List.map_cons, List.nodup_cons] at hdistinct
    obtain ⟨hnew, hdistinct⟩ := hdistinct
    have heven' : ∀ g ∈ gs', g.Even := fun g hg => heven g (by simp [hg])
    rw [List.map_cons, List.foldlM_cons]
    by_cases hle : g.edition ≤ at'
    · have hrec : Indexes (x.record g) (g :: gs) := by
        refine h.record (heven g (by simp)) fun g' hg' heq => hnew ?_
        exact List.mem_map.2 ⟨g', by simp [hg'], heq⟩
      have hnodup : ((gs' ++ g :: gs).map GraftSpan.edition).Nodup := by
        refine (List.perm_middle.map GraftSpan.edition).nodup_iff.2 ?_
        exact List.nodup_cons.2 ⟨hnew, hdistinct⟩
      obtain ⟨x', hx', hindex⟩ := ih _ _ hrec heven' hnodup
      refine ⟨x', ?_, hindex.perm ?_⟩
      · rw [if_pos (show g.bySource.1.edition ≤ at' from hle)]
        show (Option.map _ (span g.source.1 g.target.1 g.edition g.leg)).bind _ = _
        rw [(heven g (by simp)).span]
        exact hx'
      · rw [List.filter_cons_of_pos (by simpa using hle)]
        exact List.perm_middle
    · obtain ⟨x', hx', hindex⟩ := ih x gs h heven' hdistinct
      refine ⟨x', ?_, ?_⟩
      · rw [if_neg (show ¬ g.bySource.1.edition ≤ at' from hle)]
        exact hx'
      · rw [List.filter_cons_of_neg (by simpa using hle)]
        exact hindex

/-- The index a fork into the past keeps is that of the grafts made by then. -/
theorem Indexes.asOf (h : Indexes x gs) (hgs : GraftSpan.Listed gs) (at' : Nat) :
    ∃ x', x.asOf at' = some x' ∧ Indexes x' (gs.filter (·.edition ≤ at')) := by
  obtain ⟨held, hm, hheld⟩ := h.source
  have hdistinct : ((held ++ []).map GraftSpan.edition).Nodup := by
    rw [List.append_nil]
    exact (hheld.map _).nodup_iff.2 hgs.distinct
  obtain ⟨x', hx', hindex⟩ :=
    foldlM_record at' held new [] indexes_new (fun g hg => hgs.even g (hheld.subset hg)) hdistinct
  rw [List.append_nil] at hindex
  refine ⟨x', ?_, hindex.perm (hheld.filter _)⟩
  rw [Spanfilade.asOf, hm.reads.iter]
  exact hx'

/-! ## Origins -/

theorem latest_eq_none : ∀ {l : List (LegKey × Leg)}, latest l = none → l = []
  | [], _ => rfl
  | e :: es, h => by
      rw [latest] at h
      cases hes : latest es with
      | none => rw [hes] at h; cases h
      | some e' =>
        rw [hes] at h
        dsimp only at h
        split_ifs at h

/-- The latest of a list is one of it, and none of it is later. -/
theorem latest_spec : ∀ {l : List (LegKey × Leg)} {e : LegKey × Leg}, latest l = some e →
    e ∈ l ∧ ∀ e' ∈ l, e'.1.edition ≤ e.1.edition
  | [], _, h => by cases h
  | a :: es, e, h => by
      rw [latest] at h
      cases hes : latest es with
      | none =>
        rw [hes] at h
        cases h
        rw [latest_eq_none hes]
        simp
      | some e' =>
        rw [hes] at h
        obtain ⟨hmem, hmax⟩ := latest_spec hes
        dsimp only at h
        split_ifs at h with hle
        · cases h
          exact ⟨List.mem_cons_of_mem _ hmem, List.forall_mem_cons.2 ⟨hle, hmax⟩⟩
        · cases h
          refine ⟨by simp, List.forall_mem_cons.2 ⟨le_rfl, fun a' ha' => ?_⟩⟩
          exact (hmax a' ha').trans (not_le.1 hle).le

end Spanfilade

/-- Whether a graft wrote an entity. -/
def GraftSpan.Fills (g : GraftSpan) (e : UInt64) : Prop := g.target.1 ≤ e ∧ e < g.target.2

/-- How an entity is followed back through grafts older than an edition: by the latest that
wrote it, and on from where that copied it, until none wrote it. -/
inductive Carried (gs : List GraftSpan) : Nat → UInt64 → UInt64 → List GraftSpan → Prop
  | start {before : Nat} {e : UInt64} (none_wrote : ∀ g ∈ gs, g.edition < before → ¬ g.Fills e) :
      Carried gs before e e []
  | hop {before : Nat} {e origin : UInt64} {g : GraftSpan} {chain : List GraftSpan} (made : g ∈ gs)
      (older : g.edition < before) (wrote : g.Fills e)
      (last : ∀ g' ∈ gs, g'.edition < before → g'.Fills e → g'.edition ≤ g.edition)
      (rest : Carried gs g.edition (g.source.1 + (e - g.target.1)) origin chain) :
      Carried gs before e origin (g :: chain)

/-- The grafts that carried an entity are each older than the one before. -/
theorem Carried.decreasing {gs : List GraftSpan} {before : Nat} {e origin : UInt64} {chain : List GraftSpan}
    (h : Carried gs before e origin chain) :
    chain.Pairwise (fun g g' => g'.edition < g.edition) ∧ ∀ g ∈ chain, g ∈ gs ∧ g.edition < before := by
  induction h with
  | start _ => simp
  | hop made older _ _ _ ih =>
    obtain ⟨hchain, hmem⟩ := ih
    refine ⟨List.pairwise_cons.2 ⟨fun g hg => (hmem g hg).2, hchain⟩, List.forall_mem_cons.2 ⟨⟨made, older⟩, ?_⟩⟩
    exact fun g hg => ⟨(hmem g hg).1, (hmem g hg).2.trans older⟩

namespace Spanfilade

variable {x : Spanfilade} {gs : List GraftSpan}

/-- A block meets a lone entity where it holds it; the greatest word has no span of its own. -/
theorem meets_lone {g : GraftSpan} {e : UInt64} :
    GraftSpan.meets g.target e (saturatingAdd e 1) = true ↔ g.Fills e := by
  simp only [GraftSpan.meets, GraftSpan.Fills, Bool.and_eq_true, decide_eq_true_eq]
  refine and_congr_left fun hlt => ?_
  have hfit : e.toNat + (1 : UInt64).toNat < 2 ^ 64 := by
    have h₁ := UInt64.lt_iff_toNat_lt.1 hlt
    have h₂ := g.target.2.toNat_lt
    simp only [UInt64.toNat_one]
    omega
  rw [saturatingAdd, plus, if_pos hfit, Option.getD_some, UInt64.lt_iff_toNat_lt, UInt64.le_iff_toNat_le,
    UInt64.toNat_add, Nat.mod_eq_of_lt hfit, UInt64.toNat_one, Nat.lt_add_one_iff]

/-- One graft further back: none wrote the entity, or the latest that did is gone through. -/
theorem Indexes.follow (h : Indexes x gs) (hgs : GraftSpan.Listed gs) {e : UInt64} {before : Nat} {chain : List GraftSpan}
    (hbefore : 0 < before) :
    (Spanfilade.follow x ⟨e, before, chain⟩ = .ended (some (e, chain)) ∧ ∀ g ∈ gs, g.edition < before → ¬ g.Fills e) ∨
      ∃ g ∈ gs, g.edition < before ∧ g.Fills e ∧
        (∀ g' ∈ gs, g'.edition < before → g'.Fills e → g'.edition ≤ g.edition) ∧
        Spanfilade.follow x ⟨e, before, chain⟩ = .spent ⟨g.source.1 + (e - g.target.1), g.edition, chain ++ [g]⟩ := by
  obtain ⟨before, rfl⟩ : ∃ n, before = n + 1 := ⟨before - 1, by omega⟩
  obtain ⟨found, hfound, hperm⟩ := h.stab_target hgs e (saturatingAdd e 1) before
  have hmem : ∀ g, g ∈ found ↔ g ∈ gs ∧ g.edition < before + 1 ∧ g.Fills e := fun g => by
    rw [hperm.mem_iff, List.mem_filter, Bool.and_eq_true, meets_lone, decide_eq_true_eq, Nat.lt_add_one_iff]
    tauto
  simp only [Spanfilade.follow, hfound]
  cases hlatest : latest (found.map GraftSpan.byTarget) with
  | none =>
    have hnone : found = [] := List.map_eq_nil_iff.1 (latest_eq_none hlatest)
    refine .inl ⟨rfl, fun g hg hlt hfills => ?_⟩
    have hg' := (hmem g).2 ⟨hg, hlt, hfills⟩
    rw [hnone] at hg'
    cases hg'
  | some best =>
    obtain ⟨hbest, hmax⟩ := latest_spec hlatest
    obtain ⟨g, hg, rfl⟩ := List.mem_map.1 hbest
    obtain ⟨hmade, holder, hfills⟩ := (hmem g).1 hg
    have heven := hgs.even g hmade
    refine .inr ⟨g, hmade, holder, hfills, fun g' hg' hlt hfills' => ?_, ?_⟩
    · exact hmax g'.byTarget (List.mem_map_of_mem ((hmem g').2 ⟨hg', hlt, hfills'⟩))
    · have hplus : plus g.source.1 (e - g.target.1) = some (g.source.1 + (e - g.target.1)) := by
        have hsub : (e - g.target.1).toNat = e.toNat - g.target.1.toNat := UInt64.toNat_sub_of_le _ _ hfills.1
        have hwidth := congrArg UInt64.toNat heven.width
        rw [UInt64.toNat_sub_of_le _ _ (UInt64.le_of_lt heven.target),
          UInt64.toNat_sub_of_le _ _ (UInt64.le_of_lt heven.source)] at hwidth
        have h₁ := UInt64.le_iff_toNat_le.1 hfills.1
        have h₂ := UInt64.lt_iff_toNat_lt.1 hfills.2
        have h₃ := UInt64.lt_iff_toNat_lt.1 heven.source
        have h₄ := g.source.2.toNat_lt
        rw [plus, if_pos (by omega)]
      have hspan : Spanfilade.span g.byTarget.1.other g.byTarget.1.side g.byTarget.1.edition g.byTarget.2 = some g :=
        heven.span
      have hplus' : plus g.byTarget.1.other (e - g.byTarget.1.side) = some (g.source.1 + (e - g.target.1)) := hplus
      simp only [hplus', hspan, if_neg (show ¬ e < g.byTarget.1.side from UInt64.not_lt.2 hfills.1)]
      rfl

/-- **Following back ends**, and finds where the entity was carried from. -/
theorem Indexes.origin (h : Indexes x gs) (hgs : GraftSpan.Listed gs) : ∀ (fuel before : Nat) (e : UInt64) (done : List GraftSpan),
    0 < before → before ≤ fuel →
      ∃ e' chain, spend (Spanfilade.follow x) fuel ⟨e, before, done⟩ = .inr (some (e', done ++ chain)) ∧
        Carried gs before e e' chain := by
  intro fuel
  induction fuel with
  | zero => exact fun before _ _ hbefore hfuel => absurd hfuel hbefore.not_ge
  | succ fuel ih =>
    intro before e done hbefore hfuel
    rw [spend]
    rcases h.follow hgs hbefore with ⟨hended, hnone⟩ | ⟨g, hmade, holder, hwrote, hlast, hspent⟩
    · refine ⟨e, [], ?_, .start hnone⟩
      rw [hended, List.append_nil]
    · obtain ⟨e', chain, hrest, hcarried⟩ :=
        ih g.edition (g.source.1 + (e - g.target.1)) (done ++ [g]) (hgs.even g hmade).edition (by omega)
      refine ⟨e', g :: chain, ?_, .hop hmade holder hwrote hlast hcarried⟩
      rw [hspent]
      show spend _ fuel _ = _
      rw [hrest, List.append_assoc]
      rfl

end Spanfilade

end Grmpl

import Grmpl.Ent.ChangeFilters
import Grmpl.Ent.SpanfiladeExact

/-!
# The copy index over a store's history

A branch keeps its copy index in its state: a graft is recorded in it, a fork takes what was
made by its edition, a merge goes on from its own. Beside the index runs the plain list of the
copies made, which nothing reads: it is what the index is held to.

* `GraftFits`: what is promised of a Fact enfilade's graft.
* `Copying`, `Copies.step`: a branch with its index and its copies listed, and what is done to branches.
* `Copying.Good`: the invariant.
* `copy_index_exact`: the index answers as the list does.
-/

open OrdMap Runs Fuelled

namespace Grmpl

/-- What a branch's state is promised of a graft of rows that are there: the block and the
place it went to are not empty. -/
class GraftFits (F : Type) [FactEnf F] : Prop where
  lt_of_anyIn : ∀ (f : F) (lo hi : Tuple), FactEnf.anyIn f lo hi = true → lo < hi
  target_lt : ∀ (layout : Layout) (f g : F) (lo hi : Tuple) (d : Dsp), FactEnf.anyIn f lo hi = true →
    FactEnf.graft layout f lo hi d = some g → displace lo d < displace hi d

/-- A graft of rows that are there goes to a place that is not empty. -/
theorem Tree.graftMap_target {K W : Type} [Displace K] {lo hi : K} {d : Dsp} {S S' : List (K × W)}
    (hlt : lo < hi) (hany : (between lo hi S).isEmpty = false) (hg : graftMap lo hi d S = some S') :
    displace lo d < displace hi d := by
  unfold graftMap at hg
  rw [if_neg hlt.not_ge, if_neg (by simp [hany])] at hg
  dsimp only at hg
  split_ifs at hg with hfull
  exact not_le.1 fun hle => hfull (.inl hle)

instance FactRows.instGraftFits : GraftFits FactRows where
  lt_of_anyIn m lo hi h := of_decide_eq_true (Bool.and_eq_true_iff.1 h).1
  target_lt layout m g lo hi d h hg := by
    obtain ⟨hlt, hany⟩ := Bool.and_eq_true_iff.1 h
    exact Tree.graftMap_target (of_decide_eq_true hlt) (by simpa using hany) hg

/-- A well-formed tree has rows only between tuples in order. -/
theorem Tree.lt_of_anyIn {K V M : Type} [Displace K] [Measure K V M] {t : Tree K V M} {lo hi : K}
    (h : t.anyIn lo hi = true) : lo < hi := of_decide_eq_true (Bool.and_eq_true_iff.1 h).1

/-- A well-formed tree grafts the rows it has to a place that is not empty. -/
theorem Tree.graft_target {K V M : Type} [Displace K] [Measure K V M] [RunValue V] {p : Bool} {t t' : Tree K V M}
    {lo hi : K} {d : Dsp} (ht : Sound p anyKey t) (h : t.anyIn lo hi = true) (hg : t.graft lo hi d = some t') :
    displace lo d < displace hi d := by
  obtain ⟨hspan, hslots⟩ := graftSpan_spec ht lo hi
  have hlt := lt_of_anyIn h
  have hfilled : (graftSpan t lo hi).isEmpty = false := by
    rw [hspan.isEmpty, hslots]
    rw [anyIn_spec ht, anySlot, Bool.not_eq_true'] at h
    exact h
  unfold graft at hg
  rw [if_neg hlt.not_ge] at hg
  dsimp only at hg
  rw [← graftSpan, hfilled] at hg
  refine not_le.1 fun hle => ?_
  simp [hle] at hg

/-- A branch's state with its copy index, and the copies made listed beside it, the latest first. -/
structure Copying (F : Type) where
  inner : Inner F
  grafts : Spanfilade
  made : List GraftSpan

namespace Copying

variable {F : Type}

def empty : Copying F := ⟨.empty, .new, []⟩

/-- What is recorded of a block copied as the next edition. -/
def spanOf (edition : Nat) (blockLo blockHi : UInt64) (shift : Dsp) (rels : List RelId) : GraftSpan :=
  let start := blockLo + shift.toUInt64
  ⟨(blockLo, blockHi), (start, start + (blockHi - blockLo)), edition, rels⟩

variable [FactEnf F]

/-- A block copied, and recorded if there was anything to copy. -/
def graft (s : Copying F) (rels : List RelId) (blockLo blockHi : UInt64) (shift : Dsp) (origin : Origin) :
    Result (Copying F) := do
  let roots ← s.inner.graftRoots blockLo blockHi shift ((rels.mergeSort (· ≤ ·)).dedup)
  let inner ← s.inner.graft rels blockLo blockHi shift origin
  if roots.isEmpty then return { s with inner := inner }
  else
    let g := spanOf (s.inner.current + 1) blockLo blockHi shift (roots.map Prod.fst)
    return ⟨inner, s.grafts.record g, g :: s.made⟩

/-- One patch replayed; none if it no longer applies. -/
def replayOne (s : Copying F) : Replay → Option (Copying F)
  | .commit pre updates origin =>
      (s.inner.replayOne (.commit pre updates origin)).map fun i => { s with inner := i }
  | .graft rels blockLo blockHi shift origin => (s.graft rels blockLo blockHi shift origin).toOption

/-- The state a merge ends in. -/
def merge (s theirs : Copying F) (todo : List Replay) : Option (Copying F) := do
  let i ← Inner.uniteShapes
    { s.inner with canopy := Canopy.new, fired := [], interests := [], registered := [] } theirs.inner.shapes
  todo.foldlM replayOne { s with inner := i }

omit [FactEnf F] in
/-- The state of a fork as of an edition; none where the index panics. -/
def forkAt (s : Copying F) (at' : Nat) : Option (Copying F) :=
  (if at' = s.inner.current then some s.grafts else s.grafts.asOf at').map fun x =>
    ⟨s.inner.forkAt at', x, s.made.filter (·.edition ≤ at')⟩

end Copying

/-- The states of a store's branches, with their copy indexes. -/
abbrev Copies (F : Type) := List (Copying F)

namespace Copies

variable {F : Type} [FactEnf F]

/-- What an action makes of the branches, if the code takes it. -/
def step (s : Copies F) : BranchAct → Option (Copies F)
  | .commit b pre updates => do
      let c ← s[b]?
      if pre.all fun p => c.inner.holdsNow p.1 p.2 then
        some (s.set b { c with inner := c.inner.apply (c.inner.current + 1) pre updates none })
      else some s
  | .instantiate b rels blockLo blockHi shift => do
      let c ← s[b]?
      match c.graft rels blockLo blockHi shift none with
      | .ok c' => some (s.set b c')
      | .error _ => some s
  | .ask b start upTo rel lo hi => do
      let c ← s[b]?
      some (s.set b { c with inner := (c.inner.touchedRangeSince start upTo rel lo hi).1 })
  | .fork b at' => do
      let c ← s[b]?
      if at' < c.inner.watermark then none else (c.forkAt at').map fun c' => s ++ [c']
  | .merge b other todo => do
      let c ← s[b]?
      let theirs ← s[other]?
      match c.merge theirs todo with
      | some m => some (s ++ [m])
      | none => some s
  | .branch b => do
      let c ← s[b]?
      some (s ++ [c])
  | .consolidate b upTo => do
      let c ← s[b]?
      some (s.set b { c with inner := c.inner.consolidate upTo })

/-- A store just made: one empty branch. -/
def new : Copies F := [Copying.empty]

end Copies

/-! ## The invariant -/

/-- What is asked of an index: to answer as a filter of the copies listed would, and to follow an
entity back through the latest of them. -/
structure Spanfilade.Answers (x : Spanfilade) (gs : List GraftSpan) : Prop where
  copies : ∀ lo hi at', ∃ l, x.copiesOf lo hi at' = some l ∧
    l.Perm (gs.filter fun g => GraftSpan.meets g.source lo hi && g.edition ≤ at')
  sources : ∀ lo hi at', ∃ l, x.sourcesOf lo hi at' = some l ∧
    l.Perm (gs.filter fun g => GraftSpan.meets g.target lo hi && g.edition ≤ at')
  origin : ∀ e at', ∃ e' chain, (∀ fuel, at' < fuel → x.origin fuel e at' = .inr (some (e', chain))) ∧
    Carried gs (at' + 1) e e' chain ∧ chain.Pairwise fun g g' => g'.edition < g.edition

theorem Spanfilade.Indexes.answers {x : Spanfilade} {gs : List GraftSpan} (h : x.Indexes gs)
    (hgs : GraftSpan.Listed gs) : x.Answers gs := by
  refine ⟨h.copiesOf hgs, h.sourcesOf hgs, fun e at' => ?_⟩
  obtain ⟨e', chain, hend, hcarried⟩ := h.origin hgs (at' + 1) (at' + 1) e [] (Nat.succ_pos _) le_rfl
  refine ⟨e', chain, fun fuel hfuel => ?_, hcarried, hcarried.decreasing.1⟩
  obtain ⟨more, rfl⟩ := Nat.exists_eq_add_of_le (Nat.succ_le_of_lt hfuel)
  rw [Spanfilade.origin, spend_add, hend]
  rfl

namespace Copying

variable {F : Type}

/-- The index is that of the copies listed, which are even, each of its own edition, and none of
them yet to come. -/
structure Good (s : Copying F) : Prop where
  indexes : s.grafts.Indexes s.made
  listed : GraftSpan.Listed s.made
  past : ∀ g ∈ s.made, g.edition ≤ s.inner.current

variable {s t : Copying F}

theorem good_empty : (empty : Copying F).Good := ⟨Spanfilade.indexes_new, ⟨by simp [empty], .nil⟩, by simp [empty]⟩

/-- A state that is no earlier has the same copies behind it. -/
theorem Good.onward (h : s.Good) {i : Inner F} (hi : s.inner.current ≤ i.current) :
    Copying.Good { s with inner := i } :=
  ⟨h.indexes, h.listed, fun g hg => (h.past g hg).trans hi⟩

/-! ### Forks -/

theorem listed_filter {gs : List GraftSpan} (h : GraftSpan.Listed gs) (q : GraftSpan → Bool) :
    GraftSpan.Listed (gs.filter q) :=
  ⟨fun g hg => h.even g (List.mem_of_mem_filter hg), h.distinct.sublist (List.filter_sublist.map _)⟩

/-- **A fork** keeps an index of the copies made by its edition, and never panics. -/
theorem Good.forkAt (h : s.Good) (at' : Nat) : ∃ t, s.forkAt at' = some t ∧ t.inner = s.inner.forkAt at' ∧ t.Good := by
  have hpast : ∀ g ∈ s.made.filter (·.edition ≤ at'), g.edition ≤ at' := fun g hg =>
    of_decide_eq_true (List.mem_filter.1 hg).2
  obtain ⟨x, hx, hindex⟩ : ∃ x, (if at' = s.inner.current then some s.grafts else s.grafts.asOf at') = some x ∧
      x.Indexes (s.made.filter (·.edition ≤ at')) := by
    split_ifs with hnow
    · refine ⟨s.grafts, rfl, ?_⟩
      rw [List.filter_eq_self.2 fun g hg => decide_eq_true (hnow ▸ h.past g hg)]
      exact h.indexes
    · exact h.indexes.asOf h.listed at'
  refine ⟨_, by rw [Copying.forkAt, hx]; rfl, rfl, hindex, listed_filter h.listed _, hpast⟩

/-! ### Grafts -/

/-- The key of a lone entity is placed as its id is. -/
theorem entKey_lt {a b : UInt64} : Inner.entKey a < Inner.entKey b ↔ a < b := by
  rw [Inner.entKey, Inner.entKey, Tuple.cells_lt_cons, ← compare_lt_iff_lt, Value.compare_def]
  simp only [Value.cmp, cmpEntity, compare_lt_iff_lt, lt_irrefl, and_false, or_false, UInt64.lt_iff_toNat_lt]

theorem displace_entKey (id : UInt64) (d : Dsp) : displace (Inner.entKey id) d = Inner.entKey (id + d.toUInt64) :=
  Tuple.displace_eq _ d

/-- What is recorded of a copy is even where neither its block nor its place is empty. -/
theorem even_spanOf {edition : Nat} {lo hi : UInt64} {shift : Dsp} (rels : List RelId) (hedition : 0 < edition)
    (hlt : Inner.entKey lo < Inner.entKey hi)
    (hlt' : displace (Inner.entKey lo) shift < displace (Inner.entKey hi) shift) :
    (spanOf edition lo hi shift rels).Even := by
  rw [displace_entKey, displace_entKey, entKey_lt] at hlt'
  have hend : lo + shift.toUInt64 + (hi - lo) = hi + shift.toUInt64 := by grind
  refine ⟨entKey_lt.1 hlt, ?_, ?_, hedition⟩
  · show lo + shift.toUInt64 < lo + shift.toUInt64 + (hi - lo)
    rwa [hend]
  · show lo + shift.toUInt64 + (hi - lo) - (lo + shift.toUInt64) = hi - lo
    grind

variable [FactEnf F]

/-- A relation that has rows to copy has a block and a place for them. -/
theorem graftOne_target [GraftFits F] {i : Inner F} {lo hi : UInt64} {shift : Dsp} {rel : RelId} {g : RelId × F}
    (h : i.graftOne lo hi shift rel = .ok (some g)) : Inner.entKey lo < Inner.entKey hi ∧
      displace (Inner.entKey lo) shift < displace (Inner.entKey hi) shift := by
  unfold Inner.graftOne at h
  split at h
  · cases h
  · rename_i facts _
    dsimp only at h
    split_ifs at h with hany hwithin
    · cases h
    · rw [Bool.not_eq_true', Bool.not_eq_false] at hany
      split at h
      · cases h
      · exact ⟨GraftFits.lt_of_anyIn facts _ _ hany, GraftFits.target_lt _ facts _ _ _ _ hany (by assumption)⟩

theorem graftRoots_target [GraftFits F] {i : Inner F} {lo hi : UInt64} {shift : Dsp} :
    ∀ {rels : List RelId} {roots : List (RelId × F)}, i.graftRoots lo hi shift rels = .ok roots → roots ≠ [] →
      Inner.entKey lo < Inner.entKey hi ∧
        displace (Inner.entKey lo) shift < displace (Inner.entKey hi) shift := by
  intro rels
  induction rels with
  | nil =>
    intro roots h hne
    cases h
    exact absurd rfl hne
  | cons rel rels ih =>
    intro roots h hne
    obtain ⟨g, hg, h⟩ := bind_ok h
    obtain ⟨gs, hgs, h⟩ := bind_ok h
    cases h
    cases g with
    | none => exact ih hgs (by simpa using hne)
    | some g => exact graftOne_target hg

/-- **A graft** records the one copy it made, of its own edition, or none. -/
theorem Good.graft [GraftFits F] (h : s.Good) {rels : List RelId} {lo hi : UInt64} {shift : Dsp} {origin : Origin}
    (hg : s.graft rels lo hi shift origin = .ok t) : t.Good := by
  obtain ⟨roots, hroots, hg⟩ := bind_ok hg
  obtain ⟨j, hj, hg⟩ := bind_ok hg
  have hnext := Inner.graft_current hj
  split_ifs at hg with hempty
  · cases hg
    exact h.onward (hnext ▸ Nat.le_succ _)
  · cases hg
    obtain ⟨hlt, hlt'⟩ := graftRoots_target hroots (by simpa using hempty)
    have heven := even_spanOf (roots.map Prod.fst) (Nat.succ_pos s.inner.current) hlt hlt'
    have hnew : ∀ g ∈ s.made, g.edition ≠ s.inner.current + 1 := fun g hg => (Nat.lt_succ_of_le (h.past g hg)).ne
    refine ⟨h.indexes.record heven hnew, ⟨List.forall_mem_cons.2 ⟨heven, h.listed.even⟩, ?_⟩, ?_⟩
    · refine List.nodup_cons.2 ⟨fun hmem => ?_, h.listed.distinct⟩
      obtain ⟨g, hg, heq⟩ := List.mem_map.1 hmem
      exact hnew g hg heq
    · rw [hnext]
      exact List.forall_mem_cons.2 ⟨le_rfl, fun g hg => (h.past g hg).trans (Nat.le_succ _)⟩

/-! ### Merges -/

theorem Good.replayOne [GraftFits F] (h : s.Good) {r : Replay} (hr : s.replayOne r = some t) : t.Good := by
  cases r with
  | commit pre updates origin =>
    obtain ⟨i, hi, rfl⟩ := Option.map_eq_some_iff.1 hr
    simp only [Inner.replayOne] at hi
    split_ifs at hi
    cases hi
    exact h.onward (Nat.le_succ _)
  | graft rels lo hi shift origin =>
    simp only [Copying.replayOne] at hr
    cases hg : s.graft rels lo hi shift origin with
    | error e => simp [hg, Except.toOption] at hr
    | ok u =>
      simp only [hg, Except.toOption, Option.some.injEq] at hr
      exact hr ▸ h.graft hg

/-- **A merge** goes on from its own index. -/
theorem Good.merge [GraftFits F] (h : s.Good) {theirs : Copying F} {todo : List Replay}
    (hm : s.merge theirs todo = some t) : t.Good := by
  obtain ⟨i, hi, hm⟩ := Option.bind_eq_some_iff.1 hm
  exact foldlM_invariant (fun a r b ha hab => ha.replayOne hab) (h.onward (Inner.uniteShapes_current hi).ge) hm

end Copying

namespace Copies

variable {F : Type} [FactEnf F] {s t : Copies F}

/-- **One step** keeps the index of every branch. -/
theorem good_step [GraftFits F] {a : BranchAct} (h : ∀ c ∈ s, c.Good) (hst : step s a = some t) : ∀ c ∈ t, c.Good := by
  have hset : ∀ {b : Nat} {c : Copying F}, c.Good → ∀ c' ∈ s.set b c, c'.Good := fun hc c' hc' => by
    rcases List.mem_or_eq_of_mem_set hc' with hold | rfl
    · exact h c' hold
    · exact hc
  have hsnoc : ∀ {c : Copying F}, c.Good → ∀ c' ∈ s ++ [c], c'.Good := fun hc c' hc' => by
    rcases List.mem_append.1 hc' with hold | hnew
    · exact h c' hold
    · exact List.mem_singleton.1 hnew ▸ hc
  cases a with
  | commit b pre updates =>
    obtain ⟨c, hb, hst⟩ := Option.bind_eq_some_iff.1 hst
    have hc := h c (List.mem_of_getElem? hb)
    split_ifs at hst <;> cases hst
    · exact hset (hc.onward (Nat.le_succ _))
    · exact h
  | instantiate b rels lo hi shift =>
    obtain ⟨c, hb, hst⟩ := Option.bind_eq_some_iff.1 hst
    have hc := h c (List.mem_of_getElem? hb)
    split at hst <;> cases hst
    · exact hset (hc.graft (by assumption))
    · exact h
  | ask b start upTo rel lo hi =>
    obtain ⟨c, hb, hst⟩ := Option.bind_eq_some_iff.1 hst
    cases hst
    exact hset ((h c (List.mem_of_getElem? hb)).onward (Inner.touchedRangeSince_current _ _ _ _ _ _).ge)
  | fork b at' =>
    obtain ⟨c, hb, hst⟩ := Option.bind_eq_some_iff.1 hst
    obtain ⟨c', hfork, -, hc'⟩ := (h c (List.mem_of_getElem? hb)).forkAt at'
    split_ifs at hst
    rw [hfork] at hst
    cases hst
    exact hsnoc hc'
  | merge b other todo =>
    obtain ⟨c, hb, hst⟩ := Option.bind_eq_some_iff.1 hst
    obtain ⟨theirs, -, hst⟩ := Option.bind_eq_some_iff.1 hst
    have hc := h c (List.mem_of_getElem? hb)
    split at hst <;> cases hst
    · exact hsnoc (hc.merge (by assumption))
    · exact h
  | branch b =>
    obtain ⟨c, hb, hst⟩ := Option.bind_eq_some_iff.1 hst
    cases hst
    exact hsnoc (h c (List.mem_of_getElem? hb))
  | consolidate b upTo =>
    obtain ⟨c, hb, hst⟩ := Option.bind_eq_some_iff.1 hst
    cases hst
    exact hset ((h c (List.mem_of_getElem? hb)).onward (Inner.consolidate_current _ _).ge)

theorem good_run [GraftFits F] (h : Run step Any (new : Copies F) s) : ∀ c ∈ s, c.Good := by
  refine h.invariant (fun c hc => ?_) fun _ _ _ hs _ hst => good_step hs hst
  rw [List.mem_singleton.1 hc]
  exact Copying.good_empty

end Copies

/-- **The copy index.** Whatever was done to a store's branches in whatever order, each branch's
index answers as a filter of the copies it made would, and so does the index a fork of it into
the past keeps; an entity is followed back through copies each older than the one before, each
the latest that wrote the entity, to one that none of the older ones wrote. -/
theorem copy_index_exact {F : Type} [FactEnf F] [GraftFits F] {s : Copies F} (h : Run Copies.step Any Copies.new s)
    {c : Copying F} (hc : c ∈ s) :
    c.grafts.Answers c.made ∧
      (∀ at', ∃ x, c.grafts.asOf at' = some x ∧ x.Answers (c.made.filter (·.edition ≤ at'))) ∧
      ∀ g ∈ c.made, ∀ lo hi, lo < hi →
        (GraftSpan.meets g.source lo hi = true ↔ ∃ e, (g.source.1 ≤ e ∧ e < g.source.2) ∧ lo ≤ e ∧ e < hi) ∧
        (GraftSpan.meets g.target lo hi = true ↔ ∃ e, (g.target.1 ≤ e ∧ e < g.target.2) ∧ lo ≤ e ∧ e < hi) := by
  have hgood := Copies.good_run h c hc
  refine ⟨hgood.indexes.answers hgood.listed, fun at' => ?_, fun g hg lo hi hlt => ?_⟩
  · obtain ⟨x, hx, hindex⟩ := hgood.indexes.asOf hgood.listed at'
    exact ⟨x, hx, hindex.answers (Copying.listed_filter hgood.listed _)⟩
  · have heven := hgood.listed.even g hg
    exact ⟨GraftSpan.meets_iff heven.source hlt, GraftSpan.meets_iff heven.target hlt⟩

/-- A block copied, and the copy copied: on a fork from between the two, another copy of the first
block, and the first branch's second copy replayed by a merge. -/
def copiedOver : List BranchAct :=
  [.commit 0 [] [(1, Inner.entKey 15, 1)], .instantiate 0 [1] 10 20 100, .instantiate 0 [1] 110 120 100, .fork 0 2,
    .instantiate 1 [1] 10 20 40, .merge 1 0 [.graft [1] 110 120 100 (some (0, 3))]]

theorem copy_index_exact_sample : ∃ (s : Copies FactRows) (c : Copying FactRows),
    Run Copies.step Any Copies.new s ∧ c ∈ s ∧ c.made.map GraftSpan.target = [(210, 220), (50, 60), (110, 120)] ∧
      c.grafts.Answers c.made := by
  have hex : (execute Copies.step (Copies.new : Copies FactRows) copiedOver).isSome = true := by decide +kernel
  have hrun : Run Copies.step Any Copies.new _ := .after hex
  have hmade : ∃ c ∈ after Copies.step (Copies.new : Copies FactRows) copiedOver,
      c.made.map GraftSpan.target = [(210, 220), (50, 60), (110, 120)] := by decide +kernel
  obtain ⟨c, hc, hmade⟩ := hmade
  exact ⟨_, c, hrun, hc, hmade, (copy_index_exact hrun hc).1⟩

end Grmpl

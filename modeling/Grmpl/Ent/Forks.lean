import Grmpl.Ent.Backfollow
import Grmpl.Ent.ChangeFilters
import Grmpl.Ent.Context
import Grmpl.Ent.StoreReads

/-!
# Forks

The branches of a world share their nodes, the graph of branches and the history index;
everything else a store reads is its own branch's state. A fork starts from its parent's
versions and records up to an edition, and its context as it is.

* `BranchState`, `Family`, `StoreAct`, `Family.step`: the stores of a world, and what is
  done through them.
* `Happens`: what a step does.
* `forkAt_sameBelow`: a fork's history is its parent's.
* `Kept`: what every world keeps.
-/

open OrdMap Runs Contents

namespace Grmpl

/-- A branch's state with its context. -/
structure BranchState (F : Type) where
  inner : Inner F
  ctx : Context

def BranchState.empty {F : Type} : BranchState F := ⟨Inner.empty, []⟩

/-- The stores open on a world, and what its branches share: their graph, each one's
state as last staged, and the history index. -/
structure Family (F N : Type) where
  dag : Dag
  branches : List (BranchId × BranchState F)
  history : History N
  stores : List (BranchId × BranchState F)

/-- One thing done through a store. -/
inductive StoreAct where
  | commit (pre : List (RelId × Tuple)) (updates : List (RelId × Tuple × Diff))
  | instantiate (rels : List RelId) (blockLo blockHi : UInt64) (shift : Dsp)
  | consolidate (upTo : Nat)
  | putSchema (rel : RelId) (schema : Schema) (at' : Nat)
  | reshape (rel : RelId) (shape : Shape)
  | reshapeDefault (shape : Shape)
  /-- A read of a column, which may build an arrangement. -/
  | readOn (rel : RelId) (at' col : Nat) (lo hi : Value)
  | find (rel : RelId) (at' col : Nat) (keys : List Value)
  /-- A range filter asked, which registers the range. -/
  | watch (start upTo : Nat) (rel : RelId) (lo hi : Tuple)
  | fork (at' : Nat)
  /-- A merge with another open store that found the patches `todo` missing. -/
  | merge (other : Nat) (todo : List Replay)
  /-- Another store opened, on a branch. -/
  | branch (b : BranchId)

/-- One thing done in a world: through one of its stores, or to its history index. -/
inductive FamilyAct where
  | on (k : Nat) (a : StoreAct)
  | index (budget : Option Nat)

namespace BranchState

variable {F : Type} [FactReads F]

/-- Whether a relation has versions or records. -/
def written (i : Inner F) (rel : RelId) : Bool :=
  (i.roots rel).any fun r => !r.versions.isEmpty || !r.log.isEmpty

/-- The state a read leaves, which only the store keeps. -/
def read (s : BranchState F) : StoreAct → Option (BranchState F)
  | .readOn rel at' col lo hi => some { s with inner := (s.inner.readRangeOn rel at' col lo hi).1 }
  | .find rel at' col keys => some { s with inner := (s.inner.lookupRows rel at' col keys).1 }
  | .watch start upTo rel lo hi =>
      some { s with inner := (s.inner.touchedRangeSince start upTo rel lo hi).1 }
  | _ => none

/-- The state a write leaves, which is staged. -/
def write (s : BranchState F) : StoreAct → Option (BranchState F)
  | .commit pre updates =>
      if pre.all fun p => s.inner.holdsNow p.1 p.2 then
        some { s with inner := s.inner.apply (s.inner.current + 1) pre updates none }
      else some s
  | .instantiate rels blockLo blockHi shift =>
      some { s with inner := ((s.inner.graft rels blockLo blockHi shift none).toOption).getD s.inner }
  | .consolidate upTo => some { s with inner := s.inner.consolidate upTo }
  | .putSchema rel schema at' =>
      some { s with ctx := ((s.ctx.putSchema rel schema at').toOption).getD s.ctx }
  | .reshape rel shape =>
      if written s.inner rel then some s
      else some { s with inner := { s.inner with shapes := put rel shape s.inner.shapes } }
  | .reshapeDefault shape =>
      if s.inner.rels.any fun r => (lookup r.1 s.inner.shapes).isNone && written s.inner r.1 then some s
      else some { s with inner := { s.inner with shape := shape } }
  | _ => none

/-- The state of a fork as of an edition. -/
def forkAt (s : BranchState F) (at' : Nat) : BranchState F := ⟨s.inner.forkAt at', s.ctx⟩

/-- The state a merge ends in. -/
def merge (s theirs : BranchState F) (todo : List Replay) : Option (BranchState F) := do
  let ctx ← s.ctx.unite theirs.ctx
  let inner ← s.inner.merge theirs.inner todo
  return ⟨inner, ctx⟩

end BranchState

namespace Family

variable {F N : Type}

/-- A world just made, with one store open on it. -/
def new : Family F N := ⟨Dag.new, [], History.empty, [(Dag.root, .empty)]⟩

/-- Each branch's state as last staged. -/
def states (w : Family F N) (b : BranchId) : Option (Inner F) :=
  (lookup b w.branches).map BranchState.inner

/-- A store's state set and staged. -/
def stage (w : Family F N) (k : Nat) (b : BranchId) (s : BranchState F) : Family F N :=
  { w with stores := w.stores.set k (b, s), branches := put b s w.branches }

/-- A new branch with a store open on it. -/
def spawn (w : Family F N) (dag : Dag × BranchId) (s : BranchState F) : Family F N :=
  { w with
    dag := dag.1
    branches := put dag.2 s w.branches
    stores := w.stores ++ [(dag.2, s)] }

variable [FactReads F] [Parts N Dsp] [DecidableEq N] [ContentTree F N]

/-- What an action makes of the world, if the code takes it. -/
def step (w : Family F N) : FamilyAct → Option (Family F N)
  | .index budget => some { w with history := w.history.catchUp w.dag w.states budget }
  | .on k a => do
      let (b, s) ← w.stores[k]?
      match a with
      | .fork at' =>
          if at' < s.inner.watermark then none
          else some (w.spawn (w.dag.fork b at') (s.forkAt at'))
      | .merge other todo =>
          let (b', theirs) ← w.stores[other]?
          match s.merge theirs todo with
          | none => some w
          | some m => some (w.spawn (w.dag.merge b s.inner.current b' theirs.inner.current m.inner.current) m)
      | .branch b' => do
          let _ ← w.dag.get b'
          some { w with stores := w.stores ++ [(b', (lookup b' w.branches).getD .empty)] }
      | a =>
          match s.read a with
          | some s' => some { w with stores := w.stores.set k (b, s') }
          | none => (s.write a).map (w.stage k b)

/-- The versions holding some rows of a store's branch, by the index brought up to
date. -/
def backfollow (w : Family F N) (s : BranchState F) (rel : RelId) (at' : Nat) (lo hi : Tuple) :
    Result (List (Place × Nat)) :=
  if at' < s.inner.watermark then .error (door "backfollow" at' s.inner.watermark)
  else .ok (((s.inner.factAt rel at').map fun t =>
    Grmpl.backfollow (w.history.catchUp w.dag w.states none) w.dag w.states t lo hi).getD [])

end Family

/-! ## What a step does -/

section Happens

variable {F N : Type} [FactReads F] [Parts N Dsp] [DecidableEq N] [ContentTree F N]

/-- What an action does to a world. -/
inductive Happens (w : Family F N) : FamilyAct → Family F N → Prop where
  | index (budget : Option Nat) :
      Happens w (.index budget) { w with history := w.history.catchUp w.dag w.states budget }
  | read {k : Nat} {a : StoreAct} {b : BranchId} {s s' : BranchState F} :
      w.stores[k]? = some (b, s) → s.read a = some s' →
      Happens w (.on k a) { w with stores := w.stores.set k (b, s') }
  | write {k : Nat} {a : StoreAct} {b : BranchId} {s s' : BranchState F} :
      w.stores[k]? = some (b, s) → s.write a = some s' → Happens w (.on k a) (w.stage k b s')
  | fork {k at' : Nat} {b : BranchId} {s : BranchState F} :
      w.stores[k]? = some (b, s) → s.inner.watermark ≤ at' →
      Happens w (.on k (.fork at')) (w.spawn (w.dag.fork b at') (s.forkAt at'))
  | conflict {k other : Nat} {todo : List Replay} : Happens w (.on k (.merge other todo)) w
  | merge {k other : Nat} {todo : List Replay} {b b' : BranchId} {s theirs m : BranchState F} :
      w.stores[k]? = some (b, s) → w.stores[other]? = some (b', theirs) →
      s.merge theirs todo = some m → Happens w (.on k (.merge other todo))
        (w.spawn (w.dag.merge b s.inner.current b' theirs.inner.current m.inner.current) m)
  | branch {k : Nat} {b' : BranchId} {r : Branch} : w.dag.get b' = some r →
      Happens w (.on k (.branch b'))
        { w with stores := w.stores ++ [(b', (lookup b' w.branches).getD .empty)] }

theorem happens_of_step {w w' : Family F N} {a : FamilyAct} (h : w.step a = some w') : Happens w a w' := by
  cases a with
  | index budget =>
    cases h
    exact .index budget
  | on k a =>
    obtain ⟨⟨b, s⟩, hk, h⟩ := Option.bind_eq_some_iff.1 h
    have hwrite : ∀ a : StoreAct, s.read a = none → (s.write a).map (w.stage k b) = some w' →
        Happens w (.on k a) w' := by
      intro a _ ha
      obtain ⟨s', hs', rfl⟩ := Option.map_eq_some_iff.1 ha
      exact .write hk hs'
    cases a with
    | fork at' =>
      dsimp only at h
      split_ifs at h with hw
      cases h
      exact .fork hk (not_lt.1 hw)
    | merge other todo =>
      obtain ⟨⟨b', theirs⟩, ho, h⟩ := Option.bind_eq_some_iff.1 h
      dsimp only at h
      split at h
      · cases h
        exact .conflict
      · rename_i m hm
        cases h
        exact .merge hk ho hm
    | branch b' =>
      obtain ⟨r, hr, h⟩ := Option.bind_eq_some_iff.1 h
      cases h
      exact .branch hr
    | commit pre updates => exact hwrite _ rfl h
    | instantiate rels lo hi shift => exact hwrite _ rfl h
    | consolidate upTo => exact hwrite _ rfl h
    | putSchema rel schema at' => exact hwrite _ rfl h
    | reshape rel shape => exact hwrite _ rfl h
    | reshapeDefault shape => exact hwrite _ rfl h
    | readOn rel at' col lo hi =>
      cases h
      exact .read hk rfl
    | find rel at' col keys =>
      cases h
      exact .read hk rfl
    | watch start upTo rel lo hi =>
      cases h
      exact .read hk rfl

end Happens

/-! ## One entry a relation -/

section Sorted

variable {F : Type} [FactReads F] {i j : Inner F}

namespace Inner

omit [FactReads F] in
theorem sorted_put (h : Sorted i.rels) (rel : RelId) (r : RelRoots F) : Sorted (i.put rel r).rels :=
  OrdMap.sorted_put h

theorem sorted_apply (h : Sorted i.rels) (e : Nat) (pre : List (RelId × Tuple))
    (updates : List (RelId × Tuple × Diff)) (origin : Origin) :
    Sorted (i.apply e pre updates origin).rels := by
  have hone : ∀ (us : List ((RelId × Tuple × Diff) × Nat)) (j : Inner F), Sorted j.rels →
      Sorted (us.foldl (applyOne e) j).rels := by
    intro us
    induction us with
    | nil => exact fun _ hj => hj
    | cons u us ih => exact fun j hj => ih _ (sorted_put (sorted_put hj _ _) _ _)
  rw [apply, (route_rels _ _ _).1]
  exact hone _ _ h

theorem sorted_graft {rels : List RelId} {lo hi : UInt64} {shift : Dsp} {origin : Origin}
    (h : Sorted i.rels) (hg : i.graft rels lo hi shift origin = .ok j) : Sorted j.rels := by
  have hone : ∀ (e : Nat) (a b : Tuple) (gs : List (RelId × F)) (k : Inner F), Sorted k.rels →
      Sorted (gs.foldl (applyGraft e a b) k).rels := by
    intro e a b gs
    induction gs with
    | nil => exact fun _ hk => hk
    | cons g gs ih =>
      intro k hk
      refine ih _ ?_
      unfold applyGraft
      dsimp only
      split_ifs
      · exact sorted_put hk _ _
      · exact sorted_put hk _ _
  obtain ⟨grafts, -, hg⟩ := bind_ok hg
  cases hg
  exact hone _ _ _ _ _ h

omit [FactReads F] in
theorem sorted_forkAt (h : Sorted i.rels) (at' : Nat) : Sorted (i.forkAt at').rels := by
  unfold forkAt
  split_ifs
  · exact h
  · refine List.Pairwise.filterMap _ (fun a b hab a' ha' b' hb' => ?_) h
    dsimp only at ha' hb'
    split_ifs at ha' hb'
    cases ha'
    cases hb'
    exact hab

omit [FactReads F] in
theorem sorted_consolidate (h : Sorted i.rels) (upTo : Nat) : Sorted (i.consolidate upTo).rels := by
  unfold consolidate
  dsimp only
  split
  · exact h
  · exact List.pairwise_map.2 h

theorem sorted_merge {theirs : Inner F} {todo : List Replay} (h : Sorted i.rels)
    (hm : i.merge theirs todo = some j) : Sorted j.rels :=
  merge_keeps (I := fun k : Inner F => Sorted k.rels) (fun _ _ h => h) (fun _ _ _ _ h => sorted_apply h _ _ _ _)
    (fun _ _ _ _ _ _ _ h hg => sorted_graft h hg) h hm

theorem sorted_ensureOrder (h : Sorted i.rels) (rel : RelId) (col : Nat) :
    Sorted (i.ensureOrder rel col).rels := by
  unfold ensureOrder
  split
  · exact h
  · split_ifs
    · exact h
    · exact sorted_put h _ _

theorem sorted_readRangeOn (h : Sorted i.rels) (rel : RelId) (at' col : Nat) (lo hi : Value) :
    Sorted (i.readRangeOn rel at' col lo hi).1.rels := by
  unfold readRangeOn
  split_ifs
  · exact h
  · exact h
  · exact h
  · split <;> exact h
  · dsimp only
    split <;> exact sorted_ensureOrder h rel col

theorem sorted_lookupRows (h : Sorted i.rels) (rel : RelId) (at' col : Nat) (keys : List Value) :
    Sorted (i.lookupRows rel at' col keys).1.rels := by
  unfold lookupRows
  dsimp only
  split
  · exact h
  · split
    · exact h
    · split_ifs
      · exact h
      · exact h
      · split <;> exact sorted_ensureOrder h rel col
      · exact h

omit [FactReads F] in
theorem sorted_touchedRangeSince (h : Sorted i.rels) (start upTo : Nat) (rel : RelId)
    (lo hi : Tuple) : Sorted (i.touchedRangeSince start upTo rel lo hi).1.rels := by
  have hask : (i.interest rel lo hi).1.rels = i.rels := by
    unfold interest
    dsimp only
    split <;> rfl
  unfold touchedRangeSince
  dsimp only
  split_ifs
  · exact h
  all_goals
    dsimp only
    rw [hask]
    exact h

/-- An arrangement asked for leaves the edition as it is. -/
theorem ensureOrder_current (i : Inner F) (rel : RelId) (col : Nat) :
    (i.ensureOrder rel col).current = i.current := by
  unfold ensureOrder
  split
  · rfl
  · split_ifs <;> rfl

theorem readRangeOn_current (i : Inner F) (rel : RelId) (at' col : Nat) (lo hi : Value) :
    (i.readRangeOn rel at' col lo hi).1.current = i.current := by
  unfold readRangeOn
  split_ifs
  · rfl
  · rfl
  · rfl
  · split <;> rfl
  · dsimp only
    split <;> exact ensureOrder_current i rel col

theorem lookupRows_current (i : Inner F) (rel : RelId) (at' col : Nat) (keys : List Value) :
    (i.lookupRows rel at' col keys).1.current = i.current := by
  unfold lookupRows
  dsimp only
  split
  · rfl
  · split
    · rfl
    · split_ifs
      · rfl
      · rfl
      · split <;> exact ensureOrder_current i rel col
      · rfl

end Inner

namespace BranchState

variable {s s' : BranchState F} {a : StoreAct}

/-- A read keeps the relations apart and the edition as it is. -/
theorem read_keeps (h : s.read a = some s') (hs : Sorted s.inner.rels) :
    Sorted s'.inner.rels ∧ s'.inner.current = s.inner.current := by
  cases a <;> cases h
  · exact ⟨Inner.sorted_readRangeOn hs _ _ _ _ _, Inner.readRangeOn_current _ _ _ _ _ _⟩
  · exact ⟨Inner.sorted_lookupRows hs _ _ _ _, Inner.lookupRows_current _ _ _ _ _⟩
  · exact ⟨Inner.sorted_touchedRangeSince hs _ _ _ _ _, Inner.touchedRangeSince_current _ _ _ _ _ _⟩

/-- A write keeps the relations apart and never takes the edition back. -/
theorem write_keeps (h : s.write a = some s') (hs : Sorted s.inner.rels) :
    Sorted s'.inner.rels ∧ s.inner.current ≤ s'.inner.current := by
  cases a with
  | commit pre updates =>
    simp only [write] at h
    split_ifs at h <;> cases h
    · exact ⟨Inner.sorted_apply hs _ _ _ _, Nat.le_succ _⟩
    · exact ⟨hs, le_rfl⟩
  | instantiate rels lo hi shift =>
    cases h
    cases hg : s.inner.graft rels lo hi shift none with
    | error e => exact ⟨hs, le_rfl⟩
    | ok j =>
      refine ⟨Inner.sorted_graft hs hg, ?_⟩
      show s.inner.current ≤ j.current
      rw [Inner.graft_current hg]
      exact Nat.le_succ _
  | consolidate upTo =>
    cases h
    refine ⟨Inner.sorted_consolidate hs upTo, ?_⟩
    show s.inner.current ≤ (s.inner.consolidate upTo).current
    unfold Inner.consolidate
    dsimp only
    split <;> exact le_rfl
  | putSchema rel schema at' =>
    cases h
    exact ⟨hs, le_rfl⟩
  | reshape rel shape =>
    simp only [write] at h
    split_ifs at h <;> cases h <;> exact ⟨hs, le_rfl⟩
  | reshapeDefault shape =>
    simp only [write] at h
    split_ifs at h <;> cases h <;> exact ⟨hs, le_rfl⟩
  | _ => cases h

theorem merge_sorted {theirs m : BranchState F} {todo : List Replay}
    (h : s.merge theirs todo = some m) (hs : Sorted s.inner.rels) : Sorted m.inner.rels := by
  obtain ⟨ctx, -, h⟩ := Option.bind_eq_some_iff.1 h
  obtain ⟨inner, hm, h⟩ := Option.bind_eq_some_iff.1 h
  cases h
  exact Inner.sorted_merge hs hm

end BranchState

end Sorted

/-! ## What a fork answers -/

section Fork

variable {F : Type} {i : Inner F} {at' : Nat}

namespace Inner

/-- A fork into the past has of each relation what was there by then. -/
theorem forkAt_rootsOr (h : Sorted i.rels) (hne : at' ≠ i.current) (rel : RelId) :
    (i.forkAt at').rootsOr rel = ⟨(i.rootsOr rel).versions.filter fun v => v.1 ≤ at',
      (i.rootsOr rel).log.filter fun l => (ofLex l.1).1 ≤ at', []⟩ := by
  have hs := sorted_forkAt h at'
  rw [rootsOr, rootsOr, roots, roots]
  unfold forkAt at hs ⊢
  rw [if_neg hne] at hs ⊢
  cases hl : lookup rel i.rels with
  | none =>
    rw [lookup_absent]
    · rfl
    · intro e he
      obtain ⟨r, hr, heq⟩ := List.mem_filterMap.1 he
      dsimp only at heq
      split_ifs at heq
      cases heq
      rintro rfl
      rw [lookup_of_mem h hr] at hl
      cases hl
  | some r =>
    have hmem := mem_of_lookup hl
    dsimp only [Option.getD_some]
    by_cases hempty : ((r.versions.filter fun v => v.1 ≤ at').isEmpty &&
        (r.log.filter fun l => (ofLex l.1).1 ≤ at').isEmpty) = true
    · rw [lookup_absent]
      · rw [Bool.and_eq_true, List.isEmpty_iff, List.isEmpty_iff] at hempty
        rw [hempty.1, hempty.2]
        rfl
      · intro e he
        obtain ⟨r', hr', heq⟩ := List.mem_filterMap.1 he
        split_ifs at heq with hkeep
        cases heq
        rintro rfl
        obtain rfl := Option.some.inj ((lookup_of_mem h hr').symm.trans hl)
        exact hkeep hempty
    · rw [lookup_of_mem hs]
      · rfl
      · exact List.mem_filterMap.2 ⟨_, hmem, by dsimp only; rw [if_neg hempty]⟩

/-- **A fork's history is its parent's**, up to the edition it was taken at. -/
theorem forkAt_sameBelow (h : Sorted i.rels) (at' : Nat) : SameBelow (at' + 1) i (i.forkAt at') := by
  refine ⟨rfl, fun rel => ?_⟩
  by_cases hne : at' = i.current
  · have hroots : (i.forkAt at').rootsOr rel = i.rootsOr rel := by
      rw [rootsOr, roots, forkAt, if_pos hne]
      rfl
    rw [hroots]
    exact RelRoots.SameBelow.refl _ _
  · rw [forkAt_rootsOr h hne]
    constructor
    · rw [List.filter_filter]
      exact List.filter_congr fun v _ => by simp
    · rw [List.filter_filter]
      exact List.filter_congr fun l _ => by simp

/-- Two states that agree below an edition read each edition before it alike, but for
the present of one of them. -/
theorem SameBelow.readsAlike {e : Nat} {j : Inner F} (h : SameBelow e i j) {rel : RelId}
    (hat : at' < e) (hlay : j.layoutOf rel = i.layoutOf rel) (col : Nat)
    (hplace : (at' ≠ i.current ∧ at' ≠ j.current) ∨ (j.current = i.current ∧ j.roots rel = i.roots rel) ∨
      col = 0 ∨ i.layoutOf rel = .kd) : ReadsAlike i j rel at' col :=
  ⟨h.1, h.factAt hat rel, hlay, hplace⟩

end Inner

end Fork

/-! ## Worlds -/

section World

variable {F N : Type} [FactReads F] [Parts N Dsp] [DecidableEq N] [ContentTree F N]
  {w w' : Family F N} {a : FamilyAct} {b : BranchId}

/-- What every world keeps: branches numbered in order, every state's relations apart,
and a sound index. -/
structure Kept (w : Family F N) : Prop where
  dag : w.dag.Numbered
  ids : ∀ b < w.dag.next, b ∈ w.dag.branches.map Prod.fst
  stores : ∀ x ∈ w.stores, x.1 < w.dag.next ∧ Sorted x.2.inner.rels
  branches : ∀ x ∈ w.branches, x.1 < w.dag.next ∧ Sorted x.2.inner.rels
  history : w.history.Sound

omit [FactReads F] [DecidableEq N] [ContentTree F N] in
theorem kept_new : Kept (Family.new : Family F N) := by
  refine ⟨fun c hc => ?_, fun b hb => ?_, fun x hx => ?_, fun x hx => absurd hx (by simp [Family.new]),
    History.sound_empty⟩
  · obtain rfl := List.mem_singleton.1 hc
    exact ⟨Nat.one_pos, fun p hp => absurd hp (by simp)⟩
  · obtain rfl := Nat.lt_one_iff.1 hb
    exact List.mem_singleton.2 rfl
  · obtain rfl := List.mem_singleton.1 hx
    exact ⟨Nat.one_pos, .nil⟩

omit [FactReads F] [DecidableEq N] [ContentTree F N] in
/-- A branch numbered next, with a store open on it. -/
theorem Kept.spawn (h : Kept w) {r : Branch} (hr : ∀ p ∈ r.parent, p.1 < w.dag.next)
    {s : BranchState F} (hs : Sorted s.inner.rels) :
    Kept (w.spawn (⟨put w.dag.next r w.dag.branches, w.dag.next + 1⟩, w.dag.next) s) ∧
      w.dag.Extends ⟨put w.dag.next r w.dag.branches, w.dag.next + 1⟩ := by
  obtain ⟨hnum, hext⟩ := h.dag.add hr
  refine ⟨⟨hnum, fun b hb => ?_, fun x hx => ?_, fun x hx => ?_, h.history⟩, hext⟩
  · obtain ⟨new, hbr, -⟩ := hext.branches
    rcases Nat.lt_succ_iff_lt_or_eq.1 hb with hb | rfl
    · dsimp only [Family.spawn] at hbr ⊢
      rw [hbr, List.map_append]
      exact List.mem_append_left _ (h.ids b hb)
    · exact List.mem_map.2 ⟨_, mem_of_lookup (lookup_put_self _ r _), rfl⟩
  · rcases List.mem_append.1 hx with hx | hx
    · exact ⟨Nat.lt_succ_of_lt (h.stores x hx).1, (h.stores x hx).2⟩
    · obtain rfl := List.mem_singleton.1 hx
      exact ⟨Nat.lt_succ_self _, hs⟩
  · rcases mem_put hx with rfl | hx
    · exact ⟨Nat.lt_succ_self _, hs⟩
    · exact ⟨Nat.lt_succ_of_lt (h.branches x hx).1, (h.branches x hx).2⟩

theorem Kept.step (h : Kept w) (hst : w.step a = some w') : Kept w' ∧ w.dag.Extends w'.dag := by
  have hstore : ∀ {k : Nat} {b : BranchId} {s : BranchState F}, w.stores[k]? = some (b, s) →
      b < w.dag.next ∧ Sorted s.inner.rels := fun hk => h.stores _ (List.mem_of_getElem? hk)
  have hset : ∀ {k : Nat} {b : BranchId} {s s' : BranchState F}, w.stores[k]? = some (b, s) →
      Sorted s'.inner.rels → ∀ x ∈ w.stores.set k (b, s'), x.1 < w.dag.next ∧ Sorted x.2.inner.rels := by
    intro k b s s' hk hs' x hx
    rcases List.mem_or_eq_of_mem_set hx with hx | rfl
    · exact h.stores x hx
    · exact ⟨(hstore hk).1, hs'⟩
  cases happens_of_step hst with
  | index budget =>
    exact ⟨⟨h.dag, h.ids, h.stores, h.branches, (h.history.catchUp _ _ _).adds.sound⟩, .refl _⟩
  | read hk hr =>
    have hs := (BranchState.read_keeps hr (hstore hk).2).1
    exact ⟨⟨h.dag, h.ids, hset hk hs, h.branches, h.history⟩, .refl _⟩
  | write hk hr =>
    have hs := (BranchState.write_keeps hr (hstore hk).2).1
    refine ⟨⟨h.dag, h.ids, hset hk hs, fun x hx => ?_, h.history⟩, .refl _⟩
    rcases mem_put hx with rfl | hx
    · exact ⟨(hstore hk).1, hs⟩
    · exact h.branches x hx
  | fork hk _ =>
    refine h.spawn (fun p hp => ?_) (Inner.sorted_forkAt (hstore hk).2 _)
    obtain rfl := Option.some.inj hp
    exact (hstore hk).1
  | conflict => exact ⟨h, .refl _⟩
  | merge hk _ hm =>
    refine h.spawn (fun p hp => ?_) (BranchState.merge_sorted hm (hstore hk).2)
    obtain rfl := Option.some.inj hp
    exact (hstore hk).1
  | @branch k b' r hr =>
    refine ⟨⟨h.dag, h.ids, fun x hx => ?_, h.branches, h.history⟩, .refl _⟩
    rcases List.mem_append.1 hx with hx | hx
    · exact h.stores x hx
    · obtain rfl := List.mem_singleton.1 hx
      refine ⟨(h.dag _ (mem_of_lookup hr)).1, ?_⟩
      dsimp only
      cases hl : lookup b' w.branches with
      | none => exact .nil
      | some s => exact (h.branches _ (mem_of_lookup hl)).2

theorem kept_run (h : Run Family.step Any (Family.new : Family F N) w) : Kept w :=
  h.invariant kept_new fun _ _ _ hs _ hst => (hs.step hst).1

end World

end Grmpl

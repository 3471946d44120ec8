import Grmpl.Proc.Derived
import Grmpl.Proc.Mailroom

/-!
# Collecting history

A collection reads the cursors of watches and materializations and then has the store
fold away the history up to the oldest of them. Between the two anyone may commit.

* `minWatchCursor`: the code.
* `Collecting`, `Collecting.step`: appenders, refreshes and collections of one store.
* `watches_pumpable`: where an installed cursor is no older than what has been folded
  away, or is about to be, every cursor can be read from.
* `watch_stranded`: a watch of the whole view, installed after a collection.
-/

open OrdMap Runs

namespace Grmpl

/-- The edition a cursor row records, whoever's it is. -/
def frontier (t : Tuple) : Option Nat :=
  match t.cells[1]? with
  | some (Value.int e) => some (max e.toInt 0).toNat
  | _ => none

/-- The oldest edition a cursor of the relations records. -/
def minWatchCursor (store : TraceStore) (cursorRels : List RelId) : Result (Option Nat) := do
  let frontiers ← cursorRels.mapM fun rel => do
    let rows ← store.readAt rel store.current
    return (rows.filter fun r => 0 < r.2).filterMap fun r => frontier r.1
  return frontiers.flatten.min?

/-- How far history may be folded away: as asked, but not past a cursor. -/
def horizon (store : TraceStore) (cursorRels : List RelId) (upTo : Nat) : Result Nat := do
  match ← minWatchCursor store cursorRels with
  | some cursor => return min upTo cursor
  | none => return upTo

/-- What a refresh or a collection is in the middle of. -/
inductive Upkeep where
  | idle
  /-- A materialization has read its cursor. -/
  | positioned (view : Materialized) (start : Nat)
  /-- It has the patch it will commit. -/
  | folded (view : Materialized) (patch : Patch)
  /-- A collection knows how far it may go. -/
  | floored (floor : Nat)

/-- The appenders of a store, and its refreshes and collections. -/
structure Collecting where
  room : Mailroom
  upkeep : List Upkeep

namespace Collecting

/-- What is done between two reads or commits. -/
inductive Act where
  | append (a : Mailroom.Act)
  | install (view : Materialized)
  | cursor (k : Nat) (view : Materialized)
  | fold (k : Nat)
  | commit (k : Nat)
  | horizon (k : Nat) (cursorRels : List RelId) (upTo : Nat)
  | consolidate (k : Nat)
  | crash (k : Nat)

def setUpkeep (w : Collecting) (k : Nat) (x : Upkeep) : Collecting := { w with upkeep := w.upkeep.set k x }

def setStore (w : Collecting) (store : TraceStore) : Collecting := { w with room := { w.room with store } }

/-- What the code does next, if it can; an error gives the errand up. -/
def step (schemas : SchemaCatalog) (w : Collecting) : Act → Option Collecting
  | .append a => (w.room.step schemas a).map fun room => { w with room }
  | .install view => match view.install w.room.store schemas with
      | .ok (store, _) => some (w.setStore store)
      | .error _ => some w
  | .cursor k view =>
      match w.upkeep[k]? with
      | some .idle => match view.cursor w.room.store with
        | .ok (some start) => some (w.setUpkeep k (.positioned view start))
        | _ => some w
      | _ => none
  | .fold k =>
      match w.upkeep[k]? with
      | some (.positioned view start) => match view.fold w.room.store start with
        | .ok (some patch) => some (w.setUpkeep k (.folded view patch))
        | _ => some (w.setUpkeep k .idle)
      | _ => none
  | .commit k =>
      match w.upkeep[k]? with
      | some (.folded view patch) => match commitPatch w.room.store schemas patch view.authority with
        | .ok (store, _) => some ((w.setStore store).setUpkeep k .idle)
        | .error _ => some (w.setUpkeep k .idle)
      | _ => none
  | .horizon k cursorRels upTo =>
      match w.upkeep[k]? with
      | some .idle => match Grmpl.horizon w.room.store cursorRels upTo with
        | .ok floor => some (w.setUpkeep k (.floored floor))
        | .error _ => some w
      | _ => none
  | .consolidate k =>
      match w.upkeep[k]? with
      | some (.floored floor) => some ((w.setStore (w.room.store.consolidate floor)).setUpkeep k .idle)
      | _ => none
  | .crash k => some (w.setUpkeep k .idle)

/-- Nothing from an edition on has been folded away, or is about to be. -/
def Clear (w : Collecting) (e : Nat) : Prop :=
  w.room.store.watermark ≤ e ∧ ∀ x ∈ w.upkeep, match x with
    | .floored floor => floor ≤ e
    | _ => True

/-- Updates put no cursor where history may be gone. -/
def ClearOf (rels : List RelId) (w : Collecting) (updates : List (RelId × Tuple × Diff)) : Prop :=
  ∀ u ∈ updates, u.1 ∈ rels → ∀ e ∈ frontier u.2.1, w.Clear e

/-- A cursor is installed where no history is gone, or is about to go; collections name
all the cursor relations; nobody but watches and materializations writes them; and the
editions fit a cursor row. -/
def KeepsFrontier (rels : List RelId) (w : Collecting) : Act → Prop
  | .append (.batch _) => w.room.store.current < 2 ^ 63
  | .append (.commit a) => match w.room.appenders[a]? with
      | some (.drafted d) => d.append.inbox ∉ rels ∧ d.alloc.rel ∉ rels
      | some (.seeding s) => s.alloc.rel ∉ rels ∧ w.ClearOf rels s.base.updates
      | _ => True
  | .append (.enqueue inbox _ _ _) => inbox ∉ rels
  | .append (.deliver m seen sender seq) => ∀ u ∈ m.arrival seen sender seq, u.1 ∉ rels
  | .append (.other updates) => ∀ u ∈ updates, u.1 ∉ rels
  | .install view => view.cursorRel ∈ rels → w.Clear 0
  | .fold k => w.room.store.current < 2 ^ 63 ∧ match w.upkeep[k]? with
      | some (.positioned view _) => view.into ∉ rels
      | _ => True
  | .horizon _ cursorRels _ => ∀ rel ∈ rels, rel ∈ cursorRels
  | _ => True

instance (w : Collecting) (e : Nat) : Decidable (w.Clear e) := by
  unfold Clear
  have : ∀ x : Upkeep, Decidable (match x with
      | .floored floor => floor ≤ e
      | _ => True) := fun x => by
    cases x <;> infer_instance
  infer_instance

instance (rels : List RelId) (w : Collecting) (updates : List (RelId × Tuple × Diff)) :
    Decidable (w.ClearOf rels updates) :=
  inferInstanceAs (Decidable (∀ u ∈ updates, u.1 ∈ rels → ∀ e ∈ frontier u.2.1, w.Clear e))

instance (rels : List RelId) (w : Collecting) : (a : Act) → Decidable (KeepsFrontier rels w a)
  | .append (.batch _) => inferInstanceAs (Decidable (w.room.store.current < 2 ^ 63))
  | .append (.commit a) => show Decidable (match w.room.appenders[a]? with
      | some (.drafted d) => d.append.inbox ∉ rels ∧ d.alloc.rel ∉ rels
      | some (.seeding s) => s.alloc.rel ∉ rels ∧ w.ClearOf rels s.base.updates
      | _ => True) from match w.room.appenders[a]? with
        | some (.drafted d) => inferInstanceAs (Decidable (d.append.inbox ∉ rels ∧ d.alloc.rel ∉ rels))
        | some (.seeding s) => inferInstanceAs (Decidable (s.alloc.rel ∉ rels ∧ w.ClearOf rels s.base.updates))
        | some .idle | some (.positioned ..) | some (.ready _) | none => .isTrue trivial
  | .append (.enqueue inbox _ _ _) => inferInstanceAs (Decidable (inbox ∉ rels))
  | .append (.deliver m seen sender seq) =>
      inferInstanceAs (Decidable (∀ u ∈ m.arrival seen sender seq, u.1 ∉ rels))
  | .append (.other updates) => inferInstanceAs (Decidable (∀ u ∈ updates, u.1 ∉ rels))
  | .install view => inferInstanceAs (Decidable (view.cursorRel ∈ rels → w.Clear 0))
  | .fold k => show Decidable (w.room.store.current < 2 ^ 63 ∧ match w.upkeep[k]? with
      | some (.positioned view _) => view.into ∉ rels
      | _ => True) from @instDecidableAnd _ _ _ (match w.upkeep[k]? with
        | some (.positioned view _) => inferInstanceAs (Decidable (view.into ∉ rels))
        | some .idle | some (.folded ..) | some (.floored _) | none => .isTrue trivial)
  | .horizon _ cursorRels _ => inferInstanceAs (Decidable (∀ rel ∈ rels, rel ∈ cursorRels))
  | .append (.enqueueSeq ..) | .append (.fire ..) | .append (.cursor ..) | .append (.draw _)
  | .append (.seedSeq ..) | .append (.install ..) | .append (.crash _) | .cursor .. | .commit _
  | .consolidate _ | .crash _ => .isTrue trivial

/-- Collections name all the cursor relations, and nobody but watches and
materializations writes them. -/
def NamesAll (rels : List RelId) (_ : Collecting) : Act → Prop
  | .append (.other updates) => ∀ u ∈ updates, u.1 ∉ rels
  | .horizon _ cursorRels _ => ∀ rel ∈ rels, rel ∈ cursorRels
  | _ => True

instance (rels : List RelId) (w : Collecting) : (a : Act) → Decidable (NamesAll rels w a)
  | .append (.other updates) => inferInstanceAs (Decidable (∀ u ∈ updates, u.1 ∉ rels))
  | .horizon _ cursorRels _ => inferInstanceAs (Decidable (∀ rel ∈ rels, rel ∈ cursorRels))
  | .append (.enqueueSeq ..) | .append (.fire ..) | .append (.cursor ..) | .append (.batch _)
  | .append (.draw _) | .append (.seedSeq ..) | .append (.install ..) | .append (.commit _)
  | .append (.crash _) | .append (.enqueue ..) | .append (.deliver ..) | .install _ | .cursor .. | .fold _
  | .commit _ | .consolidate _ | .crash _ => .isTrue trivial

/-! ## What is known of a cursor -/

/-- A patch puts in no cursor older than one it requires. -/
def Forward (rels : List RelId) (p : Patch) : Prop :=
  ∀ rel ∈ rels, ∀ t, 0 < netOn rel t p.updates → ∀ e, frontier t = some e →
    ∃ f ∈ p.preconditions, f.rel ∈ rels ∧ ∃ e' ≤ e, frontier f.tuple = some e'

/-- What an appender is about to commit moves cursors forward. -/
def PhaseForward (rels : List RelId) : Phase → Prop
  | .ready x => Forward rels x.base
  | .drafted d => Forward rels d.append.base
  | _ => True

/-- Every cursor is where no history is gone, or is about to go, and what is about to be
committed moves cursors forward. -/
structure Ahead (rels : List RelId) (w : Collecting) : Prop where
  clear : ∀ rel ∈ rels, ∀ t, 0 < w.room.store.weight rel t → ∀ e, frontier t = some e → w.Clear e
  phases : ∀ x ∈ w.room.appenders, PhaseForward rels x
  folds : ∀ view patch, Upkeep.folded view patch ∈ w.upkeep → Forward rels patch

theorem frontier_cursor {e : Nat} (h : e < 2 ^ 63) (key : Entity) :
    frontier ⟨[.ent key, .int (Int64.ofNat e)]⟩ = some e := by
  show some (max (Int64.ofNat e).toInt 0).toNat = some e
  rw [Int64.toInt_ofNat_of_lt h]
  simp

/-- The guarded move of a cursor to a later edition. -/
theorem forward_advance {rels : List RelId} {rel : RelId} {key : Entity} {start upTo : Nat}
    (hlt : start < upTo) (hroom : upTo < 2 ^ 63) :
    Forward rels ((Patch.new.expect ⟨rel, ⟨[.ent key, .int (Int64.ofNat start)]⟩⟩).advanceCursor
      ⟨rel, some ⟨[.ent key, .int (Int64.ofNat start)]⟩, ⟨[.ent key, .int (Int64.ofNat upTo)]⟩⟩) := by
  intro rel' hrel t hnet e he
  obtain ⟨u, hu, rfl, rfl, hpos⟩ := exists_pos_of_netOn_pos hnet
  -- of the two updates of the move, the one that puts a row in
  have hupdate : u = (rel, ⟨[.ent key, .int (Int64.ofNat upTo)]⟩, 1) := by
    have hcases : u = (rel, ⟨[.ent key, .int (Int64.ofNat start)]⟩, -1) ∨
        u = (rel, ⟨[.ent key, .int (Int64.ofNat upTo)]⟩, 1) := by
      simpa [Patch.updates, Patch.emitted, Patch.advanceCursor, Patch.expect, Patch.new,
        CursorMove.updates] using hu
    refine hcases.resolve_left fun hu => ?_
    rw [hu] at hpos
    exact absurd hpos (show ¬ (0 : Diff) < -1 by decide)
  subst hupdate
  rw [frontier_cursor hroom] at he
  cases he
  exact ⟨_, List.mem_singleton_self _, hrel, start, hlt.le, frontier_cursor (hlt.trans hroom) key⟩

/-- Adding to a patch elsewhere, with guards, keeps it forward. -/
theorem Forward.grow {rels : List RelId} {p p' : Patch} (h : Forward rels p)
    (hpre : p.preconditions ⊆ p'.preconditions)
    (hnet : ∀ rel ∈ rels, ∀ t, netOn rel t p'.updates = netOn rel t p.updates) : Forward rels p' := by
  intro rel hrel t hpos e he
  rw [hnet rel hrel t] at hpos
  obtain ⟨f, hf, hfrel, hfe⟩ := h rel hrel t hpos e he
  exact ⟨f, hpre hf, hfrel, hfe⟩

theorem forward_batch {rels : List RelId} {watch : OnWatch} {store : TraceStore} {start : Nat} {x : Append}
    (hroom : store.current < 2 ^ 63) (h : watch.batch store start = .ok (some x)) :
    Forward rels x.base := by
  unfold OnWatch.batch at h
  dsimp only at h
  split at h
  · cases h
  · rename_i hle
    obtain ⟨quiet, -, h⟩ := bind_ok h
    cases quiet
    · obtain ⟨rows, -, h⟩ := bind_ok h
      split at h
      · cases h
      · cases h
        exact forward_advance (not_le.1 hle) hroom
    · cases h

theorem forward_fireOne {rels : List RelId} {s : Scheduler} {store : TraceStore} {row : Tuple} {x : Append}
    (h : s.fireOne store row = .ok (some x)) : Forward rels x.base := by
  unfold Scheduler.fireOne at h
  obtain ⟨⟨due, inbox, target, body⟩, -, h⟩ := bind_ok h
  obtain ⟨live, -, h⟩ := bind_ok h
  cases live
  · cases h
  · cases h
    intro rel hrel t hpos
    rw [netOn_retract, updates_expect] at hpos
    split_ifs at hpos
    · exact absurd hpos (by simp [Patch.updates, Patch.emitted, Patch.new])
    · exact absurd hpos (by simp [Patch.updates, Patch.emitted, Patch.new])

/-- Rows folded in elsewhere than the cursors. -/
theorem forward_foldl {rels : List RelId} {view : Materialized} (hinto : view.into ∉ rels) :
    ∀ (rows : List (Tuple × Diff)) {p : Patch}, Forward rels p → Forward rels (rows.foldl view.foldRow p) := by
  have hone : ∀ (row : Tuple × Diff) (n : Nat) (p : Patch), Forward rels p → Forward rels
      ((fun p : Patch => if 0 < row.2 then p.assert ⟨view.into, row.1⟩
        else p.retract ⟨view.into, row.1⟩)^[n] p) := by
    intro row n
    induction n with
    | zero => exact fun _ h => h
    | succ n ih =>
      intro p h
      refine ih _ (h.grow ?_ fun rel hrel t => ?_)
      · split <;> exact List.Subset.refl _
      · have hne : view.into ≠ rel := fun heq => hinto (heq ▸ hrel)
        split <;> simp [hne]
  intro rows
  induction rows with
  | nil => exact fun h => h
  | cons row rows ih => exact fun h => ih (hone row _ _ h)

theorem forward_fold {rels : List RelId} {view : Materialized} {store : TraceStore} {start : Nat} {patch : Patch}
    (hroom : store.current < 2 ^ 63) (hinto : view.into ∉ rels)
    (h : view.fold store start = .ok (some patch)) : Forward rels patch := by
  unfold Materialized.fold at h
  dsimp only at h
  split at h
  · cases h
  · rename_i hle
    obtain ⟨quiet, -, h⟩ := bind_ok h
    cases quiet
    · obtain ⟨rows, -, h⟩ := bind_ok h
      cases h
      exact forward_foldl hinto rows (forward_advance (not_le.1 hle) hroom)
    · cases h

/-- What a draft adds to its appender's patch are its rows and its counter's. -/
theorem forward_draft {rels : List RelId} {d : Draft} (hinbox : d.append.inbox ∉ rels)
    (hseqs : d.alloc.rel ∉ rels) (h : Forward rels d.append.base) : Forward rels d.patch := by
  refine h.grow d.preconditions_base fun rel hrel t => ?_
  exact d.netOn_elsewhere (fun heq => hinbox (heq ▸ hrel)) (fun heq => hseqs (heq ▸ hrel)) t

section Steps

variable {rels : List RelId} {schemas : SchemaCatalog} {w w' : Collecting} {a : Act}

/-- A later edition is clear too. -/
theorem Clear.mono {e e' : Nat} (h : w.Clear e) (hle : e ≤ e') : w.Clear e' := by
  refine ⟨h.1.trans hle, fun x hx => ?_⟩
  have hx := h.2 x hx
  cases x with
  | floored floor => exact hx.trans hle
  | _ => trivial

/-- A row with weight after a commit had it before, or was put in. -/
theorem pos_weight_commit {store : TraceStore} {updates : List (RelId × Tuple × Diff)} {rel : RelId}
    {t : Tuple} (h : 0 < (store.commit updates).weight rel t) :
    0 < store.weight rel t ∨ 0 < netOn rel t updates := by
  rw [TraceStore.weight_commit] at h
  by_contra hnot
  rw [not_or, not_lt, not_lt] at hnot
  exact absurd h (not_lt.2 (add_nonpos hnot.1 hnot.2))

/-- A commit whose guard held and that moves cursors forward. -/
theorem Ahead.commit (h : Ahead rels w) {patch : Patch} (hpatch : Forward rels patch)
    (hpre : ∀ f ∈ patch.preconditions, 0 < w.room.store.weight f.rel f.tuple) :
    ∀ rel ∈ rels, ∀ t, 0 < (w.room.store.commit patch.updates).weight rel t → ∀ e, frontier t = some e →
      w.Clear e := by
  intro rel hrel t hpos e he
  rcases pos_weight_commit hpos with hold | hnew
  · exact h.clear rel hrel t hold e he
  · obtain ⟨f, hf, hfrel, e', hle, hfe⟩ := hpatch rel hrel t hnew e he
    exact (h.clear f.rel hfrel f.tuple (hpre f hf) e' hfe).mono hle

/-- A commit that puts in no cursor but where no history is gone. -/
theorem Ahead.commit_clear (h : Ahead rels w) {updates : List (RelId × Tuple × Diff)}
    (hclear : w.ClearOf rels updates) :
    ∀ rel ∈ rels, ∀ t, 0 < (w.room.store.commit updates).weight rel t → ∀ e, frontier t = some e →
      w.Clear e := by
  intro rel hrel t hpos e he
  rcases pos_weight_commit hpos with hold | hnew
  · exact h.clear rel hrel t hold e he
  · obtain ⟨u, hu, rfl, rfl, -⟩ := exists_pos_of_netOn_pos hnew
    exact hclear u hu hrel e he

theorem clearOf_spared {updates : List (RelId × Tuple × Diff)} (h : ∀ u ∈ updates, u.1 ∉ rels) :
    w.ClearOf rels updates := fun u hu hrel => absurd hrel (h u hu)

/-- How far a collection may go is no further than any cursor. -/
theorem horizon_le {store : TraceStore} {cursorRels : List RelId} {upTo floor : Nat}
    (h : Grmpl.horizon store cursorRels upTo = .ok floor) {rel : RelId} (hrel : rel ∈ cursorRels) {t : Tuple}
    (hpos : 0 < store.weight rel t) {e : Nat} (he : frontier t = some e) : floor ≤ e := by
  obtain ⟨found, hfound, h⟩ := bind_ok h
  obtain ⟨frontiers, hmap, hmin⟩ := bind_ok hfound
  have hall : frontiers = cursorRels.map fun rel =>
      ((store.rowsAt rel store.current).filter fun r => 0 < r.2).filterMap fun r => frontier r.1 := by
    refine (Except.ok.inj (hmap.symm.trans (mapM_ok fun rel _ => ?_)))
    rw [TraceStore.readAt_current]
    rfl
  have hmem : e ∈ frontiers.flatten := by
    rw [hall, List.mem_flatten]
    refine ⟨_, List.mem_map_of_mem hrel, List.mem_filterMap.2 ⟨(t, store.weight rel t), ?_, he⟩⟩
    exact List.mem_filter.2 ⟨TraceStore.mem_rowsAt.2 ⟨hpos.ne', rfl⟩, by simpa using hpos⟩
  cases hmin
  cases hc : frontiers.flatten.min? with
  | none =>
    rw [List.min?_eq_none_iff] at hc
    rw [hc] at hmem
    exact absurd hmem (by simp)
  | some c =>
    rw [hc] at h
    cases h
    exact (min_le_right _ _).trans ((List.min?_eq_some_iff.1 hc).2 e hmem)

/-- What appenders are about to commit keeps moving cursors forward. -/
theorem phases_step {room room' : Mailroom} {act : Mailroom.Act} (h : ∀ x ∈ room.appenders, PhaseForward rels x)
    (hroom : ∀ k, act = .batch k → room.store.current < 2 ^ 63)
    (hstep : room.step schemas act = some room') : ∀ x ∈ room'.appenders, PhaseForward rels x :=
  Mailroom.produces_step
    { idle := trivial
      seeding := fun _ => trivial
      enqueued := fun _ _ _ _ _ _ _ hpos => absurd hpos (by
        simp [Grmpl.enqueueSeq, Patch.updates, Patch.emitted, Patch.new])
      fired := fun _ _ _ _ _ hx => forward_fireOne hx
      positioned := fun _ _ _ _ => trivial
      batched := fun k _ _ _ hk _ hx => forward_batch (hroom k hk) hx
      drawn := fun _ _ hx => hx } h hstep

/-- A store no less of whose history is left, and upkeep that is about to collect no
more of it. -/
theorem Clear.same {e : Nat} (h : w.Clear e) (hmark : w'.room.store.watermark = w.room.store.watermark)
    (hupkeep : ∀ floor, Upkeep.floored floor ∈ w'.upkeep → Upkeep.floored floor ∈ w.upkeep) :
    w'.Clear e := by
  refine ⟨hmark ▸ h.1, fun x hx => ?_⟩
  cases x with
  | floored floor => exact h.2 _ (hupkeep floor hx)
  | _ => trivial

/-- Appenders keep cursors ahead of what is collected. -/
theorem ahead_append (h : Ahead rels w) (hs : w.room.Sound) {act : Mailroom.Act}
    (hok : KeepsFrontier rels w (.append act)) {room : Mailroom} (hstep : w.room.step schemas act = some room) :
    Ahead rels { w with room } := by
  have hphases : ∀ x ∈ room.appenders, PhaseForward rels x := by
    refine phases_step h.phases (fun a ha => ?_) hstep
    subst ha
    exact hok
  have hkeep : ∀ store : TraceStore, store.watermark = w.room.store.watermark →
      (∀ rel ∈ rels, ∀ t, 0 < store.weight rel t → ∀ e, frontier t = some e → w.Clear e) →
      room.store = store → Ahead rels { w with room } := by
    rintro store hmark hclear rfl
    exact ⟨fun rel hrel t hpos e he => (hclear rel hrel t hpos e he).same hmark fun _ hf => hf, hphases,
      h.folds⟩
  have hput : ∀ updates, (∀ u ∈ updates, u.1 ∉ rels) → room.store = w.room.store.commit updates →
      Ahead rels { w with room } :=
    fun updates hspared hstore => hkeep (w.room.store.commit updates) rfl (h.commit_clear (clearOf_spared hspared)) hstore
  cases Mailroom.step_does hs hstep with
  | stay => exact hkeep w.room.store rfl h.clear rfl
  | move _ a x hx => exact hkeep w.room.store rfl h.clear rfl
  | append a d hd store e hc =>
    simp only [KeepsFrontier, hd] at hok
    have hsound := hs _ (List.mem_of_getElem? hd)
    obtain ⟨hpre, hstore⟩ := Draft.commit_committed hsound.2.2 hc
    have hforward := forward_draft hok.1 hok.2 (h.phases _ (List.mem_of_getElem? hd))
    exact hkeep store (hstore ▸ rfl) (hstore ▸ h.commit hforward hpre) rfl
  | seed a s hphase store e hc =>
    simp only [KeepsFrontier, hphase] at hok
    have hstore := Seed.commit_committed (hs _ (List.mem_of_getElem? hphase)) hc
    refine hkeep store (hstore ▸ rfl) (hstore ▸ ?_) rfl
    intro rel hrel t hpos e he
    rcases pos_weight_commit hpos with hold | hnew
    · exact h.clear rel hrel t hold e he
    · have hnet : netOn rel t (s.alloc.seed s.base).updates = netOn rel t s.base.updates := by
        have hne : s.alloc.rel ≠ rel := fun heq => hok.1 (heq ▸ hrel)
        rw [SeqAlloc.seed]
        split
        · rfl
        · simp [hne]
      obtain ⟨u, hu, rfl, rfl, -⟩ := exists_pos_of_netOn_pos (hnet ▸ hnew)
      exact hok.2 u hu hrel e he
  | enqueue inbox process seq body =>
    refine hput [(inbox, (inboxFact inbox process seq body).tuple, 1)] (fun u hu => ?_) rfl
    rw [List.mem_singleton.1 hu]
    exact hok
  | deliver m seen sender seq => exact hput _ hok rfl
  | other updates => exact hput updates hok rfl

/-- **Every step keeps every cursor ahead of what is collected.** -/
theorem ahead_step (h : Ahead rels w) (hs : w.room.Sound) (hok : KeepsFrontier rels w a)
    (hstep : step schemas w a = some w') : Ahead rels w' ∧ w'.room.Sound := by
  have hmem : ∀ {k : Nat} {x y : Upkeep}, y ∈ w.upkeep.set k x → y ∈ w.upkeep ∨ y = x :=
    fun hy => List.mem_or_eq_of_mem_set hy
  -- an errand that neither commits nor is about to
  have hset : ∀ (k : Nat) (x : Upkeep), (∀ floor, x ≠ .floored floor) →
      (∀ view patch, x = .folded view patch → Forward rels patch) → Ahead rels (w.setUpkeep k x) := by
    intro k x hfloor hfold
    refine ⟨fun rel hrel t hpos e he => (h.clear rel hrel t hpos e he).same rfl fun floor hf => ?_,
      h.phases, fun view patch hf => ?_⟩
    · exact (hmem hf).resolve_right fun heq => hfloor floor heq.symm
    · exact (hmem hf).elim (h.folds view patch) fun heq => hfold view patch heq.symm
  have hidle : ∀ k, Ahead rels (w.setUpkeep k .idle) := fun k =>
    hset k .idle (fun _ heq => by cases heq) fun _ _ heq => by cases heq
  cases a with
  | append act =>
    obtain ⟨room, hroom, rfl⟩ := Option.map_eq_some_iff.1 hstep
    exact ⟨ahead_append h hs hok hroom, Mailroom.sound_step hs (Mailroom.step_does hs hroom)⟩
  | install view =>
    simp only [step] at hstep
    split at hstep
    · rename_i store outcome hcommit
      cases hstep
      rcases commitPatchChecked_ok hcommit with ⟨-, rfl⟩ | ⟨-, -, rfl⟩
      · exact ⟨h, hs⟩
      · refine ⟨⟨fun rel hrel t hpos e he => Clear.same (w := w) ?_ rfl fun _ hf => hf, h.phases, h.folds⟩, hs⟩
        refine h.commit_clear (fun u hu hrel e he => ?_) rel hrel t hpos e he
        obtain rfl : u = (view.cursorRel, view.cursorTuple 0, 1) := by
          simpa [Patch.updates, Patch.emitted, Patch.assert, Patch.new] using hu
        exact (hok hrel).mono (Nat.zero_le e)
    · cases hstep
      exact ⟨h, hs⟩
  | cursor k view =>
    simp only [step] at hstep
    split at hstep
    · split at hstep
      · cases hstep
        exact ⟨hset k _ (fun _ heq => by cases heq) (fun _ _ heq => by cases heq), hs⟩
      · cases hstep
        exact ⟨h, hs⟩
    · cases hstep
  | fold k =>
    simp only [step] at hstep
    split at hstep
    · rename_i view start hk
      split at hstep
      · rename_i patch hpatch
        cases hstep
        simp only [KeepsFrontier, hk] at hok
        refine ⟨hset k _ (fun _ heq => by cases heq) fun view' patch' heq => ?_, hs⟩
        cases heq
        exact forward_fold hok.1 hok.2 hpatch
      · cases hstep
        exact ⟨hidle k, hs⟩
    · cases hstep
  | commit k =>
    simp only [step] at hstep
    split at hstep
    · rename_i view patch hk
      split at hstep
      · rename_i store outcome hcommit
        cases hstep
        rcases commitPatchChecked_ok hcommit with ⟨-, rfl⟩ | ⟨-, hpre, rfl⟩
        · exact ⟨hidle k, hs⟩
        · have hforward := h.folds view patch (List.mem_of_getElem? hk)
          refine ⟨⟨fun rel hrel t hpos e he =>
            (h.commit hforward hpre rel hrel t hpos e he).same rfl fun floor hf => ?_, h.phases,
            fun view' patch' hf => ?_⟩, hs⟩
          · exact (hmem hf).resolve_right fun heq => by cases heq
          · exact h.folds view' patch' ((hmem hf).resolve_right fun heq => by cases heq)
      · cases hstep
        exact ⟨hidle k, hs⟩
    · cases hstep
  | horizon k cursorRels upTo =>
    simp only [step] at hstep
    split at hstep
    · split at hstep
      · rename_i floor hfloor
        cases hstep
        refine ⟨⟨fun rel hrel t hpos e he => ?_, h.phases, fun view patch hf =>
          h.folds view patch ((hmem hf).resolve_right fun heq => by cases heq)⟩, hs⟩
        have hclear := h.clear rel hrel t hpos e he
        refine ⟨hclear.1, fun x hx => ?_⟩
        rcases hmem hx with hx | rfl
        · exact hclear.2 x hx
        · exact horizon_le hfloor (hok rel hrel) hpos he
      · cases hstep
        exact ⟨h, hs⟩
    · cases hstep
  | consolidate k =>
    simp only [step] at hstep
    split at hstep
    · rename_i floor hk
      cases hstep
      refine ⟨⟨fun rel hrel t hpos e he => ?_, h.phases, fun view patch hf =>
        h.folds view patch ((hmem hf).resolve_right fun heq => by cases heq)⟩, hs⟩
      have hclear := h.clear rel hrel t hpos e he
      have hfloor : floor ≤ e := hclear.2 _ (List.mem_of_getElem? hk)
      refine ⟨max_le hclear.1 ((min_le_left _ _).trans hfloor), fun x hx => ?_⟩
      rcases hmem hx with hx | rfl
      · exact hclear.2 x hx
      · trivial
    · cases hstep
  | crash k =>
    cases hstep
    exact ⟨hidle k, hs⟩

end Steps

/-- Every read from an edition on is answered. -/
def AnsweredFrom (store : TraceStore) (start : Nat) : Prop :=
  ∀ rel, (∀ at', start ≤ at' → store.readAt rel at' = .ok (store.rowsAt rel at')) ∧
    ∀ upTo, store.scanUpdates rel start upTo = .ok (store.updatesBetween rel start upTo)

theorem answeredFrom_of_le {store : TraceStore} {start : Nat} (h : store.watermark ≤ start) :
    AnsweredFrom store start :=
  fun _ => ⟨fun _ hle => if_neg (h.trans hle).not_gt, fun _ => if_neg h.not_gt⟩

/-- Nothing a watch or a materialization reads from its cursor on has been folded away. -/
structure Pumpable (rels : List RelId) (store : TraceStore) : Prop where
  watches : ∀ watch : OnWatch, watch.cursorRel ∈ rels → ∀ start, watch.cursor store = .ok (some start) →
    store.watermark ≤ start ∧ AnsweredFrom store start
  views : ∀ view : Materialized, view.cursorRel ∈ rels → ∀ start, view.cursor store = .ok (some start) →
    store.watermark ≤ start ∧ AnsweredFrom store start

theorem watch_cursorIn {watch : OnWatch} {row : Tuple × Diff} {e : Nat} (h : watch.cursorIn row = some e) :
    0 < row.2 ∧ frontier row.1 = some e := by
  unfold OnWatch.cursorIn at h
  split_ifs at h with hrow
  exact ⟨hrow.1, h⟩

theorem view_cursorIn {view : Materialized} {row : Tuple × Diff} {e : Nat} (h : view.cursorIn row = some e) :
    0 < row.2 ∧ frontier row.1 = some e := by
  unfold Materialized.cursorIn at h
  split_ifs at h with hrow
  exact ⟨hrow.1, h⟩

/-- A cursor as it is read is the edition of a row with weight. -/
theorem row_of_cursor {store : TraceStore} {rel : RelId} {f : Tuple × Diff → Option Nat} {start : Nat}
    (hf : ∀ row e, f row = some e → 0 < row.2 ∧ frontier row.1 = some e)
    (h : (do let rows ← store.readAt rel store.current; return rows.findSome? f) = .ok (some start)) :
    ∃ t, 0 < store.weight rel t ∧ frontier t = some start := by
  rw [TraceStore.readAt_current] at h
  obtain ⟨⟨t, d⟩, hmem, hrow⟩ := List.exists_of_findSome?_eq_some (Except.ok.inj h)
  obtain ⟨hd, he⟩ := hf _ _ hrow
  exact ⟨t, (TraceStore.mem_rowsAt.1 hmem).2 ▸ hd, he⟩

theorem Ahead.pumpable {rels : List RelId} {w : Collecting} (h : Ahead rels w) : Pumpable rels w.room.store := by
  constructor
  · intro watch hrel start hcursor
    obtain ⟨t, hpos, he⟩ := row_of_cursor (fun _ _ => watch_cursorIn) hcursor
    have hle := (h.clear _ hrel t hpos start he).1
    exact ⟨hle, answeredFrom_of_le hle⟩
  · intro view hrel start hcursor
    obtain ⟨t, hpos, he⟩ := row_of_cursor (fun _ _ => view_cursorIn) hcursor
    have hle := (h.clear _ hrel t hpos start he).1
    exact ⟨hle, answeredFrom_of_le hle⟩

/-- A store nothing is installed in, before anybody has done anything. -/
def start (store : TraceStore) (appenders upkeep : Nat) : Collecting :=
  ⟨⟨store, .replicate appenders .idle, []⟩, .replicate upkeep .idle⟩

/-- **Every installed watch and materialization stays pumpable**, in every run whose
installs put their cursors where no history is gone, or about to go. -/
theorem watches_pumpable {rels : List RelId} {schemas : SchemaCatalog} {store : TraceStore}
    (hfresh : ∀ rel ∈ rels, ∀ t, store.weight rel t ≤ 0) {n m : Nat} {w : Collecting}
    (hrun : Run (step schemas) (KeepsFrontier rels) (start store n m) w) : Pumpable rels w.room.store := by
  have hstart : Ahead rels (start store n m) ∧ (start store n m).room.Sound := by
    refine ⟨⟨fun rel hrel t hpos => absurd hpos (hfresh rel hrel t).not_gt, fun x hx => ?_,
      fun view patch hf => ?_⟩, fun x hx => ?_⟩
    · rw [List.eq_of_mem_replicate hx]
      trivial
    · exact absurd (List.eq_of_mem_replicate hf) nofun
    · rw [List.eq_of_mem_replicate hx]
      trivial
  exact (hrun.invariant hstart fun _ _ _ hi hok hst => ahead_step hi.1 hi.2 hok hst).1.pumpable

/-! ## A watch installed after a collection -/

/-- A watch of relation 20, whatever it says of it. -/
def lateWatch : OnWatch where
  view := fun store start upTo => do
    let updates ← store.scanUpdates 20 start upTo
    return updates.map fun u => (u.tuple, u.diff)
  quiet := fun _ _ _ => .ok false
  watch := ⟨1⟩
  target := ⟨2⟩
  inbox := 10
  cursorRel := 11
  seqs := 12
  authority := ⟨0, [⟨10, none⟩, ⟨11, none⟩, ⟨12, none⟩]⟩

/-- History is collected while nothing is installed; then a watch is, of all there is. -/
def collectedFirst : List Act :=
  [.append (.other [(20, ⟨[.text "hi"]⟩, 1)]), .horizon 0 [11] 1, .consolidate 0,
    .append (.install 0 lateWatch 0), .append (.commit 0)]

/-- **The watch is behind the watermark, and every pump of it fails there.** -/
theorem watch_stranded :
    (¬ ∀ w, Run (step noSchemas) (NamesAll [11]) (start .empty 1 1) w → Pumpable [11] w.room.store) ∧
    ∃ w, Run (step noSchemas) (NamesAll [11]) (start .empty 1 1) w ∧
      lateWatch.cursor w.room.store = .ok (some 0) ∧ w.room.store.watermark = 1 ∧
        lateWatch.view w.room.store 0 w.room.store.current = .error (door "scan_updates" 0 1) := by
  have hex : (executeChecked (step noSchemas) (fun w a => decide (NamesAll [11] w a)) (start .empty 1 1)
      collectedFirst).isSome = true := by decide +kernel
  have hrun : Run (step noSchemas) (NamesAll [11]) (start .empty 1 1) _ := Run.afterChecked (by simp) hex
  refine ⟨fun h => ?_, _, hrun, by decide +kernel, by decide +kernel, by decide +kernel⟩
  have hle := ((h _ hrun).watches lateWatch (by decide) 0 (by decide +kernel)).1
  revert hle
  decide +kernel

/-- The rows of relation 20, kept in relation 13. -/
def lateView : Materialized where
  view := lateWatch.view
  quiet := lateWatch.quiet
  into := 13
  key := ⟨3⟩
  cursorRel := 11
  authority := ⟨0, [⟨11, none⟩, ⟨13, none⟩]⟩

/-- A watch and a materialization are installed, pumped and refreshed before history is
collected. -/
def collectedLast : List Act :=
  [.append (.install 0 lateWatch 0), .append (.commit 0), .install lateView,
    .append (.other [(20, ⟨[.text "hi"]⟩, 1)]), .append (.cursor 0 lateWatch), .append (.batch 0),
    .append (.draw 0), .append (.commit 0), .cursor 0 lateView, .fold 0, .commit 0,
    .horizon 0 [11] 9, .append (.other [(20, ⟨[.text "bye"]⟩, 1)]), .consolidate 0]

theorem watches_pumpable_sample : ∃ w, Run (step noSchemas) (KeepsFrontier [11]) (start .empty 1 1) w ∧
    w.room.store.watermark = 3 ∧ w.room.store.current = 6 ∧ Pumpable [11] w.room.store := by
  have hex : (executeChecked (step noSchemas) (fun w a => decide (KeepsFrontier [11] w a)) (start .empty 1 1)
      collectedLast).isSome = true := by decide +kernel
  have hrun : Run (step noSchemas) (KeepsFrontier [11]) (start .empty 1 1) _ := Run.afterChecked (by simp) hex
  exact ⟨_, hrun, by decide +kernel, by decide +kernel,
    watches_pumpable (fun rel hrel t => (TraceStore.weight_empty rel t).le) hrun⟩

end Collecting

end Grmpl

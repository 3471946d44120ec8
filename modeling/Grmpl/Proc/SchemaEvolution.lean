import Grmpl.Lang.PlanSound
import Grmpl.Lib.Runs
import Grmpl.Proc.SchemaRegistry

/-!
# Old rows under new schemas

A relation's schema grows by columns at its end, and the rows already there stay as they
are: shorter than the schema. A plan typed by the new schema then indexes past their end,
and the commit boundary no longer lets them be retracted. Neither happens where no
relation that holds rows is given another schema.

* `Evolution`, `Evolution.step`: a store and its schemas.
* `OldRowsUsable`: what old rows are owed.
* `KeepsOldRows`: the condition on a step.
* `old_rows_usable`: the run; `old_rows_unusable`: a column appended over a row.
-/

open OrdMap Runs

namespace Grmpl

/-- A store and its schemas. -/
structure Evolution where
  store : TraceStore
  registry : SchemaRegistry

namespace Evolution

/-- A schema evolved, a patch committed through the laws, or history folded away. -/
inductive Act where
  | putSchema (rel : RelId) (s : Schema) (at' : Nat)
  | commit (checker : BehaviorChecker) (patch : Patch) (authority : Authority)
  | consolidate (upTo : Nat)

def start : Evolution := ⟨.empty, .empty⟩

/-- What is accepted; a refusal changes nothing and is no step. -/
def step (w : Evolution) : Act → Option Evolution
  | .putSchema rel s at' => match w.registry.putSchema rel s at' with
    | .ok registry => some { w with registry }
    | .error _ => none
  | .commit checker patch authority =>
      match commitPatchChecked w.store w.registry.catalog checker patch authority with
      | .ok (store, .committed _) => some { w with store }
      | _ => none
  | .consolidate upTo => some { w with store := w.store.consolidate upTo }

/-- The schemas in force now. -/
def schemas (w : Evolution) : RelId → Result (Option Schema) :=
  fun rel => .ok (w.registry.schemaAt rel w.store.current)

end Evolution

/-- A row taken back, if it is still there. -/
def Patch.takeBack (f : Fact) : Patch := (Patch.new.expect f).retract f

/-- **What old rows are owed**: a plan that has a type by the schemas now in force is
evaluated within its rows at every edition still held, and every row present can be taken
back by whoever may write it. -/
structure OldRowsUsable (w : Evolution) : Prop where
  evaluates {q : QueryIr} {ts : RowTy} (htyped : checkQuery q w.schemas = .ok ts) {s : DynTraceStore}
    (hs : Keeps s w.store) {at' : Nat} (hlive : w.store.watermark ≤ at') (hle : at' ≤ w.store.current)
    (hcopy : q.lower.Copied (s.readerAt at')) (fuel : Nat) : evalSnapshot fuel q.lower s at' ≠ .error .panic
  retracts {f : Fact} (hpresent : 0 < w.store.weight f.rel f.tuple) {authority : Authority}
    (hauthority : authority.permits f = true) :
    commitPatch w.store w.registry.catalog (.takeBack f) authority =
      .ok (w.store.commit [(f.rel, f.tuple, -1)], .committed (w.store.current + 1))

/-- A relation is given another schema only if it holds no row at any edition still held,
and a patch's emits and its cursor move, which no law sees, conform. -/
def KeepsOldRows (w : Evolution) : Evolution.Act → Prop
  | .putSchema rel s _ => w.registry.schema rel = some s ∨
      ∀ at', w.store.watermark ≤ at' → at' ≤ w.store.current → w.store.rowsAt rel at' = []
  | .commit _ patch _ => ∀ u ∈ patch.emitted ++ patch.cursorAdvance.toList.flatMap CursorMove.updates,
      ∀ s, w.registry.schema u.1 = some s → s.Conforms u.2.1
  | .consolidate _ => True

/-! ## The invariant -/

/-- The versions of a relation's schema append columns one to another. -/
def SchemaRegistry.Appends (r : SchemaRegistry) : Prop :=
  ∀ rel, (r.versions rel).Pairwise fun newer older => newer.2.isAdditiveOver older.2 = true

/-- Every row at an edition still held conforms to the latest schema of its relation. -/
structure Conforming (w : Evolution) : Prop where
  appends : w.registry.Appends
  rows : ∀ rel s, w.registry.schema rel = some s → ∀ at', w.store.watermark ≤ at' →
    at' ≤ w.store.current → ∀ e ∈ w.store.rowsAt rel at', s.Conforms e.1

namespace SchemaRegistry

variable {r r' : SchemaRegistry} {rel : RelId} {s : Schema} {at' : Nat}

theorem appends_putSchema (h : r.Appends) (hput : r.putSchema rel s at' = .ok r') : r'.Appends := by
  rcases putSchema_ok hput with ⟨rfl, -⟩ | ⟨rfl, hadd⟩
  · exact h
  · intro rel'
    by_cases hrel : rel' = rel
    · subst hrel
      simp only [add, Function.update_self]
      refine List.pairwise_cons.2 ⟨fun v hv => ?_, h rel'⟩
      cases hvs : r.versions rel' with
      | nil =>
        rw [hvs] at hv
        exact absurd hv (by simp)
      | cons head tail =>
        have hhead := hadd head.2 (by rw [schema, hvs]; rfl)
        rw [hvs] at hv
        rcases List.mem_cons.1 hv with rfl | hv
        · exact hhead
        · have hpair := h rel'
          rw [hvs] at hpair
          exact Schema.isAdditiveOver_trans ((List.pairwise_cons.1 hpair).1 v hv) hhead
    · simp only [add, Function.update_of_ne hrel]
      exact h rel'

/-- The schema in force at an edition is the latest, or one it appends columns to. -/
theorem Appends.schemaAt (h : r.Appends) (hs : r.schemaAt rel at' = some s) :
    ∃ latest, r.schema rel = some latest ∧ latest.isAdditiveOver s = true := by
  obtain ⟨v, hv, rfl⟩ := Option.map_eq_some_iff.1 hs
  have hmem := List.mem_of_find?_eq_some hv
  have hpair := h rel
  unfold SchemaRegistry.schema
  cases hvs : r.versions rel with
  | nil =>
    rw [hvs] at hmem
    exact absurd hmem (by simp)
  | cons head tail =>
    rw [hvs] at hmem hpair
    refine ⟨head.2, rfl, ?_⟩
    rcases List.mem_cons.1 hmem with rfl | hmem
    · exact Schema.isAdditiveOver_refl _
    · exact (List.pairwise_cons.1 hpair).1 v hmem

end SchemaRegistry

/-! ## What a step preserves -/

/-- What a patch that passed the laws puts in conforms, its emits and its cursor move
doing so. -/
theorem updates_conform {r : SchemaRegistry} {checker : BehaviorChecker} {patch : Patch}
    {authority : Authority} {checked : CheckedPatch}
    (h : checkPatch r.catalog checker patch authority = .ok checked)
    (hunseen : ∀ u ∈ patch.emitted ++ patch.cursorAdvance.toList.flatMap CursorMove.updates,
      ∀ s, r.schema u.1 = some s → s.Conforms u.2.1) :
    ∀ u ∈ patch.updates, ∀ s, r.schema u.1 = some s → s.Conforms u.2.1 := by
  have hseen := SchemaRegistry.checkSchema_conforms (checkPatch_laws h).2.1
  intro u hu s hs
  simp only [Patch.updates, List.mem_append, List.mem_map] at hu
  rcases hu with ((⟨f, hf, rfl⟩ | ⟨f, hf, rfl⟩) | hu) | ⟨x, hx, rfl⟩ | hu
  · exact hseen f (by simp [hf]) s hs
  · exact hseen f (by simp [hf]) s hs
  · exact hunseen u (List.mem_append_left _ hu) s hs
  · exact hseen ⟨x.timers, timerRow x⟩ (List.mem_append_right _ (List.mem_map_of_mem hx)) s hs
  · exact hunseen u (List.mem_append_right _ hu) s hs

variable {w w' : Evolution} {a : Evolution.Act}

theorem conforming_start : Conforming .start :=
  ⟨fun _ => .nil, fun _ _ h => nomatch h⟩

theorem conforming_step (h : Conforming w) (hok : KeepsOldRows w a) (hstep : w.step a = some w') :
    Conforming w' := by
  cases a with
  | putSchema rel s at' =>
    simp only [Evolution.step] at hstep
    split at hstep
    · rename_i registry hput
      cases hstep
      refine ⟨SchemaRegistry.appends_putSchema h.appends hput, fun rel' s' hs' e hlive hle x hx => ?_⟩
      by_cases hrel : rel' = rel
      · subst hrel
        rcases hok with hsame | hnone
        · rw [SchemaRegistry.schema_putSchema hput] at hs'
          cases hs'
          exact h.rows rel' s hsame e hlive hle x hx
        · rw [hnone e hlive hle] at hx
          exact absurd hx (by simp)
      · rw [SchemaRegistry.schema_putSchema_other hput hrel] at hs'
        exact h.rows rel' s' hs' e hlive hle x hx
    · cases hstep
  | commit checker patch authority =>
    simp only [Evolution.step] at hstep
    split at hstep
    · rename_i store edition hcommit
      cases hstep
      obtain ⟨checked, hchecked, -⟩ := bind_ok hcommit
      rcases commitPatchChecked_ok hcommit with ⟨hrej, -⟩ | ⟨-, -, rfl⟩
      · cases hrej
      · refine ⟨h.appends, fun rel s hs e hlive hle x hx => ?_⟩
        rcases Nat.lt_or_ge w.store.current e with hlt | hge
        · obtain rfl : e = (w.store.commit patch.updates).current :=
            le_antisymm hle (by rw [TraceStore.current, TraceStore.commit, List.length_append]; exact hlt)
          rcases TraceStore.mem_rowsAt_commit hx with hx | ⟨u, hu, rfl, hux⟩
          · exact h.rows rel s hs _ w.store.watermark_le le_rfl x hx
          · exact hux ▸ updates_conform hchecked hok u hu s hs
        · dsimp only at hx
          rw [TraceStore.rowsAt_commit hge] at hx
          exact h.rows rel s hs e hlive hge x hx
    · cases hstep
  | consolidate upTo =>
    cases hstep
    exact ⟨h.appends, fun rel s hs e hlive hle x hx =>
      h.rows rel s hs e ((le_max_left _ _).trans hlive) hle x hx⟩

/-- A row that conforms passes the laws of whoever may write it. -/
theorem commitPatch_takeBack (h : Conforming w) {f : Fact} (hpresent : 0 < w.store.weight f.rel f.tuple)
    {authority : Authority} (hauthority : authority.permits f = true) :
    commitPatch w.store w.registry.catalog (.takeBack f) authority =
      .ok (w.store.commit [(f.rel, f.tuple, -1)], .committed (w.store.current + 1)) := by
  have hschema : checkSchema w.registry.catalog [f] = .ok () := by
    rw [checkSchema, SchemaRegistry.catalog]
    cases hs : w.registry.schema f.rel with
    | none => rfl
    | some s =>
      have hmem : (f.tuple, w.store.weight f.rel f.tuple) ∈ w.store.rowsAt f.rel w.store.current :=
        TraceStore.mem_rowsAt.2 ⟨hpresent.ne', rfl⟩
      have hconf := h.rows f.rel s hs _ w.store.watermark_le le_rfl _ hmem
      simp only [Option.map_some, bind, Except.bind, Schema.check_eq_ok.2 hconf]
      rfl
  have hcheck : checkPatch w.registry.catalog noBehaviorCheck (.takeBack f) authority =
      .ok ⟨[(f.rel, f.tuple)], [(f.rel, f.tuple, -1)], []⟩ := by
    unfold checkPatch
    simp only [Patch.takeBack, Patch.new, Patch.expect, Patch.retract, List.map_nil, List.nil_append,
      List.append_nil, List.find?_cons, hauthority, Bool.not_true, List.find?_nil, hschema]
    rfl
  rw [commitPatch, commitPatchChecked, hcheck]
  have hif : w.store.commitIf [(f.rel, f.tuple)] [(f.rel, f.tuple, -1)]
      = some (w.store.commit [(f.rel, f.tuple, -1)]) :=
    TraceStore.commitIf_eq_some.2 ⟨fun p hp => by rw [List.mem_singleton.1 hp]; exact hpresent, rfl⟩
  have hupdates : [(f.rel, f.tuple, -1)] ++ (Patch.takeBack f).emitted ++ [] = [(f.rel, f.tuple, -1)] := rfl
  simp only [bind, Except.bind]
  rw [hupdates, hif]
  show Except.ok (_, CommitOutcome.committed (w.store.patches ++ [_]).length) = _
  rw [List.length_append]
  rfl

/-- Rows that conform to the latest schemas are as wide as those in force. -/
theorem Conforming.oldRowsUsable (h : Conforming w) : OldRowsUsable w where
  evaluates {q ts} htyped {s} hs {at'} hlive hle hcopy fuel := by
    obtain ⟨hed, hreader⟩ := hs.readerAt hlive
    have hstored : widthReading.Stored ⟨w.schemas, none⟩ w.store (s.readerAt at').edition := by
      rw [hed]
      intro rel us hus e he
      obtain ⟨schema, hschema, rfl⟩ := TypeEnv.rel_ok hus
      obtain ⟨latest, hlatest, hadd⟩ := h.appends.schemaAt (Except.ok.inj hschema)
      have hconf := h.rows rel latest hlatest at' hlive hle e he
      show (RowTy.fromSchema schema).length ≤ e.1.cells.length
      rw [← hconf.length_eq, RowTy.fromSchema, List.length_map]
      exact (Schema.isAdditiveOver_iff.1 hadd).length_le
    exact (keepsShape_meets (synth_keepsShape (R := widthReading) hreader hstored htyped hcopy)
      none nofun _).1
  retracts hpresent _ hauthority := commitPatch_takeBack h hpresent hauthority

/-- **Every run that gives no relation that holds rows another schema keeps its old rows
usable.** -/
theorem old_rows_usable {w : Evolution} (h : Run Evolution.step KeepsOldRows .start w) : OldRowsUsable w :=
  (h.invariant conforming_start fun _ _ _ hi hok hstep => conforming_step hi hok hstep).oldRowsUsable

/-! ## A column appended over a row -/

def oneColumn : Schema := ⟨[⟨"a", .ent⟩]⟩

def twoColumns : Schema := ⟨[⟨"a", .ent⟩, ⟨"b", .int⟩]⟩

def shortRow : Fact := ⟨1, ⟨[.ent ⟨1⟩]⟩⟩

/-- Whoever may write relation 1. -/
def columnOwner : Authority := ⟨1, [⟨1, none⟩]⟩

/-- A row of one column, committed before its relation had two. -/
def grown : Evolution := after Evolution.step .start
  [.putSchema 1 oneColumn 0, .commit noBehaviorCheck (Patch.new.assert shortRow) columnOwner,
    .putSchema 1 twoColumns 1]

/-- **The new column is read past the row's end, and the row cannot be taken back.** -/
theorem old_rows_unusable : (¬ ∀ w, Run Evolution.step Any .start w → OldRowsUsable w) ∧
    ∃ msg, commitPatch grown.store grown.registry.catalog (.takeBack shortRow) columnOwner
      = .error (.schema msg) := by
  refine ⟨fun h => ?_, _, rfl⟩
  have husable := h grown (.after rfl)
  have htyped : checkQuery (.project (.rel 1) [1]) grown.schemas = .ok [.int] := by decide +kernel
  exact husable.evaluates htyped grown.store.dyn_keeps (Nat.zero_le 1) le_rfl trivial 0 rfl

/-- The same columns, given before there is a row. -/
theorem old_rows_usable_whole : OldRowsUsable (after Evolution.step .start
    [.putSchema 1 oneColumn 0, .putSchema 1 twoColumns 1,
      .commit noBehaviorCheck (Patch.new.assert ⟨1, ⟨[.ent ⟨1⟩, .int 2]⟩⟩) columnOwner]) := by
  refine old_rows_usable (.snoc (.snoc (.snoc .start (a := .putSchema 1 oneColumn 0) (.inr ?_) rfl)
    (a := .putSchema 1 twoColumns 1) (.inr ?_) rfl) (a := .commit noBehaviorCheck (Patch.new.assert
      ⟨1, ⟨[.ent ⟨1⟩, .int 2]⟩⟩) columnOwner) ?_ rfl)
  · exact fun at' _ _ => by simp [Evolution.start, TraceStore.empty, TraceStore.rowsAt, addRows]
  · exact fun at' _ _ => by simp [Evolution.start, TraceStore.empty, TraceStore.rowsAt, addRows]
  · exact fun u hu => absurd hu (by simp [Patch.emitted, Patch.assert, Patch.new])

end Grmpl

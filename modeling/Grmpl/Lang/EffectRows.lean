import Grmpl.Lang.BehaviorCodec
import Grmpl.Lang.Granted
import Grmpl.Lang.Handlers
import Grmpl.Lang.StoredCode

/-!
# Effect rows are sound

What a handler is inferred to write and to send to bounds every patch it makes: the
writes of its operations, and those of the capabilities it draws from, that only come
into the patch at the end. So the authority law refuses such a patch for the key of a row
at most, never for a relation. Code that a patch carries is held against the authority
by its own effects, which are not the handler's.

* `EffectRow.Covers`: a patch within an effect row.
* `execute_covered`: what operations come to, sealed.
* `grants_state`: a grant's relation is the one its capability is inferred to write.
* `effect_rows_sound`; `copied_code_refused`: code copied from one row into another.
-/

open OrdMap

namespace Grmpl

/-- A patch writes, schedules into and sends to what an effect row names. -/
structure EffectRow.Covers (row : EffectRow) (patch : Patch) : Prop where
  asserts : ∀ f ∈ patch.asserts, f.rel ∈ row.writes
  retracts : ∀ f ∈ patch.retracts, f.rel ∈ row.writes
  scheduled : ∀ s ∈ patch.scheduled, s.timers ∈ row.writes
  emits : ∀ m ∈ patch.emits, m.inbox ∈ row.sends

namespace EffectRow.Covers

variable {row : EffectRow} {p : Patch}

theorem new (row : EffectRow) : row.Covers Patch.new :=
  ⟨fun _ h => absurd h List.not_mem_nil, fun _ h => absurd h List.not_mem_nil,
    fun _ h => absurd h List.not_mem_nil, fun _ h => absurd h List.not_mem_nil⟩

theorem expect (h : row.Covers p) (f : Fact) : row.Covers (p.expect f) :=
  ⟨h.asserts, h.retracts, h.scheduled, h.emits⟩

theorem assert (h : row.Covers p) {f : Fact} (hf : f.rel ∈ row.writes) : row.Covers (p.assert f) := by
  refine ⟨fun g hg => ?_, h.retracts, h.scheduled, h.emits⟩
  rcases List.mem_append.1 hg with hg | hg
  · exact h.asserts g hg
  · rwa [List.mem_singleton.1 hg]

theorem retract (h : row.Covers p) {f : Fact} (hf : f.rel ∈ row.writes) : row.Covers (p.retract f) := by
  refine ⟨h.asserts, fun g hg => ?_, h.scheduled, h.emits⟩
  rcases List.mem_append.1 hg with hg | hg
  · exact h.retracts g hg
  · rwa [List.mem_singleton.1 hg]

theorem emit (h : row.Covers p) {m : Message} (hm : m.inbox ∈ row.sends) : row.Covers (p.emit m) := by
  refine ⟨h.asserts, h.retracts, h.scheduled, fun n hn => ?_⟩
  rcases List.mem_append.1 hn with hn | hn
  · exact h.emits n hn
  · rwa [List.mem_singleton.1 hn]

theorem schedule (h : row.Covers p) {s : Scheduled} (hs : s.timers ∈ row.writes) : row.Covers (p.schedule s) := by
  refine ⟨h.asserts, h.retracts, fun x hx => ?_, h.emits⟩
  rcases List.mem_append.1 hx with hx | hx
  · exact h.scheduled x hx
  · rwa [List.mem_singleton.1 hx]

/-- A fold keeps a patch covered if each of its steps does. -/
theorem foldl {α : Type} {f : Patch → α → Patch} {l : List α}
    (h : ∀ a ∈ l, ∀ {p}, row.Covers p → row.Covers (f p a)) (hp : row.Covers p) : row.Covers (l.foldl f p) := by
  induction l generalizing p with
  | nil => exact hp
  | cons a l ih => exact ih (fun b hb => h b (.tail a hb)) (h a (.head l) hp)

end EffectRow.Covers

/-! ## Capabilities -/

/-- The relation that invoking a grant writes. -/
def ResolvedCapabilityGrant.state : ResolvedCapabilityGrant → RelId
  | .allocate counter _ _ => counter
  | .random state _ _ => state
  | .schedule _ timers _ _ => timers

/-- What has been drawn is of relations among some. -/
structure CapabilityFrame.Writes (frame : CapabilityFrame) (rels : List RelId) : Prop where
  allocators : ∀ e ∈ frame.allocators, e.2.1.rel ∈ rels
  random : ∀ e ∈ frame.random, e.2.rel ∈ rels
  scheduled : ∀ s ∈ frame.scheduled, s.timers ∈ rels

theorem CapabilityFrame.writes_new (rels : List RelId) : CapabilityFrame.new.Writes rels :=
  ⟨fun _ h => absurd h List.not_mem_nil, fun _ h => absurd h List.not_mem_nil, fun _ h => absurd h List.not_mem_nil⟩

theorem Alloc.fromRows_rel (rel : RelId) (base : Int64) (rows : List (Tuple × Diff)) :
    (Alloc.fromRows rel rows base).rel = rel := by
  have hkept : ∀ (rows : List (Tuple × Diff)) (a : Alloc), (rows.foldl Alloc.meet a).rel = a.rel := by
    intro rows
    induction rows with
    | nil => exact fun _ => rfl
    | cons row rows ih =>
      intro a
      rw [List.foldl_cons, ih, Alloc.meet]
      split
      · split <;> rfl
      · rfl
  exact hkept rows _

section Drawing

variable {snap : Snapshot} {tries : Nat} {frame frame' : CapabilityFrame} {capability : String} {rels : List RelId}

theorem allocator_rel (hframe : frame.Writes rels) {counter : RelId} {first last : Int64} {e : Alloc × Int64}
    (hcounter : counter ∈ rels) (h : frame.allocator snap capability counter first last = .ok e) : e.1.rel ∈ rels := by
  unfold CapabilityFrame.allocator at h
  split at h
  · cases h
    exact hframe.allocators _ (mem_of_lookup ‹_›)
  · obtain ⟨_, -, h⟩ := except_bind_ok h
    split at h
    · cases h
    · dsimp only at h
      split_ifs at h
      cases h
      rwa [Alloc.fromRows_rel]

theorem stream_rel (hframe : frame.Writes rels) {rel : RelId} {owner : Entity} {s : RngStream} (hrel : rel ∈ rels)
    (h : frame.stream snap capability rel owner = .ok s) : s.rel ∈ rels := by
  unfold CapabilityFrame.stream at h
  split at h
  · cases h
    exact hframe.random _ (mem_of_lookup ‹_›)
  · obtain ⟨_, -, h⟩ := except_bind_ok h
    cases h
    exact hrel

/-- A grant that is drawn from adds its own relation. -/
theorem draw_writes {grant : ResolvedCapabilityGrant} {arguments values : List Value} (hframe : frame.Writes rels)
    (hstate : grant.state ∈ rels) (h : frame.draw snap tries capability grant arguments = .ok (values, frame')) :
    frame'.Writes rels := by
  cases grant with
  | allocate counter first last =>
    unfold CapabilityFrame.draw at h
    dsimp only at h
    split_ifs at h
    obtain ⟨e, he, h⟩ := except_bind_ok h
    split_ifs at h
    cases h
    refine ⟨fun x hx => ?_, hframe.random, hframe.scheduled⟩
    rcases mem_put hx with rfl | hx
    · have hrel : e.1.rel ∈ rels := allocator_rel hframe hstate he
      exact hrel
    · exact hframe.allocators x hx
  | random rel owner algorithm =>
    unfold CapabilityFrame.draw at h
    dsimp only at h
    split_ifs at h
    split at h
    · split_ifs at h
      obtain ⟨s, hs, h⟩ := except_bind_ok h
      split at h
      · cases h
      · cases h
        refine ⟨hframe.allocators, fun x hx => ?_, hframe.scheduled⟩
        rcases mem_put hx with rfl | hx
        · have hrel : s.rel ∈ rels := stream_rel hframe hstate hs
          exact hrel
        · exact hframe.random x hx
    · cases h
  | schedule clock timers sequences targets =>
    unfold CapabilityFrame.draw at h
    dsimp only at h
    split at h
    · split_ifs at h
      split at h
      · cases h
      · cases h
        refine ⟨hframe.allocators, hframe.random, fun s hs => ?_⟩
        rcases List.mem_append.1 hs with hs | hs
        · exact hframe.scheduled s hs
        · rw [List.mem_singleton.1 hs]
          exact hstate
    · cases h

end Drawing

/-- What was drawn goes into the patch under the relations it was drawn from. -/
theorem sealPatch_covered {row : EffectRow} {frame : CapabilityFrame} {p : Patch} (hframe : frame.Writes row.writes)
    (hp : row.Covers p) : row.Covers (frame.sealPatch p) := by
  have halloc : ∀ e ∈ frame.allocators, ∀ {p}, row.Covers p → row.Covers (e.2.1.sealPatch p) := by
    intro e he p hp
    have hrel := hframe.allocators e he
    unfold Alloc.sealPatch
    split_ifs
    · exact hp
    · exact ((hp.expect _).retract hrel).assert hrel
    · exact hp.assert hrel
  have hrandom : ∀ e ∈ frame.random, ∀ {p}, row.Covers p → row.Covers (e.2.sealPatch p) := by
    intro e he p hp
    have hrel := hframe.random e he
    unfold RngStream.sealPatch
    split_ifs
    · exact ((hp.expect _).retract hrel).assert hrel
    · exact hp
  exact .foldl (fun s hs _ hp => hp.schedule (hframe.scheduled s hs)) (.foldl hrandom (.foldl halloc hp))

/-! ## Operations -/

/-- The relations that capabilities are inferred to write are those their grants do. -/
def GrantsAgree (names : ProgramNames) (grants : Option ResolvedGrantSet) : Prop :=
  ∀ g ∈ grants, ∀ name grant, g.get name = some grant → ∃ kind, names.capability name = some (kind, grant.state)

section Operations

variable {fl : FloatOps} {prog : Program} {names : ProgramNames} {grants : Option ResolvedGrantSet} {tries : Nat}
  {selfEntity : Entity} {snap : Snapshot} {row : EffectRow}

theorem covered_kept (hrelId : names.relId = prog.relId) (hgrants : GrantsAgree names grants) {ops : List BehaviorOp}
    (hops : ∀ o, Occurs o ops → o.CoveredBy names row) :
    KeptBy prog grants tries snap (fun p fr => row.Covers p ∧ fr.Writes row.writes) ops := by
  rintro o ho p fr p' fr' hdoes ⟨hp, hfr⟩
  have hcovered := hops o ho
  cases hdoes with
  | expect => exact ⟨hp.expect _, hfr⟩
  | assert hrel =>
    obtain ⟨rel, hid, hmem⟩ := hcovered
    rw [hrelId, hrel] at hid
    exact ⟨hp.assert (Option.some.inj hid ▸ hmem), hfr⟩
  | retract hrel =>
    obtain ⟨rel, hid, hmem⟩ := hcovered
    rw [hrelId, hrel] at hid
    exact ⟨hp.retract (Option.some.inj hid ▸ hmem), hfr⟩
  | emit hrel =>
    obtain ⟨rel, hid, hmem⟩ := hcovered
    rw [hrelId, hrel] at hid
    exact ⟨hp.emit (Option.some.inj hid ▸ hmem), hfr⟩
  | @invoke capability _ _ _ _ _ _ _ hinvoke =>
    obtain ⟨-, kind, rel, hid, hmem⟩ := hcovered
    refine ⟨hp, ?_⟩
    unfold CapabilityFrame.invoke at hinvoke
    split at hinvoke
    · cases hinvoke
    · rename_i grant hget
      obtain ⟨g, hg, hget⟩ := Option.bind_eq_some_iff.1 hget
      obtain ⟨kind', hkind⟩ := hgrants g hg capability grant hget
      obtain ⟨-, rfl⟩ := Prod.mk.inj (Option.some.inj (hid.symm.trans hkind))
      exact draw_writes hfr hmem hinvoke

/-- **What operations come to is within their effects**, what they drew included. -/
theorem execute_covered (hrelId : names.relId = prog.relId) (hgrants : GrantsAgree names grants) {ops : List BehaviorOp}
    (hops : ∀ o, Occurs o ops → o.CoveredBy names row) {initial : Locals} {patch : Patch}
    (h : BehaviorIr.execute fl prog grants tries selfEntity snap ops initial = .ok (some patch)) :
    row.Covers patch := by
  unfold BehaviorIr.execute at h
  obtain ⟨out, hout, h⟩ := except_bind_ok h
  cases out with
  | none => cases h
  | some r =>
    cases h
    obtain ⟨hp, hframe⟩ := execOps_keeps ops (covered_kept hrelId hgrants hops)
      ⟨.new row, CapabilityFrame.writes_new _⟩ hout
    exact sealPatch_covered hframe hp

end Operations

/-! ## Handlers -/

/-- Effects added by arms in turn are within the row they come to, and cover each arm. -/
theorem addArmEffects_ok {prog : HandlerProgram} : ∀ {arms : List (List BehaviorOp)} {row row' : EffectRow},
    prog.addArmEffects arms row = .ok row' →
      row.Within row' ∧ ∀ ops ∈ arms, ∀ o, Occurs o ops → o.CoveredBy prog.names row'
  | [], row, row', h => by
      cases h
      exact ⟨.refl row, fun _ h => absurd h List.not_mem_nil⟩
  | arm :: arms, row, row', h => by
      obtain ⟨mid, hmid, h⟩ := except_bind_ok h
      obtain ⟨hin, hcov⟩ := addIrEffects_ok arm hmid
      obtain ⟨hin', hcov'⟩ := addArmEffects_ok h
      refine ⟨hin.trans hin', fun ops hops o ho => ?_⟩
      rcases List.mem_cons.1 hops with rfl | hops
      · exact (hcov o ho).mono hin'
      · exact hcov' ops hops o ho

/-- A lowering that answers a part of what another computes of each element, answers the
parts. -/
theorem mapM_part {α β γ : Type} {f : α → Except String β} {g : α → Except String γ} {part : β → γ}
    (hpart : ∀ a b, f a = .ok b → g a = .ok (part b)) : ∀ {l : List α} {bs : List β},
    l.mapM f = .ok bs → l.mapM g = .ok (bs.map part)
  | [], bs, h => by
      cases h
      rfl
  | a :: l, bs, h => by
      rw [List.mapM_cons] at h ⊢
      obtain ⟨b, hb, h⟩ := except_bind_ok h
      obtain ⟨rest, hrest, h⟩ := except_bind_ok h
      cases h
      rw [ok_bind (hpart a b hb), ok_bind (mapM_part hpart hrest)]
      rfl

/-- **A handler's effects are inferred from the arms it runs.** -/
theorem handlerIrs_eq {prog : HandlerProgram} {inbox : String} {handler : CompiledHandler}
    (h : prog.behavior inbox = .ok handler) : prog.handlerIrs inbox = .ok (handler.arms.map (·.ir)) := by
  unfold HandlerProgram.behavior at h
  unfold HandlerProgram.handlerIrs
  cases hon : prog.onDef inbox with
  | none =>
    simp only [hon] at h
    cases h
  | some on_ =>
    simp only [hon] at h ⊢
    obtain ⟨form, -, h⟩ := except_bind_ok h
    obtain ⟨arms, harms, h⟩ := except_bind_ok h
    obtain ⟨concatArms, hconcat, h⟩ := except_bind_ok h
    cases h
    have hstmts : on_.arms.mapM prog.lowerStmtArm = .ok (arms.map (·.ir)) :=
      mapM_part (fun arm compiled hc => by
        obtain ⟨ir, hir, hc⟩ := except_bind_ok hc
        cases hc
        exact hir) harms
    have hwords : on_.concatArms.mapM (lowerConcatArm prog.toProgram) = .ok (concatArms.map (·.ir)) :=
      mapM_part (fun arm compiled hc => by
        obtain ⟨ir, hir, hc⟩ := except_bind_ok hc
        cases hc
        exact hir) hconcat
    rw [ok_bind hstmts, ok_bind hwords, List.map_append]
    rfl

/-- What a handler is inferred to do covers each arm it runs. -/
theorem inferHandlerEffects_ok {prog : HandlerProgram} {inbox : String} {row : EffectRow} {handler : CompiledHandler}
    (h : prog.inferHandlerEffects inbox = .ok row) (hb : prog.behavior inbox = .ok handler) :
    ∀ arm ∈ handler.arms, ∀ o, Occurs o arm.ir → o.CoveredBy prog.names row := by
  unfold HandlerProgram.inferHandlerEffects at h
  rw [handlerIrs_eq hb] at h
  dsimp only at h
  cases hadd : prog.addArmEffects (handler.arms.map (·.ir)) .none with
  | error e =>
    rw [hadd] at h
    cases h
  | ok row' =>
    rw [hadd] at h
    cases h
    exact fun arm harm => (addArmEffects_ok hadd).2 _ (List.mem_map_of_mem harm)

/-- A handler's patch is new, or what one of its arms came to. -/
theorem run_of_arm {fl : FloatOps} {prog : Program} {grants : Option ResolvedGrantSet} {tries : Nat}
    {selfEntity : Entity} {snap : Snapshot} {handler : CompiledHandler} {body : Tuple} {patch : Patch}
    (h : handler.run fl prog grants tries selfEntity snap body = .ok patch) :
    patch = Patch.new ∨ ∃ arm ∈ handler.arms, ∃ initial,
      BehaviorIr.execute fl prog grants tries selfEntity snap arm.ir initial = .ok (some patch) := by
  unfold CompiledHandler.run at h
  split at h
  · cases h
  · split at h
    · split at h
      · rename_i arm harm
        obtain ⟨out, hout, h⟩ := except_bind_ok h
        cases out with
        | none =>
          cases h
          exact .inl rfl
        | some p =>
          cases h
          exact .inr ⟨arm, List.mem_of_find?_eq_some harm, _, hout⟩
      · cases h
        exact .inl rfl
    · cases h
      exact .inl rfl

/-! ## Grants of the same package -/

theorem compileCapabilities_mem {relId : String → Option RelId} : ∀ {ds : List RequireDecl}
    {known out : List (String × CapabilityKind × RelId)}, compileCapabilities relId known ds = .ok out →
      (known.map Prod.fst).Nodup → (out.map Prod.fst).Nodup ∧ (∀ c ∈ known, c ∈ out) ∧
        ∀ d ∈ ds, ∃ id, relId d.capability.2.2 = some id ∧ (d.capability.1, d.capability.2.1, id) ∈ out
  | [], known, out, h, hnodup => by
      cases h
      exact ⟨hnodup, fun _ hc => hc, fun _ hd => absurd hd List.not_mem_nil⟩
  | d :: ds, known, out, h, hnodup => by
      rw [compileCapabilities] at h
      dsimp only at h
      split at h
      · cases h
      · rename_i id hid
        split_ifs at h with htaken
        have hfresh : d.capability.1 ∉ known.map Prod.fst := by
          intro hmem
          obtain ⟨c, hc, heq⟩ := List.mem_map.1 hmem
          exact htaken (List.any_eq_true.2 ⟨c, hc, by simpa using heq⟩)
        have hnodup' : ((known ++ [(d.capability.1, d.capability.2.1, id)]).map Prod.fst).Nodup := by
          rw [List.map_append]
          exact List.nodup_append.2 ⟨hnodup, List.nodup_singleton _, fun a ha b hb hab =>
            hfresh (List.mem_singleton.1 hb ▸ hab ▸ ha)⟩
        obtain ⟨hout, hknown, hds⟩ := compileCapabilities_mem h hnodup'
        refine ⟨hout, fun c hc => hknown c (List.mem_append_left _ hc), fun x hx => ?_⟩
        rcases List.mem_cons.1 hx with rfl | hx
        · exact ⟨id, hid, hknown _ (List.mem_append_right _ (List.mem_singleton_self _))⟩
        · exact hds x hx

/-- A requirement as its program knows it. -/
def CapabilityRequirement.capability : CapabilityRequirement → String × CapabilityKind × String
  | .allocate name counter _ _ => (name, .allocate, counter)
  | .random name state _ _ => (name, .random, state)
  | .schedule name _ timers _ => (name, .schedule, timers)

theorem compileRequirement_capability {entities : Entities} {r r' : Requiring} {d : RequireDecl}
    (h : compileRequirement entities r d = .ok r') :
    ∃ x, r'.requirements = r.requirements ++ [x] ∧ x.capability = d.capability := by
  unfold compileRequirement at h
  obtain ⟨⟨x, ranges⟩, hx, h⟩ := except_bind_ok h
  dsimp only at h
  split_ifs at h
  cases h
  refine ⟨x, rfl, ?_⟩
  cases d with
  | allocate name counter first last =>
    dsimp only at hx
    split_ifs at hx
    cases hx
    rfl
  | random name state owner algorithm =>
    dsimp only at hx
    split at hx
    · cases hx
    · cases hx
      rfl
  | schedule name clock timers sequences =>
    cases hx
    rfl

/-- Each requirement is compiled from a declaration. -/
theorem compileRequirements_capability {entities : Entities} {ds : List RequireDecl}
    {requirements : List CapabilityRequirement} (h : compileRequirements entities ds = .ok requirements) :
    ∀ x ∈ requirements, ∃ d ∈ ds, x.capability = d.capability := by
  have hfold : ∀ (ds : List RequireDecl) (r r' : Requiring), ds.foldlM (compileRequirement entities) r = .ok r' →
      ∀ x ∈ r'.requirements, x ∈ r.requirements ∨ ∃ d ∈ ds, x.capability = d.capability := by
    intro ds
    induction ds with
    | nil =>
      intro r r' h x hx
      cases h
      exact .inl hx
    | cons d ds ih =>
      intro r r' h x hx
      rw [List.foldlM_cons] at h
      obtain ⟨mid, hmid, h⟩ := except_bind_ok h
      obtain ⟨y, hy, hcap⟩ := compileRequirement_capability hmid
      rcases ih mid r' h x hx with hx | ⟨d', hd', hx⟩
      · rw [hy] at hx
        rcases List.mem_append.1 hx with hx | hx
        · exact .inl hx
        · exact .inr ⟨d, .head ds, List.mem_singleton.1 hx ▸ hcap⟩
      · exact .inr ⟨d', .tail d hd', hx⟩
  unfold compileRequirements at h
  cases hres : ds.foldlM (compileRequirement entities) ⟨[], []⟩ with
  | error e =>
    rw [hres] at h
    cases h
  | ok r =>
    rw [hres] at h
    cases h
    exact fun x hx => (hfold ds _ r hres x hx).resolve_left List.not_mem_nil

/-- A grant's relation is the one its requirement names. -/
theorem grant_state {x : CapabilityRequirement} {p : Package} {targets : String → String → Option (Entity × RelId)}
    {grant : ResolvedCapabilityGrant} (h : x.grant p targets = some grant) :
    x.capability.1 = x.name ∧ p.relId x.capability.2.2 = some grant.state := by
  cases x with
  | allocate | random =>
    obtain ⟨id, hid, rfl⟩ := Option.map_eq_some_iff.1 h
    exact ⟨rfl, hid⟩
  | schedule =>
    simp only [CapabilityRequirement.grant, Option.bind_eq_bind, Option.bind_eq_some_iff] at h
    obtain ⟨_, -, timers, htimers, _, -, hgrant⟩ := h
    cases hgrant
    exact ⟨rfl, htimers⟩

/-- **What a grant of the package writes is what invoking its capability is inferred to.** -/
theorem grants_agree {prog : HandlerProgram} {grants : Option ResolvedGrantSet} (h : ∀ g ∈ grants, prog.Grants g) :
    GrantsAgree prog.names grants := by
  intro g hg name grant hget
  obtain ⟨entities, requires, requirements, p, targets, hreq, hrels, hcap, rfl⟩ := h g hg
  obtain ⟨x, hx, rfl, hgrant⟩ := requirement_of_grant hget
  obtain ⟨hname, hstate⟩ := grant_state hgrant
  obtain ⟨d, hd, hsame⟩ := compileRequirements_capability hreq x hx
  obtain ⟨hnodup, -, hmem⟩ := compileCapabilities_mem hcap List.nodup_nil
  obtain ⟨id, hid, hin⟩ := hmem d hd
  rw [← hsame] at hid hin
  have hrelId : p.relId x.capability.2.2 = prog.relId x.capability.2.2 := by
    unfold Package.relId Program.relId Program.rel
    rw [hrels]
  rw [hrelId, hid] at hstate
  refine ⟨x.capability.2.1, ?_⟩
  have hfound : prog.capabilities.find? (fun c => c.1 = x.name) = some (x.capability.1, x.capability.2.1, id) := by
    cases hf : prog.capabilities.find? (fun c => c.1 = x.name) with
    | none => exact absurd (List.find?_eq_none.1 hf _ hin) (by simp [hname])
    | some c =>
      have hc := List.mem_of_find?_eq_some hf
      have hcname : c.1 = x.name := by simpa using List.find?_some hf
      rw [List.inj_on_of_nodup_map hnodup hc hin (hcname.trans hname.symm)]
  show (prog.capabilities.find? fun c => c.1 = x.name).map Prod.snd = _
  rw [hfound, ← Option.some.inj hstate]
  rfl

/-! ## What commits refuse -/

/-- The refusal of the authority law. -/
def authorityError (authority : Authority) (rel : RelId) : Error :=
  .authority ("write to relation RelId(" ++ toString rel ++ ") outside authority domain DomainId(" ++
    toString authority.domain ++ ")")

/-- A patch that is refused meets no authority law, no schema law or no code law. -/
theorem checkPatch_error {schemas : SchemaCatalog} {checker : BehaviorChecker} {patch : Patch} {authority : Authority}
    {e : Error} (h : checkPatch schemas checker patch authority = .error e) :
    (∃ f ∈ patch.asserts ++ patch.retracts ++ patch.timers, authority.permits f = false ∧
        e = authorityError authority f.rel) ∨
      checkSchema schemas (patch.asserts ++ patch.retracts ++ patch.timers) = .error e ∨
        checkCode checker authority patch.asserts = .error e := by
  unfold checkPatch at h
  dsimp only at h
  split at h
  · rename_i f hf
    cases h
    exact .inl ⟨f, List.mem_of_find?_eq_some hf, by simpa using List.find?_some hf, rfl⟩
  · cases hs : checkSchema schemas (patch.asserts ++ patch.retracts ++ patch.timers) with
    | error e' =>
      unfold Patch.timers at hs
      rw [hs] at h
      cases h
      exact .inr (.inl rfl)
    | ok u =>
      cases hc : checkCode checker authority patch.asserts with
      | error e' =>
        unfold Patch.timers at hs
        rw [hs, hc] at h
        cases h
        exact .inr (.inr rfl)
      | ok u =>
        unfold Patch.timers at hs
        rw [hs, hc] at h
        cases h

/-- What a program's handlers and behaviors do is within what is inferred of them; and of
a handler whose effects an authority owns, the authority law refuses no patch but for the
key of a row. -/
structure EffectsBound (prog : HandlerProgram) (grants : Option ResolvedGrantSet) : Prop where
  handlers : ∀ inbox row handler, prog.inferHandlerEffects inbox = .ok row → prog.behavior inbox = .ok handler →
    ∀ fl tries selfEntity snap body patch,
      handler.run fl prog.toProgram grants tries selfEntity snap body = .ok patch → row.Covers patch
  stored : ∀ b row, inferStoredBehaviorEffects prog.names b = .ok row →
    ∀ fl tries selfEntity snap initial patch,
      BehaviorIr.execute fl prog.toProgram grants tries selfEntity snap b.body initial = .ok (some patch) →
        row.Covers patch
  commits : ∀ inbox authority row handler, prog.checkHandlerAuthority inbox authority = .ok row →
    prog.behavior inbox = .ok handler → ∀ fl tries selfEntity snap body patch,
      handler.run fl prog.toProgram grants tries selfEntity snap body = .ok patch →
        (∀ f ∈ patch.asserts ++ patch.retracts ++ patch.timers, ownsRelation authority f.rel = true) ∧
          ∀ schemas checker e, checkPatch schemas checker patch authority = .error e →
            (∃ f ∈ patch.asserts ++ patch.retracts ++ patch.timers, ownsRelation authority f.rel = true ∧
                authority.permits f = false ∧ e = authorityError authority f.rel) ∨
              checkSchema schemas (patch.asserts ++ patch.retracts ++ patch.timers) = .error e ∨
                checkCode checker authority patch.asserts = .error e

/-- A covered patch writes what an authority owns, if the authority owns the row's writes. -/
theorem EffectRow.Covers.owned {row : EffectRow} {patch : Patch} {authority : Authority} (h : row.Covers patch)
    (howned : ∀ rel ∈ row.writes, ownsRelation authority rel = true) :
    ∀ f ∈ patch.asserts ++ patch.retracts ++ patch.timers, ownsRelation authority f.rel = true := by
  intro f hf
  rcases List.mem_append.1 hf with hf | hf
  · rcases List.mem_append.1 hf with hf | hf
    · exact howned _ (h.asserts f hf)
    · exact howned _ (h.retracts f hf)
  · obtain ⟨s, hs, rfl⟩ := List.mem_map.1 hf
    exact howned _ (h.scheduled s hs)

/-- **Effect rows are sound**: what handlers and stored behaviors do is within them. -/
theorem effect_rows_sound (prog : HandlerProgram) (grants : Option ResolvedGrantSet)
    (hgrants : ∀ g ∈ grants, prog.Grants g) : EffectsBound prog grants := by
  have hagree := grants_agree hgrants
  have hhandlers : ∀ inbox row handler, prog.inferHandlerEffects inbox = .ok row →
      prog.behavior inbox = .ok handler → ∀ fl tries selfEntity snap body patch,
        handler.run fl prog.toProgram grants tries selfEntity snap body = .ok patch → row.Covers patch := by
    intro inbox row handler hrow hhandler fl tries selfEntity snap body patch hrun
    rcases run_of_arm hrun with rfl | ⟨arm, harm, initial, hexec⟩
    · exact .new row
    · exact execute_covered rfl hagree (inferHandlerEffects_ok hrow hhandler arm harm) hexec
  refine ⟨hhandlers, ?_, ?_⟩
  · intro b row hrow fl tries selfEntity snap initial patch hexec
    exact execute_covered rfl hagree (addIrEffects_ok b.body hrow).2 hexec
  · intro inbox authority row handler hcheck hhandler fl tries selfEntity snap body patch hrun
    obtain ⟨row', hrow, hcheck⟩ := except_bind_ok hcheck
    obtain ⟨_, hauth, hsame⟩ := except_bind_ok hcheck
    cases hsame
    have hok : checkAuthority row authority = .ok () := by
      cases hc : checkAuthority row authority with
      | error e =>
          rw [hc] at hauth
          cases hauth
      | ok u => rfl
    have howned := (hhandlers _ _ _ hrow hhandler _ _ _ _ _ _ hrun).owned (checkAuthority_ok hok)
    refine ⟨howned, fun schemas checker e he => ?_⟩
    rcases checkPatch_error he with ⟨f, hf, hpermits, rfl⟩ | hlaw
    · exact .inl ⟨f, hf, howned f hf, hpermits, rfl⟩
    · exact .inr hlaw

/-! ## Lots -/

/-- Draws a ticket for each message `draw`. -/
def lotProgram : HandlerProgram where
  rels := [⟨"next", 10, counterSchema.columns⟩, ⟨"lot", 11, [⟨"ticket", .ent⟩]⟩, ⟨"told", 12, [⟨"ticket", .ent⟩]⟩]
  views := []
  entities := []
  contexts := []
  viewCursor := none
  capabilities := [("ticket", .allocate, 10)]
  forms := [("drawing", [⟨[.lit "draw"], "Draw", []⟩])]
  ons := [("asked", ⟨"drawing", [⟨"Draw", [], [.fresh "ticket" "t", .fact .assert "lot" [.var "t"],
    .fact .emit "told" [.var "t"]]⟩], []⟩)]
  actors := []

def lotGrants : ResolvedGrantSet :=
  resolveGrants ⟨lotProgram.rels, 12, []⟩ (fun _ _ => none) [.allocate "ticket" "next" 1 9]

def lotHandler : CompiledHandler where
  form := ⟨[⟨.seq [.lit (.text "draw")], ⟨"Draw", []⟩⟩]⟩
  arms := [⟨"Draw", [], [.invokeCapability "ticket" [] ["t"], .assert "lot" [.value (.local_ "t")],
    .emit "told" [.value (.local_ "t")]]⟩]

def lotAt (n : Int64) : Snapshot := ⟨TraceStore.empty.commit [(10, ⟨[.int n]⟩, 1)], 1⟩

/-- What a ticket comes to: the lot, the message, and the counter moved on. -/
def lotDrawn : Patch where
  preconditions := [⟨10, ⟨[.int 1]⟩⟩]
  asserts := [⟨11, ⟨[.ent ⟨1⟩]⟩⟩, ⟨10, ⟨[.int 2]⟩⟩]
  retracts := [⟨10, ⟨[.int 1]⟩⟩]
  emits := [⟨12, ⟨[.ent ⟨1⟩]⟩⟩]
  scheduled := []
  cursorAdvance := none

theorem lot_run : lotHandler.run plainFloats lotProgram.toProgram (some lotGrants) 0 ⟨1⟩ (lotAt 1) ⟨[.text "draw"]⟩
    = .ok lotDrawn := by decide +kernel

theorem lot_effects : EffectRow.Covers ⟨[10, 11], [12], ["ticket"]⟩ lotDrawn := by
  have hgrants : ∀ g ∈ some lotGrants, lotProgram.Grants g := by
    rintro g ⟨⟩
    exact ⟨[], [.allocate "ticket" "next" 1 9], _, ⟨lotProgram.rels, 12, []⟩, fun _ _ => none, rfl, rfl, rfl, rfl⟩
  exact (effect_rows_sound lotProgram (some lotGrants) hgrants).handlers "asked" _ lotHandler rfl rfl plainFloats 0 ⟨1⟩
    (lotAt 1) ⟨[.text "draw"]⟩ lotDrawn lot_run

/-! ## Code that is copied -/

/-- A refusal names a relation as outside the authority: one that the patch writes, or
one that code in the patch does. -/
inductive RefusedFor (authority : Authority) (rel : RelId) : Error → Prop
  | law : RefusedFor authority rel (authorityError authority rel)
  | code (carrier : RelId) : RefusedFor authority rel
      (.authority ("stored behavior in relation " ++ toString carrier ++ ": " ++ (EffectError.unauthorized rel).message))

/-- Takes a behavior off the shelf for each message `install`. -/
def installProgram : HandlerProgram where
  rels := [⟨"shelf", 11, [⟨"code", .any⟩]⟩, ⟨"slot", 12, [⟨"code", .any⟩]⟩, ⟨"vault", 13, []⟩]
  views := []
  entities := []
  contexts := []
  viewCursor := none
  capabilities := []
  forms := [("installing", [⟨[.lit "install"], "Install", []⟩])]
  ons := [("asked", ⟨"installing", [⟨"Install", [], [.find "shelf" [.var "c"], .fact .assert "slot" [.var "c"]]⟩], []⟩)]
  actors := []

def installHandler : CompiledHandler where
  form := ⟨[⟨.seq [.lit (.text "install")], ⟨"Install", []⟩⟩]⟩
  arms := [⟨"Install", [], [.find "shelf" [.bind "c"], .assert "slot" [.value (.local_ "c")]]⟩]

/-- On the shelf is a behavior that writes to the vault. -/
def shelved : Fact := ⟨11, ⟨[.code (Wire.encodeBehavior (writer "vault"))]⟩⟩

def slotOwner : Authority := ⟨0, [⟨12, none⟩]⟩

theorem install_run : installHandler.run plainFloats installProgram.toProgram none 0 ⟨1⟩
    ⟨TraceStore.empty.commit [(shelved.rel, shelved.tuple, 1)], 1⟩ ⟨[.text "install"]⟩
      = .ok (Patch.new.assert ⟨12, shelved.tuple⟩) := by decide +kernel

theorem install_refused : checkPatch noSchemas (EffectChecker.mk installProgram.names none).checkFact
    (Patch.new.assert ⟨12, shelved.tuple⟩) slotOwner =
      .error (.authority ("stored behavior in relation " ++ toString 12 ++ ": " ++
        (EffectError.unauthorized 13).message)) := by
  have hfits : Wire.behaviorFits (writer "vault") :=
    ⟨⟨by decide, trivial⟩, ⟨by decide, nofun⟩, by decide, fun op hop => by
      obtain rfl := List.mem_singleton.1 hop
      exact ⟨show "vault".toUTF8.size < 2 ^ 32 by decide, by decide, nofun⟩⟩
  have hdecode := Wire.decodeBehavior_encode hfits
  have hcode : checkCode (EffectChecker.mk installProgram.names none).checkFact slotOwner
      [⟨12, shelved.tuple⟩] = .error (.authority ("stored behavior in relation " ++ toString 12 ++ ": " ++
        (EffectError.unauthorized 13).message)) := by
    show (do
      (EffectChecker.mk installProgram.names none).checkCell 12 slotOwner (.code (Wire.encodeBehavior (writer "vault")))
      _ : Result Unit) = _
    rw [EffectChecker.checkCell, hdecode]
    rfl
  unfold checkPatch
  show (do
    checkSchema noSchemas [⟨12, shelved.tuple⟩]
    checkCode (EffectChecker.mk installProgram.names none).checkFact slotOwner [⟨12, shelved.tuple⟩]
    _ : Result CheckedPatch) = _
  rw [hcode]
  rfl

/-- **A handler whose effects its authority owns is refused for a relation the authority
does not own, where it copies code that writes there.** -/
theorem copied_code_refused : ¬ ∀ (prog : HandlerProgram) (grants : Option ResolvedGrantSet),
    (∀ g ∈ grants, prog.Grants g) → ∀ inbox authority row handler,
      prog.checkHandlerAuthority inbox authority = .ok row → prog.behavior inbox = .ok handler →
        ∀ fl tries selfEntity snap body patch,
          handler.run fl prog.toProgram grants tries selfEntity snap body = .ok patch → ∀ schemas e rel,
            checkPatch schemas (EffectChecker.mk prog.names grants).checkFact patch authority = .error e →
              RefusedFor authority rel e → ownsRelation authority rel = true := by
  intro h
  exact absurd (h installProgram none nofun "asked" slotOwner _ installHandler rfl rfl plainFloats 0 ⟨1⟩ _ _ _
    install_run noSchemas _ 13 install_refused (.code 12)) (by decide)

end Grmpl

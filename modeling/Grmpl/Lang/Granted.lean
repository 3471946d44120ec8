import Grmpl.Lang.Requirements
import Mathlib.Data.List.Nodup
import Mathlib.Data.List.Pairwise
import Mathlib.Tactic.Ring

/-!
# The grants of an accepted package

What the checks of a package's requirements come to for the grants they resolve to: their
counters, ranges and state relations are apart. And what its bootstrap leaves in the
relations they keep their state in.

* `GrantsSound`: the grants of an accepted package, `accepted_grants`.
* `Seeds`: their state, `accepted_seeds`.
-/

namespace Grmpl

/-- Counters, ranges and state relations are apart. -/
structure GrantsSound (grants : ResolvedGrantSet) : Prop where
  range : ∀ {n counter first last}, grants.get n = some (.allocate counter first last) →
    0 ≤ first ∧ first ≤ last ∧ last ≠ Int64.maxValue
  counters : ∀ {n m counter first last first' last'}, grants.get n = some (.allocate counter first last) →
    grants.get m = some (.allocate counter first' last') → n = m
  ranges : ∀ {n m counter first last counter' first' last'}, grants.get n = some (.allocate counter first last) →
    grants.get m = some (.allocate counter' first' last') → n ≠ m → last < first' ∨ last' < first
  apart : ∀ {n m rel owner algorithm first last}, grants.get n = some (.random rel owner algorithm) →
    grants.get m ≠ some (.allocate rel first last)
  timers : ∀ {n m clock timers sequences targets first last},
    grants.get n = some (.schedule clock timers sequences targets) → grants.get m ≠ some (.allocate timers first last)
  timersRandom : ∀ {n m clock timers sequences targets owner algorithm},
    grants.get n = some (.schedule clock timers sequences targets) → grants.get m ≠ some (.random timers owner algorithm)

/-- A relation a capability keeps its state in. -/
def ResolvedGrantSet.Holds (grants : ResolvedGrantSet) (rel : RelId) : Prop :=
  (∃ n first last, grants.get n = some (.allocate rel first last)) ∨
    ∃ n owner algorithm, grants.get n = some (.random rel owner algorithm)

/-- Each counter holds its first value, each generator's owner a state that is not zero. -/
structure Seeds (grants : ResolvedGrantSet) (updates : List (RelId × Tuple × Diff)) : Prop where
  counters : ∀ {n counter first last}, grants.get n = some (.allocate counter first last) →
    ∀ t, netOn counter t updates = if t = ⟨[.int first]⟩ then 1 else 0
  generators : ∀ {n rel owner algorithm}, grants.get n = some (.random rel owner algorithm) →
    ∃ seed : Int64, seed ≠ 0 ∧ ∀ t : Tuple, t.cells.head? = some (.ent owner) →
      netOn rel t updates = if t = ⟨[.ent owner, .int seed]⟩ then 1 else 0

/-! ## Names, relations and schemas -/

section Names

variable {d : CapabilityDecls} {base : Nat} {w w' : WorldStore} {p : Package}

/-- A name finds its declaration where it finds its relation. -/
theorem find_declared {ds : List (String × Except String (List Column))} {rs : List RelInfo}
    (h : List.Forall₂ (fun d r => r.name = d.1 ∧ d.2 = .ok r.columns) ds rs) (name : String) :
    (ds.find? fun d => d.1 = name).bind (fun d => d.2.toOption.map Schema.mk)
      = (rs.find? fun r => r.name = name).map fun r => ⟨r.columns⟩ := by
  induction h with
  | nil => rfl
  | @cons e r ds rs hdr _ ih =>
    by_cases hname : e.1 = name
    · rw [List.find?_cons_of_pos (by simpa using hname), List.find?_cons_of_pos (by simpa [hdr.1] using hname),
        Option.bind_some, hdr.2]
      rfl
    · rw [List.find?_cons_of_neg (by simpa using hname), List.find?_cons_of_neg (by simpa [hdr.1] using hname)]
      exact ih

theorem schema_eq (h : d.source.compile base w = (w', .ok p)) (name : String) :
    d.schema name = (p.rels.find? fun r => r.name = name).map fun r => ⟨r.columns⟩ :=
  find_declared (PackageSource.compile_columns h) name

theorem mem_of_packageRelId {name : String} {id : RelId} (h : p.relId name = some id) :
    ∃ r ∈ p.rels, r.name = name ∧ r.id = id := by
  obtain ⟨r, hr, rfl⟩ := Option.map_eq_some_iff.1 h
  exact ⟨r, List.mem_of_find?_eq_some hr, by simpa using List.find?_some hr, rfl⟩

/-- Two names of a package stand for one relation only if they are one. -/
theorem name_eq_of_id (hw : w.Apart) (h : d.source.compile base w = (w', .ok p)) {r r' : RelInfo}
    (hr : r ∈ p.rels) (hr' : r' ∈ p.rels) (hid : r.id = r'.id) : r.name = r'.name := by
  have hbound := (PackageSource.compile_bound h).1
  exact (PackageSource.compile_apart hw h).name_eq (hbound r hr) (hid ▸ hbound r' hr')

theorem name_eq_of_relId (hw : w.Apart) (h : d.source.compile base w = (w', .ok p)) {a b : String} {id : RelId}
    (ha : p.relId a = some id) (hb : p.relId b = some id) : a = b := by
  obtain ⟨r, hr, rfl, hid⟩ := mem_of_packageRelId ha
  obtain ⟨r', hr', rfl, hid'⟩ := mem_of_packageRelId hb
  exact name_eq_of_id hw h hr hr' (hid.trans hid'.symm)

/-- Relations of two schemas are two relations. -/
theorem relId_ne (hw : w.Apart) (h : d.source.compile base w = (w', .ok p)) {a b : String} {id id' : RelId}
    {s s' : Schema} (ha : p.relId a = some id) (hb : p.relId b = some id') (hs : d.schema a = some s)
    (hs' : d.schema b = some s') (hne : s ≠ s') : id ≠ id' := by
  rintro rfl
  have hab := name_eq_of_relId hw h ha hb
  rw [hab, hs'] at hs
  exact hne (Option.some.inj hs).symm

end Names

/-! ## The grants -/

/-- The checks of an accepted package. -/
structure CapabilityDecls.Accepted (d : CapabilityDecls) (requirements : List CapabilityRequirement)
    (facts : List (String × Tuple)) : Prop where
  compiled : d.requirements = .ok requirements
  schemas : ∀ r ∈ requirements, r.SchemasSound d.schema
  counters : (requirements.filterMap (·.counter?)).Nodup
  seeded : ∀ r ∈ requirements, r.Seeded facts
  bootstrap : BootstrapSound d.schema facts
  source : d.source.bootstrap = facts

section Accepted

variable {d : CapabilityDecls} {base : Nat} {w w' : WorldStore} {p : Package}
  {requirements : List CapabilityRequirement} {facts : List (String × Tuple)}
  {targets : String → String → Option (Entity × RelId)}

theorem accepted_of_compile (h : d.source.compile base w = (w', .ok p)) :
    ∃ requirements facts, d.Accepted requirements facts := by
  have hbehaviors : d.source.behaviors = .ok () := by
    obtain ⟨-, h⟩ := Load.check_ok h
    obtain ⟨w₁, declared, -, h⟩ := Load.andThen_ok h
    obtain ⟨-, h⟩ := Load.check_ok h
    obtain ⟨w₂, stored, -, h⟩ := Load.andThen_ok h
    obtain ⟨-, h⟩ := Load.check_ok h
    exact (PackageSource.finish_ok h).2.1
  cases hchecks : d.checks with
  | error e =>
    have hsame : d.checks.map (fun _ => ()) = .ok () := hbehaviors
    rw [hchecks] at hsame
    cases hsame
  | ok facts =>
    have hall := hchecks
    unfold CapabilityDecls.checks at hall
    obtain ⟨requirements, hreq, hall⟩ := except_bind_ok hall
    obtain ⟨_, hvalid, hall⟩ := except_bind_ok hall
    obtain ⟨_, -, hall⟩ := except_bind_ok hall
    obtain ⟨out, hboot, hall⟩ := except_bind_ok hall
    obtain ⟨_, hseeds, hout⟩ := except_bind_ok hall
    cases hout
    obtain ⟨hschemas, hcounters, -⟩ := validateRequirements_ok hvalid
    have hnone : BootstrapSound d.schema [] := ⟨List.nodup_nil, fun f hf => absurd hf List.not_mem_nil⟩
    refine ⟨requirements, facts, hreq, hschemas, hcounters, validateResourceSeeds_ok hseeds,
      compileBootstrap_ok hboot hnone, ?_⟩
    show d.checks.toOption.getD [] = facts
    rw [hchecks]
    rfl

/-- A grant is some requirement's. -/
theorem requirement_of_grant {n : String} {g : ResolvedCapabilityGrant}
    (hg : (resolveGrants p targets requirements).get n = some g) :
    ∃ r ∈ requirements, r.name = n ∧ r.grant p targets = some g := by
  obtain ⟨r, hr, hg⟩ := Option.bind_eq_some_iff.1 hg
  exact ⟨r, List.mem_of_find?_eq_some hr, by simpa using List.find?_some hr, hg⟩

theorem allocate_of_grant {n : String} {counter : RelId} {first last : Int64}
    (hg : (resolveGrants p targets requirements).get n = some (.allocate counter first last)) :
    ∃ name, .allocate n name first last ∈ requirements ∧ p.relId name = some counter := by
  obtain ⟨r, hr, rfl, hgrant⟩ := requirement_of_grant hg
  cases r with
  | allocate name counterName first' last' =>
    obtain ⟨id, hid, hsame⟩ := Option.map_eq_some_iff.1 hgrant
    cases hsame
    exact ⟨_, hr, hid⟩
  | random name state owner algorithm =>
    obtain ⟨id, -, hsame⟩ := Option.map_eq_some_iff.1 hgrant
    cases hsame
  | schedule name clock timers sequences =>
    simp only [CapabilityRequirement.grant, Option.bind_eq_bind, Option.bind_eq_some_iff] at hgrant
    obtain ⟨_, _, _, _, _, _, hsame⟩ := hgrant
    cases hsame

theorem random_of_grant {n : String} {rel : RelId} {owner : Entity} {algorithm : String}
    (hg : (resolveGrants p targets requirements).get n = some (.random rel owner algorithm)) :
    ∃ name, .random n name owner algorithm ∈ requirements ∧ p.relId name = some rel := by
  obtain ⟨r, hr, rfl, hgrant⟩ := requirement_of_grant hg
  cases r with
  | allocate name counterName first' last' =>
    obtain ⟨id, -, hsame⟩ := Option.map_eq_some_iff.1 hgrant
    cases hsame
  | random name state owner algorithm =>
    obtain ⟨id, hid, hsame⟩ := Option.map_eq_some_iff.1 hgrant
    cases hsame
    exact ⟨_, hr, hid⟩
  | schedule name clock timers sequences =>
    simp only [CapabilityRequirement.grant, Option.bind_eq_bind, Option.bind_eq_some_iff] at hgrant
    obtain ⟨_, _, _, _, _, _, hsame⟩ := hgrant
    cases hsame

theorem schedule_of_grant {n : String} {clock timers sequences : RelId}
    {allowed : String → Option (Entity × RelId)}
    (hg : (resolveGrants p targets requirements).get n = some (.schedule clock timers sequences allowed)) :
    ∃ clockName name sequencesName, .schedule n clockName name sequencesName ∈ requirements ∧
      p.relId name = some timers := by
  obtain ⟨r, hr, rfl, hgrant⟩ := requirement_of_grant hg
  cases r with
  | allocate name counterName first' last' =>
    obtain ⟨id, -, hsame⟩ := Option.map_eq_some_iff.1 hgrant
    cases hsame
  | random name state owner algorithm =>
    obtain ⟨id, -, hsame⟩ := Option.map_eq_some_iff.1 hgrant
    cases hsame
  | schedule name clock timers sequences =>
    simp only [CapabilityRequirement.grant, Option.bind_eq_bind, Option.bind_eq_some_iff] at hgrant
    obtain ⟨_, -, _, htimers, _, -, hsame⟩ := hgrant
    cases hsame
    exact ⟨_, _, _, hr, htimers⟩

/-- Two entries with one image, in a list whose images are distinct, are one. -/
theorem eq_of_filterMap_nodup {α β : Type} {f : α → Option β} : ∀ {l : List α}, (l.filterMap f).Nodup →
    ∀ {a b : α} {c : β}, a ∈ l → b ∈ l → f a = some c → f b = some c → a = b := by
  intro l
  induction l with
  | nil => exact fun _ _ _ _ ha => absurd ha List.not_mem_nil
  | cons x l ih =>
    intro h a b c ha hb hfa hfb
    cases hfx : f x with
    | none =>
      rw [List.filterMap_cons_none hfx] at h
      have ha' : a ∈ l := (List.mem_cons.1 ha).resolve_left fun hax => by rw [hax, hfx] at hfa; cases hfa
      have hb' : b ∈ l := (List.mem_cons.1 hb).resolve_left fun hbx => by rw [hbx, hfx] at hfb; cases hfb
      exact ih h ha' hb' hfa hfb
    | some y =>
      rw [List.filterMap_cons_some hfx, List.nodup_cons] at h
      -- the head is met again by no later entry with its image
      have hmeets : ∀ z ∈ l, f z ≠ some y := fun z hz hfz => h.1 (List.mem_filterMap.2 ⟨z, hz, hfz⟩)
      rcases List.mem_cons.1 ha with rfl | ha' <;> rcases List.mem_cons.1 hb with rfl | hb'
      · rfl
      · rw [hfx] at hfa
        exact absurd (hfb.trans hfa.symm) (hmeets b hb')
      · rw [hfx] at hfb
        exact absurd (hfa.trans hfb.symm) (hmeets a ha')
      · exact ih h.2 ha' hb' hfa hfb

theorem CapabilityRequirement.RangesApart.symm {a b : CapabilityRequirement} (h : a.RangesApart b) :
    b.RangesApart a := by
  cases a with
  | allocate => cases b with
    | allocate => exact Or.symm h
    | _ => trivial
  | _ => cases b <;> trivial

instance : Std.Symm CapabilityRequirement.RangesApart := ⟨fun _ _ h => h.symm⟩

/-- **The grants of an accepted package are apart.** -/
theorem accepted_grants (hw : w.Apart) (h : d.source.compile base w = (w', .ok p))
    (hok : d.Accepted requirements facts) : GrantsSound (resolveGrants p targets requirements) := by
  obtain ⟨r, hr, rfl⟩ := compileRequirements_sound hok.compiled
  have hcounterSchema : ∀ {n name first last}, CapabilityRequirement.allocate n name first last ∈ r.requirements →
      d.schema name = some counterSchema := fun hmem => hok.schemas _ hmem
  have hrngSchema : ∀ {n name owner algorithm}, CapabilityRequirement.random n name owner algorithm ∈ r.requirements →
      d.schema name = some rngSchema := fun hmem => (hok.schemas _ hmem).1
  refine ⟨fun hg => ?_, fun hg hg' => ?_, fun hg hg' hne => ?_, fun hg hg' => ?_, fun hg hg' => ?_,
    fun hg hg' => ?_⟩
  · obtain ⟨name, hmem, -⟩ := allocate_of_grant hg
    exact (hr.ranges _ hmem).1
  · obtain ⟨name, hmem, hid⟩ := allocate_of_grant hg
    obtain ⟨name', hmem', hid'⟩ := allocate_of_grant hg'
    obtain rfl := name_eq_of_relId hw h hid hid'
    exact congrArg CapabilityRequirement.name (eq_of_filterMap_nodup hok.counters hmem hmem' rfl rfl)
  · obtain ⟨name, hmem, -⟩ := allocate_of_grant hg
    obtain ⟨name', hmem', -⟩ := allocate_of_grant hg'
    refine hr.apart.forall hmem' hmem fun heq => hne ?_
    exact (congrArg CapabilityRequirement.name heq).symm
  · obtain ⟨name, hmem, hid⟩ := random_of_grant hg
    obtain ⟨name', hmem', hid'⟩ := allocate_of_grant hg'
    exact relId_ne hw h hid hid' (hrngSchema hmem) (hcounterSchema hmem') (by decide) rfl
  · obtain ⟨_, name, _, hmem, hid⟩ := schedule_of_grant hg
    obtain ⟨name', hmem', hid'⟩ := allocate_of_grant hg'
    exact relId_ne hw h hid hid' (hok.schemas _ hmem).2.1 (hcounterSchema hmem') (by decide) rfl
  · obtain ⟨_, name, _, hmem, hid⟩ := schedule_of_grant hg
    obtain ⟨name', hmem', hid'⟩ := random_of_grant hg'
    exact relId_ne hw h hid hid' (hok.schemas _ hmem).2.1 (hrngSchema hmem') (by decide) rfl

/-! ## What the bootstrap leaves -/

theorem register_trace {name : String} {id : RelId} (h : w.register name id = .ok w') : w'.trace = w.trace := by
  unfold WorldStore.register at h
  split at h
  · split_ifs at h
    cases h
    rfl
  · cases h
    rfl

theorem registerSchemas_trace {at' : Nat} : ∀ {l : List RelInfo} {w : WorldStore},
    (registerSchemas at' l w).1.trace = w.trace := by
  intro l
  induction l with
  | nil => exact rfl
  | cons r l ih =>
    intro w
    unfold registerSchemas
    split
    · rfl
    · rename_i w₁ hw₁
      have hsame : w₁.trace = w.trace := register_trace hw₁
      split
      · exact hsame
      · exact ih.trans hsame

/-- A package loaded into an empty store leaves its bootstrap and its marker there. -/
theorem loadPackage_fresh {P : PackageSource} (hw : w.trace = TraceStore.empty)
    (h : loadPackage base P w = (w', .ok p)) : ∃ w₁ updates, P.compile base w = (w₁, .ok p) ∧
      w'.trace = TraceStore.empty.commit updates ∧
        updates.Perm (p.bootstrapRows ++ [(p.markerRelation, P.marker, 1)]) := by
  obtain ⟨w₁, p', hcompile, h⟩ := Load.andThen_ok h
  obtain ⟨-, h⟩ := Load.check_ok h
  obtain ⟨w₂, _, hregister, h⟩ := Load.andThen_ok h
  obtain ⟨w₃, _, hinstall, h⟩ := Load.andThen_ok h
  obtain ⟨-, h⟩ := Load.check_ok h
  obtain ⟨rfl, hp⟩ := Prod.mk.inj h
  obtain rfl := Except.ok.inj hp
  have hext := P.compile_extends base w
  rw [hcompile] at hext
  have hempty : w₂.trace = TraceStore.empty := by
    have hsame : (registerSchemas (w₁.trace.current + 1) p'.byId w₁).1.trace = w₁.trace := registerSchemas_trace
    rw [hregister] at hsame
    exact hsame.trans (hext.trace.trans hw)
  have hnone : w₂.trace.rowsAt p'.markerRelation w₂.trace.current = [] := by
    rw [hempty]
    rfl
  have hzero : w₂.trace.current = 0 := by
    rw [hempty]
    rfl
  unfold install at hinstall
  rw [hnone] at hinstall
  dsimp only at hinstall
  rw [if_neg (not_not.2 hzero)] at hinstall
  split at hinstall
  · cases (Prod.mk.inj hinstall).2
  · obtain ⟨rfl, -⟩ := Prod.mk.inj hinstall
    exact ⟨w₁, _, hcompile, by rw [hempty], List.perm_insertionSort _ _⟩

/-- The facts of one relation are its rows. -/
theorem netOn_bootstrap {rels : List RelInfo} {rel : RelId} {name : String}
    (hname : ∀ r ∈ rels, r.id = rel ↔ r.name = name) (t : Tuple) :
    ∀ {facts : List (String × Tuple)} {rows : List (RelId × Tuple × Diff)},
      facts.mapM (bootstrapRow rels) = .ok rows →
        netOn rel t rows = (facts.countP fun f => f.1 = name ∧ f.2 = t : Nat) := by
  intro facts
  induction facts with
  | nil =>
    intro rows h
    cases h
    rfl
  | cons f facts ih =>
    intro rows h
    rw [List.mapM_cons] at h
    obtain ⟨row, hrow, h⟩ := except_bind_ok h
    obtain ⟨rows', hrows', h⟩ := except_bind_ok h
    cases h
    unfold bootstrapRow at hrow
    split at hrow
    · rename_i r hr
      cases hrow
      have hmem := List.mem_of_find?_eq_some hr
      have hf : r.name = f.1 := by simpa using List.find?_some hr
      rw [netOn_cons, ih hrows', List.countP_cons]
      have hiff : (r.id = rel ∧ f.2 = t) ↔ (f.1 = name ∧ f.2 = t) := by rw [hname r hmem, hf]
      by_cases hcond : f.1 = name ∧ f.2 = t
      · rw [if_pos (hiff.2 hcond), if_pos (by simpa using hcond)]
        push_cast
        ring
      · rw [if_neg fun h => hcond (hiff.1 h), if_neg (by simpa using hcond)]
        simp
    · cases hrow

/-- A relation of a package by its name and its schema. -/
theorem schema_of_mem {rels : List RelInfo} (h : d.source.compile base w = (w', .ok p))
    (hrels : p.rels = rels ++ [⟨installMarkerRelation, p.markerRelation, markerColumns⟩])
    (hnodup : (rels.map (·.name)).Nodup) {r : RelInfo} (hr : r ∈ rels) : d.schema r.name = some ⟨r.columns⟩ := by
  rw [schema_eq h, hrels, List.find?_append]
  obtain ⟨x, hx⟩ := Option.isSome_iff_exists.1
    (List.find?_isSome (p := fun x : RelInfo => decide (x.name = r.name)).2 ⟨r, hr, by simp⟩)
  have hname : x.name = r.name := by simpa using List.find?_some hx
  obtain rfl : x = r := List.inj_on_of_nodup_map hnodup (List.mem_of_find?_eq_some hx) hr hname
  rw [hx]
  rfl

/-- What the bootstrap puts into a relation that is neither a view's cursor nor the
marker's: its facts. -/
theorem netOn_install (hw : w.Apart) (h : d.source.compile base w = (w', .ok p)) (hok : d.Accepted requirements facts)
    {updates : List (RelId × Tuple × Diff)} {m : Tuple}
    (hperm : updates.Perm (p.bootstrapRows ++ [(p.markerRelation, m, 1)])) {name : String} {rel : RelId}
    {schema : Schema} (hid : p.relId name = some rel) (hschema : d.schema name = some schema)
    (hcursor : schema ≠ ⟨viewCursorColumns⟩) (hmarker : name ≠ installMarkerRelation) (t : Tuple) :
    netOn rel t updates = (facts.countP fun f => f.1 = name ∧ f.2 = t : Nat) := by
  obtain ⟨rels, stored, rows, hrels, hnodup, hsub, hstored, hrows, hboot⟩ := PackageSource.compile_rows h
  obtain ⟨x, hx, rfl, rfl⟩ := mem_of_packageRelId hid
  have hxrels : x ∈ rels := by
    rw [hrels] at hx
    rcases List.mem_append.1 hx with hx | hx
    · exact hx
    · rw [List.mem_singleton.1 hx] at hmarker
      exact absurd rfl hmarker
  have hin : ∀ r ∈ rels, r ∈ p.rels := fun r hr => hrels ▸ List.mem_append_left _ hr
  have hsame : ∀ r ∈ rels, r.id = x.id ↔ r.name = x.name := fun r hr =>
    ⟨fun heq => name_eq_of_id hw h (hin r hr) hx heq,
      fun heq => congrArg RelInfo.id (List.inj_on_of_nodup_map hnodup hr hxrels heq)⟩
  have hcursors : netOn x.id t (cursorRows stored) = 0 := by
    refine netOn_eq_zero fun u hu hrow => ?_
    cases hsd : d.rest.stored with
    | nil =>
      rw [show d.source.stored = d.rest.stored from rfl, hsd] at hstored
      cases hstored
      exact absurd hu List.not_mem_nil
    | cons c cs =>
      rw [show d.source.stored = d.rest.stored from rfl, hsd] at hstored
      obtain ⟨cursor, backing, ⟨hcname, hccols⟩, -, rfl⟩ := List.forall₂_cons_left_iff.1 hstored
      obtain ⟨b, -, rfl⟩ := List.mem_map.1 hu
      have hcols := d.stored_cursor c (by rw [hsd]; rfl)
      rw [hccols] at hcols
      have hmem := hsub cursor List.mem_cons_self
      have hcsame := schema_of_mem h hrels hnodup hmem
      rw [(hsame cursor hmem).1 hrow.1, hschema, Except.ok.inj hcols] at hcsame
      exact hcursor (Option.some.inj hcsame)
  have hmarked : netOn x.id t [(p.markerRelation, m, 1)] = 0 := by
    refine netOn_eq_zero fun u hu hrow => hmarker ?_
    obtain rfl := List.mem_singleton.1 hu
    have hin : (⟨installMarkerRelation, p.markerRelation, markerColumns⟩ : RelInfo) ∈ p.rels :=
      hrels ▸ List.mem_append_right _ (List.mem_singleton.2 rfl)
    exact name_eq_of_id hw h hx hin hrow.1.symm
  rw [netOn_perm hperm, hboot, netOn_append, netOn_append, hcursors, hmarked, add_zero, add_zero,
    netOn_bootstrap hsame t hrows, hok.source]

/-- Of facts that meet a condition one is, or is not, a row. -/
theorem countP_of_filter {p : String × Tuple → Bool} {q : String × Tuple → Bool} {f : String × Tuple}
    (h : facts.filter p = [f]) (hpq : ∀ g, q g = true → p g = true) :
    facts.countP q = if q f = true then 1 else 0 := by
  have hsame : (facts.filter p).countP q = facts.countP q := by
    rw [List.countP_filter]
    refine List.countP_congr fun g _ => ?_
    rw [Bool.and_eq_true]
    exact ⟨fun h => h.1, fun h => ⟨h, hpq g h⟩⟩
  rw [← hsame, h, List.countP_singleton]

/-- A conforming row of a generator is its owner and a state. -/
theorem row_of_conforms {t : Tuple} {owner : Entity} {seed : Int64} (h : rngSchema.Conforms t)
    (howner : t.cells.head? = some (.ent owner)) (hseed : t.cells[1]? = some (Value.int seed)) :
    t = ⟨[.ent owner, .int seed]⟩ := by
  obtain ⟨cells⟩ := t
  obtain ⟨a, rest, -, hrest, rfl⟩ := List.forall₂_cons_left_iff.1 h
  obtain ⟨b, rest', -, hnil, rfl⟩ := List.forall₂_cons_left_iff.1 hrest
  cases hnil
  obtain rfl := Option.some.inj howner
  obtain rfl := Option.some.inj hseed
  rfl

/-- **The bootstrap of an accepted package seeds its capabilities.** -/
theorem accepted_seeds (hw : w.Apart) (h : d.source.compile base w = (w', .ok p)) (hok : d.Accepted requirements facts)
    {updates : List (RelId × Tuple × Diff)} {m : Tuple}
    (hperm : updates.Perm (p.bootstrapRows ++ [(p.markerRelation, m, 1)])) :
    Seeds (resolveGrants p targets requirements) updates := by
  refine ⟨fun {n counter first last} hg t => ?_, fun {n rel owner algorithm} hg => ?_⟩
  · obtain ⟨name, hmem, hid⟩ := allocate_of_grant hg
    have hseed : (facts.filter fun f => f.1 = name).map Prod.snd = [⟨[.int first]⟩] := hok.seeded _ hmem
    obtain ⟨f, hf, hrow⟩ : ∃ f, facts.filter (fun f => f.1 = name) = [f] ∧ f.2 = ⟨[.int first]⟩ := by
      rw [List.map_eq_singleton_iff] at hseed
      exact hseed
    have hfmem : f ∈ facts ∧ f.1 = name := by
      have := List.mem_filter.1 (hf ▸ List.mem_singleton.2 rfl : f ∈ facts.filter fun f => f.1 = name)
      simpa using this
    rw [netOn_install hw h hok hperm hid (hok.schemas _ hmem) (by decide)
      (hfmem.2 ▸ (hok.bootstrap.conforms f hfmem.1).1), countP_of_filter hf fun g hg => by simp at hg; simp [hg.1]]
    by_cases ht : t = ⟨[.int first]⟩
    · rw [if_pos (by simp [hfmem.2, hrow, ht]), if_pos ht]
      rfl
    · rw [if_neg (by simp [hrow, Ne.symm ht]), if_neg ht]
      rfl
  · obtain ⟨name, hmem, hid⟩ := random_of_grant hg
    obtain ⟨hschema, -⟩ : d.schema name = some rngSchema ∧ _ := hok.schemas _ hmem
    obtain ⟨seed, hseed, hone⟩ : ∃ seed : Int64, seed ≠ 0 ∧
      (facts.filter fun f => f.1 = name ∧ f.2.cells.head? = some (.ent owner)).map (fun f => f.2.cells[1]?)
        = [some (Value.int seed)] := hok.seeded _ hmem
    rw [List.map_eq_singleton_iff] at hone
    obtain ⟨f, hf, hcell⟩ := hone
    have hfmem : f ∈ facts ∧ f.1 = name ∧ f.2.cells.head? = some (.ent owner) := by
      have := List.mem_filter.1 (hf ▸ List.mem_singleton.2 rfl : f ∈ facts.filter fun f =>
        f.1 = name ∧ f.2.cells.head? = some (.ent owner))
      simpa using this
    obtain ⟨hfm, s, hs, hconf⟩ := hok.bootstrap.conforms f hfmem.1
    rw [hfmem.2.1, hschema] at hs
    obtain rfl := Option.some.inj hs
    have hrow : f.2 = ⟨[.ent owner, .int seed]⟩ := row_of_conforms hconf hfmem.2.2 hcell
    refine ⟨seed, hseed, fun t ht => ?_⟩
    rw [netOn_install hw h hok hperm hid hschema (by decide) (hfmem.2.1 ▸ hfm),
      countP_of_filter hf fun g hg => by simp at hg; simp [hg.1, hg.2, ht]]
    by_cases hsame : t = ⟨[.ent owner, .int seed]⟩
    · rw [if_pos (by simp [hfmem.2.1, hrow, hsame]), if_pos hsame]
      rfl
    · rw [if_neg (by simp [hrow, Ne.symm hsame]), if_neg hsame]
      rfl

end Accepted

end Grmpl

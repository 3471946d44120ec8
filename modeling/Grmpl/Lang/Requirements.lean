import Grmpl.Lang.Effect
import Grmpl.Lang.PackageLoad

/-!
# What a package requires

A package declares the capabilities it requires: allocators with a counter and a range,
generators with a state relation and an owner, schedulers. The compiler checks the
declarations, the schemas of their relations, and that the bootstrap seeds each counter
and each generator's row.

* `RequireDecl`, `CapabilityRequirement`, `compileRequirements`, `validateRequirements`.
* `BootstrapValue`, `compileBootstrap`, `validateResourceSeeds`.
* `CapabilityDecls.source`: a package source with these checks in their places.
* `resolveGrants`: the grants, their relations the store's.
* `Accepted`: what the checks leave true of an accepted package.
-/

namespace Grmpl

/-- A requirement as it is written. -/
inductive RequireDecl where
  | allocate (name counter : String) (first last : Int64)
  | random (name state owner algorithm : String)
  | schedule (name clock timers sequences : String)
  deriving DecidableEq

inductive CapabilityRequirement where
  | allocate (name counter : String) (first last : Int64)
  | random (name state : String) (owner : Entity) (algorithm : String)
  | schedule (name clock timers sequences : String)
  deriving DecidableEq

def CapabilityRequirement.name : CapabilityRequirement → String
  | .allocate name .. | .random name .. | .schedule name .. => name

/-- The values of a bootstrap fact as they are written. -/
inductive BootstrapValue where
  | entity (name : String)
  | int (n : Int64)
  | float (x : FiniteF64)
  | text (s : String)
  | bool (b : Bool)
  | tuple (values : List BootstrapValue)

abbrev Entities := List (String × Entity)

def Entities.get (entities : Entities) (name : String) : Option Entity :=
  (entities.find? fun e => e.1 = name).map (·.2)

/-! ## Requirements -/

/-- What has been compiled so far: the requirements, and the ranges they allocate in. -/
structure Requiring where
  requirements : List CapabilityRequirement
  ranges : List (String × Int64 × Int64)

/-- One requirement: an allocator's range is well formed, holds no entity constant and
overlaps no other; a generator's owner is an entity constant; no name is taken. -/
def compileRequirement (entities : Entities) (r : Requiring) (decl : RequireDecl) : Except String Requiring := do
  let (requirement, ranges) ← (match decl with
    | .allocate name counter first last => do
        if first < 0 ∨ last < first ∨ last = Int64.maxValue then
          .error ("allocate requirement `" ++ name ++
            "` has invalid range; the final counter successor must fit Int")
        else if entities.any (fun e => decide (first ≤ e.2.id.toInt64 ∧ e.2.id.toInt64 ≤ last)) then
          .error ("entity id lies inside allocation range `" ++ name ++ "`")
        else if r.ranges.any (fun x => decide (first ≤ x.2.2 ∧ x.2.1 ≤ last)) then
          .error ("allocation ranges overlap at `" ++ name ++ "`")
        else return (.allocate name counter first last, r.ranges ++ [(name, first, last)])
    | .random name state owner algorithm =>
        match entities.get owner with
        | none => .error ("random requirement `" ++ name ++ "` has unknown owner `" ++ owner ++ "`")
        | some owner => .ok (.random name state owner algorithm, r.ranges)
    | .schedule name clock timers sequences => .ok (.schedule name clock timers sequences, r.ranges) :
      Except String (CapabilityRequirement × List (String × Int64 × Int64)))
  if r.requirements.any fun x => x.name = requirement.name then
    .error ("capability `" ++ requirement.name ++ "` is declared twice")
  else return ⟨r.requirements ++ [requirement], ranges⟩

def compileRequirements (entities : Entities) (decls : List RequireDecl) :
    Except String (List CapabilityRequirement) :=
  (decls.foldlM (compileRequirement entities) ⟨[], []⟩).map (·.requirements)

def counterSchema : Schema := ⟨[⟨"next", .int⟩]⟩

def rngSchema : Schema := ⟨[⟨"owner", .ent⟩, ⟨"state", .int⟩]⟩

def clockSchema : Schema := ⟨[⟨"seq", .int⟩, ⟨"wall_ms", .int⟩, ⟨"random", .int⟩]⟩

def timersSchema : Schema := ⟨[⟨"due", .int⟩, ⟨"inbox", .int⟩, ⟨"target", .ent⟩, ⟨"body", .tuple⟩]⟩

def sequencesSchema : Schema := ⟨[⟨"process", .ent⟩, ⟨"next", .int⟩]⟩

/-- Requirements against the schemas of the relations they name: no counter is required
twice. -/
def validateRequirements (schema : String → Option Schema) :
    List String → List CapabilityRequirement → Except String Unit
  | _, [] => .ok ()
  | counters, .allocate name counter .. :: rest =>
      if counter ∈ counters then .error ("allocation counter `" ++ counter ++ "` is required more than once")
      else match schema counter with
        | none => .error ("allocate requirement `" ++ name ++ "` names undeclared `" ++ counter ++ "`")
        | some s =>
            if s ≠ counterSchema then .error ("allocate requirement `" ++ name ++ "` counter `" ++ counter ++
              "` must have schema `(next: Int)`")
            else validateRequirements schema (counter :: counters) rest
  | counters, .random name state _ algorithm :: rest =>
      if algorithm ≠ "xorshift64star_v1" then
        .error ("random requirement `" ++ name ++ "` uses unsupported algorithm `" ++ algorithm ++ "`")
      else match schema state with
        | none => .error ("random requirement `" ++ name ++ "` names undeclared `" ++ state ++ "`")
        | some s =>
            if s ≠ rngSchema then .error ("random requirement `" ++ name ++ "` state `" ++ state ++
              "` must have schema `(owner: Ent, state: Int)`")
            else validateRequirements schema counters rest
  | counters, .schedule name clock timers sequences :: rest =>
      if schema clock = some clockSchema ∧ schema timers = some timersSchema ∧
          schema sequences = some sequencesSchema then
        validateRequirements schema counters rest
      else .error ("schedule requirement `" ++ name ++ "` has an invalid relation schema")

/-! ## The bootstrap -/

section Lower

variable (entities : Entities)

mutual

def lowerBootstrapValue : BootstrapValue → Except String Value
  | .entity name => match entities.get name with
      | some e => .ok (.ent e)
      | none => .error ("bootstrap names unknown entity `" ++ name ++ "`")
  | .int n => .ok (.int n)
  | .float x => .ok (.float x)
  | .text s => .ok (.text s)
  | .bool b => .ok (.bool b)
  | .tuple values => do return .tuple (← lowerBootstrapValues values)

def lowerBootstrapValues : List BootstrapValue → Except String (List Value)
  | [] => .ok []
  | v :: vs => do
      let x ← lowerBootstrapValue v
      return x :: (← lowerBootstrapValues vs)

end

end Lower

/-- The bootstrap's facts in turn: of declared relations, conforming, and each once. -/
def compileBootstrap (schema : String → Option Schema) (entities : Entities) :
    List (String × Tuple) → List (String × List BootstrapValue) → Except String (List (String × Tuple))
  | facts, [] => .ok facts
  | facts, (rel, values) :: rest =>
      if rel = installMarkerRelation then .error "bootstrap cannot reference the reserved install marker"
      else match schema rel with
        | none => .error ("bootstrap names undeclared relation `" ++ rel ++ "`")
        | some s => do
            let cells ← lowerBootstrapValues entities values
            match s.check ⟨cells⟩ with
            | .error _ => .error ("bootstrap `" ++ rel ++ "` does not conform")
            | .ok () =>
                if (rel, (⟨cells⟩ : Tuple)) ∈ facts then .error ("bootstrap fact `" ++ rel ++ "` is duplicated")
                else compileBootstrap schema entities (facts ++ [(rel, ⟨cells⟩)]) rest

/-- Each counter is seeded with its first value, each generator's owner with one row whose
state is not zero. -/
def validateResourceSeeds (facts : List (String × Tuple)) : List CapabilityRequirement → Except String Unit
  | [] => .ok ()
  | .allocate name counter first _ :: rest =>
      if (facts.filter fun f => f.1 = counter).map Prod.snd = [⟨[.int first]⟩] then
        validateResourceSeeds facts rest
      else .error ("allocate requirement `" ++ name ++ "` needs exactly one bootstrap row")
  | .random name state owner _ :: rest =>
      match (facts.filter fun f => f.1 = state ∧ f.2.cells.head? = some (.ent owner)).map fun f => f.2.cells[1]? with
      | [some (Value.int seed)] =>
          if seed ≠ 0 then validateResourceSeeds facts rest
          else .error ("random requirement `" ++ name ++ "` needs exactly one nonzero bootstrap state row")
      | _ => .error ("random requirement `" ++ name ++ "` needs exactly one nonzero bootstrap state row")
  | .schedule .. :: rest => validateResourceSeeds facts rest

/-! ## The package -/

/-- The columns of the cursor that the compiler gives materialized views. -/
def viewCursorColumns : List Column := [⟨"view", .ent⟩, ⟨"edition", .int⟩]

/-- A package's declarations that its capabilities depend on, and the rest of its source. -/
structure CapabilityDecls where
  entities : Entities
  requires : List RequireDecl
  bootstrap : List (String × List BootstrapValue)
  rest : PackageSource
  /-- The first relation stored for materialized views is their cursor. -/
  stored_cursor : ∀ c ∈ rest.stored.head?, c.2 = .ok viewCursorColumns

namespace CapabilityDecls

variable (d : CapabilityDecls)

/-- The columns a relation of the source is declared with. -/
def schema (name : String) : Option Schema :=
  let declared : List (String × Except String (List Column)) :=
    d.rest.rels ++ d.rest.stored ++ [(installMarkerRelation, .ok markerColumns)]
  (declared.find? fun r => r.1 = name).bind fun r => r.2.toOption.map Schema.mk

def requirements : Except String (List CapabilityRequirement) := compileRequirements d.entities d.requires

/-- The checks of requirements, behaviors, the bootstrap and its seeds. -/
def checks : Except String (List (String × Tuple)) := do
  let requirements ← d.requirements
  validateRequirements d.schema [] requirements
  d.rest.behaviors
  let facts ← compileBootstrap d.schema d.entities [] d.bootstrap
  validateResourceSeeds facts requirements
  return facts

/-- The source of the package, the checks of its capabilities in their places. -/
def source : PackageSource :=
  { d.rest with
    header := do
      d.rest.header
      let _ ← d.requirements
      return ()
    behaviors := d.checks.map fun _ => ()
    bootstrap := d.checks.toOption.getD [] }

end CapabilityDecls

/-- The relation a name of a package stands for. -/
def Package.relId (p : Package) (name : String) : Option RelId :=
  (p.rels.find? fun r => r.name = name).map (·.id)

/-- A requirement's grant; which actors a scheduler may target is the host's. -/
def CapabilityRequirement.grant (p : Package) (targets : String → String → Option (Entity × RelId)) :
    CapabilityRequirement → Option ResolvedCapabilityGrant
  | .allocate _ counter first last => (p.relId counter).map fun rel => .allocate rel first last
  | .random _ state owner algorithm => (p.relId state).map fun rel => .random rel owner algorithm
  | .schedule name clock timers sequences => do
      return .schedule (← p.relId clock) (← p.relId timers) (← p.relId sequences) (targets name)

/-- The grants of a package, by the names of its requirements. -/
def resolveGrants (p : Package) (targets : String → String → Option (Entity × RelId))
    (requirements : List CapabilityRequirement) : ResolvedGrantSet :=
  ⟨fun name => (requirements.find? fun r => r.name = name).bind fun r => r.grant p targets⟩

/-! ## What the checks leave true -/

/-- Two requirements do not allocate from ranges that overlap. -/
def CapabilityRequirement.RangesApart : CapabilityRequirement → CapabilityRequirement → Prop
  | .allocate _ _ first last, .allocate _ _ first' last' => last' < first ∨ last < first'
  | _, _ => True

/-- An allocator's range is well formed. -/
def CapabilityRequirement.RangeSound : CapabilityRequirement → Prop
  | .allocate _ _ first last => 0 ≤ first ∧ first ≤ last ∧ last ≠ Int64.maxValue
  | _ => True

/-- The range a requirement allocates in is among some. -/
def CapabilityRequirement.RangeIn (ranges : List (String × Int64 × Int64)) : CapabilityRequirement → Prop
  | .allocate name _ first last => (name, first, last) ∈ ranges
  | _ => True

structure Requiring.Sound (r : Requiring) : Prop where
  names : (r.requirements.map (·.name)).Nodup
  ranges : ∀ x ∈ r.requirements, x.RangeSound ∧ x.RangeIn r.ranges
  apart : r.requirements.Pairwise fun a b => a.RangesApart b

theorem CapabilityRequirement.RangeIn.mono {ranges ranges' : List (String × Int64 × Int64)}
    (hsub : ∀ x ∈ ranges, x ∈ ranges') {x : CapabilityRequirement} (h : x.RangeIn ranges) : x.RangeIn ranges' := by
  cases x with
  | allocate name counter first last => exact hsub _ h
  | _ => trivial

theorem Requiring.Sound.add {r : Requiring} (h : r.Sound) {x : CapabilityRequirement}
    {ranges : List (String × Int64 × Int64)} (hsub : ∀ y ∈ r.ranges, y ∈ ranges)
    (hname : (r.requirements.any fun y => y.name = x.name) = false) (hsound : x.RangeSound)
    (hin : x.RangeIn ranges) (hapart : ∀ y ∈ r.requirements, y.RangesApart x) :
    Requiring.Sound ⟨r.requirements ++ [x], ranges⟩ where
  names := by
    rw [List.map_append, List.nodup_append]
    refine ⟨h.names, List.nodup_singleton _, fun a ha b hb => ?_⟩
    obtain ⟨y, hy, rfl⟩ := List.mem_map.1 ha
    obtain rfl := List.mem_singleton.1 hb
    simpa using List.any_eq_false.1 hname y hy
  ranges y hy := by
    rcases List.mem_append.1 hy with hy | hy
    · exact ⟨(h.ranges y hy).1, (h.ranges y hy).2.mono hsub⟩
    · obtain rfl := List.mem_singleton.1 hy
      exact ⟨hsound, hin⟩
  apart := by
    rw [List.pairwise_append]
    refine ⟨h.apart, List.pairwise_singleton _ _, fun y hy z hz => ?_⟩
    obtain rfl := List.mem_singleton.1 hz
    exact hapart y hy

theorem compileRequirement_sound {entities : Entities} {r r' : Requiring} {decl : RequireDecl} (hr : r.Sound)
    (h : compileRequirement entities r decl = .ok r') : r'.Sound := by
  unfold compileRequirement at h
  cases decl with
  | allocate name counter first last =>
    dsimp only at h
    split_ifs at h with hrange hentity hover
    · cases h
    · cases h
    · cases h
    simp only [pure, Except.pure, bind, Except.bind] at h
    split_ifs at h with hname
    cases h
    push Not at hrange
    refine hr.add (fun y hy => List.mem_append_left _ hy) (by simpa using hname)
      ⟨Int64.not_lt.1 hrange.1, Int64.not_lt.1 hrange.2.1, hrange.2.2⟩
      (List.mem_append_right _ (List.mem_singleton.2 rfl)) fun y hy => ?_
    cases y with
    | allocate name' counter' first' last' =>
      have hno : ¬ (first ≤ last' ∧ first' ≤ last) := fun hc =>
        hover (List.any_eq_true.2 ⟨_, (hr.ranges _ hy).2, decide_eq_true hc⟩)
      rw [not_and_or, Int64.not_le, Int64.not_le] at hno
      exact hno.symm
    | _ => trivial
  | random name state owner algorithm =>
    dsimp only at h
    split at h
    · cases h
    · simp only [bind, Except.bind] at h
      split_ifs at h with hname
      cases h
      refine hr.add (fun y hy => hy) (by simpa using hname) trivial trivial fun y _ => ?_
      cases y <;> trivial
  | schedule name clock timers sequences =>
    simp only [bind, Except.bind] at h
    split_ifs at h with hname
    cases h
    refine hr.add (fun y hy => hy) (by simpa using hname) trivial trivial fun y _ => ?_
    cases y <;> trivial

theorem compileRequirements_sound {entities : Entities} {decls : List RequireDecl}
    {requirements : List CapabilityRequirement} (h : compileRequirements entities decls = .ok requirements) :
    ∃ r : Requiring, r.Sound ∧ r.requirements = requirements := by
  have hfold : ∀ (decls : List RequireDecl) (r r' : Requiring), r.Sound →
      decls.foldlM (compileRequirement entities) r = .ok r' → r'.Sound := by
    intro decls
    induction decls with
    | nil =>
      intro r r' hr h
      cases h
      exact hr
    | cons decl decls ih =>
      intro r r' hr h
      rw [List.foldlM_cons] at h
      obtain ⟨r₁, h₁, h⟩ := except_bind_ok h
      exact ih r₁ r' (compileRequirement_sound hr h₁) h
  unfold compileRequirements at h
  cases hres : decls.foldlM (compileRequirement entities) ⟨[], []⟩ with
  | error e =>
    rw [hres] at h
    cases h
  | ok r =>
    rw [hres] at h
    cases h
    have hstart : Requiring.Sound ⟨[], []⟩ := ⟨List.nodup_nil, fun x hx => absurd hx List.not_mem_nil, .nil⟩
    exact ⟨r, hfold decls _ r hstart hres, rfl⟩

/-- The schemas of the relations a requirement names. -/
def CapabilityRequirement.SchemasSound (schema : String → Option Schema) : CapabilityRequirement → Prop
  | .allocate _ counter .. => schema counter = some counterSchema
  | .random _ state _ algorithm => schema state = some rngSchema ∧ algorithm = "xorshift64star_v1"
  | .schedule _ clock timers sequences => schema clock = some clockSchema ∧ schema timers = some timersSchema ∧
      schema sequences = some sequencesSchema

/-- The counter a requirement allocates from. -/
def CapabilityRequirement.counter? : CapabilityRequirement → Option String
  | .allocate _ counter .. => some counter
  | _ => none

theorem validateRequirements_ok {schema : String → Option Schema} : ∀ {requirements : List CapabilityRequirement}
    {counters : List String}, validateRequirements schema counters requirements = .ok () →
      (∀ r ∈ requirements, r.SchemasSound schema) ∧ (requirements.filterMap (·.counter?)).Nodup ∧
        ∀ c ∈ requirements.filterMap (·.counter?), c ∉ counters := by
  intro requirements
  induction requirements with
  | nil => exact fun _ => ⟨fun r hr => absurd hr List.not_mem_nil, List.nodup_nil, fun c hc => absurd hc List.not_mem_nil⟩
  | cons r requirements ih =>
    intro counters h
    cases r with
    | allocate name counter first last =>
      unfold validateRequirements at h
      split_ifs at h with hcounter
      split at h
      · cases h
      · rename_i s hs
        split_ifs at h with hschema
        obtain ⟨hall, hnodup, hnot⟩ := ih h
        rw [not_not] at hschema
        have hcons : (CapabilityRequirement.allocate name counter first last :: requirements).filterMap
            (·.counter?) = counter :: requirements.filterMap (·.counter?) := rfl
        rw [hcons]
        exact ⟨List.forall_mem_cons.2 ⟨hs.trans (congrArg some hschema), hall⟩,
          List.nodup_cons.2 ⟨fun hmem => hnot _ hmem List.mem_cons_self, hnodup⟩,
          List.forall_mem_cons.2 ⟨hcounter, fun c hc hcs => hnot c hc (List.mem_cons_of_mem _ hcs)⟩⟩
    | random name state owner algorithm =>
      unfold validateRequirements at h
      split_ifs at h with halg
      split at h
      · cases h
      · rename_i s hs
        split_ifs at h with hschema
        obtain ⟨hall, hrest⟩ := ih h
        rw [not_not] at hschema halg
        exact ⟨List.forall_mem_cons.2 ⟨⟨hs.trans (congrArg some hschema), halg⟩, hall⟩, hrest⟩
    | schedule name clock timers sequences =>
      unfold validateRequirements at h
      split_ifs at h with hschema
      obtain ⟨hall, hrest⟩ := ih h
      exact ⟨List.forall_mem_cons.2 ⟨hschema, hall⟩, hrest⟩

/-- The seeds a requirement needs among bootstrap facts. -/
def CapabilityRequirement.Seeded (facts : List (String × Tuple)) : CapabilityRequirement → Prop
  | .allocate _ counter first _ => (facts.filter fun f => f.1 = counter).map Prod.snd = [⟨[.int first]⟩]
  | .random _ state owner _ => ∃ seed : Int64, seed ≠ 0 ∧
      (facts.filter fun f => f.1 = state ∧ f.2.cells.head? = some (.ent owner)).map (fun f => f.2.cells[1]?)
        = [some (.int seed)]
  | .schedule .. => True

theorem validateResourceSeeds_ok {facts : List (String × Tuple)} : ∀ {requirements : List CapabilityRequirement},
    validateResourceSeeds facts requirements = .ok () → ∀ r ∈ requirements, r.Seeded facts := by
  intro requirements
  induction requirements with
  | nil => exact fun _ r hr => absurd hr List.not_mem_nil
  | cons r requirements ih =>
    intro h
    cases r with
    | allocate name counter first last =>
      unfold validateResourceSeeds at h
      split_ifs at h with hseed
      exact List.forall_mem_cons.2 ⟨hseed, ih h⟩
    | random name state owner algorithm =>
      unfold validateResourceSeeds at h
      split at h
      · rename_i seed hseed
        split_ifs at h with hzero
        exact List.forall_mem_cons.2 ⟨⟨seed, hzero, hseed⟩, ih h⟩
      · cases h
    | schedule name clock timers sequences =>
      unfold validateResourceSeeds at h
      exact List.forall_mem_cons.2 ⟨trivial, ih h⟩

/-- Bootstrap facts are of declared relations, conform, and stand once each. -/
structure BootstrapSound (schema : String → Option Schema) (facts : List (String × Tuple)) : Prop where
  nodup : facts.Nodup
  conforms : ∀ f ∈ facts, f.1 ≠ installMarkerRelation ∧ ∃ s, schema f.1 = some s ∧ s.Conforms f.2

theorem compileBootstrap_ok {schema : String → Option Schema} {entities : Entities} :
    ∀ {source : List (String × List BootstrapValue)} {facts out : List (String × Tuple)},
      compileBootstrap schema entities facts source = .ok out → BootstrapSound schema facts →
        BootstrapSound schema out := by
  intro source
  induction source with
  | nil =>
    intro facts out h hfacts
    cases h
    exact hfacts
  | cons f source ih =>
    obtain ⟨rel, values⟩ := f
    intro facts out h hfacts
    unfold compileBootstrap at h
    split_ifs at h with hmarker
    split at h
    · cases h
    · rename_i s hs
      obtain ⟨cells, -, h⟩ := except_bind_ok h
      split at h
      · cases h
      · rename_i hcheck
        split_ifs at h with hdup
        refine ih h ⟨?_, fun f hf => ?_⟩
        · rw [List.nodup_append]
          exact ⟨hfacts.nodup, List.nodup_singleton _, fun a ha b hb hab =>
            hdup (by rw [← List.mem_singleton.1 hb, ← hab]; exact ha)⟩
        · rcases List.mem_append.1 hf with hf | hf
          · exact hfacts.conforms f hf
          · obtain rfl := List.mem_singleton.1 hf
            exact ⟨hmarker, s, hs, Schema.check_eq_ok.1 hcheck⟩

end Grmpl

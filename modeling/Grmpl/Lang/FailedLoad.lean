import Grmpl.Lang.PackageLoad

/-!
# A failed load

A load that is refused has bound names, which nobody minds, and may have registered the
schemas of its source before it met the marker of the package that is installed. A
relation both declare, with columns appended by the source that was refused, is then
under a schema that the installed package's rows do not conform to, and which the
installed package cannot register its own over.

* `Installed`, `Usable`: a package that loads as it is, and one that still does.
* `accepted`: the relations whose schemas the registry takes before it first refuses one.
* `Unextended`: the condition on the source.
* `failed_load_usable_iff`: a failed load leaves the package usable exactly where it
  extends none of its relations.
* `failed_load_ruins`: a source that does.
-/

namespace Grmpl

/-- A package is installed: it loads, whatever the base, and nothing is written. -/
def Installed (P : PackageSource) (p : Package) (w : WorldStore) : Prop :=
  ∀ base, loadPackage base P w = (w, .ok p)

/-- A package loads with the same relations and schemas, and rows of its relations that
passed the schema check pass it still. -/
structure Usable (P : PackageSource) (p : Package) (w w' : WorldStore) : Prop where
  loads : ∀ base, ∃ w'', loadPackage base P w' = (w'', .ok p)
  passes : ∀ facts : List Fact, (∀ f ∈ facts, ∃ r ∈ p.rels, r.id = f.rel) →
    checkSchema w.schemas.catalog facts = .ok () → checkSchema w'.schemas.catalog facts = .ok ()

/-- The relations whose schemas a registry takes, before it first refuses one. -/
def accepted (at' : Nat) : List RelInfo → SchemaRegistry → List RelInfo
  | [], _ => []
  | r :: rs, s =>
      match s.putSchema r.id ⟨r.columns⟩ at' with
      | .ok s' => r :: accepted at' rs s'
      | .error _ => []

/-- A source does not compile or pass its checks, or it declares no relation of a package
with columns appended, but behind one that the registry refuses. -/
def Unextended (base : Nat) (Q : PackageSource) (p : Package) (w : WorldStore) : Prop :=
  ∀ w₁ q, Q.compile base w = (w₁, .ok q) → Q.checks = .ok () →
    ∀ r ∈ accepted (w.trace.current + 1) q.byId w.schemas, ∀ r' ∈ p.rels, r.id = r'.id →
      r.columns = r'.columns

/-! ## Registering schemas -/

/-- The registry after the schemas it takes. -/
def putAll (at' : Nat) : List RelInfo → SchemaRegistry → SchemaRegistry
  | [], s => s
  | r :: rs, s =>
      match s.putSchema r.id ⟨r.columns⟩ at' with
      | .ok s' => putAll at' rs s'
      | .error _ => s

section Registering

variable {e : Nat} {l : List RelInfo} {s : SchemaRegistry} {w w' : WorldStore}

theorem grows_putAll : ∀ (l : List RelInfo) (s : SchemaRegistry), s.Grows (putAll e l s) := by
  intro l
  induction l with
  | nil => exact fun s => .refl s
  | cons r l ih =>
    intro s
    rw [putAll]
    split
    · rename_i s' hput
      exact (SchemaRegistry.grows_putSchema hput).trans (ih s')
    · exact .refl s

/-- A relation that no accepted schema changes keeps its own. -/
theorem schema_putAll_same {rel : RelId} {columns : List Column} : ∀ {l : List RelInfo}
    {s : SchemaRegistry}, s.schema rel = some ⟨columns⟩ →
      (∀ r ∈ accepted e l s, r.id = rel → r.columns = columns) →
        (putAll e l s).schema rel = some ⟨columns⟩ := by
  intro l
  induction l with
  | nil => exact fun hs _ => hs
  | cons r l ih =>
    intro s hs hsame
    rw [putAll]
    rw [accepted] at hsame
    split
    · rename_i s' hput
      rw [hput] at hsame
      refine ih ?_ fun q hq => hsame q (List.mem_cons_of_mem _ hq)
      by_cases hrel : r.id = rel
      · subst hrel
        rw [SchemaRegistry.schema_putSchema hput, hsame r List.mem_cons_self rfl]
      · rw [SchemaRegistry.schema_putSchema_other hput (Ne.symm hrel)]
        exact hs
    · exact hs

/-- An accepted schema is one the last has at least the columns of, and has itself at
least the columns of the first. -/
theorem additive_accepted : ∀ {l : List RelInfo} {s : SchemaRegistry},
    ∀ r ∈ accepted e l s,
      (∀ first, s.schema r.id = some first → (⟨r.columns⟩ : Schema).isAdditiveOver first = true) ∧
        ∃ last, (putAll e l s).schema r.id = some last ∧ last.isAdditiveOver ⟨r.columns⟩ = true := by
  intro l
  induction l with
  | nil => exact fun r hr => absurd hr List.not_mem_nil
  | cons q l ih =>
    intro s r hr
    rw [accepted] at hr
    rw [putAll]
    split at hr
    · rename_i s' hput
      rcases List.mem_cons.1 hr with rfl | hr
      · refine ⟨fun first hfirst => ?_, grows_putAll l s' _ _ (SchemaRegistry.schema_putSchema hput)⟩
        obtain ⟨s₁, hs₁, hadd⟩ := SchemaRegistry.grows_putSchema hput _ _ hfirst
        rw [SchemaRegistry.schema_putSchema hput] at hs₁
        exact Option.some.inj hs₁ ▸ hadd
      · obtain ⟨hbelow, habove⟩ := ih r hr
        refine ⟨fun first hfirst => ?_, habove⟩
        obtain ⟨s₁, hs₁, hadd⟩ := SchemaRegistry.grows_putSchema hput _ _ hfirst
        exact Schema.isAdditiveOver_trans hadd (hbelow s₁ hs₁)
    · exact absurd hr List.not_mem_nil

theorem isAdditiveOver_antisymm {a b : Schema} (hab : a.isAdditiveOver b = true)
    (hba : b.isAdditiveOver a = true) : a = b := by
  have h := Schema.isAdditiveOver_iff.1 hab
  have h' := Schema.isAdditiveOver_iff.1 hba
  obtain ⟨columns⟩ := a
  obtain ⟨columns'⟩ := b
  exact congrArg Schema.mk (h'.eq_of_length (le_antisymm h'.length_le h.length_le))

theorem register_bound {name : String} {id : RelId} (h : w.relId name = some id) :
    w.register name id = .ok w := by
  rw [WorldStore.register, h]
  exact if_neg (by simp)

/-- Registering schemas under names that are bound writes the schemas the registry takes,
and goes through if it takes all. -/
theorem registerSchemas_eq : ∀ {l : List RelInfo} {w : WorldStore},
    (∀ r ∈ l, w.relId r.name = some r.id) →
      (registerSchemas e l w).1 = { w with schemas := putAll e l w.schemas } ∧
        ((registerSchemas e l w).2 = .ok () → accepted e l w.schemas = l) := by
  intro l
  induction l with
  | nil => exact fun _ => ⟨rfl, fun _ => rfl⟩
  | cons r l ih =>
    intro w hbound
    rw [registerSchemas, register_bound (hbound r List.mem_cons_self)]
    dsimp only
    rw [putAll, accepted]
    split
    · rename_i err hput
      rw [hput]
      exact ⟨rfl, fun h => (nomatch h)⟩
    · rename_i s' hput
      rw [hput]
      obtain ⟨hstate, hall⟩ := ih (w := { w with schemas := s' }) fun q hq =>
        hbound q (List.mem_cons_of_mem _ hq)
      exact ⟨hstate, fun h => congrArg (r :: ·) (hall h)⟩

/-- Schemas that are in force are registered again to no effect. -/
theorem registerSchemas_same : ∀ {l : List RelInfo} {w : WorldStore},
    (∀ r ∈ l, w.relId r.name = some r.id ∧ w.schemas.schema r.id = some ⟨r.columns⟩) →
      registerSchemas e l w = (w, .ok ()) := by
  intro l
  induction l with
  | nil => exact fun _ => rfl
  | cons r l ih =>
    intro w h
    obtain ⟨hname, hschema⟩ := h r List.mem_cons_self
    have hput : w.schemas.putSchema r.id ⟨r.columns⟩ e = .ok w.schemas :=
      SchemaRegistry.putSchema_same hschema
    rw [registerSchemas, register_bound hname]
    dsimp only
    rw [hput]
    exact ih fun q hq => h q (List.mem_cons_of_mem _ hq)

end Registering

/-! ## What a load leaves of the store -/

section Loading

variable {P Q : PackageSource} {p : Package} {w w' : WorldStore} {base : Nat}

/-- What an install does: nothing, with the marker there or refused, or the bootstrap's
commit where there was no marker. -/
theorem install_cases (src : PackageSource) (p : Package) (w : WorldStore) :
    (install src p w = (w, .ok ()) ∧
        w.trace.rowsAt p.markerRelation w.trace.current = [(src.marker, 1)]) ∨
      (∃ e, install src p w = (w, .error e)) ∨
        (w.trace.rowsAt p.markerRelation w.trace.current = [] ∧
          ∃ updates, install src p w = ({ w with trace := w.trace.commit updates }, .ok ())) := by
  unfold install
  split
  · rename_i hnil
    split_ifs
    · exact .inr (.inl ⟨_, rfl⟩)
    · split
      · exact .inr (.inl ⟨_, rfl⟩)
      · exact .inr (.inr ⟨hnil, _, rfl⟩)
  · rename_i actual weight hrow
    split_ifs with hmarker
    · rw [hmarker.1, hmarker.2] at hrow
      exact .inl ⟨rfl, hrow⟩
    · exact .inr (.inl ⟨_, rfl⟩)
  · exact .inr (.inl ⟨_, rfl⟩)

theorem commit_ne (s : TraceStore) (updates : List (RelId × Tuple × Diff)) : s.commit updates ≠ s := by
  intro h
  have hlen := congrArg (fun s : TraceStore => s.patches.length) h
  simp [TraceStore.commit] at hlen

theorem Package.mem_byId {r : RelInfo} : r ∈ p.byId ↔ r ∈ p.rels := List.mem_insertionSort _

/-- What a load comes to once its source has compiled and passed its checks. -/
theorem loadPackage_compiled {w₁ : WorldStore} (hcompile : P.compile base w = (w₁, .ok p))
    (hchecks : P.checks = .ok ()) : loadPackage base P w
      = (registerSchemas (w₁.trace.current + 1) p.byId w₁).andThen fun w _ =>
          (install P p w).andThen fun w _ => Load.andThen (w, P.maintainers) fun w _ => (w, .ok p) := by
  rw [loadPackage, hcompile]
  show Load.andThen (w₁, P.checks) _ = _
  rw [hchecks]
  rfl

/-- What an installed package is: it compiles to itself, its schemas are in force, and
its marker stands alone. -/
structure InstalledFacts (P : PackageSource) (p : Package) (w : WorldStore) : Prop where
  compiles : ∀ base, P.compile base w = (w, .ok p)
  checks : P.checks = .ok ()
  maintainers : P.maintainers = .ok ()
  schemas : ∀ r ∈ p.rels, w.schemas.schema r.id = some ⟨r.columns⟩
  marker : w.trace.rowsAt p.markerRelation w.trace.current = [(P.marker, 1)]

theorem Installed.facts (h : Installed P p w) : InstalledFacts P p w := by
  obtain ⟨w₁, p', hcompile, hload⟩ := Load.andThen_ok (h 0)
  obtain ⟨hchecks, hload⟩ := Load.check_ok hload
  obtain ⟨w₂, _, hregister, hload⟩ := Load.andThen_ok hload
  obtain ⟨w₃, _, hinstall, hload⟩ := Load.andThen_ok hload
  obtain ⟨hmaintainers, hload⟩ := Load.check_ok hload
  obtain ⟨rfl, hp⟩ := Prod.mk.inj hload
  obtain rfl := Except.ok.inj hp
  have hext : w₃.Extends w₁ := by
    have := P.compile_extends 0 w₃
    rwa [hcompile] at this
  obtain ⟨hstate, hall⟩ := registerSchemas_eq (e := w₁.trace.current + 1) fun r hr =>
    (P.compile_bound hcompile).1 r (Package.mem_byId.1 hr)
  rw [hregister] at hstate hall
  obtain rfl : w₂ = _ := hstate
  -- An install that commits moves the store on, and this one did not move.
  obtain ⟨hsame, hmarker⟩ : w₃ = { w₁ with schemas := putAll (w₁.trace.current + 1) p'.byId w₁.schemas } ∧
      w₁.trace.rowsAt p'.markerRelation w₁.trace.current = [(P.marker, 1)] := by
    rcases install_cases P p' { w₁ with schemas := putAll (w₁.trace.current + 1) p'.byId w₁.schemas } with
      ⟨hi, hrows⟩ | ⟨e, hi⟩ | ⟨-, updates, hi⟩
    · rw [hi] at hinstall
      exact ⟨(Prod.mk.inj hinstall).1.symm, hrows⟩
    · rw [hi] at hinstall
      cases (Prod.mk.inj hinstall).2
    · rw [hi] at hinstall
      have htrace := congrArg WorldStore.trace (Prod.mk.inj hinstall).1
      rw [← hext.trace] at htrace
      exact absurd htrace (commit_ne _ _)
  obtain rfl : w₁ = w₃ := hext.eq (by rw [hsame])
  refine ⟨P.compile_stable hcompile fun _ _ hid => hid, hchecks, hmaintainers, fun r hr => ?_, hmarker⟩
  have hput : putAll (w₁.trace.current + 1) p'.byId w₁.schemas = w₁.schemas :=
    (congrArg WorldStore.schemas hsame).symm
  obtain ⟨hbelow, last, hlast, habove⟩ := additive_accepted (e := w₁.trace.current + 1)
    (l := p'.byId) (s := w₁.schemas) r (by rw [hall rfl]; exact Package.mem_byId.2 hr)
  rw [hput] at hlast
  rw [hlast, isAdditiveOver_antisymm habove (hbelow last hlast)]

/-- An install over a package's marker, standing alone, writes nothing. -/
theorem install_over (Q : PackageSource) {q : Package} {m : Tuple}
    (h : w.trace.rowsAt q.markerRelation w.trace.current = [(m, 1)]) : (install Q q w).1 = w := by
  rcases install_cases Q q w with ⟨hi, -⟩ | ⟨e, hi⟩ | ⟨hnil, -⟩
  · rw [hi]
  · rw [hi]
  · rw [hnil] at h
    cases h

/-- Where two steps leave the store if the second leaves it where the first does. -/
theorem Load.andThen_state {α β : Type} {x : Load α} {f : WorldStore → α → Load β} (hx : x.1 = w)
    (hf : ∀ a, (f w a).1 = w) : (x.andThen f).1 = w := by
  obtain ⟨w₁, a | a⟩ := x
  · exact hx
  · obtain rfl : w₁ = w := hx
    exact hf a

/-- Once it has compiled and passed its checks, a load over a marker that stands alone
writes the schemas the registry takes. -/
theorem load_over {w₁ : WorldStore} {q : Package} {m : Tuple}
    (hcompile : Q.compile base w = (w₁, .ok q)) (hchecks : Q.checks = .ok ())
    (hmarker : w₁.trace.rowsAt q.markerRelation w₁.trace.current = [(m, 1)]) :
    (loadPackage base Q w).1
      = { w₁ with schemas := putAll (w₁.trace.current + 1) q.byId w₁.schemas } := by
  rw [loadPackage_compiled hcompile hchecks]
  have hbound := (Q.compile_bound hcompile).1
  refine Load.andThen_state (registerSchemas_eq fun r hr => hbound r (Package.mem_byId.1 hr)).1 fun _ => ?_
  refine Load.andThen_state (install_over Q hmarker) fun _ => ?_
  cases Q.maintainers with
  | error e => rfl
  | ok u => rfl

/-- A load over an installed package that is refused leaves the trace and the bindings,
and the schemas that the registry took if it came that far. -/
theorem failed_load_state (hP : InstalledFacts P p w) {e : String}
    (hQ : loadPackage base Q w = (w', .error e)) : w'.trace = w.trace ∧ w.Knows w' ∧
      (w'.schemas = w.schemas ∧ (∀ w₁ q, Q.compile base w = (w₁, .ok q) → Q.checks ≠ .ok ()) ∨
        ∃ w₁ q, Q.compile base w = (w₁, .ok q) ∧ Q.checks = .ok () ∧
          w'.schemas = putAll (w.trace.current + 1) q.byId w.schemas) := by
  have hext := Q.compile_extends base w
  cases hcompile : Q.compile base w with
  | mk w₁ result =>
    rw [hcompile] at hext
    cases result with
    | error e₁ =>
      rw [loadPackage, hcompile] at hQ
      obtain ⟨rfl, -⟩ := Prod.mk.inj hQ
      exact ⟨hext.trace, hext.knows, .inl ⟨hext.schemas, fun _ _ h => (nomatch (Prod.mk.inj h).2)⟩⟩
    | ok q =>
      cases hchecks : Q.checks with
      | error e₁ =>
        rw [loadPackage, hcompile] at hQ
        change Load.andThen (w₁, Q.checks) _ = _ at hQ
        rw [hchecks] at hQ
        obtain ⟨rfl, -⟩ := Prod.mk.inj hQ
        exact ⟨hext.trace, hext.knows, .inl ⟨hext.schemas, fun _ _ _ h => (nomatch h)⟩⟩
      | ok u =>
        -- Both packages keep their marker in the relation the catalog binds to its name.
        have hsame : q.markerRelation = p.markerRelation := by
          have h := hext.knows _ _ (P.compile_bound (hP.compiles 0)).2
          rw [(Q.compile_bound hcompile).2] at h
          exact Option.some.inj h
        have hfinal := load_over hcompile hchecks (m := P.marker)
          (by rw [hsame, hext.trace]; exact hP.marker)
        rw [hQ] at hfinal
        obtain rfl : w' = _ := hfinal
        refine ⟨hext.trace, hext.knows, .inr ⟨w₁, q, rfl, rfl, ?_⟩⟩
        rw [hext.trace, hext.schemas]

/-- Rows of relations whose schemas are the same pass the same check. -/
theorem checkSchema_congr {s s' : SchemaRegistry} : ∀ {facts : List Fact},
    (∀ f ∈ facts, s.schema f.rel = s'.schema f.rel) →
      checkSchema s.catalog facts = checkSchema s'.catalog facts := by
  intro facts
  induction facts with
  | nil => exact fun _ => rfl
  | cons f fs ih =>
    intro h
    have hrest := ih fun g hg => h g (List.mem_cons_of_mem _ hg)
    have hcat : s.catalog f.rel = s'.catalog f.rel := by
      rw [SchemaRegistry.catalog, SchemaRegistry.catalog, h f List.mem_cons_self]
    rw [checkSchema, checkSchema, hcat, hrest]

/-- A package whose schemas are in force over its own marker and bindings loads. -/
theorem usable_of_schemas (hP : InstalledFacts P p w) (htrace : w'.trace = w.trace) (hknows : w.Knows w')
    (hschemas : ∀ r ∈ p.rels, w'.schemas.schema r.id = some ⟨r.columns⟩) : Usable P p w w' := by
  have hcompile := fun base => P.compile_stable (hP.compiles 0) hknows base
  refine ⟨fun base => ⟨w', ?_⟩, fun facts hfacts hpass => ?_⟩
  · have hregister := registerSchemas_same (e := w'.trace.current + 1) (l := p.byId) (w := w')
      fun r hr => ⟨(P.compile_bound (hcompile base)).1 r (Package.mem_byId.1 hr),
        hschemas r (Package.mem_byId.1 hr)⟩
    have hmarker : w'.trace.rowsAt p.markerRelation w'.trace.current = [(P.marker, 1)] := by
      rw [htrace]
      exact hP.marker
    have hinstall : install P p w' = (w', .ok ()) := by
      rw [install, hmarker]
      exact if_pos ⟨rfl, rfl⟩
    rw [loadPackage_compiled (hcompile base) hP.checks, hregister]
    show (install P p w').andThen _ = _
    rw [hinstall]
    show Load.andThen (w', P.maintainers) _ = _
    rw [hP.maintainers]
    rfl
  · rw [← checkSchema_congr fun f hf => ?_]
    · exact hpass
    · obtain ⟨r, hr, hrel⟩ := hfacts f hf
      rw [← hrel, hP.schemas r hr, hschemas r hr]

end Loading

/-- **A failed load leaves an installed package usable exactly where its source extends
none of the package's relations before the registry refuses it.** -/
theorem failed_load_usable_iff (P Q : PackageSource) (p : Package) (w w' : WorldStore) (base : Nat)
    (e : String) (hP : Installed P p w) (hQ : loadPackage base Q w = (w', .error e)) :
    Usable P p w w' ↔ Unextended base Q p w := by
  have hfacts := hP.facts
  obtain ⟨htrace, hknows, hschemas⟩ := failed_load_state hfacts hQ
  constructor
  · rintro ⟨hloads, -⟩ w₁ q hcompile hchecks r hr r' hr' hid
    rcases hschemas with ⟨-, hnot⟩ | ⟨w₁', q', hcompile', -, hput⟩
    · exact absurd hchecks (hnot w₁ q hcompile)
    · rw [hcompile] at hcompile'
      obtain ⟨rfl, hq⟩ := Prod.mk.inj hcompile'
      obtain rfl := Except.ok.inj hq
      obtain ⟨hbelow, last, hlast, habove⟩ := additive_accepted r hr
      -- The package loads over the last schema, so its own has all the columns of that.
      obtain ⟨w'', hload⟩ := hloads 0
      have hcompileP := P.compile_stable (hfacts.compiles 0) hknows 0
      rw [loadPackage_compiled hcompileP hfacts.checks] at hload
      obtain ⟨w₂, _, hregister, -⟩ := Load.andThen_ok hload
      have hall := (registerSchemas_eq (e := w'.trace.current + 1) (l := p.byId) (w := w') fun r hr =>
        (P.compile_bound hcompileP).1 r (Package.mem_byId.1 hr)).2 (by rw [hregister])
      obtain ⟨hover, -⟩ := additive_accepted (e := w'.trace.current + 1) (l := p.byId)
        (s := w'.schemas) r' (by rw [hall]; exact Package.mem_byId.2 hr')
      rw [hput, ← hid] at hover
      have h₁ := hover last hlast
      have h₂ := hbelow ⟨r'.columns⟩ (by rw [hid]; exact hfacts.schemas r' hr')
      have heq := isAdditiveOver_antisymm (Schema.isAdditiveOver_trans habove h₁) h₂
      exact (congrArg Schema.columns heq).symm
  · intro hun
    refine usable_of_schemas hfacts htrace hknows fun r' hr' => ?_
    rcases hschemas with ⟨hsame, -⟩ | ⟨w₁, q, hcompile, hchecks, hput⟩
    · rw [hsame]
      exact hfacts.schemas r' hr'
    · rw [hput]
      exact schema_putAll_same (hfacts.schemas r' hr') fun r hr hid =>
        hun w₁ q hcompile hchecks r hr r' hr' hid

/-! ## A source that extends a relation -/

/-- A source of one relation that passes every check. -/
def plainSource (rel : String) (columns : List Column) (id : String) : PackageSource where
  header := .ok ()
  rels := [(rel, .ok columns)]
  views := .ok ()
  stored := []
  words := .ok ()
  behaviors := .ok ()
  bootstrap := []
  checks := .ok ()
  maintainers := .ok ()
  marker := ⟨[.text id, .int 1, .bytes [1]]⟩

def lamps : PackageSource := plainSource "lamp" [⟨"at", .ent⟩] "lamps"

/-- Another package, whose lamps are lit or not. -/
def litLamps : PackageSource := plainSource "lamp" [⟨"at", .ent⟩, ⟨"lit", .bool⟩] "lit"

/-- Another package, of bells. -/
def bells : PackageSource := plainSource "bell" [⟨"at", .ent⟩] "bells"

def bareWorld : WorldStore := ⟨TraceStore.empty, [], SchemaRegistry.empty⟩

/-- The lamps installed. -/
def lampWorld : WorldStore := (loadPackage 10 lamps bareWorld).1

def lampPackage : Package :=
  ⟨[⟨"lamp", 10, [⟨"at", .ent⟩]⟩, ⟨installMarkerRelation, 11, markerColumns⟩], 11, []⟩

theorem lamps_installed : Installed lamps lampPackage lampWorld := fun _ => rfl

def mismatch : String := "package marker mismatch or corrupt weight 1"

/-- **A load refused for its marker leaves the package it found unusable.** -/
theorem failed_load_ruins : ¬ ∀ (P Q : PackageSource) (p : Package) (w w' : WorldStore) (base : Nat)
    (e : String), Installed P p w → loadPackage base Q w = (w', .error e) → Usable P p w w' := by
  intro h
  have husable := h lamps litLamps lampPackage lampWorld (loadPackage 10 litLamps lampWorld).1 10 mismatch
    lamps_installed rfl
  obtain ⟨w'', hloads⟩ := husable.loads 10
  have hrefused : (loadPackage 10 lamps (loadPackage 10 litLamps lampWorld).1).2.toOption.isSome = false := rfl
  rw [hloads] at hrefused
  cases hrefused

theorem failed_load_spares : Usable lamps lampPackage lampWorld (loadPackage 10 bells lampWorld).1 := by
  refine (failed_load_usable_iff lamps bells lampPackage lampWorld _ 10 mismatch lamps_installed rfl).2 ?_
  intro w₁ q hcompile _
  have hq : q = ⟨[⟨"bell", 12, [⟨"at", .ent⟩]⟩, ⟨installMarkerRelation, 11, markerColumns⟩], 11, []⟩ :=
    (Except.ok.inj (Prod.mk.inj hcompile).2).symm
  subst hq
  decide

end Grmpl

import Grmpl.Proc.SchemaRegistry
import Mathlib.Data.List.Sort

/-!
# Loading a package

A package source is compiled against the store's durable catalog, its schemas are
registered, and its bootstrap is committed with a marker naming it, unless the marker is
there already. Each of these writes what it writes at once, and any of them may refuse.
What the checks that write nothing come to is the source's.

* `WorldStore`, `WorldStore.register`, `WorldStore.assign`: the store and its catalog.
* `PackageSource`, `PackageSource.compile`: the compiler, as far as it writes.
* `registerSchemas`, `accepted`: the schemas, and those that the registry takes.
* `loadPackage`.
* `Extends`: what a compilation leaves of the store.
-/

namespace Grmpl

/-- A store with its catalog of relation names and its schemas. -/
structure WorldStore where
  trace : TraceStore
  names : List (String × RelId)
  schemas : SchemaRegistry

/-- A relation of a program. -/
structure RelInfo where
  name : String
  id : RelId
  columns : List Column
  deriving DecidableEq

namespace WorldStore

variable (w : WorldStore)

def relId (name : String) : Option RelId := (w.names.find? fun e => e.1 = name).map (·.2)

/-- A name is bound once; binding it again to another relation is an error. -/
def register (name : String) (id : RelId) : Except String WorldStore :=
  match w.relId name with
  | some existing =>
      if existing ≠ id then .error (Error.message (.store ("catalog conflict: `" ++ name ++
        "` already bound to " ++ toString existing ++ " (cannot rebind to " ++ toString id ++ ")")))
      else .ok w
  | none => .ok { w with names := w.names ++ [(name, id)] }

/-- The first id for a fresh name: above every id in the catalog. -/
def nextId (base : Nat) : Nat :=
  match (w.names.map (·.2)).max? with
  | some highest => max base (highest + 1)
  | none => base

/-- A name's relation, a fresh one bound to it if it has none. -/
def assign (next : Nat) (name : String) : WorldStore × Nat × RelId :=
  match w.relId name with
  | some id => (w, next, id)
  | none => ({ w with names := w.names ++ [(name, next)] }, next + 1, next)

end WorldStore

/-- The relation the marker of an installed package is in. -/
def installMarkerRelation : String := "grmpl:package/install"

def markerColumns : List Column :=
  [⟨"package", .text⟩, ⟨"bootstrap_version", .int⟩, ⟨"bootstrap_digest", .bytes⟩]

/-- What a package source declares, and what the checks that write nothing come to, in
the order they are made. -/
structure PackageSource where
  /-- Parsing, the header, entities, requirements and authorities. -/
  header : Except String Unit
  /-- The declared relations with their columns. -/
  rels : List (String × Except String (List Column))
  views : Except String Unit
  /-- The cursor and the backing relations of materialized views. -/
  stored : List (String × Except String (List Column))
  /-- Capabilities, word arms and the names of entities. -/
  words : Except String Unit
  /-- Requirements, behaviors, bootstrap values and actors. -/
  behaviors : Except String Unit
  bootstrap : List (String × Tuple)
  /-- Grants and the types of views. -/
  checks : Except String Unit
  maintainers : Except String Unit
  /-- The package's id, its version and the digest of its bootstrap. -/
  marker : Tuple

/-- What a source compiles to. -/
structure Package where
  rels : List RelInfo
  markerRelation : RelId
  bootstrapRows : List (RelId × Tuple × Diff)

/-- A step that may write to the store before it refuses. -/
abbrev Load (α : Type) := WorldStore × Except String α

/-- Goes on from what a step wrote, if it did not refuse. -/
def Load.andThen {α β : Type} (x : Load α) (f : WorldStore → α → Load β) : Load β :=
  match x with
  | (w, .ok a) => f w a
  | (w, .error e) => (w, .error e)

/-- One declared relation, with its id. -/
def declareOne (d : String × Except String (List Column)) (rels : List RelInfo) (w : WorldStore)
    (next : Nat) : Load (Nat × List RelInfo) :=
  if rels.any fun r => r.name = d.1 then (w, .error ("relation `" ++ d.1 ++ "` declared twice"))
  else match d.2 with
    | .error e => (w, .error e)
    | .ok columns =>
        let drawn := w.assign next d.1
        (drawn.1, .ok (drawn.2.1, rels ++ [⟨d.1, drawn.2.2, columns⟩]))

/-- Declared relations in order; those before one that is refused stay bound. -/
def declare : List (String × Except String (List Column)) → List RelInfo → WorldStore → Nat →
    Load (Nat × List RelInfo)
  | [], rels, w, next => (w, .ok (next, rels))
  | d :: ds, rels, w, next => (declareOne d rels w next).andThen fun w x => declare ds x.2 w x.1

/-- A bootstrap row in its relation. -/
def bootstrapRow (rels : List RelInfo) (fact : String × Tuple) : Except String (RelId × Tuple × Diff) :=
  match rels.find? fun r => r.name = fact.1 with
  | some r => .ok (r.id, fact.2, 1)
  | none => .error ("bootstrap names undeclared relation `" ++ fact.1 ++ "`")

/-- The rows of materialized views' cursors: each at edition zero. -/
def cursorRows : List RelInfo → List (RelId × Tuple × Diff)
  | [] => []
  | cursor :: backing =>
      backing.map fun r => (cursor.id, ⟨[.ent ⟨UInt64.ofNat r.id⟩, .int 0]⟩, 1)

namespace PackageSource

variable (src : PackageSource)

/-- The compiled package, its marker's relation bound. -/
def finish (base : Nat) (rels : List RelInfo) (w : WorldStore) : Load Package :=
  let marker := w.assign (w.nextId base) installMarkerRelation
  (marker.1, do
    src.behaviors
    let rows ← src.bootstrap.mapM (bootstrapRow rels)
    return {
      rels := rels ++ [⟨installMarkerRelation, marker.2.2, markerColumns⟩]
      markerRelation := marker.2.2
      bootstrapRows := rows ++ cursorRows (rels.drop src.rels.length) })

def compile (base : Nat) (w : WorldStore) : Load Package :=
  Load.andThen (w, src.header) fun w _ =>
    (declare src.rels [] w (w.nextId base)).andThen fun w declared =>
      Load.andThen (w, src.views) fun w _ =>
        (declare src.stored declared.2 w declared.1).andThen fun w stored =>
          Load.andThen (w, src.words) fun w _ => src.finish base stored.2 w

end PackageSource

/-- The relations of a program in the order their schemas are registered. -/
def Package.byId (p : Package) : List RelInfo := p.rels.insertionSort fun a b => a.id ≤ b.id

/-- Each relation's name and schema, up to one the registry refuses. -/
def registerSchemas (at' : Nat) : List RelInfo → WorldStore → Load Unit
  | [], w => (w, .ok ())
  | r :: rs, w =>
      match w.register r.name r.id with
      | .error e => (w, .error e)
      | .ok w => match w.schemas.putSchema r.id ⟨r.columns⟩ at' with
        | .error e => (w, .error e.message)
        | .ok schemas => registerSchemas at' rs { w with schemas }

/-- The marker is there and is the package's, or nothing is there and the bootstrap goes
in with it. -/
def install (src : PackageSource) (p : Package) (w : WorldStore) : Load Unit :=
  match w.trace.rowsAt p.markerRelation w.trace.current with
  | [] =>
      if w.trace.current ≠ 0 then (w, .error ("store is at edition " ++ toString w.trace.current ++
        " but has no package marker; use a fresh store"))
      else match src.maintainers with
        | .error e => (w, .error e)
        | .ok () => ({ w with trace := w.trace.commit ((p.bootstrapRows ++
            [(p.markerRelation, src.marker, 1)]).insertionSort
              fun a b => a.1 < b.1 ∨ a.1 = b.1 ∧ a.2.1 ≤ b.2.1) }, .ok ())
  | [(actual, weight)] =>
      if weight = 1 ∧ actual = src.marker then (w, .ok ())
      else (w, .error ("package marker mismatch or corrupt weight " ++ toString weight))
  | live => (w, .error ("package marker relation contains " ++ toString live.length ++
      " live rows; store is corrupt"))

/-- Compiles a package, registers its schemas and installs it. -/
def loadPackage (base : Nat) (src : PackageSource) (w : WorldStore) : Load Package :=
  (src.compile base w).andThen fun w p =>
    Load.andThen (w, src.checks) fun w _ =>
      (registerSchemas (w.trace.current + 1) p.byId w).andThen fun w _ =>
        (install src p w).andThen fun w _ =>
          Load.andThen (w, src.maintainers) fun w _ => (w, .ok p)

/-! ## What a compilation leaves of the store -/

/-- Every binding of one store is another's. -/
def WorldStore.Knows (w w' : WorldStore) : Prop := ∀ name id, w.relId name = some id → w'.relId name = some id

/-- A store with more names bound, the same otherwise. -/
structure WorldStore.Extends (w w' : WorldStore) : Prop where
  trace : w'.trace = w.trace
  schemas : w'.schemas = w.schemas
  names : ∃ more, w'.names = w.names ++ more

section Compiling

variable {w w' w₂ : WorldStore}

theorem WorldStore.Extends.refl (w : WorldStore) : w.Extends w := ⟨rfl, rfl, [], by simp⟩

theorem WorldStore.Extends.trans (h : w.Extends w') (h' : w'.Extends w₂) : w.Extends w₂ := by
  obtain ⟨more, hmore⟩ := h.names
  obtain ⟨more', hmore'⟩ := h'.names
  exact ⟨h'.trace.trans h.trace, h'.schemas.trans h.schemas, more ++ more', by
    rw [hmore', hmore, List.append_assoc]⟩

theorem WorldStore.Extends.knows (h : w.Extends w') : w.Knows w' := by
  obtain ⟨more, hmore⟩ := h.names
  intro name id hid
  rw [WorldStore.relId] at hid ⊢
  obtain ⟨e, he, rfl⟩ := Option.map_eq_some_iff.1 hid
  rw [hmore, List.find?_append, he]
  rfl

/-- A store that has grown by no name is as it was. -/
theorem WorldStore.Extends.eq (h : w.Extends w') (hlen : w'.names.length = w.names.length) : w' = w := by
  obtain ⟨more, hmore⟩ := h.names
  have hnil : more = [] := by
    rw [hmore, List.length_append] at hlen
    exact List.length_eq_zero_iff.1 (by omega)
  obtain ⟨trace, names, schemas⟩ := w'
  obtain ⟨rfl, rfl, -⟩ : trace = w.trace ∧ schemas = w.schemas ∧ True := ⟨h.trace, h.schemas, trivial⟩
  rw [hnil, List.append_nil] at hmore
  obtain rfl : names = w.names := hmore
  rfl

theorem assign_extends (w : WorldStore) (next : Nat) (name : String) :
    w.Extends (w.assign next name).1 := by
  unfold WorldStore.assign
  split
  · exact .refl w
  · exact ⟨rfl, rfl, _, rfl⟩

/-- A name is bound to what it was assigned. -/
theorem relId_assign (w : WorldStore) (next : Nat) (name : String) :
    (w.assign next name).1.relId name = some (w.assign next name).2.2 := by
  unfold WorldStore.assign
  split
  · rename_i id hid
    exact hid
  · rename_i hnone
    have hfind : w.names.find? (fun e => e.1 = name) = none := by
      simpa [WorldStore.relId] using hnone
    simp [WorldStore.relId, List.find?_append, hfind]

theorem assign_of_bound {name : String} {id : RelId} (h : w.relId name = some id) (next : Nat) :
    w.assign next name = (w, next, id) := by
  rw [WorldStore.assign, h]

/-- A name that takes no new binding is bound. -/
theorem bound_of_assign {next : Nat} {name : String}
    (h : (w.assign next name).1.names.length = w.names.length) :
    w.relId name = some (w.assign next name).2.2 := by
  have heq := (assign_extends w next name).eq h
  rw [← relId_assign w next name, heq]

/-- A step that went through, and one after it. -/
theorem Load.andThen_ok {α β : Type} {x : Load α} {f : WorldStore → α → Load β} {b : β}
    (h : x.andThen f = (w', .ok b)) : ∃ w₁ a, x = (w₁, .ok a) ∧ f w₁ a = (w', .ok b) := by
  obtain ⟨w₁, a | a⟩ := x
  · cases h
  · exact ⟨w₁, a, rfl, h⟩

theorem Load.andThen_extends {α β : Type} {x : Load α} {f : WorldStore → α → Load β}
    (hx : w.Extends x.1) (hf : ∀ (w₁ : WorldStore) (a : α), x = (w₁, .ok a) → w₁.Extends (f w₁ a).1) :
    w.Extends (x.andThen f).1 := by
  obtain ⟨w₁, a | a⟩ := x
  · exact hx
  · exact hx.trans (hf w₁ a rfl)

/-- Two steps that leave a store as it was leave it so one by one. -/
theorem Load.andThen_same {α β : Type} {x : Load α} {f : WorldStore → α → Load β} {b : β}
    (h : x.andThen f = (w, .ok b)) (hx : w.Extends x.1) (hf : ∀ (w₁ : WorldStore) (a : α), w₁.Extends (f w₁ a).1) :
    ∃ a, x = (w, .ok a) ∧ f w a = (w, .ok b) := by
  obtain ⟨w₁, a, rfl, hfa⟩ := andThen_ok h
  have hback := hf w₁ a
  rw [hfa] at hback
  obtain ⟨more, hmore⟩ := hx.names
  obtain ⟨more', hmore'⟩ := hback.names
  have hlen := congrArg List.length hmore'
  dsimp only at hmore hlen
  rw [hmore, List.length_append, List.length_append] at hlen
  obtain rfl : w₁ = w := hx.eq (by rw [hmore, List.length_append]; omega)
  exact ⟨a, rfl, hfa⟩

theorem declareOne_ok {d : String × Except String (List Column)} {rels : List RelInfo} {next : Nat}
    {x : Nat × List RelInfo} (h : declareOne d rels w next = (w', .ok x)) :
    ∃ columns, (rels.any fun r => r.name = d.1) = false ∧ d.2 = .ok columns ∧
      w' = (w.assign next d.1).1 ∧
        x = ((w.assign next d.1).2.1, rels ++ [⟨d.1, (w.assign next d.1).2.2, columns⟩]) := by
  unfold declareOne at h
  split_ifs at h with hdup
  · cases h
  · split at h
    · cases h
    · rename_i columns hcols
      cases h
      exact ⟨columns, by simpa using hdup, hcols, rfl, rfl⟩

theorem declareOne_extends (d : String × Except String (List Column)) (rels : List RelInfo)
    (w : WorldStore) (next : Nat) : w.Extends (declareOne d rels w next).1 := by
  unfold declareOne
  split_ifs
  · exact .refl w
  · split
    · exact .refl w
    · exact assign_extends w next d.1

theorem declare_extends : ∀ (ds : List (String × Except String (List Column))) (rels : List RelInfo)
    (w : WorldStore) (next : Nat), w.Extends (declare ds rels w next).1 := by
  intro ds
  induction ds with
  | nil => exact fun rels w next => .refl w
  | cons d ds ih =>
    intro rels w next
    exact Load.andThen_extends (declareOne_extends d rels w next) fun w₁ x _ => ih x.2 w₁ x.1

/-- Every declared relation has the id its name is bound to. -/
theorem declare_bound : ∀ {ds : List (String × Except String (List Column))} {rels : List RelInfo}
    {w w' : WorldStore} {next next' : Nat} {rels' : List RelInfo},
    declare ds rels w next = (w', .ok (next', rels')) → (∀ r ∈ rels, w.relId r.name = some r.id) →
      ∀ r ∈ rels', w'.relId r.name = some r.id := by
  intro ds
  induction ds with
  | nil =>
    intro rels w w' next next' rels' h hrels
    cases h
    exact hrels
  | cons d ds ih =>
    intro rels w w' next next' rels' h hrels
    obtain ⟨w₁, x, hone, h⟩ := Load.andThen_ok h
    obtain ⟨columns, -, -, rfl, rfl⟩ := declareOne_ok hone
    refine ih h fun r hr => ?_
    rcases List.mem_append.1 hr with hr | hr
    · exact (assign_extends w next d.1).knows _ _ (hrels r hr)
    · obtain rfl := List.mem_singleton.1 hr
      exact relId_assign w next d.1

/-- Relations whose names were bound have the same ids in any store that knows them. -/
theorem declare_stable : ∀ {ds : List (String × Except String (List Column))} {rels : List RelInfo}
    {w : WorldStore} {next next' : Nat} {rels' : List RelInfo},
    declare ds rels w next = (w, .ok (next', rels')) → ∀ {w₂ : WorldStore}, w.Knows w₂ →
      ∀ next₂, ∃ next₂', declare ds rels w₂ next₂ = (w₂, .ok (next₂', rels')) := by
  intro ds
  induction ds with
  | nil =>
    intro rels w next next' rels' h w₂ _ next₂
    cases h
    exact ⟨next₂, rfl⟩
  | cons d ds ih =>
    intro rels w next next' rels' h w₂ hknows next₂
    obtain ⟨x, hone, h⟩ := Load.andThen_same h (declareOne_extends d rels w next)
      fun w₁ x => declare_extends ds x.2 w₁ x.1
    obtain ⟨columns, hdup, hcols, hsame, rfl⟩ := declareOne_ok hone
    have hbound : w.relId d.1 = some (w.assign next d.1).2.2 := bound_of_assign (by rw [← hsame])
    have hone₂ : declareOne d rels w₂ next₂
        = (w₂, .ok (next₂, rels ++ [⟨d.1, (w.assign next d.1).2.2, columns⟩])) := by
      rw [declareOne, if_neg (by simp [hdup]), hcols, assign_of_bound (hknows _ _ hbound)]
    obtain ⟨next₂', hrest⟩ := ih h hknows next₂
    exact ⟨next₂', by rw [declare, hone₂]; exact hrest⟩

theorem Load.check_extends {α : Type} (x : Except String Unit) (w : WorldStore) {f : WorldStore → Unit → Load α}
    (hf : w.Extends (f w ()).1) : w.Extends (Load.andThen (w, x) f).1 := by
  cases x with
  | error e => exact .refl w
  | ok u => exact hf

theorem Load.check_ok {α : Type} {x : Except String Unit} {f : WorldStore → Unit → Load α} {a : α}
    (h : Load.andThen (w, x) f = (w', .ok a)) : x = .ok () ∧ f w () = (w', .ok a) := by
  cases x with
  | error e => cases h
  | ok u => exact ⟨rfl, h⟩

/-! ### Names and ids -/

/-- No two names are bound to one relation. -/
def WorldStore.Apart (w : WorldStore) : Prop := (w.names.map (·.2)).Nodup

theorem mem_of_relId {name : String} {id : RelId} (h : w.relId name = some id) : (name, id) ∈ w.names := by
  obtain ⟨e, he, rfl⟩ := Option.map_eq_some_iff.1 h
  have hname : e.1 = name := by simpa using List.find?_some he
  rw [← hname]
  exact List.mem_of_find?_eq_some he

theorem WorldStore.Apart.name_eq (h : w.Apart) {a b : String} {id : RelId} (ha : w.relId a = some id)
    (hb : w.relId b = some id) : a = b :=
  congrArg Prod.fst (List.inj_on_of_nodup_map h (mem_of_relId ha) (mem_of_relId hb) rfl)

theorem nextId_above (base : Nat) : ∀ e ∈ w.names, e.2 < w.nextId base := by
  intro e he
  have hmem : e.2 ∈ w.names.map (·.2) := List.mem_map_of_mem he
  unfold WorldStore.nextId
  split
  · rename_i highest hmax
    have hle : e.2 ≤ highest := (List.max?_eq_some_iff.1 hmax).2 e.2 hmem
    exact lt_of_lt_of_le (Nat.lt_succ_of_le hle) (Nat.le_max_right _ _)
  · rename_i hnone
    rw [List.max?_eq_none_iff.1 hnone] at hmem
    exact absurd hmem List.not_mem_nil

/-- A fresh id is above every id, and stays below the next one. -/
theorem assign_apart (h : w.Apart) {next : Nat} (hnext : ∀ e ∈ w.names, e.2 < next) (name : String) :
    (w.assign next name).1.Apart ∧ ∀ e ∈ (w.assign next name).1.names, e.2 < (w.assign next name).2.1 := by
  unfold WorldStore.assign
  split
  · exact ⟨h, hnext⟩
  · refine ⟨?_, fun e he => ?_⟩
    · show ((w.names ++ [(name, next)]).map (·.2)).Nodup
      rw [List.map_append, List.nodup_append]
      refine ⟨h, List.nodup_singleton _, fun a ha b hb hab => ?_⟩
      obtain ⟨e, he, rfl⟩ := List.mem_map.1 ha
      have := hnext e he
      rw [hab, List.mem_singleton.1 hb] at this
      exact absurd this (Nat.lt_irrefl _)
    · rcases List.mem_append.1 he with he | he
      · exact Nat.lt_succ_of_lt (hnext e he)
      · obtain rfl := List.mem_singleton.1 he
        exact Nat.lt_succ_self _

theorem declare_apart : ∀ {ds : List (String × Except String (List Column))} {rels : List RelInfo}
    {w w' : WorldStore} {next next' : Nat} {rels' : List RelInfo}, w.Apart → (∀ e ∈ w.names, e.2 < next) →
      declare ds rels w next = (w', .ok (next', rels')) → w'.Apart ∧ ∀ e ∈ w'.names, e.2 < next' := by
  intro ds
  induction ds with
  | nil =>
    intro rels w w' next next' rels' hw hnext h
    cases h
    exact ⟨hw, hnext⟩
  | cons d ds ih =>
    intro rels w w' next next' rels' hw hnext h
    obtain ⟨w₁, x, hone, h⟩ := Load.andThen_ok h
    obtain ⟨columns, -, -, rfl, rfl⟩ := declareOne_ok hone
    obtain ⟨happ, hbelow⟩ := assign_apart hw hnext d.1
    exact ih happ hbelow h

/-- What is declared are relations of those names and columns. -/
theorem declare_columns : ∀ {ds : List (String × Except String (List Column))} {rels : List RelInfo}
    {w w' : WorldStore} {next next' : Nat} {rels' : List RelInfo},
    declare ds rels w next = (w', .ok (next', rels')) →
      ∃ more, rels' = rels ++ more ∧ List.Forall₂ (fun d r => r.name = d.1 ∧ d.2 = .ok r.columns) ds more := by
  intro ds
  induction ds with
  | nil =>
    intro rels w w' next next' rels' h
    cases h
    exact ⟨[], by simp, .nil⟩
  | cons d ds ih =>
    intro rels w w' next next' rels' h
    obtain ⟨w₁, x, hone, h⟩ := Load.andThen_ok h
    obtain ⟨columns, -, hcols, rfl, rfl⟩ := declareOne_ok hone
    obtain ⟨more, rfl, hmore⟩ := ih h
    exact ⟨_, List.append_assoc _ _ _, .cons ⟨rfl, hcols⟩ hmore⟩

/-- No two relations that are declared have one name. -/
theorem declare_nodup : ∀ {ds : List (String × Except String (List Column))} {rels : List RelInfo}
    {w w' : WorldStore} {next next' : Nat} {rels' : List RelInfo}, (rels.map (·.name)).Nodup →
      declare ds rels w next = (w', .ok (next', rels')) → (rels'.map (·.name)).Nodup := by
  intro ds
  induction ds with
  | nil =>
    intro rels w w' next next' rels' hrels h
    cases h
    exact hrels
  | cons d ds ih =>
    intro rels w w' next next' rels' hrels h
    obtain ⟨w₁, x, hone, h⟩ := Load.andThen_ok h
    obtain ⟨columns, hnew, -, rfl, rfl⟩ := declareOne_ok hone
    refine ih ?_ h
    rw [List.map_append, List.nodup_append]
    refine ⟨hrels, List.nodup_singleton _, fun a ha b hb hab => ?_⟩
    obtain ⟨r, hr, rfl⟩ := List.mem_map.1 ha
    have hname : r.name = d.1 := hab.trans (List.mem_singleton.1 hb)
    simpa [hname] using List.any_eq_false.1 hnew r hr

section Source

variable {src : PackageSource} {base : Nat} {p : Package}

theorem PackageSource.finish_extends (base : Nat) (rels : List RelInfo) (w : WorldStore) :
    w.Extends (src.finish base rels w).1 := assign_extends w _ _

/-- **A compilation binds names and writes nothing else**, whatever it comes to. -/
theorem PackageSource.compile_extends (base : Nat) (w : WorldStore) : w.Extends (src.compile base w).1 := by
  refine Load.check_extends _ w ?_
  refine Load.andThen_extends (declare_extends _ _ w _) fun w₁ declared _ => ?_
  refine Load.check_extends _ w₁ ?_
  refine Load.andThen_extends (declare_extends _ _ w₁ _) fun w₂ stored _ => ?_
  exact Load.check_extends _ w₂ (finish_extends base stored.2 w₂)

/-- What finishes a compilation. -/
theorem PackageSource.finish_ok {rels : List RelInfo} (h : src.finish base rels w = (w', .ok p)) :
    w' = (w.assign (w.nextId base) installMarkerRelation).1 ∧ src.behaviors = .ok () ∧
      ∃ rows, src.bootstrap.mapM (bootstrapRow rels) = .ok rows ∧
        p = ⟨rels ++ [⟨installMarkerRelation, (w.assign (w.nextId base) installMarkerRelation).2.2,
            markerColumns⟩],
          (w.assign (w.nextId base) installMarkerRelation).2.2,
          rows ++ cursorRows (rels.drop src.rels.length)⟩ := by
  unfold finish at h
  obtain ⟨hw, hp⟩ := Prod.mk.inj h
  cases hb : src.behaviors with
  | error e =>
    rw [hb] at hp
    cases hp
  | ok u =>
    cases hrows : src.bootstrap.mapM (bootstrapRow rels) with
    | error e =>
      rw [hb, hrows] at hp
      cases hp
    | ok rows =>
      rw [hb, hrows] at hp
      exact ⟨hw.symm, rfl, rows, rfl, (Except.ok.inj hp).symm⟩

/-- Every relation of a compiled package has the id its name is bound to, the marker's
among them. -/
theorem PackageSource.compile_bound (h : src.compile base w = (w', .ok p)) :
    (∀ r ∈ p.rels, w'.relId r.name = some r.id) ∧
      w'.relId installMarkerRelation = some p.markerRelation := by
  obtain ⟨-, h⟩ := Load.check_ok h
  obtain ⟨w₁, declared, h₁, h⟩ := Load.andThen_ok h
  obtain ⟨-, h⟩ := Load.check_ok h
  obtain ⟨w₂, stored, h₂, h⟩ := Load.andThen_ok h
  obtain ⟨-, h⟩ := Load.check_ok h
  obtain ⟨rfl, -, rows, -, rfl⟩ := finish_ok h
  have hdeclared := declare_bound h₁ fun r hr => absurd hr List.not_mem_nil
  have hstored := declare_bound h₂ hdeclared
  refine ⟨fun r hr => ?_, relId_assign w₂ _ _⟩
  rcases List.mem_append.1 hr with hr | hr
  · exact (assign_extends w₂ _ _).knows _ _ (hstored r hr)
  · obtain rfl := List.mem_singleton.1 hr
    exact relId_assign w₂ _ _

/-- A compiled package's relations are those declared, and the marker's. -/
theorem PackageSource.compile_columns (h : src.compile base w = (w', .ok p)) :
    List.Forall₂ (fun d r => r.name = d.1 ∧ d.2 = .ok r.columns)
      (src.rels ++ src.stored ++ [(installMarkerRelation, .ok markerColumns)]) p.rels := by
  obtain ⟨-, h⟩ := Load.check_ok h
  obtain ⟨w₁, declared, h₁, h⟩ := Load.andThen_ok h
  obtain ⟨-, h⟩ := Load.check_ok h
  obtain ⟨w₂, stored, h₂, h⟩ := Load.andThen_ok h
  obtain ⟨-, h⟩ := Load.check_ok h
  obtain ⟨-, -, rows, -, rfl⟩ := finish_ok h
  obtain ⟨more, hdeclared, hmore⟩ := declare_columns h₁
  obtain ⟨more', hstored, hmore'⟩ := declare_columns h₂
  rw [hstored, hdeclared, List.nil_append]
  exact List.rel_append (List.rel_append hmore hmore') (.cons ⟨rfl, rfl⟩ .nil)

/-- What a compiled package's bootstrap is: its facts in the relations that are declared,
and the cursors of those that are stored. -/
theorem PackageSource.compile_rows (h : src.compile base w = (w', .ok p)) :
    ∃ rels stored rows, p.rels = rels ++ [⟨installMarkerRelation, p.markerRelation, markerColumns⟩] ∧
      (rels.map (·.name)).Nodup ∧ (∀ r ∈ stored, r ∈ rels) ∧
        List.Forall₂ (fun d r => r.name = d.1 ∧ d.2 = .ok r.columns) src.stored stored ∧
          src.bootstrap.mapM (bootstrapRow rels) = .ok rows ∧ p.bootstrapRows = rows ++ cursorRows stored := by
  obtain ⟨-, h⟩ := Load.check_ok h
  obtain ⟨w₁, declared, h₁, h⟩ := Load.andThen_ok h
  obtain ⟨-, h⟩ := Load.check_ok h
  obtain ⟨w₂, stored, h₂, h⟩ := Load.andThen_ok h
  obtain ⟨-, h⟩ := Load.check_ok h
  obtain ⟨-, -, rows, hrows, rfl⟩ := finish_ok h
  obtain ⟨more, hdeclared, hmore⟩ := declare_columns h₁
  obtain ⟨more', hstored, hmore'⟩ := declare_columns h₂
  have hdrop : stored.2.drop src.rels.length = more' := by
    rw [hstored, hdeclared, List.nil_append, hmore.length_eq, List.drop_left]
  have hnone : (([] : List RelInfo).map (·.name)).Nodup := List.nodup_nil
  exact ⟨stored.2, more', rows, rfl, declare_nodup (declare_nodup hnone h₁) h₂,
    fun r hr => hstored ▸ List.mem_append_right _ hr, hmore', hrows, by rw [hdrop]⟩

/-- A compilation binds no two names to one relation. -/
theorem PackageSource.compile_apart (hw : w.Apart) (h : src.compile base w = (w', .ok p)) : w'.Apart := by
  obtain ⟨-, h⟩ := Load.check_ok h
  obtain ⟨w₁, declared, h₁, h⟩ := Load.andThen_ok h
  obtain ⟨-, h⟩ := Load.check_ok h
  obtain ⟨w₂, stored, h₂, h⟩ := Load.andThen_ok h
  obtain ⟨-, h⟩ := Load.check_ok h
  obtain ⟨rfl, -⟩ := finish_ok h
  obtain ⟨happ, hbelow⟩ := declare_apart hw (nextId_above base) h₁
  obtain ⟨happ₂, -⟩ := declare_apart happ hbelow h₂
  exact (assign_apart happ₂ (nextId_above base) _).1

/-- **A compilation that binds nothing new comes to the same in every store that knows
the names.** -/
theorem PackageSource.compile_stable (h : src.compile base w = (w, .ok p)) (hknows : w.Knows w₂)
    (base₂ : Nat) : src.compile base₂ w₂ = (w₂, .ok p) := by
  obtain ⟨hheader, h⟩ := Load.check_ok h
  obtain ⟨declared, h₁, h⟩ := Load.andThen_same h (declare_extends _ _ w _) fun w₁ declared =>
    Load.check_extends _ w₁ (Load.andThen_extends (declare_extends _ _ w₁ _) fun w₂ stored _ =>
      Load.check_extends _ w₂ (finish_extends base stored.2 w₂))
  obtain ⟨hviews, h⟩ := Load.check_ok h
  obtain ⟨stored, h₂, h⟩ := Load.andThen_same h (declare_extends _ _ w _) fun w₂ stored =>
    Load.check_extends _ w₂ (finish_extends base stored.2 w₂)
  obtain ⟨hwords, h⟩ := Load.check_ok h
  obtain ⟨hsame, hbehaviors, rows, hrows, rfl⟩ := finish_ok h
  have hmarker : w.relId installMarkerRelation = some (w.assign (w.nextId base) installMarkerRelation).2.2 :=
    bound_of_assign (by rw [← hsame])
  obtain ⟨n₁, h₁'⟩ := declare_stable h₁ hknows (w₂.nextId base₂)
  obtain ⟨n₂, h₂'⟩ := declare_stable h₂ hknows n₁
  have hfinish : src.finish base₂ stored.2 w₂ = (w₂, .ok ⟨stored.2 ++
      [⟨installMarkerRelation, (w.assign (w.nextId base) installMarkerRelation).2.2, markerColumns⟩],
      (w.assign (w.nextId base) installMarkerRelation).2.2,
      rows ++ cursorRows (stored.2.drop src.rels.length)⟩) := by
    rw [finish, assign_of_bound (hknows _ _ hmarker), hbehaviors, hrows]
    rfl
  rw [compile, hheader]
  show (declare src.rels [] w₂ (w₂.nextId base₂)).andThen _ = _
  rw [h₁', hviews]
  show (declare src.stored declared.2 w₂ n₁).andThen _ = _
  rw [h₂', hwords]
  exact hfinish

end Source

end Compiling

end Grmpl

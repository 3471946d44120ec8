import Grmpl.Lib.Runs
import Grmpl.Lang.PackageLoad

/-!
# The ids of a catalog

Compilations of worlds and packages, one after another, against one catalog. A name that is
bound keeps its id; a fresh name is given one above every id that is bound. Ids are 32 bits
wide.

* `NameCatalog`, `CatalogAlloc`, `assignReserved`: the catalog, and how ids are assigned.
* `WorldSource.compileWithCatalog`, `WorldSource.compilePackage`: what a compilation binds,
  whether it succeeds or not.
* `Catalogued.Stable`: what holds of a catalog and the programs compiled against it.
* `catalog_stable`: **it holds after any sequence of compilations** that do not run out of
  ids.
-/

open Runs

namespace Grmpl

/-- The names of relations, with their ids. -/
abbrev NameCatalog := List (String × UInt32)

namespace NameCatalog

variable (c : NameCatalog)

def relId (name : String) : Option UInt32 := (c.find? fun e => e.1 = name).map (·.2)

/-- A name is bound once. -/
def register (name : String) (id : UInt32) : Except String NameCatalog :=
  match c.relId name with
  | some existing =>
      if existing ≠ id then .error ("catalog conflict: `" ++ name ++ "` already bound to " ++
        toString existing ++ " (cannot rebind to " ++ toString id ++ ")")
      else .ok c
  | none => .ok (c ++ [(name, id)])

/-- The first id for a fresh name: above every id that is bound. -/
def nextId (base : UInt32) : UInt32 :=
  match (c.map (·.2)).max? with
  | some highest => max base (highest + 1)
  | none => base

end NameCatalog

/-- An allocation of ids that read the highest once. -/
structure CatalogAlloc where
  catalog : NameCatalog
  next : UInt32

namespace CatalogAlloc

def new (catalog : NameCatalog) (base : UInt32) : CatalogAlloc := ⟨catalog, catalog.nextId base⟩

/-- The id of a name; a fresh one is bound on the spot. -/
def assign (a : CatalogAlloc) (name : String) : CatalogAlloc × Except String UInt32 :=
  match a.catalog.relId name with
  | some id => (a, .ok id)
  | none => match a.catalog.register name a.next with
      | .ok catalog => (⟨catalog, a.next + 1⟩, .ok a.next)
      | .error e => ({ a with next := a.next + 1 }, .error e)

end CatalogAlloc

/-- The id of a reserved relation; the highest is read again for it. -/
def assignReserved (catalog : NameCatalog) (base : UInt32) (name : String) :
    NameCatalog × Except String UInt32 :=
  match catalog.relId name with
  | some id => (catalog, .ok id)
  | none => match catalog.register name (catalog.nextId base) with
      | .ok catalog' => (catalog', .ok (catalog.nextId base))
      | .error e => (catalog, .error e)

/-- The relation that holds the cursors of materialized views. -/
def viewCursorName : String := "view:cursor"

/-- The relation a materialized view is stored in. -/
def backingName (view : String) : String := "view:" ++ view

/-- A declaration, as far as it is about relations: what the check of its columns comes to,
or of what else it declares. -/
inductive Declared where
  | relation (name : String) (columns : Except String Unit)
  | other (check : Except String Unit)

/-- A source, and what the checks of it come to that look at no id. -/
structure WorldSource where
  declarations : Except String (List Declared)
  views : Except String Unit
  /-- The materialized views in the order of their names, each with the check of what it
  stores. -/
  materialized : List (String × Except String Unit)
  /-- Capabilities and word arms. -/
  words : Except String Unit
  /-- The parts of a package that are read before its program. -/
  header : Except String Unit
  namespaces : Except String Unit
  /-- Requirements, behaviors, bootstrap, actors. -/
  contents : Except String Unit

/-- The relations of a program, with their ids. -/
abbrev ProgramIds := List (String × UInt32)

/-- What a compilation has bound, and what it has come to. -/
abbrev Compiling := CatalogAlloc × Except String ProgramIds

/-- Declarations in turn, as far as they are accepted. -/
def declareAll (a : CatalogAlloc) (rels : ProgramIds) : List Declared → Compiling
  | [] => (a, .ok rels)
  | .other check :: ds => match check with
      | .error e => (a, .error e)
      | .ok () => declareAll a rels ds
  | .relation name columns :: ds =>
      if rels.any fun r => r.1 = name then (a, .error ("relation `" ++ name ++ "` declared twice"))
      else match columns with
        | .error e => (a, .error e)
        | .ok () => match a.assign name with
            | (a, .ok id) => declareAll a (rels ++ [(name, id)]) ds
            | (a, .error e) => (a, .error e)

/-- A relation put among those of a program, in the place of one of its name. -/
def insertRel (rels : ProgramIds) (name : String) (id : UInt32) : ProgramIds :=
  rels.filter (fun r => r.1 ≠ name) ++ [(name, id)]

/-- The relations materialized views are stored in. -/
def bindBacking (a : CatalogAlloc) (rels : ProgramIds) : List (String × Except String Unit) → Compiling
  | [] => (a, .ok rels)
  | (view, columns) :: views => match columns with
      | .error e => (a, .error e)
      | .ok () => match a.assign (backingName view) with
          | (a, .ok id) => bindBacking a (insertRel rels (backingName view) id) views
          | (a, .error e) => (a, .error e)

/-- Materialized views are given a relation each, and a cursor relation between them. -/
def bindMaterializedViews (a : CatalogAlloc) (rels : ProgramIds) (views : List (String × Except String Unit)) :
    Compiling :=
  if views.isEmpty then (a, .ok rels)
  else match a.assign viewCursorName with
    | (a, .ok id) => bindBacking a (insertRel rels viewCursorName id) views
    | (a, .error e) => (a, .error e)

/-- Goes on from what was bound, if nothing was refused. -/
def Compiling.andThen (x : Compiling) (f : CatalogAlloc → ProgramIds → Compiling) : Compiling :=
  match x with
  | (a, .ok rels) => f a rels
  | (a, .error e) => (a, .error e)

def Compiling.check (x : Compiling) (check : Except String Unit) : Compiling :=
  x.andThen fun a rels => (a, check.map fun _ => rels)

namespace WorldSource

variable (src : WorldSource) (base : UInt32)

/-- A world's program. -/
def compileWithCatalog (catalog : NameCatalog) : NameCatalog × Except String ProgramIds :=
  let a := CatalogAlloc.new catalog base
  let out : Compiling := match src.declarations with
    | .error e => (a, .error e)
    | .ok ds => (((declareAll a [] ds).check src.views).andThen fun a rels =>
        bindMaterializedViews a rels src.materialized).check src.words
  (out.1.catalog, out.2)

/-- A package: its program, and the relation of its installation marker. -/
def compilePackage (catalog : NameCatalog) : NameCatalog × Except String ProgramIds :=
  match src.header with
  | .error e => (catalog, .error e)
  | .ok () => match src.compileWithCatalog base catalog with
      | (catalog, .error e) => (catalog, .error e)
      | (catalog, .ok rels) => match src.namespaces with
          | .error e => (catalog, .error e)
          | .ok () => match assignReserved catalog base installMarkerRelation with
              | (catalog, .error e) => (catalog, .error e)
              | (catalog, .ok id) =>
                  if rels.any fun r => r.1 = installMarkerRelation then
                    (catalog, .error ("reserved relation `" ++ installMarkerRelation ++ "` collides with source"))
                  else (catalog, src.contents.map fun _ => rels ++ [(installMarkerRelation, id)])

end WorldSource

/-! ## Compilations in turn -/

namespace NameCatalog

/-- A name is bound once, and no two names share an id. -/
def Apart (c : NameCatalog) : Prop := (c.map (·.1)).Nodup ∧ (c.map (·.2)).Nodup

/-- Every name keeps its id. -/
def Extends (c c' : NameCatalog) : Prop := ∀ name id, c.relId name = some id → c'.relId name = some id

/-- The ids of a program are those of its names. -/
def Used (c : NameCatalog) (rels : ProgramIds) : Prop := ∀ r ∈ rels, c.relId r.1 = some r.2

end NameCatalog

/-- A catalog, and the programs that were compiled against it. -/
structure Catalogued where
  catalog : NameCatalog
  programs : List ProgramIds

namespace Catalogued

inductive Act where
  | world (src : WorldSource) (base : UInt32)
  | package (src : WorldSource) (base : UInt32)

/-- What a compilation leaves. -/
def after (w : Catalogued) (out : NameCatalog × Except String ProgramIds) : Catalogued :=
  ⟨out.1, w.programs ++ out.2.toOption.toList⟩

def step (w : Catalogued) : Act → Option Catalogued
  | .world src base => some (w.after (src.compileWithCatalog base w.catalog))
  | .package src base => some (w.after (src.compilePackage base w.catalog))

/-- **Stable ids**: a name is bound once, no two names share an id, and the ids of every
program are those of its names. -/
structure Stable (w : Catalogued) : Prop where
  apart : w.catalog.Apart
  used : ∀ rels ∈ w.programs, w.catalog.Used rels

end Catalogued

/-! ## Room -/

/-- The relations declared, up to a declaration that is refused, and whether none is. -/
def declaredNames (seen : List String) : List Declared → List String × Bool
  | [] => ([], true)
  | .other check :: ds => if check.isOk then declaredNames seen ds else ([], false)
  | .relation name columns :: ds =>
      if name ∈ seen ∨ columns.isOk = false then ([], false)
      else
        let rest := declaredNames (seen ++ [name]) ds
        (name :: rest.1, rest.2)

def backingNames : List (String × Except String Unit) → List String × Bool
  | [] => ([], true)
  | v :: vs =>
      if v.2.isOk then
        let rest := backingNames vs
        (backingName v.1 :: rest.1, rest.2)
      else ([], false)

namespace WorldSource

variable (src : WorldSource)

/-- The relations a world's compilation gets to, and whether it accepts the source. -/
def worldNames : List String × Bool :=
  match src.declarations with
  | .error _ => ([], false)
  | .ok ds =>
      let declared := declaredNames [] ds
      if declared.2 && src.views.isOk then
        if src.materialized.isEmpty then (declared.1, src.words.isOk)
        else
          let stored := backingNames src.materialized
          (declared.1 ++ viewCursorName :: stored.1, stored.2 && src.words.isOk)
      else (declared.1, false)

def packageNames : List String :=
  if src.header.isOk then
    if src.worldNames.2 && src.namespaces.isOk then src.worldNames.1 ++ [installMarkerRelation]
    else src.worldNames.1
  else []

end WorldSource

/-- How many of the names are new, each counted once. -/
def unbound (bound : List String) : List String → Nat
  | [] => 0
  | name :: names => if name ∈ bound then unbound bound names else unbound (name :: bound) names + 1

namespace NameCatalog

/-- One more than every id that is bound, and the base at least. -/
def above (c : NameCatalog) (base : UInt32) : Nat := c.foldl (fun n e => max n (e.2.toNat + 1)) base.toNat

/-- There are ids left for those of the names that are new. -/
def Room (c : NameCatalog) (base : UInt32) (names : List String) : Prop :=
  c.above base + unbound (c.map (·.1)) names ≤ 2 ^ 32

instance (c : NameCatalog) (base : UInt32) (names : List String) : Decidable (c.Room base names) :=
  inferInstanceAs (Decidable (_ ≤ _))

end NameCatalog

/-- Every compilation has ids left for the relations it gets to. -/
def Catalogued.HasRoom (w : Catalogued) : Catalogued.Act → Prop
  | .world src base => w.catalog.Room base src.worldNames.1
  | .package src base => w.catalog.Room base src.packageNames

instance (w : Catalogued) (act : Catalogued.Act) : Decidable (w.HasRoom act) := by
  cases act <;> exact inferInstanceAs (Decidable (NameCatalog.Room _ _ _))

/-! ## Names in turn -/

section Assign

variable {a : CatalogAlloc} {c : NameCatalog} {name : String}

namespace NameCatalog

theorem Extends.refl (c : NameCatalog) : c.Extends c := fun _ _ h => h

theorem Extends.trans {c' c'' : NameCatalog} (h : c.Extends c') (h' : c'.Extends c'') : c.Extends c'' :=
  fun name id hid => h' name id (h name id hid)

theorem relId_append (c : NameCatalog) (name : String) (id : UInt32) (other : String) :
    NameCatalog.relId (c ++ [(name, id)]) other = (c.relId other).or (if name = other then some id else none) := by
  unfold relId
  rw [List.find?_append, Option.map_or]
  congr 1
  by_cases h : name = other <;> simp [h]

theorem relId_eq_none : c.relId name = none ↔ name ∉ c.map (·.1) := by
  unfold relId
  rw [Option.map_eq_none_iff, List.find?_eq_none, List.mem_map]
  refine ⟨?_, fun h e he heq => h ⟨e, he, by simpa using heq⟩⟩
  rintro h ⟨e, he, rfl⟩
  exact h e he (by simp)

theorem mem_of_relId {id : UInt32} (h : c.relId name = some id) : name ∈ c.map (·.1) := by
  by_contra hno
  rw [relId_eq_none.2 hno] at h
  cases h

end NameCatalog

namespace CatalogAlloc

/-- A fresh name is bound to the next id, and a bound one left. -/
theorem assign_cases (a : CatalogAlloc) (name : String) :
    (∃ id, a.catalog.relId name = some id ∧ a.assign name = (a, .ok id)) ∨
      (a.catalog.relId name = none ∧
        a.assign name = (⟨a.catalog ++ [(name, a.next)], a.next + 1⟩, .ok a.next)) := by
  cases h : a.catalog.relId name with
  | some id => exact .inl ⟨id, rfl, by rw [assign, h]⟩
  | none => exact .inr ⟨rfl, by simp only [assign, h, NameCatalog.register]⟩

/-- Names assigned in turn. -/
def assignAll (a : CatalogAlloc) (names : List String) : CatalogAlloc := names.foldl (fun a n => (a.assign n).1) a

theorem assign_bound {a' : CatalogAlloc} {id : UInt32} (h : a.assign name = (a', .ok id)) :
    a.catalog.Extends a'.catalog ∧ a'.catalog.relId name = some id := by
  rcases a.assign_cases name with ⟨id', hid, heq⟩ | ⟨hnone, heq⟩
  · cases heq.symm.trans h
    exact ⟨.refl _, hid⟩
  · cases heq.symm.trans h
    refine ⟨fun other id hid => ?_, ?_⟩
    · rw [NameCatalog.relId_append, hid, Option.some_or]
    · rw [NameCatalog.relId_append, hnone, if_pos rfl, Option.none_or]

theorem assign_extends (a : CatalogAlloc) (name : String) : a.catalog.Extends (a.assign name).1.catalog := by
  rcases a.assign_cases name with ⟨id, -, heq⟩ | ⟨-, heq⟩
  · rw [heq]
    exact .refl _
  · rw [heq]
    exact (assign_bound heq).1

theorem assignAll_extends : ∀ (names : List String) (a : CatalogAlloc), a.catalog.Extends (a.assignAll names).catalog
  | [], _ => .refl _
  | name :: names, a => (a.assign_extends name).trans (assignAll_extends names _)

/-- Ids are handed out above those that are bound, as long as there are any. -/
def Synced (base : UInt32) (a : CatalogAlloc) : Prop :=
  a.catalog.above base < 2 ^ 32 → a.next.toNat = a.catalog.above base

theorem above_append (c : NameCatalog) (base : UInt32) (e : String × UInt32) :
    NameCatalog.above (c ++ [e]) base = max (c.above base) (e.2.toNat + 1) := by
  rw [NameCatalog.above, List.foldl_append]
  rfl

theorem lt_above : ∀ (c : NameCatalog) (base : UInt32), ∀ e ∈ c, e.2.toNat < c.above base := by
  have hfold : ∀ (c : NameCatalog) (n : Nat), n ≤ c.foldl (fun n e => max n (e.2.toNat + 1)) n ∧
      ∀ e ∈ c, e.2.toNat < c.foldl (fun n e => max n (e.2.toNat + 1)) n := by
    intro c
    induction c with
    | nil => exact fun n => ⟨le_rfl, fun _ h => absurd h List.not_mem_nil⟩
    | cons e c ih =>
      intro n
      obtain ⟨hle, hlt⟩ := ih (max n (e.2.toNat + 1))
      refine ⟨(le_max_left _ _).trans hle, List.forall_mem_cons.2 ⟨?_, hlt⟩⟩
      exact Nat.lt_of_succ_le ((le_max_right _ _).trans hle)
  exact fun c base => (hfold c base.toNat).2

theorem toNat_max (a b : UInt32) : (max a b).toNat = max a.toNat b.toNat := by
  change (if a ≤ b then b else a).toNat = _
  split
  case isTrue h => exact (max_eq_right (UInt32.le_iff_toNat_le.1 h)).symm
  case isFalse h => exact (max_eq_left (Nat.le_of_not_le fun hle => h (UInt32.le_iff_toNat_le.2 hle))).symm

theorem above_cons : ∀ (c : NameCatalog) (n : Nat) (highest : UInt32),
    c.foldl (fun n e => max n (e.2.toNat + 1)) (max n (highest.toNat + 1))
      = max n (((c.map (·.2)).foldl max highest).toNat + 1)
  | [], _, _ => rfl
  | e :: c, n, highest => by
      rw [List.foldl_cons, List.map_cons, List.foldl_cons, ← above_cons c n, toNat_max, max_assoc, ← Nat.add_max_add_right]

theorem synced_new (c : NameCatalog) (base : UInt32) : Synced base (new c base) := by
  intro hlt
  cases c with
  | nil => rfl
  | cons e c =>
    have habove : NameCatalog.above (e :: c) base = max base.toNat (((c.map (·.2)).foldl max e.2).toNat + 1) :=
      above_cons c base.toNat e.2
    have hnext : NameCatalog.nextId (e :: c) base = max base ((c.map (·.2)).foldl max e.2 + 1) := by
      rw [NameCatalog.nextId, List.map_cons, List.max?_cons']
    change NameCatalog.above (e :: c) base < 2 ^ 32 at hlt
    show (NameCatalog.nextId (e :: c) base).toNat = NameCatalog.above (e :: c) base
    rw [habove] at hlt ⊢
    rw [hnext, toNat_max, UInt32.toNat_add, UInt32.toNat_one, Nat.mod_eq_of_lt (by omega)]

/-- **A name assigned**: a fresh one takes an id of its own. -/
theorem Synced.assign {base : UInt32} (h : Synced base a) (hroom : a.catalog.Room base [name])
    (honce : (a.catalog.map (·.1)).Nodup) (hapart : (a.catalog.map (·.2)).Nodup) :
    Synced base (a.assign name).1 ∧ ((a.assign name).1.catalog.map (·.1)).Nodup ∧
      ((a.assign name).1.catalog.map (·.2)).Nodup ∧
      (a.assign name).1.catalog.above base = a.catalog.above base + unbound (a.catalog.map (·.1)) [name] := by
  rcases a.assign_cases name with ⟨id, hid, heq⟩ | ⟨hnone, heq⟩
  · have hmem := NameCatalog.mem_of_relId hid
    rw [heq, unbound, if_pos hmem]
    exact ⟨h, honce, hapart, rfl⟩
  · have hnew := NameCatalog.relId_eq_none.1 hnone
    rw [NameCatalog.Room, unbound, if_neg hnew, unbound] at hroom
    have hnext := h (by omega)
    have habove : NameCatalog.above (a.catalog ++ [(name, a.next)]) base = a.catalog.above base + 1 := by
      rw [above_append, hnext]
      omega
    rw [heq, unbound, if_neg hnew, unbound]
    refine ⟨fun hlt => ?_, ?_, ?_, habove⟩
    · dsimp only at hlt ⊢
      rw [habove] at hlt ⊢
      rw [UInt32.toNat_add, UInt32.toNat_one, hnext, Nat.mod_eq_of_lt hlt]
    · rw [List.map_append]
      exact List.nodup_append.2 ⟨honce, List.nodup_singleton _, fun x hx y hy hxy => by
        rw [List.map_singleton, List.mem_singleton] at hy
        subst hy
        exact hnew (hxy.symm ▸ hx)⟩
    · rw [List.map_append]
      refine List.nodup_append.2 ⟨hapart, List.nodup_singleton _, fun x hx y hy hxy => ?_⟩
      rw [List.map_singleton, List.mem_singleton] at hy
      obtain ⟨e, he, rfl⟩ := List.mem_map.1 hx
      have hlt := lt_above a.catalog base e he
      rw [hxy, hy, hnext] at hlt
      exact lt_irrefl _ hlt

theorem unbound_congr : ∀ {names b b' : List String}, (∀ n, n ∈ b ↔ n ∈ b') → unbound b names = unbound b' names
  | [], _, _, _ => rfl
  | name :: names, b, b', h => by
      rw [unbound, unbound]
      refine if_congr (h name) (unbound_congr h) (congrArg _ (unbound_congr fun n => ?_))
      rw [List.mem_cons, List.mem_cons, h]

/-- **Names assigned in turn**, each fresh one to an id of its own, and room left for the rest. -/
theorem Synced.assignAll {base : UInt32} {more : List String} : ∀ {names : List String} {a : CatalogAlloc},
    Synced base a → a.catalog.Room base (names ++ more) → (a.catalog.map (·.1)).Nodup → (a.catalog.map (·.2)).Nodup →
      ((a.assignAll names).catalog.map (·.1)).Nodup ∧ ((a.assignAll names).catalog.map (·.2)).Nodup ∧
        (a.assignAll names).catalog.Room base more
  | [], _, _, hroom, honce, hapart => ⟨honce, hapart, hroom⟩
  | name :: names, a, h, hroom, honce, hapart => by
      have hsplit : unbound (a.catalog.map (·.1)) (name :: (names ++ more))
          = unbound (a.catalog.map (·.1)) [name] + unbound ((a.assign name).1.catalog.map (·.1)) (names ++ more) := by
        rcases a.assign_cases name with ⟨id, hid, heq⟩ | ⟨hnone, heq⟩
        · have hmem := NameCatalog.mem_of_relId hid
          rw [heq, unbound, if_pos hmem, unbound, if_pos hmem, unbound, Nat.zero_add]
        · have hnew := NameCatalog.relId_eq_none.1 hnone
          rw [heq, unbound, if_neg hnew, unbound, if_neg hnew, unbound, Nat.zero_add, Nat.add_comm]
          refine congrArg _ (unbound_congr fun n => ?_)
          rw [List.map_append, List.mem_append, List.mem_cons, List.map_singleton, List.mem_singleton, or_comm]
      rw [List.cons_append, NameCatalog.Room, hsplit] at hroom
      have hone : a.catalog.Room base [name] := by
        rw [NameCatalog.Room]
        omega
      obtain ⟨hs, ho, ha, habove⟩ := h.assign hone honce hapart
      have hrest : (a.assign name).1.catalog.Room base (names ++ more) := by
        rw [NameCatalog.Room, habove]
        omega
      have hall := assignAll hs hrest ho ha
      exact hall

end CatalogAlloc

end Assign

/-! ## What a compilation binds -/

theorem NameCatalog.Used.mono {c c' : NameCatalog} {rels : ProgramIds} (h : c.Used rels) (hc : c.Extends c') :
    c'.Used rels := fun r hr => hc _ _ (h r hr)

/-- What a compilation comes to, by the names it assigns in turn. -/
structure Compiling.Follows (a : CatalogAlloc) (names : List String × Bool) (x : Compiling) : Prop where
  assigned : x.1 = a.assignAll names.1
  accepted : x.2.isOk = names.2
  used : ∀ rels, x.2 = .ok rels → x.1.catalog.Used rels

section Follow

variable {a : CatalogAlloc} {names more : List String × Bool} {x : Compiling} {rels : ProgramIds}

open Compiling

theorem follows_ok (h : a.catalog.Used rels) : Follows a ([], true) (a, .ok rels) :=
  ⟨rfl, rfl, fun _ heq => by cases heq; exact h⟩

theorem follows_error (e : String) : Follows a ([], false) (a, .error e) := ⟨rfl, rfl, nofun⟩

/-- A name is assigned, and the rest follows. -/
theorem follows_assign {name : String} {f : CatalogAlloc → UInt32 → Compiling}
    (hf : ∀ a' id, a.catalog.Extends a'.catalog → a'.catalog.relId name = some id → Follows a' names (f a' id)) :
    Follows a (name :: names.1, names.2)
      (match a.assign name with
        | (a, .ok id) => f a id
        | (a, .error e) => (a, .error e)) := by
  cases h : a.assign name with
  | mk a' out =>
    cases out with
    | error e => rcases a.assign_cases name with ⟨id, -, heq⟩ | ⟨-, heq⟩ <;> cases heq.symm.trans h
    | ok id =>
      obtain ⟨hext, hid⟩ := CatalogAlloc.assign_bound h
      obtain ⟨hassigned, haccepted, hused⟩ := hf a' id hext hid
      refine ⟨?_, haccepted, hused⟩
      rw [CatalogAlloc.assignAll, List.foldl_cons, h]
      exact hassigned

theorem Compiling.Follows.andThen {f : CatalogAlloc → ProgramIds → Compiling} (h : Follows a names x)
    (hok : names.2 = true) (hf : ∀ a' rels, a'.catalog.Used rels → Follows a' more (f a' rels)) :
    Follows a (names.1 ++ more.1, more.2) (x.andThen f) := by
  obtain ⟨a', out⟩ := x
  obtain ⟨hassigned, haccepted, hused⟩ := h
  cases out with
  | error e => rw [hok] at haccepted; cases haccepted
  | ok rels =>
    obtain ⟨hassigned', haccepted', hused'⟩ := hf a' rels (hused rels rfl)
    refine ⟨?_, haccepted', hused'⟩
    rw [CatalogAlloc.assignAll, List.foldl_append]
    exact hassigned'.trans (congrArg (CatalogAlloc.assignAll · more.1) hassigned)

theorem Compiling.Follows.stop {f : CatalogAlloc → ProgramIds → Compiling} (h : Follows a names x)
    (hok : names.2 = false) : Follows a (names.1, false) (x.andThen f) := by
  obtain ⟨a', out⟩ := x
  obtain ⟨hassigned, haccepted, -⟩ := h
  cases out with
  | error e => exact ⟨hassigned, rfl, nofun⟩
  | ok rels => rw [hok] at haccepted; cases haccepted

theorem Compiling.Follows.check (h : Follows a names x) (check : Except String Unit) :
    Follows a (names.1, names.2 && check.isOk) (x.check check) := by
  obtain ⟨a', out⟩ := x
  obtain ⟨hassigned, haccepted, hused⟩ := h
  cases out with
  | error e =>
    change false = names.2 at haccepted
    rw [← haccepted]
    exact ⟨hassigned, rfl, nofun⟩
  | ok rels =>
    change true = names.2 at haccepted
    rw [← haccepted]
    cases check with
    | error e => exact ⟨hassigned, rfl, nofun⟩
    | ok u => exact ⟨hassigned, rfl, fun _ heq => by cases heq; exact hused rels rfl⟩

theorem used_append {c : NameCatalog} {name : String} {id : UInt32} (h : c.Used rels) (hid : c.relId name = some id) :
    c.Used (rels ++ [(name, id)]) := by
  intro r hr
  rcases List.mem_append.1 hr with hr | hr
  · exact h r hr
  · rw [List.mem_singleton.1 hr]
    exact hid

theorem used_insertRel {c : NameCatalog} {name : String} {id : UInt32} (h : c.Used rels) (hid : c.relId name = some id) :
    c.Used (insertRel rels name id) :=
  used_append (fun r hr => h r (List.mem_of_mem_filter hr)) hid

theorem declareAll_follows : ∀ (ds : List Declared) {a : CatalogAlloc} {rels : ProgramIds}, a.catalog.Used rels →
    Follows a (declaredNames (rels.map (·.1)) ds) (declareAll a rels ds)
  | [], _, _, h => follows_ok h
  | .other (.error e) :: _, _, _, _ => follows_error e
  | .other (.ok ()) :: ds, _, _, h => declareAll_follows ds h
  | .relation name columns :: ds, a, rels, h => by
      unfold declareAll declaredNames
      by_cases hseen : name ∈ rels.map (·.1)
      · have hany : (rels.any fun r => r.1 = name) = true := by
          obtain ⟨r, hr, rfl⟩ := List.mem_map.1 hseen
          exact List.any_eq_true.2 ⟨r, hr, decide_eq_true rfl⟩
        rw [if_pos (.inl hseen), if_pos hany]
        exact follows_error _
      · have hany : ¬ (rels.any fun r => r.1 = name) = true := fun hany => by
          obtain ⟨r, hr, heq⟩ := List.any_eq_true.1 hany
          exact hseen (List.mem_map.2 ⟨r, hr, of_decide_eq_true heq⟩)
        rw [if_neg hany]
        cases columns with
        | error e =>
          rw [if_pos (.inr rfl)]
          exact follows_error e
        | ok u =>
          rw [if_neg (by simp [hseen, Except.isOk, Except.toBool])]
          refine follows_assign fun a' id hext hid => ?_
          have hrest := declareAll_follows ds (used_append (h.mono hext) hid)
          rwa [List.map_append] at hrest

theorem bindBacking_follows : ∀ (views : List (String × Except String Unit)) {a : CatalogAlloc} {rels : ProgramIds},
    a.catalog.Used rels → Follows a (backingNames views) (bindBacking a rels views)
  | [], _, _, h => follows_ok h
  | (_, .error e) :: _, _, _, _ => follows_error e
  | (_, .ok ()) :: views, _, _, h =>
    follows_assign fun _ _ hext hid => bindBacking_follows views (used_insertRel (h.mono hext) hid)

/-- **A world's compilation** assigns the names it gets to, in turn. -/
theorem compileWithCatalog_follows (src : WorldSource) (base : UInt32) (c : NameCatalog) :
    ∃ x, Follows (.new c base) src.worldNames x ∧ src.compileWithCatalog base c = (x.1.catalog, x.2) := by
  refine ⟨_, ?_, rfl⟩
  rw [WorldSource.worldNames]
  cases src.declarations with
  | error e => exact follows_error e
  | ok ds =>
    have hnone : (CatalogAlloc.new c base).catalog.Used [] := nofun
    have hdeclared := (declareAll_follows ds hnone).check src.views
    dsimp only
    split
    case isTrue hok =>
      split
      case isTrue hempty =>
        have hbind : ∀ (a' : CatalogAlloc) (rels : ProgramIds), a'.catalog.Used rels →
            Follows a' ([], true) (bindMaterializedViews a' rels src.materialized) := fun a' rels hused => by
          rw [bindMaterializedViews, if_pos hempty]
          exact follows_ok hused
        have hall := (hdeclared.andThen hok hbind).check src.words
        rwa [List.append_nil, Bool.true_and] at hall
      case isFalse hempty =>
        have hbind : ∀ (a' : CatalogAlloc) (rels : ProgramIds), a'.catalog.Used rels →
            Follows a' (viewCursorName :: (backingNames src.materialized).1, (backingNames src.materialized).2)
              (bindMaterializedViews a' rels src.materialized) := fun a' rels hused => by
          rw [bindMaterializedViews, if_neg hempty]
          exact follows_assign fun _ _ hext hid => bindBacking_follows _ (used_insertRel (hused.mono hext) hid)
        exact (hdeclared.andThen hok hbind).check src.words
    case isFalse hok =>
      have hstop := hdeclared.stop (f := fun a rels => bindMaterializedViews a rels src.materialized)
        (Bool.not_eq_true _ ▸ hok)
      exact hstop.check src.words

/-- The marker of an installation is assigned as any name is, by an allocation of its own. -/
theorem assignReserved_eq (c : NameCatalog) (base : UInt32) (name : String) :
    assignReserved c base name = (((CatalogAlloc.new c base).assign name).1.catalog, ((CatalogAlloc.new c base).assign name).2) := by
  rcases (CatalogAlloc.new c base).assign_cases name with ⟨id, hid, heq⟩ | ⟨hnone, heq⟩
  · rw [heq, assignReserved, show c.relId name = some id from hid]
    rfl
  · rw [heq, assignReserved, show c.relId name = none from hnone]
    simp only [NameCatalog.register, show c.relId name = none from hnone]
    rfl

end Follow

/-! ## Stable ids -/

namespace NameCatalog

/-- What a compilation leaves: nothing that was bound is lost, and what its program uses is
what is bound. -/
structure Leaves (c : NameCatalog) (out : NameCatalog × Except String ProgramIds) : Prop where
  apart : out.1.Apart
  kept : c.Extends out.1
  used : ∀ rels, out.2 = .ok rels → out.1.Used rels

theorem leaves_self {c : NameCatalog} (h : c.Apart) (e : String) : c.Leaves (c, .error e) := ⟨h, .refl c, nofun⟩

end NameCatalog

section Compile

variable {src : WorldSource} {base : UInt32} {c : NameCatalog}

open NameCatalog

theorem compileWithCatalog_leaves {more : List String} (hroom : c.Room base (src.worldNames.1 ++ more)) (h : c.Apart) :
    c.Leaves (src.compileWithCatalog base c) ∧ (src.compileWithCatalog base c).1.Room base more ∧
      (src.compileWithCatalog base c).2.isOk = src.worldNames.2 := by
  obtain ⟨x, hx, heq⟩ := compileWithCatalog_follows src base c
  obtain ⟨honce, hapart, hmore⟩ := CatalogAlloc.Synced.assignAll (CatalogAlloc.synced_new c base) hroom h.1 h.2
  rw [← hx.assigned] at honce hapart hmore
  rw [heq]
  refine ⟨⟨⟨honce, hapart⟩, ?_, hx.used⟩, hmore, hx.accepted⟩
  have hext := CatalogAlloc.assignAll_extends src.worldNames.1 (.new c base)
  rwa [← hx.assigned] at hext

theorem assignReserved_leaves {name : String} (hroom : c.Room base [name]) (h : c.Apart) :
    (assignReserved c base name).1.Apart ∧ c.Extends (assignReserved c base name).1 ∧
      ∀ id, (assignReserved c base name).2 = .ok id → (assignReserved c base name).1.relId name = some id := by
  rw [assignReserved_eq]
  obtain ⟨-, honce, hapart, -⟩ := (CatalogAlloc.synced_new c base).assign hroom h.1 h.2
  refine ⟨⟨honce, hapart⟩, CatalogAlloc.assign_extends (.new c base) name, fun id hid => ?_⟩
  exact (CatalogAlloc.assign_bound (Prod.ext rfl hid)).2

/-- **A package's compilation**, wherever it ends. -/
theorem compilePackage_leaves (hroom : c.Room base src.packageNames) (h : c.Apart) :
    c.Leaves (src.compilePackage base c) := by
  unfold WorldSource.compilePackage
  unfold WorldSource.packageNames at hroom
  cases hheader : src.header with
  | error e => exact leaves_self h e
  | ok _ =>
    rw [hheader] at hroom
    change c.Room base (if _ then src.worldNames.1 ++ [installMarkerRelation] else src.worldNames.1) at hroom
    have hnames : c.Room base (src.worldNames.1 ++
        if src.worldNames.2 && src.namespaces.isOk then [installMarkerRelation] else []) := by
      split at hroom
      case isTrue hmarker => rwa [if_pos hmarker]
      case isFalse hmarker => rwa [if_neg hmarker, List.append_nil]
    obtain ⟨hleaves, hmore, hok⟩ := compileWithCatalog_leaves hnames h
    generalize src.compileWithCatalog base c = out at hleaves hmore hok ⊢
    obtain ⟨c₁, result⟩ := out
    cases result with
    | error e => exact ⟨hleaves.apart, hleaves.kept, nofun⟩
    | ok rels =>
      cases hnamespaces : src.namespaces with
      | error e => exact ⟨hleaves.apart, hleaves.kept, nofun⟩
      | ok _ =>
        rw [← hok, hnamespaces] at hmore
        obtain ⟨hapart, hkept, hid⟩ := assignReserved_leaves hmore hleaves.apart
        have hused := hleaves.used rels rfl
        dsimp only
        generalize assignReserved c₁ base installMarkerRelation = out at hapart hkept hid ⊢
        obtain ⟨c₂, result⟩ := out
        have hextends := hleaves.kept.trans hkept
        cases result with
        | error e => exact ⟨hapart, hextends, nofun⟩
        | ok id =>
          dsimp only
          split
          case isTrue => exact ⟨hapart, hextends, nofun⟩
          case isFalse =>
              refine ⟨hapart, hextends, fun rels' heq => ?_⟩
              cases hcontents : src.contents with
              | error e => rw [hcontents] at heq; cases heq
              | ok _ =>
                rw [hcontents] at heq
                cases heq
                exact used_append (hused.mono hkept) (hid id rfl)

end Compile

theorem Catalogued.Stable.step {w w' : Catalogued} {act : Catalogued.Act} (h : w.Stable) (hroom : w.HasRoom act)
    (hstep : w.step act = some w') : w'.Stable ∧ w.catalog.Extends w'.catalog := by
  have hafter : ∀ out, w.catalog.Leaves out → (w.after out).Stable ∧ w.catalog.Extends (w.after out).catalog := by
    rintro ⟨c, result⟩ hleaves
    refine ⟨⟨hleaves.apart, fun rels hrels => ?_⟩, hleaves.kept⟩
    rcases List.mem_append.1 hrels with hrels | hrels
    · exact (h.used rels hrels).mono hleaves.kept
    · cases result with
      | error e => cases hrels
      | ok r =>
        cases List.mem_singleton.1 hrels
        exact hleaves.used rels rfl
  cases act with
  | world src base =>
    cases hstep
    have hnames : w.catalog.Room base (src.worldNames.1 ++ []) := by
      rw [List.append_nil]
      exact hroom
    exact hafter _ (compileWithCatalog_leaves hnames h.apart).1
  | package src base =>
    cases hstep
    exact hafter _ (compilePackage_leaves hroom h.apart)

/-- **Ids are stable**: after any compilations of worlds and packages that do not run out of
ids, whether they succeeded or not, a name has the id it was first given, no two names share
one, and every program uses the ids of its names. -/
theorem catalog_stable {w₀ w w' : Catalogued} (hstart : w₀.Stable) (h : Run Catalogued.step Catalogued.HasRoom w₀ w)
    (h' : Run Catalogued.step Catalogued.HasRoom w w') : w'.Stable ∧ w.catalog.Extends w'.catalog := by
  have hw : w.Stable := h.invariant hstart fun _ _ _ hs hroom hstep => (hs.step hroom hstep).1
  refine ⟨h'.invariant hw fun _ _ _ hs hroom hstep => (hs.step hroom hstep).1, ?_⟩
  exact h'.monotone (R := fun w w' => w.catalog.Extends w'.catalog) hw
    (fun _ _ _ hs hroom hstep => (hs.step hroom hstep).1) (fun _ => .refl _) (fun _ _ _ => .trans)
    fun _ _ _ hs hroom hstep => (hs.step hroom hstep).2

section Sample

/-- A world that declares relations, and materializes views. -/
def sourceOf (names views : List String) : WorldSource where
  declarations := .ok (names.map fun name => .relation name (.ok ()))
  views := .ok ()
  materialized := views.map fun view => (view, .ok ())
  words := .ok ()
  header := .ok ()
  namespaces := .ok ()
  contents := .ok ()

def refused (src : WorldSource) : WorldSource := { src with views := .error "unknown column `owner`" }

/-- A world, an edit that is refused, and the world as a package. -/
def editions : List Catalogued.Act :=
  [.world (sourceOf ["item", "room"] []) 1, .world (refused (sourceOf ["door", "item"] [])) 1,
    .package (sourceOf ["room", "item", "door", "lamp"] ["exits"]) 1]

theorem catalog_stable_editions : ∃ w', Run Catalogued.step Catalogued.HasRoom ⟨[], []⟩ w' ∧ w'.Stable ∧
    w'.programs = [[("item", 1), ("room", 2)],
      [("room", 2), ("item", 1), ("door", 3), ("lamp", 4), ("view:cursor", 5), ("view:exits", 6),
        (installMarkerRelation, 7)]] := by
  have hrun : (executeChecked Catalogued.step (fun w act => decide (w.HasRoom act)) ⟨[], []⟩ editions).map (·.programs)
      = some [[("item", 1), ("room", 2)],
        [("room", 2), ("item", 1), ("door", 3), ("lamp", 4), ("view:cursor", 5), ("view:exits", 6),
          (installMarkerRelation, 7)]] := by
    decide +kernel
  obtain ⟨w', hw, hprograms⟩ := Option.map_eq_some_iff.1 hrun
  have hreach := Run.ofChecked editions (fun _ _ _ h => of_decide_eq_true h) _ hw
  have hempty : Catalogued.Stable ⟨[], []⟩ := ⟨⟨List.nodup_nil, List.nodup_nil⟩, nofun⟩
  exact ⟨w', hreach, (catalog_stable hempty .start hreach).1, hprograms⟩

/-- **The last id is given twice**: after it the count starts over, or stops. -/
theorem last_id_twice : ¬ ∀ w', Run Catalogued.step Any ⟨[], []⟩ w' → w'.Stable := by
  intro hall
  have hrun : (execute Catalogued.step ⟨[], []⟩ [.world (sourceOf ["item"] []) 4294967295, .world (sourceOf ["room"] []) 4294967295]).map
      (·.catalog) = some [("item", 4294967295), ("room", 4294967295)] := by
    decide +kernel
  obtain ⟨w', hw, hcatalog⟩ := Option.map_eq_some_iff.1 hrun
  have hapart := (hall w' (.ofExecute _ _ hw)).apart.2
  rw [hcatalog] at hapart
  exact absurd hapart (by decide)

end Sample

end Grmpl

import Grmpl.Ent.Context
import Grmpl.Lib.Runs
import Mathlib.Data.List.Pairwise

/-!
# The contexts of branches

Branches name relations and evolve schemas each on its own; a fork starts from its parent's
context, and a merge takes the two contexts together, key by key.

* `Context.register`, `Context.names`, `Context.versions`: the catalog, and what a context
  holds of it and of the schemas.
* `Contexts`, `Contexts.step`: the contexts of a world's branches.
* `Context.Lawful`: each relation's versions are a chain, and no id has two names.
* `Context.Agrees`: what the two sides of a merge have to see to themselves.
* `Contexts.KeepsLaws`: what a run has to keep to.
-/

open OrdMap Runs

namespace Grmpl

namespace Context

def asRel : Value → Option UInt32
  | .int i => some i.toUInt64.toUInt32
  | _ => none

/-- The span of the catalog. -/
def catalogSpan : Tuple × Tuple := (⟨[rootScope, .int nsCatalog]⟩, ⟨[rootScope, .int (nsCatalog + 1)]⟩)

def relId (ctx : Context) (name : String) : Option UInt32 := (lookup (catalogKey name) ctx).bind asRel

/-- A name is bound once. -/
def register (ctx : Context) (name : String) (id : UInt32) : Result Context :=
  match ctx.relId name with
  | some existing =>
      if existing ≠ id then .error (.store ("catalog conflict: `" ++ name ++ "` already bound to " ++
        toString existing ++ " (cannot rebind to " ++ toString id ++ ")"))
      else .ok ctx
  | none => .ok (put (catalogKey name) (.int (Int64.ofNat id.toNat)) ctx)

/-- What a binding of the catalog says. -/
def nameOf (e : Tuple × Value) : Option (String × UInt32) :=
  match (e.1.cells[2]? : Option Value), asRel e.2 with
  | some (.text name), some id => some (name, id)
  | _, _ => none

/-- The names of relations, with their ids. -/
def names (ctx : Context) : List (String × UInt32) :=
  (between catalogSpan.1 catalogSpan.2 ctx).filterMap nameOf

/-- What a binding of a schema says. -/
def versionOf (e : Tuple × Value) : Option (Nat × Schema) :=
  match (e.1.cells[3]? : Option Value), decodeSchemaValue e.2 with
  | some (.int edition), .ok s => some (edition.toUInt64.toNat, s)
  | _, _ => none

/-- The versions of a relation, in the order of their editions. -/
def versions (ctx : Context) (rel : RelId) : List (Nat × Schema) :=
  (between (schemaAllSpan rel).1 (schemaAllSpan rel).2 ctx).filterMap versionOf

end Context

/-- The contexts of a world's branches, as last staged, and of the stores open on them. -/
structure Contexts where
  branches : List Context
  stores : List (Nat × Context)

namespace Contexts

/-- What is done through a store. Whether a fork or a merge lands is not only up to the
contexts: a fork may be refused, and a patch not apply. -/
inductive Act where
  | register (k : Nat) (name : String) (id : UInt32)
  | putSchema (k : Nat) (rel : UInt32) (schema : Schema) (at' : UInt64)
  | fork (k : Nat) (lands : Bool)
  | merge (k other : Nat) (lands : Bool)
  | branch (b : Nat)

/-- A store's context set and staged, if it is another one. -/
def stage (w : Contexts) (k b : Nat) (old ctx : Context) : Contexts :=
  if ctx = old then w else ⟨w.branches.set b ctx, w.stores.set k (b, ctx)⟩

/-- A new branch, with a store open on it. -/
def spawn (w : Contexts) (ctx : Context) : Contexts :=
  ⟨w.branches ++ [ctx], w.stores ++ [(w.branches.length, ctx)]⟩

/-- What the code does; what is refused changes nothing. -/
def step (w : Contexts) : Act → Option Contexts
  | .register k name id => match w.stores[k]? with
      | some (b, ctx) => match ctx.register name id with
        | .ok ctx' => some (w.stage k b ctx ctx')
        | .error _ => some w
      | none => none
  | .putSchema k rel schema at' => match w.stores[k]? with
      | some (b, ctx) => match ctx.putSchema rel.toNat schema at'.toNat with
        | .ok ctx' => some (w.stage k b ctx ctx')
        | .error _ => some w
      | none => none
  | .fork k lands => match w.stores[k]? with
      | some (_, ctx) => some (if lands then w.spawn ctx else w)
      | none => none
  | .merge k other lands => match w.stores[k]?, w.stores[other]? with
      | some (_, ctx), some (_, theirs) => match ctx.unite theirs with
        | some ctx' => some (if lands then w.spawn ctx' else w)
        | none => some w
      | _, _ => none
  | .branch b => match w.branches[b]? with
      | some ctx => some { w with stores := w.stores ++ [(b, ctx)] }
      | none => none

/-- A world just made. -/
def new : Contexts := ⟨[[]], [(0, [])]⟩

end Contexts

/-! ## The laws -/

namespace Context

/-- **The laws of a context**: a relation's versions in the order of their editions are each
additive over those before, the one in effect at an edition is the last up to it, and no id
has two names. -/
structure Lawful (ctx : Context) : Prop where
  chain : ∀ rel : UInt32, (ctx.versions rel.toNat).Pairwise fun v v' => v.1 < v'.1 ∧ v'.2.isAdditiveOver v.2 = true
  inEffect : ∀ (rel : UInt32) (at' : Nat), ctx.schemaAt rel.toNat at'
    = .ok (((ctx.versions rel.toNat).filter fun v => v.1 ≤ at').getLast?.map (·.2))
  ids : (ctx.names.map (·.2)).Nodup

/-- A version of one side at a later edition than one of the other side's is additive over it,
and an id both sides have bound has one name. -/
structure Agrees (ctx theirs : Context) : Prop where
  versions : ∀ rel : UInt32, ∀ v ∈ ctx.versions rel.toNat, ∀ v' ∈ theirs.versions rel.toNat,
    (v.1 < v'.1 → v'.2.isAdditiveOver v.2 = true) ∧ (v'.1 < v.1 → v.2.isAdditiveOver v'.2 = true)
  names : ∀ x ∈ ctx.names, ∀ y ∈ theirs.names, x.2 = y.2 → x.1 = y.1

end Context

namespace Contexts

/-- A name that is bound is bound to an id that the branch has not bound. -/
def FreshIds (w : Contexts) : Act → Prop
  | .register k name id => ∀ x ∈ w.stores[k]?, x.2.relId name = none → ∀ y ∈ x.2.names, y.2 ≠ id
  | _ => True

/-- And a schema takes effect before the last edition a key has room for, its counts fit, and
the two sides of a merge agree, unless one key is bound differently by them. -/
def KeepsLaws (w : Contexts) (act : Act) : Prop :=
  w.FreshIds act ∧ match act with
    | .putSchema _ _ schema at' => at'.toNat < 2 ^ 63 - 1 ∧ Wire.schemaFits schema = true
    | .merge k other _ => ∀ x ∈ w.stores[k]?, ∀ y ∈ w.stores[other]?, (x.2.unite y.2).isSome → x.2.Agrees y.2
    | _ => True

end Contexts

end Grmpl

import Grmpl.Core.SchemaWire
import Grmpl.Lib.OrdMap

/-!
# The context enfilade

A branch's catalog and schemas are bindings of one sorted map, keyed under the root
scope: a name under the catalog's number, a relation and an edition under the schema
registry's. The schema in effect at an edition is the last binding of a span.

* `Context`, `schemaKey`, `schemaSpan`, `schemaAllSpan`: the bindings and their keys.
* `Context.latestSchema`, `Context.putSchema`, `Context.schemaAt`: the registry.
* `Context.unite`: the contexts of two branches put together.
-/

open OrdMap

namespace Grmpl

/-- Scoped bindings, in key order. -/
abbrev Context := List (Tuple × Value)

namespace Context

def nsCatalog : Int64 := 1

def nsSchema : Int64 := 2

/-- The root scope, where every binding lies. -/
def rootScope : Value := .tuple []

def catalogKey (name : String) : Tuple := ⟨[rootScope, .int nsCatalog, .text name]⟩

/-- An edition as a key column, saturating. -/
def editionValue (edition : Nat) : Value := .int (Int64.ofNat (min edition (2 ^ 63 - 1)))

def schemaKey (rel : RelId) (edition : Nat) : Tuple :=
  ⟨[rootScope, .int nsSchema, .int (Int64.ofNat rel), editionValue edition]⟩

/-- The span of a relation's versions from one edition to another. -/
def schemaSpan (rel : RelId) (start stop : Nat) : Tuple × Tuple :=
  (schemaKey rel start, schemaKey rel stop)

/-- The span of every version of a relation. -/
def schemaAllSpan (rel : RelId) : Tuple × Tuple :=
  (schemaKey rel 0, ⟨[rootScope, .int nsSchema, .int (Int64.ofNat rel + 1)]⟩)

def decodeSchemaValue : Value → Result Schema
  | .bytes b => Wire.decodeSchema b
  | _ => .error (.codec "context: schema binding is not bytes")

/-- The last binding of a span. -/
def lastIn (ctx : Context) (span : Tuple × Tuple) : Option (Tuple × Value) :=
  (between span.1 span.2 ctx).getLast?

/-- A relation's highest version, and the edition it took effect at. -/
def latestSchema (ctx : Context) (rel : RelId) : Result (Option (Nat × Schema)) :=
  match lastIn ctx (schemaAllSpan rel) with
  | none => .ok none
  | some (k, v) => match (k.cells[3]? : Option Value) with
      | some (.int e) => do
          let s ← decodeSchemaValue v
          pure (some (e.toUInt64.toNat, s))
      | _ => .error (.codec "context: schema key has no edition")

/-- A version put: the current one again, or one that appends columns at a later
edition. -/
def putSchema (ctx : Context) (rel : RelId) (schema : Schema) (at' : Nat) : Result Context := do
  let ctx' := put (schemaKey rel at') (.bytes (Wire.encodeSchema schema)) ctx
  match ← latestSchema ctx rel with
  | none => .ok ctx'
  | some (edition, current) =>
      if current = schema then .ok ctx
      else if !schema.isAdditiveOver current then
        .error (.schema ("non-additive schema change for relation " ++ toString rel ++
          ": a new version may only append columns to the current one"))
      else if at' ≤ edition then
        .error (.schema ("schema evolution for relation " ++ toString rel ++
          " must take effect after edition " ++ toString edition ++ " (got " ++ toString at' ++ ")"))
      else .ok ctx'

/-- The version in effect as of an edition. -/
def schemaAt (ctx : Context) (rel : RelId) (at' : Nat) : Result (Option Schema) :=
  match lastIn ctx (schemaSpan rel 0 (at' + 1)) with
  | none => .ok none
  | some e => some <$> decodeSchemaValue e.2

/-- Another branch's bindings taken in; none if a key is bound differently. -/
def unite (ctx theirs : Context) : Option Context :=
  theirs.foldlM (fun ctx e => match lookup e.1 ctx with
    | some v => if v = e.2 then some ctx else none
    | none => some (put e.1 e.2 ctx)) ctx

end Context

end Grmpl

import Grmpl.Core.Schema
import Grmpl.Proc.Commit

/-!
# The schema registry

Each relation's schema versions, newest first, each with the edition it took effect at.
A version may only append columns to the one before, at a later edition.

* `SchemaRegistry`, `SchemaRegistry.putSchema`, `SchemaRegistry.schema`,
  `SchemaRegistry.schemaAt`: the code.
* `SchemaRegistry.catalog`: the registry as the commit boundary consults it.
* `SchemaRegistry.Grows`: what no evolution takes back.
-/

namespace Grmpl

/-- A violation as it is reported, but for the value a column got. -/
def Violation.message : Violation → String
  | .arity columns cells => "arity mismatch: schema has " ++ toString columns ++
      " column(s), tuple has " ++ toString cells
  | .column i c _ => "column " ++ toString i ++ " `" ++ c.name ++ "` expects " ++ c.ty.name

/-- Each relation's schema versions with their editions, newest first. -/
structure SchemaRegistry where
  versions : RelId → List (Nat × Schema)

namespace SchemaRegistry

def empty : SchemaRegistry := ⟨fun _ => []⟩

variable (r : SchemaRegistry)

/-- The latest schema of a relation. -/
def schema (rel : RelId) : Option Schema := (r.versions rel).head?.map (·.2)

/-- The schema in effect as of an edition. -/
def schemaAt (rel : RelId) (at' : Nat) : Option Schema :=
  ((r.versions rel).find? fun v => v.1 ≤ at').map (·.2)

def add (rel : RelId) (s : Schema) (at' : Nat) : SchemaRegistry :=
  ⟨Function.update r.versions rel ((at', s) :: r.versions rel)⟩

/-- A first version, the current one again, or one that appends columns at a later
edition. -/
def putSchema (rel : RelId) (s : Schema) (at' : Nat) : Result SchemaRegistry :=
  match r.versions rel with
  | [] => .ok (r.add rel s at')
  | (edition, current) :: _ =>
      if current = s then .ok r
      else if !s.isAdditiveOver current then
        .error (.schema ("non-additive schema change for relation " ++ toString rel ++
          ": a new version may only append columns to the current one"))
      else if at' ≤ edition then
        .error (.schema ("schema evolution for relation " ++ toString rel ++
          " must take effect after edition " ++ toString edition ++ " (got " ++ toString at' ++ ")"))
      else .ok (r.add rel s at')

/-- The latest schema of a relation, as the check it makes of a row. -/
def catalog : SchemaCatalog := fun rel =>
  .ok ((r.schema rel).map fun s t => match s.check t with
    | .ok () => .ok ()
    | .error v => .error v.message)

/-- Every relation's latest schema is another's with columns appended. -/
def Grows (r r' : SchemaRegistry) : Prop :=
  ∀ rel s, r.schema rel = some s → ∃ s', r'.schema rel = some s' ∧ s'.isAdditiveOver s = true

section Laws

variable {r r' : SchemaRegistry} {rel : RelId} {s : Schema} {at' : Nat}

theorem schema_add (r : SchemaRegistry) (rel rel' : RelId) (s : Schema) (at' : Nat) :
    (r.add rel s at').schema rel' = if rel' = rel then some s else r.schema rel' := by
  unfold schema add
  split_ifs with h
  · subst h
    simp
  · simp [Function.update_of_ne h]

/-- What an accepted evolution does: nothing, or one version more, of a relation that
had none or a shorter one. -/
theorem putSchema_ok (h : r.putSchema rel s at' = .ok r') :
    (r' = r ∧ r.schema rel = some s) ∨ (r' = r.add rel s at' ∧
      ∀ current, r.schema rel = some current → s.isAdditiveOver current = true) := by
  unfold putSchema at h
  split at h
  · rename_i hnil
    refine .inr ⟨(Except.ok.inj h).symm, fun current hcur => ?_⟩
    rw [schema, hnil] at hcur
    cases hcur
  · rename_i edition current _ hcons
    split_ifs at h with hsame hadd hlate
    · refine .inl ⟨(Except.ok.inj h).symm, ?_⟩
      rw [schema, hcons, ← hsame]
      rfl
    · refine .inr ⟨(Except.ok.inj h).symm, fun current' hcur => ?_⟩
      rw [schema, hcons] at hcur
      cases hcur
      simpa using hadd

/-- The schema in force is put again to no effect. -/
theorem putSchema_same (h : r.schema rel = some s) : r.putSchema rel s at' = .ok r := by
  rw [schema] at h
  unfold putSchema
  cases hv : r.versions rel with
  | nil =>
    rw [hv] at h
    cases h
  | cons v vs =>
    rw [hv] at h
    obtain rfl := Option.some.inj h
    exact if_pos rfl

/-- The schema just put is the latest. -/
theorem schema_putSchema (h : r.putSchema rel s at' = .ok r') : r'.schema rel = some s := by
  rcases putSchema_ok h with ⟨rfl, hs⟩ | ⟨rfl, -⟩
  · exact hs
  · rw [schema_add, if_pos rfl]

/-- The others' are as they were. -/
theorem schema_putSchema_other (h : r.putSchema rel s at' = .ok r') {rel' : RelId} (hne : rel' ≠ rel) :
    r'.schema rel' = r.schema rel' := by
  rcases putSchema_ok h with ⟨rfl, -⟩ | ⟨rfl, -⟩
  · rfl
  · rw [schema_add, if_neg hne]

theorem Grows.refl (r : SchemaRegistry) : Grows r r :=
  fun _ s hs => ⟨s, hs, s.isAdditiveOver_refl⟩

theorem Grows.trans {r₁ r₂ r₃ : SchemaRegistry} (h₁ : Grows r₁ r₂) (h₂ : Grows r₂ r₃) :
    Grows r₁ r₃ := by
  intro rel s hs
  obtain ⟨s', hs', hadd⟩ := h₁ rel s hs
  obtain ⟨s'', hs'', hadd'⟩ := h₂ rel s' hs'
  exact ⟨s'', hs'', Schema.isAdditiveOver_trans hadd hadd'⟩

/-- **Evolution is additive.** -/
theorem grows_putSchema (h : r.putSchema rel s at' = .ok r') : Grows r r' := by
  rcases putSchema_ok h with ⟨rfl, -⟩ | ⟨rfl, hadd⟩
  · exact .refl _
  · intro rel' s' hs'
    rw [schema_add]
    split_ifs with hrel
    · subst hrel
      exact ⟨s, rfl, hadd s' hs'⟩
    · exact ⟨s', hs', s'.isAdditiveOver_refl⟩

/-- Rows that passed the schema check conform to the schemas they passed. -/
theorem checkSchema_conforms : ∀ {facts : List Fact}, checkSchema r.catalog facts = .ok () →
    ∀ f ∈ facts, ∀ s, r.schema f.rel = some s → s.Conforms f.tuple := by
  intro facts
  induction facts with
  | nil => exact fun _ f hf => absurd hf (by simp)
  | cons g gs ih =>
    intro h f hf s hs
    rw [checkSchema] at h
    obtain ⟨o, ho, h⟩ := bind_ok h
    cases ho
    rcases List.mem_cons.1 hf with rfl | hf
    · rw [hs] at h
      simp only [Option.map_some] at h
      cases hcheck : s.check f.tuple with
      | ok u => exact Schema.check_eq_ok.1 hcheck
      | error v =>
        rw [hcheck] at h
        cases h
    · cases hg : r.schema g.rel with
      | none =>
        rw [hg] at h
        exact ih h f hf s hs
      | some s' =>
        rw [hg] at h
        simp only [Option.map_some] at h
        cases hcheck : s'.check g.tuple with
        | ok u =>
          rw [hcheck] at h
          exact ih h f hf s hs
        | error v =>
          rw [hcheck] at h
          cases h

end Laws

end SchemaRegistry

end Grmpl

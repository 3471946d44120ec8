import Grmpl.Lang.BehaviorWire
import Grmpl.Proc.Commit
import Mathlib.Data.List.Sort
import Mathlib.Data.String.Basic

/-!
# What a behavior may do

The effects of a behavior are the relations its operations assert into or retract from,
the inboxes they emit to, and the capabilities they invoke, whichever branch is taken.
The commit boundary decodes every code cell of an asserted row and holds its effects
against the authority that commits it and the host's grants.

* `EffectRow`, `addIrEffects`: the effects of a list of operations.
* `checkAuthority`, `validateGrantedInvocations`, `EffectChecker.checkFact`: the checks.
* `Lawful`: what a behavior may do under an authority and grants.
* `checkFact_lawful`: what passes the checks is lawful.
-/

namespace Grmpl

inductive CapabilityKind where
  | allocate
  | random
  | schedule
  deriving DecidableEq

/-- What a program's names stand for: its relations, and its capabilities with the
relation each keeps its state in. -/
structure ProgramNames where
  relId : String → Option RelId
  capability : String → Option (CapabilityKind × RelId)

/-- A grant whose relations are the store's. -/
inductive ResolvedCapabilityGrant where
  | allocate (counter : RelId) (first last : Int64)
  | random (state : RelId) (owner : Entity) (algorithm : String)
  | schedule (clock timers sequences : RelId) (targets : String → Option (Entity × RelId))

/-- The capabilities the host has granted. -/
structure ResolvedGrantSet where
  get : String → Option ResolvedCapabilityGrant

/-- The arguments are those the grant allows: a schedule's first is a literal target it
names. -/
def ResolvedGrantSet.validateInvocation (grants : ResolvedGrantSet) (capability : String)
    (arguments : List ExprIr) : Except String Unit :=
  match grants.get capability with
  | none => .error ("capability `" ++ capability ++ "` has no resolved grant")
  | some (.schedule _ _ _ targets) =>
      match arguments with
      | .value (.literal (.text target)) :: _ =>
          if (targets target).isSome then .ok ()
          else .error ("schedule capability `" ++ capability ++ "` disallows target actor `" ++
            target ++ "`")
      | _ => .error ("schedule capability `" ++ capability ++ "` needs a literal target actor")
  | some _ => .ok ()

inductive EffectError where
  | undeclaredRelation (name : String)
  | undeclaredCapability (name : String)
  | ungrantedCapability (name : String)
  | unauthorized (rel : RelId)
  deriving DecidableEq

def EffectError.message : EffectError → String
  | .undeclaredRelation rel => "handler writes undeclared relation `" ++ rel ++ "`"
  | .undeclaredCapability name => "behavior invokes undeclared capability `" ++ name ++ "`"
  | .ungrantedCapability name => "behavior invokes ungranted capability `" ++ name ++ "`"
  | .unauthorized rel => "handler writes relation " ++ toString rel ++ " outside its authority domain"

/-- One more member of an ordered set. -/
def insertOrdered {α : Type} [LinearOrder α] (x : α) (xs : List α) : List α :=
  if x ∈ xs then xs else xs.orderedInsert (· ≤ ·) x

theorem mem_insertOrdered {α : Type} [LinearOrder α] {x y : α} {xs : List α} :
    y ∈ insertOrdered x xs ↔ y = x ∨ y ∈ xs := by
  unfold insertOrdered
  split_ifs with h
  · exact ⟨.inr, fun hy => hy.elim (fun hy => hy ▸ h) id⟩
  · exact List.mem_orderedInsert _

/-- The relations written, the inboxes sent to, and the capabilities invoked, each in
order. -/
structure EffectRow where
  writes : List RelId
  sends : List RelId
  capabilities : List String

def EffectRow.none : EffectRow := ⟨[], [], []⟩

namespace EffectRow

def write (row : EffectRow) (rel : RelId) : EffectRow := { row with writes := insertOrdered rel row.writes }

def send (row : EffectRow) (rel : RelId) : EffectRow := { row with sends := insertOrdered rel row.sends }

def invoke (row : EffectRow) (name : String) : EffectRow :=
  { row with capabilities := insertOrdered name row.capabilities }

end EffectRow

/-- A computation that went through went through its first step. -/
theorem except_bind_ok {ε α β : Type} {x : Except ε α} {f : α → Except ε β} {b : β}
    (h : x >>= f = .ok b) : ∃ a, x = .ok a ∧ f a = .ok b := by
  cases x with
  | error e => cases h
  | ok a => exact ⟨a, rfl, h⟩

section Effects

variable (prog : ProgramNames)

def effectRelId (rel : String) : Except EffectError RelId :=
  match prog.relId rel with
  | some id => .ok id
  | none => .error (.undeclaredRelation rel)

mutual

/-- The effects of an operation, added to a row. -/
def addOpEffects : BehaviorOp → EffectRow → Except EffectError EffectRow
  | .assert relation _, row | .retract relation _, row => do
      return row.write (← effectRelId prog relation)
  | .emit relation _, row => do
      return row.send (← effectRelId prog relation)
  | .ifOp _ thenOps elseOps, row => do
      addIrEffects elseOps (← addIrEffects thenOps row)
  | .invokeCapability capability _ _, row =>
      match prog.capability capability with
      | some (_, stateRelation) => .ok ((row.invoke capability).write stateRelation)
      | none => .error (.undeclaredCapability capability)
  | _, row => .ok row

/-- The effects of operations in order, added to a row. -/
def addIrEffects : List BehaviorOp → EffectRow → Except EffectError EffectRow
  | [], row => .ok row
  | op :: ops, row => do
      addIrEffects ops (← addOpEffects op row)

end

/-- An authority owns some slice of a relation. -/
def ownsRelation (authority : Authority) (rel : RelId) : Bool :=
  authority.owns.any fun s => s.rel = rel

def checkAuthority (effects : EffectRow) (authority : Authority) : Except EffectError Unit :=
  match effects.writes.find? fun rel => !ownsRelation authority rel with
  | some rel => .error (.unauthorized rel)
  | none => .ok ()

def inferStoredBehaviorEffects (b : StoredBehavior) : Except EffectError EffectRow :=
  addIrEffects prog b.body .none

def checkStoredBehaviorAuthority (b : StoredBehavior) (authority : Authority) :
    Except EffectError EffectRow := do
  let effects ← inferStoredBehaviorEffects prog b
  checkAuthority effects authority
  return effects

end Effects

mutual

def validateOp (grants : ResolvedGrantSet) : BehaviorOp → Except String Unit
  | .invokeCapability capability arguments _ => grants.validateInvocation capability arguments
  | .ifOp _ thenOps elseOps => do
      validateGrantedInvocations grants thenOps
      validateGrantedInvocations grants elseOps
  | _ => .ok ()

/-- Every invocation is one the grants allow. -/
def validateGrantedInvocations (grants : ResolvedGrantSet) : List BehaviorOp → Except String Unit
  | [] => .ok ()
  | op :: ops => do
      validateOp grants op
      validateGrantedInvocations grants ops

end

/-- The checker of the code a row carries: the program its names are resolved in, and
the host's grants if it has any. -/
structure EffectChecker where
  prog : ProgramNames
  grants : Option ResolvedGrantSet

namespace EffectChecker

variable (c : EffectChecker)

def withGrants (prog : ProgramNames) (grants : ResolvedGrantSet) : EffectChecker := ⟨prog, some grants⟩

/-- A refusal, naming the relation of the row that carries the code. -/
def refuse {α : Type} (rel : RelId) (message : String) : Result α :=
  .error (.authority ("stored behavior in relation " ++ toString rel ++ ": " ++ message))

/-- The behavior a code cell holds is within the authority and the grants. -/
def checkCell (rel : RelId) (authority : Authority) : Value → Result Unit
  | .code bytes =>
      match Wire.decodeBehavior bytes with
      | .error e => .error (.codec ("stored behavior decode: " ++ e.message))
      | .ok behavior =>
          match checkStoredBehaviorAuthority c.prog behavior authority with
          | .error e => refuse rel e.message
          | .ok effects =>
              match c.grants with
              | none => .ok ()
              | some grants =>
                  match effects.capabilities.find? fun name => (grants.get name).isNone with
                  | some name => refuse rel (EffectError.ungrantedCapability name).message
                  | none =>
                      match validateGrantedInvocations grants behavior.body with
                      | .error message => refuse rel message
                      | .ok () => .ok ()
  | _ => .ok ()

def checkCells (rel : RelId) (authority : Authority) : List Value → Result Unit
  | [] => .ok ()
  | v :: vs => do
      c.checkCell rel authority v
      checkCells rel authority vs

/-- Every code cell of a row. -/
def checkFact : BehaviorChecker := fun fact authority =>
  c.checkCells fact.rel authority fact.tuple.cells

end EffectChecker

/-! ## What passes the checks -/

/-- A behavior writes only relations the authority owns, and invokes only capabilities
that were granted, as they were granted, whichever of its branches are taken. -/
structure Lawful (prog : ProgramNames) (grants : ResolvedGrantSet) (authority : Authority)
    (b : StoredBehavior) : Prop where
  asserts : ∀ relation arguments, Occurs (.assert relation arguments) b.body →
    ∃ rel, prog.relId relation = some rel ∧ ownsRelation authority rel = true
  retracts : ∀ relation arguments, Occurs (.retract relation arguments) b.body →
    ∃ rel, prog.relId relation = some rel ∧ ownsRelation authority rel = true
  invokes : ∀ capability arguments destinations,
    Occurs (.invokeCapability capability arguments destinations) b.body →
      (∃ kind rel, prog.capability capability = some (kind, rel) ∧ ownsRelation authority rel = true) ∧
        (grants.get capability).isSome = true ∧
          grants.validateInvocation capability arguments = .ok ()

/-- The code of a cell is a behavior, and a lawful one. -/
def LawfulCode (prog : ProgramNames) (grants : ResolvedGrantSet) (authority : Authority)
    (bytes : List UInt8) : Prop :=
  ∃ b, Wire.decodeBehavior bytes = .ok b ∧ Lawful prog grants authority b

section Soundness

variable {prog : ProgramNames}

/-- A row has what another has. -/
structure EffectRow.Within (row row' : EffectRow) : Prop where
  writes : ∀ rel ∈ row.writes, rel ∈ row'.writes
  sends : ∀ rel ∈ row.sends, rel ∈ row'.sends
  capabilities : ∀ name ∈ row.capabilities, name ∈ row'.capabilities

theorem EffectRow.Within.refl (row : EffectRow) : row.Within row :=
  ⟨fun _ h => h, fun _ h => h, fun _ h => h⟩

theorem EffectRow.Within.trans {a b c : EffectRow} (hab : a.Within b) (hbc : b.Within c) : a.Within c :=
  ⟨fun rel h => hbc.writes rel (hab.writes rel h), fun rel h => hbc.sends rel (hab.sends rel h),
    fun name h => hbc.capabilities name (hab.capabilities name h)⟩

theorem EffectRow.within_write (row : EffectRow) (rel : RelId) : row.Within (row.write rel) :=
  ⟨fun _ h => mem_insertOrdered.2 (.inr h), fun _ h => h, fun _ h => h⟩

theorem EffectRow.within_send (row : EffectRow) (rel : RelId) : row.Within (row.send rel) :=
  ⟨fun _ h => h, fun _ h => mem_insertOrdered.2 (.inr h), fun _ h => h⟩

theorem EffectRow.within_invoke (row : EffectRow) (name : String) : row.Within (row.invoke name) :=
  ⟨fun _ h => h, fun _ h => h, fun _ h => mem_insertOrdered.2 (.inr h)⟩

/-- What an operation does, of itself, is in a row. -/
def BehaviorOp.CoveredBy (prog : ProgramNames) (row : EffectRow) : BehaviorOp → Prop
  | .assert relation _ | .retract relation _ => ∃ rel, prog.relId relation = some rel ∧ rel ∈ row.writes
  | .emit relation _ => ∃ rel, prog.relId relation = some rel ∧ rel ∈ row.sends
  | .invokeCapability capability _ _ => capability ∈ row.capabilities ∧
      ∃ kind rel, prog.capability capability = some (kind, rel) ∧ rel ∈ row.writes
  | _ => True

theorem BehaviorOp.CoveredBy.mono {row row' : EffectRow} (h : row.Within row') {op : BehaviorOp}
    (hop : op.CoveredBy prog row) : op.CoveredBy prog row' := by
  cases op with
  | assert relation arguments =>
    obtain ⟨rel, hrel, hmem⟩ := hop
    exact ⟨rel, hrel, h.writes rel hmem⟩
  | retract relation arguments =>
    obtain ⟨rel, hrel, hmem⟩ := hop
    exact ⟨rel, hrel, h.writes rel hmem⟩
  | emit relation arguments =>
    obtain ⟨rel, hrel, hmem⟩ := hop
    exact ⟨rel, hrel, h.sends rel hmem⟩
  | invokeCapability capability arguments destinations =>
    obtain ⟨hname, kind, rel, hrel, hmem⟩ := hop
    exact ⟨h.capabilities _ hname, kind, rel, hrel, h.writes rel hmem⟩
  | _ => trivial

theorem occurs_cons {o op : BehaviorOp} {ops : List BehaviorOp} :
    Occurs o (op :: ops) ↔ Occurs o [op] ∨ Occurs o ops := by
  constructor
  · intro h
    cases h with
    | head => exact .inl (.head [])
    | tail _ h => exact .inr h
    | inThen c e _ h => exact .inl (.inThen c e [] h)
    | inElse c t _ h => exact .inl (.inElse c t [] h)
  · rintro (h | h)
    · cases h with
      | head => exact .head ops
      | tail _ h => exact absurd h not_occurs_nil
      | inThen c e _ h => exact .inThen c e ops h
      | inElse c t _ h => exact .inElse c t ops h
    · exact .tail op h

/-- An operation without branches is the only one in itself. -/
theorem occurs_single {o op : BehaviorOp} (h : Occurs o [op]) (hop : ∀ c t e, op ≠ .ifOp c t e) :
    o = op := by
  cases h with
  | head => rfl
  | tail _ h => exact absurd h not_occurs_nil
  | inThen c e _ h => exact absurd rfl (hop c _ e)
  | inElse c t _ h => exact absurd rfl (hop c t _)

theorem effectRelId_ok {rel : String} {id : RelId} (h : effectRelId prog rel = .ok id) :
    prog.relId rel = some id := by
  unfold effectRelId at h
  split at h
  · rename_i hid
    rw [hid, Except.ok.inj h]
  · cases h

/-- A row that has what one operation does, and everything another row has. -/
theorem covers_single {row row' : EffectRow} {op : BehaviorOp} (hop : ∀ c t e, op ≠ .ifOp c t e)
    (hin : row.Within row') (hcov : op.CoveredBy prog row') :
    row.Within row' ∧ ∀ o, Occurs o [op] → o.CoveredBy prog row' :=
  ⟨hin, fun _ ho => occurs_single ho hop ▸ hcov⟩

mutual

theorem addOpEffects_ok : ∀ (op : BehaviorOp) {row row' : EffectRow},
    addOpEffects prog op row = .ok row' →
      row.Within row' ∧ ∀ o, Occurs o [op] → o.CoveredBy prog row'
  | .assert relation arguments, row, row', h => by
      rw [addOpEffects] at h
      cases hid : effectRelId prog relation with
      | error e =>
        rw [hid] at h
        cases h
      | ok rel =>
        rw [hid] at h
        cases h
        exact covers_single nofun (row.within_write rel)
          ⟨rel, effectRelId_ok hid, mem_insertOrdered.2 (.inl rfl)⟩
  | .retract relation arguments, row, row', h => by
      rw [addOpEffects] at h
      cases hid : effectRelId prog relation with
      | error e =>
        rw [hid] at h
        cases h
      | ok rel =>
        rw [hid] at h
        cases h
        exact covers_single nofun (row.within_write rel)
          ⟨rel, effectRelId_ok hid, mem_insertOrdered.2 (.inl rfl)⟩
  | .emit relation arguments, row, row', h => by
      rw [addOpEffects] at h
      cases hid : effectRelId prog relation with
      | error e =>
        rw [hid] at h
        cases h
      | ok rel =>
        rw [hid] at h
        cases h
        exact covers_single nofun (row.within_send rel)
          ⟨rel, effectRelId_ok hid, mem_insertOrdered.2 (.inl rfl)⟩
  | .ifOp condition thenOps elseOps, row, row', h => by
      rw [addOpEffects] at h
      cases hthen : addIrEffects prog thenOps row with
      | error e =>
        rw [hthen] at h
        cases h
      | ok mid =>
        rw [hthen] at h
        obtain ⟨hin, hcov⟩ := addIrEffects_ok thenOps hthen
        obtain ⟨hin', hcov'⟩ := addIrEffects_ok elseOps (h : addIrEffects prog elseOps mid = .ok row')
        refine ⟨hin.trans hin', fun o ho => ?_⟩
        cases ho with
        | head => trivial
        | tail _ ho => exact absurd ho not_occurs_nil
        | inThen _ _ _ ho => exact (hcov o ho).mono hin'
        | inElse _ _ _ ho => exact hcov' o ho
  | .invokeCapability capability arguments destinations, row, row', h => by
      rw [addOpEffects] at h
      split at h
      · rename_i kind rel hcap
        cases h
        refine covers_single nofun ((row.within_invoke capability).trans
          ((row.invoke capability).within_write rel)) ⟨?_, kind, rel, hcap, ?_⟩
        · exact mem_insertOrdered.2 (.inl rfl)
        · exact mem_insertOrdered.2 (.inl rfl)
      · cases h
  | .resolve .., row, row', h => by
      cases h
      exact covers_single nofun (.refl row) trivial
  | .find .., row, row', h => by
      cases h
      exact covers_single nofun (.refl row) trivial
  | .letOp .., row, row', h => by
      cases h
      exact covers_single nofun (.refl row) trivial
  | .expect .., row, row', h => by
      cases h
      exact covers_single nofun (.refl row) trivial

/-- Whatever operations do, whichever branches are taken, is in their effects. -/
theorem addIrEffects_ok : ∀ (ops : List BehaviorOp) {row row' : EffectRow},
    addIrEffects prog ops row = .ok row' →
      row.Within row' ∧ ∀ o, Occurs o ops → o.CoveredBy prog row'
  | [], row, row', h => by
      cases h
      exact ⟨.refl row, fun o ho => absurd ho not_occurs_nil⟩
  | op :: ops, row, row', h => by
      rw [addIrEffects] at h
      cases hop : addOpEffects prog op row with
      | error e =>
        rw [hop] at h
        cases h
      | ok mid =>
        rw [hop] at h
        obtain ⟨hin, hcov⟩ := addOpEffects_ok op hop
        obtain ⟨hin', hcov'⟩ := addIrEffects_ok ops (h : addIrEffects prog ops mid = .ok row')
        refine ⟨hin.trans hin', fun o ho => ?_⟩
        rcases occurs_cons.1 ho with ho | ho
        · exact (hcov o ho).mono hin'
        · exact hcov' o ho

end

theorem checkAuthority_ok {effects : EffectRow} {authority : Authority}
    (h : checkAuthority effects authority = .ok ()) :
    ∀ rel ∈ effects.writes, ownsRelation authority rel = true := by
  intro rel hrel
  unfold checkAuthority at h
  split at h
  · cases h
  · rename_i hnone
    simpa using List.find?_eq_none.1 hnone rel hrel

/-- An operation that is neither a branch nor an invocation invokes nothing. -/
theorem not_invokes {op : BehaviorOp} {capability : String} {arguments : List ExprIr}
    {destinations : List String} (ho : Occurs (.invokeCapability capability arguments destinations) [op])
    (hif : ∀ c t e, op ≠ .ifOp c t e) (hop : ∀ c a d, op ≠ .invokeCapability c a d) : False :=
  hop _ _ _ (occurs_single ho hif).symm

mutual

theorem validateOp_ok {grants : ResolvedGrantSet} : ∀ (op : BehaviorOp), validateOp grants op = .ok () →
    ∀ capability arguments destinations,
      Occurs (.invokeCapability capability arguments destinations) [op] →
        grants.validateInvocation capability arguments = .ok ()
  | .invokeCapability .., h => by
      intro capability arguments destinations ho
      cases occurs_single ho nofun
      exact h
  | .ifOp condition thenOps elseOps, h => by
      intro capability arguments destinations ho
      rw [validateOp] at h
      obtain ⟨_, hthen, helse⟩ := except_bind_ok h
      cases ho with
      | tail _ ho => exact absurd ho not_occurs_nil
      | inThen _ _ _ ho => exact validateGrantedInvocations_ok thenOps hthen _ _ _ ho
      | inElse _ _ _ ho => exact validateGrantedInvocations_ok elseOps helse _ _ _ ho
  | .resolve .., _ => fun _ _ _ ho => (not_invokes ho nofun nofun).elim
  | .find .., _ => fun _ _ _ ho => (not_invokes ho nofun nofun).elim
  | .letOp .., _ => fun _ _ _ ho => (not_invokes ho nofun nofun).elim
  | .expect .., _ => fun _ _ _ ho => (not_invokes ho nofun nofun).elim
  | .assert .., _ => fun _ _ _ ho => (not_invokes ho nofun nofun).elim
  | .retract .., _ => fun _ _ _ ho => (not_invokes ho nofun nofun).elim
  | .emit .., _ => fun _ _ _ ho => (not_invokes ho nofun nofun).elim

theorem validateGrantedInvocations_ok {grants : ResolvedGrantSet} : ∀ (ops : List BehaviorOp),
    validateGrantedInvocations grants ops = .ok () → ∀ capability arguments destinations,
      Occurs (.invokeCapability capability arguments destinations) ops →
        grants.validateInvocation capability arguments = .ok ()
  | [], _ => fun _ _ _ ho => absurd ho not_occurs_nil
  | op :: ops, h => by
      intro capability arguments destinations ho
      rw [validateGrantedInvocations] at h
      obtain ⟨_, hop, hops⟩ := except_bind_ok h
      rcases occurs_cons.1 ho with ho | ho
      · exact validateOp_ok op hop _ _ _ ho
      · exact validateGrantedInvocations_ok ops hops _ _ _ ho

end

/-- A code cell that passed holds a lawful behavior. -/
theorem EffectChecker.checkCell_lawful {grants : ResolvedGrantSet} {rel : RelId}
    {authority : Authority} {bytes : List UInt8}
    (h : (withGrants prog grants).checkCell rel authority (.code bytes) = .ok ()) :
    LawfulCode prog grants authority bytes := by
  simp only [checkCell, withGrants] at h
  split at h
  · cases h
  · rename_i b hb
    split at h
    · cases h
    · rename_i effects heff
      split at h
      · cases h
      · rename_i hgranted
        split at h
        · cases h
        · rename_i hvalid
          obtain ⟨row, hrow, hchecked⟩ := except_bind_ok heff
          obtain ⟨_, hauth, hsame⟩ := except_bind_ok hchecked
          cases hsame
          have hcov := (addIrEffects_ok b.body hrow).2
          have howned := checkAuthority_ok hauth
          refine ⟨b, hb, fun relation arguments ho => ?_, fun relation arguments ho => ?_,
            fun capability arguments destinations ho => ⟨?_, ?_, ?_⟩⟩
          · obtain ⟨id, hid, hmem⟩ := hcov _ ho
            exact ⟨id, hid, howned id hmem⟩
          · obtain ⟨id, hid, hmem⟩ := hcov _ ho
            exact ⟨id, hid, howned id hmem⟩
          · obtain ⟨-, kind, id, hid, hmem⟩ := hcov _ ho
            exact ⟨kind, id, hid, howned id hmem⟩
          · have hname := List.find?_eq_none.1 hgranted capability (hcov _ ho).1
            simpa [Option.isSome_iff_ne_none] using hname
          · exact validateGrantedInvocations_ok b.body hvalid _ _ _ ho

/-- **Every code cell of a row that passed holds a lawful behavior.** -/
theorem EffectChecker.checkFact_lawful {grants : ResolvedGrantSet} {fact : Fact}
    {authority : Authority} (h : (withGrants prog grants).checkFact fact authority = .ok ())
    {bytes : List UInt8} (hmem : Value.code bytes ∈ fact.tuple.cells) :
    LawfulCode prog grants authority bytes := by
  have hcells : ∀ vs : List Value, (withGrants prog grants).checkCells fact.rel authority vs = .ok () →
      Value.code bytes ∈ vs → LawfulCode prog grants authority bytes := by
    intro vs
    induction vs with
    | nil => exact fun _ hmem => absurd hmem (by simp)
    | cons v vs ih =>
      intro hvs hmem
      rw [checkCells] at hvs
      obtain ⟨_, hv, hrest⟩ := bind_ok hvs
      rcases List.mem_cons.1 hmem with rfl | hmem
      · exact checkCell_lawful hv
      · exact ih hrest hmem
  exact hcells _ h hmem

end Soundness

end Grmpl

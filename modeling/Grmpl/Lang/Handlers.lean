import Grmpl.Lang.Statements
import Grmpl.Lang.Requirements
import Grmpl.Pattern.Algebra

/-!
# Handlers

A compiled handler parses a message with its form and runs the arm for the constructor it
parses to. What its effects are inferred from are the arms it runs, and the capabilities
it invokes are those its package requires.

* `FormIr`, `HandlerProgram.formIr`: forms as patterns and constructors.
* `FormIr.parseAll`: the values a row of tokens parses to.
* `CompiledHandler`, `HandlerProgram.behavior`, `CompiledHandler.run`: handlers.
* `inferHandlerEffects`, `checkHandlerAuthority`: what a handler may do.
* `compileCapabilities`: the capabilities of a program, of what its package requires.
-/

namespace Grmpl

/-! ## Forms -/

/-- What a rule constructs: a tag and the variables after it. -/
structure CtorSpec where
  tag : String
  args : List VarId
  deriving DecidableEq

/-- The tagged tuple of what was captured; nothing captured is the empty text. -/
def CtorSpec.build (c : CtorSpec) (b : Bindings) : Value :=
  .tuple (.text c.tag :: c.args.map fun id => (b.lookup id).getD (.text ""))

structure RuleIr where
  pattern : Pattern
  ctor : CtorSpec

structure FormIr where
  rules : List RuleIr

/-- The variables of a rule, as they are numbered. -/
abbrev VarIds := List (String × VarId)

def VarIds.id (ids : VarIds) (name : String) : Option VarId := (ids.find? fun e => e.1 = name).map (·.2)

/-- The patterns of a rule's tokens; a name that is new takes the next number. -/
def formAtoms (ids : VarIds) : List PAtom → List Pattern × VarIds
  | [] => ([], ids)
  | .lit s :: rest =>
      let (ps, ids) := formAtoms ids rest
      (.lit (.text s) :: ps, ids)
  | .bind name :: rest => match ids.id name with
      | some id =>
          let (ps, ids) := formAtoms ids rest
          (.bind id :: ps, ids)
      | none =>
          let id := UInt32.ofNat ids.length
          let (ps, ids) := formAtoms (ids ++ [(name, id)]) rest
          (.bind id :: ps, ids)

def formRule (rule : FormRule) : Except String RuleIr := do
  let (ps, ids) := formAtoms [] rule.seq
  let args ← rule.ctorArgs.mapM fun a => match ids.id a with
    | some id => .ok id
    | none => .error ("ctor arg `" ++ a ++ "` is not bound in the pattern")
  return ⟨.seq ps, ⟨rule.tag, args⟩⟩

def HandlerProgram.formIr (prog : HandlerProgram) (name : String) : Except String FormIr :=
  match prog.formRules name with
  | none => .error ("no form `" ++ name ++ "`")
  | some rules => do return ⟨← rules.mapM formRule⟩

/-- Every parse of an input by rules in turn, with what each leaves. -/
def parseIn {I : Type} [MatchInput I] (rounds : Nat) (input : I) : List RuleIr → Option (List (Value × I))
  | [] => some []
  | r :: rs => do
      let found ← runIn rounds r.pattern input
      return (found.map fun m => (r.ctor.build m.1, m.2)) ++ (← parseIn rounds input rs)

/-- The parses of a row that leave nothing of it. -/
def FormIr.parseAll (form : FormIr) (row : List Value) : Option (List Value) :=
  (parseIn (row.length + 1) row form.rules).map fun found => (found.filter fun m => m.2.isEmpty).map (·.1)

/-! ## Handlers -/

/-- An arm of a handler, lowered. -/
structure CompiledArm where
  tag : String
  vars : List String
  ir : List BehaviorOp

structure CompiledHandler where
  form : FormIr
  arms : List CompiledArm

namespace HandlerProgram

variable (prog : HandlerProgram)

def compileStmtArm (arm : Arm) : Except String CompiledArm := do
  return ⟨arm.tag, arm.vars, ← prog.lowerStmtArm arm⟩

def compileConcatArm (arm : ConcatArm) : Except String CompiledArm := do
  return ⟨arm.tag, arm.vars, ← lowerConcatArm prog.toProgram arm⟩

/-- A handler compiled: its form, and its arms of statements before those of words. -/
def behavior (inbox : String) : Except String CompiledHandler :=
  match prog.onDef inbox with
  | none => .error ("no on-handler for `" ++ inbox ++ "`")
  | some on_ => do
      let form ← prog.formIr on_.form
      let arms ← on_.arms.mapM prog.compileStmtArm
      let concatArms ← on_.concatArms.mapM prog.compileConcatArm
      return ⟨form, arms ++ concatArms⟩

end HandlerProgram

/-- The arm for a constructor with so many arguments. -/
def CompiledHandler.arm (h : CompiledHandler) (tag : String) (arity : Nat) : Option CompiledArm :=
  h.arms.find? fun a => a.tag = tag ∧ arity = a.vars.length

section Run

variable (fl : FloatOps) (prog : Program) (grants : Option ResolvedGrantSet) (tries : Nat)
  (selfEntity : Entity) (snap : Snapshot)

/-- A message: the first of its parses picks an arm, and the arm is run on its parts. A
message with no parse, no arm, or whose arm's lookups find nothing, does nothing. -/
def CompiledHandler.run (h : CompiledHandler) (body : Tuple) : Answer Patch :=
  match h.form.parseAll body.cells with
  | none => .error (.reading .spin)
  | some cmds => match cmds.head? with
      | some (.tuple (.text tag :: parts)) => match h.arm tag parts.length with
          | some arm => do
              let patch ← BehaviorIr.execute fl prog grants tries selfEntity snap arm.ir (arm.vars.zip parts)
              return patch.getD Patch.new
          | none => .ok Patch.new
      | _ => .ok Patch.new

end Run

/-! ## Effects -/

namespace HandlerProgram

variable (prog : HandlerProgram)

/-- Why a handler has no effects to go by. -/
inductive HandlerError where
  | lowering (message : String)
  | effect (e : EffectError)
  deriving DecidableEq

/-- The effects of each of some arms, added to a row. -/
def addArmEffects : List (List BehaviorOp) → EffectRow → Except EffectError EffectRow
  | [], row => .ok row
  | arm :: arms, row => do addArmEffects arms (← addIrEffects prog.names arm row)

def inferHandlerEffects (inbox : String) : Except HandlerError EffectRow :=
  match prog.handlerIrs inbox with
  | .error message => .error (.lowering message)
  | .ok arms => (prog.addArmEffects arms .none).mapError .effect

def checkHandlerAuthority (inbox : String) (authority : Authority) : Except HandlerError EffectRow := do
  let effects ← prog.inferHandlerEffects inbox
  (checkAuthority effects authority).mapError .effect
  return effects

end HandlerProgram

/-! ## Capabilities -/

/-- A required capability as the program knows it: its name, and the relation of its state. -/
def RequireDecl.capability : RequireDecl → String × CapabilityKind × String
  | .allocate name counter _ _ => (name, .allocate, counter)
  | .random name state _ _ => (name, .random, state)
  | .schedule name _ timers _ => (name, .schedule, timers)

/-- The capabilities of what is required, in turn: their relations are declared, and no name
is taken. -/
def compileCapabilities (relId : String → Option RelId) :
    List (String × CapabilityKind × RelId) → List RequireDecl → Except String (List (String × CapabilityKind × RelId))
  | known, [] => .ok known
  | known, d :: rest =>
      let (name, kind, relation) := d.capability
      match relId relation with
      | none => .error ("capability `" ++ name ++ "` names undeclared relation `" ++ relation ++ "`")
      | some id =>
          if known.any fun c => c.1 = name then .error ("capability `" ++ name ++ "` is declared twice")
          else compileCapabilities relId (known ++ [(name, kind, id)]) rest

/-- The grants of a program are those of the package it was compiled from: the same
declarations say which capabilities it has and what they are granted. -/
def HandlerProgram.Grants (prog : HandlerProgram) (grants : ResolvedGrantSet) : Prop :=
  ∃ (entities : Entities) (requires : List RequireDecl) (requirements : List CapabilityRequirement)
      (p : Package) (targets : String → String → Option (Entity × RelId)),
    compileRequirements entities requires = .ok requirements ∧ p.rels = prog.rels ∧
      compileCapabilities prog.relId [] requires = .ok prog.capabilities ∧
        grants = resolveGrants p targets requirements

end Grmpl

import Grmpl.Lang.StackEffects

/-!
# Lowering statements

A handler's arms are statements or words. Statements name locals instead of pushing
values: an expression is lowered under the types of the locals so far, a branch under a
copy of them. A scheduled message is rendered back into tokens, by the one rule of the
target's form that its constructor inverts.

* `Expr`, `SArg`, `Stmt`, `Arm`, `FormRule`, `OnDef`: what is written.
* `HandlerProgram`: a program with its capabilities, forms, handlers and actors.
* `lowerExpr`, `renderActorMessage`, `lowerStmts`: the lowering.
* `handlerIrs`: the arms of a handler, of both kinds.
-/

namespace Grmpl

/-! ## What is written -/

inductive UnaryOp where
  | neg
  | not
  deriving DecidableEq

inductive BinaryOp where
  | arith (op : ArithOp)
  | compare (op : CompareOp)
  | and
  | or
  deriving DecidableEq

inductive Expr where
  | var (name : String)
  | lit (v : Value)
  | unary (op : UnaryOp) (value : Expr)
  | binary (op : BinaryOp) (left right : Expr)
  | call (name : String) (args : List Expr)

/-- An argument of a statement: a variable or a literal. -/
inductive SArg where
  | var (name : String)
  | str (s : String)
  | int (n : Int64)
  | float (x : FiniteF64)
  | bool (b : Bool)
  deriving DecidableEq

inductive Stmt where
  | let_ (name : String) (value : Expr)
  | if_ (condition : Expr) (thenStmts elseStmts : List Stmt)
  | fresh (capability local_ : String)
  | random (capability : String) (bound : Expr) (local_ : String)
  | schedule (capability : String) (due : Expr) (tag : String) (arguments : List Expr) (target : String)
  | resolve (view : String) (args : List SArg) (col : String) (op : MatchOp) (rhs : SArg)
  | find (rel : String) (args : List SArg)
  | fact (w : FactWord) (rel : String) (args : List SArg)

/-- An arm of statements: a constructor, its arguments, and what is done. -/
structure Arm where
  tag : String
  vars : List String
  stmts : List Stmt

/-- A token of a form's rule: a literal, or a variable that takes the token there. -/
inductive PAtom where
  | lit (s : String)
  | bind (name : String)
  deriving DecidableEq

/-- A rule of a form: the tokens it takes and what it constructs of them. -/
structure FormRule where
  seq : List PAtom
  tag : String
  ctorArgs : List String
  deriving DecidableEq

/-- A handler: the form its messages are parsed with, and its arms. -/
structure OnDef where
  form : String
  arms : List Arm
  concatArms : List ConcatArm

structure ActorDef where
  inbox : String

/-- A program with what its handlers refer to. -/
structure HandlerProgram extends Program where
  capabilities : List (String × CapabilityKind × RelId)
  forms : List (String × List FormRule)
  ons : List (String × OnDef)
  actors : List (String × ActorDef)

namespace HandlerProgram

variable (prog : HandlerProgram)

/-- A capability, and the relation its state is in. -/
def capability (name : String) : Option (CapabilityKind × RelId) :=
  (prog.capabilities.find? fun c => c.1 = name).map (·.2)

def formRules (name : String) : Option (List FormRule) := (prog.forms.find? fun f => f.1 = name).map (·.2)

def onDef (inbox : String) : Option OnDef := (prog.ons.find? fun o => o.1 = inbox).map (·.2)

def actor (name : String) : Option ActorDef := (prog.actors.find? fun a => a.1 = name).map (·.2)

/-- What effects are inferred from. -/
def names : ProgramNames := ⟨prog.relId, prog.capability⟩

end HandlerProgram

/-! ## Expressions -/

def Types.type (types : Types) (name : String) : Option Ty := (types.find? fun e => e.1 = name).map (·.2)

section Expressions

variable (prog : Program) (locals : Types)

/-- A name: an entity constant, or else a local. -/
def lowerVar (name : String) : Except String TypedExpr :=
  match prog.entity name with
  | some e => .ok (.literal (.ent e))
  | none => match locals.type name with
      | some ty => .ok (.value (.local_ name) ty)
      | none => .error ("unbound local `" ++ name ++ "`")

def lowerSArg : SArg → Except String TypedExpr
  | .var name => lowerVar prog locals name
  | .str s => .ok (.literal (.text s))
  | .int n => .ok (.literal (.int n))
  | .float x => .ok (.literal (.float x))
  | .bool b => .ok (.literal (.bool b))

def lowerUnaryOp (op : UnaryOp) (e : TypedExpr) : Except String TypedExpr :=
  match op with
  | .neg =>
      if e.ty ≠ .int ∧ e.ty ≠ .float then .error "unary `-` requires Int or Float"
      else do return .value (.intrinsic "neg" [← e.intoValue "unary -"]) e.ty
  | .not =>
      if e.ty ≠ .bool then .error "unary `!` requires Bool"
      else do return .boolean (.not (← e.intoBool "unary !"))

/-- A call of an intrinsic: `float`, `min` or `max`. -/
def lowerCall (name : String) (args : List TypedExpr) : Except String TypedExpr :=
  let refused : Except String TypedExpr := .error ("unknown or ill-typed intrinsic call `" ++ name ++ "`")
  match args with
  | [value] =>
      if name = "float" ∧ value.ty = .int then do
        return .value (.intrinsic "float" [← value.intoValue "float"]) .float
      else refused
  | [left, right] =>
      if (name = "min" ∨ name = "max") ∧ left.ty = right.ty ∧ (left.ty = .int ∨ left.ty = .float) then do
        let l ← left.intoValue name
        let r ← right.intoValue name
        return .value (.intrinsic name [l, r]) left.ty
      else refused
  | _ => refused

mutual

def lowerExpr : Expr → Except String TypedExpr
  | .var name => lowerVar prog locals name
  | .lit v => .ok (.literal v)
  | .unary op value => do lowerUnaryOp op (← lowerExpr value)
  | .binary op left right => do
      let left ← lowerExpr left
      match op with
      | .arith op => do lowerArith op left (← lowerExpr right)
      | .compare op => do lowerCompare op left (← lowerExpr right)
      | .and => do
          let l ← left.intoBool "boolean operator"
          let r ← (← lowerExpr right).intoBool "boolean operator"
          return .boolean (.and l r)
      | .or => do
          let l ← left.intoBool "boolean operator"
          let r ← (← lowerExpr right).intoBool "boolean operator"
          return .boolean (.or l r)
  | .call name args => do lowerCall name (← lowerExprs args)

def lowerExprs : List Expr → Except String (List TypedExpr)
  | [] => .ok []
  | e :: es => do
      let typed ← lowerExpr e
      return typed :: (← lowerExprs es)

end

end Expressions

/-! ## Scheduled messages -/

/-- A rule's token, of the values of its constructor's arguments. -/
def PAtom.render {α : Type} (literal : String → α) (values : List (String × α)) : PAtom → Option α
  | .lit s => some (literal s)
  | .bind name => (values.find? fun v => v.1 = name).map (·.2)

def ExprIr.text (s : String) : ExprIr := .value (.literal (.text s))

namespace HandlerProgram

variable (prog : HandlerProgram)

/-- The arguments of a constructor, each a text. -/
def lowerTexts (locals : Types) : List Expr → Except String (List ExprIr)
  | [] => .ok []
  | e :: es => do
      let typed ← lowerExpr prog.toProgram locals e
      requireAssignable .text typed.ty "scheduled constructor argument"
      return typed.ir :: (← lowerTexts locals es)

/-- The tokens a rule takes to construct its value of arguments, none where a token is
not one of them, or two of them are one variable. -/
def renderRule (locals : Types) (arguments : List Expr) (rule : FormRule) :
    Except String (Option (List ExprIr)) :=
  if rule.ctorArgs.Nodup then do
    let values ← prog.lowerTexts locals arguments
    return rule.seq.mapM (PAtom.render .text (rule.ctorArgs.zip values))
  else .ok none

/-- A message to an actor, as the tokens that its handler's form takes for it: of the
rules for the constructor one must render it, and no other. -/
def renderActorMessage (target tag : String) (arguments : List Expr) (locals : Types) :
    Except String (List ExprIr) :=
  match prog.actor target with
  | none => .error ("schedule targets undeclared actor `" ++ target ++ "`")
  | some actor => match prog.onDef actor.inbox with
    | none => .error ("actor `" ++ target ++ "` inbox has no on-handler")
    | some handler => match prog.formRules handler.form with
      | none => .error ("actor `" ++ target ++ "` handler names no form")
      | some rules => do
          let rendered ← (rules.filter fun rule =>
            rule.tag = tag ∧ rule.ctorArgs.length = arguments.length).mapM (prog.renderRule locals arguments)
          match rendered.reduceOption with
          | [body] => return body
          | [] => .error ("actor `" ++ target ++ "` form has no invertible `" ++ tag ++
              "` constructor with " ++ toString arguments.length ++ " Text argument(s)")
          | _ => .error ("actor `" ++ target ++ "` form has ambiguous `" ++ tag ++ "` constructors")

/-! ## Statements -/

/-- Arguments of a relation, each of its column's type. -/
def lowerColumns (locals : Types) (context : String) : List SArg → List Column → Except String (List ExprIr)
  | arg :: args, column :: columns => do
      let typed ← lowerSArg prog.toProgram locals arg
      requireAssignable column.ty typed.ty context
      return typed.ir :: (← lowerColumns locals context args columns)
  | _, _ => .ok []

def lowerRelationArgs (locals : Types) (rel : String) (args : List SArg) : Except String (List ExprIr) :=
  match prog.schema rel with
  | none => .error ("operation names undeclared relation `" ++ rel ++ "`")
  | some schema =>
      if args.length ≠ schema.arity then
        .error ("operation on `" ++ rel ++ "` expects " ++ toString schema.arity ++ " arguments, got " ++
          toString args.length)
      else prog.lowerColumns locals ("operation on `" ++ rel ++ "`") args schema.columns

/-- The columns of a lookup: a name that is new is bound, anything else matched. -/
def lowerFindArgs (context : String) : Types → List SArg → List Column → Except String (List FindArg × Types)
  | locals, arg :: args, column :: columns => do
      let matched : Except String (List FindArg × Types) := do
        let typed ← lowerSArg prog.toProgram locals arg
        requireAssignable column.ty typed.ty context
        let (rest, locals) ← lowerFindArgs context locals args columns
        return (.match_ typed.ir :: rest, locals)
      match arg with
      | .var name =>
          if (locals.type name).isNone ∧ (prog.entity name).isNone then do
            let locals ← bindType prog.toProgram locals name column.ty
            let (rest, locals) ← lowerFindArgs context locals args columns
            return (.bind name :: rest, locals)
          else matched
      | _ => matched
  | locals, _, _ => .ok ([], locals)

/-- Locals bound in turn. -/
def bindTypes (prog : Program) : Types → List (String × Ty) → Except String Types
  | locals, [] => .ok locals
  | locals, (name, ty) :: rest => do bindTypes prog (← bindType prog locals name ty) rest

def lowerSArgs (locals : Types) : List SArg → Except String (List ExprIr)
  | [] => .ok []
  | arg :: args => do
      let typed ← lowerSArg prog.toProgram locals arg
      return typed.ir :: (← lowerSArgs locals args)

/-- A capability a statement invokes, of the kind it needs. -/
def requireCapability (statement notOne name : String) (kind : CapabilityKind) : Except String Unit :=
  match prog.capability name with
  | none => .error (statement ++ " names undeclared capability `" ++ name ++ "`")
  | some (kind', _) =>
      if kind' ≠ kind then .error ("capability `" ++ name ++ "` is not " ++ notOne) else .ok ()

mutual

/-- A statement as an operation, and the locals after it. -/
def lowerStmt (locals : Types) : Stmt → Except String (BehaviorOp × Types)
  | .let_ name value => do
      let value ← lowerExpr prog.toProgram locals value
      let locals ← bindType prog.toProgram locals name value.ty
      return (.letOp name value.ir, locals)
  | .if_ condition thenStmts elseStmts => do
      let condition ← (← lowerExpr prog.toProgram locals condition).intoBool "if condition"
      let thenOps ← lowerStmts locals thenStmts
      let elseOps ← lowerStmts locals elseStmts
      return (.ifOp condition thenOps elseOps, locals)
  | .fresh capability local_ => do
      prog.requireCapability "fresh" "an allocator" capability .allocate
      let locals ← bindType prog.toProgram locals local_ .ent
      return (.invokeCapability capability [] [local_], locals)
  | .random capability bound local_ => do
      prog.requireCapability "random" "a random stream" capability .random
      let bound ← lowerExpr prog.toProgram locals bound
      requireAssignable .int bound.ty "random bound"
      let locals ← bindType prog.toProgram locals local_ .int
      return (.invokeCapability capability [bound.ir] [local_], locals)
  | .schedule capability due tag arguments target => do
      prog.requireCapability "schedule" "a scheduler" capability .schedule
      let due ← lowerExpr prog.toProgram locals due
      requireAssignable .int due.ty "schedule due"
      let body ← prog.renderActorMessage target tag arguments locals
      return (.invokeCapability capability (.text target :: due.ir :: body) [], locals)
  | .resolve view args col op rhs => do
      let arguments ← prog.lowerSArgs locals args
      let rhs ← lowerSArg prog.toProgram locals rhs
      match prog.viewDef view with
      | none => .error ("no view `" ++ view ++ "`")
      | some v => do
          let types ← prog.viewOutputTypes view
          let locals ← bindTypes prog.toProgram locals (v.yields.zip types)
          return (.resolve view arguments col op rhs.ir v.yields, locals)
  | .find rel args =>
      match prog.schema rel with
      | none => .error ("find names undeclared relation `" ++ rel ++ "`")
      | some schema =>
          if args.length ≠ schema.arity then
            .error ("find `" ++ rel ++ "` expects " ++ toString schema.arity ++ " arguments, got " ++
              toString args.length)
          else do
            let (arguments, locals) ← prog.lowerFindArgs ("find `" ++ rel ++ "`") locals args schema.columns
            return (.find rel arguments, locals)
  | .fact w rel args => do return (w.op rel (← prog.lowerRelationArgs locals rel args), locals)

/-- Statements in turn; what one binds, those after it see. -/
def lowerStmts (locals : Types) : List Stmt → Except String (List BehaviorOp)
  | [] => .ok []
  | s :: ss => do
      let (op, locals) ← lowerStmt locals s
      return op :: (← lowerStmts locals ss)

end

/-! ## Handlers -/

def lowerStmtArm (arm : Arm) : Except String (List BehaviorOp) := do
  let locals ← bindTypes prog.toProgram [("self", .ent)] (arm.vars.map (·, .text))
  prog.lowerStmts locals arm.stmts

/-- The arms of a handler, of both kinds, as effects are inferred from them. -/
def handlerIrs (inbox : String) : Except String (List (List BehaviorOp)) :=
  match prog.onDef inbox with
  | none => .error ("no on-handler for `" ++ inbox ++ "`")
  | some on_ => do
      let arms ← on_.arms.mapM prog.lowerStmtArm
      let concatArms ← on_.concatArms.mapM (lowerConcatArm prog.toProgram)
      return arms ++ concatArms

end HandlerProgram

end Grmpl

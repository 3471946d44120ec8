import Grmpl.Lang.Program
import Grmpl.Lang.BehaviorIr

/-!
# Lowering words

A concatenative body is a list of words over a stack of values. Lowering runs it on a
stack of typed expressions instead: words that compute put expressions together, words
that look something up bind what they push to locals of their own, and the operations
they come to are the behavior.

* `TypedExpr`, `bindType`, `requireAssignable`, `lowerBinary`: what both surfaces share.
* `Word`, `lowerWord`, `lowerWords`: words, and their lowering.
-/

namespace Grmpl

/-- A value's type. -/
def Value.ty : Value → Ty
  | .ent _ => .ent
  | .int _ => .int
  | .float _ => .float
  | .text _ => .text
  | .bool _ => .bool
  | .tuple _ => .tuple
  | .bytes _ => .bytes
  | .code _ => .code

/-- An expression with its type. -/
structure TypedExpr where
  ir : ExprIr
  ty : Ty

namespace TypedExpr

def value (v : ValueExpr) (ty : Ty) : TypedExpr := ⟨.value v, ty⟩

def boolean (b : BoolExpr) : TypedExpr := ⟨.bool b, .bool⟩

def literal (v : Value) : TypedExpr := value (.literal v) v.ty

def intoValue (e : TypedExpr) (context : String) : Except String ValueExpr :=
  match e.ir with
  | .value v => .ok v
  | .bool _ => .error (context ++ " requires a scalar value")

def intoBool (e : TypedExpr) (context : String) : Except String BoolExpr :=
  if e.ty ≠ .bool then .error (context ++ " requires Bool, found " ++ e.ty.name)
  else match e.ir with
    | .bool b => .ok b
    | .value v => .ok (.value v)

end TypedExpr

/-- The types of locals. -/
abbrev Types := List (String × Ty)

/-- A local takes a name that no entity and no local has. -/
def bindType (prog : Program) (types : Types) (name : String) (ty : Ty) : Except String Types :=
  if (prog.entity name).isSome then .error ("local `" ++ name ++ "` shadows an entity constant")
  else if types.any fun e => e.1 = name then
    .error ("local `" ++ name ++ "` is bound more than once in one scope")
  else .ok ((name, ty) :: types)

def requireAssignable (expected actual : Ty) (context : String) : Except String Unit :=
  if expected = .any ∨ expected = actual then .ok ()
  else .error (context ++ " expects " ++ expected.name ++ ", found " ++ actual.name)

inductive ArithOp where
  | add
  | sub
  | mul
  | div
  | rem
  deriving DecidableEq

/-- The intrinsic of an arithmetic operator. -/
def ArithOp.intrinsic : ArithOp → String
  | .add => "add"
  | .sub => "sub"
  | .mul => "mul"
  | .div => "div"
  | .rem => "rem"

def CompareOp.ordered : CompareOp → Bool
  | .eq | .ne => false
  | .lt | .le | .gt | .ge => true

/-- Arithmetic on two operands of one numeric type. -/
def lowerArith (op : ArithOp) (left right : TypedExpr) : Except String TypedExpr :=
  if left.ty ≠ right.ty ∨ (left.ty ≠ .int ∧ left.ty ≠ .float) then
    .error "arithmetic operands must be the same Int or Float type"
  else do
    let l ← left.intoValue "arithmetic"
    let r ← right.intoValue "arithmetic"
    return .value (.intrinsic op.intrinsic [l, r]) left.ty

/-- A comparison of two operands of one concrete type. -/
def lowerCompare (op : CompareOp) (left right : TypedExpr) : Except String TypedExpr :=
  if left.ty ≠ right.ty ∨ left.ty = .any then .error "comparison operands must have the same concrete type"
  else if op.ordered ∧ left.ty ≠ .int ∧ left.ty ≠ .float then .error "ordered comparison requires Int or Float"
  else do
    let l ← left.intoValue "comparison"
    let r ← right.intoValue "comparison"
    return .boolean (.compare op l r)

/-! ## Words -/

inductive UnaryWord where
  | neg
  | toFloat
  | not
  deriving DecidableEq

inductive BinaryWord where
  | arith (op : ArithOp)
  | compare (op : CompareOp)
  | min
  | max
  | and
  | or
  deriving DecidableEq

/-- The words that take a fact off the stack. -/
inductive FactWord where
  | expect
  | assert
  | retract
  | emit
  deriving DecidableEq

inductive Word where
  | selfEntity
  | lit (v : Value)
  | dup
  | drop
  | swap
  | over
  | rot
  | nip
  | tuck
  | twoDup
  | twoDrop
  | unary (w : UnaryWord)
  | binary (w : BinaryWord)
  | resolve (view col : String) (op : MatchOp)
  | find (rel : String) (keyn : Nat)
  | fact (w : FactWord) (rel : String)
  deriving DecidableEq

/-- Where the lowering stands; the top of the stack is the head of the list. -/
structure Lowering where
  locals : Types
  stack : List TypedExpr
  temporary : Nat

def freshIrLocal (n : Nat) : String := "#stack" ++ toString n

def stackPop (stack : List TypedExpr) : Except String (TypedExpr × List TypedExpr) :=
  match stack with
  | [] => .error "concatenative stack underflow"
  | e :: rest => .ok (e, rest)

/-- So many entries of the stack, the deepest first. -/
def stackPopN (stack : List TypedExpr) (count : Nat) : Except String (List TypedExpr × List TypedExpr) :=
  if stack.length < count then .error "concatenative stack underflow"
  else .ok ((stack.take count).reverse, stack.drop count)

def lowerUnary (w : UnaryWord) (e : TypedExpr) : Except String TypedExpr :=
  match w with
  | .neg =>
      if e.ty ≠ .int ∧ e.ty ≠ .float then .error "word `neg` requires Int or Float"
      else do return .value (.intrinsic "neg" [← e.intoValue "neg"]) e.ty
  | .toFloat =>
      if e.ty ≠ .int then .error "word `to_float` requires Int"
      else do return .value (.intrinsic "float" [← e.intoValue "to_float"]) .float
  | .not =>
      if e.ty ≠ .bool then .error "word `not` requires Bool"
      else do return .boolean (.not (← e.intoBool "not"))

/-- The lesser or the greater of two operands of one numeric type. -/
def lowerMinMax (intrinsic : String) (left right : TypedExpr) : Except String TypedExpr :=
  if left.ty ≠ right.ty ∨ (left.ty ≠ .int ∧ left.ty ≠ .float) then
    .error "words `min` and `max` require matching Int or Float operands"
  else do
    let l ← left.intoValue "min/max"
    let r ← right.intoValue "min/max"
    return .value (.intrinsic intrinsic [l, r]) left.ty

def lowerBinary (w : BinaryWord) (left right : TypedExpr) : Except String TypedExpr :=
  match w with
  | .arith op => lowerArith op left right
  | .compare op => lowerCompare op left right
  | .min => lowerMinMax "min" left right
  | .max => lowerMinMax "max" left right
  | .and => do
      let l ← left.intoBool "boolean word"
      let r ← right.intoBool "boolean word"
      return .boolean (.and l r)
  | .or => do
      let l ← left.intoBool "boolean word"
      let r ← right.intoBool "boolean word"
      return .boolean (.or l r)

def FactWord.op (w : FactWord) (rel : String) (arguments : List ExprIr) : BehaviorOp :=
  match w with
  | .expect => .expect rel arguments
  | .assert => .assert rel arguments
  | .retract => .retract rel arguments
  | .emit => .emit rel arguments

section Lower

variable (prog : Program)

/-- A local of the lowering's own, pushed. -/
def pushFresh (st : Lowering) (ty : Ty) : Except String (String × Lowering) := do
  let name := freshIrLocal st.temporary
  let locals ← bindType prog st.locals name ty
  return (name, ⟨locals, .value (.local_ name) ty :: st.stack, st.temporary + 1⟩)

/-- A local for each type, pushed in turn. -/
def pushAll (st : Lowering) : List Ty → Except String (List String × Lowering)
  | [] => .ok ([], st)
  | ty :: tys => do
      let (name, st) ← pushFresh prog st ty
      let (names, st) ← pushAll st tys
      return (name :: names, st)

/-- The columns of a lookup: those with a key are matched and bound, the others bound. -/
def lowerFind (rel : String) (st : Lowering) : List TypedExpr → List Column → Except String (List FindArg × Lowering)
  | _, [] => .ok ([], st)
  | [], column :: columns => do
      let (name, st) ← pushFresh prog st column.ty
      let (args, st) ← lowerFind rel st [] columns
      return (.bind name :: args, st)
  | key :: keys, column :: columns => do
      let (name, st) ← pushFresh prog st column.ty
      requireAssignable column.ty key.ty ("find `" ++ rel ++ "` key")
      let (args, st) ← lowerFind rel st keys columns
      return (.matchBind key.ir name :: args, st)

/-- Values against the columns of a relation. -/
def assignAll (context : String) : List TypedExpr → List Column → Except String Unit
  | v :: vs, c :: cs => do
      requireAssignable c.ty v.ty context
      assignAll context vs cs
  | _, _ => .ok ()

/-- One word: the operation it comes to, if it comes to one, and the stack after it. -/
def lowerWord (st : Lowering) : Word → Except String (List BehaviorOp × Lowering)
  | .selfEntity => .ok ([], { st with stack := .value (.local_ "self") .ent :: st.stack })
  | .lit v => .ok ([], { st with stack := .literal v :: st.stack })
  | .dup => do
      let (a, rest) ← stackPop st.stack
      return ([], { st with stack := a :: a :: rest })
  | .drop => do
      let (_, rest) ← stackPop st.stack
      return ([], { st with stack := rest })
  | .swap => do
      let (b, rest) ← stackPop st.stack
      let (a, rest) ← stackPop rest
      return ([], { st with stack := a :: b :: rest })
  | .over => do
      let (b, rest) ← stackPop st.stack
      let (a, rest) ← stackPop rest
      return ([], { st with stack := a :: b :: a :: rest })
  | .rot => do
      let (c, rest) ← stackPop st.stack
      let (b, rest) ← stackPop rest
      let (a, rest) ← stackPop rest
      return ([], { st with stack := a :: c :: b :: rest })
  | .nip => do
      let (b, rest) ← stackPop st.stack
      let (_, rest) ← stackPop rest
      return ([], { st with stack := b :: rest })
  | .tuck => do
      let (b, rest) ← stackPop st.stack
      let (a, rest) ← stackPop rest
      return ([], { st with stack := b :: a :: b :: rest })
  | .twoDup => do
      let (b, rest) ← stackPop st.stack
      let (a, rest) ← stackPop rest
      return ([], { st with stack := b :: a :: b :: a :: rest })
  | .twoDrop => do
      let (_, rest) ← stackPop st.stack
      let (_, rest) ← stackPop rest
      return ([], { st with stack := rest })
  | .unary w => do
      let (e, rest) ← stackPop st.stack
      return ([], { st with stack := (← lowerUnary w e) :: rest })
  | .binary w => do
      let (right, rest) ← stackPop st.stack
      let (left, rest) ← stackPop rest
      return ([], { st with stack := (← lowerBinary w left right) :: rest })
  | .resolve view col op =>
      match prog.viewDef view with
      | none => .error ("word `resolve` names undeclared view `" ++ view ++ "`")
      | some definition => do
          let (key, rest) ← stackPop st.stack
          let (arguments, rest) ← stackPopN rest definition.params.length
          let types ← prog.viewOutputTypes view
          match (definition.yields.findIdx? (· == col)).bind fun i => types[i]? with
          | none => .error ("view `" ++ view ++ "` has no column `" ++ col ++ "`")
          | some ty => do
              requireAssignable ty key.ty "resolve match key"
              if op = .word ∧ key.ty ≠ .text then
                .error "word-match resolve requires a Text column and key"
              else do
                let (names, st) ← pushAll prog { st with stack := rest } types
                return ([.resolve view (arguments.map (·.ir)) col op key.ir names], st)
  | .find rel keyn =>
      match prog.schema rel with
      | none => .error ("word `find` names undeclared relation `" ++ rel ++ "`")
      | some schema =>
          if schema.arity < keyn then
            .error ("word `find " ++ rel ++ " " ++ toString keyn ++ "` exceeds relation arity " ++
              toString schema.arity)
          else do
            let (keys, rest) ← stackPopN st.stack keyn
            let (args, st) ← lowerFind prog rel { st with stack := rest } keys schema.columns
            return ([.find rel args], st)
  | .fact w rel =>
      match prog.schema rel with
      | none => .error ("word names undeclared relation `" ++ rel ++ "`")
      | some schema => do
          let (values, rest) ← stackPopN st.stack schema.arity
          assignAll ("operation on `" ++ rel ++ "`") values schema.columns
          return ([w.op rel (values.map (·.ir))], { st with stack := rest })

/-- Words in turn, and the operations they come to. -/
def lowerEach (st : Lowering) : List Word → Except String (List BehaviorOp × Lowering)
  | [] => .ok ([], st)
  | w :: ws => do
      let (ops, st) ← lowerWord prog st w
      let (more, st) ← lowerEach st ws
      return (ops ++ more, st)

/-- The values a body starts with, bound and pushed from the bottom to the top. -/
def pushInitial (st : Lowering) : Types → Except String Lowering
  | [] => .ok st
  | (name, ty) :: rest => do
      let locals ← bindType prog st.locals name ty
      pushInitial { st with locals, stack := .value (.local_ name) ty :: st.stack } rest

/-- A body lowered; it leaves nothing on the stack. -/
def lowerWords (words : List Word) (initial : Types) : Except String (List BehaviorOp) := do
  let st ← pushInitial prog ⟨[("self", .ent)], [], 0⟩ initial
  let (ops, st) ← lowerEach prog st words
  if st.stack ≠ [] then
    .error ("concatenative body leaves " ++ toString st.stack.length ++ " value(s) on the stack")
  else return ops

end Lower

end Grmpl

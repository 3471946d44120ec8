import Grmpl.Lang.Effect
import Grmpl.Lang.Program
import Grmpl.Proc.Alloc
import Grmpl.Proc.Process

/-!
# Executing behaviors

A behavior runs against a snapshot, one operation after another: it binds locals, adds to
a patch, and draws from the capabilities it was granted. A lookup that finds nothing
aborts it without effect. What it drew goes into the patch last.

* `evalValue`, `evalBool`, `evalExpr`, `evalIntrinsic`: scalar expressions.
* `CapabilityFrame`, `CapabilityFrame.invoke`, `CapabilityFrame.seal`: the capabilities.
* `execOps`, `BehaviorIr.execute`: behaviors.
* `BehaviorOp.Does`, `execOps_keeps`: what one operation does, and what a run keeps.
-/

open OrdMap

namespace Grmpl

/-- How a behavior fails. -/
inductive BehaviorFault where
  | unbound (name : String)
  | rebound (name : String)
  | noRelation (name : String)
  | noView (name : String)
  | noColumn (view column : String)
  /-- A view that does not plan, or takes other arguments. -/
  | badView (message : String)
  | arithmetic (operation : String)
  | illTyped (intrinsic : String) (values : List Value)
  | notBool (v : Value)
  /-- Operands of a comparison of different types. -/
  | mixed
  | unordered
  | capability (message : String)
  /-- What the store or the evaluation of a view came to. -/
  | reading (f : Fault)
  deriving DecidableEq

/-- What may fail as a behavior. -/
abbrev Answer (α : Type) := Except BehaviorFault α

/-! ## Scalar expressions -/

/-- The arithmetic of finite floats; none where the result is not finite. -/
structure FloatOps where
  neg : FiniteF64 → Option FiniteF64
  ofInt : Int64 → Option FiniteF64
  add : FiniteF64 → FiniteF64 → Option FiniteF64
  sub : FiniteF64 → FiniteF64 → Option FiniteF64
  mul : FiniteF64 → FiniteF64 → Option FiniteF64
  div : FiniteF64 → FiniteF64 → Option FiniteF64
  rem : FiniteF64 → FiniteF64 → Option FiniteF64
  min : FiniteF64 → FiniteF64 → Option FiniteF64
  max : FiniteF64 → FiniteF64 → Option FiniteF64

/-- An integer that fits. -/
def checked (n : Int) : Option Int64 :=
  if -(2 : Int) ^ 63 ≤ n ∧ n < (2 : Int) ^ 63 then some (Int64.ofInt n) else none

/-- A binary integer intrinsic, none for a name that is none of them; a fault is a
result that is missing. -/
def intIntrinsic (name : String) (a b : Int64) : Option (Option Int64) :=
  match name with
  | "add" => some (checked (a.toInt + b.toInt))
  | "sub" => some (checked (a.toInt - b.toInt))
  | "mul" => some (checked (a.toInt * b.toInt))
  | "div" => some (if b = 0 then none else checked (a.toInt.tdiv b.toInt))
  | "rem" => some (if b = 0 ∨ (a = Int64.minValue ∧ b = -1) then none else checked (a.toInt.tmod b.toInt))
  | "min" => some (some (min a b))
  | "max" => some (some (max a b))
  | _ => none

def floatIntrinsic (fl : FloatOps) (name : String) (a b : FiniteF64) : Option (Option FiniteF64) :=
  match name with
  | "add" => some (fl.add a b)
  | "sub" => some (fl.sub a b)
  | "mul" => some (fl.mul a b)
  | "div" => some (if b.bits = 0 then none else fl.div a b)
  | "rem" => some (if b.bits = 0 then none else fl.rem a b)
  | "min" => some (fl.min a b)
  | "max" => some (fl.max a b)
  | _ => none

/-- A result, or an arithmetic fault. -/
def finite {α : Type} (name : String) (wrap : α → Value) : Option α → Answer Value
  | some a => .ok (wrap a)
  | none => .error (.arithmetic name)

/-- The intrinsics on values. -/
def evalIntrinsic (fl : FloatOps) (name : String) (values : List Value) : Answer Value :=
  match values with
  | [.int a] => match name with
      | "neg" => finite name .int (checked (-a.toInt))
      | "float" => finite name .float (fl.ofInt a)
      | _ => .error (.illTyped name values)
  | [.float a] => match name with
      | "neg" => finite name .float (fl.neg a)
      | _ => .error (.illTyped name values)
  | [.int a, .int b] => match intIntrinsic name a b with
      | some r => finite name .int r
      | none => .error (.illTyped name values)
  | [.float a, .float b] => match floatIntrinsic fl name a b with
      | some r => finite name .float r
      | none => .error (.illTyped name values)
  | _ => .error (.illTyped name values)

/-- An order on integers or on floats. -/
def orderedBy (test : Ordering → Bool) (a b : Value) : Answer Bool :=
  match a, b with
  | .int _, .int _ | .float _, .float _ => .ok (test (compare a b))
  | _, _ => .error .unordered

/-- Operands of one type compared. -/
def compareValues (op : CompareOp) (a b : Value) : Answer Bool :=
  if a.rank ≠ b.rank then .error .mixed
  else match op with
    | .eq => .ok (a = b)
    | .ne => .ok (a ≠ b)
    | .lt => orderedBy (· == .lt) a b
    | .le => orderedBy (· != .gt) a b
    | .gt => orderedBy (· == .gt) a b
    | .ge => orderedBy (· != .lt) a b

/-- The values of locals. -/
abbrev Locals := List (String × Value)

def Locals.get (locals : Locals) (name : String) : Option Value := (locals.find? fun e => e.1 = name).map (·.2)

/-- A local is bound once. -/
def bindLocal (locals : Locals) (name : String) (v : Value) : Answer Locals :=
  if (locals.get name).isSome then .error (.rebound name) else .ok ((name, v) :: locals)

/-- Locals bound in turn, as far as there are names and values. -/
def bindLocals : Locals → List (String × Value) → Answer Locals
  | locals, [] => .ok locals
  | locals, e :: rest => do bindLocals (← bindLocal locals e.1 e.2) rest

section Expressions

variable (fl : FloatOps) (locals : Locals)

mutual

def evalValue : ValueExpr → Answer Value
  | .local_ name => match locals.get name with
      | some v => .ok v
      | none => .error (.unbound name)
  | .literal v => .ok v
  | .intrinsic name arguments => do evalIntrinsic fl name (← evalValues arguments)

def evalValues : List ValueExpr → Answer (List Value)
  | [] => .ok []
  | e :: es => do
      let v ← evalValue e
      return v :: (← evalValues es)

end

/-- The second operand of a conjunction or disjunction is evaluated if the first does
not decide it. -/
def evalBool : BoolExpr → Answer Bool
  | .value e => do
      match ← evalValue fl locals e with
      | .bool b => return b
      | v => .error (.notBool v)
  | .compare op left right => do
      let l ← evalValue fl locals left
      let r ← evalValue fl locals right
      compareValues op l r
  | .not b => return !(← evalBool b)
  | .and left right => do if ← evalBool left then evalBool right else return false
  | .or left right => do if ← evalBool left then return true else evalBool right

def evalExpr : ExprIr → Answer Value
  | .value e => evalValue fl locals e
  | .bool b => return .bool (← evalBool fl locals b)

def evalExprs (es : List ExprIr) : Answer (List Value) := es.mapM (evalExpr fl locals)

end Expressions

/-! ## Capabilities -/

/-- A generator's row and how far it has been drawn from. -/
structure RngStream where
  rel : RelId
  owner : Entity
  original : Int64
  state : UInt64
  used : Bool
  deriving DecidableEq

/-- The next state of a generator, and its output. -/
def xorshift64star (state : UInt64) : UInt64 × UInt64 :=
  let x := state ^^^ (state >>> 12)
  let x := x ^^^ (x <<< 25)
  let x := x ^^^ (x >>> 27)
  (x, x * 0x2545F4914F6CDD1D)

example : xorshift64star 0x123456789 = (0x0246AEA6D582870C, 0xEAEF17C18B6EA85C) := rfl

/-- The first output that is not below a threshold, within so many tries. -/
def drawAtLeast (threshold : UInt64) : Nat → UInt64 → Option (UInt64 × UInt64)
  | 0, _ => none
  | tries + 1, state =>
      let next := xorshift64star state
      if threshold ≤ next.2 then some next else drawAtLeast threshold tries next.1

namespace RngStream

def row (s : RngStream) (v : Int64) : Fact := ⟨s.rel, ⟨[.ent s.owner, .int v]⟩⟩

def sealPatch (s : RngStream) (patch : Patch) : Patch :=
  if s.used then ((patch.expect (s.row s.original)).retract (s.row s.original)).assert
    (s.row s.state.toInt64)
  else patch

end RngStream

/-- What a behavior has drawn so far. -/
structure CapabilityFrame where
  allocators : List (String × Alloc × Int64)
  random : List (String × RngStream)
  scheduled : List Scheduled
  deriving DecidableEq

/-- A counter's one row, in its range or just past it. -/
def validateCounter (snap : Snapshot) (rel : RelId) (first last : Int64) : Answer Unit :=
  match snap.read rel with
  | .error e => .error (.reading (.error e))
  | .ok rows => match rows.filter fun e => e.2 ≠ 0 with
      | [(t, 1)] => match t.cells with
          | [.int next] =>
              let past := match checked (last.toInt + 1) with
                | some stop => decide (stop < next)
                | none => decide (last < next)
              if next < first ∨ past = true then
                .error (.capability ("allocator counter " ++ toString next ++
                  " is outside configured range " ++ toString first ++ "..=" ++ toString last))
              else .ok ()
          | _ => .error (.capability "allocator counter row must be `(next: Int)`")
      | _ => .error (.capability "allocator counter must contain exactly one weight-1 row")

/-- An owner's one row of a generator's relation. -/
def readRngState (snap : Snapshot) (rel : RelId) (owner : Entity) (capability : String) : Answer Int64 :=
  match snap.read rel with
  | .error e => .error (.reading (.error e))
  | .ok rows => match rows.filter fun e => e.2 ≠ 0 ∧ e.1.cells.head? = some (.ent owner) with
      | [(t, 1)] => match t.cells with
          | [.ent _, .int state] =>
              if state = 0 then
                .error (.capability ("random capability `" ++ capability ++ "` has absorbing zero state"))
              else .ok state
          | _ => .error (.capability ("random capability `" ++ capability ++ "` has malformed state row"))
      | _ => .error (.capability ("random capability `" ++ capability ++
          "` requires exactly one weight-1 state row"))

namespace CapabilityFrame

def new : CapabilityFrame := ⟨[], [], []⟩

section Invoke

variable (snap : Snapshot) (tries : Nat) (frame : CapabilityFrame) (capability : String)

/-- The allocator of a capability, read from the snapshot the first time. -/
def allocator (counter : RelId) (first last : Int64) : Answer (Alloc × Int64) :=
  match lookup capability frame.allocators with
  | some entry => .ok entry
  | none => do
      validateCounter snap counter first last
      match snap.read counter with
      | .error e => .error (.reading (.error e))
      | .ok rows =>
          let alloc := Alloc.fromRows counter rows first
          if alloc.present then return (alloc, last)
          else .error (.capability ("allocator `" ++ capability ++ "` is not seeded"))

/-- The generator of a capability, read from the snapshot the first time. -/
def stream (rel : RelId) (owner : Entity) : Answer RngStream :=
  match lookup capability frame.random with
  | some s => .ok s
  | none => do
      let original ← readRngState snap rel owner capability
      return ⟨rel, owner, original, original.toUInt64, false⟩

/-- A grant drawn from: the values it answers, and what has been drawn. -/
def draw (grant : ResolvedCapabilityGrant) (arguments : List Value) :
    Answer (List Value × CapabilityFrame) :=
  match grant with
  | .allocate counter first last =>
      if arguments ≠ [] then
        .error (.capability ("allocate capability `" ++ capability ++ "` takes no arguments"))
      else do
        let entry ← frame.allocator snap capability counter first last
        let (entity, alloc) := entry.1.fresh
        if entry.2.toUInt64 < entity.id then
          .error (.capability ("allocator `" ++ capability ++ "` exhausted inclusive range at " ++
            toString entry.2))
        else return ([.ent entity],
          { frame with allocators := put capability (alloc, entry.2) frame.allocators })
  | .random rel owner algorithm =>
      if algorithm ≠ "xorshift64star_v1" then
        .error (.capability ("unsupported random algorithm `" ++ algorithm ++ "`"))
      else match arguments with
        | [.int bound] =>
            if bound ≤ 0 then
              .error (.capability ("random bound must be in 1..=i64::MAX, found " ++ toString bound))
            else do
              let s ← frame.stream snap capability rel owner
              match drawAtLeast ((0 - bound.toUInt64) % bound.toUInt64) tries s.state with
              | none => .error (.reading .spin)
              | some (state, output) => return ([.int (output % bound.toUInt64).toInt64],
                  { frame with random := put capability { s with state, used := true } frame.random })
        | _ => .error (.capability ("random capability `" ++ capability ++ "` requires one Int bound"))
  | .schedule _ timers _ targets =>
      match arguments with
      | .text target :: .int due :: body =>
          if body.any (fun v => match v with | .text _ => false | _ => true) then
            .error (.capability ("schedule capability `" ++ capability ++
              "` body must contain only Text tokens"))
          else match targets target with
            | none => .error (.capability ("schedule capability `" ++ capability ++
                "` disallows target actor `" ++ target ++ "`"))
            | some (entity, inbox) => .ok ([],
                { frame with scheduled := frame.scheduled ++ [⟨timers, due, inbox, entity, ⟨body⟩⟩] })
      | _ => .error (.capability ("schedule capability `" ++ capability ++
          "` requires target Text, due Int, and Text body tokens"))

/-- A capability invoked, under the host's grants. -/
def invoke (grants : Option ResolvedGrantSet) (arguments : List Value) :
    Answer (List Value × CapabilityFrame) :=
  match grants.bind fun g => g.get capability with
  | none => .error (.capability ("capability `" ++ capability ++ "` has no resolved grant"))
  | some grant => frame.draw snap tries capability grant arguments

end Invoke

/-- What was drawn, in the patch: the allocators, the generators, the timers. -/
def sealPatch (frame : CapabilityFrame) (patch : Patch) : Patch :=
  let patch := frame.allocators.foldl (fun p e => e.2.1.sealPatch p) patch
  let patch := frame.random.foldl (fun p e => e.2.sealPatch p) patch
  frame.scheduled.foldl (fun p s => p.schedule s) patch

end CapabilityFrame

/-! ## Behaviors -/

/-- Unicode white space. -/
def isWhiteSpace (c : Char) : Bool :=
  let n := c.toNat
  (9 ≤ n && n ≤ 13) || n == 32 || n == 0x85 || n == 0xA0 || n == 0x1680 || (0x2000 ≤ n && n ≤ 0x200A) ||
    n == 0x2028 || n == 0x2029 || n == 0x202F || n == 0x205F || n == 0x3000

def splitWhitespace (s : String) : List (List Char) := (s.toList.splitOnP isWhiteSpace).filter (· ≠ [])

/-- A column against the value wanted, whole or as one of its words. -/
def columnMatch (op : MatchOp) (have_ want : Value) : Bool :=
  match op, have_, want with
  | .word, .text h, .text w => h == w || (splitWhitespace h).any (· == w.toList)
  | _, _, _ => have_ == want

/-- Where a behavior stands. -/
structure Running where
  locals : Locals
  patch : Patch
  frame : CapabilityFrame

section Execute

variable (fl : FloatOps) (prog : Program) (grants : Option ResolvedGrantSet) (tries : Nat)
  (selfEntity : Entity) (snap : Snapshot)

/-- A relation's rows in the snapshot. -/
def readRows (rel : RelId) : Answer Rows :=
  match snap.read rel with
  | .ok rows => .ok rows
  | .error e => .error (.reading (.error e))

/-- A view's rows in the snapshot. -/
def findRows (q : Query) : Answer Rows :=
  match evalSnapshot 0 q snap.store.dyn snap.edition with
  | .ok m => .ok m.rows
  | .error f => .error (.reading f)

def relation (name : String) : Answer RelId :=
  match prog.relId name with
  | some id => .ok id
  | none => .error (.noRelation name)

/-- A view with its arguments, as a query. -/
def viewQuery (view : String) (args : List Value) : Answer Query :=
  match prog.view view args with
  | .error message => .error (.badView message)
  | .ok query => .ok query

/-- Where a column is among those a view yields. -/
def viewColumn (view column : String) : Answer Nat :=
  match prog.viewYields view with
  | none => .error (.noView view)
  | some yields => match yields.findIdx? (· == column) with
      | none => .error (.noColumn view column)
      | some index => .ok index

/-- The least row of a query whose column matches a value. -/
def leastMatch (query : Query) (index : Nat) (op : MatchOp) (wanted : Value) : Answer (Option Tuple) := do
  let rows ← findRows snap query
  match rows.mapM fun e => (e.1.cells[index]?).map fun cell => (e.1, cell) with
  | none => .error (.reading .panic)
  | some cells => return ((cells.filter fun e => columnMatch op e.2 wanted).map (·.1)).min?

/-- The least row of a view whose column matches. -/
def resolveRow (locals : Locals) (view : String) (arguments : List ExprIr) (column : String) (op : MatchOp)
    (rhs : ExprIr) : Answer (Option Tuple) := do
  let query ← viewQuery prog view (← evalExprs fl locals arguments)
  let index ← viewColumn prog view column
  leastMatch snap query index op (← evalExpr fl locals rhs)

/-- The columns a lookup matches, with the values wanted there. -/
def findMatches (locals : Locals) : Nat → List FindArg → Answer (List (Nat × Value))
  | _, [] => .ok []
  | i, .bind _ :: args => findMatches locals (i + 1) args
  | i, .match_ e :: args | i, .matchBind e _ :: args => do
      let v ← evalExpr fl locals e
      return (i, v) :: (← findMatches locals (i + 1) args)

/-- The least row of a relation that has values at columns. -/
def leastRow (rel : RelId) (wanted : List (Nat × Value)) : Answer (Option Tuple) := do
  let rows ← readRows snap rel
  return ((rows.map (·.1)).filter fun t => wanted.all fun m => t.cells[m.1]? == some m.2).min?

/-- The least row of a relation that matches. -/
def findRow (locals : Locals) (name : String) (arguments : List FindArg) : Answer (Option Tuple) := do
  let rel ← relation prog name
  leastRow snap rel (← findMatches fl locals 0 arguments)

/-- The locals a lookup binds, with their columns. -/
def findBinds : Nat → List FindArg → List (String × Nat)
  | _, [] => []
  | i, .match_ _ :: args => findBinds (i + 1) args
  | i, .bind name :: args | i, .matchBind _ name :: args => (name, i) :: findBinds (i + 1) args

/-- Columns of a row bound in turn. -/
def bindColumns (row : Tuple) : Locals → List (String × Nat) → Answer Locals
  | locals, [] => .ok locals
  | locals, (name, i) :: rest => match row.cells[i]? with
      | none => .error (.reading .panic)
      | some v => do bindColumns row (← bindLocal locals name v) rest

def factOf (locals : Locals) (name : String) (arguments : List ExprIr) : Answer Fact := do
  let rel ← relation prog name
  return ⟨rel, ⟨← evalExprs fl locals arguments⟩⟩

mutual

/-- One operation; none where a lookup finds nothing. -/
def execOp (r : Running) : BehaviorOp → Answer (Option Running)
  | .resolve view arguments column op rhs destinations => do
      match ← resolveRow fl prog snap r.locals view arguments column op rhs with
      | none => return none
      | some row => return some { r with locals := ← bindLocals r.locals (destinations.zip row.cells) }
  | .find name arguments => do
      match ← findRow fl prog snap r.locals name arguments with
      | none => return none
      | some row => return some { r with locals := ← bindColumns row r.locals (findBinds 0 arguments) }
  | .letOp name value => do
      let v ← evalExpr fl r.locals value
      return some { r with locals := ← bindLocal r.locals name v }
  | .ifOp condition thenOps elseOps => do
      match ← (if ← evalBool fl r.locals condition then execOps r thenOps else execOps r elseOps) with
      | none => return none
      | some s => return some { s with locals := r.locals }
  | .expect name arguments => do
      return some { r with patch := r.patch.expect (← factOf fl prog r.locals name arguments) }
  | .assert name arguments => do
      return some { r with patch := r.patch.assert (← factOf fl prog r.locals name arguments) }
  | .retract name arguments => do
      return some { r with patch := r.patch.retract (← factOf fl prog r.locals name arguments) }
  | .emit name arguments => do
      let inbox ← relation prog name
      return some { r with patch := r.patch.emit ⟨inbox, ⟨← evalExprs fl r.locals arguments⟩⟩ }
  | .invokeCapability capability arguments destinations => do
      let args ← evalExprs fl r.locals arguments
      let (values, frame) ← r.frame.invoke snap tries capability grants args
      if values.length ≠ destinations.length then
        .error (.capability ("capability `" ++ capability ++ "` returned " ++ toString values.length ++
          " values for " ++ toString destinations.length ++ " destinations"))
      else return some { r with locals := ← bindLocals r.locals (destinations.zip values), frame }

def execOps (r : Running) : List BehaviorOp → Answer (Option Running)
  | [] => .ok (some r)
  | op :: ops => do
      match ← execOp r op with
      | none => return none
      | some s => execOps s ops

end

/-- The locals a behavior starts with: the message's, and who runs it. -/
def startLocals (initial : Locals) : Locals :=
  if (initial.get "self").isSome then initial else initial ++ [("self", .ent selfEntity)]

/-- A behavior's patch with what it drew, none where a lookup found nothing. -/
def BehaviorIr.execute (ops : List BehaviorOp) (initial : Locals) : Answer (Option Patch) := do
  match ← execOps fl prog grants tries snap ⟨startLocals selfEntity initial, Patch.new, .new⟩ ops with
  | none => return none
  | some r => return some (r.frame.sealPatch r.patch)

end Execute

/-! ## What running keeps -/

section Keeping

variable {fl : FloatOps} {prog : Program} {grants : Option ResolvedGrantSet} {tries : Nat}
  {selfEntity : Entity} {snap : Snapshot}

theorem relation_ok {name : String} {rel : RelId} (h : relation prog name = .ok rel) : prog.relId name = some rel := by
  unfold relation at h
  split at h
  · cases h
    assumption
  · cases h

theorem factOf_ok {locals : Locals} {name : String} {arguments : List ExprIr} {f : Fact}
    (h : factOf fl prog locals name arguments = .ok f) : prog.relId name = some f.rel := by
  obtain ⟨rel, hrel, h⟩ := except_bind_ok h
  obtain ⟨cells, -, h⟩ := except_bind_ok h
  cases h
  exact relation_ok hrel

variable (prog grants tries snap)

/-- What one operation may do to the patch and to what has been drawn; a branch does what
is in it. -/
inductive BehaviorOp.Does : BehaviorOp → Patch → CapabilityFrame → Patch → CapabilityFrame → Prop
  | expect {name : String} {args : List ExprIr} {p : Patch} {fr : CapabilityFrame} {f : Fact}
      (h : prog.relId name = some f.rel) : Does (.expect name args) p fr (p.expect f) fr
  | assert {name : String} {args : List ExprIr} {p : Patch} {fr : CapabilityFrame} {f : Fact}
      (h : prog.relId name = some f.rel) : Does (.assert name args) p fr (p.assert f) fr
  | retract {name : String} {args : List ExprIr} {p : Patch} {fr : CapabilityFrame} {f : Fact}
      (h : prog.relId name = some f.rel) : Does (.retract name args) p fr (p.retract f) fr
  | emit {name : String} {args : List ExprIr} {p : Patch} {fr : CapabilityFrame} {m : Message}
      (h : prog.relId name = some m.inbox) : Does (.emit name args) p fr (p.emit m) fr
  | invoke {capability : String} {args : List ExprIr} {destinations : List String} {p : Patch}
      {fr fr' : CapabilityFrame} {arguments values : List Value}
      (h : fr.invoke snap tries capability grants arguments = .ok (values, fr')) :
      Does (.invokeCapability capability args destinations) p fr p fr'

variable {prog grants tries snap} {P : Patch → CapabilityFrame → Prop}

/-- Each of some operations keeps a property, and each in their branches. -/
def KeptBy (prog : Program) (grants : Option ResolvedGrantSet) (tries : Nat) (snap : Snapshot)
    (P : Patch → CapabilityFrame → Prop) (ops : List BehaviorOp) : Prop :=
  ∀ o, Occurs o ops → ∀ {p fr p' fr'}, o.Does prog grants tries snap p fr p' fr' → P p fr → P p' fr'

theorem KeptBy.head {op : BehaviorOp} {ops : List BehaviorOp} (h : KeptBy prog grants tries snap P (op :: ops)) :
    KeptBy prog grants tries snap P [op] := fun o ho => h o (occurs_cons.2 (.inl ho))

theorem KeptBy.tail {op : BehaviorOp} {ops : List BehaviorOp} (h : KeptBy prog grants tries snap P (op :: ops)) :
    KeptBy prog grants tries snap P ops := fun o ho => h o (.tail op ho)

mutual

theorem execOp_keeps : ∀ (op : BehaviorOp) {r r' : Running}, KeptBy prog grants tries snap P [op] →
    P r.patch r.frame → execOp fl prog grants tries snap r op = .ok (some r') → P r'.patch r'.frame
  | .resolve .., r, r', _, hr, h => by
      rw [execOp] at h
      obtain ⟨row, -, h⟩ := except_bind_ok h
      cases row with
      | none => cases h
      | some row =>
        obtain ⟨locals, -, h⟩ := except_bind_ok h
        cases h
        exact hr
  | .find .., r, r', _, hr, h => by
      rw [execOp] at h
      obtain ⟨row, -, h⟩ := except_bind_ok h
      cases row with
      | none => cases h
      | some row =>
        obtain ⟨locals, -, h⟩ := except_bind_ok h
        cases h
        exact hr
  | .letOp .., r, r', _, hr, h => by
      rw [execOp] at h
      obtain ⟨v, -, h⟩ := except_bind_ok h
      obtain ⟨locals, -, h⟩ := except_bind_ok h
      cases h
      exact hr
  | .ifOp condition thenOps elseOps, r, r', hops, hr, h => by
      rw [execOp] at h
      obtain ⟨b, -, h⟩ := except_bind_ok h
      obtain ⟨out, hout, h⟩ := except_bind_ok h
      cases out with
      | none => cases h
      | some s =>
        cases h
        have hs : P s.patch s.frame := by
          split at hout
          · exact execOps_keeps thenOps (fun o ho => hops o (.inThen _ _ _ ho)) hr hout
          · exact execOps_keeps elseOps (fun o ho => hops o (.inElse _ _ _ ho)) hr hout
        exact hs
  | .expect name arguments, r, r', hops, hr, h => by
      rw [execOp] at h
      obtain ⟨f, hf, h⟩ := except_bind_ok h
      cases h
      exact hops _ (.head []) (.expect (factOf_ok hf)) hr
  | .assert name arguments, r, r', hops, hr, h => by
      rw [execOp] at h
      obtain ⟨f, hf, h⟩ := except_bind_ok h
      cases h
      exact hops _ (.head []) (.assert (factOf_ok hf)) hr
  | .retract name arguments, r, r', hops, hr, h => by
      rw [execOp] at h
      obtain ⟨f, hf, h⟩ := except_bind_ok h
      cases h
      exact hops _ (.head []) (.retract (factOf_ok hf)) hr
  | .emit name arguments, r, r', hops, hr, h => by
      rw [execOp] at h
      obtain ⟨inbox, hinbox, h⟩ := except_bind_ok h
      obtain ⟨cells, -, h⟩ := except_bind_ok h
      cases h
      exact hops _ (.head []) (.emit (relation_ok hinbox)) hr
  | .invokeCapability .., r, r', hops, hr, h => by
      rw [execOp] at h
      obtain ⟨args, -, h⟩ := except_bind_ok h
      obtain ⟨⟨values, frame⟩, hinvoke, h⟩ := except_bind_ok h
      dsimp only at h
      split_ifs at h
      obtain ⟨locals, -, h⟩ := except_bind_ok h
      cases h
      exact hops _ (.head []) (.invoke hinvoke) hr

/-- **What each operation keeps, running them in turn keeps**, whichever branches it takes. -/
theorem execOps_keeps : ∀ (ops : List BehaviorOp) {r r' : Running}, KeptBy prog grants tries snap P ops →
    P r.patch r.frame → execOps fl prog grants tries snap r ops = .ok (some r') → P r'.patch r'.frame
  | [], r, r', _, hr, h => by
      rw [execOps] at h
      cases h
      exact hr
  | op :: ops, r, r', hops, hr, h => by
      rw [execOps] at h
      obtain ⟨mid, hop, h⟩ := except_bind_ok h
      cases mid with
      | none => cases h
      | some s => exact execOps_keeps ops hops.tail (execOp_keeps op hops.head hr hop) h

end

end Keeping

end Grmpl

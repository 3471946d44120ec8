import Grmpl.Lang.PackageLoad
import Grmpl.Lang.QueryIr

/-!
# Compiled programs and the plans of their views

A compiled program has relations with their columns, and views: a view's body is a list
of atoms, planned left to right into joins, and what it yields is projected and made a
set, or folded. A materialized view is read through its stored copy, which holds the
view's open form: its parameters left as variables and yielded first.

* `Arg`, `Atom`, `AggYield`, `ViewDef`, `Program`: what the compiler keeps of a source.
* `Plan`, `Program.planAtom`, `Program.planView`: the planner.
* `Program.viewIr`, `Program.view`: a view as a plan and as a query.
* `Program.viewVarTypes`, `Program.viewOutputTypes`, `Program.checkView`: the checks.
-/

namespace Grmpl

/-- An argument of a view's atom: a variable or a literal. -/
inductive Arg where
  | var (name : String)
  | str (s : String)
  | int (n : Int64)
  | float (x : FiniteF64)
  | bool (b : Bool)
  deriving DecidableEq

/-- An atom of a view's body; an inherit atom binds its third argument to what its first
inherits. -/
structure Atom where
  rel : String
  args : List Arg
  inherit : Bool
  deriving DecidableEq

inductive AggFunc where
  | count
  | sum
  | min
  | max
  deriving DecidableEq

/-- The aggregate of a view's yield clause; a count names no column. -/
structure AggYield where
  func : AggFunc
  col : Option String
  deriving DecidableEq

structure ViewDef where
  params : List String
  atoms : List Atom
  yields : List String
  agg : Option AggYield
  materialized : Bool
  /-- The relation a materialized view is stored in. -/
  backing : Option RelId
  deriving DecidableEq

/-- A compiled program, as far as its views and behaviors read it. -/
structure Program where
  rels : List RelInfo
  views : List (String × ViewDef)
  entities : List (String × Entity)
  contexts : List String
  /-- The cursor relation of materialized views, if there are any. -/
  viewCursor : Option RelId

def RelInfo.arity (r : RelInfo) : Nat := r.columns.length

namespace Program

variable (prog : Program)

def rel (name : String) : Option RelInfo := prog.rels.find? fun r => r.name = name

def relId (name : String) : Option RelId := (prog.rel name).map (·.id)

def schema (name : String) : Option Schema := (prog.rel name).map fun r => ⟨r.columns⟩

def viewDef (name : String) : Option ViewDef := (prog.views.find? fun v => v.1 = name).map (·.2)

def viewYields (name : String) : Option (List String) := (prog.viewDef name).map (·.yields)

def entity (name : String) : Option Entity := (prog.entities.find? fun e => e.1 = name).map (·.2)

end Program

/-- An aggregate view's fold, over its grouping columns and the column after them. -/
def viewReduce (v : ViewDef) (n : Nat) : Option (List Nat × Agg) :=
  v.agg.map fun a => (List.range n, match a.func with
    | .count => .count
    | .sum => .sum n
    | .min => .min n
    | .max => .max n)

/-! ## Planning -/

/-- The columns variables were first bound at. -/
abbrev VarCols := List (String × Nat)

def VarCols.col (cols : VarCols) (name : String) : Option Nat := (cols.find? fun e => e.1 = name).map (·.2)

/-- Binds a variable that has no column yet. -/
def VarCols.bind (cols : VarCols) (name : String) (col : Nat) : VarCols :=
  if (cols.col name).isSome then cols else cols ++ [(name, col)]

/-- The values of parameters; of two that share a name the later counts. -/
abbrev Params := List (String × Value)

def Params.value (params : Params) (name : String) : Option Value :=
  (params.reverse.find? fun p => p.1 = name).map (·.2)

/-- A plan of some atoms: its columns, and where variables are among them. -/
structure Plan where
  query : QueryIr
  width : Nat
  varcol : VarCols

/-- What an atom alone says of its rows: its comparisons, and the first column of each
variable. -/
structure AtomPlan where
  preds : List PredExpr
  localFirst : VarCols

namespace Program

variable (prog : Program)

/-- One argument of a plain atom, at its column. -/
def planArg (params : Params) (i : Nat) (plan : AtomPlan) : Arg → AtomPlan
  | .var name =>
      match prog.entity name with
      | some entity => { plan with preds := plan.preds ++ [.eq (.col i) (.lit (.ent entity))] }
      | none =>
          let pinned := match params.value name with
            | some v => plan.preds ++ [.eq (.col i) (.lit v)]
            | none => plan.preds
          match plan.localFirst.col name with
          | some first => { plan with preds := pinned ++ [.eq (.col first) (.col i)] }
          | none => ⟨pinned, plan.localFirst ++ [(name, i)]⟩
  | .str s => { plan with preds := plan.preds ++ [.eq (.col i) (.lit (.text s))] }
  | .int n => { plan with preds := plan.preds ++ [.eq (.col i) (.lit (.int n))] }
  | .float x => { plan with preds := plan.preds ++ [.eq (.col i) (.lit (.float x))] }
  | .bool b => { plan with preds := plan.preds ++ [.eq (.col i) (.lit (.bool b))] }

/-- The arguments of a plain atom in turn. -/
def planArgs (params : Params) : Nat → AtomPlan → List Arg → AtomPlan
  | _, plan, [] => plan
  | i, plan, arg :: args => planArgs params (i + 1) (prog.planArg params i plan arg) args

end Program

/-- A relation with what an atom says of its rows. -/
def AtomPlan.query (plan : AtomPlan) (id : RelId) : QueryIr :=
  if plan.preds.isEmpty then .rel id else .filter (.rel id) (.and plan.preds)

/-- Columns bound in turn, each moved to the right. -/
def VarCols.bindAll (cols : VarCols) (width : Nat) (more : VarCols) : VarCols :=
  more.foldl (fun cols e => cols.bind e.1 (width + e.2)) cols

/-- A plan joined with an atom on the variables they share. -/
def Plan.join (prev : Plan) (atom : AtomPlan) (query : QueryIr) (arity : Nat) : Plan :=
  let shared := atom.localFirst.filterMap fun e => (prev.varcol.col e.1).map (·, e.2)
  ⟨.join prev.query query (shared.map (·.1)) (shared.map (·.2)), prev.width + arity,
    prev.varcol.bindAll prev.width atom.localFirst⟩

namespace Program

variable (prog : Program)

/-- An inherit atom over the atoms before it: their rows extended with the inherited
value, and that value compared or bound. -/
def planInherit (name : String) (atom : Atom) (ctx : RelId) (prev : Plan) (params : Params) :
    Except String Plan :=
  let here := "view `" ++ name ++ "`: `inherit " ++ atom.rel ++ "`"
  if atom.rel ∉ prog.contexts then
    .error (here ++ " names a relation that is not declared with `context`")
  else match atom.args with
    | [entity, key, value] =>
        match (match entity with | .var v => prev.varcol.col v | _ => none) with
        | none => .error (here ++ ": its entity must be a variable bound by an earlier atom")
        | some col =>
            match key with
            | .str key =>
                let q := QueryIr.inherit prev.query col (.text key) ctx
                let filtered := fun e : RowExpr =>
                  (⟨.filter q (.eq (.col prev.width) e), prev.width + 1, prev.varcol⟩ : Plan)
                match value with
                | .var v =>
                    match prog.entity v with
                    | some e => .ok (filtered (.lit (.ent e)))
                    | none => match params.value v with
                        | some val => .ok (filtered (.lit val))
                        | none => match prev.varcol.col v with
                            | some c => .ok (filtered (.col c))
                            | none => .ok ⟨q, prev.width + 1, prev.varcol ++ [(v, prev.width)]⟩
                | .str t => .ok (filtered (.lit (.text t)))
                | .int n => .ok (filtered (.lit (.int n)))
                | .float x => .ok (filtered (.lit (.float x)))
                | .bool b => .ok (filtered (.lit (.bool b)))
            | _ => .error (here ++ ": its key must be a string literal")
    | _ => .error (here ++ " takes (entity, \"key\", value)")

/-- One atom after those planned so far. -/
def planAtom (name : String) (params : Params) (acc : Option Plan) (atom : Atom) : Except String Plan :=
  match prog.rel atom.rel with
  | none => .error ("view `" ++ name ++ "` uses undeclared relation `" ++ atom.rel ++ "`")
  | some info =>
      if atom.inherit then
        match acc with
        | none => .error ("view `" ++ name ++ "`: `inherit " ++ atom.rel ++
            "` needs an earlier atom to bind its entity")
        | some prev => prog.planInherit name atom info.id prev params
      else if atom.args.length ≠ info.arity then
        .error ("`" ++ atom.rel ++ "` has arity " ++ toString info.arity ++ " but was used with " ++
          toString atom.args.length ++ " args")
      else
        let plan := prog.planArgs params 0 ⟨[], []⟩ atom.args
        let q := plan.query info.id
        match acc with
        | none => .ok ⟨q, info.arity, VarCols.bindAll [] 0 plan.localFirst⟩
        | some prev => .ok (prev.join plan q info.arity)

/-- The atoms of a body, left to right. -/
def planAtoms (name : String) (params : Params) : Option Plan → List Atom → Except String (Option Plan)
  | acc, [] => .ok acc
  | acc, atom :: atoms => do
      let plan ← prog.planAtom name params acc atom
      planAtoms name params (some plan) atoms

/-- The columns of the variables a view yields. -/
def projection (name : String) (varcol : VarCols) (yields : List String) : Except String (List Nat) :=
  yields.mapM fun y => match varcol.col y with
    | some c => .ok c
    | none => .error ("view `" ++ name ++ "` yields unbound variable `" ++ y ++ "`")

/-- A view's body planned, its parameters given or left open, and its yields projected:
as they are derived, or finished into the view itself. -/
def planView (name : String) (params : Params) (yields : List String) (finish : Bool) :
    Except String QueryIr :=
  match prog.viewDef name with
  | none => .error ("no view `" ++ name ++ "`")
  | some v => do
      match ← prog.planAtoms name params none v.atoms with
      | none => .error ("view `" ++ name ++ "` has no atoms")
      | some base =>
          let cols ← projection name base.varcol (yields ++ (v.agg.bind (·.col)).toList)
          let linear := QueryIr.project base.query cols
          if finish then
            match viewReduce v yields.length with
            | none => return .distinct linear
            | some (key, agg) => return .reduce (.distinct linear) key agg
          else return linear

/-- A view as a plan, its parameters bound to arguments. -/
def viewIr (name : String) (args : List Value) : Except String QueryIr :=
  match prog.viewDef name with
  | none => .error ("no view `" ++ name ++ "`")
  | some v =>
      if args.length ≠ v.params.length then
        .error ("view `" ++ name ++ "` takes " ++ toString v.params.length ++ " argument(s), got " ++
          toString args.length)
      else do
        let plan ← prog.planView name (v.params.zip args) v.yields true
        match v.backing, prog.viewCursor with
        | some into, some cursorRel =>
            return .materialized plan into args cursorRel ⟨UInt64.ofNat into⟩ (viewReduce v v.yields.length)
        | _, _ => return plan

/-- A view as a query. -/
def view (name : String) (args : List Value) : Except String Query := (prog.viewIr name args).map (·.lower)

/-! ## Checks -/

/-- Types of variables, that of the first occurrence kept. -/
def typeArgs (types : List (String × Ty)) : List (Arg × Column) → List (String × Ty)
  | [] => types
  | (.var v, column) :: rest =>
      if (prog.entity v).isSome ∨ types.any (fun e => e.1 = v) then typeArgs types rest
      else typeArgs (types ++ [(v, column.ty)]) rest
  | _ :: rest => typeArgs types rest

/-- What an atom adds to the types of variables: an inherited value is of any type. -/
def typeAtom (name : String) (types : List (String × Ty)) (atom : Atom) : Except String (List (String × Ty)) :=
  match prog.rel atom.rel with
  | none => .error ("view `" ++ name ++ "` uses undeclared relation `" ++ atom.rel ++ "`")
  | some info =>
      if atom.inherit then
        match atom.args[2]? with
        | some (Arg.var v) =>
            if (prog.entity v).isSome ∨ types.any (fun e => e.1 = v) then .ok types
            else .ok (types ++ [(v, .any)])
        | _ => .ok types
      else .ok (prog.typeArgs types (atom.args.zip info.columns))

def typeAtoms (name : String) : List (String × Ty) → List Atom → Except String (List (String × Ty))
  | types, [] => .ok types
  | types, atom :: atoms => do typeAtoms name (← prog.typeAtom name types atom) atoms

/-- The type of each variable a view's body binds: its first occurrence's. -/
def viewVarTypes (name : String) : Except String (List (String × Ty)) :=
  match prog.viewDef name with
  | none => .error ("no view `" ++ name ++ "`")
  | some v => prog.typeAtoms name [] v.atoms

def typeOf (types : List (String × Ty)) (name : String) : Option Ty :=
  (types.find? fun e => e.1 = name).map (·.2)

def viewOutputTypes (name : String) : Except String (List Ty) :=
  match prog.viewDef name with
  | none => .error ("no view `" ++ name ++ "`")
  | some v => do
      let types ← prog.viewVarTypes name
      v.yields.mapM fun y => match typeOf types y with
        | some ty => .ok ty
        | none => .error ("view `" ++ name ++ "` yields unbound `" ++ y ++ "`")

end Program

end Grmpl

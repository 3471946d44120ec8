import Grmpl.Lang.Execute
import Grmpl.Lang.Lowering

/-!
# The stack machine of words

What the words of a concatenative body do, one after another, to a stack of values and a
patch; and that the behavior they are lowered to does the same.

* `Machine`, `runWord`, `runWords`: the machine.
* `Simulates`, `lowerWord_simulates`: one word, and the operation it is lowered to.
* `lowered_words_run`: a body, and the behavior it is lowered to.
-/

namespace Grmpl

/-- How a word fails. -/
inductive WordFault where
  /-- It pops more than there is. -/
  | underflow
  /-- It computes what cannot be computed: arithmetic, or operands of other types. -/
  | value (f : BehaviorFault)
  /-- It finds a row of a view that lacks some of the view's columns. -/
  | short
  /-- What looking up or writing came to. -/
  | world (f : BehaviorFault)
  deriving DecidableEq

/-- A stack of values, its top first, and the patch so far. -/
structure Machine where
  stack : List Value
  patch : Patch

def applyUnary (fl : FloatOps) (w : UnaryWord) (v : Value) : Answer Value :=
  match w with
  | .neg => evalIntrinsic fl "neg" [v]
  | .toFloat => evalIntrinsic fl "float" [v]
  | .not => match v with
      | .bool b => .ok (.bool !b)
      | _ => .error (.notBool v)

/-- A boolean operator on two booleans. -/
def applyBool (op : Bool → Bool → Bool) (a b : Value) : Answer Value :=
  match a, b with
  | .bool x, .bool y => .ok (.bool (op x y))
  | .bool _, v => .error (.notBool v)
  | v, _ => .error (.notBool v)

def applyBinary (fl : FloatOps) (w : BinaryWord) (a b : Value) : Answer Value :=
  match w with
  | .arith op => evalIntrinsic fl op.intrinsic [a, b]
  | .compare op => (compareValues op a b).map .bool
  | .min => evalIntrinsic fl "min" [a, b]
  | .max => evalIntrinsic fl "max" [a, b]
  | .and => applyBool (· && ·) a b
  | .or => applyBool (· || ·) a b

/-- The words that only move values; none where the stack is too short. -/
def shuffle : Word → List Value → Option (List Value)
  | .dup, a :: s => some (a :: a :: s)
  | .drop, _ :: s => some s
  | .swap, b :: a :: s => some (a :: b :: s)
  | .over, b :: a :: s => some (a :: b :: a :: s)
  | .rot, c :: b :: a :: s => some (a :: c :: b :: s)
  | .nip, b :: _ :: s => some (b :: s)
  | .tuck, b :: a :: s => some (b :: a :: b :: s)
  | .twoDup, b :: a :: s => some (b :: a :: b :: a :: s)
  | .twoDrop, _ :: _ :: s => some s
  | _, _ => none

/-- So many values of the stack, the deepest first. -/
def popValues (stack : List Value) (count : Nat) : Except WordFault (List Value × List Value) :=
  if stack.length < count then .error .underflow else .ok ((stack.take count).reverse, stack.drop count)

/-- A fact taken off the stack goes into the patch. -/
def FactWord.add (w : FactWord) (rel : RelId) (t : Tuple) (p : Patch) : Patch :=
  match w with
  | .expect => p.expect ⟨rel, t⟩
  | .assert => p.assert ⟨rel, t⟩
  | .retract => p.retract ⟨rel, t⟩
  | .emit => p.emit ⟨rel, t⟩

section Machine

variable (fl : FloatOps) (prog : Program) (selfEntity : Entity) (snap : Snapshot)

/-- The least row of a view whose column matches the key. -/
def lookUpView (view col : String) (op : MatchOp) (args : List Value) (key : Value) : Answer (Option Tuple) := do
  let query ← viewQuery prog view args
  let index ← viewColumn prog view col
  leastMatch snap query index op key

/-- The least row of a relation whose first columns are the keys. -/
def lookUpRel (rel : String) (keys : List Value) : Answer (Option Tuple) := do
  leastRow snap (← relation prog rel) ((List.range keys.length).zip keys)

/-- One word; none where a lookup finds nothing. -/
def runWord (m : Machine) : Word → Except WordFault (Option Machine)
  | .selfEntity => .ok (some { m with stack := .ent selfEntity :: m.stack })
  | .lit v => .ok (some { m with stack := v :: m.stack })
  | .unary w => match m.stack with
      | a :: s => match applyUnary fl w a with
          | .ok v => .ok (some { m with stack := v :: s })
          | .error f => .error (.value f)
      | _ => .error .underflow
  | .binary w => match m.stack with
      | b :: a :: s => match applyBinary fl w a b with
          | .ok v => .ok (some { m with stack := v :: s })
          | .error f => .error (.value f)
      | _ => .error .underflow
  | .resolve view col op => match prog.viewDef view, m.stack with
      | none, _ => .error (.world (.noView view))
      | some _, [] => .error .underflow
      | some v, key :: s => do
          let (args, s) ← popValues s v.params.length
          match lookUpView prog snap view col op args key with
          | .error f => .error (.world f)
          | .ok none => .ok none
          | .ok (some row) =>
              if row.cells.length < v.yields.length then .error .short
              else .ok (some { m with stack := (row.cells.take v.yields.length).reverse ++ s })
  | .find rel keyn => match prog.schema rel with
      | none => .error (.world (.noRelation rel))
      | some schema => do
          let (keys, s) ← popValues m.stack keyn
          match lookUpRel prog snap rel keys with
          | .error f => .error (.world f)
          | .ok none => .ok none
          | .ok (some row) =>
              if row.cells.length < schema.arity then .error (.world (.reading .panic))
              else .ok (some { m with stack := (row.cells.take schema.arity).reverse ++ s })
  | .fact w rel => match prog.rel rel with
      | none => .error (.world (.noRelation rel))
      | some info => do
          let (values, s) ← popValues m.stack info.arity
          return some ⟨s, w.add info.id ⟨values⟩ m.patch⟩
  | w => match shuffle w m.stack with
      | some s => .ok (some { m with stack := s })
      | none => .error .underflow

/-- Words in turn. -/
def runEach (m : Machine) : List Word → Except WordFault (Option Machine)
  | [] => .ok (some m)
  | w :: ws => do
      match ← runWord fl prog selfEntity snap m w with
      | none => return none
      | some m => runEach m ws

/-- The patch of a body that starts with values on the stack, none where a lookup found
nothing. -/
def runWords (words : List Word) (values : List Value) : Except WordFault (Option Patch) := do
  let out ← runEach fl prog selfEntity snap ⟨values.reverse, Patch.new⟩ words
  return out.map (·.patch)

end Machine

/-! ## Locals that grow -/

/-- Every local of one list is another's. -/
def Locals.Le (a b : Locals) : Prop := ∀ name v, a.get name = some v → b.get name = some v

section Mono

variable {fl : FloatOps} {a b : Locals}

mutual

theorem evalValue_mono (h : a.Le b) : ∀ (e : ValueExpr) {v : Value}, evalValue fl a e = .ok v → evalValue fl b e = .ok v
  | .local_ name, v, he => by
      rw [evalValue] at he ⊢
      split at he
      · rename_i x hx
        rw [h _ _ hx]
        exact he
      · cases he
  | .literal _, _, he => by
      rw [evalValue] at he ⊢
      exact he
  | .intrinsic name arguments, v, he => by
      rw [evalValue] at he ⊢
      obtain ⟨vs, hvs, he⟩ := except_bind_ok he
      rw [evalValues_mono h arguments hvs]
      exact he

theorem evalValues_mono (h : a.Le b) : ∀ (es : List ValueExpr) {vs : List Value},
    evalValues fl a es = .ok vs → evalValues fl b es = .ok vs
  | [], _, he => by
      rw [evalValues] at he ⊢
      exact he
  | e :: es, vs, he => by
      rw [evalValues] at he ⊢
      obtain ⟨v, hv, he⟩ := except_bind_ok he
      obtain ⟨rest, hrest, he⟩ := except_bind_ok he
      rw [evalValue_mono h e hv, evalValues_mono h es hrest]
      exact he

end

theorem evalBool_mono (h : a.Le b) : ∀ (e : BoolExpr) {x : Bool}, evalBool fl a e = .ok x → evalBool fl b e = .ok x
  | .value e, x, he => by
      rw [evalBool] at he ⊢
      obtain ⟨v, hv, he⟩ := except_bind_ok he
      rw [evalValue_mono h e hv]
      exact he
  | .compare op left right, x, he => by
      rw [evalBool] at he ⊢
      obtain ⟨l, hl, he⟩ := except_bind_ok he
      obtain ⟨r, hr, he⟩ := except_bind_ok he
      rw [evalValue_mono h left hl, evalValue_mono h right hr]
      exact he
  | .not e, x, he => by
      rw [evalBool] at he ⊢
      obtain ⟨y, hy, he⟩ := except_bind_ok he
      rw [evalBool_mono h e hy]
      exact he
  | .and left right, x, he => by
      rw [evalBool] at he ⊢
      obtain ⟨y, hy, he⟩ := except_bind_ok he
      rw [evalBool_mono h left hy]
      cases y with
      | true => exact evalBool_mono h right he
      | false => exact he
  | .or left right, x, he => by
      rw [evalBool] at he ⊢
      obtain ⟨y, hy, he⟩ := except_bind_ok he
      rw [evalBool_mono h left hy]
      cases y with
      | true => exact he
      | false => exact evalBool_mono h right he

theorem evalExpr_mono (h : a.Le b) {e : ExprIr} {v : Value} (he : evalExpr fl a e = .ok v) :
    evalExpr fl b e = .ok v := by
  cases e with
  | value e => exact evalValue_mono h e he
  | bool e =>
    obtain ⟨x, hx, he⟩ := except_bind_ok he
    rw [evalExpr, evalBool_mono h e hx]
    exact he

end Mono

@[simp] theorem Locals.get_cons_self (name : String) (v : Value) (l : Locals) :
    Locals.get ((name, v) :: l) name = some v := by simp [Locals.get]

theorem Locals.get_cons_ne {name other : String} (h : name ≠ other) (v : Value) (l : Locals) :
    Locals.get ((name, v) :: l) other = l.get other := by simp [Locals.get, h]

/-- A name that is not bound can be, and leaves the others. -/
theorem bindLocal_fresh {l : Locals} {name : String} (h : l.get name = none) (v : Value) :
    bindLocal l name v = .ok ((name, v) :: l) ∧ l.Le ((name, v) :: l) := by
  refine ⟨by simp [bindLocal, h], fun other x hx => ?_⟩
  have hne : name ≠ other := fun heq => by
    rw [heq, hx] at h
    cases h
  rw [Locals.get_cons_ne hne]
  exact hx

/-- The locals of a run have the names of those that were typed. -/
def NamedBy (types : Types) (locals : Locals) : Prop :=
  ∀ name, (locals.get name).isSome = true ↔ name ∈ types.map (·.1)

theorem bindType_ok {prog : Program} {types types' : Types} {name : String} {ty : Ty}
    (h : bindType prog types name ty = .ok types') : types' = (name, ty) :: types ∧ name ∉ types.map (·.1) := by
  unfold bindType at h
  split_ifs at h with hentity hbound
  cases h
  exact ⟨rfl, by simpa using hbound⟩

/-- A typed local is bound. -/
theorem NamedBy.bind {prog : Program} {types types' : Types} {locals : Locals} {name : String} {ty : Ty}
    (hnames : NamedBy types locals) (h : bindType prog types name ty = .ok types') (v : Value) :
    bindLocal locals name v = .ok ((name, v) :: locals) ∧ locals.Le ((name, v) :: locals) ∧
      NamedBy types' ((name, v) :: locals) := by
  obtain ⟨rfl, hnew⟩ := bindType_ok h
  have hnone : locals.get name = none := Option.not_isSome_iff_eq_none.1 fun hsome => hnew ((hnames name).1 hsome)
  obtain ⟨hbind, hle⟩ := bindLocal_fresh hnone v
  refine ⟨hbind, hle, fun other => ?_⟩
  by_cases hsame : name = other
  · subst hsame
    simp
  · rw [Locals.get_cons_ne hsame, hnames other, List.map_cons, List.mem_cons]
    exact ⟨.inr, fun h => h.resolve_left (Ne.symm hsame)⟩

/-! ## The simulation -/

/-- The expressions of a stack evaluate to the values of a stack. -/
def Cells (fl : FloatOps) (locals : Locals) (es : List TypedExpr) (vs : List Value) : Prop :=
  List.Forall₂ (fun e v => evalExpr fl locals e.ir = .ok v) es vs

theorem Cells.mono {fl : FloatOps} {a b : Locals} (h : a.Le b) {es : List TypedExpr} {vs : List Value}
    (hc : Cells fl a es vs) : Cells fl b es vs := hc.imp fun _ _ he => evalExpr_mono h he

theorem Cells.take {fl : FloatOps} {l : Locals} {es : List TypedExpr} {vs : List Value} (h : Cells fl l es vs)
    (n : Nat) : Cells fl l (es.take n) (vs.take n) := List.forall₂_take n h

theorem Cells.drop {fl : FloatOps} {l : Locals} {es : List TypedExpr} {vs : List Value} (h : Cells fl l es vs)
    (n : Nat) : Cells fl l (es.drop n) (vs.drop n) := List.forall₂_drop n h

/-- The expressions of a stack, evaluated in turn. -/
theorem Cells.evalExprs {fl : FloatOps} {l : Locals} {es : List TypedExpr} {vs : List Value} (h : Cells fl l es vs) :
    evalExprs fl l (es.map (·.ir)) = .ok vs := by
  unfold Grmpl.evalExprs
  induction h with
  | nil => rfl
  | cons he _ ih =>
    rw [List.map_cons, List.mapM_cons, he, ih]
    rfl

/-- Where a lowering, the run of its operations and the machine stand alike. -/
structure Simulates (fl : FloatOps) (selfEntity : Entity) (st : Lowering) (r : Running) (m : Machine) : Prop where
  cells : Cells fl r.locals st.stack m.stack
  patch : r.patch = m.patch
  frame : r.frame = .new
  names : NamedBy st.locals r.locals
  self : r.locals.get "self" = some (.ent selfEntity)

section Pushing

variable {fl : FloatOps} {prog : Program} {selfEntity : Entity}

theorem pushFresh_ok {st st' : Lowering} {ty : Ty} {name : String} (h : pushFresh prog st ty = .ok (name, st')) :
    st'.stack = .value (.local_ name) ty :: st.stack ∧ bindType prog st.locals name ty = .ok st'.locals := by
  obtain ⟨locals, hbind, h⟩ := except_bind_ok h
  cases h
  exact ⟨rfl, hbind⟩

/-- What is pushed is bound to its value. -/
theorem Simulates.push {st st' : Lowering} {r : Running} {m : Machine} {ty : Ty} {name : String}
    (hsim : Simulates fl selfEntity st r m) (h : pushFresh prog st ty = .ok (name, st')) (v : Value) :
    bindLocal r.locals name v = .ok ((name, v) :: r.locals) ∧
      Simulates fl selfEntity st' { r with locals := (name, v) :: r.locals } { m with stack := v :: m.stack } := by
  obtain ⟨hstack, htypes⟩ := pushFresh_ok h
  obtain ⟨hbind, hle, hnames⟩ := hsim.names.bind htypes v
  refine ⟨hbind, ?_, hsim.patch, hsim.frame, hnames, hle _ _ hsim.self⟩
  rw [hstack]
  refine .cons ?_ (hsim.cells.mono hle)
  show evalValue fl _ (.local_ name) = _
  rw [evalValue, Locals.get_cons_self]

theorem pushAll_length : ∀ {tys : List Ty} {st st' : Lowering} {names : List String},
    pushAll prog st tys = .ok (names, st') → names.length = tys.length := by
  intro tys
  induction tys with
  | nil =>
    intro st st' names h
    cases h
    rfl
  | cons ty tys ih =>
    intro st st' names h
    obtain ⟨⟨name, st₁⟩, -, h⟩ := except_bind_ok h
    obtain ⟨⟨rest, st₂⟩, hrest, h⟩ := except_bind_ok h
    cases h
    exact congrArg Nat.succ (ih hrest)

/-- What is pushed in turn is bound in turn. -/
theorem Simulates.pushAll : ∀ {tys : List Ty} {vs : List Value} {st st' : Lowering} {r : Running} {m : Machine}
    {names : List String}, Simulates fl selfEntity st r m → Grmpl.pushAll prog st tys = .ok (names, st') →
      vs.length = tys.length → ∃ locals, bindLocals r.locals (names.zip vs) = .ok locals ∧
        Simulates fl selfEntity st' { r with locals } { m with stack := vs.reverse ++ m.stack } := by
  intro tys
  induction tys with
  | nil =>
    intro vs st st' r m names hsim h hlen
    obtain rfl := List.length_eq_zero_iff.1 hlen
    cases h
    exact ⟨r.locals, rfl, hsim⟩
  | cons ty tys ih =>
    intro vs st st' r m names hsim h hlen
    cases vs with
    | nil => cases hlen
    | cons v vs =>
      obtain ⟨⟨name, st₁⟩, hpush, h⟩ := except_bind_ok h
      obtain ⟨⟨rest, st₂⟩, hrest, h⟩ := except_bind_ok h
      cases h
      obtain ⟨hbind, hsim₁⟩ := hsim.push hpush v
      obtain ⟨locals, hlocals, hsim₂⟩ := ih hsim₁ hrest (Nat.succ.inj hlen)
      refine ⟨locals, ?_, ?_⟩
      · rw [List.zip_cons_cons, bindLocals, hbind]
        exact hlocals
      · rw [List.reverse_cons, List.append_assoc]
        exact hsim₂

/-- The columns of a row that a lookup pushes are bound in turn; a row that lacks one is
not. -/
theorem Simulates.columns {rel : String} {row : Tuple} : ∀ {columns : List Column} {keys : List TypedExpr} {i : Nat}
    {st st' : Lowering} {r : Running} {m : Machine} {args : List FindArg}, Simulates fl selfEntity st r m →
      lowerFind prog rel st keys columns = .ok (args, st') →
        (i + columns.length ≤ row.cells.length → ∃ locals, bindColumns row r.locals (findBinds i args) = .ok locals ∧
          Simulates fl selfEntity st' { r with locals }
            { m with stack := ((row.cells.drop i).take columns.length).reverse ++ m.stack }) ∧
        (row.cells.length < i + columns.length → i ≤ row.cells.length →
          bindColumns row r.locals (findBinds i args) = .error (.reading .panic)) := by
  intro columns
  induction columns with
  | nil =>
    intro keys i st st' r m args hsim h
    have hnil : args = [] ∧ st' = st := by
      cases keys <;> cases h <;> exact ⟨rfl, rfl⟩
    obtain ⟨rfl, rfl⟩ := hnil
    exact ⟨fun _ => ⟨r.locals, rfl, by simpa using hsim⟩, fun hlt hle => by simp at hlt; omega⟩
  | cons column columns ih =>
    intro keys i st st' r m args hsim h
    -- with a key or without, a column is bound alike
    obtain ⟨name, st₁, more, hpush, hmore, hbinds⟩ : ∃ name st₁ more, pushFresh prog st column.ty = .ok (name, st₁) ∧
        lowerFind prog rel st₁ keys.tail columns = .ok (more, st') ∧
          findBinds i args = (name, i) :: findBinds (i + 1) more := by
      cases keys with
      | nil =>
        obtain ⟨⟨name, st₁⟩, hpush, h⟩ := except_bind_ok h
        obtain ⟨⟨more, st₂⟩, hmore, h⟩ := except_bind_ok h
        cases h
        exact ⟨name, st₁, more, hpush, hmore, rfl⟩
      | cons key keys =>
        obtain ⟨⟨name, st₁⟩, hpush, h⟩ := except_bind_ok h
        obtain ⟨_, -, h⟩ := except_bind_ok h
        obtain ⟨⟨more, st₂⟩, hmore, h⟩ := except_bind_ok h
        cases h
        exact ⟨name, st₁, more, hpush, hmore, rfl⟩
    rw [hbinds, List.length_cons]
    cases hv : row.cells[i]? with
    | none =>
      have hlen : row.cells.length ≤ i := List.getElem?_eq_none_iff.1 hv
      refine ⟨fun hle => by omega, fun _ _ => ?_⟩
      rw [bindColumns, hv]
    | some v =>
      obtain ⟨hi, rfl⟩ := List.getElem?_eq_some_iff.1 hv
      obtain ⟨hbind, hsim₁⟩ := hsim.push hpush row.cells[i]
      obtain ⟨hok, hpanic⟩ := ih (i := i + 1) hsim₁ hmore
      have hstep : bindColumns row r.locals ((name, i) :: findBinds (i + 1) more)
          = bindColumns row ((name, row.cells[i]) :: r.locals) (findBinds (i + 1) more) := by
        rw [bindColumns, hv]
        dsimp only
        rw [hbind]
        rfl
      rw [hstep]
      refine ⟨fun hle => ?_, fun hlt _ => hpanic (by omega) (by omega)⟩
      obtain ⟨locals, hlocals, hsim₂⟩ := hok (by omega)
      refine ⟨locals, hlocals, ?_⟩
      rw [List.drop_eq_getElem_cons hi, List.take_succ_cons, List.reverse_cons, List.append_assoc]
      exact hsim₂

/-- The keys of a lookup are matched at the first columns. -/
theorem findMatches_lowered {rel : String} {locals : Locals} : ∀ {columns : List Column} {keys : List TypedExpr}
    {vs : List Value} {i : Nat} {st st' : Lowering} {args : List FindArg}, Cells fl locals keys vs →
      keys.length ≤ columns.length → lowerFind prog rel st keys columns = .ok (args, st') →
        findMatches fl locals i args = .ok ((List.range' i vs.length).zip vs) := by
  intro columns
  induction columns with
  | nil =>
    intro keys vs i st st' args hc hlen h
    obtain rfl := List.length_eq_zero_iff.1 (Nat.le_zero.1 hlen)
    cases hc
    cases h
    rfl
  | cons column columns ih =>
    intro keys vs i st st' args hc hlen h
    cases hc with
    | nil =>
      obtain ⟨⟨name, st₁⟩, -, h⟩ := except_bind_ok h
      obtain ⟨⟨more, st₂⟩, hmore, h⟩ := except_bind_ok h
      cases h
      rw [findMatches]
      exact ih .nil (Nat.zero_le _) hmore
    | @cons key v keys vs hkey hc =>
      obtain ⟨⟨name, st₁⟩, -, h⟩ := except_bind_ok h
      obtain ⟨_, -, h⟩ := except_bind_ok h
      obtain ⟨⟨more, st₂⟩, hmore, h⟩ := except_bind_ok h
      cases h
      rw [findMatches, hkey, List.length_cons, List.range'_succ, List.zip_cons_cons]
      have hrest := ih (i := i + 1) hc (Nat.le_of_succ_le_succ hlen) hmore
      simp only [bind, Except.bind, hrest]
      rfl

end Pushing

section Computing

variable {fl : FloatOps} {locals : Locals}

theorem intoValue_ok {e : TypedExpr} {context : String} {x : ValueExpr} (h : e.intoValue context = .ok x) :
    e.ir = .value x := by
  unfold TypedExpr.intoValue at h
  split at h
  · rename_i hir
    cases h
    exact hir
  · cases h

theorem eval_intoValue {e : TypedExpr} {context : String} {x : ValueExpr} (h : e.intoValue context = .ok x) :
    evalExpr fl locals e.ir = evalValue fl locals x := by
  rw [intoValue_ok h, evalExpr]

/-- A boolean, as a value or as a condition. -/
theorem eval_intoBool {e : TypedExpr} {context : String} {b : BoolExpr} {x : Bool}
    (h : e.intoBool context = .ok b) (he : evalExpr fl locals e.ir = .ok (.bool x)) :
    evalBool fl locals b = .ok x := by
  unfold TypedExpr.intoBool at h
  split_ifs at h
  split at h
  · rename_i y hir
    cases h
    rw [hir] at he
    obtain ⟨z, hz, he⟩ := except_bind_ok he
    cases he
    exact hz
  · rename_i y hir
    cases h
    rw [hir, evalExpr] at he
    rw [evalBool, he]
    rfl

theorem eval_binaryIntrinsic {left right : TypedExpr} {context name : String} {l r : ValueExpr} {ty : Ty} {a b : Value}
    (hl : left.intoValue context = .ok l) (hr : right.intoValue context = .ok r)
    (ha : evalExpr fl locals left.ir = .ok a) (hb : evalExpr fl locals right.ir = .ok b) :
    evalExpr fl locals (TypedExpr.value (.intrinsic name [l, r]) ty).ir = evalIntrinsic fl name [a, b] := by
  rw [eval_intoValue hl] at ha
  rw [eval_intoValue hr] at hb
  show evalValue fl locals (.intrinsic name [l, r]) = _
  rw [evalValue, evalValues, evalValues, evalValues, ha, hb]
  rfl

theorem lowerUnary_eval {w : UnaryWord} {e e' : TypedExpr} {a v : Value} (h : lowerUnary w e = .ok e')
    (he : evalExpr fl locals e.ir = .ok a) (hv : applyUnary fl w a = .ok v) : evalExpr fl locals e'.ir = .ok v := by
  cases w with
  | neg | toFloat =>
    unfold lowerUnary at h
    dsimp only at h
    split_ifs at h
    obtain ⟨x, hx, h⟩ := except_bind_ok h
    cases h
    rw [eval_intoValue hx] at he
    show evalValue fl locals (.intrinsic _ [x]) = _
    rw [evalValue, evalValues, evalValues, he]
    exact hv
  | not =>
    unfold lowerUnary at h
    dsimp only at h
    split_ifs at h
    obtain ⟨b, hb, h⟩ := except_bind_ok h
    cases h
    unfold applyUnary at hv
    dsimp only at hv
    split at hv
    · cases hv
      show evalExpr fl locals (.bool (.not b)) = _
      rw [evalExpr, evalBool, eval_intoBool hb he]
      rfl
    · cases hv

/-- Two booleans that an operator was applied to. -/
theorem applyBool_ok {op : Bool → Bool → Bool} {a b v : Value} (h : applyBool op a b = .ok v) :
    ∃ x y, a = .bool x ∧ b = .bool y ∧ v = .bool (op x y) := by
  unfold applyBool at h
  split at h
  · cases h
    exact ⟨_, _, rfl, rfl, rfl⟩
  · cases h
  · cases h

theorem lowerBinary_eval {w : BinaryWord} {left right e : TypedExpr} {a b v : Value}
    (h : lowerBinary w left right = .ok e) (ha : evalExpr fl locals left.ir = .ok a)
    (hb : evalExpr fl locals right.ir = .ok b) (hv : applyBinary fl w a b = .ok v) :
    evalExpr fl locals e.ir = .ok v := by
  cases w with
  | arith op =>
    unfold lowerBinary lowerArith at h
    dsimp only at h
    split_ifs at h
    obtain ⟨l, hl, h⟩ := except_bind_ok h
    obtain ⟨r, hr, h⟩ := except_bind_ok h
    cases h
    exact (eval_binaryIntrinsic hl hr ha hb).trans hv
  | compare op =>
    unfold lowerBinary lowerCompare at h
    dsimp only at h
    split_ifs at h
    obtain ⟨l, hl, h⟩ := except_bind_ok h
    obtain ⟨r, hr, h⟩ := except_bind_ok h
    cases h
    rw [eval_intoValue hl] at ha
    rw [eval_intoValue hr] at hb
    show evalExpr fl locals (.bool (.compare op l r)) = _
    rw [evalExpr, evalBool, ha, hb]
    exact hv
  | min | max =>
    unfold lowerBinary lowerMinMax at h
    dsimp only at h
    split_ifs at h
    obtain ⟨l, hl, h⟩ := except_bind_ok h
    obtain ⟨r, hr, h⟩ := except_bind_ok h
    cases h
    exact (eval_binaryIntrinsic hl hr ha hb).trans hv
  | and =>
    obtain ⟨l, hl, h⟩ := except_bind_ok h
    obtain ⟨r, hr, h⟩ := except_bind_ok h
    cases h
    obtain ⟨x, y, rfl, rfl, rfl⟩ := applyBool_ok hv
    show evalExpr fl locals (.bool (.and l r)) = _
    rw [evalExpr, evalBool, eval_intoBool hl ha]
    cases x with
    | true =>
      show (evalBool fl locals r).map _ = _
      rw [eval_intoBool hr hb]
      rfl
    | false => rfl
  | or =>
    obtain ⟨l, hl, h⟩ := except_bind_ok h
    obtain ⟨r, hr, h⟩ := except_bind_ok h
    cases h
    obtain ⟨x, y, rfl, rfl, rfl⟩ := applyBool_ok hv
    show evalExpr fl locals (.bool (.or l r)) = _
    rw [evalExpr, evalBool, eval_intoBool hl ha]
    cases x with
    | true => rfl
    | false =>
      show (evalBool fl locals r).map _ = _
      rw [eval_intoBool hr hb]
      rfl

end Computing

/-! ## One word -/

section Words

variable {fl : FloatOps} {prog : Program} {grants : Option ResolvedGrantSet} {tries : Nat} {selfEntity : Entity}
  {snap : Snapshot} {locals : Locals}

theorem Cells.pop {α : Type} {es : List TypedExpr} {vs : List Value} (hc : Cells fl locals es vs)
    {f : TypedExpr × List TypedExpr → Except String α} {out : α} (h : stackPop es >>= f = .ok out) :
    ∃ e rest v vs', vs = v :: vs' ∧ evalExpr fl locals e.ir = .ok v ∧ Cells fl locals rest vs' ∧ f (e, rest) = .ok out := by
  cases hc with
  | nil => cases h
  | cons hv hvs => exact ⟨_, _, _, _, rfl, hv, hvs, h⟩

theorem Cells.popN {es args rest : List TypedExpr} {vs : List Value} {n : Nat} (hc : Cells fl locals es vs)
    (h : stackPopN es n = .ok (args, rest)) : ∃ as vs', popValues vs n = .ok (as, vs') ∧ as.length = n ∧
      args.length = n ∧ Cells fl locals args as ∧ Cells fl locals rest vs' := by
  unfold stackPopN at h
  split_ifs at h with hlen
  cases h
  have heq : es.length = vs.length := List.Forall₂.length_eq hc
  refine ⟨(vs.take n).reverse, vs.drop n, if_neg (by omega), ?_, ?_, List.forall₂_reverse_iff.2 (hc.take n), hc.drop n⟩
  · rw [List.length_reverse, List.length_take]
    omega
  · rw [List.length_reverse, List.length_take]
    omega

theorem execOps_single (r : Running) (op : BehaviorOp) :
    execOps fl prog grants tries snap r [op] = execOp fl prog grants tries snap r op := by
  rw [execOps]
  cases execOp fl prog grants tries snap r op with
  | error f => rfl
  | ok out =>
    cases out with
    | none => rfl
    | some s =>
      show execOps fl prog grants tries snap s [] = _
      rw [execOps]

/-- Operations in two parts. -/
theorem execOps_append (r : Running) (as bs : List BehaviorOp) : execOps fl prog grants tries snap r (as ++ bs) = (do
    match ← execOps fl prog grants tries snap r as with
    | none => return none
    | some s => execOps fl prog grants tries snap s bs) := by
  induction as generalizing r with
  | nil =>
    rw [List.nil_append, execOps]
    rfl
  | cons op as ih =>
    rw [List.cons_append, execOps, execOps]
    cases execOp fl prog grants tries snap r op with
    | error f => rfl
    | ok out =>
      cases out with
      | none => rfl
      | some s => exact ih s

/-- What operations come to against what the machine comes to: the same, unless the
machine computed what cannot be computed or found a row that lacks columns. -/
def Matches (fl : FloatOps) (selfEntity : Entity) (st : Lowering) :
    Except WordFault (Option Machine) → Answer (Option Running) → Prop
  | .ok (some m), x => ∃ r, x = .ok (some r) ∧ Simulates fl selfEntity st r m
  | .ok none, x => x = .ok none
  | .error (.world f), x => x = .error f
  | .error .underflow, _ => False
  | .error (.value _), _ => True
  | .error .short, _ => True

/-- A word that only changes the stack. -/
theorem Simulates.stacked {st : Lowering} {r : Running} {m : Machine} (hsim : Simulates fl selfEntity st r m)
    {es : List TypedExpr} {vs : List Value} (hc : Cells fl r.locals es vs) :
    Matches fl selfEntity { st with stack := es } (.ok (some { m with stack := vs }))
      (execOps fl prog grants tries snap r []) := by
  refine ⟨r, ?_, hc, hsim.patch, hsim.frame, hsim.names, hsim.self⟩
  rw [execOps]

/-- What a lookup of a view pushes. -/
theorem zip_take {α β : Type} : ∀ (as : List α) (bs : List β), as.zip bs = as.zip (bs.take as.length) := by
  intro as
  induction as with
  | nil => exact fun _ => rfl
  | cons a as ih =>
    intro bs
    cases bs with
    | nil => rfl
    | cons b bs =>
      rw [List.zip_cons_cons, List.length_cons, List.take_succ_cons, List.zip_cons_cons, ← ih bs]

theorem mapM_length {ε α β : Type} {f : α → Except ε β} : ∀ {l : List α} {out : List β}, l.mapM f = .ok out →
    out.length = l.length := by
  intro l
  induction l with
  | nil =>
    intro out h
    cases h
    rfl
  | cons x l ih =>
    intro out h
    rw [List.mapM_cons] at h
    obtain ⟨y, -, h⟩ := except_bind_ok h
    obtain ⟨ys, hys, h⟩ := except_bind_ok h
    cases h
    exact congrArg Nat.succ (ih hys)

theorem viewOutputTypes_length {view : String} {definition : ViewDef} {types : List Ty}
    (hview : prog.viewDef view = some definition) (h : prog.viewOutputTypes view = .ok types) :
    types.length = definition.yields.length := by
  unfold Program.viewOutputTypes at h
  rw [hview] at h
  obtain ⟨vars, -, h⟩ := except_bind_ok h
  exact mapM_length h

theorem runWord_shuffle {m : Machine} {w : Word} {s : List Value} (h : shuffle w m.stack = some s) :
    runWord fl prog selfEntity snap m w = .ok (some { m with stack := s }) := by
  cases w with
  | selfEntity | lit | unary | binary | resolve | find | fact => simp [shuffle] at h
  | _ => simp [runWord, h]

/-- A word that only moves values. -/
theorem Simulates.shuffled {st : Lowering} {r : Running} {m : Machine} (hsim : Simulates fl selfEntity st r m)
    {w : Word} {es : List TypedExpr} {vs : List Value} (hs : shuffle w m.stack = some vs)
    (hc : Cells fl r.locals es vs) : Matches fl selfEntity { st with stack := es }
      (runWord fl prog selfEntity snap m w) (execOps fl prog grants tries snap r []) := by
  rw [runWord_shuffle hs]
  exact hsim.stacked hc

/-- Values taken off the stack. -/
theorem Simulates.restack {st : Lowering} {r : Running} {m : Machine} (hsim : Simulates fl selfEntity st r m)
    {es : List TypedExpr} {vs : List Value} (hc : Cells fl r.locals es vs) :
    Simulates fl selfEntity { st with stack := es } r { m with stack := vs } :=
  ⟨hc, hsim.patch, hsim.frame, hsim.names, hsim.self⟩

theorem resolveRow_eq {arguments : List ExprIr} {rhs : ExprIr} {args : List Value} {key : Value} {view col : String}
    {op : MatchOp} (hargs : evalExprs fl locals arguments = .ok args) (hkey : evalExpr fl locals rhs = .ok key) :
    resolveRow fl prog snap locals view arguments col op rhs = lookUpView prog snap view col op args key := by
  rw [resolveRow, lookUpView, hargs]
  show (do
    let query ← viewQuery prog view args
    let index ← viewColumn prog view col
    leastMatch snap query index op (← evalExpr fl locals rhs)) = _
  rw [hkey]
  rfl

theorem resolve_simulates {st st' : Lowering} {r : Running} {m : Machine} {view col : String} {op : MatchOp}
    {ops : List BehaviorOp} (hsim : Simulates fl selfEntity st r m)
    (h : lowerWord prog st (.resolve view col op) = .ok (ops, st')) :
    Matches fl selfEntity st' (runWord fl prog selfEntity snap m (.resolve view col op))
      (execOps fl prog grants tries snap r ops) := by
  rw [lowerWord] at h
  cases hview : prog.viewDef view with
  | none =>
    rw [hview] at h
    cases h
  | some definition =>
    rw [hview] at h
    obtain ⟨_, _, vkey, vs, hm, hvkey, hvs, h⟩ := hsim.cells.pop h
    obtain ⟨⟨arguments, rest'⟩, hargs, h⟩ := except_bind_ok h
    obtain ⟨types, htypes, h⟩ := except_bind_ok h
    dsimp only at h
    split at h
    · cases h
    · obtain ⟨_, -, h⟩ := except_bind_ok h
      split_ifs at h
      obtain ⟨⟨names, st₁⟩, hpush, h⟩ := except_bind_ok h
      cases h
      obtain ⟨args, vs', hpop, -, -, hcargs, hcrest⟩ := hvs.popN hargs
      rw [runWord, hview, hm]
      dsimp only
      rw [hpop, execOps_single, execOp, resolveRow_eq hcargs.evalExprs hvkey]
      simp only [bind, Except.bind]
      cases lookUpView prog snap view col op args vkey with
      | error f => rfl
      | ok out =>
        cases out with
        | none => rfl
        | some row =>
          dsimp only
          split_ifs with hshort
          · trivial
          · have hlen := viewOutputTypes_length hview htypes
            have hnames := pushAll_length hpush
            have htake : (row.cells.take definition.yields.length).length = types.length := by
              rw [List.length_take]
              omega
            obtain ⟨locals, hbind, hsim'⟩ := (hsim.restack hcrest).pushAll hpush htake
            refine ⟨{ r with locals }, ?_, hsim'⟩
            rw [zip_take, hnames, hlen, hbind]
            rfl

theorem find_simulates {st st' : Lowering} {r : Running} {m : Machine} {rel : String} {keyn : Nat}
    {ops : List BehaviorOp} (hsim : Simulates fl selfEntity st r m)
    (h : lowerWord prog st (.find rel keyn) = .ok (ops, st')) :
    Matches fl selfEntity st' (runWord fl prog selfEntity snap m (.find rel keyn))
      (execOps fl prog grants tries snap r ops) := by
  rw [lowerWord] at h
  cases hschema : prog.schema rel with
  | none =>
    rw [hschema] at h
    cases h
  | some schema =>
    rw [hschema] at h
    dsimp only at h
    split_ifs at h with harity
    obtain ⟨⟨keys, rest⟩, hkeys, h⟩ := except_bind_ok h
    obtain ⟨⟨args, st₁⟩, hfind, h⟩ := except_bind_ok h
    cases h
    obtain ⟨vkeys, vs, hpop, hvlen, hklen, hckeys, hcrest⟩ := hsim.cells.popN hkeys
    have hmatches := findMatches_lowered (i := 0) hckeys (by rw [hklen]; exact Nat.le_of_not_lt harity) hfind
    rw [← List.range_eq_range'] at hmatches
    have hrow : findRow fl prog snap r.locals rel args = lookUpRel prog snap rel vkeys := by
      rw [findRow, lookUpRel, hmatches]
      rfl
    rw [runWord, hschema]
    dsimp only
    rw [hpop, execOps_single, execOp, hrow]
    simp only [bind, Except.bind]
    cases lookUpRel prog snap rel vkeys with
    | error f => rfl
    | ok out =>
      cases out with
      | none => rfl
      | some row =>
        obtain ⟨hok, hpanic⟩ := (hsim.restack hcrest).columns (i := 0) hfind
        dsimp only
        split_ifs with hshort
        · show (bindColumns row r.locals (findBinds 0 args)).bind _ = _
          rw [hpanic (by rw [Nat.zero_add]; exact hshort) (Nat.zero_le _)]
          rfl
        · obtain ⟨locals, hbind, hsim'⟩ := hok (by rw [Nat.zero_add]; exact Nat.le_of_not_lt hshort)
          refine ⟨{ r with locals }, ?_, hsim'⟩
          rw [hbind]
          rfl

theorem fact_simulates {st st' : Lowering} {r : Running} {m : Machine} {w : FactWord} {rel : String}
    {ops : List BehaviorOp} (hsim : Simulates fl selfEntity st r m)
    (h : lowerWord prog st (.fact w rel) = .ok (ops, st')) :
    Matches fl selfEntity st' (runWord fl prog selfEntity snap m (.fact w rel))
      (execOps fl prog grants tries snap r ops) := by
  rw [lowerWord] at h
  cases hrel : prog.rel rel with
  | none =>
    rw [Program.schema, hrel] at h
    cases h
  | some info =>
    rw [Program.schema, hrel] at h
    obtain ⟨⟨values, rest⟩, hvalues, h⟩ := except_bind_ok h
    obtain ⟨_, -, h⟩ := except_bind_ok h
    cases h
    obtain ⟨vs, vs', hpop, -, -, hcargs, hcrest⟩ := hsim.cells.popN hvalues
    have hid : relation prog rel = .ok info.id := by rw [relation, Program.relId, hrel]; rfl
    have hargs := hcargs.evalExprs
    have hsame : info.arity = (⟨info.columns⟩ : Schema).arity := rfl
    rw [runWord, hrel]
    dsimp only
    rw [hsame, hpop, execOps_single]
    refine ⟨{ r with patch := w.add info.id ⟨vs⟩ r.patch }, ?_, hcrest, by rw [hsim.patch], hsim.frame, hsim.names,
      hsim.self⟩
    cases w with
    | emit =>
      rw [FactWord.op, execOp, hid, hargs]
      rfl
    | _ =>
      rw [FactWord.op, execOp, factOf, hid, hargs]
      rfl

/-- **One word and its operation.** -/
theorem lowerWord_simulates {st st' : Lowering} {r : Running} {m : Machine} {w : Word} {ops : List BehaviorOp}
    (hsim : Simulates fl selfEntity st r m) (h : lowerWord prog st w = .ok (ops, st')) :
    Matches fl selfEntity st' (runWord fl prog selfEntity snap m w) (execOps fl prog grants tries snap r ops) := by
  cases w with
  | selfEntity =>
    cases h
    have hself : evalValue fl r.locals (.local_ "self") = .ok (.ent selfEntity) := by rw [evalValue, hsim.self]
    exact hsim.stacked (.cons hself hsim.cells)
  | lit v =>
    cases h
    have hlit : evalValue fl r.locals (.literal v) = .ok v := by rw [evalValue]
    exact hsim.stacked (.cons hlit hsim.cells)
  | dup =>
    obtain ⟨_, _, _, _, hm, ha, hvs, h⟩ := hsim.cells.pop h
    cases h
    exact hsim.shuffled (by rw [hm]; rfl) (.cons ha (.cons ha hvs))
  | drop =>
    obtain ⟨_, _, _, _, hm, -, hvs, h⟩ := hsim.cells.pop h
    cases h
    exact hsim.shuffled (by rw [hm]; rfl) hvs
  | swap =>
    obtain ⟨_, _, _, _, hm, hb, hvs, h⟩ := hsim.cells.pop h
    obtain ⟨_, _, _, _, rfl, ha, hvs, h⟩ := hvs.pop h
    cases h
    exact hsim.shuffled (by rw [hm]; rfl) (.cons ha (.cons hb hvs))
  | «over» =>
    obtain ⟨_, _, _, _, hm, hb, hvs, h⟩ := hsim.cells.pop h
    obtain ⟨_, _, _, _, rfl, ha, hvs, h⟩ := hvs.pop h
    cases h
    exact hsim.shuffled (by rw [hm]; rfl) (.cons ha (.cons hb (.cons ha hvs)))
  | rot =>
    obtain ⟨_, _, _, _, hm, hc, hvs, h⟩ := hsim.cells.pop h
    obtain ⟨_, _, _, _, rfl, hb, hvs, h⟩ := hvs.pop h
    obtain ⟨_, _, _, _, rfl, ha, hvs, h⟩ := hvs.pop h
    cases h
    exact hsim.shuffled (by rw [hm]; rfl) (.cons ha (.cons hc (.cons hb hvs)))
  | nip =>
    obtain ⟨_, _, _, _, hm, hb, hvs, h⟩ := hsim.cells.pop h
    obtain ⟨_, _, _, _, rfl, -, hvs, h⟩ := hvs.pop h
    cases h
    exact hsim.shuffled (by rw [hm]; rfl) (.cons hb hvs)
  | tuck =>
    obtain ⟨_, _, _, _, hm, hb, hvs, h⟩ := hsim.cells.pop h
    obtain ⟨_, _, _, _, rfl, ha, hvs, h⟩ := hvs.pop h
    cases h
    exact hsim.shuffled (by rw [hm]; rfl) (.cons hb (.cons ha (.cons hb hvs)))
  | twoDup =>
    obtain ⟨_, _, _, _, hm, hb, hvs, h⟩ := hsim.cells.pop h
    obtain ⟨_, _, _, _, rfl, ha, hvs, h⟩ := hvs.pop h
    cases h
    exact hsim.shuffled (by rw [hm]; rfl) (.cons hb (.cons ha (.cons hb (.cons ha hvs))))
  | twoDrop =>
    obtain ⟨_, _, _, _, hm, -, hvs, h⟩ := hsim.cells.pop h
    obtain ⟨_, _, _, _, rfl, -, hvs, h⟩ := hvs.pop h
    cases h
    exact hsim.shuffled (by rw [hm]; rfl) hvs
  | unary w =>
    obtain ⟨_, _, _, _, hm, ha, hvs, h⟩ := hsim.cells.pop h
    obtain ⟨e, he, h⟩ := except_bind_ok h
    cases h
    rw [runWord, hm]
    dsimp only
    split
    · exact hsim.stacked (.cons (lowerUnary_eval he ha ‹_›) hvs)
    · trivial
  | binary w =>
    obtain ⟨_, _, _, _, hm, hb, hvs, h⟩ := hsim.cells.pop h
    obtain ⟨_, _, _, _, rfl, ha, hvs, h⟩ := hvs.pop h
    obtain ⟨e, he, h⟩ := except_bind_ok h
    cases h
    rw [runWord, hm]
    dsimp only
    split
    · exact hsim.stacked (.cons (lowerBinary_eval he ha hb ‹_›) hvs)
    · trivial
  | resolve view col op => exact resolve_simulates hsim h
  | find rel keyn => exact find_simulates hsim h
  | fact w rel => exact fact_simulates hsim h

/-! ## Bodies -/

/-- **Words and their operations.** -/
theorem lowerEach_simulates : ∀ {ws : List Word} {st st' : Lowering} {r : Running} {m : Machine}
    {ops : List BehaviorOp}, Simulates fl selfEntity st r m → lowerEach prog st ws = .ok (ops, st') →
      Matches fl selfEntity st' (runEach fl prog selfEntity snap m ws) (execOps fl prog grants tries snap r ops) := by
  intro ws
  induction ws with
  | nil =>
    intro st st' r m ops hsim h
    cases h
    exact ⟨r, by rw [execOps], hsim⟩
  | cons w ws ih =>
    intro st st' r m ops hsim h
    obtain ⟨⟨first, st₁⟩, hfirst, h⟩ := except_bind_ok h
    obtain ⟨⟨more, st₂⟩, hmore, h⟩ := except_bind_ok h
    cases h
    have hword : Matches fl selfEntity st₁ (runWord fl prog selfEntity snap m w)
        (execOps fl prog grants tries snap r first) := lowerWord_simulates hsim hfirst
    rw [runEach, execOps_append]
    cases hrun : runWord fl prog selfEntity snap m w with
    | error f =>
      rw [hrun] at hword
      cases f with
      | underflow => exact hword
      | value f => trivial
      | short => trivial
      | world f =>
        rw [show execOps fl prog grants tries snap r first = .error f from hword]
        rfl
    | ok out =>
      rw [hrun] at hword
      cases out with
      | none =>
        rw [show execOps fl prog grants tries snap r first = .ok none from hword]
        rfl
      | some m₁ =>
        obtain ⟨r₁, hr₁, hsim₁⟩ := hword
        rw [hr₁]
        exact ih hsim₁ hmore

/-- What binding the initial values leaves. -/
theorem pushInitial_ok : ∀ {initial : Types} {st st' : Lowering}, pushInitial prog st initial = .ok st' →
    st'.locals = initial.reverse ++ st.locals ∧
      st'.stack = (initial.map fun e => TypedExpr.value (.local_ e.1) e.2).reverse ++ st.stack ∧
        (initial.map (·.1)).Nodup ∧ ∀ name ∈ initial.map (·.1), name ∉ st.locals.map (·.1) := by
  intro initial
  induction initial with
  | nil =>
    intro st st' h
    cases h
    exact ⟨rfl, rfl, List.nodup_nil, fun _ h => absurd h List.not_mem_nil⟩
  | cons e initial ih =>
    obtain ⟨name, ty⟩ := e
    intro st st' h
    obtain ⟨locals, hbind, h⟩ := except_bind_ok h
    obtain ⟨rfl, hnew⟩ := bindType_ok hbind
    obtain ⟨hlocals, hstack, hnodup, happ⟩ := ih h
    refine ⟨by simp [hlocals], by simp [hstack], ?_, ?_⟩
    · rw [List.map_cons, List.nodup_cons]
      exact ⟨fun hmem => happ name hmem List.mem_cons_self, hnodup⟩
    · rw [List.map_cons]
      refine List.forall_mem_cons.2 ⟨hnew, fun other hother hmem => happ other hother ?_⟩
      exact List.mem_cons_of_mem _ hmem

theorem Locals.get_append_right {name : String} {pre : Locals} (h : name ∉ pre.map (·.1)) (l : Locals) :
    Locals.get (pre ++ l) name = l.get name := by
  induction pre with
  | nil => rfl
  | cons e pre ih =>
    obtain ⟨hne, hrest⟩ := not_or.1 (List.mem_cons.not.1 h)
    rw [List.cons_append, Locals.get_cons_ne (Ne.symm hne), ih hrest]

/-- Names that are distinct are bound to their own values. -/
theorem get_zip {rest : Locals} : ∀ {names : List String} {vs : List Value} {pre : Locals}, names.Nodup →
    vs.length = names.length → (∀ n ∈ names, n ∉ pre.map (·.1)) →
      List.Forall₂ (fun n v => Locals.get (pre ++ (names.zip vs ++ rest)) n = some v) names vs := by
  intro names
  induction names with
  | nil =>
    intro vs pre _ hlen _
    obtain rfl := List.length_eq_zero_iff.1 hlen
    exact .nil
  | cons n names ih =>
    intro vs pre hnodup hlen hpre
    cases vs with
    | nil => cases hlen
    | cons v vs =>
      obtain ⟨hnew, hnodup⟩ := List.nodup_cons.1 hnodup
      obtain ⟨hn, hnames⟩ := List.forall_mem_cons.1 hpre
      rw [List.zip_cons_cons, List.cons_append]
      refine .cons ?_ ?_
      · rw [Locals.get_append_right hn, Locals.get_cons_self]
      · have hpre' : ∀ m ∈ names, m ∉ (pre ++ [(n, v)]).map (·.1) := fun m hm hmem => by
          rw [List.map_append, List.mem_append] at hmem
          rcases hmem with hmem | hmem
          · exact hnames m hm hmem
          · rw [List.mem_singleton.1 hmem] at hm
            exact hnew hm
        simpa using ih hnodup (Nat.succ.inj hlen) hpre'

/-- A body starts with its values bound, and who runs it. -/
theorem simulates_start {initial : Types} {st : Lowering} {values : List Value}
    (h : pushInitial prog ⟨[("self", .ent)], [], 0⟩ initial = .ok st) (hlen : values.length = initial.length) :
    Simulates fl selfEntity st
      ⟨startLocals selfEntity ((initial.map (·.1)).zip values), Patch.new, .new⟩ ⟨values.reverse, Patch.new⟩ := by
  obtain ⟨hlocals, hstack, hnodup, happ⟩ := pushInitial_ok h
  have hnames : ((initial.map (·.1)).zip values).map (·.1) = initial.map (·.1) :=
    List.map_fst_zip (by rw [List.length_map]; omega)
  have hself : "self" ∉ ((initial.map (·.1)).zip values).map (·.1) := by
    rw [hnames]
    exact fun hmem => happ _ hmem (List.mem_singleton.2 rfl)
  have hnone : Locals.get ((initial.map (·.1)).zip values) "self" = none := by
    have := Locals.get_append_right hself []
    rwa [List.append_nil] at this
  have hstart : startLocals selfEntity ((initial.map (·.1)).zip values)
      = (initial.map (·.1)).zip values ++ [("self", .ent selfEntity)] := by
    rw [startLocals, hnone]
    rfl
  rw [hstart]
  refine ⟨?_, rfl, rfl, fun name => ?_, ?_⟩
  · have hget : List.Forall₂
        (fun n v => Locals.get ([] ++ ((initial.map (·.1)).zip values ++ [("self", .ent selfEntity)])) n = some v)
        (initial.map (·.1)) values :=
      get_zip hnodup (by rw [List.length_map, hlen]) fun _ _ => List.not_mem_nil
    show Cells fl _ st.stack values.reverse
    rw [hstack, List.append_nil, Cells, List.forall₂_reverse_iff, List.forall₂_map_left_iff]
    rw [List.forall₂_map_left_iff] at hget
    refine hget.imp fun e v he => ?_
    show evalValue fl ((initial.map (·.1)).zip values ++ [("self", .ent selfEntity)]) (.local_ e.1) = _
    rw [evalValue, show Locals.get ((initial.map (·.1)).zip values ++ [("self", .ent selfEntity)]) e.1 = some v from he]
  · show (Locals.get _ name).isSome = true ↔ name ∈ st.locals.map (·.1)
    rw [hlocals, List.map_append, List.map_reverse, List.mem_append, List.mem_reverse]
    have hfind : (Locals.get ((initial.map (·.1)).zip values ++ [("self", .ent selfEntity)]) name).isSome = true ↔
        name ∈ ((initial.map (·.1)).zip values ++ [("self", Value.ent selfEntity)]).map (·.1) := by
      rw [Locals.get, Option.isSome_map, List.find?_isSome, List.mem_map]
      simp
    rw [hfind, List.map_append, List.mem_append, hnames]
    rfl
  · show Locals.get _ "self" = _
    rw [Locals.get_append_right hself]
    rfl

/-- **A body and the behavior it is lowered to**: where the machine computes nothing that
cannot be computed and finds no row short of its columns, the behavior comes to what the
machine comes to. -/
theorem lowered_words_run (fl : FloatOps) (prog : Program) (grants : Option ResolvedGrantSet) (tries : Nat)
    (selfEntity : Entity) (snap : Snapshot) (words : List Word) (initial : Types) (values : List Value)
    (ops : List BehaviorOp) (hlower : lowerWords prog words initial = .ok ops) (hlen : values.length = initial.length)
    (hvalue : ∀ f, runWords fl prog selfEntity snap words values ≠ .error (.value f))
    (hshort : runWords fl prog selfEntity snap words values ≠ .error .short) :
    (BehaviorIr.execute fl prog grants tries selfEntity snap ops ((initial.map (·.1)).zip values)).mapError .world
      = runWords fl prog selfEntity snap words values := by
  obtain ⟨st, hst, hlower⟩ := except_bind_ok hlower
  obtain ⟨⟨ops', st'⟩, heach, hlower⟩ := except_bind_ok hlower
  dsimp only at hlower
  split_ifs at hlower
  cases hlower
  have hmatch : Matches fl selfEntity st' (runEach fl prog selfEntity snap ⟨values.reverse, Patch.new⟩ words)
      (execOps fl prog grants tries snap
        ⟨startLocals selfEntity ((initial.map (·.1)).zip values), Patch.new, .new⟩ ops) :=
    lowerEach_simulates (simulates_start hst hlen) heach
  unfold runWords at hvalue hshort ⊢
  unfold BehaviorIr.execute
  cases hrun : runEach fl prog selfEntity snap ⟨values.reverse, Patch.new⟩ words with
  | error f =>
      rw [hrun] at hmatch hvalue hshort
      cases f with
      | underflow => exact hmatch.elim
      | value f => exact absurd rfl (hvalue f)
      | short => exact absurd rfl hshort
      | world f =>
          rw [show execOps fl prog grants tries snap _ _ = .error f from hmatch]
          rfl
  | ok out =>
      rw [hrun] at hmatch
      cases out with
      | none =>
          rw [show execOps fl prog grants tries snap _ _ = .ok none from hmatch]
          rfl
      | some m =>
          obtain ⟨r, hr, hfinal⟩ := hmatch
          rw [hr]
          show Except.ok (some (r.frame.sealPatch r.patch)) = Except.ok (some m.patch)
          rw [hfinal.frame, hfinal.patch]
          rfl

end Words

/-! ## Words over lamps -/

/-- Lamps that have a number. -/
def lampProgram : Program := ⟨[⟨"lamp", 10, [⟨"at", .int⟩]⟩, ⟨"log", 11, [⟨"at", .int⟩, ⟨"who", .text⟩]⟩], [], [], [], none⟩

def plainFloats : FloatOps :=
  ⟨fun _ => none, fun _ => none, fun _ _ => none, fun _ _ => none, fun _ _ => none, fun _ _ => none, fun _ _ => none,
    fun _ _ => none, fun _ _ => none⟩

def lampAt (v : Value) : Snapshot := ⟨TraceStore.empty.commit [(10, ⟨[v]⟩, 1)], 1⟩

/-- The number of a lamp, one more, and a name, into the log. -/
def logNext : List Word := [.find "lamp" 0, .lit (.int 1), .binary (.arith .add), .swap, .fact .assert "log"]

def logNextOps : List BehaviorOp :=
  [.find "lamp" [.bind "#stack0"],
    .assert "log" [.value (.intrinsic "add" [.local_ "#stack0", .literal (.int 1)]), .value (.local_ "name")]]

theorem logNext_run : (BehaviorIr.execute plainFloats lampProgram none 0 ⟨1⟩ (lampAt (.int 6)) logNextOps
      [("name", .text "ada")]).mapError WordFault.world
    = .ok (some (Patch.new.assert ⟨11, ⟨[.int 7, .text "ada"]⟩⟩)) := by
  have hrun : runWords plainFloats lampProgram ⟨1⟩ (lampAt (.int 6)) logNext [.text "ada"]
      = .ok (some (Patch.new.assert ⟨11, ⟨[.int 7, .text "ada"]⟩⟩)) := by decide +kernel
  have hsame := lowered_words_run plainFloats lampProgram none 0 ⟨1⟩ (lampAt (.int 6)) logNext [("name", .text)]
    [.text "ada"] logNextOps rfl rfl (fun f => by rw [hrun]; exact nofun) (by rw [hrun]; exact nofun)
  exact hsame.trans hrun

/-- The number of a lamp, made negative and thrown away. -/
def negated : List Word := [.find "lamp" 0, .unary .neg, .drop]

/-- **A value of the wrong type that is never used stops the machine, not the behavior.** -/
theorem lowered_words_late : ¬ ∀ (fl : FloatOps) (prog : Program) (grants : Option ResolvedGrantSet) (tries : Nat)
    (selfEntity : Entity) (snap : Snapshot) (words : List Word) (initial : Types) (values : List Value)
    (ops : List BehaviorOp), lowerWords prog words initial = .ok ops → values.length = initial.length →
      (∀ operation, runWords fl prog selfEntity snap words values ≠ .error (.value (.arithmetic operation))) →
        ∀ out, BehaviorIr.execute fl prog grants tries selfEntity snap ops ((initial.map (·.1)).zip values) = .ok out ↔
          runWords fl prog selfEntity snap words values = .ok out := by
  intro h
  have hrun : runWords plainFloats lampProgram ⟨1⟩ (lampAt (.text "six")) negated []
      = .error (.value (.illTyped "neg" [.text "six"])) := by decide +kernel
  have hexec : BehaviorIr.execute plainFloats lampProgram none 0 ⟨1⟩ (lampAt (.text "six"))
      [.find "lamp" [.bind "#stack0"]] [] = .ok (some Patch.new) := by decide +kernel
  have hsame := h plainFloats lampProgram none 0 ⟨1⟩ (lampAt (.text "six")) negated [] []
    [.find "lamp" [.bind "#stack0"]] rfl rfl (fun operation => by rw [hrun]; exact nofun) (some Patch.new)
  rw [hrun] at hsame
  cases hsame.1 hexec

end Grmpl

import Grmpl.Lang.StackMachine

/-!
# Declared stack effects

An arm of words is checked twice: by the effects its words declare, on a depth, and by
lowering, on a stack of typed expressions. The two walks go by different tables: a view's
shape counts the fold of an aggregate among its columns, its output types do not.

* `Word.effect`, `ConcatArm.check`: declared effects, and an arm checked by them.
* `lowerWord_effect`: what lowering a word does to the length of the stack.
* `Spares`: refusals that have nothing to do with the stack.
* `stack_effects_agree`: the two walks against each other.
-/

namespace Grmpl

/-- The cells a word takes off the stack and those it leaves. -/
structure StackEffect where
  pops : Nat
  pushes : Nat
  deriving DecidableEq

/-- An arm of a handler: a constructor, its arguments, and the words. -/
structure ConcatArm where
  tag : String
  vars : List String
  words : List Word

/-- Why an arm is refused. -/
inductive CheckError where
  | undeclared (message : String)
  | underflow (word needs depth : Nat)
  | leftover (depth : Nat)
  deriving DecidableEq

section Check

variable (prog : Program)

/-- A view's parameters and columns; the fold of an aggregate is one column more. -/
def Program.viewShape (view : String) : Option (Nat × Nat) :=
  (prog.viewDef view).map fun v => (v.params.length, v.yields.length + v.agg.isSome.toNat)

def Program.relArity (rel : String) : Option Nat := (prog.rel rel).map RelInfo.arity

def relArity (rel : String) : Except CheckError Nat :=
  match prog.relArity rel with
  | some n => .ok n
  | none => .error (.undeclared ("word names undeclared relation `" ++ rel ++ "`"))

/-- The declared effect of a word. -/
def Word.effect : Word → Except CheckError StackEffect
  | .selfEntity | .lit _ => .ok ⟨0, 1⟩
  | .dup => .ok ⟨1, 2⟩
  | .drop => .ok ⟨1, 0⟩
  | .swap => .ok ⟨2, 2⟩
  | .over => .ok ⟨2, 3⟩
  | .rot => .ok ⟨3, 3⟩
  | .nip => .ok ⟨2, 1⟩
  | .tuck => .ok ⟨2, 3⟩
  | .twoDup => .ok ⟨2, 4⟩
  | .twoDrop => .ok ⟨2, 0⟩
  | .unary _ => .ok ⟨1, 1⟩
  | .binary _ => .ok ⟨2, 1⟩
  | .resolve view _ _ => match prog.viewShape view with
      | some (params, yields) => .ok ⟨params + 1, yields⟩
      | none => .error (.undeclared ("word `resolve` names undeclared view `" ++ view ++ "`"))
  | .find rel keyn => do return ⟨keyn, ← relArity prog rel⟩
  | .fact _ rel => do return ⟨← relArity prog rel, 0⟩

/-- The depth after words in turn, from a depth and the position of the first. -/
def depthAfter (i depth : Nat) : List Word → Except CheckError Nat
  | [] => .ok depth
  | w :: ws => do
      let eff ← w.effect prog
      if depth < eff.pops then .error (.underflow i eff.pops depth)
      else depthAfter (i + 1) (depth - eff.pops + eff.pushes) ws

/-- The depth declared effects come to after the first words of an arm. -/
def ConcatArm.depth (arm : ConcatArm) (ws : List Word) : Except CheckError Nat :=
  depthAfter prog 0 arm.vars.length ws

/-- An arm by its declared effects: from its arguments to an empty stack. -/
def ConcatArm.check (arm : ConcatArm) : Except CheckError Unit := do
  let depth ← arm.depth prog arm.words
  if depth ≠ 0 then .error (.leftover depth) else .ok ()

def lowerConcatArm (arm : ConcatArm) : Except String (List BehaviorOp) :=
  lowerWords prog arm.words (arm.vars.map (·, .text))

/-- What the first words of an arm are lowered to, and where lowering stands after them. -/
def ConcatArm.symbolic (arm : ConcatArm) (ws : List Word) : Except String (List BehaviorOp × Lowering) := do
  let st ← pushInitial prog ⟨[("self", .ent)], [], 0⟩ (arm.vars.map (·, .text))
  lowerEach prog st ws

end Check

/-! ## One word -/

section Effects

variable {prog : Program}

theorem stackPop_ok {stack rest : List TypedExpr} {e : TypedExpr} (h : stackPop stack = .ok (e, rest)) :
    stack = e :: rest := by
  cases stack with
  | nil => cases h
  | cons x xs =>
    cases h
    rfl

theorem stackPopN_ok {stack args rest : List TypedExpr} {n : Nat} (h : stackPopN stack n = .ok (args, rest)) :
    stack.length = rest.length + n := by
  unfold stackPopN at h
  split_ifs at h with hlen
  cases h
  rw [List.length_drop]
  omega

theorem pushAll_stack : ∀ {tys : List Ty} {st st' : Lowering} {names : List String},
    pushAll prog st tys = .ok (names, st') → st'.stack.length = st.stack.length + tys.length := by
  intro tys
  induction tys with
  | nil =>
    intro st st' names h
    cases h
    rfl
  | cons ty tys ih =>
    intro st st' names h
    obtain ⟨⟨name, st₁⟩, hpush, h⟩ := except_bind_ok h
    obtain ⟨⟨rest, st₂⟩, hrest, h⟩ := except_bind_ok h
    cases h
    rw [ih hrest, (pushFresh_ok hpush).1, List.length_cons, List.length_cons]
    omega

theorem lowerFind_stack {rel : String} : ∀ {columns : List Column} {keys : List TypedExpr} {st st' : Lowering}
    {args : List FindArg}, lowerFind prog rel st keys columns = .ok (args, st') →
      st'.stack.length = st.stack.length + columns.length := by
  intro columns
  induction columns with
  | nil =>
    intro keys st st' args h
    cases keys <;> cases h <;> rfl
  | cons column columns ih =>
    intro keys st st' args h
    cases keys with
    | nil =>
      obtain ⟨⟨name, st₁⟩, hpush, h⟩ := except_bind_ok h
      obtain ⟨⟨rest, st₂⟩, hrest, h⟩ := except_bind_ok h
      cases h
      rw [ih hrest, (pushFresh_ok hpush).1, List.length_cons, List.length_cons]
      omega
    | cons key keys =>
      obtain ⟨⟨name, st₁⟩, hpush, h⟩ := except_bind_ok h
      obtain ⟨_, -, h⟩ := except_bind_ok h
      obtain ⟨⟨rest, st₂⟩, hrest, h⟩ := except_bind_ok h
      cases h
      rw [ih hrest, (pushFresh_ok hpush).1, List.length_cons, List.length_cons]
      omega

/-- The columns a word's view declares and its output types lack. -/
def Word.fold (prog : Program) : Word → Nat
  | .resolve view _ _ => ((prog.viewDef view).bind (·.agg)).isSome.toNat
  | _ => 0

/-- **A lowered word moves the stack as its effect declares**, but for the fold of an
aggregate view. -/
theorem lowerWord_effect {st st' : Lowering} {w : Word} {ops : List BehaviorOp}
    (h : lowerWord prog st w = .ok (ops, st')) : ∃ eff, w.effect prog = .ok eff ∧
      eff.pops ≤ st.stack.length ∧ st'.stack.length + w.fold prog = st.stack.length - eff.pops + eff.pushes := by
  cases w with
  | selfEntity | lit v =>
    cases h
    exact ⟨_, rfl, Nat.zero_le _, rfl⟩
  | dup | drop | unary w =>
    obtain ⟨⟨a, rest⟩, hpop, h⟩ := except_bind_ok h
    have hstack := stackPop_ok hpop
    first
      | cases h
      | obtain ⟨e, -, h⟩ := except_bind_ok h
        cases h
    exact ⟨_, rfl, by simp [hstack], by simp [hstack, Word.fold]⟩
  | swap | «over» | nip | tuck | twoDup | twoDrop | binary w =>
    obtain ⟨⟨b, rest⟩, hpop, h⟩ := except_bind_ok h
    obtain ⟨⟨a, rest'⟩, hpop', h⟩ := except_bind_ok h
    have hstack := stackPop_ok hpop
    have hrest := stackPop_ok hpop'
    first
      | cases h
      | obtain ⟨e, -, h⟩ := except_bind_ok h
        cases h
    exact ⟨_, rfl, by simp [hstack, hrest], by simp [hstack, hrest, Word.fold]⟩
  | rot =>
    obtain ⟨⟨c, rest⟩, hpop, h⟩ := except_bind_ok h
    obtain ⟨⟨b, rest'⟩, hpop', h⟩ := except_bind_ok h
    obtain ⟨⟨a, rest''⟩, hpop'', h⟩ := except_bind_ok h
    have hstack := stackPop_ok hpop
    have hrest := stackPop_ok hpop'
    have hrest' := stackPop_ok hpop''
    cases h
    exact ⟨_, rfl, by simp [hstack, hrest, hrest'], by simp [hstack, hrest, hrest', Word.fold]⟩
  | resolve view col op =>
    dsimp only [lowerWord] at h
    split at h
    · cases h
    · rename_i definition hview
      obtain ⟨⟨key, rest⟩, hpop, h⟩ := except_bind_ok h
      obtain ⟨⟨args, rest'⟩, hpopn, h⟩ := except_bind_ok h
      obtain ⟨types, htypes, h⟩ := except_bind_ok h
      have hlen := viewOutputTypes_length hview htypes
      have hstack := stackPop_ok hpop
      have hrest := stackPopN_ok hpopn
      split at h
      · cases h
      · obtain ⟨_, -, h⟩ := except_bind_ok h
        split_ifs at h
        obtain ⟨⟨names, st₁⟩, hpush, h⟩ := except_bind_ok h
        cases h
        have hpushed := pushAll_stack hpush
        refine ⟨⟨definition.params.length + 1, definition.yields.length + definition.agg.isSome.toNat⟩, ?_, ?_, ?_⟩
        · simp [Word.effect, Program.viewShape, hview]
        · simp [hstack, hrest]
        · simp only [Word.fold, hview, Option.bind_some, hpushed, hstack, List.length_cons, hrest, hlen]
          omega
  | find rel keyn =>
    dsimp only [lowerWord] at h
    split at h
    · cases h
    · rename_i schema hschema
      split_ifs at h with harity
      obtain ⟨⟨keys, rest⟩, hpopn, h⟩ := except_bind_ok h
      obtain ⟨⟨args, st₁⟩, hfind, h⟩ := except_bind_ok h
      cases h
      have hrest := stackPopN_ok hpopn
      have hpushed := lowerFind_stack hfind
      obtain ⟨info, hrel, rfl⟩ := Option.map_eq_some_iff.1 hschema
      refine ⟨⟨keyn, info.arity⟩, ?_, by simp [hrest], ?_⟩
      · simp [Word.effect, relArity, Program.relArity, hrel, bind, Except.bind, pure, Except.pure]
      · simp only [Word.fold, hpushed, hrest, RelInfo.arity]
        omega
  | fact w rel =>
    dsimp only [lowerWord] at h
    split at h
    · cases h
    · rename_i schema hschema
      obtain ⟨⟨values, rest⟩, hpopn, h⟩ := except_bind_ok h
      obtain ⟨_, -, h⟩ := except_bind_ok h
      cases h
      have hrest := stackPopN_ok hpopn
      obtain ⟨info, hrel, rfl⟩ := Option.map_eq_some_iff.1 hschema
      have harity : (⟨info.columns⟩ : Schema).arity = info.arity := rfl
      refine ⟨⟨info.arity, 0⟩, ?_, by simp [hrest, harity], ?_⟩
      · simp [Word.effect, relArity, Program.relArity, hrel, bind, Except.bind, pure, Except.pure]
      · simp only [Word.fold, hrest, harity]
        omega

/-! ## Refusals -/

/-- A refusal of the stack: too little on it, or something left. -/
inductive OfStack : String → Prop
  | underflow : OfStack "concatenative stack underflow"
  | leftover (n : Nat) : OfStack ("concatenative body leaves " ++ toString n ++ " value(s) on the stack")

/-- Not refused on account of the stack. -/
def Unstacked {α : Type} (x : Except String α) : Prop := ∀ e, x = .error e → ¬ OfStack e

theorem not_ofStack {e : String} (h : e.toList.take 3 ≠ ['c', 'o', 'n']) : ¬ OfStack e := by
  rintro (_ | n)
  · exact h (by decide)
  · exact h (by simp)

theorem Unstacked.ok {α : Type} (a : α) : Unstacked (.ok a : Except String α) := nofun

theorem Unstacked.error {α : Type} {e : String} (h : e.toList.take 3 ≠ ['c', 'o', 'n']) :
    Unstacked (.error e : Except String α) := by
  rintro _ ⟨⟩
  exact not_ofStack h

theorem Unstacked.bind {α β : Type} {x : Except String α} {f : α → Except String β} (hx : Unstacked x)
    (hf : ∀ a, x = .ok a → Unstacked (f a)) : Unstacked (x >>= f) := by
  cases x with
  | error e => exact fun e' h => hx e' (by cases h; rfl)
  | ok a => exact hf a rfl

theorem bindType_unstacked (types : Types) (name : String) (ty : Ty) : Unstacked (bindType prog types name ty) := by
  unfold bindType
  split_ifs
  · exact .error (by simp)
  · exact .error (by simp)
  · exact .ok _

theorem requireAssignable_unstacked (expected actual : Ty) {context : String}
    (h : ∀ s : String, (context ++ s).toList.take 3 ≠ ['c', 'o', 'n']) :
    Unstacked (requireAssignable expected actual context) := by
  unfold requireAssignable
  split_ifs
  · exact .ok _
  · rw [String.append_assoc, String.append_assoc, String.append_assoc]
    exact .error (h _)

theorem intoValue_unstacked (e : TypedExpr) {context : String}
    (h : ∀ s : String, (context ++ s).toList.take 3 ≠ ['c', 'o', 'n']) : Unstacked (e.intoValue context) := by
  unfold TypedExpr.intoValue
  split
  · exact .ok _
  · exact .error (h _)

theorem intoBool_unstacked (e : TypedExpr) {context : String}
    (h : ∀ s : String, (context ++ s).toList.take 3 ≠ ['c', 'o', 'n']) : Unstacked (e.intoBool context) := by
  unfold TypedExpr.intoBool
  split_ifs
  · rw [String.append_assoc]
    exact .error (h _)
  · split <;> exact .ok _

theorem lowerUnary_unstacked (w : UnaryWord) (e : TypedExpr) : Unstacked (lowerUnary w e) := by
  cases w with
  | neg =>
    dsimp only [lowerUnary]
    split_ifs
    · exact .error (by simp)
    · exact (intoValue_unstacked e fun s => by simp).bind fun _ _ => .ok _
  | toFloat =>
    dsimp only [lowerUnary]
    split_ifs
    · exact .error (by simp)
    · exact (intoValue_unstacked e fun s => by simp).bind fun _ _ => .ok _
  | not =>
    dsimp only [lowerUnary]
    split_ifs
    · exact .error (by simp)
    · exact (intoBool_unstacked e fun s => by simp).bind fun _ _ => .ok _

theorem lowerBinary_unstacked (w : BinaryWord) (left right : TypedExpr) : Unstacked (lowerBinary w left right) := by
  cases w with
  | arith op =>
    dsimp only [lowerBinary, lowerArith]
    split_ifs
    · exact .error (by simp)
    · exact (intoValue_unstacked left fun s => by simp).bind fun _ _ =>
        (intoValue_unstacked right fun s => by simp).bind fun _ _ => .ok _
  | compare op =>
    dsimp only [lowerBinary, lowerCompare]
    split_ifs
    · exact .error (by simp)
    · exact .error (by simp)
    · exact (intoValue_unstacked left fun s => by simp).bind fun _ _ =>
        (intoValue_unstacked right fun s => by simp).bind fun _ _ => .ok _
  | min | max =>
    dsimp only [lowerBinary, lowerMinMax]
    split_ifs
    · exact .error (by simp)
    · exact (intoValue_unstacked left fun s => by simp).bind fun _ _ =>
        (intoValue_unstacked right fun s => by simp).bind fun _ _ => .ok _
  | and | or =>
    exact (intoBool_unstacked left fun s => by simp).bind fun _ _ =>
      (intoBool_unstacked right fun s => by simp).bind fun _ _ => .ok _

theorem pushFresh_unstacked (st : Lowering) (ty : Ty) : Unstacked (pushFresh prog st ty) :=
  (bindType_unstacked _ _ _).bind fun _ _ => .ok _

theorem pushAll_unstacked : ∀ (tys : List Ty) (st : Lowering), Unstacked (pushAll prog st tys)
  | [], _ => .ok _
  | _ :: tys, _ => (pushFresh_unstacked _ _).bind fun _ _ => (pushAll_unstacked tys _).bind fun _ _ => .ok _

theorem lowerFind_unstacked (rel : String) : ∀ (columns : List Column) (keys : List TypedExpr) (st : Lowering),
    Unstacked (lowerFind prog rel st keys columns)
  | [], [], _ | [], _ :: _, _ => .ok _
  | _ :: columns, [], _ => (pushFresh_unstacked _ _).bind fun _ _ =>
    (lowerFind_unstacked rel columns [] _).bind fun _ _ => .ok _
  | _ :: columns, _ :: keys, _ => (pushFresh_unstacked _ _).bind fun _ _ =>
    (requireAssignable_unstacked _ _ fun s => by simp).bind fun _ _ =>
      (lowerFind_unstacked rel columns keys _).bind fun _ _ => .ok _

theorem assignAll_unstacked {context : String} (h : ∀ s : String, (context ++ s).toList.take 3 ≠ ['c', 'o', 'n']) :
    ∀ (vs : List TypedExpr) (cs : List Column), Unstacked (assignAll context vs cs)
  | [], [] | [], _ :: _ | _ :: _, [] => .ok _
  | _ :: vs, _ :: cs => (requireAssignable_unstacked _ _ h).bind fun _ _ => assignAll_unstacked h vs cs

theorem mapM_unstacked {α β : Type} {f : α → Except String β} (h : ∀ a, Unstacked (f a)) :
    ∀ l : List α, Unstacked (l.mapM f)
  | [] => .ok _
  | a :: l => by
      rw [List.mapM_cons]
      exact (h a).bind fun _ _ => (mapM_unstacked h l).bind fun _ _ => .ok _

theorem typeAtoms_unstacked (view : String) : ∀ (atoms : List Atom) (types : List (String × Ty)),
    Unstacked (prog.typeAtoms view types atoms)
  | [], _ => .ok _
  | atom :: atoms, types => by
      have hatom : Unstacked (prog.typeAtom view types atom) := by
        unfold Program.typeAtom
        split
        · exact .error (by simp)
        · split_ifs
          · split
            · split_ifs <;> exact .ok _
            · exact .ok _
          · exact .ok _
      exact hatom.bind fun _ _ => typeAtoms_unstacked view atoms _

theorem viewOutputTypes_unstacked (view : String) : Unstacked (prog.viewOutputTypes view) := by
  unfold Program.viewOutputTypes
  split
  · exact .error (by simp)
  · rename_i v hv
    have htypes : Unstacked (prog.viewVarTypes view) := by
      unfold Program.viewVarTypes
      rw [hv]
      exact typeAtoms_unstacked view _ _
    refine htypes.bind fun types _ => mapM_unstacked (fun y => ?_) _
    split
    · exact .ok _
    · exact .error (by simp)

theorem stackPop_unstacked {stack : List TypedExpr} (h : 0 < stack.length) : Unstacked (stackPop stack) := by
  cases stack with
  | nil => cases h
  | cons e rest => exact .ok _

theorem stackPopN_unstacked {stack : List TypedExpr} {n : Nat} (h : n ≤ stack.length) :
    Unstacked (stackPopN stack n) := by
  unfold stackPopN
  rw [if_neg (Nat.not_lt.2 h)]
  exact .ok _

/-- A word is not refused for want of cells where its declared effect finds them. -/
theorem lowerWord_unstacked {st : Lowering} {w : Word} {eff : StackEffect} (heff : w.effect prog = .ok eff)
    (hdepth : eff.pops ≤ st.stack.length) : Unstacked (lowerWord prog st w) := by
  cases w with
  | selfEntity | lit v => exact .ok _
  | dup | drop =>
    cases heff
    exact (stackPop_unstacked hdepth).bind fun _ _ => .ok _
  | unary w =>
    cases heff
    exact (stackPop_unstacked hdepth).bind fun _ _ => (lowerUnary_unstacked w _).bind fun _ _ => .ok _
  | swap | «over» | nip | tuck | twoDup | twoDrop =>
    cases heff
    refine (stackPop_unstacked (lt_of_lt_of_le Nat.two_pos hdepth)).bind fun ⟨b, rest⟩ hpop => ?_
    rw [stackPop_ok hpop] at hdepth
    exact (stackPop_unstacked (Nat.le_of_succ_le_succ hdepth)).bind fun _ _ => .ok _
  | binary w =>
    cases heff
    refine (stackPop_unstacked (lt_of_lt_of_le Nat.two_pos hdepth)).bind fun ⟨b, rest⟩ hpop => ?_
    rw [stackPop_ok hpop] at hdepth
    exact (stackPop_unstacked (Nat.le_of_succ_le_succ hdepth)).bind fun _ _ =>
      (lowerBinary_unstacked w _ _).bind fun _ _ => .ok _
  | rot =>
    cases heff
    refine (stackPop_unstacked (lt_of_lt_of_le (Nat.zero_lt_succ 2) hdepth)).bind fun ⟨c, rest⟩ hpop => ?_
    rw [stackPop_ok hpop] at hdepth
    have hrest : 2 ≤ rest.length := Nat.le_of_succ_le_succ hdepth
    refine (stackPop_unstacked (by omega)).bind fun ⟨b, rest'⟩ hpop' => ?_
    rw [stackPop_ok hpop'] at hrest
    exact (stackPop_unstacked (Nat.le_of_succ_le_succ hrest)).bind fun _ _ => .ok _
  | resolve view col op =>
    dsimp only [lowerWord]
    split
    · exact .error (by simp)
    · rename_i definition hview
      have hpops : eff.pops = definition.params.length + 1 := by
        simp only [Word.effect, Program.viewShape, hview, Option.map_some, Except.ok.injEq] at heff
        rw [← heff]
      rw [hpops] at hdepth
      refine (stackPop_unstacked (by omega)).bind fun ⟨key, rest⟩ hpop => ?_
      rw [stackPop_ok hpop] at hdepth
      refine (stackPopN_unstacked (Nat.le_of_succ_le_succ hdepth)).bind fun ⟨args, rest'⟩ _ => ?_
      refine (viewOutputTypes_unstacked view).bind fun types _ => ?_
      split
      · exact .error (by simp)
      · refine (requireAssignable_unstacked _ _ fun s => by simp).bind fun _ _ => ?_
        split_ifs
        · exact .error (by simp)
        · exact (pushAll_unstacked types _).bind fun _ _ => .ok _
  | find rel keyn =>
    dsimp only [lowerWord]
    split
    · exact .error (by simp)
    · obtain ⟨arity, -, heff⟩ := bind_ok heff
      cases heff
      split_ifs
      · exact .error (by simp)
      · exact (stackPopN_unstacked hdepth).bind fun _ _ => (lowerFind_unstacked rel _ _ _).bind fun _ _ => .ok _
  | fact w rel =>
    dsimp only [lowerWord]
    split
    · exact .error (by simp)
    · rename_i schema hschema
      obtain ⟨info, hrel, rfl⟩ := Option.map_eq_some_iff.1 hschema
      have hpops : eff.pops = (⟨info.columns⟩ : Schema).arity := by
        simp only [Word.effect, relArity, Program.relArity, hrel, Option.map_some] at heff
        cases heff
        rfl
      exact (stackPopN_unstacked (hpops ▸ hdepth)).bind fun _ _ =>
        (assignAll_unstacked (fun s => by simp) _ _).bind fun _ _ => .ok _

theorem pushInitial_unstacked : ∀ (initial : Types) (st : Lowering), Unstacked (pushInitial prog st initial)
  | [], _ => .ok _
  | _ :: initial, _ => (bindType_unstacked _ _ _).bind fun _ _ => pushInitial_unstacked initial _

/-! ## Words in turn -/

variable {arm : ConcatArm}

theorem depthAfter_append : ∀ (ws ws' : List Word) (i d : Nat),
    depthAfter prog i d (ws ++ ws') = depthAfter prog i d ws >>= fun d => depthAfter prog (i + ws.length) d ws'
  | [], ws', i, d => rfl
  | w :: ws, ws', i, d => by
      rw [List.cons_append, depthAfter, depthAfter]
      cases w.effect prog with
      | error e => rfl
      | ok eff =>
        show (if d < eff.pops then _ else _) = (if d < eff.pops then _ else _ : Except CheckError Nat) >>= _
        split_ifs
        · rfl
        · rw [depthAfter_append ws ws', List.length_cons, Nat.add_assoc, Nat.add_comm 1]

theorem lowerEach_append : ∀ (ws ws' : List Word) (st : Lowering), lowerEach prog st (ws ++ ws') = (do
    let (ops, st) ← lowerEach prog st ws
    let (more, st) ← lowerEach prog st ws'
    return (ops ++ more, st))
  | [], ws', st => by
      show _ = lowerEach prog st ws' >>= fun x => pure ([] ++ x.1, x.2)
      simp
  | w :: ws, ws', st => by
      rw [List.cons_append, lowerEach, lowerEach]
      simp only [lowerEach_append ws ws', bind_assoc, pure_bind, List.append_assoc]

theorem symbolic_append (ws : List Word) (w : Word) : arm.symbolic prog (ws ++ [w]) = (do
    let (ops, st) ← arm.symbolic prog ws
    let (more, st) ← lowerWord prog st w
    return (ops ++ more, st)) := by
  have hok : ∀ x : List BehaviorOp × Lowering, (Except.ok x : Except String _) = pure x := fun _ => rfl
  simp only [ConcatArm.symbolic, lowerEach_append, lowerEach, hok, bind_assoc, pure_bind, List.append_nil]

theorem depth_append (ws : List Word) (w : Word) : arm.depth prog (ws ++ [w]) = (do
    let d ← arm.depth prog ws
    let eff ← w.effect prog
    if d < eff.pops then .error (.underflow ws.length eff.pops d) else .ok (d - eff.pops + eff.pushes)) := by
  simp only [ConcatArm.depth, depthAfter_append, depthAfter, Nat.zero_add]

/-- The two walks of an arm agree: after each prefix both get through the depth is the length
of the stack, what passes the check is not refused by lowering on account of the stack, and
what is lowered passes the check. -/
structure EffectsAgree (prog : Program) (arm : ConcatArm) : Prop where
  depth : ∀ ws, ws <+: arm.words → ∀ d ops st, arm.depth prog ws = .ok d → arm.symbolic prog ws = .ok (ops, st) →
    st.stack.length = d
  lowers : arm.check prog = .ok () → Unstacked (lowerConcatArm prog arm)
  checks : ∀ ops, lowerConcatArm prog arm = .ok ops → arm.check prog = .ok ()

/-- No word both walks get past resolves against an aggregate view. -/
def ResolvesPlain (prog : Program) (arm : ConcatArm) : Prop :=
  ∀ ws w, ws ++ [w] <+: arm.words → (arm.depth prog (ws ++ [w])).isOk → (arm.symbolic prog (ws ++ [w])).isOk →
    w.fold prog = 0

/-- What a word does to the depth and to the stack, where both walks get past it. -/
theorem both_past {ws : List Word} {w : Word} {d : Nat} {ops : List BehaviorOp} {st : Lowering}
    (hd : arm.depth prog (ws ++ [w]) = .ok d) (hst : arm.symbolic prog (ws ++ [w]) = .ok (ops, st)) :
    ∃ (d₀ : Nat) (ops₀ : List BehaviorOp) (st₀ : Lowering) (eff : StackEffect),
      arm.depth prog ws = .ok d₀ ∧ arm.symbolic prog ws = .ok (ops₀, st₀) ∧
      eff.pops ≤ st₀.stack.length ∧ d = d₀ - eff.pops + eff.pushes ∧
        st.stack.length + w.fold prog = st₀.stack.length - eff.pops + eff.pushes := by
  rw [depth_append] at hd
  rw [symbolic_append] at hst
  obtain ⟨d₀, hd₀, hd⟩ := bind_ok hd
  obtain ⟨eff, heff, hd⟩ := bind_ok hd
  obtain ⟨⟨ops₀, st₀⟩, hst₀, hst⟩ := bind_ok hst
  obtain ⟨⟨more, st₁⟩, hword, hst⟩ := bind_ok hst
  cases hst
  obtain ⟨eff', heff', hpops, hlen⟩ := lowerWord_effect hword
  obtain rfl := Except.ok.inj (heff.symm.trans heff')
  split_ifs at hd with hunder
  cases hd
  exact ⟨d₀, ops₀, st₀, eff, hd₀, hst₀, hpops, rfl, hlen⟩

/-- **The depth is the length of the stack**, as long as nothing aggregated is resolved. -/
theorem depth_eq_length (hplain : ResolvesPlain prog arm) : ∀ ws, ws <+: arm.words → ∀ d ops st,
    arm.depth prog ws = .ok d → arm.symbolic prog ws = .ok (ops, st) → st.stack.length = d := by
  intro ws
  induction ws using List.reverseRecOn with
  | nil =>
    intro _ d ops st hd hst
    obtain ⟨st₀, hinit, hst⟩ := bind_ok hst
    cases hst
    cases hd
    rw [(pushInitial_ok hinit).2.1]
    simp
  | append_singleton ws w ih =>
    intro hpre d ops st hd hst
    have hfold := hplain ws w hpre (by rw [hd]; rfl) (by rw [hst]; rfl)
    obtain ⟨d₀, ops₀, st₀, eff, hd₀, hst₀, -, rfl, hlen⟩ := both_past hd hst
    rw [← ih ((List.prefix_append ws [w]).trans hpre) d₀ ops₀ st₀ hd₀ hst₀, ← hlen, hfold, Nat.add_zero]

/-- Words that pass the check are lowered, or refused for something else. -/
theorem symbolic_unstacked (hplain : ResolvesPlain prog arm) : ∀ ws, ws <+: arm.words → ∀ d,
    arm.depth prog ws = .ok d → Unstacked (arm.symbolic prog ws) := by
  intro ws
  induction ws using List.reverseRecOn with
  | nil => exact fun _ _ _ => (pushInitial_unstacked _ _).bind fun _ _ => .ok _
  | append_singleton ws w ih =>
    intro hpre d hd
    have hws := (List.prefix_append ws [w]).trans hpre
    rw [depth_append] at hd
    rw [symbolic_append]
    obtain ⟨d₀, hd₀, hd⟩ := bind_ok hd
    obtain ⟨eff, heff, hd⟩ := bind_ok hd
    split_ifs at hd with hunder
    refine (ih hws d₀ hd₀).bind fun ⟨ops₀, st₀⟩ hst₀ => ?_
    have hlen := depth_eq_length hplain ws hws d₀ ops₀ st₀ hd₀ hst₀
    exact (lowerWord_unstacked heff (by omega)).bind fun _ _ => .ok _

/-- Words that are lowered are declared, and find their cells. -/
theorem depth_of_symbolic (hplain : ResolvesPlain prog arm) : ∀ ws, ws <+: arm.words → ∀ ops st,
    arm.symbolic prog ws = .ok (ops, st) → ∃ d, arm.depth prog ws = .ok d := by
  intro ws
  induction ws using List.reverseRecOn with
  | nil => exact fun _ _ _ _ => ⟨_, rfl⟩
  | append_singleton ws w ih =>
    intro hpre ops st hst
    have hws := (List.prefix_append ws [w]).trans hpre
    rw [symbolic_append] at hst
    obtain ⟨⟨ops₀, st₀⟩, hst₀, hst⟩ := bind_ok hst
    obtain ⟨⟨more, st₁⟩, hword, -⟩ := bind_ok hst
    obtain ⟨d₀, hd₀⟩ := ih hws ops₀ st₀ hst₀
    obtain ⟨eff, heff, hpops, -⟩ := lowerWord_effect hword
    have hlen := depth_eq_length hplain ws hws d₀ ops₀ st₀ hd₀ hst₀
    refine ⟨d₀ - eff.pops + eff.pushes, ?_⟩
    rw [depth_append, ok_bind hd₀, ok_bind heff, if_neg (by omega)]

theorem lowerConcatArm_eq : lowerConcatArm prog arm = (do
    let (ops, st) ← arm.symbolic prog arm.words
    if st.stack ≠ [] then
      .error ("concatenative body leaves " ++ toString st.stack.length ++ " value(s) on the stack")
    else return ops) := by
  rw [ConcatArm.symbolic, bind_assoc]
  rfl

/-- **The declared effects against lowering**: they agree on an arm exactly when no word both
get past resolves against an aggregate view. -/
theorem stack_effects_agree (prog : Program) (arm : ConcatArm) :
    EffectsAgree prog arm ↔ ResolvesPlain prog arm := by
  constructor
  · intro h ws w hpre hd hst
    match hd' : arm.depth prog (ws ++ [w]), hst' : arm.symbolic prog (ws ++ [w]) with
    | .error e, _ =>
        rw [hd'] at hd
        cases hd
    | .ok d, .error e =>
        rw [hst'] at hst
        cases hst
    | .ok d, .ok (ops, st) =>
        obtain ⟨d₀, ops₀, st₀, eff, hd₀, hst₀, -, rfl, hlen⟩ := both_past hd' hst'
        have hbefore := h.depth _ ((List.prefix_append ws [w]).trans hpre) d₀ ops₀ st₀ hd₀ hst₀
        have hafter := h.depth _ hpre _ ops st hd' hst'
        rw [hbefore] at hlen
        omega
  · intro hplain
    refine ⟨depth_eq_length hplain, fun hcheck => ?_, fun ops hops => ?_⟩
    · obtain ⟨d, hd, hcheck⟩ := bind_ok hcheck
      split_ifs at hcheck with hzero
      rw [lowerConcatArm_eq]
      refine (symbolic_unstacked hplain _ List.prefix_rfl d hd).bind fun ⟨ops, st⟩ hst => ?_
      have hlen := depth_eq_length hplain _ List.prefix_rfl d ops st hd hst
      have hempty : st.stack = [] := List.length_eq_zero_iff.1 (by omega)
      dsimp only
      rw [if_neg (not_not.2 hempty)]
      exact .ok _
    · rw [lowerConcatArm_eq] at hops
      obtain ⟨⟨ops', st⟩, hst, hops⟩ := bind_ok hops
      dsimp only at hops
      split_ifs at hops with hempty
      obtain ⟨d, hd⟩ := depth_of_symbolic hplain _ List.prefix_rfl ops' st hst
      have hlen := depth_eq_length hplain _ List.prefix_rfl d ops' st hd hst
      have hzero : d = 0 := by rw [← hlen, not_not.1 hempty, List.length_nil]
      rw [ConcatArm.check, ok_bind hd, if_neg (not_not.2 hzero)]

/-- A view that sums the scores of each player. -/
def totals : Program where
  rels := [⟨"score", 10, [⟨"who", .ent⟩, ⟨"n", .int⟩]⟩]
  views := [("total", ⟨[], [⟨"score", [.var "who", .var "n"], false⟩], ["who"], some ⟨.sum, some "n"⟩, false, none⟩)]
  entities := []
  contexts := []
  viewCursor := none

/-- Looks its own total up and drops both columns. -/
def dropsTotal : ConcatArm := ⟨"Show", [], [.selfEntity, .resolve "total" "who" .exact_, .drop, .drop]⟩

/-- Looks its own total up and drops the player alone. -/
def dropsWho : ConcatArm := ⟨"Show", [], [.selfEntity, .resolve "total" "who" .exact_, .drop]⟩

/-- The first passes the check and is refused by lowering, the second the other way round. -/
theorem totals_misjudged : dropsTotal.check totals = .ok () ∧
    lowerConcatArm totals dropsTotal = .error "concatenative stack underflow" ∧ ¬ EffectsAgree totals dropsTotal ∧
      dropsWho.check totals = .error (.leftover 1) ∧ (lowerConcatArm totals dropsWho).isOk ∧
        ¬ EffectsAgree totals dropsWho := by
  have hcheck : dropsWho.check totals = .error (.leftover 1) := rfl
  refine ⟨rfl, rfl, fun h => h.lowers rfl _ rfl .underflow, hcheck, rfl, fun h => ?_⟩
  have hok := h.checks _ rfl
  rw [hcheck] at hok
  cases hok

end Effects

end Grmpl

import Grmpl.Lang.Parser

/-!
# What is printed is parsed

Expressions are printed with the parentheses that the levels need and no others, and
statements around them. Parsing gives back what was printed, wherever it stands.

* `Expr.print`, `SArg.print`, `Stmt.print`: the tokens of what is written.
* `Expr.Surface`, `SArg.Surface`, `Stmt.Surface`: what the language has a text for.
* `Parse.expr_print`, `Parse.stmtBlock_print`: it is parsed as it was.
-/

namespace Grmpl

open Precedence (Written Reads Past Distinct climb)

/-! ## Printing expressions -/

/-- How tightly an operator binds, from the loosest. -/
def BinaryOp.level : BinaryOp → Nat
  | .or => 0
  | .and => 1
  | .compare .eq | .compare .ne => 2
  | .compare _ => 3
  | .arith .add | .arith .sub => 4
  | .arith _ => 5

def BinaryOp.token : BinaryOp → Token
  | .or => .orOr
  | .and => .andAnd
  | .compare .eq => .eqEq
  | .compare .ne => .ne
  | .compare .lt => .lt
  | .compare .le => .le
  | .compare .gt => .gt
  | .compare .ge => .ge
  | .arith .add => .plus
  | .arith .sub => .minus
  | .arith .mul => .star
  | .arith .div => .slash
  | .arith .rem => .percent

def UnaryOp.token : UnaryOp → Token
  | .neg => .minus
  | .not => .bang

def Expr.level : Expr → Nat
  | .binary op .. => op.level
  | .unary .. => 6
  | _ => 7

def boolToken (b : Bool) : Token := .ident (if b then "true" else "false")

/-- A literal; the values that no source writes have no tokens. -/
def Value.print : Value → List Token
  | .int n => [.int n]
  | .float x => [.float x]
  | .text s => [.str s]
  | .bool b => [boolToken b]
  | _ => []

/-- An expression where only some levels may stand, in parentheses if it is of a looser one. -/
def Expr.within (level : Nat) (e : Expr) (ts : List Token) : List Token :=
  if e.level < level then .lParen :: (ts ++ [.rParen]) else ts

def commaSeparated : List (List Token) → List Token
  | [] => []
  | ts :: more => ts ++ more.flatMap (.comma :: ·)

def inParens (items : List (List Token)) : List Token := .lParen :: (commaSeparated items ++ [.rParen])

mutual

/-- The tokens of an expression, every operator grouping to the left. -/
def Expr.print : Expr → List Token
  | .var name => [.ident name]
  | .lit v => v.print
  | .unary op e => op.token :: e.within 6 e.print
  | .binary op l r => l.within op.level l.print ++ op.token :: r.within (op.level + 1) r.print
  | .call name args => .ident name :: inParens (printAll args)

def printAll : List Expr → List (List Token)
  | [] => []
  | e :: es => e.print :: printAll es

end

/-- A name that is no constant. -/
def IsVariable (name : String) : Prop := name ≠ "true" ∧ name ≠ "false"

/-- The literals of the language. -/
def Value.Surface : Value → Prop
  | .int _ | .float _ | .text _ | .bool _ => True
  | _ => False

mutual

/-- What the language writes of operators, calls, variables and its literals. -/
def Expr.Surface : Expr → Prop
  | .var name => IsVariable name
  | .lit v => v.Surface
  | .unary _ e => e.Surface
  | .binary _ l r => l.Surface ∧ r.Surface
  | .call name args => IsVariable name ∧ SurfaceAll args

def SurfaceAll : List Expr → Prop
  | [] => True
  | e :: es => e.Surface ∧ SurfaceAll es

end

namespace Parse

/-! ## Lists -/

section Lists

variable {α : Type} {item : List Token → Except Diagnostic (α × List Token)} {print : α → List Token}

/-- What ends an element of a list. -/
def EndsItem (ts : List Token) : Prop := ts.head? = some .comma ∨ ts.head? = some .rParen

theorem commas_print {xs : List α} (h : ∀ x ∈ xs, Reads item EndsItem (print x) x) (rest : List Token) :
    ∀ n, xs.length ≤ n →
      commas item n (xs.flatMap (fun x => .comma :: print x) ++ .rParen :: rest) = .ok (xs, .rParen :: rest) := by
  induction xs with
  | nil => intro n _; cases n <;> rfl
  | cons x xs ih =>
    intro n hn
    obtain ⟨n, rfl⟩ : ∃ m, n = m + 1 := ⟨n - 1, by simp at hn; omega⟩
    have hends : EndsItem (xs.flatMap (fun x => .comma :: print x) ++ .rParen :: rest) := by
      cases xs with
      | nil => exact Or.inr rfl
      | cons y ys => exact Or.inl rfl
    simp only [List.flatMap_cons, List.cons_append, List.append_assoc, commas]
    rw [ok_bind (h x List.mem_cons_self _ hends),
      ok_bind (ih (fun y hy => h y (List.mem_cons_of_mem _ hy)) n (by simp at hn; omega))]
    rfl

/-- Each element of a list has its comma. -/
theorem length_le_commas (print : α → List Token) (xs : List α) (rest : List Token) :
    xs.length ≤ (xs.flatMap (fun x => .comma :: print x) ++ rest).length := by
  induction xs with
  | nil => exact Nat.zero_le _
  | cons x xs ih =>
    simp only [List.flatMap_cons, List.cons_append, List.append_assoc, List.length_cons, List.length_append] at ih ⊢
    omega

theorem expect_self (t : Token) (ts : List Token) : expect t (t :: ts) = .ok ts := if_pos rfl

/-- A list is read up to the closing parenthesis. -/
theorem closed_print {xs : List α} (h : ∀ x ∈ xs, Reads item EndsItem (print x) x)
    (hclose : ∀ ts r, item (.rParen :: ts) ≠ .ok r) (rest : List Token) :
    closed item (commaSeparated (xs.map print) ++ .rParen :: rest) = .ok (xs, rest) := by
  cases xs with
  | nil => rfl
  | cons x xs =>
    have hends : EndsItem (xs.flatMap (fun x => .comma :: print x) ++ .rParen :: rest) := by
      cases xs with
      | nil => exact Or.inr rfl
      | cons y ys => exact Or.inl rfl
    have htokens : commaSeparated ((x :: xs).map print) ++ .rParen :: rest
        = print x ++ (xs.flatMap (fun x => .comma :: print x) ++ .rParen :: rest) := by
      simp [commaSeparated, List.flatMap_map]
    have hcommas := commas_print (fun y hy => h y (List.mem_cons_of_mem _ hy)) rest
      (xs.flatMap (fun x => .comma :: print x) ++ .rParen :: rest).length (length_le_commas print xs _)
    have hlist : commaList item (print x ++ (xs.flatMap (fun x => .comma :: print x) ++ .rParen :: rest))
        = .ok (x :: xs, .rParen :: rest) := by
      simp only [commaList, ok_bind (h x List.mem_cons_self _ hends), ok_bind hcommas]
      rfl
    have hfirst := h x List.mem_cons_self _ hends
    rw [htokens]
    revert hlist hfirst
    generalize print x ++ (xs.flatMap (fun x => .comma :: print x) ++ .rParen :: rest) = ts
    intro hlist hfirst
    unfold closed
    split
    · exact absurd hfirst (hclose _ _)
    · simp only [ok_bind hlist, ok_bind (expect_self _ _)]
      rfl

theorem parens_print {xs : List α} (h : ∀ x ∈ xs, Reads item EndsItem (print x) x)
    (hclose : ∀ ts r, item (.rParen :: ts) ≠ .ok r) (rest : List Token) :
    parens item (inParens (xs.map print) ++ rest) = .ok (xs, rest) := by
  rw [inParens, List.cons_append, parens, ok_bind (expect_self _ _), List.append_assoc, List.singleton_append]
  exact closed_print h hclose rest

theorem length_le_commaSeparated {tss : List (List Token)} {ts : List Token} (h : ts ∈ tss) :
    ts.length ≤ (commaSeparated tss).length := by
  cases tss with
  | nil => cases h
  | cons first more =>
    rw [commaSeparated, List.length_append]
    rcases List.mem_cons.1 h with rfl | h
    · omega
    · have hmem : (.comma :: ts) ∈ more.map (Token.comma :: ·) := List.mem_map_of_mem h
      have := (List.sublist_flatten_of_mem hmem).length_le
      rw [List.flatMap_def]
      simp only [List.length_cons] at this
      omega

end Lists

/-! ## Expressions -/

/-- The levels, the loosest first. -/
def levels : List (Token → Option BinaryOp) :=
  [orOp, andOp, equalityOp, comparisonOp, additiveOp, multiplicativeOp]

theorem exprAt_succ (n : Nat) : exprAt (n + 1) = climb .binary (exprUnary (exprAt n)) levels := rfl

/-- What an operand may stand before: after a name, a parenthesis would make it a call. -/
def Stops (ts : List Token) : Prop := ts.head? ≠ some .lParen

theorem level_of_isSome {table : Token → Option BinaryOp} (h : table ∈ levels) {t : Token} (ht : (table t).isSome) :
    t ≠ .lParen := by
  rintro rfl
  revert table
  decide

theorem levels_distinct : Distinct levels := by
  simp only [Distinct, levels, List.pairwise_cons, List.mem_cons, List.not_mem_nil, or_false, forall_eq_or_imp,
    forall_eq, List.Pairwise.nil, and_true, IsEmpty.forall_iff, implies_true]
  refine ⟨⟨?_, ?_, ?_, ?_, ?_⟩, ⟨?_, ?_, ?_, ?_⟩, ⟨?_, ?_, ?_⟩, ⟨?_, ?_⟩, ?_⟩ <;>
    (intro t ht; cases t <;> first | rfl | cases ht)

theorem level_table (op : BinaryOp) :
    ∃ table, levels.drop op.level = table :: levels.drop (op.level + 1) ∧ table op.token = some op := by
  cases op with
  | arith op => cases op <;> exact ⟨_, rfl, rfl⟩
  | compare op => cases op <;> exact ⟨_, rfl, rfl⟩
  | and => exact ⟨_, rfl, rfl⟩
  | or => exact ⟨_, rfl, rfl⟩

theorem level_le (op : BinaryOp) : op.level ≤ 5 := by
  cases op with
  | arith op => cases op <;> decide
  | compare op => cases op <;> decide
  | and => decide
  | or => decide

/-- An expression is written at its level, wherever its tokens fit the nesting. -/
def WrittenBack (e : Expr) : Prop :=
  e.print ≠ [] ∧ ∀ n, e.print.length ≤ n + 1 →
    Written .binary (Reads (exprUnary (exprAt n)) Stops) (levels.drop e.level) e.print e

/-- What ends an expression. -/
def EndsExpr (ts : List Token) : Prop := Stops ts ∧ Past levels ts

section Expressions

variable {e : Expr}

theorem WrittenBack.reads (h : WrittenBack e) {n : Nat} (hn : e.print.length ≤ n) :
    Reads (exprAt n) EndsExpr e.print e := by
  obtain ⟨n, rfl⟩ : ∃ m, n = m + 1 := by
    have := List.length_pos_of_ne_nil h.1
    exact ⟨n - 1, by omega⟩
  rw [exprAt_succ]
  exact Written.read levels_distinct (fun table htable t ht rest h => level_of_isSome htable ht (Option.some.inj h))
    (Written.drop (Nat.zero_le _) (h.2 n hn))

theorem ends_item {ts : List Token} (h : EndsItem ts) : EndsExpr ts := by
  have hnone : ∀ table ∈ levels, table .comma = none ∧ table .rParen = none := by decide
  refine ⟨by rcases h with h | h <;> simp [Stops, h], fun table htable t ht => ?_⟩
  rcases h with h | h <;> cases (h ▸ ht : some _ = some t)
  · exact (hnone table htable).1
  · exact (hnone table htable).2

/-- In parentheses an expression is an operand. -/
theorem WrittenBack.within (h : WrittenBack e) {n k : Nat} (hk : k ≤ 6) (hn : (e.within k e.print).length ≤ n + 1) :
    Written .binary (Reads (exprUnary (exprAt n)) Stops) (levels.drop k) (e.within k e.print) e := by
  unfold Expr.within at hn ⊢
  split
  case isTrue hlt =>
    rw [if_pos hlt] at hn
    refine Written.drop hk (.atom fun rest _ => ?_)
    have hinner := h.reads (n := n) (by simp at hn; omega) (.rParen :: rest) (ends_item (Or.inr rfl))
    show exprPrimary (exprAt n) (.lParen :: (e.print ++ [.rParen] ++ rest)) = _
    rw [List.append_assoc, List.singleton_append]
    simp only [exprPrimary, ok_bind hinner, ok_bind (expect_self _ _)]
    rfl
  case isFalse hlt =>
    rw [if_neg hlt] at hn
    exact Written.drop (Nat.le_of_not_lt hlt) (h.2 n hn)

end Expressions

theorem exprName_var {expr : List Token → Except Diagnostic (Expr × List Token)} {name : String}
    (h : IsVariable name) {ts : List Token} (hstop : Stops ts) : exprName expr name ts = .ok (.var name, ts) := by
  unfold exprName
  rw [if_neg h.1, if_neg h.2]
  split
  · exact absurd rfl hstop
  · rfl

theorem exprUnary_token (expr : List Token → Except Diagnostic (Expr × List Token)) (op : UnaryOp) (ts : List Token) :
    exprUnary expr (op.token :: ts) = (do
      let (e, ts) ← exprUnary expr ts
      return (.unary op e, ts)) := by
  cases op <;> rfl

theorem printAll_eq (es : List Expr) : printAll es = es.map Expr.print := by
  induction es with
  | nil => rfl
  | cons e es ih => rw [printAll, ih, List.map_cons]

/-- No expression starts with a closing parenthesis. -/
theorem exprAt_rParen (n : Nat) (ts : List Token) (r : Expr × List Token) : exprAt n (.rParen :: ts) ≠ .ok r := by
  cases n <;> exact nofun

mutual

theorem writtenBack : ∀ {e : Expr}, e.Surface → WrittenBack e
  | .var name, h => by
      refine ⟨by simp [Expr.print], fun n _ => .atom fun rest hstop => ?_⟩
      exact exprName_var h hstop
  | .lit v, h => by
      cases v with
      | int n => exact ⟨by simp [Expr.print, Value.print], fun n _ => .atom fun rest _ => rfl⟩
      | float x => exact ⟨by simp [Expr.print, Value.print], fun n _ => .atom fun rest _ => rfl⟩
      | text s => exact ⟨by simp [Expr.print, Value.print], fun n _ => .atom fun rest _ => rfl⟩
      | bool b =>
        refine ⟨by simp [Expr.print, Value.print], fun n _ => .atom fun rest _ => ?_⟩
        cases b <;> rfl
      | ent _ | tuple _ | bytes _ | code _ => exact h.elim
  | .unary op e, h => by
      have ih : WrittenBack e := writtenBack h
      refine ⟨by simp [Expr.print], fun n hn => .atom fun rest hstop => ?_⟩
      have hlength : (e.within 6 e.print).length ≤ n + 1 := by
        rw [Expr.print] at hn
        simp at hn
        omega
      obtain ⟨hoperand⟩ := ih.within (Nat.le_refl 6) hlength
      rw [Expr.print, List.cons_append, exprUnary_token]
      simp only [ok_bind (hoperand rest hstop)]
      rfl
  | .binary op l r, h => by
      have ihl : WrittenBack l := writtenBack h.1
      have ihr : WrittenBack r := writtenBack h.2
      obtain ⟨table, hdrop, htable⟩ := level_table op
      have hlevel := level_le op
      refine ⟨by simp [Expr.print], fun n hn => ?_⟩
      have hlength : (l.within op.level l.print).length ≤ n + 1 ∧ (r.within (op.level + 1) r.print).length ≤ n + 1 := by
        rw [Expr.print, List.length_append, List.length_cons] at hn
        omega
      have hl := ihl.within (n := n) (by omega) hlength.1
      have hr := ihr.within (n := n) (by omega) hlength.2
      show Written _ _ (levels.drop op.level) _ _
      rw [hdrop] at hl ⊢
      exact .binary htable hl hr
  | .call name args, h => by
      have ih : ∀ e ∈ args, WrittenBack e := writtenBack_all h.2
      refine ⟨by simp [Expr.print], fun n hn => .atom fun rest _ => ?_⟩
      have hargs : ∀ e ∈ args, Reads (exprAt n) EndsItem e.print e := by
        intro e he ts hts
        refine (ih e he).reads ?_ ts (ends_item hts)
        have := length_le_commaSeparated (List.mem_map_of_mem (f := Expr.print) he)
        rw [Expr.print, inParens, printAll_eq] at hn
        simp only [List.length_cons, List.length_append] at hn
        omega
      have hclosed := closed_print hargs (exprAt_rParen n) rest
      show exprName (exprAt n) name (.lParen :: (commaSeparated (printAll args) ++ [.rParen] ++ rest)) = _
      rw [printAll_eq, List.append_assoc, List.singleton_append]
      unfold exprName
      rw [if_neg h.1.1, if_neg h.1.2]
      simp only [ok_bind hclosed]
      rfl

theorem writtenBack_all : ∀ {es : List Expr}, SurfaceAll es → ∀ e ∈ es, WrittenBack e
  | [], _ => by simp
  | e :: es, h => by
      intro x hx
      rcases List.mem_cons.1 hx with hx | hx
      · rw [hx]
        exact writtenBack h.1
      · exact writtenBack_all h.2 x hx

end

/-- **Expressions are parsed as they are printed**, before whatever ends them. -/
theorem expr_print {e : Expr} (h : e.Surface) : Reads expr EndsExpr e.print e := fun rest hrest =>
  (writtenBack h).reads (by simp) rest hrest

end Parse

/-! ## Printing literals and statements -/

def intTokens (n : Int64) : List Token := if 0 ≤ n.toInt then [.int n] else [.minus, .int (-n)]

def FiniteF64.negative (x : FiniteF64) : Prop := 2 ^ 63 ≤ x.bits.toNat

instance (x : FiniteF64) : Decidable x.negative := Nat.decLe _ _

def floatTokens (x : FiniteF64) : List Token := if x.negative then [.minus, .float x.opposite] else [.float x]

def SArg.print : SArg → List Token
  | .var name => [.ident name]
  | .str s => [.str s]
  | .int n => intTokens n
  | .float x => floatTokens x
  | .bool b => [boolToken b]

/-- The arguments that have a text: the least integer has none. -/
def SArg.Surface : SArg → Prop
  | .var name => IsVariable name
  | .int n => n ≠ Int64.minValue
  | _ => True

def FactWord.name : FactWord → String
  | .expect => "expect"
  | .assert => "assert"
  | .retract => "retract"
  | .emit => "emit"

def MatchOp.token : MatchOp → Token
  | .exact_ => .eq
  | .word => .tilde

/-- A block of statements, of the tokens of each. -/
def inBraces (ts : List Token) : List Token := .lBrace :: (ts ++ [.rBrace])

/-- The branch after `else`; an empty one is left out. -/
def elseTokens : List Stmt → List Token → List Token
  | [], _ => []
  | _ :: _, ts => .ident "else" :: inBraces ts

mutual

def Stmt.print : Stmt → List Token
  | .let_ name value => .ident "let" :: .ident name :: .eq :: value.print
  | .if_ condition thenStmts elseStmts =>
      .ident "if" :: (condition.print ++ (inBraces (printStmts thenStmts) ++
        elseTokens elseStmts (printStmts elseStmts)))
  | .fresh capability name => [.ident "fresh", .ident capability, .ident "as", .ident name]
  | .random capability bound name =>
      .ident "random" :: .ident capability :: .ident "below" :: (bound.print ++ [.ident "as", .ident name])
  | .schedule capability due tag arguments target =>
      .ident "schedule" :: .ident capability :: .ident "at" :: (due.print ++ .ident "send" :: .ident tag ::
        (inParens (arguments.map Expr.print) ++ [.ident "to", .ident target]))
  | .resolve view args col op rhs =>
      .ident "resolve" :: .ident view :: (inParens (args.map SArg.print) ++
        .ident "where" :: .ident col :: op.token :: rhs.print)
  | .find rel args => .ident "find" :: .ident rel :: inParens (args.map SArg.print)
  | .fact w rel args => .ident w.name :: .ident rel :: inParens (args.map SArg.print)

def printStmts : List Stmt → List Token
  | [] => []
  | s :: ss => s.print ++ printStmts ss

end

mutual

/-- What the language writes of statements. -/
def Stmt.Surface : Stmt → Prop
  | .let_ _ value => value.Surface
  | .if_ condition thenStmts elseStmts =>
      condition.Surface ∧ SurfaceStmts thenStmts ∧ SurfaceStmts elseStmts
  | .fresh .. => True
  | .random _ bound _ => bound.Surface
  | .schedule _ due _ arguments _ => due.Surface ∧ ∀ e ∈ arguments, e.Surface
  | .resolve _ args _ _ rhs => (∀ a ∈ args, a.Surface) ∧ rhs.Surface
  | .find _ args | .fact _ _ args => ∀ a ∈ args, a.Surface

def SurfaceStmts : List Stmt → Prop
  | [] => True
  | s :: ss => s.Surface ∧ SurfaceStmts ss

end

/-- A block of statements, as it is written. -/
def printBlock (ss : List Stmt) : List Token := inBraces (printStmts ss)

namespace Parse

/-! ## Literals -/

section Literals

variable {α : Type} {mk : Literals α} {named : String → List Token → Except Diagnostic (α × List Token)}
  {below what : String}

/-- **An integer is parsed as it is written, sign and all**, unless it is the least of them. -/
theorem literalOr_int {n : Int64} (h : n ≠ Int64.minValue) (ts : List Token) :
    literalOr mk named below what (intTokens n ++ ts) = .ok (mk.int n, ts) := by
  unfold intTokens
  split
  · rfl
  · have hneg : -n ≠ Int64.minValue := fun hn => h (by rw [← Int64.neg_neg (a := n), hn]; rfl)
    have hchecked : checkedNeg (-n) = some n := by rw [checkedNeg, if_neg hneg, Int64.neg_neg]
    simp [literalOr, hchecked]

theorem opposite_opposite {x : FiniteF64} (h : x.negative) : x.opposite.opposite = x := by
  have hbits : ∀ {y : FiniteF64}, y.bits ≠ 0 → y.opposite.bits = y.bits ^^^ 0x8000000000000000 := by
    intro y hy
    rw [FiniteF64.opposite, dif_neg hy]
  have hne : x.bits ≠ 0 := by
    intro hx
    rw [FiniteF64.negative, hx] at h
    exact absurd h (by decide)
  have hopposite : x.opposite.bits ≠ 0 := by
    rw [hbits hne]
    exact fun hx => x.canonical (UInt64.xor_eq_zero_iff.1 hx)
  have hsame : x.opposite.opposite.bits = x.bits := by
    rw [hbits hopposite, hbits hne, UInt64.xor_assoc, UInt64.xor_self, UInt64.xor_zero]
  cases hx : x.opposite.opposite
  cases x
  simpa [hx] using hsame

theorem literalOr_float (x : FiniteF64) (ts : List Token) :
    literalOr mk named below what (floatTokens x ++ ts) = .ok (mk.float x, ts) := by
  unfold floatTokens
  split
  case isTrue h =>
    show Except.ok (mk.float x.opposite.opposite, ts) = _
    rw [opposite_opposite h]
  case isFalse => rfl

theorem literalOr_bool (b : Bool) (ts : List Token) :
    literalOr mk named below what (boolToken b :: ts) = .ok (mk.bool b, ts) := by
  cases b <;> rfl

theorem literalOr_named {name : String} (h : IsVariable name) (ts : List Token) :
    literalOr mk named below what (.ident name :: ts) = named name ts := by
  rw [literalOr, if_neg h.1, if_neg h.2]

end Literals

theorem sarg_print {a : SArg} (h : a.Surface) (ts : List Token) : sarg (a.print ++ ts) = .ok (a, ts) := by
  cases a with
  | var name => exact literalOr_named h ts
  | str s => rfl
  | int n => exact literalOr_int h ts
  | float x => exact literalOr_float x ts
  | bool b => exact literalOr_bool b ts

theorem sarg_rParen (ts : List Token) (r : SArg × List Token) : sarg (.rParen :: ts) ≠ .ok r := nofun

theorem sargs_print {args : List SArg} (h : ∀ a ∈ args, a.Surface) (rest : List Token) :
    parens sarg (inParens (args.map SArg.print) ++ rest) = .ok (args, rest) :=
  parens_print (fun a ha ts _ => sarg_print (h a ha) ts) sarg_rParen rest

theorem exprs_print {es : List Expr} (h : ∀ e ∈ es, e.Surface) (rest : List Token) :
    parens expr (inParens (es.map Expr.print) ++ rest) = .ok (es, rest) :=
  parens_print (fun e he ts hts => expr_print (h e he) ts (ends_item hts)) (fun ts r => exprAt_rParen _ ts r) rest

/-! ## Statements -/

/-- What ends a statement: another one, or the end of the block. -/
def EndsStmt (ts : List Token) : Prop := ∀ t ∈ ts.head?, t = .rBrace ∨ ∃ kw, t = .ident kw ∧ kw ≠ "else"

theorem ends_ident (s : String) (ts : List Token) : EndsExpr (.ident s :: ts) := by
  refine ⟨by simp [Stops], ?_⟩
  rintro table htable t ⟨⟩
  simp only [levels, List.mem_cons, List.not_mem_nil, or_false] at htable
  rcases htable with rfl | rfl | rfl | rfl | rfl | rfl <;> rfl

theorem ends_brace {t : Token} (h : t = .lBrace ∨ t = .rBrace) (ts : List Token) : EndsExpr (t :: ts) := by
  have hnone : ∀ table ∈ levels, table .lBrace = none ∧ table .rBrace = none := by decide
  refine ⟨by rcases h with rfl | rfl <;> simp [Stops], ?_⟩
  rintro table htable u ⟨⟩
  rcases h with rfl | rfl
  · exact (hnone table htable).1
  · exact (hnone table htable).2

theorem EndsStmt.expr {ts : List Token} (h : EndsStmt ts) : EndsExpr ts := by
  cases ts with
  | nil => exact ⟨nofun, nofun⟩
  | cons t ts =>
    rcases h t rfl with rfl | ⟨kw, rfl, -⟩
    · exact ends_brace (Or.inr rfl) ts
    · exact ends_ident kw ts

theorem keyword_self (kw «where» : String) (ts : List Token) : keyword kw «where» (.ident kw :: ts) = .ok ts := by
  simp only [keyword, ident]
  exact if_pos rfl

theorem ident_self (s : String) (ts : List Token) : ident (.ident s :: ts) = .ok (s, ts) := rfl

theorem matchOp_token (op : MatchOp) (ts : List Token) : matchOp (op.token :: ts) = .ok (op, ts) := by
  cases op <;> rfl

/-- A statement starts with a word, which is not the one before a second branch. -/
theorem print_head (s : Stmt) : ∃ kw ts, s.print = .ident kw :: ts ∧ kw ≠ "else" := by
  cases s with
  | fact w rel args => cases w <;> exact ⟨_, _, by rw [Stmt.print], by decide⟩
  | _ => exact ⟨_, _, by rw [Stmt.print], by decide⟩

theorem length_printStmts (ss : List Stmt) : ss.length ≤ (printStmts ss).length := by
  induction ss with
  | nil => exact Nat.zero_le _
  | cons s ss ih =>
    obtain ⟨kw, ts, hs, -⟩ := print_head s
    rw [printStmts, List.length_append, hs]
    simp only [List.length_cons]
    omega

theorem ends_stmts (ss : List Stmt) (rest : List Token) : EndsStmt (printStmts ss ++ .rBrace :: rest) := by
  intro t ht
  cases ss with
  | nil => exact Or.inl (Option.some.inj ht).symm
  | cons s ss =>
    obtain ⟨kw, ts, hs, hkw⟩ := print_head s
    rw [printStmts, hs] at ht
    exact Or.inr ⟨kw, (Option.some.inj ht).symm, hkw⟩

/-- The statements of a block are parsed, of whatever parses each of them. -/
def StmtsBack (ss : List Stmt) : Prop :=
  ∀ n, (printStmts ss).length ≤ n → ∀ m, ss.length ≤ m → ∀ rest,
    statements (stmtAt n) m (printStmts ss ++ .rBrace :: rest) = .ok (ss, rest)

theorem StmtsBack.block {ss : List Stmt} (h : StmtsBack ss) {n : Nat} (hn : (printStmts ss).length ≤ n)
    (rest : List Token) : blockOf (stmtAt n) (inBraces (printStmts ss) ++ rest) = .ok (ss, rest) := by
  rw [inBraces, List.cons_append, blockOf, ok_bind (expect_self _ _), List.append_assoc, List.singleton_append]
  refine h n hn _ ?_ rest
  have := length_printStmts ss
  rw [List.length_append]
  omega

theorem elseBlock_print {ss : List Stmt} (h : StmtsBack ss) {n : Nat} (hn : (printStmts ss).length ≤ n)
    {rest : List Token} (hrest : EndsStmt rest) :
    elseBlock (blockOf (stmtAt n)) (elseTokens ss (printStmts ss) ++ rest) = .ok (ss, rest) := by
  cases ss with
  | nil =>
    rw [elseTokens, List.nil_append]
    unfold elseBlock
    split
    · rename_i s ts
      rcases hrest _ rfl with h | ⟨kw, h, hkw⟩
      · cases h
      · cases h
        rw [if_neg hkw]
    · rfl
  | cons s ss =>
    rw [elseTokens, List.cons_append, elseBlock, if_pos rfl]
    exact h.block hn rest

mutual

theorem stmtAt_print : ∀ {s : Stmt}, s.Surface → ∀ n, s.print.length ≤ n → Reads (stmtAt n) EndsStmt s.print s
  | .let_ name value, h => by
      intro n hn rest hrest
      rw [Stmt.print] at hn ⊢
      obtain ⟨n, rfl⟩ : ∃ m, n = m + 1 := ⟨n - 1, by simp at hn; omega⟩
      have hvalue := expr_print h rest hrest.expr
      simp only [List.cons_append, stmtAt, ok_bind (ident_self _ _)]
      simp [stmtNamed, factWords, List.lookup, ok_bind (ident_self _ _), ok_bind (expect_self _ _), hvalue]
  | .if_ condition thenStmts elseStmts, h => by
      intro n hn rest hrest
      rw [Stmt.print] at hn ⊢
      obtain ⟨n, rfl⟩ : ∃ m, n = m + 1 := ⟨n - 1, by simp at hn; omega⟩
      have hthen := (stmtsBack h.2.1).block (n := n) (by simp [inBraces] at hn; omega)
        (elseTokens elseStmts (printStmts elseStmts) ++ rest)
      have helse : elseBlock (blockOf (stmtAt n)) (elseTokens elseStmts (printStmts elseStmts) ++ rest)
          = .ok (elseStmts, rest) := by
        refine elseBlock_print (stmtsBack h.2.2) ?_ hrest
        cases elseStmts with
        | nil => exact Nat.zero_le _
        | cons s ss => simp [inBraces, elseTokens] at hn; omega
      have hcondition := expr_print h.1 _ (ends_brace (Or.inl rfl)
        (printStmts thenStmts ++ [.rBrace] ++ (elseTokens elseStmts (printStmts elseStmts) ++ rest)))
      simp only [inBraces, List.cons_append, List.nil_append, List.append_assoc] at hthen hcondition ⊢
      simp only [stmtAt, ok_bind (ident_self _ _)]
      simp [stmtNamed, factWords, List.lookup, ok_bind hcondition, ok_bind hthen, helse]
  | .fresh capability name, h => by
      intro n hn rest hrest
      rw [Stmt.print] at hn ⊢
      obtain ⟨n, rfl⟩ : ∃ m, n = m + 1 := ⟨n - 1, by simp at hn; omega⟩
      simp only [List.cons_append, List.nil_append, stmtAt, ok_bind (ident_self _ _)]
      simp [stmtNamed, factWords, List.lookup, ok_bind (ident_self _ _), ok_bind (keyword_self _ _ _)]
      rfl
  | .random capability bound name, h => by
      intro n hn rest hrest
      rw [Stmt.print] at hn ⊢
      obtain ⟨n, rfl⟩ : ∃ m, n = m + 1 := ⟨n - 1, by simp at hn; omega⟩
      have hbound := expr_print h _ (ends_ident "as" (.ident name :: rest))
      simp only [List.cons_append, List.nil_append, List.append_assoc, stmtAt, ok_bind (ident_self _ _)]
      simp [stmtNamed, factWords, List.lookup, ok_bind (ident_self _ _), ok_bind (keyword_self _ _ _),
        ok_bind hbound]
      rfl
  | .schedule capability due tag arguments target, h => by
      intro n hn rest hrest
      rw [Stmt.print] at hn ⊢
      obtain ⟨n, rfl⟩ : ∃ m, n = m + 1 := ⟨n - 1, by simp at hn; omega⟩
      have hdue := expr_print h.1 _ (ends_ident "send" (.ident tag ::
        (inParens (arguments.map Expr.print) ++ (.ident "to" :: .ident target :: rest))))
      have harguments := exprs_print h.2 (.ident "to" :: .ident target :: rest)
      simp only [List.cons_append, List.nil_append, List.append_assoc, stmtAt, ok_bind (ident_self _ _)]
      simp [stmtNamed, factWords, List.lookup, ok_bind (ident_self _ _), ok_bind (keyword_self _ _ _),
        ok_bind hdue, ok_bind harguments]
      rfl
  | .resolve view args col op rhs, h => by
      intro n hn rest hrest
      rw [Stmt.print] at hn ⊢
      obtain ⟨n, rfl⟩ : ∃ m, n = m + 1 := ⟨n - 1, by simp at hn; omega⟩
      have hargs := sargs_print h.1 (.ident "where" :: .ident col :: op.token :: (rhs.print ++ rest))
      have hrhs := sarg_print h.2 rest
      simp only [List.cons_append, List.append_assoc, stmtAt, ok_bind (ident_self _ _)]
      simp [stmtNamed, factWords, List.lookup, ok_bind (ident_self _ _), ok_bind (keyword_self _ _ _),
        ok_bind hargs, ok_bind (matchOp_token _ _), hrhs]
  | .find rel args, h => by
      intro n hn rest hrest
      rw [Stmt.print] at hn ⊢
      obtain ⟨n, rfl⟩ : ∃ m, n = m + 1 := ⟨n - 1, by simp at hn; omega⟩
      simp only [List.cons_append, stmtAt, ok_bind (ident_self _ _)]
      simp [stmtNamed, factWords, List.lookup, ok_bind (ident_self _ _), sargs_print h rest]
  | .fact w rel args, h => by
      intro n hn rest hrest
      rw [Stmt.print] at hn ⊢
      obtain ⟨n, rfl⟩ : ∃ m, n = m + 1 := ⟨n - 1, by simp at hn; omega⟩
      have hlookup : factWords.lookup w.name = some w := by cases w <;> rfl
      simp only [List.cons_append, stmtAt, ok_bind (ident_self _ _)]
      simp only [stmtNamed, hlookup, ok_bind (ident_self _ _), ok_bind (sargs_print h rest)]
      rfl

theorem stmtsBack : ∀ {ss : List Stmt}, SurfaceStmts ss → StmtsBack ss
  | [], _ => by
      intro n _ m _ rest
      cases m <;> rfl
  | s :: ss, h => by
      intro n hn m hm rest
      rw [printStmts, List.length_append] at hn
      obtain ⟨m, rfl⟩ : ∃ k, m = k + 1 := ⟨m - 1, by simp at hm; omega⟩
      have hstmt := stmtAt_print h.1 n (by omega) _ (ends_stmts ss rest)
      have hmore := stmtsBack h.2 n (by omega) m (by simp at hm; omega) rest
      obtain ⟨kw, ts, hs, -⟩ := print_head s
      rw [printStmts, List.append_assoc]
      rw [hs] at hstmt ⊢
      rw [List.cons_append] at hstmt ⊢
      simp only [statements, ok_bind hstmt, ok_bind hmore]
      rfl

end

/-- **Statements are parsed as they are printed**, and so is every expression in them. -/
theorem stmtBlock_print {ss : List Stmt} (h : SurfaceStmts ss) (rest : List Token) :
    stmtBlock (printBlock ss ++ rest) = .ok (ss, rest) := by
  refine (stmtsBack h).block ?_ rest
  simp only [printBlock, inBraces, List.cons_append, List.length_cons, List.length_append]
  omega

end Parse

end Grmpl

import Grmpl.Lang.Lexer
import Grmpl.Lang.Requirements
import Grmpl.Lang.Statements
import Grmpl.Lib.Precedence

/-!
# Parsing expressions, statements and literals

A descent over the tokens: each function takes what it needs of their front and leaves the
rest. The six levels of binary operators are one loop, each over the level that binds
tighter. Parentheses, calls and blocks go down one level of a nesting that the tokens left
bound.

* `Diagnostic`: what is wrong with a source.
* `Parse.expr`: expressions, from `exprPrimary` and `exprUnary` up to `exprOr`.
* `Parse.literalOr`: the literals of an argument, a bootstrap fact and a word.
* `Parse.stmtBlock`: statements.
-/

namespace Grmpl

open Precedence (chain climb)

inductive Diagnostic where
  | lexer (msg : String)
  /-- What is wrong with the token that is there, or with the end of the input. -/
  | found (msg : String) (token : Option Token)
  | wanted (token : Token) (found : Option Token)
  | message (msg : String)
  deriving DecidableEq

/-! ## Signs -/

/-- The sign of a float is not among the bits that make it finite. -/
theorem xor_sign (b : UInt64) :
    (b ^^^ 0x8000000000000000) &&& 0x7FF0000000000000 = b &&& 0x7FF0000000000000 := by
  have happart : ∀ i < 64, ((0x8000000000000000#64).getLsbD i && (0x7FF0000000000000#64).getLsbD i) = false := by
    decide
  refine UInt64.toBitVec_inj.1 (BitVec.eq_of_getLsbD_eq fun i hi => ?_)
  have hi := happart i hi
  simp only [UInt64.toBitVec_and, UInt64.toBitVec_xor, BitVec.getLsbD_and, BitVec.getLsbD_xor, Bool.and_xor_distrib_right]
  exact (congrArg (b.toBitVec.getLsbD i && _ ^^ ·) hi).trans (Bool.xor_false _)

/-- The float with the other sign; there is one zero. -/
def FiniteF64.opposite (x : FiniteF64) : FiniteF64 :=
  if h : x.bits = 0 then x
  else ⟨x.bits ^^^ 0x8000000000000000, xor_sign x.bits ▸ x.finite, fun hs =>
    h (by simpa [UInt64.xor_assoc] using congrArg (· ^^^ (0x8000000000000000 : UInt64)) hs)⟩

namespace Parse

/-! ## Single tokens -/

section Tokens

variable {α : Type}

def expected (what : String) (ts : List Token) : Except Diagnostic (α × List Token) :=
  .error (.found ("expected " ++ what) ts.head?)

def expect (want : Token) : List Token → Except Diagnostic (List Token)
  | t :: ts => if t = want then .ok ts else .error (.wanted want (some t))
  | [] => .error (.wanted want none)

def ident : List Token → Except Diagnostic (String × List Token)
  | .ident s :: ts => .ok (s, ts)
  | ts => expected "identifier" ts

/-- A keyword, and where the message says it was expected. -/
def keyword (kw «where» : String) (ts : List Token) : Except Diagnostic (List Token) := do
  let (actual, ts) ← ident ts
  if actual = kw then .ok ts
  else .error (.message ("expected `" ++ kw ++ "`" ++ «where» ++ ", found `" ++ actual ++ "`"))

/-! ## Lists -/

variable (item : List Token → Except Diagnostic (α × List Token))

/-- So many more at most, a comma before each. -/
def commas : Nat → List Token → Except Diagnostic (List α × List Token)
  | n + 1, .comma :: ts => do
      let (x, ts) ← item ts
      let (xs, ts) ← commas n ts
      return (x :: xs, ts)
  | _, ts => .ok ([], ts)

/-- One, and as many more as commas follow. -/
def commaList (ts : List Token) : Except Diagnostic (List α × List Token) := do
  let (x, ts) ← item ts
  let (xs, ts) ← commas item ts.length ts
  return (x :: xs, ts)

/-- A list that may be empty, up to the closing parenthesis. -/
def closed : List Token → Except Diagnostic (List α × List Token)
  | .rParen :: ts => .ok ([], ts)
  | ts => do
      let (xs, ts) ← commaList item ts
      let ts ← expect .rParen ts
      return (xs, ts)

def parens (ts : List Token) : Except Diagnostic (List α × List Token) := do
  let ts ← expect .lParen ts
  closed item ts

end Tokens

/-! ## Expressions -/

def orOp : Token → Option BinaryOp
  | .orOr => some .or
  | _ => none

def andOp : Token → Option BinaryOp
  | .andAnd => some .and
  | _ => none

def equalityOp : Token → Option BinaryOp
  | .eqEq => some (.compare .eq)
  | .ne => some (.compare .ne)
  | _ => none

def comparisonOp : Token → Option BinaryOp
  | .lt => some (.compare .lt)
  | .le => some (.compare .le)
  | .gt => some (.compare .gt)
  | .ge => some (.compare .ge)
  | _ => none

def additiveOp : Token → Option BinaryOp
  | .plus => some (.arith .add)
  | .minus => some (.arith .sub)
  | _ => none

def multiplicativeOp : Token → Option BinaryOp
  | .star => some (.arith .mul)
  | .slash => some (.arith .div)
  | .percent => some (.arith .rem)
  | _ => none

section Expr

variable (expr : List Token → Except Diagnostic (Expr × List Token))

/-- A name: a constant, a call if a parenthesis follows, or else a variable. -/
def exprName (name : String) (ts : List Token) : Except Diagnostic (Expr × List Token) :=
  if name = "true" then .ok (.lit (.bool true), ts)
  else if name = "false" then .ok (.lit (.bool false), ts)
  else match ts with
    | .lParen :: ts => do
        let (args, ts) ← closed expr ts
        return (.call name args, ts)
    | ts => .ok (.var name, ts)

def exprPrimary : List Token → Except Diagnostic (Expr × List Token)
  | .ident name :: ts => exprName expr name ts
  | .str s :: ts => .ok (.lit (.text s), ts)
  | .int n :: ts => .ok (.lit (.int n), ts)
  | .float x :: ts => .ok (.lit (.float x), ts)
  | .lParen :: ts => do
      let (e, ts) ← expr ts
      let ts ← expect .rParen ts
      return (e, ts)
  | ts => expected "expression" ts

def exprUnary : List Token → Except Diagnostic (Expr × List Token)
  | .minus :: ts => do
      let (e, ts) ← exprUnary ts
      return (.unary .neg e, ts)
  | .bang :: ts => do
      let (e, ts) ← exprUnary ts
      return (.unary .not e, ts)
  | ts => exprPrimary expr ts

def exprMultiplicative : List Token → Except Diagnostic (Expr × List Token) :=
  chain .binary multiplicativeOp (exprUnary expr)

def exprAdditive : List Token → Except Diagnostic (Expr × List Token) :=
  chain .binary additiveOp (exprMultiplicative expr)

def exprComparison : List Token → Except Diagnostic (Expr × List Token) :=
  chain .binary comparisonOp (exprAdditive expr)

def exprEquality : List Token → Except Diagnostic (Expr × List Token) :=
  chain .binary equalityOp (exprComparison expr)

def exprAnd : List Token → Except Diagnostic (Expr × List Token) :=
  chain .binary andOp (exprEquality expr)

def exprOr : List Token → Except Diagnostic (Expr × List Token) :=
  chain .binary orOp (exprAnd expr)

end Expr

/-- An expression nested so deep at most: a parenthesis goes down a level and is a token. -/
def exprAt : Nat → List Token → Except Diagnostic (Expr × List Token)
  | 0 => expected "expression"
  | n + 1 => exprOr (exprAt n)

def expr (ts : List Token) : Except Diagnostic (Expr × List Token) := exprAt ts.length ts

/-! ## Literals -/

def checkedNeg (n : Int64) : Option Int64 := if n = Int64.minValue then none else some (-n)

/-- What is made of the literals of a position. -/
structure Literals (α : Type) where
  int : Int64 → α
  float : FiniteF64 → α
  text : String → α
  bool : Bool → α

section Literals

variable {α : Type}

/-- A literal, or what the position makes of another name: a number may have a sign. -/
def literalOr (mk : Literals α) (named : String → List Token → Except Diagnostic (α × List Token))
    (below what : String) : List Token → Except Diagnostic (α × List Token)
  | .ident s :: ts =>
      if s = "true" then .ok (mk.bool true, ts)
      else if s = "false" then .ok (mk.bool false, ts)
      else named s ts
  | .str s :: ts => .ok (mk.text s, ts)
  | .int n :: ts => .ok (mk.int n, ts)
  | .float x :: ts => .ok (mk.float x, ts)
  | .minus :: .int n :: ts =>
      match checkedNeg n with
      | some m => .ok (mk.int m, ts)
      | none => .error (.message below)
  | .minus :: .float x :: ts => .ok (mk.float x.opposite, ts)
  | .minus :: ts => expected "a number after `-`" ts
  | ts => expected what ts

end Literals

def belowMin : String := "integer literal is below i64::MIN"

def sarg : List Token → Except Diagnostic (SArg × List Token) :=
  literalOr ⟨.int, .float, .str, .bool⟩ (fun name ts => .ok (.var name, ts)) belowMin "an argument"

/-- An argument of a view's atom. -/
def arg : List Token → Except Diagnostic (Arg × List Token) :=
  literalOr ⟨.int, .float, .str, .bool⟩ (fun name ts => .ok (.var name, ts)) belowMin "an argument"

/-- A value of a bootstrap fact, of tuples nested so deep at most. -/
def bootstrapValueAt : Nat → List Token → Except Diagnostic (BootstrapValue × List Token)
  | n + 1, .lParen :: ts => do
      let (values, ts) ← closed (bootstrapValueAt n) ts
      return (.tuple values, ts)
  | _, ts =>
      literalOr ⟨.int, .float, .text, .bool⟩ (fun name ts => .ok (.entity name, ts))
        "bootstrap integer is below i64::MIN" "bootstrap literal" ts

def bootstrapValue (ts : List Token) : Except Diagnostic (BootstrapValue × List Token) :=
  bootstrapValueAt ts.length ts

/-- The words that take nothing but what is on the stack. -/
def stackWords : List (String × Word) :=
  [("self", .selfEntity), ("dup", .dup), ("drop", .drop), ("swap", .swap), ("over", .over), ("rot", .rot),
    ("nip", .nip), ("tuck", .tuck), ("dup2", .twoDup), ("drop2", .twoDrop), ("add", .binary (.arith .add)),
    ("sub", .binary (.arith .sub)), ("mul", .binary (.arith .mul)), ("div", .binary (.arith .div)),
    ("rem", .binary (.arith .rem)), ("neg", .unary .neg), ("min", .binary .min), ("max", .binary .max),
    ("to_float", .unary .toFloat), ("eq", .binary (.compare .eq)), ("ne", .binary (.compare .ne)),
    ("lt", .binary (.compare .lt)), ("le", .binary (.compare .le)), ("gt", .binary (.compare .gt)),
    ("ge", .binary (.compare .ge)), ("not", .unary .not), ("and", .binary .and), ("or", .binary .or)]

/-- The words, and the statements, about one fact of a relation. -/
def factWords : List (String × FactWord) :=
  [("expect", .expect), ("assert", .assert), ("retract", .retract), ("emit", .emit)]

def matchOp : List Token → Except Diagnostic (MatchOp × List Token)
  | .eq :: ts => .ok (.exact_, ts)
  | .tilde :: ts => .ok (.word, ts)
  | ts => expected "`=` or `~`" ts

def keyCount (ts : List Token) : Except Diagnostic (Nat × List Token) :=
  let refused := .error (.found "`find` needs a key count" ts.head?)
  match ts with
  | .int n :: ts => if 0 ≤ n.toInt then .ok (n.toInt.toNat, ts) else refused
  | _ => refused

def wordNamed (kw : String) (ts : List Token) : Except Diagnostic (Word × List Token) :=
  match stackWords.lookup kw, factWords.lookup kw with
  | some w, _ => .ok (w, ts)
  | none, some w => do
      let (rel, ts) ← ident ts
      return (.fact w rel, ts)
  | none, none =>
      if kw = "resolve" then do
        let (view, ts) ← ident ts
        let (col, ts) ← ident ts
        let (op, ts) ← matchOp ts
        return (.resolve view col op, ts)
      else if kw = "find" then do
        let (rel, ts) ← ident ts
        let (keyn, ts) ← keyCount ts
        return (.find rel keyn, ts)
      else .error (.message ("unknown word `" ++ kw ++ "`"))

def word : List Token → Except Diagnostic (Word × List Token) :=
  literalOr ⟨.lit ∘ .int, .lit ∘ .float, .lit ∘ .text, .lit ∘ .bool⟩ wordNamed belowMin "a word"

/-! ## Statements -/

section Stmt

variable (block : List Token → Except Diagnostic (List Stmt × List Token))

/-- The branch after `else`, if there is one. -/
def elseBlock : List Token → Except Diagnostic (List Stmt × List Token)
  | .ident s :: ts => if s = "else" then block ts else .ok ([], .ident s :: ts)
  | ts => .ok ([], ts)

/-- A statement after its first word. -/
def stmtNamed (kw : String) (ts : List Token) : Except Diagnostic (Stmt × List Token) :=
  match factWords.lookup kw with
  | some w => do
      let (rel, ts) ← ident ts
      let (args, ts) ← parens sarg ts
      return (.fact w rel args, ts)
  | none =>
      if kw = "let" then do
        let (name, ts) ← ident ts
        let ts ← expect .eq ts
        let (value, ts) ← expr ts
        return (.let_ name value, ts)
      else if kw = "if" then do
        let (condition, ts) ← expr ts
        let (thenStmts, ts) ← block ts
        let (elseStmts, ts) ← elseBlock block ts
        return (.if_ condition thenStmts elseStmts, ts)
      else if kw = "fresh" then do
        let (capability, ts) ← ident ts
        let ts ← keyword "as" " after fresh capability" ts
        let (name, ts) ← ident ts
        return (.fresh capability name, ts)
      else if kw = "random" then do
        let (capability, ts) ← ident ts
        let ts ← keyword "below" " after random capability" ts
        let (bound, ts) ← expr ts
        let ts ← keyword "as" " after random bound" ts
        let (name, ts) ← ident ts
        return (.random capability bound name, ts)
      else if kw = "schedule" then do
        let (capability, ts) ← ident ts
        let ts ← keyword "at" "" ts
        let (due, ts) ← expr ts
        let ts ← keyword "send" "" ts
        let (tag, ts) ← ident ts
        let (arguments, ts) ← parens expr ts
        let ts ← keyword "to" "" ts
        let (target, ts) ← ident ts
        return (.schedule capability due tag arguments target, ts)
      else if kw = "resolve" then do
        let (view, ts) ← ident ts
        let (args, ts) ← parens sarg ts
        let ts ← keyword "where" "" ts
        let (col, ts) ← ident ts
        let (op, ts) ← matchOp ts
        let (rhs, ts) ← sarg ts
        return (.resolve view args col op rhs, ts)
      else if kw = "find" then do
        let (rel, ts) ← ident ts
        let (args, ts) ← parens sarg ts
        return (.find rel args, ts)
      else .error (.message ("unknown statement `" ++ kw ++ "`"))

end Stmt

section Block

variable (stmt : List Token → Except Diagnostic (Stmt × List Token))

/-- So many statements at most, up to the closing brace. -/
def statements : Nat → List Token → Except Diagnostic (List Stmt × List Token)
  | _, .rBrace :: ts => .ok ([], ts)
  | n + 1, t :: ts => do
      let (s, ts) ← stmt (t :: ts)
      let (ss, ts) ← statements n ts
      return (s :: ss, ts)
  | _, _ => .error (.message "unterminated statement block")

def blockOf (ts : List Token) : Except Diagnostic (List Stmt × List Token) := do
  let ts ← expect .lBrace ts
  statements stmt ts.length ts

end Block

/-- A statement nested so deep at most: a block goes down a level and has braces. -/
def stmtAt : Nat → List Token → Except Diagnostic (Stmt × List Token)
  | 0, ts => expected "identifier" ts
  | n + 1, ts => do
      let (kw, ts) ← ident ts
      stmtNamed (blockOf (stmtAt n)) kw ts

def stmtBlock (ts : List Token) : Except Diagnostic (List Stmt × List Token) := blockOf (stmtAt ts.length) ts

end Parse

end Grmpl

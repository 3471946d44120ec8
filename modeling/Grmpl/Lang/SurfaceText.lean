import Grmpl.Lang.Printed

/-!
# Texts of expressions and literals

From characters to trees: any text of an expression is lexed and parsed as that expression,
alone and in every statement. So is the text of every integer but one: the digits of the
least 64-bit integer are lexed before its sign is seen, and are too many.

* `Parses`: what a text is parsed as, all of it.
* `IntegerText`: how an integer is written.
* `surface_text`: expressions and statements are parsed as they were, and integers but for
  the least.
* `least_integer_refused`: the least integer has a text that is refused.
-/

namespace Grmpl

open Parse

/-- Lexing a text, and parsing its tokens. -/
def parseText {α : Type} (cset : Charset) (parse : List Token → Except Diagnostic (α × List Token))
    (cs : List Char) : Except Diagnostic (α × List Token) :=
  match lex cset cs with
  | .error msg => .error (.lexer msg)
  | .ok ts => parse ts

/-- A text is parsed as something, and nothing of it is left. -/
def Parses {α : Type} (cset : Charset) (parse : List Token → Except Diagnostic (α × List Token)) (cs : List Char)
    (x : α) : Prop :=
  parseText cset parse cs = .ok (x, [])

/-- How an integer is written: its digits, after a sign if it is negative. -/
inductive IntegerText (n : Int64) : List Char → Prop
  | plain {digits : List Char} : Digits digits → (decimal digits : Int) = n.toInt → IntegerText n digits
  | signed {digits : List Char} : n.toInt < 0 → Digits digits → (decimal digits : Int) = -n.toInt →
      IntegerText n ('-' :: digits)

variable {cset : Charset}

theorem parses_of_spelled {α : Type} {parse : List Token → Except Diagnostic (α × List Token)} {ts : List Token}
    {cs : List Char} {x : α} (h : cset.Spells ts cs) (hparse : parse ts = .ok (x, [])) : Parses cset parse cs x := by
  rw [Parses, parseText, lex_spelled h]
  exact hparse

/-! ## Integers -/

theorem toInt_neg {n : Int64} (h : n ≠ Int64.minValue) : (-n).toInt = -n.toInt := by
  have hne : n.toInt ≠ -2 ^ 63 := fun hn => h (Int64.toInt_inj.1 hn)
  have hlt := n.toInt_lt
  have hle := n.le_toInt
  rw [Int64.toInt_neg, Int.bmod_eq_of_le (by omega) (by omega)]

theorem spells_int {n : Int64} {digits : List Char} (hdigits : Digits digits) (hn : (decimal digits : Int) = n.toInt) :
    cset.Spells [.int n] digits := by
  have hend : ∀ c ∈ ([] : List Char).head?, cset.continues (.int n) c = false := by simp
  have := Charset.Spells.cons .nil (show cset.WrittenAs (.int n) digits from ⟨hdigits, hn⟩) hend (.nil .nil)
  simpa using this

/-- Digits go on with no sign. -/
theorem minus_stops {digits : List Char} (h : Digits digits) : ∀ c ∈ digits.head?, cset.continues .minus c = false := by
  intro c hc
  have hdigit := h.2 c (List.mem_of_mem_head? hc)
  refine decide_eq_false ?_
  rintro rfl
  cases hdigit

/-- The text of an integer spells it, but for the least one. -/
theorem IntegerText.spells {n : Int64} {cs : List Char} (h : IntegerText n cs) (hn : n ≠ Int64.minValue) :
    cset.Spells (intTokens n) cs := by
  cases h with
  | plain hdigits hdecimal =>
    rw [intTokens, if_pos (by omega)]
    exact spells_int hdigits hdecimal
  | @signed digits hneg hdigits hdecimal =>
    rw [intTokens, if_neg (by omega)]
    exact .cons .nil (show cset.WrittenAs .minus ['-'] from rfl) (minus_stops hdigits)
      (spells_int hdigits (by rw [hdecimal, toInt_neg hn]))

/-- **The least integer is lexed as nothing**: its digits are more than an integer can be. -/
theorem lex_least {cs : List Char} (h : IntegerText Int64.minValue cs) : ∃ msg, lex cset cs = .error msg := by
  cases h with
  | plain hdigits hdecimal =>
    have : Int64.minValue.toInt = -2 ^ 63 := rfl
    omega
  | @signed digits _ hdigits hdecimal =>
    have hlarge : decimal digits = 2 ^ 63 := by
      have : Int64.minValue.toInt = -2 ^ 63 := rfl
      omega
    obtain ⟨c, ds, rfl⟩ := List.exists_cons_of_ne_nil hdigits.1
    have htwo : ∀ d ∈ (c :: ds).head?, twoChars '-' d = none := by
      intro d hd
      have hstop : cset.continues .minus d = false := minus_stops hdigits d hd
      have hne : d ≠ '>' := of_decide_eq_false hstop
      exact (twoChars_pairs _ d).resolve_right (by simp [hne])
    have hminus : lexOne cset '-' (c :: ds) = .ok (some .minus, c :: ds) :=
      lexOne_one rfl rfl htwo fun h => absurd h (by decide)
    have hnumber : lexNumber cset (c :: ds) = .error ("bad integer `" ++ String.ofList (c :: ds) ++ "`") := by
      have hint : lexNumber cset (c :: ds ++ []) = _ := lexNumber_int hdigits (by simp)
      rw [List.append_nil, parseInt, if_neg (by omega)] at hint
      exact hint
    have hc := hdigits.2 c List.mem_cons_self
    have hone : lexOne cset c ds = .error ("bad integer `" ++ String.ofList (c :: ds) ++ "`") := by
      rw [lexOne_plain (digit_plain hc), if_pos hc, hnumber]
      rfl
    refine ⟨"bad integer `" ++ String.ofList (c :: ds) ++ "`", ?_⟩
    show lexFor cset (ds.length + 2) ('-' :: c :: ds) = _
    rw [lexFor_step hminus, lexFor, hone]
    rfl

/-! ## Texts -/

/-- A position that parses the tokens of an integer parses its text, but for the least. -/
theorem parses_int {α : Type} {parse : List Token → Except Diagnostic (α × List Token)} {x : α} {n : Int64}
    {cs : List Char} (h : IntegerText n cs) (hparse : n ≠ Int64.minValue → parse (intTokens n) = .ok (x, [])) :
    Parses cset parse cs x ↔ n ≠ Int64.minValue := by
  constructor
  · rintro hparses rfl
    obtain ⟨msg, hmsg⟩ : ∃ msg, lex cset cs = .error msg := lex_least h
    rw [Parses, parseText, hmsg] at hparses
    cases hparses
  · exact fun hn => parses_of_spelled (h.spells hn) (hparse hn)

/-- No integer starts a tuple. -/
theorem bootstrapValue_int {n : Int64} (h : n ≠ Int64.minValue) : bootstrapValue (intTokens n) = .ok (.int n, []) := by
  have hliteral : literalOr ⟨BootstrapValue.int, .float, .text, .bool⟩ (fun name ts => .ok (.entity name, ts))
      "bootstrap integer is below i64::MIN" "bootstrap literal" (intTokens n ++ []) = .ok (.int n, []) :=
    literalOr_int h []
  rw [List.append_nil] at hliteral
  unfold intTokens at hliteral ⊢
  split <;> simp_all [bootstrapValue, bootstrapValueAt]

/-- **Texts are parsed as what they write.** Whatever text an expression of the language
has, it is parsed as that expression, alone and where it stands in a statement; and the text
of an integer is parsed as that integer in every position of a literal, unless it is the
least of them. -/
theorem surface_text (cset : Charset) :
    (∀ e : Expr, e.Surface → ∀ cs, cset.Spells e.print cs → Parses cset expr cs e) ∧
    (∀ ss : List Stmt, SurfaceStmts ss → ∀ cs, cset.Spells (printBlock ss) cs → Parses cset stmtBlock cs ss) ∧
    ∀ (n : Int64) (cs : List Char), IntegerText n cs →
      (Parses cset sarg cs (.int n) ↔ n ≠ Int64.minValue) ∧
      (Parses cset arg cs (.int n) ↔ n ≠ Int64.minValue) ∧
      (Parses cset bootstrapValue cs (.int n) ↔ n ≠ Int64.minValue) ∧
      (Parses cset word cs (.lit (.int n)) ↔ n ≠ Int64.minValue) := by
  have hlist : ∀ ts : List Token, ts ++ [] = ts := List.append_nil
  refine ⟨fun e he cs hcs => parses_of_spelled hcs ?_, fun ss hss cs hcs => parses_of_spelled hcs ?_,
    fun n cs hcs => ⟨parses_int hcs fun hn => ?_, parses_int hcs fun hn => ?_, parses_int hcs bootstrapValue_int,
      parses_int hcs fun hn => ?_⟩⟩
  · have hend : EndsExpr [] := EndsStmt.expr nofun
    simpa only [hlist] using expr_print he [] hend
  · simpa only [hlist] using stmtBlock_print hss []
  all_goals
    rw [← hlist (intTokens n)]
    exact literalOr_int hn []

/-- Letters and digits of ASCII, and no floats. -/
def plainCharset : Charset := ⟨Char.isAlpha, Char.isDigit, fun _ => none, fun _ _ => rfl, fun _ _ => rfl⟩

/-- `a-(b-1)`: the parentheses are needed, since `-` groups to the left. -/
def leftOver : Expr :=
  .binary (.arith .sub) (.var "a") (.binary (.arith .sub) (.var "b") (.lit (.int 1)))

theorem leftOver_spelled : plainCharset.Spells leftOver.print "a-(b-1)".toList := by
  have hname : ∀ s c, s.toList = [c] → plainCharset.startsName c → plainCharset.WrittenAs (.ident s) [c] := by
    rintro s c hs hc
    exact ⟨hs.symm, c, [], rfl, hc, by simp⟩
  have hnext : ∀ t c cs, plainCharset.continues t c = false →
      ∀ d ∈ (c :: cs).head?, plainCharset.continues t d = false := by
    rintro t c cs h d ⟨⟩
    exact h
  have hone : plainCharset.WrittenAs (.int 1) ['1'] := ⟨⟨by simp, by simp⟩, rfl⟩
  have hstart : plainCharset.Spells [.rParen] ([] ++ [')'] ++ []) := .cons .nil rfl (by simp) (.nil .nil)
  exact .cons .nil (hname "a" 'a' rfl rfl) (hnext _ _ _ rfl) <|
    .cons .nil (show plainCharset.WrittenAs .minus ['-'] from rfl) (hnext _ _ _ rfl) <|
    .cons .nil (show plainCharset.WrittenAs .lParen ['('] from rfl) (hnext _ _ _ rfl) <|
    .cons .nil (hname "b" 'b' rfl rfl) (hnext _ _ _ rfl) <|
    .cons .nil (show plainCharset.WrittenAs .minus ['-'] from rfl) (hnext _ _ _ rfl) <|
    .cons .nil hone (hnext _ _ _ rfl) hstart

theorem leftOver_parses : Parses plainCharset expr "a-(b-1)".toList leftOver :=
  (surface_text plainCharset).1 leftOver
    ⟨⟨by decide, by decide⟩, ⟨by decide, by decide⟩, trivial⟩ _ leftOver_spelled

/-- The least integer has a text, which no position of a literal parses. -/
theorem least_integer_refused :
    IntegerText Int64.minValue "-9223372036854775808".toList ∧
      ∀ α (parse : List Token → Except Diagnostic (α × List Token)),
        parseText plainCharset parse "-9223372036854775808".toList =
          .error (.lexer "bad integer `9223372036854775808`") := by
  have hlex : lex plainCharset "-9223372036854775808".toList = .error "bad integer `9223372036854775808`" := rfl
  have htext : IntegerText Int64.minValue ('-' :: "9223372036854775808".toList) :=
    .signed (by decide) ⟨by simp, List.all_eq_true.1 rfl⟩ rfl
  refine ⟨htext, ?_⟩
  intro α parse
  rw [parseText, hlex]

end Grmpl

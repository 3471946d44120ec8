import Grmpl.Core.Value

/-!
# Tokens

The lexer skips blanks and comments and takes the longest token it can at each step. What
it reads is therefore its spelling: a text in which no token is followed by a character
that would go on with it.

* `Token`, `Charset`, `lex`: the tokens, what is known of characters and numbers, the lexer.
* `Charset.WrittenAs`, `Charset.Spells`: how a token is written, and a list of them.
* `lex_spelled`: a spelling is lexed as what it spells.
-/

namespace Grmpl

/-! ## Tokens -/

inductive Token where
  | ident (s : String)
  | str (s : String)
  | int (n : Int64)
  | float (x : FiniteF64)
  | lParen
  | rParen
  | lBrace
  | rBrace
  | lBracket
  | rBracket
  | comma
  | colon
  | arrow
  | eq
  | eqEq
  | ne
  | lt
  | le
  | gt
  | ge
  | plus
  | minus
  | star
  | slash
  | percent
  | bang
  | andAnd
  | orOr
  | tilde
  deriving DecidableEq

/-- What the lexer asks of characters and of the text of a float. -/
structure Charset where
  alphabetic : Char → Bool
  numeric : Char → Bool
  /-- The float nearest to what is written, if it is finite. -/
  nearest : List Char → Option FiniteF64
  alphabetic_ascii : ∀ c : Char, c.toNat < 128 → alphabetic c = c.isAlpha
  numeric_ascii : ∀ c : Char, c.toNat < 128 → numeric c = c.isDigit

def isBlank (c : Char) : Bool := c = ' ' || c = '\t' || c = '\r' || c = '\n'

/-- The tokens of two characters. -/
def twoChars : Char → Char → Option Token
  | '=', '=' => some .eqEq
  | '!', '=' => some .ne
  | '<', '=' => some .le
  | '>', '=' => some .ge
  | '&', '&' => some .andAnd
  | '|', '|' => some .orOr
  | '-', '>' => some .arrow
  | _, _ => none

/-- The tokens of one character. -/
def oneChar : Char → Option Token
  | '(' => some .lParen
  | ')' => some .rParen
  | '{' => some .lBrace
  | '}' => some .rBrace
  | '[' => some .lBracket
  | ']' => some .rBracket
  | ',' => some .comma
  | ':' => some .colon
  | '=' => some .eq
  | '!' => some .bang
  | '<' => some .lt
  | '>' => some .gt
  | '+' => some .plus
  | '~' => some .tilde
  | '-' => some .minus
  | '*' => some .star
  | '%' => some .percent
  | '/' => some .slash
  | _ => none

/-! ## The lexer -/

def lexString (cs : List Char) : Except String (Token × List Char) :=
  match cs.dropWhile (· ≠ '"') with
  | [] => .error "unterminated string literal"
  | _ :: rest => .ok (.str (String.ofList (cs.takeWhile (· ≠ '"'))), rest)

/-- The point of a number and the digits after it. -/
def lexFraction : List Char → Except String (List Char × List Char)
  | '.' :: cs =>
      if cs.takeWhile Char.isDigit = [] then .error "a decimal point must be followed by digits"
      else .ok ('.' :: cs.takeWhile Char.isDigit, cs.dropWhile Char.isDigit)
  | cs => .ok ([], cs)

def isExponent (c : Char) : Bool := c = 'e' || c = 'E'

def isSign (c : Char) : Bool := c = '+' || c = '-'

/-- The exponent of a number, with its sign. -/
def lexExponent : List Char → Except String (List Char × List Char)
  | [] => .ok ([], [])
  | e :: cs =>
      if isExponent e then
        let sign := (cs.take 1).filter isSign
        let digits := cs.drop sign.length
        if digits.takeWhile Char.isDigit = [] then .error "a float exponent must contain digits"
        else .ok (e :: (sign ++ digits.takeWhile Char.isDigit), digits.dropWhile Char.isDigit)
      else .ok ([], e :: cs)

def decimal (digits : List Char) : Nat := digits.foldl (fun n c => 10 * n + (c.toNat - '0'.toNat)) 0

/-- The integer that digits write, if it is one of 64 bits. -/
def parseInt (digits : List Char) : Option Int64 :=
  if decimal digits < 2 ^ 63 then some (Int64.ofNat (decimal digits)) else none

section Lexer

variable (cset : Charset)

def lexNumber (cs : List Char) : Except String (Token × List Char) := do
  let whole := cs.takeWhile Char.isDigit
  let (fraction, cs) ← lexFraction (cs.dropWhile Char.isDigit)
  let (exponent, cs) ← lexExponent cs
  if fraction ++ exponent = [] then
    match parseInt whole with
    | some n => return (.int n, cs)
    | none => .error ("bad integer `" ++ String.ofList whole ++ "`")
  else
    let text := whole ++ fraction ++ exponent
    match cset.nearest text with
    | some x => return (.float x, cs)
    | none => .error ("float literal `" ++ String.ofList text ++ "` is not finite")

def Charset.startsName (c : Char) : Bool := cset.alphabetic c || c = '_'

def Charset.inName (c : Char) : Bool := cset.alphabetic c || cset.numeric c || c = '_'

/-- One step of the lexer: a token, or nothing for what is skipped. -/
def lexOne (c : Char) (cs : List Char) : Except String (Option Token × List Char) :=
  if isBlank c then .ok (none, cs)
  else if c = '/' ∧ cs.head? = some '/' then .ok (none, cs.dropWhile (· ≠ '\n'))
  else match cs.head?.bind (twoChars c) with
    | some t => .ok (some t, cs.tail)
    | none => match oneChar c with
        | some t => .ok (some t, cs)
        | none =>
            if c = '"' then (lexString cs).map fun r => (some r.1, r.2)
            else if c.isDigit then (lexNumber cset (c :: cs)).map fun r => (some r.1, r.2)
            else if cset.startsName c then
              .ok (some (.ident (String.ofList (c :: cs.takeWhile cset.inName))), cs.dropWhile cset.inName)
            else .error ("unexpected character `" ++ String.ofList [c] ++ "`")

/-- So many steps of the lexer at most; each takes a character or more. -/
def lexFor : Nat → List Char → Except String (List Token)
  | n + 1, c :: cs => do
      let (t, rest) ← lexOne cset c cs
      let ts ← lexFor n rest
      return t.toList ++ ts
  | _, _ => .ok []

def lex (cs : List Char) : Except String (List Token) := lexFor cset cs.length cs

end Lexer

/-! ## Spellings -/

/-- What is skipped between tokens: blanks, and comments to the end of their line. -/
inductive Skipped : List Char → Prop
  | nil : Skipped []
  | blank {c : Char} {cs : List Char} : isBlank c → Skipped cs → Skipped (c :: cs)
  | comment {text cs : List Char} : '\n' ∉ text → Skipped cs → Skipped ('/' :: '/' :: text ++ '\n' :: cs)

def Digits (cs : List Char) : Prop := cs ≠ [] ∧ ∀ c ∈ cs, c.isDigit

/-- How a float is written: digits with a fraction, with an exponent or with both. -/
inductive Decimals : List Char → Prop
  | fraction {whole digits : List Char} : Digits whole → Digits digits → Decimals (whole ++ '.' :: digits)
  | exponent {whole digits sign : List Char} {e : Char} : Digits whole → isExponent e →
      sign = [] ∨ sign = ['+'] ∨ sign = ['-'] → Digits digits → Decimals (whole ++ e :: (sign ++ digits))
  | both {whole digits sign digits' : List Char} {e : Char} : Digits whole → Digits digits → isExponent e →
      sign = [] ∨ sign = ['+'] ∨ sign = ['-'] → Digits digits' →
      Decimals (whole ++ '.' :: digits ++ e :: (sign ++ digits'))

/-- The characters of a token that has only one spelling. -/
def Token.symbol : Token → List Char
  | .ident _ | .str _ | .int _ | .float _ => []
  | .lParen => ['(']
  | .rParen => [')']
  | .lBrace => ['{']
  | .rBrace => ['}']
  | .lBracket => ['[']
  | .rBracket => [']']
  | .comma => [',']
  | .colon => [':']
  | .arrow => ['-', '>']
  | .eq => ['=']
  | .eqEq => ['=', '=']
  | .ne => ['!', '=']
  | .lt => ['<']
  | .le => ['<', '=']
  | .gt => ['>']
  | .ge => ['>', '=']
  | .plus => ['+']
  | .minus => ['-']
  | .star => ['*']
  | .slash => ['/']
  | .percent => ['%']
  | .bang => ['!']
  | .andAnd => ['&', '&']
  | .orOr => ['|', '|']
  | .tilde => ['~']

namespace Charset

variable (cset : Charset)

/-- What may be written for a token. -/
def WrittenAs (t : Token) (cs : List Char) : Prop :=
  match t with
  | .ident s => cs = s.toList ∧ ∃ c rest, cs = c :: rest ∧ cset.startsName c ∧ ∀ d ∈ rest, cset.inName d
  | .str s => '"' ∉ s.toList ∧ cs = '"' :: s.toList ++ ['"']
  | .int n => Digits cs ∧ (decimal cs : Int) = n.toInt
  | .float x => Decimals cs ∧ cset.nearest cs = some x
  | t => cs = t.symbol

/-- The characters that would make another token of one they follow. -/
def continues : Token → Char → Bool
  | .ident _, c => cset.inName c
  | .int _, c | .float _, c => c.isDigit || c = '.' || isExponent c
  | .eq, c | .bang, c | .lt, c | .gt, c => c = '='
  | .minus, c => c = '>'
  | .slash, c => c = '/'
  | _, _ => false

/-- A text of a list of tokens. -/
inductive Spells : List Token → List Char → Prop
  | nil {cs : List Char} : Skipped cs → Spells [] cs
  | cons {t : Token} {ts : List Token} {gap text rest : List Char} : Skipped gap → cset.WrittenAs t text →
      (∀ c ∈ rest.head?, cset.continues t c = false) → Spells ts rest → Spells (t :: ts) (gap ++ text ++ rest)

end Charset

/-! ## Lexing a spelling -/

section Lexing

variable {cset : Charset} {rest : List Char}

/-- The characters that start no name and no number. -/
def symbols : List Char :=
  [' ', '\t', '\r', '\n', '(', ')', '{', '}', '[', ']', ',', ':', '=', '!', '<', '>', '+', '~', '-', '*', '%', '/',
    '&', '|', '"']

theorem digit_ascii {c : Char} (h : c.isDigit) : c.toNat < 128 ∧ c.isAlpha = false ∧ c ≠ '_' := by
  have hbounds : 48 ≤ c.toNat ∧ c.toNat ≤ 57 := by
    simpa [Char.isDigit, UInt32.le_iff_toNat_le] using h
  refine ⟨by omega, ?_, ?_⟩
  · have hupper : c.isUpper = false := by
      have hlow : ¬ 65 ≤ c.toNat := by omega
      simpa [Char.isUpper, UInt32.le_iff_toNat_le] using fun h => absurd h hlow
    have hlower : c.isLower = false := by
      have hlow : ¬ 97 ≤ c.toNat := by omega
      simpa [Char.isLower, UInt32.le_iff_toNat_le] using fun h => absurd h hlow
    simp [Char.isAlpha, hupper, hlower]
  · rintro rfl
    exact absurd hbounds.2 (by decide)

theorem digit_plain {c : Char} (h : c.isDigit) : c ∉ symbols := by
  have hall : ∀ s ∈ symbols, s.isDigit = false := by simp [symbols]
  intro hc
  rw [hall c hc] at h
  cases h

theorem name_plain {c : Char} (h : cset.startsName c) : c ∉ symbols ∧ c.isDigit = false := by
  have hall : ∀ s ∈ symbols, s.toNat < 128 ∧ s.isAlpha = false ∧ s ≠ '_' := by simp [symbols]
  have hstart : cset.alphabetic c ∨ c = '_' := by simpa [Charset.startsName] using h
  refine ⟨fun hc => ?_, ?_⟩
  · obtain ⟨hascii, halpha, hne⟩ := hall c hc
    rcases hstart with h | h
    · rw [cset.alphabetic_ascii c hascii, halpha] at h
      cases h
    · exact hne h
  · by_contra hdigit
    obtain ⟨hascii, halpha, hne⟩ := digit_ascii (Bool.not_eq_false _ ▸ hdigit)
    rcases hstart with h | h
    · rw [cset.alphabetic_ascii c hascii, halpha] at h
      cases h
    · exact hne h

theorem lexOne_plain {c : Char} (h : c ∉ symbols) (cs : List Char) :
    lexOne cset c cs =
      if c.isDigit then (lexNumber cset (c :: cs)).map fun r => (some r.1, r.2)
      else if cset.startsName c then
        .ok (some (.ident (String.ofList (c :: cs.takeWhile cset.inName))), cs.dropWhile cset.inName)
      else .error ("unexpected character `" ++ String.ofList [c] ++ "`") := by
  simp only [symbols, List.mem_cons, List.not_mem_nil, or_false, not_or] at h
  have htwo : ∀ d, twoChars c d = none := by
    intro d
    unfold twoChars
    split <;> simp_all
  have hone : oneChar c = none := by
    unfold oneChar
    split <;> simp_all
  have hblank : isBlank c = false := by simp [isBlank, h]
  have hnext : cs.head?.bind (twoChars c) = none := by cases cs <;> simp [htwo]
  simp only [lexOne, hblank, hnext, hone]
  simp [h]

theorem takeWhile_stop {p : Char → Bool} {cs : List Char} (hcs : ∀ c ∈ cs, p c)
    (hrest : ∀ c ∈ rest.head?, p c = false) :
    (cs ++ rest).takeWhile p = cs ∧ (cs ++ rest).dropWhile p = rest := by
  have hstop : rest.takeWhile p = [] ∧ rest.dropWhile p = rest := by
    cases rest with
    | nil => exact ⟨rfl, rfl⟩
    | cons c rest => simp [hrest c rfl]
  rw [List.takeWhile_append_of_pos hcs, List.dropWhile_append_of_pos hcs, hstop.1, hstop.2]
  exact ⟨List.append_nil cs, rfl⟩

theorem lexFraction_none (h : ∀ c ∈ rest.head?, c ≠ '.') : lexFraction rest = .ok ([], rest) := by
  unfold lexFraction
  split
  · exact absurd rfl (h '.' rfl)
  · rfl

theorem lexFraction_digits {digits : List Char} (hdigits : Digits digits)
    (h : ∀ c ∈ rest.head?, c.isDigit = false) :
    lexFraction ('.' :: digits ++ rest) = .ok ('.' :: digits, rest) := by
  obtain ⟨htake, hdrop⟩ := takeWhile_stop hdigits.2 h
  simp [lexFraction, htake, hdrop, hdigits.1]

theorem lexExponent_none (h : ∀ c ∈ rest.head?, isExponent c = false) : lexExponent rest = .ok ([], rest) := by
  cases rest with
  | nil => rfl
  | cons c rest => simp [lexExponent, h c rfl]

theorem lexExponent_digits {e : Char} {sign digits : List Char} (he : isExponent e)
    (hsign : sign = [] ∨ sign = ['+'] ∨ sign = ['-']) (hdigits : Digits digits)
    (h : ∀ c ∈ rest.head?, c.isDigit = false) :
    lexExponent (e :: (sign ++ digits) ++ rest) = .ok (e :: (sign ++ digits), rest) := by
  obtain ⟨htake, hdrop⟩ := takeWhile_stop hdigits.2 h
  have htaken : ((sign ++ digits ++ rest).take 1).filter isSign = sign := by
    rcases hsign with rfl | rfl | rfl
    · obtain ⟨c, cs, rfl⟩ := List.exists_cons_of_ne_nil hdigits.1
      have hc : c.isDigit := hdigits.2 c List.mem_cons_self
      have hne : isSign c = false := by
        by_contra hs
        have hplus : c ≠ '+' := by rintro rfl; cases hc
        have hminus : c ≠ '-' := by rintro rfl; cases hc
        simp [isSign, hplus, hminus] at hs
      simp [hne]
    · rfl
    · rfl
  rw [List.cons_append, lexExponent, if_pos he]
  simp only [htaken]
  rw [List.append_assoc, List.drop_left, htake, hdrop, if_neg hdigits.1]

/-- What may not follow a number. -/
def continuesNumber (c : Char) : Bool := c.isDigit || c = '.' || isExponent c

/-- A number of its three parts. -/
theorem lexNumber_parts {whole fraction exponent : List Char} (hwhole : Digits whole)
    (hstop : ∀ c ∈ (fraction ++ (exponent ++ rest)).head?, c.isDigit = false)
    (hfraction : lexFraction (fraction ++ (exponent ++ rest)) = .ok (fraction, exponent ++ rest))
    (hexponent : lexExponent (exponent ++ rest) = .ok (exponent, rest)) :
    lexNumber cset (whole ++ (fraction ++ (exponent ++ rest))) =
      if fraction ++ exponent = [] then
        match parseInt whole with
        | some n => .ok (.int n, rest)
        | none => .error ("bad integer `" ++ String.ofList whole ++ "`")
      else
        match cset.nearest (whole ++ fraction ++ exponent) with
        | some x => .ok (.float x, rest)
        | none => .error ("float literal `" ++ String.ofList (whole ++ fraction ++ exponent) ++ "` is not finite") := by
  obtain ⟨htake, hdrop⟩ := takeWhile_stop hwhole.2 hstop
  simp only [lexNumber, htake, hdrop]
  rw [hfraction]
  show (lexExponent (exponent ++ rest) >>= _) = _
  rw [hexponent]
  rfl

theorem lexNumber_int {digits : List Char} (hdigits : Digits digits)
    (h : ∀ c ∈ rest.head?, continuesNumber c = false) :
    lexNumber cset (digits ++ rest) =
      match parseInt digits with
      | some n => .ok (.int n, rest)
      | none => .error ("bad integer `" ++ String.ofList digits ++ "`") := by
  simp only [continuesNumber, Bool.or_eq_false_iff, decide_eq_false_iff_not] at h
  have hstop : ∀ c ∈ ([] ++ ([] ++ rest)).head?, c.isDigit = false := fun c hc => (h c hc).1.1
  have hfraction : lexFraction ([] ++ ([] ++ rest)) = .ok ([], [] ++ rest) :=
    lexFraction_none fun c hc => (h c hc).1.2
  have hexponent : lexExponent ([] ++ rest) = .ok ([], rest) := lexExponent_none fun c hc => (h c hc).2
  exact lexNumber_parts hdigits hstop hfraction hexponent

theorem lexNumber_float {cs : List Char} {x : FiniteF64} (hcs : Decimals cs) (hx : cset.nearest cs = some x)
    (h : ∀ c ∈ rest.head?, continuesNumber c = false) :
    lexNumber cset (cs ++ rest) = .ok (.float x, rest) := by
  simp only [continuesNumber, Bool.or_eq_false_iff, decide_eq_false_iff_not] at h
  have hdigit : ∀ c ∈ rest.head?, c.isDigit = false := fun c hc => (h c hc).1.1
  have hpoint : ∀ ds : List Char, ∀ c ∈ ('.' :: ds).head?, c.isDigit = false := by
    rintro ds c ⟨⟩
    decide
  have hletter : ∀ {e : Char} (ds : List Char), isExponent e → ∀ c ∈ (e :: ds).head?,
      c.isDigit = false ∧ c ≠ '.' := by
    rintro e ds he c ⟨⟩
    rcases (by simpa [isExponent] using he : e = 'e' ∨ e = 'E') with rfl | rfl <;> decide
  -- What stands after the whole part, in each of the three shapes.
  have hparts : ∃ whole fraction exponent, cs = whole ++ fraction ++ exponent ∧ Digits whole ∧
      fraction ++ exponent ≠ [] ∧ (∀ c ∈ (fraction ++ (exponent ++ rest)).head?, c.isDigit = false) ∧
      lexFraction (fraction ++ (exponent ++ rest)) = .ok (fraction, exponent ++ rest) ∧
      lexExponent (exponent ++ rest) = .ok (exponent, rest) := by
    cases hcs with
    | @fraction whole digits hwhole hdigits =>
      exact ⟨whole, '.' :: digits, [], by simp, hwhole, by simp, hpoint _,
        lexFraction_digits hdigits hdigit, lexExponent_none fun c hc => (h c hc).2⟩
    | @exponent whole digits sign e hwhole he hsign hdigits =>
      exact ⟨whole, [], e :: (sign ++ digits), by simp, hwhole, by simp, fun c hc => (hletter _ he c hc).1,
        lexFraction_none fun c hc => (hletter _ he c hc).2, lexExponent_digits he hsign hdigits hdigit⟩
    | @both whole digits sign digits' e hwhole hdigits he hsign hdigits' =>
      exact ⟨whole, '.' :: digits, e :: (sign ++ digits'), by simp, hwhole, by simp, hpoint _,
        lexFraction_digits hdigits fun c hc => (hletter _ he c hc).1,
        lexExponent_digits he hsign hdigits' hdigit⟩
  obtain ⟨whole, fraction, exponent, rfl, hwhole, hne, hstop, hfraction, hexponent⟩ := hparts
  have hparts : lexNumber cset (whole ++ (fraction ++ (exponent ++ rest))) = _ :=
    lexNumber_parts hwhole hstop hfraction hexponent
  rw [if_neg hne, hx] at hparts
  simpa only [List.append_assoc] using hparts

theorem parseInt_decimal {digits : List Char} {n : Int64} (h : (decimal digits : Int) = n.toInt) :
    parseInt digits = some n := by
  have hlt : decimal digits < 2 ^ 63 := by
    have := n.toInt_lt
    omega
  rw [parseInt, if_pos hlt, Option.some.injEq, ← Int64.toInt_inj, Int64.toInt_ofNat_of_lt hlt, h]

theorem lexOne_one {c : Char} {t : Token} (hone : oneChar c = some t) (hblank : isBlank c = false)
    (htwo : ∀ d ∈ rest.head?, twoChars c d = none) (hslash : c = '/' → rest.head? ≠ some '/') :
    lexOne cset c rest = .ok (some t, rest) := by
  have hnext : rest.head?.bind (twoChars c) = none := Option.bind_eq_none_iff.2 htwo
  rw [lexOne, hblank, if_neg Bool.false_ne_true, if_neg fun h => hslash h.1 h.2, hnext, hone]

theorem lexOne_two {c d : Char} {t : Token} (htwo : twoChars c d = some t) (hblank : isBlank c = false)
    (hslash : c ≠ '/') : lexOne cset c (d :: rest) = .ok (some t, rest) := by
  have hnext : (d :: rest).head?.bind (twoChars c) = some t := htwo
  rw [lexOne, hblank, if_neg Bool.false_ne_true, if_neg fun h => hslash h.1, hnext]
  rfl

theorem lexOne_str {s : String} (h : '"' ∉ s.toList) :
    lexOne cset '"' (s.toList ++ ['"'] ++ rest) = .ok (some (.str s), rest) := by
  have hquote : ∀ c ∈ s.toList, (decide (c ≠ '"')) = true := fun c hc =>
    decide_eq_true fun he => h (he ▸ hc)
  have hstop : ∀ c ∈ ('"' :: rest).head?, decide (c ≠ '"') = false := by
    rintro c ⟨⟩
    decide
  obtain ⟨htake, hdrop⟩ := takeWhile_stop hquote hstop
  have htwo : ∀ d, twoChars '"' d = none := fun d => rfl
  have hnext : (s.toList ++ ['"'] ++ rest).head?.bind (twoChars '"') = none :=
    Option.bind_eq_none_iff.2 fun d _ => htwo d
  have hblank : isBlank '"' = false := rfl
  rw [lexOne, hblank, if_neg Bool.false_ne_true, if_neg (by simp), hnext]
  show (lexString (s.toList ++ ['"'] ++ rest)).map _ = _
  rw [List.append_assoc, List.singleton_append, lexString, hdrop, htake, String.ofList_toList]
  rfl

theorem lexOne_ident {s : String} {c : Char} {cs : List Char} (hs : s.toList = c :: cs) (hc : cset.startsName c)
    (hcs : ∀ d ∈ cs, cset.inName d) (h : ∀ d ∈ rest.head?, cset.inName d = false) :
    lexOne cset c (cs ++ rest) = .ok (some (.ident s), rest) := by
  obtain ⟨hplain, hdigit⟩ := name_plain hc
  obtain ⟨htake, hdrop⟩ := takeWhile_stop hcs h
  rw [lexOne_plain hplain, hdigit, if_neg Bool.false_ne_true, if_pos hc, htake, hdrop, ← hs, String.ofList_toList]

theorem Decimals.head {cs : List Char} (h : Decimals cs) : ∃ c rest, cs = c :: rest ∧ c.isDigit := by
  have hwhole : ∀ {whole : List Char} (more : List Char), Digits whole →
      ∃ c rest, whole ++ more = c :: rest ∧ c.isDigit := by
    intro whole more h
    obtain ⟨c, rest, rfl⟩ := List.exists_cons_of_ne_nil h.1
    exact ⟨c, rest ++ more, rfl, h.2 c List.mem_cons_self⟩
  cases h with
  | fraction h _ => exact hwhole _ h
  | exponent h _ _ _ => exact hwhole _ h
  | both h _ _ _ _ =>
    rw [List.append_assoc]
    exact hwhole _ h

/-- The only two characters that are one token. -/
theorem twoChars_pairs (c d : Char) :
    twoChars c d = none ∨ (d = '=' ∧ c ∈ ['=', '!', '<', '>']) ∨ (c, d) ∈ [('&', '&'), ('|', '|'), ('-', '>')] := by
  unfold twoChars
  split
  case h_8 => exact .inl rfl
  all_goals exact .inr (by simp)

/-- **A step takes a token**, as long as nothing follows that would go on with it. -/
theorem lexOne_written {t : Token} {text : List Char} (ht : cset.WrittenAs t text)
    (h : ∀ c ∈ rest.head?, cset.continues t c = false) :
    ∃ c cs, text = c :: cs ∧ lexOne cset c (cs ++ rest) = .ok (some t, rest) := by
  have hnumber : ∀ {c : Char} {cs : List Char}, c.isDigit → ∀ r, lexNumber cset (c :: cs ++ rest) = .ok (r, rest) →
      lexOne cset c (cs ++ rest) = .ok (some r, rest) := by
    intro c cs hc r hr
    rw [lexOne_plain (digit_plain hc), if_pos hc]
    rw [List.cons_append] at hr
    rw [hr]
    rfl
  cases t with
  | ident s =>
    obtain ⟨rfl, c, cs, hs, hc, hcs⟩ := ht
    exact ⟨c, cs, hs, lexOne_ident hs hc hcs h⟩
  | str s =>
    obtain ⟨hs, rfl⟩ := ht
    exact ⟨'"', s.toList ++ ['"'], rfl, lexOne_str hs⟩
  | int n =>
    obtain ⟨c, cs, rfl⟩ := List.exists_cons_of_ne_nil ht.1.1
    refine ⟨c, cs, rfl, hnumber (ht.1.2 c List.mem_cons_self) _ ?_⟩
    rw [lexNumber_int ht.1 h, parseInt_decimal ht.2]
  | float x =>
    obtain ⟨c, cs, rfl, hc⟩ := ht.1.head
    exact ⟨c, cs, rfl, hnumber hc _ (lexNumber_float ht.1 ht.2 h)⟩
  | arrow | eqEq | ne | le | ge | andAnd | orOr =>
    subst ht
    exact ⟨_, _, rfl, lexOne_two rfl rfl (by decide)⟩
  | eq | lt | gt | bang =>
    subst ht
    refine ⟨_, [], rfl, lexOne_one rfl rfl (fun d hd => ?_) fun hc => absurd hc (by decide)⟩
    have hne : d ≠ '=' := of_decide_eq_false (h d hd)
    exact (twoChars_pairs _ d).resolve_right (by simp [hne])
  | minus =>
    subst ht
    refine ⟨_, [], rfl, lexOne_one rfl rfl (fun d hd => ?_) fun hc => absurd hc (by decide)⟩
    have hne : d ≠ '>' := of_decide_eq_false (h d hd)
    exact (twoChars_pairs _ d).resolve_right (by simp [hne])
  | slash =>
    subst ht
    refine ⟨_, [], rfl, lexOne_one rfl rfl (fun d _ => ?_) fun _ hd => ?_⟩
    · exact (twoChars_pairs _ d).resolve_right (by simp)
    · have hne : '/' ≠ '/' := of_decide_eq_false (h '/' hd)
      exact hne rfl
  | lParen | rParen | lBrace | rBrace | lBracket | rBracket | comma | colon | plus | star | percent | tilde =>
    subst ht
    exact ⟨_, [], rfl, lexOne_one rfl rfl (fun d hd => rfl) (by simp)⟩

theorem lexFor_step {c : Char} {cs : List Char} {t : Option Token} (h : lexOne cset c cs = .ok (t, rest)) (n : Nat) :
    lexFor cset (n + 1) (c :: cs) = (lexFor cset n rest).map (t.toList ++ ·) := by
  rw [lexFor, h]
  show (lexFor cset n rest >>= _) = _
  cases lexFor cset n rest <;> rfl

theorem map_none (r : Except String (List Token)) : r.map ((none : Option Token).toList ++ ·) = r := by
  cases r <;> rfl

/-- What is skipped adds no token and fails nowhere. -/
theorem lexFor_skipped {gap : List Char} {r : Except String (List Token)} (hgap : Skipped gap)
    (h : ∀ n, rest.length ≤ n → lexFor cset n rest = r) :
    ∀ n, (gap ++ rest).length ≤ n → lexFor cset n (gap ++ rest) = r := by
  induction hgap with
  | nil => exact h
  | @blank c cs hc _ ih =>
    intro n hn
    obtain ⟨n, rfl⟩ : ∃ m, n = m + 1 := ⟨n - 1, by simp at hn; omega⟩
    have hone : lexOne cset c (cs ++ rest) = .ok (none, cs ++ rest) := by rw [lexOne, if_pos hc]
    rw [List.cons_append, lexFor_step hone, map_none]
    exact ih n (by simp at hn ⊢; omega)
  | @comment text cs htext _ ih =>
    intro n hn
    -- The comment, and then the end of its line, which is a blank.
    obtain ⟨n, rfl⟩ : ∃ m, n = m + 2 := ⟨n - 2, by simp at hn; omega⟩
    have hline : ∀ c ∈ '/' :: text, decide (c ≠ '\n') = true := by
      intro c hc
      rcases List.mem_cons.1 hc with rfl | hc
      · rfl
      · exact decide_eq_true fun he => htext (he ▸ hc)
    have hstop : ∀ c ∈ ('\n' :: (cs ++ rest)).head?, decide (c ≠ '\n') = false := by
      rintro c ⟨⟩
      rfl
    have hcomment : lexOne cset '/' ('/' :: text ++ '\n' :: (cs ++ rest)) = .ok (none, '\n' :: (cs ++ rest)) := by
      rw [lexOne, if_neg (by decide), if_pos ⟨rfl, rfl⟩, (takeWhile_stop hline hstop).2]
    have hend : lexOne cset '\n' (cs ++ rest) = .ok (none, cs ++ rest) := rfl
    have htext : '/' :: '/' :: text ++ '\n' :: cs ++ rest = '/' :: ('/' :: text ++ '\n' :: (cs ++ rest)) := by
      simp
    rw [htext, lexFor_step hcomment, map_none, lexFor_step hend, map_none]
    exact ih n (by simp at hn ⊢; omega)

/-- **A spelling is lexed as what it spells.** -/
theorem lex_spelled {ts : List Token} {cs : List Char} (h : cset.Spells ts cs) : lex cset cs = .ok ts := by
  have hall : ∀ n, cs.length ≤ n → lexFor cset n cs = .ok ts := by
    induction h with
    | @nil cs h =>
      have hend : ∀ n, ([] : List Char).length ≤ n → lexFor cset n [] = .ok [] := by
        intro n _
        cases n <;> rfl
      simpa using lexFor_skipped h hend
    | @cons t ts gap text rest hgap ht hnext _ ih =>
      rw [List.append_assoc]
      refine lexFor_skipped hgap fun n hn => ?_
      obtain ⟨c, cs, rfl, hone⟩ := lexOne_written ht hnext
      obtain ⟨n, rfl⟩ : ∃ m, n = m + 1 := ⟨n - 1, by simp at hn; omega⟩
      rw [List.cons_append, lexFor_step hone, ih n (by simp at hn; omega)]
      rfl
  exact hall _ (Nat.le_refl _)

end Lexing

end Grmpl

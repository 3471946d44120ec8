import Grmpl.Core.WireCanonical
import Grmpl.Lang.BehaviorWire
import Grmpl.Lib.Format

/-!
# The codec of stored behaviors

What is written of a behavior that nests no deeper than the format allows is read back;
every other string of bytes ends in a refusal; and bytes that are accepted are what is
written of the behavior they spell, but for the spellings of its literals.

* `behaviorFits`: what the format holds.
* `literalAt`: a literal, however it is spelt.
* `reads_pred`, `reads_expr`, `reads_op`: the readers against the writers.
* `behavior_codec`: whole behaviors.
-/

open Bytes

namespace Grmpl

namespace Wire

/-! ## What fits -/

def strFits (s : String) : Prop := s.toByteArray.data.toList.length < 2 ^ 32

/-- A list no longer than a count, of what fits. -/
def Listed {α : Type} (Fits : α → Prop) (xs : List α) : Prop := xs.length < 2 ^ 32 ∧ ∀ x ∈ xs, Fits x

def rowFits : RowExpr → Prop
  | .col i => i < 2 ^ 32
  | .lit v => fits maxDepth v = true

mutual

/-- A guard that nests so many levels at most. -/
def predFits : Nat → PredExpr → Prop
  | 0, _ => False
  | _ + 1, .eq a b => rowFits a ∧ rowFits b
  | levels + 1, .and ps => ps.length < 2 ^ 32 ∧ predsFit levels ps

def predsFit : Nat → List PredExpr → Prop
  | _, [] => True
  | levels, p :: ps => predFits levels p ∧ predsFit levels ps

end

mutual

def valueExprFits : Nat → ValueExpr → Prop
  | 0, _ => False
  | _ + 1, .local_ name => strFits name
  | _ + 1, .literal v => fits maxDepth v = true
  | levels + 1, .intrinsic name arguments =>
      strFits name ∧ arguments.length < 2 ^ 32 ∧ valueExprsFit levels arguments

def valueExprsFit : Nat → List ValueExpr → Prop
  | _, [] => True
  | levels, e :: es => valueExprFits levels e ∧ valueExprsFit levels es

end

def boolFits : Nat → BoolExpr → Prop
  | 0, _ => False
  | levels + 1, .value v => valueExprFits levels v
  | levels + 1, .compare _ left right => valueExprFits levels left ∧ valueExprFits levels right
  | levels + 1, .not b => boolFits levels b
  | levels + 1, .and left right | levels + 1, .or left right => boolFits levels left ∧ boolFits levels right

def exprFits : Nat → ExprIr → Prop
  | 0, _ => False
  | levels + 1, .value v => valueExprFits levels v
  | levels + 1, .bool b => boolFits levels b

def findArgFits (levels : Nat) : FindArg → Prop
  | .match_ e => exprFits levels e
  | .bind name => strFits name
  | .matchBind e name => exprFits levels e ∧ strFits name

mutual

/-- An operation that nests so many levels at most, its branches and expressions counted. -/
def opFits : Nat → BehaviorOp → Prop
  | 0, _ => False
  | levels + 1, .resolve view arguments column _ rhs destinations =>
      strFits view ∧ Listed (exprFits levels) arguments ∧ strFits column ∧ exprFits levels rhs ∧
        Listed strFits destinations
  | levels + 1, .find relation arguments => strFits relation ∧ Listed (findArgFits levels) arguments
  | levels + 1, .letOp name value => strFits name ∧ exprFits levels value
  | levels + 1, .ifOp condition thenOps elseOps => boolFits levels condition ∧
      (thenOps.length < 2 ^ 32 ∧ opsFit levels thenOps) ∧ elseOps.length < 2 ^ 32 ∧ opsFit levels elseOps
  | levels + 1, .expect relation arguments | levels + 1, .assert relation arguments
  | levels + 1, .retract relation arguments | levels + 1, .emit relation arguments =>
      strFits relation ∧ Listed (exprFits levels) arguments
  | levels + 1, .invokeCapability capability arguments destinations =>
      strFits capability ∧ Listed (exprFits levels) arguments ∧ Listed strFits destinations

def opsFit : Nat → List BehaviorOp → Prop
  | _, [] => True
  | levels, op :: ops => opFits levels op ∧ opsFit levels ops

end

/-- A behavior whose parts nest no deeper than the format allows, with lengths, column
numbers and literals it can hold. -/
def behaviorFits (b : StoredBehavior) : Prop :=
  predFits maxIrDepth b.guard ∧ Listed strFits b.parameters ∧ Listed (opFits maxIrDepth) b.body

theorem predsFit_iff {levels : Nat} {ps : List PredExpr} : predsFit levels ps ↔ ∀ p ∈ ps, predFits levels p := by
  induction ps with
  | nil => simp [predsFit]
  | cons p ps ih => rw [predsFit, ih, List.forall_mem_cons]

theorem valueExprsFit_iff {levels : Nat} {es : List ValueExpr} :
    valueExprsFit levels es ↔ ∀ e ∈ es, valueExprFits levels e := by
  induction es with
  | nil => simp [valueExprsFit]
  | cons e es ih => rw [valueExprsFit, ih, List.forall_mem_cons]

theorem opsFit_iff {levels : Nat} {ops : List BehaviorOp} : opsFit levels ops ↔ ∀ op ∈ ops, opFits levels op := by
  induction ops with
  | nil => simp [opsFit]
  | cons op ops ih => rw [opsFit, ih, List.forall_mem_cons]

theorem putPreds_eq (ps : List PredExpr) : putPreds ps = ps.flatMap putPred := by
  induction ps with
  | nil => rfl
  | cons p ps ih => rw [putPreds, ih, List.flatMap_cons]

theorem putValueExprs_eq (es : List ValueExpr) : putValueExprs es = es.flatMap putValueExpr := by
  induction es with
  | nil => rfl
  | cons e es ih => rw [putValueExprs, ih, List.flatMap_cons]

theorem putOps_eq (ops : List BehaviorOp) : putOps ops = ops.flatMap putOp := by
  induction ops with
  | nil => rfl
  | cons op ops ih => rw [putOps, ih, List.flatMap_cons]

/-! ## Numbers, strings and literals -/

/-- A refusal of the codec. -/
def CodecError (e : Error) : Prop := ∃ msg, e = .codec msg

/-- A literal read at a position, what is written of it, and the marks its spelling leaves. -/
def literalAt (bytes : List UInt8) (pos next : Nat) (code : List UInt8) (ms : List Mark) : Prop :=
  ∃ v, decodeValue bytes pos = .ok (v, next) ∧ code = encodeValue v ∧
    marksAt bytes maxDepth pos = some (ms, next)

/-- A reader of what is written of everything that fits. -/
abbrev Reads {α : Type} (bytes : List UInt8) (get : Nat → Result (α × Nat)) (Fits : α → Prop)
    (put : α → List UInt8) : Prop :=
  Format bytes (literalAt bytes) CodecError get fun x code => Fits x ∧ code = put x

section Reads

variable {bytes : List UInt8}

theorem bind_error {α β : Type} {x : Result α} {f : α → Result β} {e : Error} (h : x >>= f = .error e) :
    x = .error e ∨ ∃ a, x = .ok a ∧ f a = .error e := by
  cases x with
  | error e' =>
    cases h
    exact .inl rfl
  | ok a => exact .inr ⟨a, rfl, h⟩

theorem readSlice_refuse {pos len : Nat} {what : String} {e : Error} (h : readSlice bytes pos len what = .error e) :
    CodecError e := by
  unfold readSlice at h
  split at h
  · cases h
  · cases h
    exact ⟨_, rfl⟩

theorem readU32_refuse {pos : Nat} {e : Error} (h : readU32 bytes pos = .error e) : CodecError e := by
  rcases bind_error h with h | ⟨_, _, h⟩
  · exact readSlice_refuse h
  · cases h

theorem readU64_refuse {pos : Nat} {e : Error} (h : readU64 bytes pos = .error e) : CodecError e := by
  rcases bind_error h with h | ⟨_, _, h⟩
  · exact readSlice_refuse h
  · cases h

theorem readCounted_refuse {pos : Nat} {what : String} {e : Error} (h : readCounted bytes pos what = .error e) :
    CodecError e := by
  rcases bind_error h with h | ⟨_, _, h⟩
  · exact readU32_refuse h
  · exact readSlice_refuse h

theorem reads_u32 : Reads bytes (readU32 bytes) (· < 2 ^ 32) (toBE 4) where
  back := by
    rintro n _ pos ⟨hn, rfl⟩ h
    rw [readU32_of_holds hn h, length_toBE]
  read := by
    intro n pos next h
    obtain ⟨_, _, hholds, _, hlt, hnext⟩ := readU32_eq_ok h
    refine ⟨_, [], ⟨hlt, rfl⟩, ?_⟩
    have hs := Spelt.exact (S := literalAt bytes) hholds
    rwa [length_toBE, ← hnext] at hs
  refuse := readU32_refuse

theorem reads_str : Reads bytes (getStr bytes) strFits putStr where
  back := by
    rintro s _ pos ⟨hs, rfl⟩ h
    rw [getStr, ok_bind (readCounted_of_holds hs h "str")]
    dsimp only
    rw [fromUTF8?_toByteArray]
    rfl
  read := by
    intro s pos next h
    obtain ⟨⟨bs, p⟩, hbs, h⟩ := bind_ok h
    dsimp only at h
    split at h
    · rename_i s' hs'
      cases h
      obtain ⟨count, hslice, hholds, hnext, hlen⟩ := readCounted_eq_ok hbs
      obtain rfl := fromUTF8?_eq_some hs'
      have hcount := ofBE_lt count
      rw [(slice_eq_some hslice).1] at hcount
      refine ⟨_, [], ⟨?_, rfl⟩, hnext ▸ Spelt.exact hholds⟩
      rw [strFits, ← hlen]
      omega
    · cases h
  refuse := by
    intro pos e h
    rcases bind_error h with h | ⟨bs, _, h⟩
    · exact readCounted_refuse h
    · dsimp only at h
      split at h
      · cases h
      · cases h
        exact ⟨_, rfl⟩

theorem decodeTimes_refuse {decode : Nat → Result (Value × Nat)} (hd : ∀ pos e, decode pos = .error e → CodecError e) :
    ∀ (n pos : Nat) {e : Error}, decodeTimes decode n pos = .error e → CodecError e := by
  intro n
  induction n with
  | zero =>
    intro pos e h
    cases h
  | succ n ih =>
    intro pos e h
    rcases bind_error h with h | ⟨_, _, h⟩
    · exact hd _ _ h
    · rcases bind_error h with h | ⟨_, _, h⟩
      · exact ih _ h
      · cases h

theorem decodeCells_refuse {decode : Nat → Result (Value × Nat)} (hd : ∀ pos e, decode pos = .error e → CodecError e)
    {pos : Nat} {e : Error} (h : decodeCells bytes decode pos = .error e) : CodecError e := by
  rcases bind_error h with h | ⟨_, _, h⟩
  · exact readU32_refuse h
  · exact decodeTimes_refuse hd _ _ h

/-- A value is refused for its bytes. -/
theorem decodeValueAt_refuse : ∀ (levels pos : Nat) (e : Error), decodeValueAt bytes levels pos = .error e → CodecError e := by
  intro levels
  induction levels with
  | zero =>
    intro pos e h
    exact refuse (fun l hl => absurd hl.symm (Nat.succ_ne_zero l)) h
  | succ levels ih =>
    intro pos e h
    refine refuse (fun l hl => ?_) h
    obtain rfl := Nat.succ.inj hl
    exact ih
where
  refuse {levels pos : Nat} {e : Error} (hd : ∀ l, levels = l + 1 → ∀ pos e, decodeValueAt bytes l pos = .error e → CodecError e)
      (h : decodeValueAt bytes levels pos = .error e) : CodecError e := by
    unfold decodeValueAt at h
    split at h
    · cases h
      exact ⟨_, rfl⟩
    · dsimp only at h
      split_ifs at h
      · rcases bind_error h with h | ⟨_, _, h⟩
        · exact readU64_refuse h
        · cases h
      · rcases bind_error h with h | ⟨_, _, h⟩
        · exact readU64_refuse h
        · cases h
      · rcases bind_error h with h | ⟨_, _, h⟩
        · exact readU64_refuse h
        · split at h
          · cases h
          · cases h
            exact ⟨_, rfl⟩
      · rcases bind_error h with h | ⟨_, _, h⟩
        · exact readCounted_refuse h
        · split at h
          · cases h
          · cases h
            exact ⟨_, rfl⟩
      · split at h
        · cases h
        · cases h
          exact ⟨_, rfl⟩
      · split at h
        · cases h
          exact ⟨_, rfl⟩
        · rename_i l
          rcases bind_error h with h | ⟨_, _, h⟩
          · exact decodeCells_refuse (hd l rfl) h
          · cases h
      · rcases bind_error h with h | ⟨_, _, h⟩
        · exact readCounted_refuse h
        · cases h
      · rcases bind_error h with h | ⟨_, _, h⟩
        · exact readCounted_refuse h
        · cases h
      · cases h
        exact ⟨_, rfl⟩

theorem reads_literal : Reads bytes (decodeValue bytes) (fun v => fits maxDepth v = true) encodeValue where
  back := by
    rintro v _ pos ⟨hv, rfl⟩ h
    exact decodeValueAt_encode v maxDepth pos hv h
  read := by
    intro v pos next h
    obtain ⟨-, ms, -, -, hms, -⟩ := decodeValueAt_marks maxDepth pos v next h
    exact ⟨_, ms, ⟨fits_of_decode maxDepth pos v next h, rfl⟩, .piece ⟨v, h, rfl, hms⟩⟩
  refuse := decodeValueAt_refuse maxDepth _ _

/-! ## The readers -/

theorem reads_times {α : Type} {get : Nat → Result (α × Nat)} {Fits : α → Prop} {put : α → List UInt8}
    (h : Reads bytes get Fits put) : ∀ n, Reads bytes (getTimes get n) (fun xs => xs.length = n ∧ ∀ x ∈ xs, Fits x)
      (·.flatMap put) := by
  intro n
  induction n with
  | zero =>
    refine (Format.pure []).congr fun xs code => ?_
    constructor
    · rintro ⟨rfl, rfl⟩
      exact ⟨⟨rfl, fun _ h => absurd h List.not_mem_nil⟩, rfl⟩
    · rintro ⟨⟨hlen, -⟩, rfl⟩
      obtain rfl := List.eq_nil_of_length_eq_zero hlen
      exact ⟨rfl, rfl⟩
  | succ n ih =>
    refine (h.bind fun x => ih.bind fun xs => .pure (x :: xs)).congr fun ys code => ?_
    constructor
    · rintro ⟨x, _, _, ⟨hx, rfl⟩, ⟨xs, _, _, ⟨⟨hlen, hxs⟩, rfl⟩, ⟨rfl, rfl⟩, rfl⟩, rfl⟩
      exact ⟨⟨by rw [List.length_cons, hlen], List.forall_mem_cons.2 ⟨hx, hxs⟩⟩, by simp⟩
    · rintro ⟨⟨hlen, hall⟩, rfl⟩
      cases ys with
      | nil => cases hlen
      | cons x xs =>
        obtain ⟨hx, hxs⟩ := List.forall_mem_cons.1 hall
        exact ⟨x, _, _, ⟨hx, rfl⟩, ⟨xs, _, [], ⟨⟨Nat.succ.inj hlen, hxs⟩, rfl⟩, ⟨rfl, rfl⟩, rfl⟩, by simp⟩

/-- A list behind its count. -/
theorem reads_list {α : Type} {get : Nat → Result (α × Nat)} {Fits : α → Prop} {put : α → List UInt8}
    (h : Reads bytes get Fits put) :
    Reads bytes (getList bytes get) (Listed Fits) fun xs => toBE 4 xs.length ++ xs.flatMap put := by
  refine (reads_u32.bind fun n => reads_times h n).congr fun xs code => ?_
  constructor
  · rintro ⟨n, _, _, ⟨hn, rfl⟩, ⟨⟨rfl, hall⟩, rfl⟩, rfl⟩
    exact ⟨⟨hn, hall⟩, rfl⟩
  · rintro ⟨⟨hn, hall⟩, rfl⟩
    exact ⟨_, _, _, ⟨hn, rfl⟩, ⟨⟨rfl, hall⟩, rfl⟩, rfl⟩

/-- A tag, and what it is the tag of. -/
theorem reads_tagged {α : Type} {k : UInt8 × Nat → Result (α × Nat)} {W : α → List UInt8 → Prop}
    (hW : ∀ x, ¬ W x []) (hk : ∀ tag, Format bytes (literalAt bytes) CodecError (fun pos => k (tag, pos))
      fun x code => W x (tag :: code)) :
    Format bytes (literalAt bytes) CodecError (fun pos => getTag bytes pos >>= k) W := by
  have htag : Format bytes (literalAt bytes) CodecError (getTag bytes) fun tag code => code = [tag] := by
    refine ⟨?_, ?_, ?_⟩
    · rintro tag _ pos rfl h
      rw [getTag, h.get]
      rfl
    · intro tag pos next h
      unfold getTag at h
      split at h
      · rename_i b hb
        cases h
        exact ⟨_, [], rfl, .exact (holds_singleton hb)⟩
      · cases h
    · intro pos e h
      unfold getTag at h
      split at h
      · cases h
      · cases h
        exact ⟨_, rfl⟩
  refine (htag.bind hk).congr fun x code => ?_
  constructor
  · rintro ⟨tag, _, rest, rfl, hx, rfl⟩
    exact hx
  · intro hx
    cases code with
    | nil => exact absurd hx (hW x)
    | cons tag rest => exact ⟨tag, [tag], rest, rfl, hx, rfl⟩

section Branches

variable {α β γ δ : Type} (pre : List UInt8) {Fits : α → Prop} {put : α → List UInt8}
  {getB : Nat → Result (β × Nat)} {FB : β → Prop} {putB : β → List UInt8}
  {getC : Nat → Result (γ × Nat)} {FC : γ → Prop} {putC : γ → List UInt8}
  {getD : Nat → Result (δ × Nat)} {FD : δ → Prop} {putD : δ → List UInt8}

/-- What some bytes are followed by, where that is one part. -/
theorem reads_one (hb : Reads bytes getB FB putB) {make : β → α} (hfits : ∀ b, Fits (make b) ↔ FB b)
    (hput : ∀ b, put (make b) = pre ++ putB b) (hinv : ∀ x code, put x = pre ++ code → ∃ b, x = make b) :
    Format bytes (literalAt bytes) CodecError
      (fun pos => do
        let (b, pos) ← getB pos
        return (make b, pos))
      fun x code => Fits x ∧ pre ++ code = put x := by
  refine (hb.bind fun b => .pure (make b)).congr fun x code => ?_
  constructor
  · rintro ⟨b, _, _, ⟨hfb, rfl⟩, ⟨rfl, rfl⟩, rfl⟩
    exact ⟨(hfits b).2 hfb, by rw [hput, List.append_nil]⟩
  · rintro ⟨hx, hcode⟩
    obtain ⟨b, rfl⟩ := hinv x code hcode.symm
    rw [hput] at hcode
    exact ⟨b, _, [], ⟨(hfits b).1 hx, rfl⟩, ⟨rfl, rfl⟩, by rw [List.append_nil, List.append_cancel_left hcode]⟩

/-- Two parts. -/
theorem reads_two (hb : Reads bytes getB FB putB) (hc : Reads bytes getC FC putC) {make : β → γ → α}
    (hfits : ∀ b c, Fits (make b c) ↔ FB b ∧ FC c) (hput : ∀ b c, put (make b c) = pre ++ (putB b ++ putC c))
    (hinv : ∀ x code, put x = pre ++ code → ∃ b c, x = make b c) :
    Format bytes (literalAt bytes) CodecError
      (fun pos => do
        let (b, pos) ← getB pos
        let (c, pos) ← getC pos
        return (make b c, pos))
      fun x code => Fits x ∧ pre ++ code = put x := by
  refine (hb.bind fun b => hc.bind fun c => .pure (make b c)).congr fun x code => ?_
  constructor
  · rintro ⟨b, _, _, ⟨hfb, rfl⟩, ⟨c, _, _, ⟨hfc, rfl⟩, ⟨rfl, rfl⟩, rfl⟩, rfl⟩
    exact ⟨(hfits b c).2 ⟨hfb, hfc⟩, by rw [hput, List.append_nil]⟩
  · rintro ⟨hx, hcode⟩
    obtain ⟨b, c, rfl⟩ := hinv x code hcode.symm
    rw [hput] at hcode
    obtain ⟨hfb, hfc⟩ := (hfits b c).1 hx
    exact ⟨b, _, _, ⟨hfb, rfl⟩, ⟨c, _, [], ⟨hfc, rfl⟩, ⟨rfl, rfl⟩, rfl⟩,
      by rw [List.append_nil, List.append_cancel_left hcode]⟩

/-- Three parts. -/
theorem reads_three (hb : Reads bytes getB FB putB) (hc : Reads bytes getC FC putC) (hd : Reads bytes getD FD putD)
    {make : β → γ → δ → α} (hfits : ∀ b c d, Fits (make b c d) ↔ FB b ∧ FC c ∧ FD d)
    (hput : ∀ b c d, put (make b c d) = pre ++ (putB b ++ (putC c ++ putD d)))
    (hinv : ∀ x code, put x = pre ++ code → ∃ b c d, x = make b c d) :
    Format bytes (literalAt bytes) CodecError
      (fun pos => do
        let (b, pos) ← getB pos
        let (c, pos) ← getC pos
        let (d, pos) ← getD pos
        return (make b c d, pos))
      fun x code => Fits x ∧ pre ++ code = put x := by
  refine (hb.bind fun b => hc.bind fun c => hd.bind fun d => .pure (make b c d)).congr fun x code => ?_
  constructor
  · rintro ⟨b, _, _, ⟨hfb, rfl⟩, ⟨c, _, _, ⟨hfc, rfl⟩, ⟨d, _, _, ⟨hfd, rfl⟩, ⟨rfl, rfl⟩, rfl⟩, rfl⟩, rfl⟩
    exact ⟨(hfits b c d).2 ⟨hfb, hfc, hfd⟩, by rw [hput, List.append_nil]⟩
  · rintro ⟨hx, hcode⟩
    obtain ⟨b, c, d, rfl⟩ := hinv x code hcode.symm
    rw [hput] at hcode
    obtain ⟨hfb, hfc, hfd⟩ := (hfits b c d).1 hx
    exact ⟨b, _, _, ⟨hfb, rfl⟩, ⟨c, _, _, ⟨hfc, rfl⟩, ⟨d, _, [], ⟨hfd, rfl⟩, ⟨rfl, rfl⟩, rfl⟩, rfl⟩,
      by rw [List.append_nil, List.append_cancel_left hcode]⟩

end Branches

theorem reads_row : Reads bytes (getRow bytes) rowFits putRow := by
  refine reads_tagged (fun x h => by cases x <;> cases h.2) fun tag => ?_
  refine .ite ?_ fun h1 => .ite ?_ fun h2 => .fail ⟨_, rfl⟩ ?_
  · rintro rfl
    exact reads_one [1] reads_u32 (fun _ => Iff.rfl) (fun _ => rfl) fun x code h => by
      cases x with
      | col i => exact ⟨i, rfl⟩
      | lit v => simp [putRow] at h
  · rintro rfl
    exact reads_one [2] reads_literal (fun _ => Iff.rfl) (fun _ => rfl) fun x code h => by
      cases x with
      | col i => simp [putRow] at h
      | lit v => exact ⟨v, rfl⟩
  · rintro x code ⟨-, hcode⟩
    cases x <;> simp [putRow] at hcode
    · exact h1 hcode.1
    · exact h2 hcode.1

/-- Where no level is left. -/
theorem reads_deep {α : Type} {W : α → List UInt8 → Prop} (hW : ∀ x code, ¬ W x code) :
    Format bytes (literalAt bytes) CodecError (fun _ => irTooDeep) W := .fail ⟨_, rfl⟩ hW

theorem reads_pred : ∀ levels, Reads bytes (getPred bytes levels) (predFits levels) putPred := by
  intro levels
  induction levels with
  | zero => exact reads_deep fun x code h => by cases x <;> exact h.1
  | succ levels ih =>
    refine reads_tagged (fun x h => by cases x <;> cases h.2) fun tag => ?_
    refine .ite ?_ fun h1 => .ite ?_ fun h2 => .fail ⟨_, rfl⟩ ?_
    · rintro rfl
      exact reads_two [1] reads_row reads_row (fun _ _ => Iff.rfl) (fun _ _ => rfl) fun x code h => by
        cases x with
        | eq a b => exact ⟨a, b, rfl⟩
        | and ps => simp [putPred] at h
    · rintro rfl
      refine reads_one [2] (reads_list ih) (fun ps => ?_) (fun ps => ?_) fun x code h => ?_
      · rw [predFits, predsFit_iff]
        exact Iff.rfl
      · rw [putPred, putPreds_eq]
        rfl
      · cases x with
        | eq a b => simp [putPred] at h
        | and ps => exact ⟨ps, rfl⟩
    · rintro x code ⟨-, hcode⟩
      cases x <;> simp [putPred] at hcode
      · exact h1 hcode.1
      · exact h2 hcode.1

theorem reads_valueExpr : ∀ levels, Reads bytes (getValueExpr bytes levels) (valueExprFits levels) putValueExpr := by
  intro levels
  induction levels with
  | zero => exact reads_deep fun x code h => by cases x <;> exact h.1
  | succ levels ih =>
    refine reads_tagged (fun x h => by cases x <;> cases h.2) fun tag => ?_
    refine .ite ?_ fun h1 => .ite ?_ fun h2 => .ite ?_ fun h3 => .fail ⟨_, rfl⟩ ?_
    · rintro rfl
      exact reads_one [1] reads_str (fun _ => Iff.rfl) (fun _ => rfl) fun x code h => by
        cases x with
        | local_ name => exact ⟨name, rfl⟩
        | _ => simp [putValueExpr] at h
    · rintro rfl
      exact reads_one [2] reads_literal (fun _ => Iff.rfl) (fun _ => rfl) fun x code h => by
        cases x with
        | literal v => exact ⟨v, rfl⟩
        | _ => simp [putValueExpr] at h
    · rintro rfl
      refine reads_two [3] reads_str (reads_list ih) (fun name es => ?_) (fun name es => ?_) fun x code h => ?_
      · rw [valueExprFits, valueExprsFit_iff]
        exact Iff.rfl
      · rw [putValueExpr, putValueExprs_eq]
        rfl
      · cases x with
        | intrinsic name es => exact ⟨name, es, rfl⟩
        | _ => simp [putValueExpr] at h
    · rintro x code ⟨-, hcode⟩
      cases x <;> simp [putValueExpr] at hcode
      · exact h1 hcode.1
      · exact h2 hcode.1
      · exact h3 hcode.1

/-- A tag that stands for a choice, and what follows. -/
theorem reads_choice {α γ : Type} {choose : UInt8 → Result γ} {tagOf : γ → UInt8}
    (hchoose : ∀ tag, (∃ g, choose tag = .ok g ∧ tagOf g = tag) ∨ ∃ e, choose tag = .error e ∧ CodecError e)
    (hinj : ∀ g, choose (tagOf g) = .ok g) {k : γ → Nat → Result (α × Nat)} {W : γ → α → List UInt8 → Prop}
    (hk : ∀ g, Format bytes (literalAt bytes) CodecError (k g) (W g)) :
    Format bytes (literalAt bytes) CodecError
      (fun pos => do
        let (tag, pos) ← getTag bytes pos
        let g ← choose tag
        k g pos)
      fun x code => ∃ g rest, W g x rest ∧ code = tagOf g :: rest := by
  refine reads_tagged (by simp) fun tag => ?_
  rcases hchoose tag with ⟨g, hg, rfl⟩ | ⟨e, he, hcodec⟩
  · have hread : ∀ pos, ((choose (tagOf g)) >>= fun g => k g pos) = k g pos := fun pos => by
      rw [hg]
      rfl
    have hread' : Format bytes (literalAt bytes) CodecError (fun pos => choose (tagOf g) >>= fun g => k g pos) (W g) := by
      simpa only [hread] using hk g
    refine hread'.congr fun x code => ?_
    constructor
    · exact fun hx => ⟨g, code, hx, rfl⟩
    · rintro ⟨g', rest, hx, hcode⟩
      obtain ⟨htag, rfl⟩ := List.cons.inj hcode
      obtain rfl := Except.ok.inj ((hinj g').symm.trans ((congrArg choose htag.symm).trans hg))
      exact hx
  · have hread : ∀ pos, (choose tag >>= fun g => k g pos) = .error e := fun pos => by
      rw [he]
      rfl
    simp only [hread]
    refine .fail hcodec ?_
    rintro x code ⟨g, rest, -, hcode⟩
    rw [(List.cons.inj hcode).1, hinj] at he
    cases he

theorem compareTag_choice : (∀ tag, (∃ op, getCompare tag = .ok op ∧ compareTag op = tag) ∨
    ∃ e, getCompare tag = .error e ∧ CodecError e) ∧ ∀ op, getCompare (compareTag op) = .ok op := by
  refine ⟨fun tag => ?_, fun op => by cases op <;> rfl⟩
  unfold getCompare
  split
  any_goals exact .inl ⟨_, rfl, rfl⟩
  exact .inr ⟨_, rfl, _, rfl⟩

theorem matchTag_choice : (∀ tag, (∃ op, getMatchOp tag = .ok op ∧ matchTag op = tag) ∨
    ∃ e, getMatchOp tag = .error e ∧ CodecError e) ∧ ∀ op, getMatchOp (matchTag op) = .ok op := by
  refine ⟨fun tag => ?_, fun op => by cases op <;> rfl⟩
  unfold getMatchOp
  split
  any_goals exact .inl ⟨_, rfl, rfl⟩
  exact .inr ⟨_, rfl, _, rfl⟩

theorem reads_bool : ∀ levels, Reads bytes (getBool bytes levels) (boolFits levels) putBool := by
  intro levels
  induction levels with
  | zero => exact reads_deep fun x code h => by cases x <;> exact h.1
  | succ levels ih =>
    have hvalue := @reads_valueExpr bytes levels
    refine reads_tagged (fun x h => by cases x <;> cases h.2) fun tag => ?_
    refine .ite ?_ fun h1 => .ite ?_ fun h2 => .ite ?_ fun h3 => .ite ?_ fun h4 => .ite ?_ fun h5 =>
      .fail ⟨_, rfl⟩ ?_
    · rintro rfl
      exact reads_one [1] hvalue (fun _ => Iff.rfl) (fun _ => rfl) fun x code h => by
        cases x with
        | value v => exact ⟨v, rfl⟩
        | _ => simp [putBool] at h
    · rintro rfl
      have hcompare : ∀ op, Format bytes (literalAt bytes) CodecError
          (fun pos => do
            let left ← getValueExpr bytes levels pos
            let right ← getValueExpr bytes levels left.2
            return (BoolExpr.compare op left.1 right.1, right.2))
          fun x code => boolFits (levels + 1) x ∧ [2, compareTag op] ++ code = putBool x := fun op =>
        reads_two _ hvalue hvalue (fun _ _ => Iff.rfl) (fun _ _ => rfl) fun x code h => by
          cases x with
          | compare op' left right =>
            have hop := congrArg getCompare (List.cons.inj (List.cons.inj h).2).1
            rw [compareTag_choice.2, compareTag_choice.2] at hop
            exact ⟨left, right, by rw [Except.ok.inj hop]⟩
          | _ => simp [putBool] at h
      refine (reads_choice compareTag_choice.1 compareTag_choice.2 hcompare).congr fun x code => ?_
      constructor
      · rintro ⟨op, rest, ⟨hx, hcode⟩, rfl⟩
        exact ⟨hx, hcode⟩
      · rintro ⟨hx, hcode⟩
        cases x with
        | compare op left right => exact ⟨op, _, ⟨hx, rfl⟩, (List.cons.inj hcode).2⟩
        | _ => simp [putBool] at hcode
    · rintro rfl
      exact reads_one [3] ih (fun _ => Iff.rfl) (fun _ => rfl) fun x code h => by
        cases x with
        | not b => exact ⟨b, rfl⟩
        | _ => simp [putBool] at h
    · rintro rfl
      exact reads_two [4] ih ih (fun _ _ => Iff.rfl) (fun _ _ => rfl) fun x code h => by
        cases x with
        | and left right => exact ⟨left, right, rfl⟩
        | _ => simp [putBool] at h
    · rintro rfl
      exact reads_two [5] ih ih (fun _ _ => Iff.rfl) (fun _ _ => rfl) fun x code h => by
        cases x with
        | or left right => exact ⟨left, right, rfl⟩
        | _ => simp [putBool] at h
    · rintro x code ⟨-, hcode⟩
      cases x <;> simp [putBool] at hcode
      · exact h1 hcode.1
      · exact h2 hcode.1
      · exact h3 hcode.1
      · exact h4 hcode.1
      · exact h5 hcode.1

theorem reads_expr : ∀ levels, Reads bytes (getExpr bytes levels) (exprFits levels) putExpr := by
  intro levels
  cases levels with
  | zero => exact reads_deep fun x code h => by cases x <;> exact h.1
  | succ levels =>
    refine reads_tagged (fun x h => by cases x <;> cases h.2) fun tag => ?_
    refine .ite ?_ fun h1 => .ite ?_ fun h2 => .fail ⟨_, rfl⟩ ?_
    · rintro rfl
      exact reads_one [1] (reads_valueExpr levels) (fun _ => Iff.rfl) (fun _ => rfl) fun x code h => by
        cases x with
        | value v => exact ⟨v, rfl⟩
        | bool b => simp [putExpr] at h
    · rintro rfl
      exact reads_one [2] (reads_bool levels) (fun _ => Iff.rfl) (fun _ => rfl) fun x code h => by
        cases x with
        | value v => simp [putExpr] at h
        | bool b => exact ⟨b, rfl⟩
    · rintro x code ⟨-, hcode⟩
      cases x <;> simp [putExpr] at hcode
      · exact h1 hcode.1
      · exact h2 hcode.1

theorem reads_exprs (levels : Nat) :
    Reads bytes (getExprs bytes levels) (Listed (exprFits levels)) putExprs := reads_list (reads_expr levels)

theorem reads_strings : Reads bytes (getStrings bytes) (Listed strFits) putStrings := reads_list reads_str

theorem reads_findArg (levels : Nat) : Reads bytes (getFindArg bytes levels) (findArgFits levels) putFindArg := by
  refine reads_tagged (fun x h => by cases x <;> cases h.2) fun tag => ?_
  refine .ite ?_ fun h1 => .ite ?_ fun h2 => .ite ?_ fun h3 => .fail ⟨_, rfl⟩ ?_
  · rintro rfl
    exact reads_one [1] (reads_expr levels) (fun _ => Iff.rfl) (fun _ => rfl) fun x code h => by
      cases x with
      | match_ e => exact ⟨e, rfl⟩
      | _ => simp [putFindArg] at h
  · rintro rfl
    exact reads_one [2] reads_str (fun _ => Iff.rfl) (fun _ => rfl) fun x code h => by
      cases x with
      | bind name => exact ⟨name, rfl⟩
      | _ => simp [putFindArg] at h
  · rintro rfl
    exact reads_two [3] (reads_expr levels) reads_str (fun _ _ => Iff.rfl) (fun _ _ => rfl) fun x code h => by
      cases x with
      | matchBind e name => exact ⟨e, name, rfl⟩
      | _ => simp [putFindArg] at h
  · rintro x code ⟨-, hcode⟩
    cases x <;> simp [putFindArg] at hcode
    · exact h1 hcode.1
    · exact h2 hcode.1
    · exact h3 hcode.1

/-- An operation on a relation. -/
theorem reads_relationOp {α : Type} {levels : Nat} {make : String → List ExprIr → α} {tag : UInt8}
    {Fits : α → Prop} {put : α → List UInt8}
    (hfits : ∀ relation arguments, Fits (make relation arguments) ↔ strFits relation ∧ Listed (exprFits levels) arguments)
    (hput : ∀ relation arguments, put (make relation arguments) = putRelationOp tag relation arguments)
    (hinv : ∀ x code, put x = tag :: code → ∃ relation arguments, x = make relation arguments) :
    Format bytes (literalAt bytes) CodecError
      (fun pos => do
        let (relation, pos) ← getStr bytes pos
        let (arguments, pos) ← getExprs bytes levels pos
        return (make relation arguments, pos))
      fun x code => Fits x ∧ tag :: code = put x :=
  reads_two [tag] reads_str (reads_exprs levels) hfits hput hinv

theorem reads_op : ∀ levels, Reads bytes (getOp bytes levels) (opFits levels) putOp := by
  intro levels
  induction levels with
  | zero => exact reads_deep fun x code h => by cases x <;> exact h.1
  | succ levels ih =>
    refine reads_tagged (fun x h => by cases x <;> cases h.2) fun tag => ?_
    by_cases h1 : tag = 1
    · subst h1
      refine (reads_str.bind fun view => (reads_exprs levels).bind fun arguments => reads_str.bind fun column =>
        reads_choice matchTag_choice.1 matchTag_choice.2 fun op => (reads_expr levels).bind fun rhs =>
          reads_strings.bind fun destinations =>
            .pure (BehaviorOp.resolve view arguments column op rhs destinations)).congr fun x code => ?_
      constructor
      · rintro ⟨view, _, _, ⟨hview, rfl⟩, ⟨arguments, _, _, ⟨hargs, rfl⟩, ⟨column, _, _, ⟨hcol, rfl⟩,
          ⟨op, _, ⟨rhs, _, _, ⟨hrhs, rfl⟩, ⟨destinations, _, _, ⟨hdest, rfl⟩, ⟨rfl, rfl⟩, rfl⟩, rfl⟩, rfl⟩, rfl⟩, rfl⟩, rfl⟩
        exact ⟨⟨hview, hargs, hcol, hrhs, hdest⟩, by simp [putOp]⟩
      · rintro ⟨hx, hcode⟩
        cases x with
        | resolve view arguments column op rhs destinations =>
          obtain ⟨hview, hargs, hcol, hrhs, hdest⟩ := hx
          exact ⟨view, _, _, ⟨hview, rfl⟩, ⟨arguments, _, _, ⟨hargs, rfl⟩, ⟨column, _, _, ⟨hcol, rfl⟩,
            ⟨op, _, ⟨rhs, _, _, ⟨hrhs, rfl⟩, ⟨destinations, _, [], ⟨hdest, rfl⟩, ⟨rfl, rfl⟩, rfl⟩, rfl⟩, rfl⟩, rfl⟩,
            rfl⟩, by simpa [putOp] using hcode⟩
        | _ => simp [putOp, putRelationOp] at hcode
    by_cases h2 : tag = 2
    · subst h2
      exact reads_two [2] reads_str (reads_list (reads_findArg levels)) (fun _ _ => Iff.rfl) (fun _ _ => rfl)
        fun x code h => by
          cases x with
          | find relation arguments => exact ⟨relation, arguments, rfl⟩
          | _ => simp [putOp, putRelationOp] at h
    by_cases h3 : tag = 3
    · subst h3
      exact reads_two [3] reads_str (reads_expr levels) (fun _ _ => Iff.rfl) (fun _ _ => rfl) fun x code h => by
        cases x with
        | letOp name value => exact ⟨name, value, rfl⟩
        | _ => simp [putOp, putRelationOp] at h
    by_cases h4 : tag = 4
    · subst h4
      refine reads_three [4] (reads_bool levels) (reads_list ih) (reads_list ih) (fun c t e => ?_) (fun c t e => ?_)
        fun x code h => ?_
      · rw [opFits, opsFit_iff, opsFit_iff]
        exact Iff.rfl
      · rw [putOp, putOps_eq, putOps_eq]
        simp
      · cases x with
        | ifOp c t e => exact ⟨c, t, e, rfl⟩
        | _ => simp [putOp, putRelationOp] at h
    by_cases h5 : tag = 5
    · subst h5
      exact reads_relationOp (fun _ _ => Iff.rfl) (fun _ _ => rfl) fun x code h => by
        cases x with
        | expect relation arguments => exact ⟨relation, arguments, rfl⟩
        | _ => simp [putOp, putRelationOp] at h
    by_cases h6 : tag = 6
    · subst h6
      exact reads_relationOp (fun _ _ => Iff.rfl) (fun _ _ => rfl) fun x code h => by
        cases x with
        | assert relation arguments => exact ⟨relation, arguments, rfl⟩
        | _ => simp [putOp, putRelationOp] at h
    by_cases h7 : tag = 7
    · subst h7
      exact reads_relationOp (fun _ _ => Iff.rfl) (fun _ _ => rfl) fun x code h => by
        cases x with
        | retract relation arguments => exact ⟨relation, arguments, rfl⟩
        | _ => simp [putOp, putRelationOp] at h
    by_cases h8 : tag = 8
    · subst h8
      exact reads_relationOp (fun _ _ => Iff.rfl) (fun _ _ => rfl) fun x code h => by
        cases x with
        | emit relation arguments => exact ⟨relation, arguments, rfl⟩
        | _ => simp [putOp, putRelationOp] at h
    by_cases h9 : tag = 9
    · subst h9
      refine reads_three [9] reads_str (reads_exprs levels) reads_strings (fun _ _ _ => Iff.rfl) (fun c a d => ?_)
        fun x code h => ?_
      · simp [putOp]
      · cases x with
        | invokeCapability c a d => exact ⟨c, a, d, rfl⟩
        | _ => simp [putOp, putRelationOp] at h
    refine ⟨?_, ?_, ?_⟩
    · rintro x code pos ⟨-, hcode⟩ -
      cases x <;> simp [putOp, putRelationOp] at hcode <;> exact absurd hcode.1 (by assumption)
    · intro x pos next h
      dsimp only at h
      split at h <;> contradiction
    · intro pos e h
      dsimp only at h
      split at h
      all_goals first | contradiction | skip
      cases h
      exact ⟨_, rfl⟩

/-! ## Whole behaviors -/

/-- The bytes read are, but for their literals, what is written; their marks tell whether
the literals are too. -/
theorem spelled_of_spelt {pos next : Nat} {code : List UInt8} {ms : List Mark}
    (h : Spelt bytes (literalAt bytes) pos next code ms) :
    pos ≤ bytes.length → Spelled bytes pos next code (some (ms, next)) := by
  induction h with
  | nil pos => exact fun hle => spelled_exact (holds_nil hle) rfl rfl
  | exact hholds => exact fun _ => spelled_exact hholds rfl rfl
  | piece hlit =>
    obtain ⟨v, hv, rfl, hms⟩ := hlit
    intro _
    have hspelled := decodeValueAt_marks maxDepth _ v _ hv
    rwa [hms] at hspelled
  | append _ _ ih ih' =>
    intro hle
    have hhead := ih hle
    exact spelled_append hhead (ih' hhead.le)

/-- What follows the version byte. -/
theorem reads_body : Reads bytes
    (fun pos => do
      let (guard, pos) ← getPred bytes maxIrDepth pos
      let (parameters, pos) ← getStrings bytes pos
      let (body, pos) ← getList bytes (getOp bytes maxIrDepth) pos
      return (StoredBehavior.mk guard parameters body, pos))
    behaviorFits fun b => putPred b.guard ++ (putStrings b.parameters ++ (toBE 4 b.body.length ++ putOps b.body)) :=
  reads_three [] (reads_pred maxIrDepth) reads_strings (reads_list (reads_op maxIrDepth)) (fun _ _ _ => Iff.rfl)
    (fun g p b => by rw [putOps_eq]; rfl) fun b _ _ => ⟨b.guard, b.parameters, b.body, rfl⟩

/-- A behavior read from a whole buffer follows the version byte, and ends it. -/
theorem decodeBehavior_eq : decodeBehavior bytes = (do
    let pos ← readVersion bytes
    let (b, pos) ← (do
      let (guard, pos) ← getPred bytes maxIrDepth pos
      let (parameters, pos) ← getStrings bytes pos
      let (body, pos) ← getList bytes (getOp bytes maxIrDepth) pos
      return (StoredBehavior.mk guard parameters body, pos))
    if pos ≠ bytes.length then .error (.codec "trailing bytes after behavior") else return b) := by
  simp only [decodeBehavior, bind_assoc, pure_bind]

theorem readVersion_refuse {e : Error} (h : readVersion bytes = .error e) : CodecError e := by
  unfold readVersion at h
  split at h
  · split_ifs at h
    cases h
    exact ⟨_, rfl⟩
  · cases h
    exact ⟨_, rfl⟩

theorem decodeBehavior_encode {b : StoredBehavior} (h : behaviorFits b) :
    decodeBehavior (encodeBehavior b) = .ok b := by
  have hall : Holds (encodeBehavior b) 0 (encodeBehavior b) := ⟨[], [], by simp, rfl⟩
  have hversion : readVersion (encodeBehavior b) = .ok 1 := by
    rw [readVersion, hall.get]
    rfl
  have hrest : Holds (encodeBehavior b) 1
      (putPred b.guard ++ (putStrings b.parameters ++ (toBE 4 b.body.length ++ putOps b.body))) := by
    have htail := hall.tail
    rwa [List.append_assoc] at htail
  have hbody := reads_body.back ⟨h, rfl⟩ hrest
  have hend : 1 + (putPred b.guard ++ (putStrings b.parameters ++ (toBE 4 b.body.length ++ putOps b.body))).length
      = (encodeBehavior b).length := by
    rw [encodeBehavior, List.length_cons, List.append_assoc, Nat.add_comm]
  rw [decodeBehavior_eq, ok_bind hversion, ok_bind hbody]
  exact if_neg (not_not.2 hend)

theorem decodeBehavior_refuse {e : Error} (h : decodeBehavior bytes = .error e) : CodecError e := by
  rw [decodeBehavior_eq] at h
  rcases bind_error h with h | ⟨pos, -, h⟩
  · exact readVersion_refuse h
  · rcases bind_error h with h | ⟨⟨b, p⟩, -, h⟩
    · exact reads_body.refuse h
    · dsimp only at h
      split_ifs at h
      · cases h
        exact ⟨_, rfl⟩
      · cases h

theorem decodeBehavior_spelt {b : StoredBehavior} (h : decodeBehavior bytes = .ok b) :
    behaviorFits b ∧ ∃ ms, Spelt bytes (literalAt bytes) 0 bytes.length (encodeBehavior b) ms := by
  rw [decodeBehavior_eq] at h
  obtain ⟨pos, hv, h⟩ := bind_ok h
  obtain rfl := readVersion_eq_one hv
  obtain ⟨⟨b', p⟩, hb, h⟩ := bind_ok h
  dsimp only at h
  split_ifs at h with hend
  cases h
  obtain rfl := not_not.1 hend
  obtain ⟨_, ms, ⟨hfits, rfl⟩, hspelt⟩ := reads_body.read hb
  have hhead : Spelt bytes (literalAt bytes) 0 1 [formatVersion] [] :=
    .exact (holds_singleton (version_byte hv))
  refine ⟨hfits, ms, ?_⟩
  rw [encodeBehavior, List.append_assoc]
  exact hhead.append hspelt

/-- **The codec of stored behaviors.** A behavior within the format's limits is read back
exactly. Any bytes give a behavior within them or a codec error. And the bytes of an
accepted behavior are what is written of it but for its literals' spellings: where each
flag byte of these is 0 or 1, they are so exactly if no float payload is negative zero's. -/
theorem behavior_codec :
    (∀ b, behaviorFits b → decodeBehavior (encodeBehavior b) = .ok b) ∧
    (∀ bytes, (∃ b, decodeBehavior bytes = .ok b ∧ behaviorFits b) ∨
      ∃ msg, decodeBehavior bytes = .error (.codec msg)) ∧
    ∀ bytes b, decodeBehavior bytes = .ok b →
      ∃ ms, Spelt bytes (literalAt bytes) 0 bytes.length (encodeBehavior b) ms ∧
        ((∀ m ∈ ms, m.PlainFlag) → (encodeBehavior b = bytes ↔ ∀ m ∈ ms, m.PlainFloat)) := by
  refine ⟨fun b => decodeBehavior_encode, fun bytes => ?_, fun bytes b h => ?_⟩
  · cases hd : decodeBehavior bytes with
    | ok b => exact .inl ⟨b, rfl, (decodeBehavior_spelt hd).1⟩
    | error e =>
        obtain ⟨msg, rfl⟩ := decodeBehavior_refuse hd
        exact .inr ⟨msg, rfl⟩
  · obtain ⟨-, ms, hspelt⟩ := decodeBehavior_spelt h
    obtain ⟨ms', hms, hcanon⟩ := (spelled_of_spelt hspelt (Nat.zero_le _)).canonical
    obtain ⟨rfl, -⟩ := Prod.mk.inj (Option.some.inj hms)
    rw [consumed_all] at hcanon
    exact ⟨ms, hspelt, hcanon⟩

/-- A behavior that asserts a literal. -/
def assertsFlag (v : Value) : StoredBehavior := ⟨.and [], ["m"], [.assert "r" [.value (.literal v)]]⟩

theorem assertsFlag_read :
    decodeBehavior (encodeBehavior (assertsFlag (.bool true))) = .ok (assertsFlag (.bool true)) := by
  have hname : ∀ name : String, name.toByteArray.data.toList.length = 1 → strFits name := by
    intro name h
    rw [strFits, h]
    decide
  refine behavior_codec.1 _ ⟨⟨by decide, trivial⟩, ⟨by decide, ?_⟩, by decide, ?_⟩
  · simp only [assertsFlag, List.forall_mem_singleton]
    exact hname "m" (by decide +kernel)
  · simp only [assertsFlag, List.forall_mem_singleton]
    refine ⟨hname "r" (by decide +kernel), by decide, ?_⟩
    simp only [List.forall_mem_singleton]
    rfl

/-- The guard that a float is a column, the float spelt as negative zero. -/
def negativeZeroGuard : List UInt8 :=
  [formatVersion, 1, 2, 8, 128, 0, 0, 0, 0, 0, 0, 0, 1, 0, 0, 0, 0, 0, 0, 0, 0, 0, 0, 0, 0]

/-- **Negative zero is accepted, and written as zero.** -/
theorem behavior_not_canonical : ¬ ∀ bytes b, decodeBehavior bytes = .ok b → encodeBehavior b = bytes := by
  intro h
  have hwritten : (decodeBehavior negativeZeroGuard).toOption.map encodeBehavior
      = some (negativeZeroGuard.set 4 0) := by
    decide +kernel
  cases hb : decodeBehavior negativeZeroGuard with
  | error e =>
      rw [hb] at hwritten
      cases hwritten
  | ok b =>
      rw [hb] at hwritten
      have hsame : negativeZeroGuard = negativeZeroGuard.set 4 0 :=
        (h _ b hb).symm.trans (Option.some.inj hwritten)
      exact absurd hsame (by decide)

end Reads

end Wire

end Grmpl

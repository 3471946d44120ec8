import Grmpl.Core.Schema
import Grmpl.Core.Wire

/-!
# The wire form of schemas, and the round trip

A schema is a version byte, its column count and each column's type tag and counted
name. The type tags are a namespace of their own.

* `encodeSchema`, `decodeSchema`, `schemaFits`.
* `decodeValueAt_append`: what a decoder read, it still reads when more bytes follow.
* `decodeValueAt_deep`: a value nested past the levels left is refused.
* `wire_round_trip`: the laws of all the decoders.
-/

open Bytes

namespace Grmpl

namespace Wire

/-! ## Schemas -/

def tyTag : Ty → UInt8
  | .ent => 1
  | .int => 2
  | .float => 9
  | .text => 3
  | .bool => 4
  | .tuple => 5
  | .bytes => 7
  | .code => 8
  | .any => 6

def tyFromTag (tag : UInt8) : Result Ty :=
  if tag = 1 then .ok .ent
  else if tag = 2 then .ok .int
  else if tag = 9 then .ok .float
  else if tag = 3 then .ok .text
  else if tag = 4 then .ok .bool
  else if tag = 5 then .ok .tuple
  else if tag = 7 then .ok .bytes
  else if tag = 8 then .ok .code
  else if tag = 6 then .ok .any
  else .error (.codec ("unknown column-type tag " ++ toString tag))

def encodeColumn (c : Column) : List UInt8 := tyTag c.ty :: counted c.name.toByteArray.data.toList

def encodeSchema (s : Schema) : List UInt8 :=
  formatVersion :: (toBE 4 s.columns.length ++ s.columns.flatMap encodeColumn)

def decodeColumn (bytes : List UInt8) (pos : Nat) : Result (Column × Nat) :=
  match bytes[pos]? with
  | none => .error (.codec "unexpected end (ty tag)")
  | some tag => do
      let ty ← tyFromTag tag
      let (bs, pos) ← readCounted bytes (pos + 1) "column name"
      match String.fromUTF8? ⟨bs.toArray⟩ with
      | some name => return (⟨name, ty⟩, pos)
      | none => .error (.codec "invalid utf-8 sequence")

def decodeColumns (bytes : List UInt8) : Nat → Nat → Result (List Column × Nat)
  | 0, pos => .ok ([], pos)
  | n + 1, pos => do
      let (c, pos) ← decodeColumn bytes pos
      let (cs, pos) ← decodeColumns bytes n pos
      return (c :: cs, pos)

def decodeSchema (bytes : List UInt8) : Result Schema := do
  let pos ← readVersion bytes
  let (ncols, pos) ← readU32 bytes pos
  let (columns, pos) ← decodeColumns bytes ncols pos
  if pos ≠ bytes.length then .error (.codec "trailing bytes after schema")
  else return ⟨columns⟩

/-- A schema whose counts fit. -/
def schemaFits (s : Schema) : Bool :=
  decide (s.columns.length < 2 ^ 32) &&
    s.columns.all fun c => decide (c.name.toByteArray.data.toList.length < 2 ^ 32)

theorem tyFromTag_tyTag (ty : Ty) : tyFromTag (tyTag ty) = .ok ty := by cases ty <;> rfl

section Reads

variable {bytes bs rest : List UInt8} {pos levels : Nat}

theorem decodeColumn_encode {c : Column} (hlen : c.name.toByteArray.data.toList.length < 2 ^ 32)
    (h : Holds bytes pos (encodeColumn c)) :
    decodeColumn bytes pos = .ok (c, pos + (encodeColumn c).length) := by
  have hread := readCounted_of_holds hlen h.tail "column name"
  rw [decodeColumn, h.get]
  simp only [tyFromTag_tyTag, bind, Except.bind, hread, fromUTF8?_toByteArray]
  rw [encodeColumn, List.length_cons, Nat.add_assoc, Nat.add_comm 1]
  rfl

theorem decodeColumns_encode : ∀ (cs : List Column) (pos : Nat),
    (∀ c ∈ cs, c.name.toByteArray.data.toList.length < 2 ^ 32) →
    Holds bytes pos (cs.flatMap encodeColumn) →
    decodeColumns bytes cs.length pos = .ok (cs, pos + (cs.flatMap encodeColumn).length) := by
  intro cs
  induction cs with
  | nil => exact fun _ _ _ => rfl
  | cons c cs ih =>
    intro pos hlen h
    rw [List.flatMap_cons] at h ⊢
    have hcs := ih _ (fun c' hc' => hlen c' (List.mem_cons_of_mem _ hc')) h.right
    rw [List.length_cons, decodeColumns, decodeColumn_encode (hlen c (by simp)) h.left]
    show (decodeColumns bytes cs.length _ >>= _) = _
    rw [hcs, List.length_append, ← Nat.add_assoc]
    rfl

/-- **A schema that fits is read back.** -/
theorem decodeSchema_encode {s : Schema} (hfits : schemaFits s = true) :
    decodeSchema (encodeSchema s) = .ok s := by
  simp only [schemaFits, Bool.and_eq_true, decide_eq_true_eq, List.all_eq_true] at hfits
  obtain ⟨hcols, hnames⟩ := hfits
  have hall : Holds (encodeSchema s) 0 (encodeSchema s) := ⟨[], [], by simp, rfl⟩
  have hrest : Holds (encodeSchema s) 1 (toBE 4 s.columns.length ++ s.columns.flatMap encodeColumn) :=
    hall.tail
  have hright := hrest.right
  rw [length_toBE] at hright
  have hversion : readVersion (encodeSchema s) = .ok 1 := by
    rw [readVersion, hall.get]
    rfl
  have hlen : (encodeSchema s).length = 1 + 4 + (s.columns.flatMap encodeColumn).length := by
    simp only [encodeSchema, List.length_cons, List.length_append, length_toBE]
    omega
  simp only [decodeSchema, hversion, bind, Except.bind, readU32_of_holds hcols hrest.left,
    decodeColumns_encode _ _ hnames hright]
  rw [if_neg (by rw [hlen]; exact fun h => h rfl)]
  rfl

/-! ## What follows makes no difference -/

theorem getElem?_append_some {b : UInt8} (h : bytes[pos]? = some b) :
    (bytes ++ rest)[pos]? = some b := ((holds_singleton h).more rest).get

theorem readSlice_append {what : String} {r : List UInt8 × Nat} {len : Nat}
    (h : readSlice bytes pos len what = .ok r) : readSlice (bytes ++ rest) pos len what = .ok r := by
  unfold readSlice at h ⊢
  cases hs : slice bytes pos len with
  | none =>
    rw [hs] at h
    cases h
  | some bs =>
    rw [hs] at h
    obtain ⟨hlen, hholds⟩ := slice_eq_some hs
    have hmore := (hholds.more rest).slice
    rw [hlen] at hmore
    rw [hmore]
    exact h

theorem readU32_append {r : Nat × Nat} (h : readU32 bytes pos = .ok r) :
    readU32 (bytes ++ rest) pos = .ok r := by
  obtain ⟨a, ha, hr⟩ := bind_ok h
  rw [readU32, readSlice_append ha]
  exact hr

theorem readU64_append {r : UInt64 × Nat} (h : readU64 bytes pos = .ok r) :
    readU64 (bytes ++ rest) pos = .ok r := by
  obtain ⟨a, ha, hr⟩ := bind_ok h
  rw [readU64, readSlice_append ha]
  exact hr

theorem readCounted_append {what : String} {r : List UInt8 × Nat}
    (h : readCounted bytes pos what = .ok r) : readCounted (bytes ++ rest) pos what = .ok r := by
  obtain ⟨a, ha, hr⟩ := bind_ok h
  rw [readCounted, readU32_append ha]
  exact readSlice_append hr

theorem decodeTimes_append {decode decode' : Nat → Result (Value × Nat)}
    (hd : ∀ pos r, decode pos = .ok r → decode' pos = .ok r) : ∀ (n pos : Nat) {r : List Value × Nat},
    decodeTimes decode n pos = .ok r → decodeTimes decode' n pos = .ok r := by
  intro n
  induction n with
  | zero => exact fun _ _ h => h
  | succ n ih =>
    intro pos r h
    obtain ⟨v, hv, h⟩ := bind_ok h
    obtain ⟨vs, hvs, h⟩ := bind_ok h
    rw [decodeTimes, hd _ _ hv]
    show (decodeTimes decode' n v.2 >>= _) = _
    rw [ih _ hvs]
    exact h

/-- How a value can be read at a position: its tag, then its content. -/
inductive Reading (bytes : List UInt8) : Nat → Nat → Value → Nat → Prop
  | ent {levels pos next : Nat} {n : UInt64} (htag : bytes[pos]? = some tagEnt)
      (hn : readU64 bytes (pos + 1) = .ok (n, next)) : Reading bytes levels pos (.ent ⟨n⟩) next
  | int {levels pos next : Nat} {n : UInt64} (htag : bytes[pos]? = some tagInt)
      (hn : readU64 bytes (pos + 1) = .ok (n, next)) : Reading bytes levels pos (.int n.toInt64) next
  | float {levels pos next : Nat} {n : UInt64} {x : FiniteF64} (htag : bytes[pos]? = some tagFloat)
      (hn : readU64 bytes (pos + 1) = .ok (n, next)) (hx : FiniteF64.fromBits n = some x) :
      Reading bytes levels pos (.float x) next
  | text {levels pos next : Nat} {bs : List UInt8} {s : String} (htag : bytes[pos]? = some tagText)
      (hbs : readCounted bytes (pos + 1) "text" = .ok (bs, next))
      (hs : String.fromUTF8? ⟨bs.toArray⟩ = some s) : Reading bytes levels pos (.text s) next
  | bool {levels pos : Nat} {b : UInt8} (htag : bytes[pos]? = some tagBool)
      (hb : bytes[pos + 1]? = some b) : Reading bytes levels pos (.bool (b != 0)) (pos + 2)
  | tuple {levels pos next : Nat} {cells : List Value} (htag : bytes[pos]? = some tagTuple)
      (hcells : decodeCells bytes (decodeValueAt bytes levels) (pos + 1) = .ok (cells, next)) :
      Reading bytes (levels + 1) pos (.tuple cells) next
  | bytes {levels pos next : Nat} {bs : List UInt8} (htag : bytes[pos]? = some tagBytes)
      (hbs : readCounted bytes (pos + 1) "bytes" = .ok (bs, next)) :
      Reading bytes levels pos (.bytes bs) next
  | code {levels pos next : Nat} {bs : List UInt8} (htag : bytes[pos]? = some tagCode)
      (hbs : readCounted bytes (pos + 1) "code" = .ok (bs, next)) :
      Reading bytes levels pos (.code bs) next

/-- The decoder reads exactly what can be read. -/
theorem decodeValueAt_eq_ok {v : Value} {next : Nat} :
    decodeValueAt bytes levels pos = .ok (v, next) ↔ Reading bytes levels pos v next := by
  constructor
  · intro h
    unfold decodeValueAt at h
    cases htag : bytes[pos]? with
    | none =>
      rw [htag] at h
      cases h
    | some tag =>
      rw [htag] at h
      dsimp only at h
      split_ifs at h with h₁ h₂ h₃ h₄ h₅ h₆ h₇ h₈
      · obtain ⟨r, hr, h⟩ := bind_ok h
        cases h
        exact .ent (h₁ ▸ htag) hr
      · obtain ⟨r, hr, h⟩ := bind_ok h
        cases h
        exact .int (h₂ ▸ htag) hr
      · obtain ⟨r, hr, h⟩ := bind_ok h
        cases hx : FiniteF64.fromBits r.1 with
        | none =>
          rw [hx] at h
          cases h
        | some x =>
          rw [hx] at h
          cases h
          exact .float (h₃ ▸ htag) hr hx
      · obtain ⟨r, hr, h⟩ := bind_ok h
        cases hs : String.fromUTF8? ⟨r.1.toArray⟩ with
        | none =>
          rw [hs] at h
          cases h
        | some s =>
          rw [hs] at h
          cases h
          exact .text (h₄ ▸ htag) hr hs
      · cases hb : bytes[pos + 1]? with
        | none =>
          rw [hb] at h
          cases h
        | some b =>
          rw [hb] at h
          cases h
          exact .bool (h₅ ▸ htag) hb
      · cases levels with
        | zero => cases h
        | succ levels =>
          obtain ⟨r, hr, h⟩ := bind_ok h
          cases h
          exact .tuple (h₆ ▸ htag) hr
      · obtain ⟨r, hr, h⟩ := bind_ok h
        cases h
        exact .bytes (h₇ ▸ htag) hr
      · obtain ⟨r, hr, h⟩ := bind_ok h
        cases h
        exact .code (h₈ ▸ htag) hr
  · intro h
    unfold decodeValueAt
    cases h with
    | ent htag hn =>
      rw [htag]
      simp [tagEnt, hn, bind, Except.bind, pure, Except.pure]
    | int htag hn =>
      rw [htag]
      simp [tagEnt, tagInt, hn, bind, Except.bind, pure, Except.pure]
    | float htag hn hx =>
      rw [htag]
      simp [tagEnt, tagInt, tagFloat, hn, hx, bind, Except.bind, pure, Except.pure]
    | text htag hbs hs =>
      rw [htag]
      simp [tagEnt, tagInt, tagFloat, tagText, hbs, hs, bind, Except.bind, pure, Except.pure]
    | bool htag hb =>
      rw [htag]
      simp [tagEnt, tagInt, tagFloat, tagText, tagBool, hb, pure, Except.pure]
    | tuple htag hcells =>
      rw [htag]
      simp [tagEnt, tagInt, tagFloat, tagText, tagBool, tagTuple, hcells, bind, Except.bind, pure,
        Except.pure]
    | bytes htag hbs =>
      rw [htag]
      simp [tagEnt, tagInt, tagFloat, tagText, tagBool, tagTuple, tagBytes, hbs, bind, Except.bind,
        pure, Except.pure]
    | code htag hbs =>
      rw [htag]
      simp [tagEnt, tagInt, tagFloat, tagText, tagBool, tagTuple, tagBytes, tagCode, hbs, bind,
        Except.bind, pure, Except.pure]

theorem decodeCells_append {decode decode' : Nat → Result (Value × Nat)}
    (hd : ∀ pos r, decode pos = .ok r → decode' pos = .ok r) {r : List Value × Nat}
    (h : decodeCells bytes decode pos = .ok r) : decodeCells (bytes ++ rest) decode' pos = .ok r := by
  obtain ⟨a, ha, hr⟩ := bind_ok h
  rw [decodeCells, readU32_append ha]
  exact decodeTimes_append hd _ _ hr

theorem Reading.append {v : Value} {next : Nat} (h : Reading bytes levels pos v next)
    (hd : ∀ l, levels = l + 1 → ∀ pos r, decodeValueAt bytes l pos = .ok r →
      decodeValueAt (bytes ++ rest) l pos = .ok r) : Reading (bytes ++ rest) levels pos v next := by
  cases h with
  | ent htag hn => exact .ent (getElem?_append_some htag) (readU64_append hn)
  | int htag hn => exact .int (getElem?_append_some htag) (readU64_append hn)
  | float htag hn hx => exact .float (getElem?_append_some htag) (readU64_append hn) hx
  | text htag hbs hs => exact .text (getElem?_append_some htag) (readCounted_append hbs) hs
  | bool htag hb => exact .bool (getElem?_append_some htag) (getElem?_append_some hb)
  | tuple htag hcells =>
    exact .tuple (getElem?_append_some htag) (decodeCells_append (hd _ rfl) hcells)
  | bytes htag hbs => exact .bytes (getElem?_append_some htag) (readCounted_append hbs)
  | code htag hbs => exact .code (getElem?_append_some htag) (readCounted_append hbs)

/-- **What was read is read whatever follows it.** -/
theorem decodeValueAt_append (rest : List UInt8) : ∀ (levels pos : Nat) (r : Value × Nat),
    decodeValueAt bytes levels pos = .ok r → decodeValueAt (bytes ++ rest) levels pos = .ok r := by
  intro levels
  induction levels with
  | zero =>
    intro pos r h
    exact decodeValueAt_eq_ok.2 ((decodeValueAt_eq_ok.1 h).append fun l hl => nomatch hl)
  | succ levels ih =>
    intro pos r h
    refine decodeValueAt_eq_ok.2 ((decodeValueAt_eq_ok.1 h).append fun l hl => ?_)
    obtain rfl := Nat.succ.inj hl
    exact ih

theorem readVersion_eq_one {n : Nat} (h : readVersion bytes = .ok n) : n = 1 := by
  unfold readVersion at h
  split at h
  · split_ifs at h
    exact (Except.ok.inj h).symm
  · cases h

theorem readVersion_append {n : Nat} (h : readVersion bytes = .ok n) :
    readVersion (bytes ++ rest) = .ok n := by
  unfold readVersion at h ⊢
  cases hb : bytes[0]? with
  | none =>
    rw [hb] at h
    cases h
  | some v =>
    rw [hb] at h
    rw [getElem?_append_some hb]
    exact h

theorem decodeTuple_append {r : Tuple × Nat} (h : decodeTuple bytes pos = .ok r) :
    decodeTuple (bytes ++ rest) pos = .ok r := by
  obtain ⟨c, hc, hr⟩ := bind_ok h
  rw [decodeTuple, decodeCells_append (decodeValueAt_append rest maxDepth) hc]
  exact hr

theorem decodeColumn_append {r : Column × Nat} (h : decodeColumn bytes pos = .ok r) :
    decodeColumn (bytes ++ rest) pos = .ok r := by
  unfold decodeColumn at h ⊢
  cases htag : bytes[pos]? with
  | none =>
    rw [htag] at h
    cases h
  | some tag =>
    rw [htag] at h
    rw [getElem?_append_some htag]
    obtain ⟨ty, hty, h⟩ := bind_ok h
    obtain ⟨bs, hbs, h⟩ := bind_ok h
    dsimp only
    rw [hty]
    show (readCounted (bytes ++ rest) (pos + 1) "column name" >>= _) = _
    rw [readCounted_append hbs]
    exact h

theorem decodeColumns_append : ∀ (n pos : Nat) {r : List Column × Nat},
    decodeColumns bytes n pos = .ok r → decodeColumns (bytes ++ rest) n pos = .ok r := by
  intro n
  induction n with
  | zero => exact fun _ _ h => h
  | succ n ih =>
    intro pos r h
    obtain ⟨c, hc, h⟩ := bind_ok h
    obtain ⟨cs, hcs, h⟩ := bind_ok h
    rw [decodeColumns, decodeColumn_append hc]
    show (decodeColumns (bytes ++ rest) n c.2 >>= _) = _
    rw [ih _ hcs]
    exact h

/-- A message read from a whole buffer is its inbox, and a body that ends it. -/
theorem decodeMessage_eq_ok {m : Message} : decodeMessage bytes = .ok m ↔
    ∃ p, readVersion bytes = .ok 1 ∧ readU32 bytes 1 = .ok (m.inbox, p) ∧
      decodeTuple bytes p = .ok (m.body, bytes.length) := by
  constructor
  · intro h
    obtain ⟨pos, hpos, h⟩ := bind_ok h
    obtain rfl := readVersion_eq_one hpos
    cases hin : readU32 bytes 1 with
    | error e =>
      rw [hin] at h
      cases h
    | ok r =>
      rw [hin] at h
      obtain ⟨b, hb, h⟩ := bind_ok h
      dsimp only at h
      split_ifs at h with hend
      cases h
      refine ⟨r.2, hpos, rfl, ?_⟩
      rw [hb, ← not_not.1 hend]
  · rintro ⟨p, hv, hin, hb⟩
    rw [decodeMessage, ok_bind hv, hin]
    show (decodeTuple bytes p >>= _) = _
    rw [hb]
    show (if _ then _ else _) = _
    rw [if_neg (not_not.2 rfl)]
    rfl

/-- A schema read from a whole buffer is its columns, the last of which ends it. -/
theorem decodeSchema_eq_ok {s : Schema} : decodeSchema bytes = .ok s ↔
    ∃ n p, readVersion bytes = .ok 1 ∧ readU32 bytes 1 = .ok (n, p) ∧
      decodeColumns bytes n p = .ok (s.columns, bytes.length) := by
  constructor
  · intro h
    obtain ⟨pos, hpos, h⟩ := bind_ok h
    obtain rfl := readVersion_eq_one hpos
    obtain ⟨r, hr, h⟩ := bind_ok h
    obtain ⟨c, hc, h⟩ := bind_ok h
    dsimp only at h
    split_ifs at h with hend
    cases h
    refine ⟨r.1, r.2, hpos, hr, ?_⟩
    rw [hc, ← not_not.1 hend]
  · rintro ⟨n, p, hv, hn, hc⟩
    rw [decodeSchema, hv]
    show (readU32 bytes 1 >>= _) = _
    rw [hn]
    show (decodeColumns bytes n p >>= _) = _
    rw [hc]
    show (if _ then _ else _) = _
    rw [if_neg (not_not.2 rfl)]
    rfl

/-- A buffer that holds a message holds none with bytes added. -/
theorem decodeMessage_trailing {m : Message} (h : decodeMessage bytes = .ok m) (hrest : rest ≠ []) :
    decodeMessage (bytes ++ rest) = .error (.codec "trailing bytes after message body") := by
  obtain ⟨p, hv, hin, hb⟩ := decodeMessage_eq_ok.1 h
  have hlen : bytes.length ≠ (bytes ++ rest).length := by
    rw [List.length_append]
    have := List.length_pos_iff.2 hrest
    omega
  rw [decodeMessage, ok_bind (readVersion_append hv), readU32_append hin]
  show (decodeTuple (bytes ++ rest) p >>= _) = _
  rw [decodeTuple_append hb]
  exact if_pos hlen

/-- A buffer that holds a schema holds none with bytes added. -/
theorem decodeSchema_trailing {s : Schema} (h : decodeSchema bytes = .ok s) (hrest : rest ≠ []) :
    decodeSchema (bytes ++ rest) = .error (.codec "trailing bytes after schema") := by
  obtain ⟨n, p, hv, hn, hc⟩ := decodeSchema_eq_ok.1 h
  have hlen : bytes.length ≠ (bytes ++ rest).length := by
    rw [List.length_append]
    have := List.length_pos_iff.2 hrest
    omega
  rw [decodeSchema, readVersion_append hv]
  show (readU32 (bytes ++ rest) 1 >>= _) = _
  rw [readU32_append hn]
  show (decodeColumns (bytes ++ rest) n p >>= _) = _
  rw [decodeColumns_append _ _ hc]
  exact if_pos hlen

end Reads

/-! ## Values nested too deep -/

mutual

/-- How many levels of tuples a value holds. -/
def depth : Value → Nat
  | .tuple cells => depthAll cells + 1
  | _ => 0

def depthAll : List Value → Nat
  | [] => 0
  | c :: cs => max (depth c) (depthAll cs)

end

mutual

/-- Every length is within its count. -/
def sized : Value → Bool
  | .text s => s.toByteArray.data.toList.length < 2 ^ 32
  | .bytes b => b.length < 2 ^ 32
  | .code b => b.length < 2 ^ 32
  | .tuple cells => decide (cells.length < 2 ^ 32) && sizedAll cells
  | _ => true

def sizedAll : List Value → Bool
  | [] => true
  | c :: cs => sized c && sizedAll cs

end

theorem sizedAll_iff {cells : List Value} : sizedAll cells = true ↔ ∀ c ∈ cells, sized c = true := by
  induction cells with
  | nil => simp [sizedAll]
  | cons c cs ih => simp [sizedAll, ih]

theorem depthAll_le_iff {cells : List Value} {n : Nat} :
    depthAll cells ≤ n ↔ ∀ c ∈ cells, depth c ≤ n := by
  induction cells with
  | nil => simp [depthAll]
  | cons c cs ih => simp [depthAll, ih]

/-- A value fits when its lengths do and it nests no deeper than allowed. -/
theorem fits_iff (v : Value) : ∀ levels, fits levels v = true ↔ sized v = true ∧ depth v ≤ levels := by
  induction v using Value.cellsInduction with
  | atom v hv =>
    intro levels
    cases v with
    | tuple cells => exact absurd rfl (hv cells)
    | _ => cases levels <;> simp [fits, sized, depth]
  | tuple cells ih =>
    intro levels
    cases levels with
    | zero => simp [fits, depth]
    | succ levels =>
      rw [fits, sized, depth, Bool.and_eq_true, Bool.and_eq_true, fitsAll_iff, sizedAll_iff,
        Nat.add_le_add_iff_right, depthAll_le_iff, and_assoc]
      refine and_congr_right fun _ => ⟨fun h => ⟨fun c hc => ?_, fun c hc => ?_⟩, fun h c hc => ?_⟩
      · exact ((ih c hc levels).1 (h c hc)).1
      · exact ((ih c hc levels).1 (h c hc)).2
      · exact (ih c hc levels).2 ⟨h.1 c hc, h.2 c hc⟩

/-- The refusal of a value that nests too deep. -/
def tooDeep : Error := .codec ("value nests deeper than " ++ toString maxDepth ++ " tuples")

/-- The first value that is refused refuses the values it is read with. -/
theorem decodeTimes_refused {bytes : List UInt8} {decode : Nat → Result (Value × Nat)} {levels : Nat} :
    ∀ (cells : List Value) (pos : Nat),
    (∀ c ∈ cells, ∀ pos, Holds bytes pos (encodeValue c) →
      decode pos = if depth c ≤ levels then .ok (c, pos + (encodeValue c).length) else .error tooDeep) →
    Holds bytes pos (encodeCells cells) → levels < depthAll cells →
    decodeTimes decode cells.length pos = .error tooDeep := by
  intro cells
  induction cells with
  | nil => exact fun _ _ _ h => absurd h (Nat.not_lt_zero _)
  | cons c cs ih =>
    intro pos hdecode h hdeep
    rw [encodeCells] at h
    have hc := hdecode c (by simp) pos h.left
    rw [List.length_cons, decodeTimes, hc]
    split_ifs with hle
    · have hcs : levels < depthAll cs := by
        rw [depthAll] at hdeep
        omega
      have hrest := ih _ (fun c' hc' => hdecode c' (List.mem_cons_of_mem _ hc')) h.right hcs
      show (decodeTimes decode cs.length _ >>= _) = _
      rw [hrest]
      rfl
    · rfl

/-- **A value nested past the levels left is refused, not misread.** -/
theorem decodeValueAt_deep {bytes : List UInt8} (v : Value) : ∀ (levels pos : Nat),
    sized v = true → Holds bytes pos (encodeValue v) → levels < depth v →
    decodeValueAt bytes levels pos = .error tooDeep := by
  induction v using Value.cellsInduction with
  | atom v hv =>
    intro levels pos _ _ hdeep
    cases v with
    | tuple cells => exact absurd rfl (hv cells)
    | _ => exact absurd hdeep (Nat.not_lt_zero _)
  | tuple cells ih =>
    intro levels pos hsized h hdeep
    rw [encodeValue] at h
    rw [sized, Bool.and_eq_true, decide_eq_true_eq] at hsized
    obtain ⟨hlen, hall⟩ := hsized
    have htag := h.get
    cases levels with
    | zero =>
      unfold decodeValueAt
      rw [htag]
      rfl
    | succ levels =>
      rw [depth, Nat.add_lt_add_iff_right] at hdeep
      have hright := h.tail.right
      rw [length_toBE] at hright
      -- a cell is read if it fits in the levels left, and refused otherwise
      have hcells : decodeTimes (decodeValueAt bytes levels) cells.length _ = _ :=
        decodeTimes_refused cells _ (fun c hc pos hpos => by
          have hc' := sizedAll_iff.1 hall c hc
          split_ifs with hle
          · exact decodeValueAt_encode c levels pos ((fits_iff c levels).2 ⟨hc', hle⟩) hpos
          · exact ih c hc levels pos hc' hpos (not_le.1 hle)) hright hdeep
      have hcount : decodeCells bytes (decodeValueAt bytes levels) (pos + 1) = .error tooDeep := by
        rw [decodeCells, readU32_of_holds hlen h.tail.left]
        exact hcells
      unfold decodeValueAt
      rw [htag]
      simp [tagEnt, tagInt, tagFloat, tagText, tagBool, tagTuple, hcount, bind, Except.bind]

/-- A message's lengths, its inbox and its body's nesting are within the format. -/
def MessageFits (m : Message) : Prop :=
  m.inbox < 2 ^ 32 ∧ m.body.arity < 2 ^ 32 ∧ sizedAll m.body.cells = true ∧
    depthAll m.body.cells ≤ maxDepth

theorem fitsAll_of {cells : List Value} {levels : Nat} (hs : sizedAll cells = true)
    (hd : depthAll cells ≤ levels) : fitsAll levels cells = true :=
  fitsAll_iff.2 fun c hc =>
    (fits_iff c levels).2 ⟨sizedAll_iff.1 hs c hc, depthAll_le_iff.1 hd c hc⟩

theorem decodeTuple_deep {bytes : List UInt8} {pos : Nat} {t : Tuple} (hlen : t.arity < 2 ^ 32)
    (hs : sizedAll t.cells = true) (hd : maxDepth < depthAll t.cells)
    (h : Holds bytes pos (encodeTuple t)) : decodeTuple bytes pos = .error tooDeep := by
  have hright := h.right
  rw [length_toBE] at hright
  have hcells : decodeTimes (decodeValueAt bytes maxDepth) t.cells.length _ = _ :=
    decodeTimes_refused t.cells _ (fun c hc pos hpos => by
      have hc' := sizedAll_iff.1 hs c hc
      split_ifs with hle
      · exact decodeValueAt_encode c maxDepth pos ((fits_iff c maxDepth).2 ⟨hc', hle⟩) hpos
      · exact decodeValueAt_deep c maxDepth pos hc' hpos (not_le.1 hle)) hright hd
  rw [decodeTuple, decodeCells, readU32_of_holds hlen h.left]
  show (decodeTimes _ t.cells.length _ >>= _) = _
  rw [hcells]
  rfl

/-- **The wire round trip.** What is within the format's limits is read back exactly,
wherever it stands and whatever follows it; a whole buffer takes no byte more; and a
value nested past the limit is refused. -/
theorem wire_round_trip :
    (∀ (v : Value) (before after : List UInt8), sized v = true → depth v ≤ maxDepth →
      decodeValue (before ++ encodeValue v ++ after) before.length
        = .ok (v, before.length + (encodeValue v).length)) ∧
    (∀ (t : Tuple) (before after : List UInt8), t.arity < 2 ^ 32 → sizedAll t.cells = true →
      depthAll t.cells ≤ maxDepth →
      decodeTuple (before ++ encodeTuple t ++ after) before.length
        = .ok (t, before.length + (encodeTuple t).length)) ∧
    (∀ m, MessageFits m → decodeMessage (encodeMessage m) = .ok m) ∧
    (∀ s, schemaFits s = true → decodeSchema (encodeSchema s) = .ok s) ∧
    (∀ bytes m, decodeMessage bytes = .ok m → ∀ rest, rest ≠ [] →
      decodeMessage (bytes ++ rest) = .error (.codec "trailing bytes after message body")) ∧
    (∀ bytes s, decodeSchema bytes = .ok s → ∀ rest, rest ≠ [] →
      decodeSchema (bytes ++ rest) = .error (.codec "trailing bytes after schema")) ∧
    (∀ (v : Value) (before after : List UInt8), sized v = true → maxDepth < depth v →
      decodeValue (before ++ encodeValue v ++ after) before.length = .error tooDeep) ∧
    (∀ (t : Tuple) (before after : List UInt8), t.arity < 2 ^ 32 → sizedAll t.cells = true →
      maxDepth < depthAll t.cells →
      decodeTuple (before ++ encodeTuple t ++ after) before.length = .error tooDeep) ∧
    (∀ m : Message, m.inbox < 2 ^ 32 ∧ m.body.arity < 2 ^ 32 ∧ sizedAll m.body.cells = true →
      maxDepth < depthAll m.body.cells → decodeMessage (encodeMessage m) = .error tooDeep) := by
  have at_pos : ∀ before bs after : List UInt8, Holds (before ++ bs ++ after) before.length bs :=
    fun before bs after => ⟨before, after, by simp, rfl⟩
  refine ⟨fun v before after hs hd => ?_, fun t before after hlen hs hd => ?_, fun m hm => ?_,
    fun s hs => decodeSchema_encode hs, fun bytes m h rest hrest => decodeMessage_trailing h hrest,
    fun bytes s h rest hrest => decodeSchema_trailing h hrest, fun v before after hs hd => ?_,
    fun t before after hlen hs hd => ?_, fun m hm hd => ?_⟩
  · exact decodeValueAt_encode v maxDepth _ ((fits_iff v maxDepth).2 ⟨hs, hd⟩) (at_pos _ _ _)
  · exact decodeTuple_encode hlen (fitsAll_of hs hd) (at_pos _ _ _)
  · obtain ⟨hin, harity, hs, hd⟩ := hm
    refine decodeMessage_encode ?_
    rw [messageFits, fitsAll_of hs hd, decide_eq_true hin, decide_eq_true harity]
    rfl
  · exact decodeValueAt_deep v maxDepth _ hs (at_pos _ _ _) hd
  · exact decodeTuple_deep hlen hs hd (at_pos _ _ _)
  · obtain ⟨hin, harity, hs⟩ := hm
    have hall : Holds (encodeMessage m) 0 (encodeMessage m) := ⟨[], [], by simp, rfl⟩
    have hrest : Holds (encodeMessage m) 1 (toBE 4 m.inbox ++ encodeTuple m.body) := hall.tail
    have hright := hrest.right
    rw [length_toBE] at hright
    have hversion : readVersion (encodeMessage m) = .ok 1 := by
      rw [readVersion, hall.get]
      rfl
    simp only [decodeMessage, hversion, bind, Except.bind, readU32_of_holds hin hrest.left,
      decodeTuple_deep harity hs hd hright]

theorem wire_round_trip_sample :
    decodeValue ([0] ++ encodeValue (.tuple [.bool true, .bytes [9]]) ++ [7]) 1
      = .ok (.tuple [.bool true, .bytes [9]], 14) :=
  wire_round_trip.1 (.tuple [.bool true, .bytes [9]]) [0] [7] (by simp [sized, sizedAll])
    (by simp [depth, depthAll, maxDepth])

end Wire

end Grmpl

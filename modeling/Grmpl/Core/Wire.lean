import Grmpl.Core.Patch
import Grmpl.Lib.Bytes

/-!
# The wire form of values and messages

A value is a tag and its content, numbers big-endian, what has a length behind a
32-bit count; a tuple inside a value costs its reader one of the levels it has left.
A message is a version byte, its inbox and its body.

* `encodeValue`, `encodeTuple`, `encodeMessage` and their decoders.
* `Value.Fits`, `Message.Fits`: lengths within their counts, and how deep tuples nest.
* `decodeValueAt_encode`, `decodeMessage_encode`: what was written is read back.
-/

open Bytes

namespace Grmpl

namespace Wire

def formatVersion : UInt8 := 11

/-- How deep tuple values may nest. -/
def maxDepth : Nat := 64

def tagEnt : UInt8 := 1
def tagInt : UInt8 := 2
def tagText : UInt8 := 3
def tagBool : UInt8 := 4
def tagTuple : UInt8 := 5
def tagBytes : UInt8 := 6
def tagCode : UInt8 := 7
def tagFloat : UInt8 := 8

/-! ## Writing -/

/-- A string of bytes behind its length. -/
def counted (bs : List UInt8) : List UInt8 := toBE 4 bs.length ++ bs

mutual

def encodeValue : Value → List UInt8
  | .ent e => tagEnt :: toBE 8 e.id.toNat
  | .int i => tagInt :: toBE 8 i.toUInt64.toNat
  | .float x => tagFloat :: toBE 8 x.bits.toNat
  | .text s => tagText :: counted s.toByteArray.data.toList
  | .bool b => [tagBool, if b then 1 else 0]
  | .tuple cells => tagTuple :: (toBE 4 cells.length ++ encodeCells cells)
  | .bytes b => tagBytes :: counted b
  | .code b => tagCode :: counted b

def encodeCells : List Value → List UInt8
  | [] => []
  | c :: cs => encodeValue c ++ encodeCells cs

end

def encodeTuple (t : Tuple) : List UInt8 := toBE 4 t.arity ++ encodeCells t.cells

def encodeMessage (m : Message) : List UInt8 :=
  formatVersion :: (toBE 4 m.inbox ++ encodeTuple m.body)

/-! ## Reading -/

/-- The bytes of a length at a position, and the position after them. -/
def readSlice (bytes : List UInt8) (pos len : Nat) (what : String) : Result (List UInt8 × Nat) :=
  match slice bytes pos len with
  | some bs => .ok (bs, pos + len)
  | none => .error (.codec ("unexpected end (" ++ what ++ ")"))

def readU32 (bytes : List UInt8) (pos : Nat) : Result (Nat × Nat) := do
  let (bs, pos) ← readSlice bytes pos 4 "u32"
  return (ofBE bs, pos)

def readU64 (bytes : List UInt8) (pos : Nat) : Result (UInt64 × Nat) := do
  let (bs, pos) ← readSlice bytes pos 8 "u64"
  return (UInt64.ofNat (ofBE bs), pos)

/-- A string of bytes behind its length. -/
def readCounted (bytes : List UInt8) (pos : Nat) (what : String) : Result (List UInt8 × Nat) := do
  let (len, pos) ← readU32 bytes pos
  readSlice bytes pos len what

end Wire

/-- The canonical float of finite bits: negative zero is zero. -/
def FiniteF64.fromBits (bits : UInt64) : Option FiniteF64 :=
  if h : bits &&& 0x7FF0000000000000 ≠ 0x7FF0000000000000 then
    if hz : bits = 0x8000000000000000 then some ⟨0, by decide, by decide⟩ else some ⟨bits, h, hz⟩
  else none

/-- A float's own bits are canonical. -/
theorem FiniteF64.fromBits_bits (x : FiniteF64) : FiniteF64.fromBits x.bits = some x := by
  rw [FiniteF64.fromBits, dif_pos x.finite, dif_neg x.canonical]

namespace Wire

/-- So many values, one after the other. -/
def decodeTimes (decode : Nat → Result (Value × Nat)) : Nat → Nat → Result (List Value × Nat)
  | 0, pos => .ok ([], pos)
  | n + 1, pos => do
      let (v, pos) ← decode pos
      let (vs, pos) ← decodeTimes decode n pos
      return (v :: vs, pos)

/-- A count, then that many values. -/
def decodeCells (bytes : List UInt8) (decode : Nat → Result (Value × Nat)) (pos : Nat) :
    Result (List Value × Nat) := do
  let (len, pos) ← readU32 bytes pos
  decodeTimes decode len pos

/-- A value where tuples may nest so many levels more. -/
def decodeValueAt (bytes : List UInt8) (levels : Nat) (pos : Nat) : Result (Value × Nat) := do
  match bytes[pos]? with
  | none => .error (.codec "unexpected end (tag)")
  | some tag =>
      let pos := pos + 1
      if tag = tagEnt then
        let (n, pos) ← readU64 bytes pos
        return (.ent ⟨n⟩, pos)
      else if tag = tagInt then
        let (n, pos) ← readU64 bytes pos
        return (.int n.toInt64, pos)
      else if tag = tagFloat then
        let (bits, pos) ← readU64 bytes pos
        match FiniteF64.fromBits bits with
        | some x => return (.float x, pos)
        | none => .error (.codec "non-finite float payload")
      else if tag = tagText then
        let (bs, pos) ← readCounted bytes pos "text"
        match String.fromUTF8? ⟨bs.toArray⟩ with
        | some s => return (.text s, pos)
        | none => .error (.codec "invalid utf-8 sequence")
      else if tag = tagBool then
        match bytes[pos]? with
        | some b => return (.bool (b != 0), pos + 1)
        | none => .error (.codec "unexpected end (bool)")
      else if tag = tagTuple then
        match levels with
        | 0 => .error (.codec ("value nests deeper than " ++ toString maxDepth ++ " tuples"))
        | levels + 1 =>
            let (cells, pos) ← decodeCells bytes (decodeValueAt bytes levels) pos
            return (.tuple cells, pos)
      else if tag = tagBytes then
        let (bs, pos) ← readCounted bytes pos "bytes"
        return (.bytes bs, pos)
      else if tag = tagCode then
        let (bs, pos) ← readCounted bytes pos "code"
        return (.code bs, pos)
      else .error (.codec ("unknown value tag " ++ toString tag))

def decodeValue (bytes : List UInt8) (pos : Nat) : Result (Value × Nat) :=
  decodeValueAt bytes maxDepth pos

def decodeTuple (bytes : List UInt8) (pos : Nat) : Result (Tuple × Nat) := do
  let (cells, pos) ← decodeCells bytes (decodeValueAt bytes maxDepth) pos
  return (⟨cells⟩, pos)

/-- The position after the version byte. -/
def readVersion (bytes : List UInt8) : Result Nat :=
  match bytes[0]? with
  | some v =>
      if v = formatVersion then .ok 1
      else .error (.codec ("unsupported format version " ++ toString v ++ " (expected " ++
        toString formatVersion ++ ")"))
  | none => .error (.codec "empty buffer (no format version)")

def decodeMessage (bytes : List UInt8) : Result Message := do
  let pos ← readVersion bytes
  match readU32 bytes pos with
  | .error _ => .error (.codec "message shorter than inbox header")
  | .ok (inbox, pos) =>
      let (body, pos) ← decodeTuple bytes pos
      if pos ≠ bytes.length then .error (.codec "trailing bytes after message body")
      else return ⟨inbox, body⟩

/-! ## What fits -/

mutual

/-- Lengths are within their counts, and tuples nest no more levels than these. -/
def fits : Nat → Value → Bool
  | _, .text s => s.toByteArray.data.toList.length < 2 ^ 32
  | _, .bytes b => b.length < 2 ^ 32
  | _, .code b => b.length < 2 ^ 32
  | 0, .tuple _ => false
  | levels + 1, .tuple cells => decide (cells.length < 2 ^ 32) && fitsAll levels cells
  | _, _ => true

def fitsAll : Nat → List Value → Bool
  | _, [] => true
  | levels, c :: cs => fits levels c && fitsAll levels cs

end

/-- A message that can be read back. -/
def messageFits (m : Message) : Bool :=
  decide (m.inbox < 2 ^ 32) && decide (m.body.arity < 2 ^ 32) && fitsAll maxDepth m.body.cells

/-! ## What was written is read back -/

section Reads

variable {bytes bs : List UInt8} {pos levels : Nat}

theorem readSlice_of_holds (h : Holds bytes pos bs) (what : String) :
    readSlice bytes pos bs.length what = .ok (bs, pos + bs.length) := by
  rw [readSlice, h.slice]

theorem readU32_of_holds {n : Nat} (hn : n < 2 ^ 32) (h : Holds bytes pos (toBE 4 n)) :
    readU32 bytes pos = .ok (n, pos + 4) := by
  have hread := readSlice_of_holds h "u32"
  rw [length_toBE] at hread
  rw [readU32, hread]
  show Except.ok (ofBE (toBE 4 n), pos + 4) = _
  rw [ofBE_toBE 4 n (by omega)]

theorem readU64_of_holds {n : UInt64} (h : Holds bytes pos (toBE 8 n.toNat)) :
    readU64 bytes pos = .ok (n, pos + 8) := by
  have hread := readSlice_of_holds h "u64"
  rw [length_toBE] at hread
  rw [readU64, hread]
  show Except.ok (UInt64.ofNat (ofBE (toBE 8 n.toNat)), pos + 8) = _
  rw [ofBE_toBE 8 _ (by have := n.toNat_lt; omega), UInt64.ofNat_toNat]

theorem readCounted_of_holds (hlen : bs.length < 2 ^ 32) (h : Holds bytes pos (counted bs))
    (what : String) : readCounted bytes pos what = .ok (bs, pos + (counted bs).length) := by
  have hread := readU32_of_holds hlen h.left
  have hslice := readSlice_of_holds h.right what
  rw [length_toBE] at hslice
  rw [readCounted, hread]
  show readSlice bytes (pos + 4) bs.length what = _
  rw [hslice, counted, List.length_append, length_toBE, Nat.add_assoc]

theorem fromUTF8?_toByteArray (s : String) :
    String.fromUTF8? ⟨s.toByteArray.data.toList.toArray⟩ = some s := by
  have hbytes : (⟨s.toByteArray.data.toList.toArray⟩ : ByteArray) = s.toByteArray := by simp
  rw [hbytes, String.fromUTF8?, dif_pos s.isValidUTF8]
  rfl

theorem fitsAll_iff {cells : List Value} :
    fitsAll levels cells = true ↔ ∀ c ∈ cells, fits levels c = true := by
  induction cells with
  | nil => simp [fitsAll]
  | cons c cs ih => simp [fitsAll, ih]

/-- Values that are each read back are read back one after the other. -/
theorem decodeTimes_encode {decode : Nat → Result (Value × Nat)} : ∀ (cells : List Value) (pos : Nat),
    (∀ c ∈ cells, ∀ pos, Holds bytes pos (encodeValue c) →
      decode pos = .ok (c, pos + (encodeValue c).length)) →
    Holds bytes pos (encodeCells cells) →
    decodeTimes decode cells.length pos = .ok (cells, pos + (encodeCells cells).length) := by
  intro cells
  induction cells with
  | nil => exact fun pos _ _ => rfl
  | cons c cs ih =>
    intro pos hdecode h
    rw [encodeCells] at h
    have hc := hdecode c (by simp) pos h.left
    have hcs := ih _ (fun c' hc' => hdecode c' (List.mem_cons_of_mem _ hc')) h.right
    rw [List.length_cons, decodeTimes, hc]
    show (decodeTimes decode cs.length _ >>= _) = _
    rw [hcs, encodeCells, List.length_append, ← Nat.add_assoc]
    rfl

theorem decodeCells_encode {decode : Nat → Result (Value × Nat)} {cells : List Value}
    (hlen : cells.length < 2 ^ 32)
    (hdecode : ∀ c ∈ cells, ∀ pos, Holds bytes pos (encodeValue c) →
      decode pos = .ok (c, pos + (encodeValue c).length))
    (h : Holds bytes pos (toBE 4 cells.length ++ encodeCells cells)) :
    decodeCells bytes decode pos = .ok (cells, pos + (4 + (encodeCells cells).length)) := by
  have hright := h.right
  rw [length_toBE] at hright
  rw [decodeCells, readU32_of_holds hlen h.left]
  show decodeTimes decode cells.length (pos + 4) = _
  rw [decodeTimes_encode cells _ hdecode hright, Nat.add_assoc]

/-- **A value that fits is read back**, wherever it stands and whatever follows it. -/
theorem decodeValueAt_encode (v : Value) : ∀ (levels pos : Nat), fits levels v = true →
    Holds bytes pos (encodeValue v) →
    decodeValueAt bytes levels pos = .ok (v, pos + (encodeValue v).length) := by
  induction v using Value.cellsInduction with
  | atom v hv =>
    intro levels pos hfits h
    cases v with
    | ent e =>
      rw [encodeValue] at h ⊢
      unfold decodeValueAt
      rw [h.get]
      simp [tagEnt, readU64_of_holds h.tail, length_toBE, bind, Except.bind, pure, Except.pure]
    | int i =>
      rw [encodeValue] at h ⊢
      unfold decodeValueAt
      rw [h.get]
      simp [tagEnt, tagInt, readU64_of_holds h.tail, length_toBE, bind, Except.bind, pure, Except.pure]
    | float x =>
      rw [encodeValue] at h ⊢
      unfold decodeValueAt
      rw [h.get]
      simp [tagEnt, tagInt, tagFloat, readU64_of_holds h.tail, length_toBE, bind, Except.bind, pure,
        Except.pure, FiniteF64.fromBits_bits]
    | text s =>
      have hlen : s.toByteArray.data.toList.length < 2 ^ 32 := by
        cases levels <;> exact of_decide_eq_true hfits
      rw [encodeValue] at h ⊢
      unfold decodeValueAt
      rw [h.get]
      simp only [bind, Except.bind, tagEnt, tagInt, tagFloat, tagText,
        readCounted_of_holds hlen h.tail, fromUTF8?_toByteArray]
      simp [pure, Except.pure, Nat.add_assoc, Nat.add_comm 1]
    | bool b =>
      rw [encodeValue] at h ⊢
      unfold decodeValueAt
      have hflag := h.tail.get
      rw [h.get]
      cases b <;> simp [hflag, tagEnt, tagInt, tagFloat, tagText, tagBool, pure, Except.pure]
    | tuple cells => exact absurd rfl (hv cells)
    | bytes b =>
      have hlen : b.length < 2 ^ 32 := by
        cases levels <;> exact of_decide_eq_true hfits
      rw [encodeValue] at h ⊢
      unfold decodeValueAt
      rw [h.get]
      simp [tagEnt, tagInt, tagFloat, tagText, tagBool, tagTuple, tagBytes, bind, Except.bind, pure,
        Except.pure, readCounted_of_holds hlen h.tail, Nat.add_assoc, Nat.add_comm 1]
    | code b =>
      have hlen : b.length < 2 ^ 32 := by
        cases levels <;> exact of_decide_eq_true hfits
      rw [encodeValue] at h ⊢
      unfold decodeValueAt
      rw [h.get]
      simp [tagEnt, tagInt, tagFloat, tagText, tagBool, tagTuple, tagBytes, tagCode, bind,
        Except.bind, pure, Except.pure, readCounted_of_holds hlen h.tail, Nat.add_assoc,
        Nat.add_comm 1]
  | tuple cells ih =>
    intro levels pos hfits h
    cases levels with
    | zero => exact absurd hfits (by simp [fits])
    | succ levels =>
      simp only [fits, Bool.and_eq_true, decide_eq_true_eq] at hfits
      obtain ⟨hlen, hall⟩ := hfits
      rw [encodeValue] at h ⊢
      -- each cell has one level less to nest in
      have hcells : decodeCells bytes (decodeValueAt bytes levels) _ = _ := decodeCells_encode hlen
        (fun c hc pos hpos => ih c hc levels pos (fitsAll_iff.1 hall c hc) hpos) h.tail
      unfold decodeValueAt
      rw [h.get]
      simp [tagEnt, tagInt, tagFloat, tagText, tagBool, tagTuple, hcells, bind, Except.bind, pure,
        Except.pure, length_toBE, Nat.add_assoc, Nat.add_comm 1]

theorem decodeTuple_encode {t : Tuple} (hlen : t.arity < 2 ^ 32)
    (hfits : fitsAll maxDepth t.cells = true) (h : Holds bytes pos (encodeTuple t)) :
    decodeTuple bytes pos = .ok (t, pos + (encodeTuple t).length) := by
  have hcells : decodeCells bytes (decodeValueAt bytes maxDepth) _ = _ := decodeCells_encode hlen
    (fun c hc pos hpos => decodeValueAt_encode c maxDepth pos (fitsAll_iff.1 hfits c hc) hpos) h
  rw [decodeTuple, hcells, encodeTuple, List.length_append, length_toBE]
  rfl

/-- **A message that fits is read back.** -/
theorem decodeMessage_encode {m : Message} (hfits : messageFits m = true) :
    decodeMessage (encodeMessage m) = .ok m := by
  simp only [messageFits, Bool.and_eq_true, decide_eq_true_eq] at hfits
  obtain ⟨⟨hinbox, harity⟩, hbody⟩ := hfits
  have hall : Holds (encodeMessage m) 0 (encodeMessage m) := ⟨[], [], by simp, rfl⟩
  have hrest : Holds (encodeMessage m) 1 (toBE 4 m.inbox ++ encodeTuple m.body) := hall.tail
  have hlen : (encodeMessage m).length = 1 + (4 + (encodeTuple m.body).length) := by
    simp [encodeMessage, length_toBE, Nat.add_comm 1]
  have hright := hrest.right
  rw [length_toBE] at hright
  have hversion : readVersion (encodeMessage m) = .ok 1 := by
    rw [readVersion, hall.get]
    rfl
  simp only [decodeMessage, hversion, bind, Except.bind, readU32_of_holds hinbox hrest.left,
    decodeTuple_encode harity hbody hright]
  rw [if_neg (by rw [hlen, Nat.add_assoc]; exact fun h => h rfl)]
  rfl

end Reads

end Wire

end Grmpl

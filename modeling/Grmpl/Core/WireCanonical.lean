import Grmpl.Core.SchemaWire

/-!
# Which bytes spell a value

The decoder takes any byte but zero for true, and the bits of negative zero for zero,
so those values have several spellings; everything else has one. What the decoder makes
of its input is decided by the flag bytes and the float payloads it meets, which a lexer
finds by tags and lengths alone.

* `Mark`, `marksAt`: the flag bytes and the float payloads of a value's bytes.
* `Mark.Exact`: a flag that is 0 or 1, a payload that is not negative zero's.
* `decodeValueAt_marks`: the bytes read are the value's encoding exactly when every mark
  is exact.
* `decode_canonical`: the same for tuples, messages and schemas.
-/

open Bytes

namespace Grmpl

namespace Wire

/-- A byte read as a flag, or bits read as a float. -/
inductive Mark where
  | flag (b : UInt8)
  | float (bits : UInt64)
  deriving DecidableEq

/-- The bits of negative zero. -/
def negativeZero : UInt64 := 0x8000000000000000

/-- A flag byte that the encoder writes. -/
def Mark.PlainFlag : Mark → Prop
  | .flag b => b = 0 ∨ b = 1
  | .float _ => True

/-- A payload other than negative zero's. -/
def Mark.PlainFloat : Mark → Prop
  | .flag _ => True
  | .float bits => bits ≠ negativeZero

/-! ## The lexer -/

def marksTimes (marks : Nat → Option (List Mark × Nat)) : Nat → Nat → Option (List Mark × Nat)
  | 0, pos => some ([], pos)
  | n + 1, pos => do
      let (ms, pos) ← marks pos
      let (ms', pos) ← marksTimes marks n pos
      return (ms ++ ms', pos)

/-- A count, then the marks of that many values. -/
def marksCells (bytes : List UInt8) (marks : Nat → Option (List Mark × Nat)) (pos : Nat) :
    Option (List Mark × Nat) := do
  let count ← slice bytes pos 4
  marksTimes marks (ofBE count) (pos + 4)

/-- The marks of the value at a position, and the position after it. -/
def marksAt (bytes : List UInt8) (levels : Nat) (pos : Nat) : Option (List Mark × Nat) :=
  match bytes[pos]? with
  | none => none
  | some tag =>
      if tag = tagFloat then
        (slice bytes (pos + 1) 8).map fun bs => ([.float (UInt64.ofNat (ofBE bs))], pos + 9)
      else if tag = tagBool then (bytes[pos + 1]?).map fun b => ([.flag b], pos + 2)
      else if tag = tagTuple then
        match levels with
        | 0 => none
        | levels + 1 => marksCells bytes (marksAt bytes levels) (pos + 1)
      else if tag = tagText ∨ tag = tagBytes ∨ tag = tagCode then
        (slice bytes (pos + 1) 4).map fun bs => ([], pos + 5 + ofBE bs)
      else some ([], pos + 9)

/-- Every mark is one the encoder could have written. -/
def Plain (ms : List Mark) : Prop := ∀ m ∈ ms, m.PlainFlag ∧ m.PlainFloat

theorem plain_append {ms ms' : List Mark} : Plain (ms ++ ms') ↔ Plain ms ∧ Plain ms' := by
  simp only [Plain, List.mem_append, or_imp, forall_and]
  exact and_and_and_comm

/-! ## What reading a number or a string of bytes consumes -/

section Reads

variable {bytes : List UInt8} {levels pos next : Nat}

theorem fromUTF8?_eq_some {bs : List UInt8} {s : String} (h : String.fromUTF8? ⟨bs.toArray⟩ = some s) :
    s.toByteArray.data.toList = bs := by
  unfold String.fromUTF8? at h
  split_ifs at h
  obtain rfl := Option.some.inj h
  simp [String.fromUTF8]

theorem readSlice_eq_ok {len : Nat} {what : String} {bs : List UInt8}
    (h : readSlice bytes pos len what = .ok (bs, next)) :
    slice bytes pos len = some bs ∧ next = pos + len := by
  unfold readSlice at h
  cases hs : slice bytes pos len with
  | none =>
    rw [hs] at h
    cases h
  | some bs' =>
    rw [hs] at h
    cases h
    exact ⟨rfl, rfl⟩

theorem readU32_eq_ok {n : Nat} (h : readU32 bytes pos = .ok (n, next)) :
    ∃ bs, slice bytes pos 4 = some bs ∧ Holds bytes pos (toBE 4 n) ∧ n = ofBE bs ∧ n < 2 ^ 32 ∧
      next = pos + 4 := by
  obtain ⟨⟨bs, p⟩, hr, h⟩ := bind_ok h
  obtain ⟨hs, hnext⟩ := readSlice_eq_ok hr
  obtain ⟨hlen, hholds⟩ := slice_eq_some hs
  cases h
  have hback := toBE_ofBE bs
  have hlt := ofBE_lt bs
  rw [hlen] at hback hlt
  exact ⟨bs, hs, hback.symm ▸ hholds, rfl, by omega, hnext⟩

theorem readU64_eq_ok {n : UInt64} (h : readU64 bytes pos = .ok (n, next)) :
    ∃ bs, slice bytes pos 8 = some bs ∧ Holds bytes pos (toBE 8 n.toNat) ∧
      n = UInt64.ofNat (ofBE bs) ∧ next = pos + 8 := by
  obtain ⟨⟨bs, p⟩, hr, h⟩ := bind_ok h
  obtain ⟨hs, hnext⟩ := readSlice_eq_ok hr
  obtain ⟨hlen, hholds⟩ := slice_eq_some hs
  cases h
  have hback := toBE_ofBE bs
  have hlt := ofBE_lt bs
  rw [hlen] at hback hlt
  have hn : (UInt64.ofNat (ofBE bs)).toNat = ofBE bs := UInt64.toNat_ofNat_of_lt' (by
    show ofBE bs < 2 ^ 64
    omega)
  exact ⟨bs, hs, by rw [hn, hback]; exact hholds, rfl, hnext⟩

theorem readCounted_eq_ok {what : String} {bs : List UInt8}
    (h : readCounted bytes pos what = .ok (bs, next)) :
    ∃ count, slice bytes pos 4 = some count ∧ Holds bytes pos (counted bs) ∧
      next = pos + (counted bs).length ∧ ofBE count = bs.length := by
  obtain ⟨⟨n, p⟩, hr, h⟩ := bind_ok h
  obtain ⟨count, hs, hcount, hn, -, hpos⟩ := readU32_eq_ok hr
  obtain ⟨hslice, hnext⟩ := readSlice_eq_ok h
  obtain ⟨hlen, hholds⟩ := slice_eq_some hslice
  refine ⟨count, hs, ?_, ?_, by rw [hlen, hn]⟩
  · rw [counted, hlen]
    exact hcount.append (by rw [length_toBE, ← hpos]; exact hholds)
  · rw [hnext, hpos, counted, List.length_append, length_toBE, hlen, Nat.add_assoc]

/-- What a decoder read, against the marks a lexer found: the bytes consumed, and when
they are the encoding. -/
def Spelled (bytes : List UInt8) (pos next : Nat) (code : List UInt8)
    (marks : Option (List Mark × Nat)) : Prop :=
  ∃ bs ms, Holds bytes pos bs ∧ next = pos + bs.length ∧ marks = some (ms, next) ∧
    bs.length = code.length ∧ (code = bs ↔ Plain ms)

theorem spelled_append {mid : Nat} {code code' : List UInt8} {ms ms' : List Mark}
    (h : Spelled bytes pos mid code (some (ms, mid)))
    (h' : Spelled bytes mid next code' (some (ms', next))) :
    Spelled bytes pos next (code ++ code') (some (ms ++ ms', next)) := by
  obtain ⟨bs, ms₀, hb, hmid, hms, hlen, hiff⟩ := h
  obtain ⟨bs', ms₀', hb', hnext, hms', hlen', hiff'⟩ := h'
  obtain ⟨rfl, -⟩ := Prod.mk.inj (Option.some.inj hms)
  obtain ⟨rfl, -⟩ := Prod.mk.inj (Option.some.inj hms')
  refine ⟨bs ++ bs', ms ++ ms', hb.append (hmid ▸ hb'), ?_, rfl, ?_, ?_⟩
  · rw [hnext, hmid, List.length_append, Nat.add_assoc]
  · rw [List.length_append, List.length_append, hlen, hlen']
  · rw [plain_append, ← hiff, ← hiff']
    exact ⟨fun heq => List.append_inj heq hlen.symm, fun ⟨ha, hb⟩ => by rw [ha, hb]⟩

/-- Bytes without a mark are their own encoding. -/
theorem spelled_exact {code : List UInt8} {marks : Option (List Mark × Nat)}
    (h : Holds bytes pos code) (hnext : next = pos + code.length) (hm : marks = some ([], next)) :
    Spelled bytes pos next code marks :=
  ⟨code, [], h, hnext, hm, rfl, iff_of_true rfl fun _ hm => absurd hm (by simp)⟩

theorem Spelled.le {code : List UInt8} {marks : Option (List Mark × Nat)}
    (h : Spelled bytes pos next code marks) : next ≤ bytes.length := by
  obtain ⟨bs, ms, hholds, rfl, -⟩ := h
  exact hholds.le

theorem spelled_times {decode : Nat → Result (Value × Nat)} {marks : Nat → Option (List Mark × Nat)}
    (hd : ∀ pos v next, decode pos = .ok (v, next) →
      Spelled bytes pos next (encodeValue v) (marks pos)) : ∀ (n pos : Nat) (vs : List Value) (next : Nat),
    pos ≤ bytes.length → decodeTimes decode n pos = .ok (vs, next) →
      vs.length = n ∧ Spelled bytes pos next (encodeCells vs) (marksTimes marks n pos) := by
  intro n
  induction n with
  | zero =>
    intro pos vs next hle h
    cases h
    exact ⟨rfl, spelled_exact (holds_nil hle) rfl rfl⟩
  | succ n ih =>
    intro pos vs next hle h
    obtain ⟨⟨v, p⟩, hv, h⟩ := bind_ok h
    obtain ⟨⟨vs', _⟩, hvs, h⟩ := bind_ok h
    cases h
    have hhead := hd _ _ _ hv
    obtain ⟨hlen, hrest⟩ := ih _ _ _ hhead.le hvs
    obtain ⟨_, ms, _, _, hms, _⟩ := id hhead
    obtain ⟨_, ms', _, _, hms', _⟩ := id hrest
    refine ⟨by rw [List.length_cons, hlen], ?_⟩
    have hmarks : marksTimes marks (n + 1) pos = some (ms ++ ms', next) := by
      rw [marksTimes, hms]
      show (marksTimes marks n p >>= _) = _
      rw [hms']
      rfl
    rw [hmarks, encodeCells]
    rw [hms] at hhead
    rw [hms'] at hrest
    exact spelled_append hhead hrest

theorem spelled_cells {decode : Nat → Result (Value × Nat)} {marks : Nat → Option (List Mark × Nat)}
    (hd : ∀ pos v next, decode pos = .ok (v, next) →
      Spelled bytes pos next (encodeValue v) (marks pos)) {vs : List Value}
    (h : decodeCells bytes decode pos = .ok (vs, next)) :
    Spelled bytes pos next (toBE 4 vs.length ++ encodeCells vs) (marksCells bytes marks pos) := by
  obtain ⟨⟨n, p⟩, hr, h⟩ := bind_ok h
  obtain ⟨count, hs, hcount, hn, -, hpos⟩ := readU32_eq_ok hr
  have hle := hcount.le
  rw [length_toBE, ← hpos] at hle
  obtain ⟨hlen, hrest⟩ := spelled_times hd _ _ _ _ hle h
  obtain ⟨_, ms, _, _, hms, _⟩ := id hrest
  have hmarks : marksCells bytes marks pos = some (ms, next) := by
    rw [marksCells, hs]
    show marksTimes marks (ofBE count) (pos + 4) = _
    rw [← hn, ← hpos, hms]
  rw [hmarks, hlen]
  rw [hms] at hrest
  exact spelled_append (spelled_exact hcount (by rw [length_toBE, hpos]) rfl) hrest

theorem holds_cons {b : UInt8} {bs : List UInt8} (hb : bytes[pos]? = some b)
    (h : Holds bytes (pos + 1) bs) : Holds bytes pos (b :: bs) := (holds_singleton hb).append h

theorem toNat_lt_eight (n : UInt64) : n.toNat < 256 ^ 8 := by
  have := n.toNat_lt
  omega

/-- A float's bits are read back as the float, and are its encoding unless they are
negative zero's. -/
theorem fromBits_eq_some {bits : UInt64} {x : FiniteF64} (h : FiniteF64.fromBits bits = some x) :
    x.bits = bits ↔ bits ≠ negativeZero := by
  unfold FiniteF64.fromBits at h
  split_ifs at h with hfin hz
  · obtain rfl := Option.some.inj h
    subst hz
    decide
  · obtain rfl := Option.some.inj h
    exact iff_of_true rfl hz

theorem toBE_inj {n m : UInt64} (h : toBE 8 n.toNat = toBE 8 m.toNat) : n = m := by
  have := congrArg ofBE h
  rw [ofBE_toBE 8 _ (toNat_lt_eight n), ofBE_toBE 8 _ (toNat_lt_eight m)] at this
  exact UInt64.toNat_inj.1 this

/-- A value read, when what is inside its tuples is known. -/
theorem Reading.spelled {v : Value} (h : Reading bytes levels pos v next)
    (hd : ∀ l, levels = l + 1 → ∀ pos v next, decodeValueAt bytes l pos = .ok (v, next) →
      Spelled bytes pos next (encodeValue v) (marksAt bytes l pos)) :
    Spelled bytes pos next (encodeValue v) (marksAt bytes levels pos) := by
  cases h with
  | ent htag hn =>
    obtain ⟨bs, -, hholds, -, hnext⟩ := readU64_eq_ok hn
    refine spelled_exact (holds_cons htag hholds) ?_ ?_
    · rw [hnext, encodeValue, List.length_cons, length_toBE]
    · unfold marksAt
      rw [htag, hnext]
      rfl
  | int htag hn =>
    obtain ⟨bs, -, hholds, -, hnext⟩ := readU64_eq_ok hn
    refine spelled_exact (holds_cons htag (by simpa using hholds)) ?_ ?_
    · rw [hnext, encodeValue, List.length_cons, length_toBE]
    · unfold marksAt
      rw [htag, hnext]
      rfl
  | @float _ _ _ n x htag hn hx =>
    obtain ⟨bs, hs, hholds, hbits, hnext⟩ := readU64_eq_ok hn
    refine ⟨tagFloat :: toBE 8 n.toNat, [.float n], holds_cons htag hholds, ?_, ?_, ?_, ?_⟩
    · rw [hnext, List.length_cons, length_toBE]
    · unfold marksAt
      rw [htag]
      simp [hs, hnext, hbits]
    · rw [encodeValue, List.length_cons, List.length_cons, length_toBE, length_toBE]
    · rw [encodeValue]
      have hplain : Plain [.float n] ↔ n ≠ negativeZero := by
        simp [Plain, Mark.PlainFlag, Mark.PlainFloat]
      rw [hplain, ← fromBits_eq_some hx]
      exact ⟨fun h => toBE_inj (List.cons.inj h).2, fun h => by rw [h]⟩
  | @text _ _ _ bs s htag hbs hs =>
    obtain ⟨count, hcount, hholds, hnext, hlen⟩ := readCounted_eq_ok hbs
    have hspell : s.toByteArray.data.toList = bs := fromUTF8?_eq_some hs
    refine spelled_exact ?_ ?_ ?_
    · rw [encodeValue, hspell]
      exact holds_cons htag hholds
    · rw [encodeValue, hspell, hnext, List.length_cons, Nat.add_assoc, Nat.add_comm 1]
    · unfold marksAt
      rw [htag]
      simp [tagText, tagFloat, tagBool, tagTuple, hcount, hnext, hlen, counted]
      omega
  | @bool _ _ b htag hb =>
    refine ⟨[tagBool, b], [.flag b], holds_cons htag (holds_singleton hb), rfl, ?_, rfl, ?_⟩
    · unfold marksAt
      rw [htag]
      simp [tagBool, tagFloat, hb]
    · have hplain : Plain [.flag b] ↔ b = 0 ∨ b = 1 := by
        simp [Plain, Mark.PlainFlag, Mark.PlainFloat]
      rw [hplain, encodeValue]
      by_cases h0 : b = 0
      · subst h0
        simp
      · have hflag : (b != 0) = true := by simpa using h0
        rw [hflag]
        exact ⟨fun h => .inr (List.cons.inj (List.cons.inj h).2).1.symm,
          fun h => by rw [h.resolve_left h0]; rfl⟩
  | @tuple levels _ _ cells htag hcells =>
    have hrest := spelled_cells (hd levels rfl) hcells
    obtain ⟨_, ms, _, _, hms, _⟩ := id hrest
    have hmarks : marksAt bytes (levels + 1) pos = some ([] ++ ms, next) := by
      unfold marksAt
      rw [htag]
      simpa [tagTuple, tagFloat, tagBool] using hms
    rw [hmarks, encodeValue, ← List.singleton_append]
    rw [hms] at hrest
    exact spelled_append (spelled_exact (holds_singleton htag) rfl rfl) hrest
  | @bytes _ _ _ bs htag hbs =>
    obtain ⟨count, hcount, hholds, hnext, hlen⟩ := readCounted_eq_ok hbs
    refine spelled_exact (holds_cons htag hholds) ?_ ?_
    · rw [hnext, encodeValue, List.length_cons, Nat.add_assoc, Nat.add_comm 1]
    · unfold marksAt
      rw [htag]
      simp [tagBytes, tagText, tagFloat, tagBool, tagTuple, hcount, hnext, hlen, counted]
      omega
  | @code _ _ _ bs htag hbs =>
    obtain ⟨count, hcount, hholds, hnext, hlen⟩ := readCounted_eq_ok hbs
    refine spelled_exact (holds_cons htag hholds) ?_ ?_
    · rw [hnext, encodeValue, List.length_cons, Nat.add_assoc, Nat.add_comm 1]
    · unfold marksAt
      rw [htag]
      simp [tagCode, tagBytes, tagText, tagFloat, tagBool, tagTuple, hcount, hnext, hlen, counted]
      omega

/-- **The bytes a value was read from are its encoding exactly when every flag among
them is 0 or 1 and no payload is negative zero's.** -/
theorem decodeValueAt_marks : ∀ (levels pos : Nat) (v : Value) (next : Nat),
    decodeValueAt bytes levels pos = .ok (v, next) →
      Spelled bytes pos next (encodeValue v) (marksAt bytes levels pos) := by
  intro levels
  induction levels with
  | zero =>
    intro pos v next h
    exact (decodeValueAt_eq_ok.1 h).spelled fun l hl => nomatch hl
  | succ levels ih =>
    intro pos v next h
    refine (decodeValueAt_eq_ok.1 h).spelled fun l hl => ?_
    obtain rfl := Nat.succ.inj hl
    exact ih

theorem Spelled.canonical {code : List UInt8} {marks : Option (List Mark × Nat)}
    (h : Spelled bytes pos next code marks) : ∃ ms, marks = some (ms, next) ∧
      ((∀ m ∈ ms, m.PlainFlag) → (code = consumed bytes pos next ↔ ∀ m ∈ ms, m.PlainFloat)) := by
  obtain ⟨bs, ms, hholds, rfl, hms, -, hiff⟩ := h
  refine ⟨ms, hms, fun hflags => ?_⟩
  rw [hholds.consumed, hiff]
  exact ⟨fun h m hm => (h m hm).2, fun h m hm => ⟨hflags m hm, h m hm⟩⟩

theorem spelled_tuple {t : Tuple} (h : decodeTuple bytes pos = .ok (t, next)) :
    Spelled bytes pos next (encodeTuple t) (marksCells bytes (marksAt bytes maxDepth) pos) := by
  obtain ⟨⟨vs, _⟩, hvs, h⟩ := bind_ok h
  cases h
  exact spelled_cells (decodeValueAt_marks maxDepth) hvs

/-! ## Whole buffers -/

theorem version_byte (h : readVersion bytes = .ok 1) : bytes[0]? = some formatVersion := by
  unfold readVersion at h
  cases hb : bytes[0]? with
  | none =>
    rw [hb] at h
    cases h
  | some v =>
    rw [hb] at h
    dsimp only at h
    split_ifs at h with hv
    rw [hv]

/-- A message's bytes, against the marks of its body. -/
theorem spelled_message {m : Message} (h : decodeMessage bytes = .ok m) :
    Spelled bytes 0 bytes.length (encodeMessage m)
      (marksCells bytes (marksAt bytes maxDepth) 5) := by
  obtain ⟨p, hv, hin, hb⟩ := decodeMessage_eq_ok.1 h
  obtain ⟨-, -, hinbox, -, -, rfl⟩ := readU32_eq_ok hin
  have hbody := spelled_tuple hb
  obtain ⟨_, ms, _, _, hms, _⟩ := id hbody
  have hversion := holds_singleton (version_byte hv)
  have hhead : Spelled bytes 0 5 (formatVersion :: toBE 4 m.inbox) (some ([], 5)) :=
    spelled_exact (hversion.append hinbox) (by rw [List.length_cons, length_toBE]) rfl
  rw [hms] at hbody ⊢
  exact spelled_append hhead hbody

theorem tyTag_tyFromTag {tag : UInt8} {ty : Ty} (h : tyFromTag tag = .ok ty) : tyTag ty = tag := by
  unfold tyFromTag at h
  split_ifs at h <;> (cases h; simp_all [tyTag])

theorem decodeColumn_spelled {c : Column} (h : decodeColumn bytes pos = .ok (c, next)) :
    Holds bytes pos (encodeColumn c) ∧ next = pos + (encodeColumn c).length := by
  unfold decodeColumn at h
  cases htag : bytes[pos]? with
  | none =>
    rw [htag] at h
    cases h
  | some tag =>
    rw [htag] at h
    obtain ⟨ty, hty, h⟩ := bind_ok h
    obtain ⟨⟨bs, p⟩, hbs, h⟩ := bind_ok h
    obtain ⟨-, -, hholds, hnext, -⟩ := readCounted_eq_ok hbs
    dsimp only at h
    cases hs : String.fromUTF8? ⟨bs.toArray⟩ with
    | none =>
      rw [hs] at h
      cases h
    | some s =>
      rw [hs] at h
      cases h
      have hspell : s.toByteArray.data.toList = bs := fromUTF8?_eq_some hs
      rw [encodeColumn, tyTag_tyFromTag hty, hspell]
      refine ⟨holds_cons htag hholds, ?_⟩
      rw [hnext, List.length_cons, Nat.add_assoc, Nat.add_comm 1]

theorem decodeColumns_spelled : ∀ (n pos : Nat) (cs : List Column) (next : Nat),
    pos ≤ bytes.length → decodeColumns bytes n pos = .ok (cs, next) →
      cs.length = n ∧ Holds bytes pos (cs.flatMap encodeColumn) ∧
        next = pos + (cs.flatMap encodeColumn).length := by
  intro n
  induction n with
  | zero =>
    intro pos cs next hle h
    cases h
    exact ⟨rfl, holds_nil hle, rfl⟩
  | succ n ih =>
    intro pos cs next hle h
    obtain ⟨⟨c, p⟩, hc, h⟩ := bind_ok h
    obtain ⟨⟨cs', _⟩, hcs, h⟩ := bind_ok h
    cases h
    obtain ⟨hholds, rfl⟩ := decodeColumn_spelled hc
    obtain ⟨hlen, hrest, hnext⟩ := ih _ _ _ hholds.le hcs
    refine ⟨by rw [List.length_cons, hlen], hholds.append hrest, ?_⟩
    rw [hnext, List.flatMap_cons, List.length_append, Nat.add_assoc]

/-- A schema has one spelling. -/
theorem encodeSchema_decode {s : Schema} (h : decodeSchema bytes = .ok s) :
    encodeSchema s = bytes := by
  obtain ⟨n, p, hv, hn, hc⟩ := decodeSchema_eq_ok.1 h
  obtain ⟨-, -, hcount, -, -, rfl⟩ := readU32_eq_ok hn
  have hle := hcount.le
  rw [length_toBE] at hle
  obtain ⟨hlen, hholds, hend⟩ := decodeColumns_spelled _ _ _ _ hle hc
  have hall : Holds bytes 0 (encodeSchema s) := by
    have hversion := holds_singleton (version_byte hv)
    have hrest : Holds bytes 1 (toBE 4 n ++ s.columns.flatMap encodeColumn) :=
      hcount.append (by rw [length_toBE]; exact hholds)
    rw [encodeSchema, hlen]
    exact holds_cons (version_byte hv) hrest
  have hsize : bytes.length = 0 + (encodeSchema s).length := by
    rw [hend, encodeSchema, List.length_cons, List.length_append, length_toBE]
    omega
  have hcons := hall.consumed
  rw [← hsize, consumed, List.drop_zero, Nat.sub_zero, List.take_length] at hcons
  exact hcons.symm

/-! ## What is read fits -/

theorem readCounted_lt {what : String} {bs : List UInt8}
    (h : readCounted bytes pos what = .ok (bs, next)) : bs.length < 2 ^ 32 := by
  obtain ⟨count, hslice, -, -, hlen⟩ := readCounted_eq_ok h
  have hcount := ofBE_lt count
  rw [(slice_eq_some hslice).1] at hcount
  omega

theorem fits_decodeTimes {decode : Nat → Result (Value × Nat)} {levels : Nat}
    (hd : ∀ pos v next, decode pos = .ok (v, next) → fits levels v = true) : ∀ (n pos : Nat) (vs : List Value) (next : Nat),
    decodeTimes decode n pos = .ok (vs, next) → vs.length = n ∧ fitsAll levels vs = true := by
  intro n
  induction n with
  | zero =>
    intro pos vs next h
    cases h
    exact ⟨rfl, rfl⟩
  | succ n ih =>
    intro pos vs next h
    obtain ⟨⟨v, p⟩, hv, h⟩ := bind_ok h
    obtain ⟨⟨vs', _⟩, hvs, h⟩ := bind_ok h
    cases h
    obtain ⟨hlen, hall⟩ := ih _ _ _ hvs
    exact ⟨by rw [List.length_cons, hlen], by rw [fitsAll, hd _ _ _ hv, hall]; rfl⟩

theorem Reading.fits {v : Value} (h : Reading bytes levels pos v next)
    (hd : ∀ l, levels = l + 1 → ∀ pos v next, decodeValueAt bytes l pos = .ok (v, next) → fits l v = true) :
    fits levels v = true := by
  cases h with
  | ent | int | float | bool => cases levels <;> rfl
  | text _ hbs hs =>
    have hlen := readCounted_lt hbs
    rw [← fromUTF8?_eq_some hs] at hlen
    cases levels <;> exact decide_eq_true hlen
  | bytes _ hbs | code _ hbs =>
    have hlen := readCounted_lt hbs
    cases levels <;> exact decide_eq_true hlen
  | tuple _ hcells =>
    obtain ⟨⟨n, p⟩, hn, hcells⟩ := bind_ok hcells
    obtain ⟨-, -, -, -, hlt, -⟩ := readU32_eq_ok hn
    obtain ⟨rfl, hall⟩ := fits_decodeTimes (hd _ rfl) _ _ _ _ hcells
    rw [Wire.fits, hall, decide_eq_true hlt]
    rfl

/-- A value that is read nests no deeper than there were levels. -/
theorem fits_of_decode : ∀ (levels pos : Nat) (v : Value) (next : Nat),
    decodeValueAt bytes levels pos = .ok (v, next) → fits levels v = true := by
  intro levels
  induction levels with
  | zero =>
    intro pos v next h
    exact (decodeValueAt_eq_ok.1 h).fits fun l hl => nomatch hl
  | succ levels ih =>
    intro pos v next h
    refine (decodeValueAt_eq_ok.1 h).fits fun l hl => ?_
    obtain rfl := Nat.succ.inj hl
    exact ih

/-- A row that is read fits. -/
theorem fits_of_decodeTuple {t : Tuple} (h : decodeTuple bytes pos = .ok (t, next)) :
    t.cells.length < 2 ^ 32 ∧ fitsAll maxDepth t.cells = true := by
  obtain ⟨⟨cells, _⟩, hcells, h⟩ := bind_ok h
  cases h
  obtain ⟨⟨n, p⟩, hn, hcells⟩ := bind_ok hcells
  obtain ⟨-, -, -, -, hlt, -⟩ := readU32_eq_ok hn
  obtain ⟨rfl, hall⟩ := fits_decodeTimes (fits_of_decode maxDepth) _ _ _ _ hcells
  exact ⟨hlt, hall⟩

end Reads

theorem consumed_all (bytes : List UInt8) : consumed bytes 0 bytes.length = bytes := by
  rw [consumed, List.drop_zero, Nat.sub_zero, List.take_length]

/-- **What the decoder reads is canonical up to negative zero.** Where every flag byte
read is 0 or 1, re-encoding a decoded value, tuple or message gives back the bytes
consumed exactly when no float payload is negative zero's, and two buffers without one
that decode alike are the same. A schema is always its own encoding. -/
theorem decode_canonical :
    (∀ (bytes : List UInt8) (levels pos : Nat) (v : Value) (next : Nat),
      decodeValueAt bytes levels pos = .ok (v, next) →
      ∃ ms, marksAt bytes levels pos = some (ms, next) ∧ ((∀ m ∈ ms, m.PlainFlag) →
        (encodeValue v = consumed bytes pos next ↔ ∀ m ∈ ms, m.PlainFloat))) ∧
    (∀ (bytes : List UInt8) (pos : Nat) (t : Tuple) (next : Nat),
      decodeTuple bytes pos = .ok (t, next) →
      ∃ ms, marksCells bytes (marksAt bytes maxDepth) pos = some (ms, next) ∧
        ((∀ m ∈ ms, m.PlainFlag) →
          (encodeTuple t = consumed bytes pos next ↔ ∀ m ∈ ms, m.PlainFloat))) ∧
    (∀ (bytes : List UInt8) (m : Message), decodeMessage bytes = .ok m →
      ∃ ms, marksCells bytes (marksAt bytes maxDepth) 5 = some (ms, bytes.length) ∧
        ((∀ k ∈ ms, k.PlainFlag) → (encodeMessage m = bytes ↔ ∀ k ∈ ms, k.PlainFloat))) ∧
    (∀ (a b : List UInt8) (m : Message) (msa msb : List Mark) (na nb : Nat),
      decodeMessage a = .ok m → decodeMessage b = .ok m →
      marksCells a (marksAt a maxDepth) 5 = some (msa, na) → Plain msa →
      marksCells b (marksAt b maxDepth) 5 = some (msb, nb) → Plain msb → a = b) ∧
    (∀ (bytes : List UInt8) (s : Schema), decodeSchema bytes = .ok s → encodeSchema s = bytes) := by
  have message : ∀ (bytes : List UInt8) (m : Message), decodeMessage bytes = .ok m →
      ∃ ms, marksCells bytes (marksAt bytes maxDepth) 5 = some (ms, bytes.length) ∧
        ((∀ k ∈ ms, k.PlainFlag) → (encodeMessage m = bytes ↔ ∀ k ∈ ms, k.PlainFloat)) := by
    intro bytes m h
    have hcanon := (spelled_message h).canonical
    rwa [consumed_all] at hcanon
  have encoded : ∀ (bytes : List UInt8) (m : Message) (ms : List Mark) (n : Nat),
      decodeMessage bytes = .ok m → marksCells bytes (marksAt bytes maxDepth) 5 = some (ms, n) →
      Plain ms → encodeMessage m = bytes := by
    intro bytes m ms n h hms hplain
    obtain ⟨ms', hms', hiff⟩ := message bytes m h
    obtain ⟨rfl, -⟩ := Prod.mk.inj (Option.some.inj (hms.symm.trans hms'))
    exact (hiff fun k hk => (hplain k hk).1).2 fun k hk => (hplain k hk).2
  refine ⟨fun bytes levels pos v next h => (decodeValueAt_marks levels pos v next h).canonical,
    fun bytes pos t next h => (spelled_tuple h).canonical, message, ?_,
    fun bytes s h => encodeSchema_decode h⟩
  intro a b m msa msb na nb ha hb hma hpa hmb hpb
  exact (encoded a m msa na ha hma hpa).symm.trans (encoded b m msb nb hb hmb hpb)

theorem decode_canonical_sample : encodeValue (.bool true) = consumed [4, 1] 0 2 := by
  have hread : decodeValueAt [4, 1] maxDepth 0 = .ok (.bool true, 2) := rfl
  have hlex : marksAt [4, 1] maxDepth 0 = some ([.flag 1], 2) := rfl
  obtain ⟨ms, hms, hiff⟩ := decode_canonical.1 [4, 1] maxDepth 0 _ _ hread
  obtain ⟨rfl, -⟩ := Prod.mk.inj (Option.some.inj (hms.symm.trans hlex))
  exact (hiff (by simp [Mark.PlainFlag])).2 (by simp [Mark.PlainFloat])

/-- A flag of 2 is read as true, and negative zero as zero: neither is what the encoder
writes. -/
theorem decode_not_canonical :
    (decodeValue [4, 2] 0 = .ok (.bool true, 2) ∧
      encodeValue (.bool true) ≠ consumed [4, 2] 0 2) ∧
    (decodeValue [8, 128, 0, 0, 0, 0, 0, 0, 0] 0 = .ok (.float ⟨0, by decide, by decide⟩, 9) ∧
      encodeValue (.float ⟨0, by decide, by decide⟩)
        ≠ consumed [8, 128, 0, 0, 0, 0, 0, 0, 0] 0 9) :=
  ⟨⟨rfl, by decide⟩, rfl, by decide⟩

end Wire

end Grmpl

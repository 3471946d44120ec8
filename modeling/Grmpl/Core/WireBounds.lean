import Grmpl.Core.WireCanonical
import Grmpl.Lib.Logged

/-!
# What a decoder does to a buffer

The decoders once more, with every access logged: the bytes read, the room made for elements
not yet decoded, the tuples gone into and left, the elements built. The counts in the bytes
are anyone's, so what bounds a decoder is the rule each event keeps: a read is the next bytes
of the buffer, room is made for no more elements than there are bytes left, tuples nest no
deeper than the limit, and no element is built without a byte read for it.

* `Event`, `Event.Allowed`, `Kept`: the events and the rule.
* `Traced.decodeValueAt`, `Traced.decodeTuple`, `Traced.decodeMessage`, `Traced.decodeSchema`.
* `Harmless`: what the rule comes to for a whole log.
* `hostile_wire`: they come to what the decoders come to, and keep the rule on any bytes.
-/

open Bytes

namespace Grmpl

namespace Wire

/-- What a decoder does. -/
inductive Event
  | read (pos len : Nat)
  | reserve (n pos : Nat)
  | nest
  | leave
  | build (n : Nat)
  deriving DecidableEq

/-! ## The rule -/

/-- How many bytes were read. -/
def bytesRead : List Event → Nat
  | [] => 0
  | .read _ len :: es => bytesRead es + len
  | _ :: es => bytesRead es

/-- How many elements were built. -/
def built : List Event → Nat
  | [] => 0
  | .build n :: es => built es + n
  | _ :: es => built es

/-- How many tuples were gone into and not left. -/
def nesting : List Event → Nat
  | [] => 0
  | .nest :: es => nesting es + 1
  | .leave :: es => nesting es - 1
  | _ :: es => nesting es

/-- What may happen to a buffer read from `start`, after what has happened. -/
def Event.Allowed (bytes : List UInt8) (start : Nat) (es : List Event) : Event → Prop
  | .read pos len => pos = start + bytesRead es ∧ pos + len ≤ bytes.length
  | .reserve n pos => pos = start + bytesRead es ∧ n ≤ bytes.length - pos
  | .nest => nesting es < maxDepth
  | .leave => 0 < nesting es
  | .build n => built es + n ≤ bytesRead es

/-- Every event was allowed when it happened. -/
def Kept (bytes : List UInt8) (start : Nat) : List Event → Prop
  | [] => True
  | e :: es => Kept bytes start es ∧ e.Allowed bytes start es

/-- Where a decoder is: the position it is at, the bytes read for which no element was built,
and the tuples it is in. -/
structure Place where
  pos : Nat
  spare : Nat
  depth : Nat

/-- The rule, and a decoder's place under it. -/
def watch (bytes : List UInt8) (start : Nat) : Watch Event Error Place where
  Kept := Kept bytes start
  At p es := start + bytesRead es = p.pos ∧ built es + p.spare ≤ bytesRead es ∧ nesting es = p.depth
  Fails e := ∃ msg, e = .codec msg

mutual

/-- The elements of a value: itself, the values in it, and the bytes it holds. -/
def elements : Value → Nat
  | .text s => s.toByteArray.data.toList.length + 1
  | .bytes b => b.length + 1
  | .code b => b.length + 1
  | .tuple cells => elementsAll cells + 1
  | _ => 1

def elementsAll : List Value → Nat
  | [] => 0
  | c :: cs => elements c + elementsAll cs

end

/-! ## The decoders -/

/-- A decoder that logs what it does. -/
abbrev Traced (α : Type) := Logged Event Error α

/-- Room for elements about to be decoded: no more than there are bytes left. -/
def capacity (n : Nat) (bytes : List UInt8) (pos : Nat) : Nat := min n (bytes.length - pos)

namespace Traced

def codec {α : Type} (msg : String) : Traced α := Logged.fail (.codec msg)

/-- One byte, if there is one. -/
def byte (bytes : List UInt8) (pos : Nat) (msg : String) : Traced UInt8 :=
  match bytes[pos]? with
  | some b => do
      Logged.event (.read pos 1)
      return b
  | none => codec msg

def readSlice (bytes : List UInt8) (pos len : Nat) (what : String) : Traced (List UInt8 × Nat) :=
  match slice bytes pos len with
  | some bs => do
      Logged.event (.read pos len)
      return (bs, pos + len)
  | none => codec ("unexpected end (" ++ what ++ ")")

def readU32 (bytes : List UInt8) (pos : Nat) : Traced (Nat × Nat) := do
  let (bs, pos) ← readSlice bytes pos 4 "u32"
  return (ofBE bs, pos)

def readU64 (bytes : List UInt8) (pos : Nat) : Traced (UInt64 × Nat) := do
  let (bs, pos) ← readSlice bytes pos 8 "u64"
  return (UInt64.ofNat (ofBE bs), pos)

/-- A string of bytes behind its length. -/
def readCounted (bytes : List UInt8) (pos : Nat) (what : String) : Traced (List UInt8 × Nat) := do
  let (len, pos) ← readU32 bytes pos
  readSlice bytes pos len what

def decodeTimes (decode : Nat → Traced (Value × Nat)) : Nat → Nat → Traced (List Value × Nat)
  | 0, pos => return ([], pos)
  | n + 1, pos => do
      let (v, pos) ← decode pos
      let (vs, pos) ← decodeTimes decode n pos
      return (v :: vs, pos)

def decodeCells (bytes : List UInt8) (decode : Nat → Traced (Value × Nat)) (pos : Nat) :
    Traced (List Value × Nat) := do
  let (len, pos) ← readU32 bytes pos
  Logged.event (.reserve (capacity len bytes pos) pos)
  decodeTimes decode len pos

/-- The content behind a tag. -/
def decodeContent (bytes : List UInt8) (levels : Nat) (cells : Nat → Traced (List Value × Nat)) (tag : UInt8)
    (pos : Nat) : Traced (Value × Nat) := do
  if tag = tagEnt then
    let (n, pos) ← readU64 bytes pos
    return (.ent ⟨n⟩, pos)
  else if tag = tagInt then
    let (n, pos) ← readU64 bytes pos
    return (.int n.toInt64, pos)
  else if tag = tagFloat then
    let (bits, pos) ← readU64 bytes pos
    match FiniteF64.fromBits bits with
    | some x => return (.float x, pos)
    | none => codec "non-finite float payload"
  else if tag = tagText then
    let (bs, pos) ← readCounted bytes pos "text"
    match String.fromUTF8? ⟨bs.toArray⟩ with
    | some s => do
        Logged.event (.build bs.length)
        return (.text s, pos)
    | none => codec "invalid utf-8 sequence"
  else if tag = tagBool then
    let b ← byte bytes pos "unexpected end (bool)"
    return (.bool (b != 0), pos + 1)
  else if tag = tagTuple then
    if levels = 0 then codec ("value nests deeper than " ++ toString maxDepth ++ " tuples")
    else
      Logged.event .nest
      let (vs, pos) ← cells pos
      Logged.event .leave
      return (.tuple vs, pos)
  else if tag = tagBytes then
    let (bs, pos) ← readCounted bytes pos "bytes"
    Logged.event (.build bs.length)
    return (.bytes bs, pos)
  else if tag = tagCode then
    let (bs, pos) ← readCounted bytes pos "code"
    Logged.event (.build bs.length)
    return (.code bs, pos)
  else codec ("unknown value tag " ++ toString tag)

/-- A value where tuples may nest so many levels more. -/
def decodeValueAt (bytes : List UInt8) : Nat → Nat → Traced (Value × Nat)
  | 0, pos => do
      let tag ← byte bytes pos "unexpected end (tag)"
      let r ← decodeContent bytes 0 (fun _ => codec "") tag (pos + 1)
      Logged.event (.build 1)
      return r
  | levels + 1, pos => do
      let tag ← byte bytes pos "unexpected end (tag)"
      let r ← decodeContent bytes (levels + 1) (decodeCells bytes (decodeValueAt bytes levels)) tag (pos + 1)
      Logged.event (.build 1)
      return r

def decodeValue (bytes : List UInt8) (pos : Nat) : Traced (Value × Nat) := decodeValueAt bytes maxDepth pos

def decodeTuple (bytes : List UInt8) (pos : Nat) : Traced (Tuple × Nat) := do
  let (cells, pos) ← decodeCells bytes (decodeValueAt bytes maxDepth) pos
  return (⟨cells⟩, pos)

def readVersion (bytes : List UInt8) : Traced Nat := do
  let v ← byte bytes 0 "empty buffer (no format version)"
  if v = formatVersion then return 1
  else codec ("unsupported format version " ++ toString v ++ " (expected " ++ toString formatVersion ++ ")")

def decodeMessage (bytes : List UInt8) : Traced Message := do
  let pos ← readVersion bytes
  let (inbox, pos) ← (readU32 bytes pos).failAs (.codec "message shorter than inbox header")
  let (body, pos) ← decodeTuple bytes pos
  if pos ≠ bytes.length then codec "trailing bytes after message body" else return ⟨inbox, body⟩

def decodeColumn (bytes : List UInt8) (pos : Nat) : Traced (Column × Nat) := do
  let tag ← byte bytes pos "unexpected end (ty tag)"
  match tyFromTag tag with
  | .error e => Logged.fail e
  | .ok ty =>
      let (bs, pos) ← readCounted bytes (pos + 1) "column name"
      match String.fromUTF8? ⟨bs.toArray⟩ with
      | none => codec "invalid utf-8 sequence"
      | some name =>
          -- the name's bytes, and the column
          Logged.event (.build (bs.length + 1))
          return (⟨name, ty⟩, pos)

def decodeColumns (bytes : List UInt8) : Nat → Nat → Traced (List Column × Nat)
  | 0, pos => return ([], pos)
  | n + 1, pos => do
      let (c, pos) ← decodeColumn bytes pos
      let (cs, pos) ← decodeColumns bytes n pos
      return (c :: cs, pos)

def decodeSchema (bytes : List UInt8) : Traced Schema := do
  let pos ← readVersion bytes
  let (ncols, pos) ← readU32 bytes pos
  Logged.event (.reserve (capacity ncols bytes pos) pos)
  let (columns, pos) ← decodeColumns bytes ncols pos
  if pos ≠ bytes.length then codec "trailing bytes after schema" else return ⟨columns⟩

/-! ## They come to what the decoders come to -/

section Agrees

variable {bytes : List UInt8} {pos levels : Nat}

theorem agrees_ite {α : Type} {c : Prop} [Decidable c] {x y : Traced α} {r q : Result α} (hx : c → x.Agrees r)
    (hy : ¬ c → y.Agrees q) : Logged.Agrees (if c then x else y) (if c then r else q) := by
  split_ifs with h
  · exact hx h
  · exact hy h

theorem agrees_byte {msg : String} : (byte bytes pos msg).Agrees (match bytes[pos]? with
    | some b => .ok b
    | none => .error (.codec msg)) := by
  unfold byte
  cases bytes[pos]? with
  | none => exact .fail _
  | some b => exact .event (.pure b)

theorem agrees_readSlice (len : Nat) (what : String) :
    (readSlice bytes pos len what).Agrees (Wire.readSlice bytes pos len what) := by
  unfold readSlice Wire.readSlice
  cases slice bytes pos len with
  | none => exact .fail _
  | some bs => exact .event (.pure _)

theorem agrees_readU32 : (readU32 bytes pos).Agrees (Wire.readU32 bytes pos) :=
  .bind (agrees_readSlice 4 "u32") fun ⟨_, _⟩ _ => .pure _

theorem agrees_readU64 : (readU64 bytes pos).Agrees (Wire.readU64 bytes pos) :=
  .bind (agrees_readSlice 8 "u64") fun ⟨_, _⟩ _ => .pure _

theorem agrees_readCounted (what : String) :
    (readCounted bytes pos what).Agrees (Wire.readCounted bytes pos what) :=
  .bind agrees_readU32 fun ⟨_, _⟩ _ => agrees_readSlice _ what

theorem agrees_decodeTimes {decode : Nat → Traced (Value × Nat)} {decode' : Nat → Result (Value × Nat)}
    (h : ∀ pos, (decode pos).Agrees (decode' pos)) (n pos : Nat) :
    (decodeTimes decode n pos).Agrees (Wire.decodeTimes decode' n pos) := by
  induction n generalizing pos with
  | zero => exact .pure _
  | succ n ih => exact .bind (h pos) fun ⟨_, p⟩ _ => .bind (ih p) fun ⟨_, _⟩ _ => .pure _

theorem agrees_decodeCells {decode : Nat → Traced (Value × Nat)} {decode' : Nat → Result (Value × Nat)}
    (h : ∀ pos, (decode pos).Agrees (decode' pos)) (pos : Nat) :
    (decodeCells bytes decode pos).Agrees (Wire.decodeCells bytes decode' pos) :=
  .bind agrees_readU32 fun ⟨len, p⟩ _ => .event (agrees_decodeTimes h len p)

theorem agrees_decodeContent {tag : UInt8} (htag : bytes[pos]? = some tag)
    {cells : Nat → Traced (List Value × Nat)} (hcells : ∀ l, levels = l + 1 → ∀ pos,
      (cells pos).Agrees (Wire.decodeCells bytes (Wire.decodeValueAt bytes l) pos)) :
    (decodeContent bytes levels cells tag (pos + 1)).Agrees (Wire.decodeValueAt bytes levels pos) := by
  unfold decodeContent Wire.decodeValueAt
  rw [htag]
  refine agrees_ite (fun _ => .bind agrees_readU64 fun x _ => by cases x; exact .pure _) fun _ => ?_
  refine agrees_ite (fun _ => .bind agrees_readU64 fun x _ => by cases x; exact .pure _) fun _ => ?_
  refine agrees_ite (fun _ => .bind agrees_readU64 fun x _ => ?_) fun _ => ?_
  · obtain ⟨bits, _⟩ := x
    dsimp only
    cases FiniteF64.fromBits bits with
    | none => exact .fail _
    | some x => exact .pure _
  refine agrees_ite (fun _ => .bind (agrees_readCounted "text") fun x _ => ?_) fun _ => ?_
  · obtain ⟨bs, _⟩ := x
    dsimp only
    cases String.fromUTF8? ⟨bs.toArray⟩ with
    | none => exact .fail _
    | some s => exact .event (.pure _)
  refine agrees_ite (fun _ => ?_) fun _ => ?_
  · have hbyte : (byte bytes (pos + 1) "unexpected end (bool)").Agrees _ := agrees_byte
    cases hb : bytes[pos + 1]? with
    | none =>
      rw [hb] at hbyte
      exact hbyte.bind (g := fun _ => Except.error (.codec "unexpected end (bool)")) fun b hb => by
        cases hb
    | some b =>
      rw [hb] at hbyte
      exact hbyte.bind (g := fun b => .ok (Value.bool (b != 0), pos + 1 + 1)) fun _ _ => .pure _
  refine agrees_ite (fun _ => ?_) fun _ => ?_
  · cases levels with
    | zero => exact .fail _
    | succ levels => exact .event (.bind (hcells levels rfl _) fun x _ => by cases x; exact .event (.pure _))
  refine agrees_ite (fun _ => .bind (agrees_readCounted "bytes") fun x _ => by cases x; exact .event (.pure _))
    fun _ => ?_
  exact agrees_ite (fun _ => .bind (agrees_readCounted "code") fun x _ => by cases x; exact .event (.pure _))
    fun _ => .fail _

/-- Something done after a tag is read, or the buffer is at its end. -/
theorem agrees_tagged {α : Type} {msg : String} {f : UInt8 → Traced α} {r : Result α}
    (hnone : bytes[pos]? = none → r = .error (.codec msg)) (hsome : ∀ tag, bytes[pos]? = some tag → (f tag).Agrees r) :
    Logged.Agrees (byte bytes pos msg >>= f) r := by
  unfold byte
  cases htag : bytes[pos]? with
  | none =>
    rw [hnone htag]
    exact .fail _
  | some tag => exact fun es => hsome tag htag (.read pos 1 :: es)

theorem agrees_built {α : Type} {x : Traced α} {r : Result α} (h : x.Agrees r) (n : Nat) :
    Logged.Agrees (do
      let a ← x
      Logged.event (.build n)
      return a) r := by
  have hbind := h.bind (f := fun a => do Logged.event (.build n); return a) (g := fun a => Except.ok a)
    fun a _ => .event (.pure a)
  cases r <;> exact hbind

theorem decodeValueAt_none (h : bytes[pos]? = none) :
    Wire.decodeValueAt bytes levels pos = .error (.codec "unexpected end (tag)") := by
  unfold Wire.decodeValueAt
  rw [h]

theorem agrees_decodeValueAt (levels pos : Nat) :
    (decodeValueAt bytes levels pos).Agrees (Wire.decodeValueAt bytes levels pos) := by
  induction levels generalizing pos with
  | zero =>
    exact agrees_tagged decodeValueAt_none fun tag htag =>
      agrees_built (agrees_decodeContent htag fun l hl => absurd hl (Nat.succ_ne_zero l).symm) 1
  | succ levels ih =>
    refine agrees_tagged decodeValueAt_none fun tag htag => agrees_built (agrees_decodeContent htag fun l hl pos => ?_) 1
    obtain rfl := Nat.succ.inj hl
    exact agrees_decodeCells ih pos

theorem agrees_decodeTuple (pos : Nat) : (decodeTuple bytes pos).Agrees (Wire.decodeTuple bytes pos) :=
  .bind (agrees_decodeCells (agrees_decodeValueAt maxDepth) pos) fun ⟨_, _⟩ _ => .pure _

theorem agrees_readVersion : (readVersion bytes).Agrees (Wire.readVersion bytes) := by
  unfold Wire.readVersion
  refine agrees_tagged (fun h => by rw [h]) fun v hv => ?_
  rw [hv]
  exact agrees_ite (fun _ => .pure _) fun _ => .fail _

theorem agrees_decodeMessage : (decodeMessage bytes).Agrees (Wire.decodeMessage bytes) := by
  refine .bind agrees_readVersion fun pos _ => ?_
  have hinbox : (readU32 bytes pos).Agrees (Wire.readU32 bytes pos) := agrees_readU32
  dsimp only
  cases hr : Wire.readU32 bytes pos with
  | error e =>
    rw [hr] at hinbox
    exact (hinbox.failAs_error _).bind (g := fun _ => Except.error (.codec "message shorter than inbox header"))
      fun _ h => nomatch h
  | ok r =>
    rw [hr] at hinbox
    refine (hinbox.failAs_ok _).bind (g := fun r => Wire.decodeTuple bytes r.2 >>= fun b =>
      if b.2 ≠ bytes.length then Except.error (.codec "trailing bytes after message body")
      else .ok (⟨r.1, b.1⟩ : Message)) fun ⟨_, p⟩ _ => ?_
    exact (agrees_decodeTuple p).bind fun ⟨_, _⟩ _ => agrees_ite (fun _ => .fail _) fun _ => .pure _

theorem agrees_decodeColumn (pos : Nat) : (decodeColumn bytes pos).Agrees (Wire.decodeColumn bytes pos) := by
  unfold Wire.decodeColumn
  refine agrees_tagged (fun h => by rw [h]) fun tag htag => ?_
  rw [htag]
  dsimp only
  cases tyFromTag tag with
  | error e => exact .fail e
  | ok ty =>
    refine (agrees_readCounted "column name").bind fun ⟨bs, p⟩ _ => ?_
    dsimp only
    cases String.fromUTF8? ⟨bs.toArray⟩ with
    | none => exact .fail _
    | some name => exact .event (.pure _)

theorem agrees_decodeColumns (n pos : Nat) :
    (decodeColumns bytes n pos).Agrees (Wire.decodeColumns bytes n pos) := by
  induction n generalizing pos with
  | zero => exact .pure _
  | succ n ih => exact .bind (agrees_decodeColumn pos) fun ⟨_, p⟩ _ => .bind (ih p) fun ⟨_, _⟩ _ => .pure _

theorem agrees_decodeSchema : (decodeSchema bytes).Agrees (Wire.decodeSchema bytes) :=
  .bind agrees_readVersion fun _ _ => .bind agrees_readU32 fun ⟨n, p⟩ _ =>
    .event (.bind (agrees_decodeColumns n p) fun ⟨_, _⟩ _ => agrees_ite (fun _ => .fail _) fun _ => .pure _)

end Agrees

/-! ## They keep the rule -/

section Runs

variable {bytes : List UInt8} {start pos spare d levels : Nat} {α : Type}

theorem allowed_read {len : Nat} (h : pos + len ≤ bytes.length) (es : List Event) (hk : Kept bytes start es)
    (hat : (watch bytes start).At ⟨pos, spare, d⟩ es) : Kept bytes start (.read pos len :: es) ∧
      (watch bytes start).At ⟨pos + len, spare + len, d⟩ (.read pos len :: es) := by
  obtain ⟨hpos, hspare, hdepth⟩ := hat
  simp only at hpos hspare hdepth
  refine ⟨⟨hk, hpos.symm, h⟩, ?_, ?_, hdepth⟩
  · simp only [bytesRead]
    omega
  · simp only [bytesRead, built]
    omega

theorem allowed_build {n : Nat} (h : n ≤ spare) (es : List Event) (hk : Kept bytes start es)
    (hat : (watch bytes start).At ⟨pos, spare, d⟩ es) : Kept bytes start (.build n :: es) ∧
      (watch bytes start).At ⟨pos, spare - n, d⟩ (.build n :: es) := by
  obtain ⟨hpos, hspare, hdepth⟩ := hat
  simp only at hpos hspare hdepth
  refine ⟨⟨hk, ?_⟩, hpos, ?_, hdepth⟩
  · simp only [Event.Allowed]
    omega
  · simp only [bytesRead, built]
    omega

theorem allowed_room {n : Nat} (h : n ≤ bytes.length - pos) (es : List Event) (hk : Kept bytes start es)
    (hat : (watch bytes start).At ⟨pos, spare, d⟩ es) : Kept bytes start (.reserve n pos :: es) ∧
      (watch bytes start).At ⟨pos, spare, d⟩ (.reserve n pos :: es) :=
  ⟨⟨hk, hat.1.symm, h⟩, hat⟩

theorem allowed_reserve (n : Nat) (es : List Event) (hk : Kept bytes start es)
    (hat : (watch bytes start).At ⟨pos, spare, d⟩ es) :
    Kept bytes start (.reserve (capacity n bytes pos) pos :: es) ∧
      (watch bytes start).At ⟨pos, spare, d⟩ (.reserve (capacity n bytes pos) pos :: es) :=
  allowed_room (Nat.min_le_right _ _) es hk hat

theorem allowed_nest (h : d < maxDepth) (es : List Event) (hk : Kept bytes start es)
    (hat : (watch bytes start).At ⟨pos, spare, d⟩ es) : Kept bytes start (.nest :: es) ∧
      (watch bytes start).At ⟨pos, spare, d + 1⟩ (.nest :: es) := by
  obtain ⟨hpos, hspare, hdepth⟩ := hat
  simp only at hpos hspare hdepth
  exact ⟨⟨hk, hdepth.trans_lt h⟩, hpos, hspare, congrArg (· + 1) hdepth⟩

theorem allowed_leave (es : List Event) (hk : Kept bytes start es)
    (hat : (watch bytes start).At ⟨pos, spare, d + 1⟩ es) : Kept bytes start (.leave :: es) ∧
      (watch bytes start).At ⟨pos, spare, d⟩ (.leave :: es) := by
  obtain ⟨hpos, hspare, hdepth⟩ := hat
  simp only at hpos hspare hdepth
  refine ⟨⟨hk, ?_⟩, hpos, hspare, ?_⟩
  · simp only [Event.Allowed]
    omega
  · simp only [nesting]
    omega

theorem runs_codec {msg : String} {p : Place} {Q : α → Place → Prop} :
    (codec msg : Traced α).Runs (watch bytes start) p Q := .fail ⟨msg, rfl⟩

theorem runs_byte {msg : String} : (byte bytes pos msg).Runs (watch bytes start) ⟨pos, spare, d⟩ fun _ p =>
    pos + 1 ≤ bytes.length ∧ p = ⟨pos + 1, spare + 1, d⟩ := by
  unfold byte
  cases hb : bytes[pos]? with
  | none => exact runs_codec
  | some b =>
    obtain ⟨hlt, -⟩ := List.getElem?_eq_some_iff.1 hb
    exact .event (allowed_read hlt) (.pure ⟨hlt, rfl⟩)

theorem runs_readSlice (len : Nat) (what : String) :
    (readSlice bytes pos len what).Runs (watch bytes start) ⟨pos, spare, d⟩ fun r p =>
      r.2 = pos + len ∧ r.1.length = len ∧ pos + len ≤ bytes.length ∧ p = ⟨pos + len, spare + len, d⟩ := by
  unfold readSlice
  cases hs : slice bytes pos len with
  | none => exact runs_codec
  | some bs =>
    obtain ⟨hlen, hholds⟩ := slice_eq_some hs
    have hle := hholds.le
    rw [hlen] at hle
    exact .event (allowed_read hle) (.pure ⟨rfl, hlen, hle, rfl⟩)

theorem runs_readU32 : (readU32 bytes pos).Runs (watch bytes start) ⟨pos, spare, d⟩ fun r p =>
    r.2 = pos + 4 ∧ pos + 4 ≤ bytes.length ∧ p = ⟨pos + 4, spare + 4, d⟩ :=
  (runs_readSlice 4 "u32").bind fun ⟨_, _⟩ _ ⟨hnext, _, hle, hp⟩ => .pure ⟨hnext, hle, hp⟩

theorem runs_readU64 : (readU64 bytes pos).Runs (watch bytes start) ⟨pos, spare, d⟩ fun r p =>
    r.2 = pos + 8 ∧ pos + 8 ≤ bytes.length ∧ p = ⟨pos + 8, spare + 8, d⟩ :=
  (runs_readSlice 8 "u64").bind fun ⟨_, _⟩ _ ⟨hnext, _, hle, hp⟩ => .pure ⟨hnext, hle, hp⟩

theorem runs_readCounted (what : String) :
    (readCounted bytes pos what).Runs (watch bytes start) ⟨pos, spare, d⟩ fun r p =>
      r.2 = pos + 4 + r.1.length ∧ r.2 ≤ bytes.length ∧ p = ⟨r.2, spare + 4 + r.1.length, d⟩ := by
  refine runs_readU32.bind fun ⟨len, next⟩ p ⟨hnext, hle, hp⟩ => ?_
  dsimp only at hnext ⊢
  subst hnext hp
  refine (runs_readSlice len what).mono fun r p ⟨hr, hlen, hle', hp⟩ => ?_
  rw [hp, hr, hlen]
  exact ⟨rfl, hle', rfl⟩

/-- What came of reading from `pos`: the position reported is where the decoder is, in the
buffer and no deeper than it was, with no fewer bytes to spare. -/
structure Past (bytes : List UInt8) (pos spare d next : Nat) (p : Place) : Prop where
  next : next = p.pos
  depth : p.depth = d
  le : pos ≤ p.pos
  within : p.pos ≤ bytes.length
  spare : spare ≤ p.spare

/-- Values read one after the other, by a decoder that moves on with each. -/
theorem runs_decodeTimes {decode : Nat → Traced (Value × Nat)}
    (h : ∀ pos spare, pos ≤ bytes.length → (decode pos).Runs (watch bytes start) ⟨pos, spare, d⟩ fun r p =>
      Past bytes pos spare d r.2 p ∧ depth r.1 ≤ levels ∧ pos + elements r.1 ≤ r.2) (n : Nat) :
    ∀ pos spare, pos ≤ bytes.length → (decodeTimes decode n pos).Runs (watch bytes start) ⟨pos, spare, d⟩ fun r p =>
      Past bytes pos spare d r.2 p ∧ depthAll r.1 ≤ levels ∧ pos + elementsAll r.1 ≤ r.2 := by
  induction n with
  | zero => exact fun pos spare hpos => .pure ⟨⟨rfl, rfl, le_rfl, hpos, le_rfl⟩, Nat.zero_le _, le_rfl⟩
  | succ n ih =>
    intro pos spare hpos
    refine (h pos spare hpos).bind fun ⟨v, next⟩ ⟨p, s, e⟩ ⟨hpast, hdepth, helems⟩ => ?_
    obtain ⟨hnext, rfl, hle, hwithin, hspare⟩ := hpast
    dsimp only at hnext hle hwithin hspare hdepth helems ⊢
    subst hnext
    refine (ih next s hwithin).bind fun ⟨vs, last⟩ p' ⟨hpast', hdepth', helems'⟩ => .pure ⟨?_, ?_, ?_⟩
    · exact ⟨hpast'.next, hpast'.depth, hle.trans hpast'.le, hpast'.within, hspare.trans hpast'.spare⟩
    · exact max_le hdepth hdepth'
    · dsimp only at helems' ⊢
      rw [elementsAll]
      omega

theorem runs_decodeCells {decode : Nat → Traced (Value × Nat)}
    (h : ∀ pos spare, pos ≤ bytes.length → (decode pos).Runs (watch bytes start) ⟨pos, spare, d⟩ fun r p =>
      Past bytes pos spare d r.2 p ∧ depth r.1 ≤ levels ∧ pos + elements r.1 ≤ r.2) (pos spare : Nat) :
    (decodeCells bytes decode pos).Runs (watch bytes start) ⟨pos, spare, d⟩ fun r p =>
      Past bytes (pos + 4) (spare + 4) d r.2 p ∧ depthAll r.1 ≤ levels ∧ pos + 4 + elementsAll r.1 ≤ r.2 := by
  refine runs_readU32.bind fun ⟨len, next⟩ p ⟨hnext, hle, hp⟩ => ?_
  dsimp only at hnext ⊢
  subst hnext hp
  exact .event (allowed_reserve len) (runs_decodeTimes h len _ _ hle)

/-- The content behind a tag adds no more than its bytes, the value itself aside. -/
theorem runs_decodeContent {cells : Nat → Traced (List Value × Nat)} {tag : UInt8} (hd : d + levels ≤ maxDepth)
    (hcells : ∀ l, levels = l + 1 → ∀ pos spare, (cells pos).Runs (watch bytes start) ⟨pos, spare, d + 1⟩ fun r p =>
      Past bytes (pos + 4) (spare + 4) (d + 1) r.2 p ∧ depthAll r.1 ≤ l ∧ pos + 4 + elementsAll r.1 ≤ r.2) :
    (decodeContent bytes levels cells tag pos).Runs (watch bytes start) ⟨pos, spare, d⟩ fun r p =>
      Past bytes pos spare d r.2 p ∧ depth r.1 ≤ levels ∧ pos + elements r.1 ≤ r.2 + 1 := by
  have hcopied : ∀ {f : List UInt8 → Value} {what : String}, (∀ bs, depth (f bs) = 0) →
      (∀ bs, elements (f bs) = bs.length + 1) →
      Logged.Runs (watch bytes start) (do
        let (bs, pos) ← readCounted bytes pos what
        Logged.event (.build bs.length)
        return (f bs, pos)) ⟨pos, spare, d⟩ fun r p =>
          Past bytes pos spare d r.2 p ∧ depth r.1 ≤ levels ∧ pos + elements r.1 ≤ r.2 + 1 := by
    intro f what hdepth helems
    refine (runs_readCounted what).bind fun ⟨bs, next⟩ p ⟨hnext, hle, hp⟩ => ?_
    dsimp only at hnext hle hp ⊢
    subst hp
    refine .event (allowed_build (by omega)) (.pure ⟨⟨rfl, rfl, ?_, hle, ?_⟩, ?_, ?_⟩)
    · dsimp only
      omega
    · dsimp only
      omega
    · rw [hdepth]
      exact Nat.zero_le _
    · rw [helems]
      dsimp only
      omega
  unfold decodeContent
  split_ifs
  · refine runs_readU64.bind fun ⟨n, next⟩ p ⟨hnext, hle, hp⟩ => ?_
    dsimp only at hnext ⊢
    subst hnext hp
    exact .pure ⟨⟨rfl, rfl, Nat.le_add_right _ _, hle, Nat.le_add_right _ _⟩, Nat.zero_le _, by simp [elements]⟩
  · refine runs_readU64.bind fun ⟨n, next⟩ p ⟨hnext, hle, hp⟩ => ?_
    dsimp only at hnext ⊢
    subst hnext hp
    exact .pure ⟨⟨rfl, rfl, Nat.le_add_right _ _, hle, Nat.le_add_right _ _⟩, Nat.zero_le _, by simp [elements]⟩
  · refine runs_readU64.bind fun ⟨n, next⟩ p ⟨hnext, hle, hp⟩ => ?_
    dsimp only at hnext ⊢
    subst hnext hp
    cases FiniteF64.fromBits n with
    | none => exact runs_codec
    | some x =>
      exact .pure ⟨⟨rfl, rfl, Nat.le_add_right _ _, hle, Nat.le_add_right _ _⟩, Nat.zero_le _, by simp [elements]⟩
  · refine (runs_readCounted "text").bind fun ⟨bs, next⟩ p ⟨hnext, hle, hp⟩ => ?_
    dsimp only at hnext hle hp ⊢
    subst hp
    cases hs : String.fromUTF8? ⟨bs.toArray⟩ with
    | none => exact runs_codec
    | some s =>
      have hbytes := congrArg List.length (fromUTF8?_eq_some hs)
      refine .event (allowed_build (by omega)) (.pure ⟨⟨rfl, rfl, ?_, hle, ?_⟩, Nat.zero_le _, ?_⟩)
      · dsimp only
        omega
      · dsimp only
        omega
      · simp only [elements]
        omega
  · refine runs_byte.bind fun b p ⟨hle, hp⟩ => ?_
    subst hp
    exact .pure ⟨⟨rfl, rfl, Nat.le_succ _, hle, Nat.le_succ _⟩, Nat.zero_le _, by simp [elements]⟩
  · exact runs_codec
  · rename_i hlevels
    obtain ⟨l, rfl⟩ := Nat.exists_eq_succ_of_ne_zero hlevels
    refine .event (allowed_nest (by omega)) ((hcells l rfl pos spare).bind fun ⟨vs, next⟩ ⟨p, s, e⟩ h => ?_)
    obtain ⟨⟨hnext, hdep, hle, hwithin, hspare⟩, hdepth, helems⟩ := h
    dsimp only at hnext hdep hle hwithin hspare hdepth helems ⊢
    subst hdep
    refine .event allowed_leave (.pure ⟨⟨hnext, rfl, ?_, hwithin, ?_⟩, Nat.succ_le_succ hdepth, ?_⟩)
    · dsimp only
      omega
    · dsimp only
      omega
    · simp only [elements]
      omega
  · exact hcopied (f := Value.bytes) (fun _ => rfl) fun _ => rfl
  · exact hcopied (f := Value.code) (fun _ => rfl) fun _ => rfl
  · exact runs_codec

/-- **A value read from anywhere** moves on, stays in the buffer and nests no deeper than
its levels, with a byte read for every element built. -/
theorem runs_decodeValueAt (levels : Nat) : ∀ {d pos spare : Nat}, d + levels ≤ maxDepth →
    (decodeValueAt bytes levels pos).Runs (watch bytes start) ⟨pos, spare, d⟩ fun r p =>
      Past bytes (pos + 1) spare d r.2 p ∧ depth r.1 ≤ levels ∧ pos + elements r.1 ≤ r.2 := by
  have hvalue : ∀ {levels d pos spare : Nat} {cells : Nat → Traced (List Value × Nat)}, d + levels ≤ maxDepth →
      (∀ l, levels = l + 1 → ∀ pos spare, (cells pos).Runs (watch bytes start) ⟨pos, spare, d + 1⟩ fun r p =>
        Past bytes (pos + 4) (spare + 4) (d + 1) r.2 p ∧ depthAll r.1 ≤ l ∧ pos + 4 + elementsAll r.1 ≤ r.2) →
      Logged.Runs (watch bytes start) (do
        let tag ← byte bytes pos "unexpected end (tag)"
        let r ← decodeContent bytes levels cells tag (pos + 1)
        Logged.event (.build 1)
        return r) ⟨pos, spare, d⟩ fun r p =>
          Past bytes (pos + 1) spare d r.2 p ∧ depth r.1 ≤ levels ∧ pos + elements r.1 ≤ r.2 := by
    intro levels d pos spare cells hd hcells
    refine runs_byte.bind fun tag p ⟨hle, hp⟩ => ?_
    subst hp
    refine (runs_decodeContent hd hcells).bind fun r ⟨p, s, e⟩ ⟨hpast, hdepth, helems⟩ => ?_
    obtain ⟨hnext, rfl, hle', hwithin, hspare⟩ := hpast
    dsimp only at hnext hle' hwithin hspare ⊢
    refine .event (allowed_build (by omega)) (.pure ⟨⟨hnext, rfl, hle', hwithin, ?_⟩, hdepth, by omega⟩)
    dsimp only
    omega
  induction levels with
  | zero => exact fun hd => hvalue hd fun l hl => absurd hl (Nat.succ_ne_zero l).symm
  | succ levels ih =>
    intro d pos spare hd
    refine hvalue hd fun l hl pos spare => ?_
    obtain rfl := Nat.succ.inj hl
    refine runs_decodeCells (fun pos spare hpos => (ih (by omega)).mono fun r p ⟨hpast, hrest⟩ => ?_) pos spare
    exact ⟨⟨hpast.next, hpast.depth, (Nat.le_succ _).trans hpast.le, hpast.within, hpast.spare⟩, hrest⟩

theorem runs_decodeTuple (pos : Nat) : (decodeTuple bytes pos).Runs (watch bytes start) ⟨pos, spare, 0⟩ fun r p =>
    Past bytes (pos + 4) (spare + 4) 0 r.2 p ∧ depthAll r.1.cells ≤ maxDepth ∧ pos + 4 + elementsAll r.1.cells ≤ r.2 := by
  refine (runs_decodeCells (fun pos spare _ => ?_) pos spare).bind fun ⟨cells, next⟩ p h => .pure h
  refine (runs_decodeValueAt maxDepth (by omega)).mono fun r p ⟨hpast, hrest⟩ => ?_
  exact ⟨⟨hpast.next, hpast.depth, (Nat.le_succ _).trans hpast.le, hpast.within, hpast.spare⟩, hrest⟩

theorem runs_readVersion : (readVersion bytes).Runs (watch bytes start) ⟨0, spare, d⟩ fun r p =>
    r = 1 ∧ p = ⟨1, spare + 1, d⟩ := by
  refine runs_byte.bind fun v p ⟨_, hp⟩ => ?_
  split_ifs
  · exact .pure ⟨rfl, hp⟩
  · exact runs_codec

theorem runs_decodeMessage : (decodeMessage bytes).Runs (watch bytes start) ⟨0, 0, 0⟩ fun m p =>
    p.pos = bytes.length ∧ depthAll m.body.cells ≤ maxDepth ∧ elementsAll m.body.cells ≤ bytes.length := by
  refine runs_readVersion.bind fun pos p ⟨hpos, hp⟩ => ?_
  subst hpos hp
  refine (runs_readU32.failAs ⟨_, rfl⟩).bind fun ⟨inbox, next⟩ p ⟨hnext, _, hp⟩ => ?_
  dsimp only at hnext ⊢
  subst hnext hp
  refine (runs_decodeTuple _).bind fun ⟨body, last⟩ p ⟨hpast, hdepth, helems⟩ => ?_
  have hlast := hpast.next
  dsimp only at hlast hdepth helems ⊢
  split_ifs with hend
  · exact runs_codec
  · exact .pure ⟨by omega, hdepth, by show elementsAll body.cells ≤ _; omega⟩

theorem runs_decodeColumn (pos : Nat) : (decodeColumn bytes pos).Runs (watch bytes start) ⟨pos, spare, d⟩ fun r p =>
    Past bytes (pos + 1) spare d r.2 p := by
  refine runs_byte.bind fun tag p ⟨hle, hp⟩ => ?_
  subst hp
  cases hty : tyFromTag tag with
  | error e =>
    refine .fail ?_
    unfold tyFromTag at hty
    split_ifs at hty
    exact ⟨_, (Except.error.inj hty).symm⟩
  | ok ty =>
    refine (runs_readCounted "column name").bind fun ⟨bs, next⟩ p ⟨hnext, hle', hp⟩ => ?_
    dsimp only at hnext hle' hp ⊢
    subst hp
    cases String.fromUTF8? ⟨bs.toArray⟩ with
    | none => exact runs_codec
    | some name =>
      refine .event (allowed_build (by omega)) (.pure ⟨rfl, rfl, ?_, hle', ?_⟩)
      · dsimp only
        omega
      · dsimp only
        omega

theorem runs_decodeColumns (n : Nat) : ∀ {pos spare : Nat}, pos ≤ bytes.length →
    (decodeColumns bytes n pos).Runs (watch bytes start) ⟨pos, spare, d⟩ fun r p =>
      Past bytes pos spare d r.2 p ∧ pos + r.1.length ≤ r.2 := by
  induction n with
  | zero => exact fun hpos => .pure ⟨⟨rfl, rfl, le_rfl, hpos, le_rfl⟩, le_rfl⟩
  | succ n ih =>
    intro pos spare hpos
    refine (runs_decodeColumn pos).bind fun ⟨c, next⟩ ⟨p, s, e⟩ ⟨hnext, hdep, hle, hwithin, hspare⟩ => ?_
    dsimp only at hnext hdep hle hwithin hspare ⊢
    subst hnext hdep
    refine (ih hwithin).bind fun ⟨cs, last⟩ p' ⟨hpast, hlen⟩ => .pure ⟨?_, ?_⟩
    · exact ⟨hpast.next, hpast.depth, (Nat.le_of_succ_le hle).trans hpast.le, hpast.within, hspare.trans hpast.spare⟩
    · dsimp only at hlen ⊢
      rw [List.length_cons]
      omega

theorem runs_decodeSchema : (decodeSchema bytes).Runs (watch bytes start) ⟨0, 0, 0⟩ fun s p =>
    p.pos = bytes.length ∧ s.columns.length ≤ bytes.length := by
  refine runs_readVersion.bind fun pos p ⟨hpos, hp⟩ => ?_
  subst hpos hp
  refine runs_readU32.bind fun ⟨ncols, next⟩ p ⟨hnext, hle, hp⟩ => ?_
  dsimp only at hnext ⊢
  subst hnext hp
  refine .event (allowed_reserve ncols) ((runs_decodeColumns ncols hle).bind fun ⟨cs, last⟩ p ⟨hpast, hlen⟩ => ?_)
  have hlast := hpast.next
  dsimp only at hlast hlen ⊢
  split_ifs with hend
  · exact runs_codec
  · exact .pure ⟨by omega, by show cs.length ≤ _; omega⟩

end Runs

end Traced

/-! ## Any bytes -/

/-- A log of a buffer's reading: nothing read past its end, no room made for more elements
than there are bytes left, and at no time more tuples gone into than the limit or more
elements built than bytes read. -/
structure Harmless (bytes : List UInt8) (es : List Event) : Prop where
  reads : ∀ pos len, .read pos len ∈ es → pos + len ≤ bytes.length
  reserves : ∀ n pos, .reserve n pos ∈ es → n ≤ bytes.length - pos
  nesting : ∀ earlier, earlier <:+ es → nesting earlier ≤ maxDepth
  built : ∀ earlier, earlier <:+ es → built earlier ≤ bytesRead earlier

theorem Kept.harmless {bytes : List UInt8} {start : Nat} : ∀ {es : List Event}, Kept bytes start es → Harmless bytes es := by
  intro es
  induction es with
  | nil =>
    refine fun _ => ⟨nofun, nofun, fun earlier h => ?_, fun earlier h => ?_⟩
    · rw [List.suffix_nil.1 h]
      exact Nat.zero_le _
    · rw [List.suffix_nil.1 h]
      exact le_rfl
  | cons e es ih =>
    rintro ⟨hk, hallowed⟩
    have h := ih hk
    have hdepth := h.nesting es List.suffix_rfl
    have hcount := h.built es List.suffix_rfl
    refine ⟨fun pos len hmem => ?_, fun n pos hmem => ?_, fun earlier hsuf => ?_, fun earlier hsuf => ?_⟩
    · rcases List.mem_cons.1 hmem with rfl | hmem
      · exact hallowed.2
      · exact h.reads pos len hmem
    · rcases List.mem_cons.1 hmem with rfl | hmem
      · exact hallowed.2
      · exact h.reserves n pos hmem
    · rcases List.suffix_cons_iff.1 hsuf with rfl | hsuf
      · cases e with
        | nest => exact hallowed
        | leave => exact (Nat.sub_le _ _).trans hdepth
        | read pos len | reserve n pos | build n => exact hdepth
      · exact h.nesting earlier hsuf
    · rcases List.suffix_cons_iff.1 hsuf with rfl | hsuf
      · cases e with
        | build n => exact hallowed
        | read pos len => exact hcount.trans (Nat.le_add_right _ _)
        | reserve n pos | nest | leave => exact hcount
      · exact h.built earlier hsuf

/-- A decoder ends with something of which this holds, or with a codec error. -/
def Ends {α : Type} (r : Result α) (Q : α → Prop) : Prop :=
  match r with
  | .ok a => Q a
  | .error e => ∃ msg, e = .codec msg

/-- A logged decoder that comes to what the decoder does, harmlessly, and with something of
which this holds with the number of bytes read. -/
def Bounded {α : Type} (bytes : List UInt8) (x : Traced α) (r : Result α) (Q : α → Nat → Prop) : Prop :=
  (x []).1 = r ∧ Harmless bytes (x []).2 ∧ Ends r fun a => Q a (bytesRead (x []).2)

theorem bounded_of_runs {α : Type} {bytes : List UInt8} {start : Nat} {x : Traced α} {r : Result α}
    {Q : α → Place → Prop} {P : α → Nat → Prop} (hx : x.Agrees r) (hruns : x.Runs (watch bytes start) ⟨start, 0, 0⟩ Q)
    (hP : ∀ a p n, Q a p → start + n = p.pos → P a n) : Bounded bytes x r P := by
  obtain ⟨hkept, hres⟩ := hruns [] trivial ⟨rfl, le_rfl, rfl⟩
  rw [hx []] at hres
  refine ⟨hx [], Kept.harmless hkept, ?_⟩
  cases r with
  | ok a =>
    obtain ⟨p, hat, hq⟩ := hres
    exact hP a p _ hq hat.1
  | error e => exact hres

/-- **Hostile bytes.** On any bytes and from any offset the decoders end with what they read or
a codec error, and on the way do no harm: a value or a tuple ends strictly after where it
starts and within the buffer, where the last byte read ends, nests no deeper than the limit
and has no more elements than the bytes it took; a message or a schema takes every byte. -/
theorem hostile_wire (bytes : List UInt8) (start : Nat) :
    Bounded bytes (Traced.decodeValue bytes start) (decodeValue bytes start) (fun (v, next) n =>
      start < next ∧ next ≤ bytes.length ∧ next = start + n ∧ depth v ≤ maxDepth ∧ elements v ≤ n) ∧
    Bounded bytes (Traced.decodeTuple bytes start) (decodeTuple bytes start) (fun (t, next) n =>
      start < next ∧ next ≤ bytes.length ∧ next = start + n ∧ depthAll t.cells ≤ maxDepth ∧
        elementsAll t.cells ≤ n) ∧
    Bounded bytes (Traced.decodeMessage bytes) (decodeMessage bytes) (fun m n =>
      n = bytes.length ∧ depthAll m.body.cells ≤ maxDepth ∧ elementsAll m.body.cells ≤ n) ∧
    Bounded bytes (Traced.decodeSchema bytes) (decodeSchema bytes) (fun s n =>
      n = bytes.length ∧ s.columns.length ≤ n) := by
  refine ⟨?_, ?_, ?_, ?_⟩
  · refine bounded_of_runs (Traced.agrees_decodeValueAt maxDepth start)
      (Traced.runs_decodeValueAt maxDepth (by omega)) ?_
    rintro ⟨v, next⟩ p n ⟨⟨hnext, -, hle, hwithin, -⟩, hdepth, helems⟩ hread
    dsimp only at hnext helems ⊢
    exact ⟨by omega, by omega, by omega, hdepth, by omega⟩
  · refine bounded_of_runs (Traced.agrees_decodeTuple start) (Traced.runs_decodeTuple start) ?_
    rintro ⟨t, next⟩ p n ⟨⟨hnext, -, hle, hwithin, -⟩, hdepth, helems⟩ hread
    dsimp only at hnext helems ⊢
    exact ⟨by omega, by omega, by omega, hdepth, by omega⟩
  · refine bounded_of_runs Traced.agrees_decodeMessage Traced.runs_decodeMessage ?_
    rintro m p n ⟨hend, hdepth, helems⟩ hread
    exact ⟨by omega, hdepth, by omega⟩
  · refine bounded_of_runs Traced.agrees_decodeSchema Traced.runs_decodeSchema ?_
    rintro s p n ⟨hend, hcols⟩ hread
    exact ⟨by omega, by omega⟩

end Wire

end Grmpl

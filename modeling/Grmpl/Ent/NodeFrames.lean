import Grmpl.Core.Wire

/-!
# Node frames

A node is stored as a frame: a version byte, its tag, the keys it refers to behind a count, and
its payload, which starts with a count of its own. The keys come first, so that a frame can be
followed by someone who cannot read its payload.

* `decodeHeader`, `refsOf`, `checkFrame`: as much of a frame as needs no type.
* `encodeFrame`, `decodeHeader_encode`, `checkFrame_encode`: a frame written, and read back.
* `encodeRoot`, `decodeRoot`, `decodeRoot_encode`: the root record.
-/

open Bytes

namespace Grmpl

/-- The content key a node is stored under. -/
abbrev Sha256Digest := List UInt8

/-- The width of a content key. -/
def ckLen : Nat := 32

def nodeFormatVersion : UInt8 := Wire.formatVersion

def tagLeaf : UInt8 := 0
def tagInternal : UInt8 := 1
def tagSplit : UInt8 := 2

def trunc (what : String) : Error := .codec ("granfilade: truncated " ++ what)

/-! ## Reading -/

def checkVersion : Option UInt8 → Result Unit
  | some v =>
      if v = nodeFormatVersion then .ok ()
      else .error (.codec ("granfilade: unsupported node format version " ++ toString v.toNat ++ " (expected "
        ++ toString nodeFormatVersion.toNat ++ "; v" ++ toString nodeFormatVersion.toNat
        ++ " requires a fresh store and has no migrator)"))
  | none => .error (trunc "node version")

/-- So many content keys, one after the other, and the position after them. -/
def readKeys (frame : List UInt8) : Nat → Nat → Result (List Sha256Digest × Nat)
  | 0, pos => .ok ([], pos)
  | n + 1, pos =>
      match slice frame pos ckLen with
      | none => .error (trunc "content key")
      | some ck => do
          let (refs, pos) ← readKeys frame n (pos + ckLen)
          return (ck :: refs, pos)

/-- The tag, the references, and where the payload begins. -/
def decodeHeader (frame : List UInt8) : Result (UInt8 × List Sha256Digest × Nat) := do
  checkVersion frame[0]?
  match frame[1]? with
  | none => .error (trunc "node tag")
  | some tag =>
      match slice frame 2 4 with
      | none => .error (trunc "count")
      | some n => do
          let (refs, pos) ← readKeys frame (ofBE n) 6
          return (tag, refs, pos)

/-- What a frame refers to, whatever its payload. -/
def refsOf (frame : List UInt8) : Result (List Sha256Digest) := do
  let (_, refs, _) ← decodeHeader frame
  return refs

/-- What a frame refers to, where its tag, its count and its references agree. -/
def checkFrame (frame : List UInt8) : Result (List Sha256Digest) := do
  let (tag, refs, pos) ← decodeHeader frame
  match slice frame pos 4 with
  | none => .error (trunc "count")
  | some bs =>
      let count := ofBE bs
      if tag = tagLeaf then .ok refs
      else if tag = tagInternal then
        if count + 1 = refs.length then .ok refs else .error (.codec "granfilade: malformed internal node")
      else if tag = tagSplit then
        if refs.length = 2 then .ok refs else .error (.codec "granfilade: malformed split node")
      else .error (.codec ("granfilade: unknown node tag " ++ toString tag.toNat))

/-- So many slots of a root record. -/
def readSlots (bytes : List UInt8) : Nat → Nat → Result (List (Option Sha256Digest))
  | 0, _ => .ok []
  | n + 1, pos =>
      match bytes[pos]? with
      | some 0 => do
          let slots ← readSlots bytes n (pos + 1)
          return none :: slots
      | some 1 =>
          match slice bytes (pos + 1) ckLen with
          | none => .error (trunc "root record")
          | some ck => do
              let slots ← readSlots bytes n (pos + 1 + ckLen)
              return some ck :: slots
      | _ => .error (trunc "root record")

def decodeRoot (bytes : List UInt8) : Result (List (Option Sha256Digest)) := do
  checkVersion bytes[0]?
  match bytes[1]? with
  | none => .error (trunc "root record")
  | some n => readSlots bytes n.toNat 2

/-! ## Writing -/

/-- A frame of a tag, references and a payload. -/
def encodeFrame (tag : UInt8) (refs : List Sha256Digest) (payload : List UInt8) : List UInt8 :=
  nodeFormatVersion :: tag :: (toBE 4 refs.length ++ (refs.flatten ++ payload))

def encodeSlot : Option Sha256Digest → List UInt8
  | none => [0]
  | some ck => 1 :: ck

def encodeRoot (slots : List (Option Sha256Digest)) : List UInt8 :=
  nodeFormatVersion :: UInt8.ofNat slots.length :: slots.flatMap encodeSlot

/-! ## What was written is read back -/

variable {frame : List UInt8} {tag : UInt8} {refs : List Sha256Digest} {payload : List UInt8}

theorem readKeys_of_holds {pos : Nat} (hlen : ∀ r ∈ refs, r.length = ckLen) (h : Holds frame pos refs.flatten) :
    readKeys frame refs.length pos = .ok (refs, pos + refs.flatten.length) := by
  induction refs generalizing pos with
  | nil => rfl
  | cons r refs ih =>
    have hr : r.length = ckLen := hlen r (by simp)
    rw [List.flatten_cons] at h
    have htail := h.right
    rw [hr] at htail
    have hslice : slice frame pos ckLen = some r := by
      have := h.left.slice
      rwa [hr] at this
    rw [List.length_cons, readKeys, hslice, ih (fun x hx => hlen x (List.mem_cons_of_mem _ hx)) htail]
    simp [bind, Except.bind, pure, Except.pure, hr, Nat.add_assoc]

/-- **A header is read back**, up to where the payload begins. -/
theorem decodeHeader_encode (hlen : ∀ r ∈ refs, r.length = ckLen) (hmany : refs.length < 256 ^ 4) :
    decodeHeader (encodeFrame tag refs payload) = .ok (tag, refs, 6 + refs.flatten.length) := by
  have hwhole : Holds (encodeFrame tag refs payload) 2 (toBE 4 refs.length ++ (refs.flatten ++ payload)) :=
    ⟨[nodeFormatVersion, tag], [], by simp [encodeFrame], rfl⟩
  have hcount : slice (encodeFrame tag refs payload) 2 4 = some (toBE 4 refs.length) := by
    simpa using hwhole.left.slice
  have hkeys : Holds (encodeFrame tag refs payload) 6 refs.flatten := by
    simpa using hwhole.right.left
  unfold decodeHeader
  rw [hcount]
  have hread := readKeys_of_holds hlen hkeys
  simp only [ofBE_toBE 4 _ hmany, hread]
  rfl

/-- A tag takes as many references as its count says. -/
def TagAgrees (tag : UInt8) (refs : List Sha256Digest) (count : Nat) : Prop :=
  tag = tagLeaf ∨ (tag = tagInternal ∧ count + 1 = refs.length) ∨ (tag = tagSplit ∧ refs.length = 2)

/-- **A frame whose tag, count and references agree passes.** -/
theorem checkFrame_encode {count : Nat} {rest : List UInt8} (hlen : ∀ r ∈ refs, r.length = ckLen)
    (hmany : refs.length < 256 ^ 4) (hcount : count < 256 ^ 4) (h : TagAgrees tag refs count) :
    checkFrame (encodeFrame tag refs (toBE 4 count ++ rest)) = .ok refs := by
  have hread : slice (encodeFrame tag refs (toBE 4 count ++ rest)) (6 + refs.flatten.length) 4
      = some (toBE 4 count) := by
    have hholds : Holds (encodeFrame tag refs (toBE 4 count ++ rest)) (6 + refs.flatten.length) (toBE 4 count) :=
      ⟨nodeFormatVersion :: tag :: (toBE 4 refs.length ++ refs.flatten), rest, by simp [encodeFrame], by simp; omega⟩
    simpa using hholds.slice
  rw [checkFrame, decodeHeader_encode hlen hmany]
  simp only [bind, Except.bind, hread, ofBE_toBE 4 _ hcount]
  rcases h with rfl | ⟨rfl, hn⟩ | ⟨rfl, hn⟩
  · rfl
  · rw [if_neg (by decide), if_pos rfl, if_pos hn]
  · rw [if_neg (by decide), if_neg (by decide), if_pos rfl, if_pos hn]

/-- A frame that passes has the references of its header. -/
theorem refsOf_of_checkFrame (h : checkFrame frame = .ok refs) : refsOf frame = .ok refs := by
  unfold checkFrame at h
  unfold refsOf
  cases hhead : decodeHeader frame with
  | error e =>
    rw [hhead] at h
    cases h
  | ok p =>
    obtain ⟨tag, refs', pos⟩ := p
    rw [hhead] at h
    simp only [bind, Except.bind] at h ⊢
    split at h
    · cases h
    · split_ifs at h <;> cases h <;> rfl

theorem readSlots_of_holds {bytes : List UInt8} {slots : List (Option Sha256Digest)} {pos : Nat}
    (hlen : ∀ ck, some ck ∈ slots → ck.length = ckLen) (h : Holds bytes pos (slots.flatMap encodeSlot)) :
    readSlots bytes slots.length pos = .ok slots := by
  induction slots generalizing pos with
  | nil => rfl
  | cons slot slots ih =>
    have hrest := fun ck hck => hlen ck (List.mem_cons_of_mem _ hck)
    rw [List.flatMap_cons] at h
    cases slot with
    | none =>
      have htail : readSlots bytes slots.length (pos + 1) = .ok slots := ih hrest h.right
      rw [List.length_cons, readSlots, h.left.get]
      simp only [htail]
      rfl
    | some ck =>
      have hck : ck.length = ckLen := hlen ck (by simp)
      have hcons : Holds bytes pos (1 :: ck) := h.left
      have hslice : slice bytes (pos + 1) ckLen = some ck := by
        have := hcons.tail.slice
        rwa [hck] at this
      have htail : Holds bytes (pos + 1 + ckLen) (slots.flatMap encodeSlot) := by
        have := h.right
        rwa [encodeSlot, List.length_cons, hck, Nat.add_comm ckLen, ← Nat.add_assoc] at this
      rw [List.length_cons, readSlots, hcons.get]
      simp only [hslice, ih hrest htail]
      rfl

/-- **A root record is read back**, of no more slots than its count byte holds. -/
theorem decodeRoot_encode {slots : List (Option Sha256Digest)} (hlen : ∀ ck, some ck ∈ slots → ck.length = ckLen)
    (hmany : slots.length < 256) : decodeRoot (encodeRoot slots) = .ok slots := by
  have hholds : Holds (encodeRoot slots) 2 (slots.flatMap encodeSlot) :=
    ⟨[nodeFormatVersion, UInt8.ofNat slots.length], [], by simp [encodeRoot], rfl⟩
  have hread := readSlots_of_holds hlen hholds
  have hcount : (UInt8.ofNat slots.length).toNat = slots.length := by
    rw [UInt8.toNat_ofNat']
    omega
  show (do
    checkVersion (some nodeFormatVersion)
    readSlots (encodeRoot slots) (UInt8.ofNat slots.length).toNat 2) = _
  rw [hcount, hread]
  rfl

end Grmpl

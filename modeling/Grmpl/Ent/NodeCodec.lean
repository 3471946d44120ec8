import Grmpl.Ent.Persist
import Grmpl.Ent.Leaf

/-!
# Nodes of a tree, as frames

A frame read as a node of one kind of tree. It is data from disk, so every count in it is
checked against its bytes and its sums before a node is built on it: the node built on them
adds up the rows, the reserved keys and the measures of its parts, and would panic on a sum
past a word or on stepping a key that does not step.

* `TreeKind`: how a tree's keys, values and measures are stored, and how the measures go together.
* `decodeNode`, `frame`, `reframe`: a frame read as a node, a node framed, and both in turn.
* `hostile_frame`: any bytes are refused with a codec error or read as a node whose counts and
  sums hold, with no harm done on the way, and what is read is read back from its own frame.
-/

open Bytes

namespace Grmpl

/-- A tree not read yet: the key of its frame, its displacement, rows, reserved keys and measure. -/
structure Stub (M : Type) where
  ck : Sha256Digest
  dsp : Dsp
  size : Nat
  reserved : Nat
  measure : M

/-- A node's contents: items, children between separators, or two children of a split. -/
inductive Contents (K V M : Type)
  | leaf (items : List (Item K V))
  | internal (keys : List K) (children : List (Stub M))
  | split (col : Nat) (pivot : K) (lo hi : Stub M)

/-- A node read from a frame, with what is summed up over its contents. -/
structure FrameNode (K V M : Type) where
  contents : Contents K V M
  size : Nat
  reserved : Nat
  measure : M

/-- A kind of tree. A measure of a run or a hole is nothing where taking it would panic: it does
not for keys that step. Keys and measures link to nothing. -/
structure TreeKind (K V M : Type) where
  key : Persist K
  val : Persist V
  measure : Persist M
  runs : Bool
  empty : M
  entry : K → V → M
  combine : M → M → M
  displace : M → Dsp → M
  run : K → K → Nat → V → Option M
  hole : K → K → Nat → Option M
  key_least : 0 < key.least
  run_some : ∀ first stride n v, runs = true → ∃ m, run first stride n v = some m
  hole_some : ∀ first stride n, runs = true → ∃ m, hole first stride n = some m
  key_plain : ∀ k, (key.encode k).refs = []
  measure_plain : ∀ m, (measure.encode m).refs = []

variable {K V M : Type}

/-! ## What a node adds up -/

/-- Rows and reserved keys, item by item or child by child. -/
def Contents.parts : Contents K V M → List (Nat × Nat)
  | .leaf items => items.map fun it => (it.rows, it.reserved)
  | .internal _ children => children.map fun c => (c.size, c.reserved)
  | .split _ _ lo hi => [(lo.size, lo.reserved), (hi.size, hi.reserved)]

/-- Rows and reserved keys summed up, each in a word. -/
def addUp (parts : List (Nat × Nat)) : Option (Nat × Nat) :=
  parts.foldlM (fun total part =>
    if total.1 + part.1 < 2 ^ 64 ∧ total.2 + part.2 < 2 ^ 64 then some (total.1 + part.1, total.2 + part.2)
    else none) (0, 0)

namespace TreeKind

variable (T : TreeKind K V M)

def itemMeasure : Item K V → Option M
  | .one k v => some (T.entry k v)
  | .run s v => T.run s.first s.stride s.n v
  | .hole s => T.hole s.first s.stride s.n

/-- A child's measure as its parent sees it. -/
def childMeasure (c : Stub M) : M := if c.dsp = 0 then c.measure else T.displace c.measure c.dsp

def measured : Contents K V M → Option M
  | .leaf items => items.foldlM (fun m it => (T.itemMeasure it).map (T.combine m)) T.empty
  | .internal _ children => some (children.foldl (fun m c => T.combine m (T.childMeasure c)) T.empty)
  | .split _ _ lo hi => some (T.combine (T.combine T.empty (T.childMeasure lo)) (T.childMeasure hi))

/-- A node built on contents: it panics where its sums do not fit or a key is stepped that does
not step. -/
def build (c : Contents K V M) : Wire.Traced (FrameNode K V M) :=
  match addUp c.parts, T.measured c with
  | some (size, reserved), some m => return ⟨c, size, reserved, m⟩
  | _, _ => panicked "a node whose parts do not add up"

/-! ## The parts of a frame -/

/-- A run's or a hole's count, first key and stride, of a key type that steps. -/
def span : Persist (Span K) :=
  ((Persist.size.pair (T.key.pair T.key)).map (fun x => Span.mk x.2.1 x.2.2 x.1)
    (fun s => (s.n, s.first, s.stride)) fun _ => rfl).check
    (fun s => T.runs && s.n != 0)
    fun s => "granfilade: a span of " ++ toString s.n ++ " keys its key type cannot hold"

def itemTag : Item K V → UInt8
  | .one _ _ => 0
  | .run _ _ => 1
  | .hole _ => 2

def asOne : Item K V → Option (K × V)
  | .one k v => some (k, v)
  | _ => none

def asRun : Item K V → Option (Span K × V)
  | .run s v => some (s, v)
  | _ => none

def asHole : Item K V → Option (Span K)
  | .hole s => some s
  | _ => none

/-- What follows an item's tag. -/
def itemArm (tag : UInt8) : Option (Persist (Item K V)) :=
  if tag = 0 then some ((T.key.pair T.val).arm (fun x => .one x.1 x.2) asOne fun _ => rfl)
  else if tag = 1 then some ((T.span.pair T.val).arm (fun x => .run x.1 x.2) asRun fun _ => rfl)
  else if tag = 2 then some (T.span.arm .hole asHole fun _ => rfl)
  else none

theorem itemTag_of_arm (tag : UInt8) (q : Persist (Item K V)) (harm : T.itemArm tag = some q) (it : Item K V)
    (hit : q.Read it) : itemTag it = tag := by
  unfold itemArm at harm
  split_ifs at harm with h₀ h₁ h₂
  · cases harm
    obtain ⟨_, -, rfl⟩ := Persist.read_arm hit
    exact h₀.symm
  · cases harm
    obtain ⟨_, -, rfl⟩ := Persist.read_arm hit
    exact h₁.symm
  · cases harm
    obtain ⟨_, -, rfl⟩ := Persist.read_arm hit
    exact h₂.symm

def item : Persist (Item K V) :=
  Persist.byte.select T.itemArm itemTag (fun t => "granfilade: unknown leaf item tag " ++ toString t.toNat)
    T.itemTag_of_arm

end TreeKind

/-- A linked tree without its key: its displacement, rows, reserved keys and measure. -/
def Persist.stub (measure : Persist M) (ck : Sha256Digest) : Persist (Stub M) :=
  (i64.pair (size.pair (size.pair measure))).map (fun x => ⟨ck, x.1, x.2.1, x.2.2.1, x.2.2.2⟩)
    (fun c => (c.dsp, c.size, c.reserved, c.measure)) fun _ => rfl

theorem Persist.read_stub {measure : Persist M} {ck : Sha256Digest} {c : Stub M} (h : (measure.stub ck).Read c) :
    c.ck = ck := by
  obtain ⟨_, -, rfl⟩ := read_map h
  rfl

/-- A linked tree: nothing, or the frame's next reference and what is known of the tree there. -/
def Persist.link (measure : Persist M) : Persist (Option (Stub M)) :=
  (reference.select (fun ck => some (measure.stub ck)) Stub.ck (fun _ => "") (by
    intro ck q hq c hc
    cases hq
    exact read_stub hc)).flagged fun b => "granfilade: bad link flag " ++ toString b.toNat

/-! ## Reading -/

/-- So many content keys, one after the other, and the position after them. -/
def Wire.Traced.readKeys (frame : List UInt8) : Nat → Nat → Wire.Traced (List Sha256Digest × Nat)
  | 0, pos => return ([], pos)
  | n + 1, pos =>
      match slice frame pos ckLen with
      | none => Logged.fail (trunc "content key")
      | some ck => do
          Logged.event (.read pos ckLen)
          Logged.event (.build 1)
          let (refs, pos) ← readKeys frame n (pos + ckLen)
          return (ck :: refs, pos)

/-- The references, with room made for no more of them than there are keys' worth of bytes. -/
def Wire.Traced.readRefs (frame : List UInt8) : Wire.Traced (List Sha256Digest × Nat) :=
  match slice frame 2 4 with
  | none => Logged.fail (trunc "count")
  | some n => do
      Logged.event (.read 2 4)
      Logged.event (.reserve (min (ofBE n) ((frame.length - 6) / ckLen)) 6)
      readKeys frame (ofBE n) 6

/-- The header, as `decodeHeader` reads it. -/
def Wire.Traced.header (frame : List UInt8) : Wire.Traced (UInt8 × List Sha256Digest × Nat) := do
  match frame[0]? with
  | none => Logged.fail (trunc "node version")
  | some v => do
      Logged.event (.read 0 1)
      match checkVersion (some v) with
      | .error e => Logged.fail e
      | .ok () => do
          match frame[1]? with
          | none => Logged.fail (trunc "node tag")
          | some tag => do
              Logged.event (.read 1 1)
              let (refs, pos) ← readRefs frame
              return (tag, refs, pos)

namespace TreeKind

variable (T : TreeKind K V M)

/-- Rows and reserved keys that sum up, as those of every node built do. -/
def checkSums (parts : List (Nat × Nat)) : Wire.Traced Unit :=
  if (addUp parts).isSome then return () else Wire.Traced.codec "granfilade: a node holds more keys than there are"

def decodeLeaf (s : FrameBytes) (count : Nat) (d : Dec) : Wire.Traced (FrameNode K V M × Dec) := do
  Logged.event (.reserve (Wire.capacity count s.bytes d.pos) d.pos)
  let (items, d) ← T.item.times s count d
  checkSums (items.map fun it => (it.rows, it.reserved))
  if d.nextRef ≠ s.refs.length then Wire.Traced.codec "granfilade: leaf links disagree with its references"
  else do
    let n ← T.build (.leaf items)
    return (n, d)

def decodeInternal (s : FrameBytes) (count : Nat) (d : Dec) : Wire.Traced (FrameNode K V M × Dec) := do
  Logged.event (.reserve (Wire.capacity count s.bytes d.pos) d.pos)
  let (keys, d) ← T.key.times s count d
  if keys.length + 1 ≠ s.refs.length then Wire.Traced.codec "granfilade: malformed internal node"
  else do
    let (children, d) ← Persist.each T.measure.stub s s.refs d
    checkSums (children.map fun c => (c.size, c.reserved))
    let n ← T.build (.internal keys children)
    return (n, d)

/-- A split's count is the column it divides on. -/
def decodeSplit (s : FrameBytes) (count : Nat) (d : Dec) : Wire.Traced (FrameNode K V M × Dec) := do
  let (pivot, d) ← T.key.decode s d
  match s.refs with
  | [lo, hi] => do
      let (lo, d) ← (T.measure.stub lo).decode s d
      let (hi, d) ← (T.measure.stub hi).decode s d
      checkSums [(lo.size, lo.reserved), (hi.size, hi.reserved)]
      let n ← T.build (.split count pivot lo hi)
      return (n, d)
  | _ => Wire.Traced.codec "granfilade: malformed split node"

def decodePayload (s : FrameBytes) (tag : UInt8) (count : Nat) (d : Dec) : Wire.Traced (FrameNode K V M × Dec) :=
  if tag = tagLeaf then T.decodeLeaf s count d
  else if tag = tagInternal then T.decodeInternal s count d
  else if tag = tagSplit then T.decodeSplit s count d
  else Wire.Traced.codec ("granfilade: unknown node tag " ++ toString tag.toNat)

/-- A frame as a node, or why it is none. -/
def decodeNode (bytes : List UInt8) : Wire.Traced (FrameNode K V M) := do
  let (tag, refs, pos) ← Wire.Traced.header bytes
  let (count, d) ← Persist.u32.decode ⟨bytes, refs⟩ ⟨pos, 0⟩
  let (n, d) ← T.decodePayload ⟨bytes, refs⟩ tag count d
  if d.pos ≠ bytes.length then Wire.Traced.codec "granfilade: trailing bytes after node" else return n

/-! ## Writing -/

/-- A node's payload and references, the children's keys before the rest. -/
def encodeContents : Contents K V M → Enc
  | .leaf items => Persist.u32.encode items.length ++ T.item.all items
  | .internal keys children =>
      ⟨[], children.map Stub.ck⟩ ++ (Persist.u32.encode keys.length ++
        (T.key.all keys ++ Persist.eachOf T.measure.stub Stub.ck children))
  | .split col pivot lo hi =>
      ⟨[], [lo.ck, hi.ck]⟩ ++ (Persist.u32.encode col ++
        (T.key.encode pivot ++ ((T.measure.stub lo.ck).encode lo ++ (T.measure.stub hi.ck).encode hi)))

/-- A node framed. Its children and links come back under their keys, so it is one frame. -/
def frame (n : FrameNode K V M) : List UInt8 :=
  let e := T.encodeContents n.contents
  match n.contents with
  | .leaf _ => encodeFrame tagLeaf e.refs e.buf
  | .internal _ _ => encodeFrame tagInternal e.refs e.buf
  | .split _ _ _ _ => encodeFrame tagSplit e.refs e.buf

/-- A frame read as a node, and the node framed again. -/
def reframe (bytes : List UInt8) : Result (List UInt8) := do
  let n ← (T.decodeNode bytes []).1
  return T.frame n

end TreeKind

/-! ## The header -/

namespace Wire.Traced

variable {frame : List UInt8}

theorem agrees_readKeys : ∀ (n pos : Nat), (readKeys frame n pos).Agrees (Grmpl.readKeys frame n pos) := by
  intro n
  induction n with
  | zero => exact fun pos => .pure _
  | succ n ih =>
    intro pos
    unfold readKeys Grmpl.readKeys
    cases slice frame pos ckLen with
    | none => exact .fail _
    | some ck => exact .event (.event ((ih _).bind fun _ _ => .pure _))

/-- It reads what `decodeHeader` reads. -/
theorem agrees_header : (header frame).Agrees (decodeHeader frame) := by
  unfold header decodeHeader readRefs
  cases frame[0]? with
  | none => exact .fail _
  | some v =>
    refine .event ?_
    cases checkVersion (some v) with
    | error e => exact .fail _
    | ok u =>
      cases frame[1]? with
      | none => exact .fail _
      | some tag =>
        refine .event ?_
        cases slice frame 2 4 with
        | none => exact .fail _
        | some n => exact (Logged.Agrees.event (.event (agrees_readKeys _ _))).bind fun _ _ => .pure _

/-- What came of reading references: they are keys, and lie before the place reached. -/
structure Listed (frame : List UInt8) (refs : List Sha256Digest) (pos : Nat) (p : Place) : Prop where
  here : p.pos = pos
  depth : p.depth = 0
  within : pos ≤ frame.length
  widths : ∀ r ∈ refs, r.length = ckLen

theorem runs_readKeys : ∀ (n pos spare : Nat), pos ≤ frame.length →
    (readKeys frame n pos).Runs (watch frame 0) ⟨pos, spare, 0⟩ fun r p =>
      Listed frame r.1 r.2 p ∧ r.1.length = n := by
  intro n
  induction n with
  | zero => exact fun pos spare h => .pure ⟨⟨rfl, rfl, h, fun _ hr => nomatch hr⟩, rfl⟩
  | succ n ih =>
    intro pos spare hpos
    unfold readKeys
    cases hs : slice frame pos ckLen with
    | none => exact .fail ⟨_, rfl⟩
    | some ck =>
      obtain ⟨hlen, hholds⟩ := slice_eq_some hs
      have hle := hholds.le
      rw [hlen] at hle
      refine .event (allowed_read hle) (.event (allowed_build ?_) ?_)
      · show 1 ≤ spare + ckLen
        unfold ckLen
        omega
      · refine (ih _ _ hle).bind fun ⟨refs, next⟩ p ⟨hlisted, hcount⟩ => .pure ⟨?_, congrArg (· + 1) hcount⟩
        exact ⟨hlisted.here, hlisted.depth, hlisted.within, List.forall_mem_cons.2 ⟨hlen, hlisted.widths⟩⟩

theorem runs_readRefs {spare : Nat} : (readRefs frame).Runs (watch frame 0) ⟨2, spare, 0⟩ fun r p =>
    Listed frame r.1 r.2 p ∧ r.1.length < 256 ^ 4 := by
  unfold readRefs
  cases hs : slice frame 2 4 with
  | none => exact .fail ⟨_, rfl⟩
  | some n =>
    obtain ⟨hlen, hholds⟩ := slice_eq_some hs
    have hle := hholds.le
    rw [hlen] at hle
    have hfew := ofBE_lt n
    rw [hlen] at hfew
    refine .event (allowed_read hle) (.event (allowed_room ?_) ?_)
    · exact (Nat.min_le_right _ _).trans (Nat.div_le_self _ _)
    · exact (runs_readKeys _ _ _ hle).mono fun r p ⟨hlisted, hcount⟩ => ⟨hlisted, by rw [hcount]; exact hfew⟩

theorem runs_header : (header frame).Runs (watch frame 0) ⟨0, 0, 0⟩ fun r p =>
    Listed frame r.2.1 r.2.2 p ∧ r.2.1.length < 256 ^ 4 := by
  unfold header
  cases hv : frame[0]? with
  | none => exact .fail ⟨_, rfl⟩
  | some v =>
    obtain ⟨hlt, -⟩ := List.getElem?_eq_some_iff.1 hv
    refine .event (allowed_read hlt) ?_
    cases hcheck : checkVersion (some v) with
    | error e =>
      simp only [checkVersion] at hcheck
      split_ifs at hcheck
      cases hcheck
      exact .fail ⟨_, rfl⟩
    | ok u =>
      cases htag : frame[1]? with
      | none => exact .fail ⟨_, rfl⟩
      | some tag =>
        obtain ⟨hlt', -⟩ := List.getElem?_eq_some_iff.1 htag
        exact .event (allowed_read hlt') (runs_readRefs.bind fun ⟨refs, pos⟩ p h => .pure h)

end Wire.Traced

/-! ## What a node is built on -/

theorem addUp_eq {parts : List (Nat × Nat)} {rows reserved : Nat} (h : addUp parts = some (rows, reserved)) :
    rows = (parts.map Prod.fst).sum ∧ reserved = (parts.map Prod.snd).sum ∧ rows < 2 ^ 64 ∧ reserved < 2 ^ 64 := by
  -- the sums so far fit, whatever they were to begin with
  have hfold : ∀ (parts : List (Nat × Nat)) (a b : Nat), a < 2 ^ 64 → b < 2 ^ 64 →
      parts.foldlM (fun total part =>
        if total.1 + part.1 < 2 ^ 64 ∧ total.2 + part.2 < 2 ^ 64 then some (total.1 + part.1, total.2 + part.2)
        else none) (a, b) = some (rows, reserved) →
      rows = a + (parts.map Prod.fst).sum ∧ reserved = b + (parts.map Prod.snd).sum ∧ rows < 2 ^ 64 ∧ reserved < 2 ^ 64 := by
    intro parts
    induction parts with
    | nil =>
      intro a b ha hb h
      cases h
      exact ⟨rfl, rfl, ha, hb⟩
    | cons part parts ih =>
      intro a b ha hb h
      rw [List.foldlM_cons] at h
      dsimp only at h
      split_ifs at h with hfit
      · obtain ⟨hrows, hreserved, hlt⟩ := ih _ _ hfit.1 hfit.2 h
        refine ⟨?_, ?_, hlt⟩
        · rw [hrows, List.map_cons, List.sum_cons, Nat.add_assoc]
        · rw [hreserved, List.map_cons, List.sum_cons, Nat.add_assoc]
      · cases h
  have := hfold parts 0 0 (by omega) (by omega) h
  simpa using this

/-- The counts in a node: its items, or its separators and children. -/
def Contents.elements : Contents K V M → Nat
  | .leaf items => items.length
  | .internal keys children => keys.length + children.length
  | .split _ _ _ _ => 2

/-- A node's tag and the count behind its references: items, separators, or a split's column. -/
def Contents.tag : Contents K V M → UInt8
  | .leaf _ => tagLeaf
  | .internal _ _ => tagInternal
  | .split _ _ _ _ => tagSplit

def Contents.count : Contents K V M → Nat
  | .leaf items => items.length
  | .internal keys _ => keys.length
  | .split col _ _ _ => col

namespace TreeKind

variable (T : TreeKind K V M)

/-- A span in an item is of keys that step, and not empty. -/
def Steps : Item K V → Prop
  | .one _ _ => True
  | .run s _ => T.runs = true ∧ s.n ≠ 0
  | .hole s => T.runs = true ∧ s.n ≠ 0

/-- Separators divide children, and spans are of keys that step. -/
def Shaped : Contents K V M → Prop
  | .leaf items => ∀ it ∈ items, T.Steps it
  | .internal keys children => keys.length + 1 = children.length
  | .split _ _ _ _ => True

/-- Contents whose parts were all read from some frame. -/
def Parts : Contents K V M → Prop
  | .leaf items => Persist.u32.Read items.length ∧ ∀ it ∈ items, T.item.Read it
  | .internal keys children =>
      (Persist.u32.Read keys.length ∧ keys.length + 1 = children.length) ∧ (∀ k ∈ keys, T.key.Read k) ∧
        ∀ c ∈ children, (T.measure.stub c.ck).Read c
  | .split col pivot lo hi =>
      (Persist.u32.Read col ∧ T.key.Read pivot) ∧ (T.measure.stub lo.ck).Read lo ∧ (T.measure.stub hi.ck).Read hi

/-- A node whose parts were read, with the sums taken over them. -/
structure Built (n : FrameNode K V M) : Prop where
  parts : T.Parts n.contents
  sums : addUp n.contents.parts = some (n.size, n.reserved)
  measured : T.measured n.contents = some n.measure

variable {T}

theorem stub_plain (T : TreeKind K V M) (ck : Sha256Digest) (c : Stub M) : ((T.measure.stub ck).encode c).refs = [] :=
  T.measure_plain c.measure

theorem read_span {s : Span K} (h : T.span.Read s) : T.runs = true ∧ s.n ≠ 0 := by
  have hok := Persist.read_check h
  simpa using hok

theorem steps_of_read {it : Item K V} (h : T.item.Read it) : T.Steps it := by
  obtain ⟨tag, q, harm, hit⟩ := Persist.read_select h
  unfold itemArm at harm
  split_ifs at harm with h₀ h₁ h₂
  · cases harm
    obtain ⟨_, -, rfl⟩ := Persist.read_arm hit
    trivial
  · cases harm
    obtain ⟨⟨s, v⟩, hread, rfl⟩ := Persist.read_arm hit
    exact read_span (Persist.read_pair hread).1
  · cases harm
    obtain ⟨s, hread, rfl⟩ := Persist.read_arm hit
    exact read_span hread

/-- What steps has a measure. -/
theorem itemMeasure_of_steps {it : Item K V} (h : T.Steps it) : ∃ m, T.itemMeasure it = some m := by
  cases it with
  | one k v => exact ⟨_, rfl⟩
  | run s v => exact T.run_some _ _ _ _ h.1
  | hole s => exact T.hole_some _ _ _ h.1

theorem measured_leaf {items : List (Item K V)} (h : ∀ it ∈ items, T.Steps it) :
    ∃ m, T.measured (.leaf items) = some m := by
  unfold measured
  generalize T.empty = m₀
  induction items generalizing m₀ with
  | nil => exact ⟨m₀, rfl⟩
  | cons it items ih =>
    obtain ⟨m, hm⟩ := itemMeasure_of_steps (h it List.mem_cons_self)
    obtain ⟨m', hm'⟩ := ih (fun it' h' => h it' (List.mem_cons_of_mem _ h')) (T.combine m₀ m)
    refine ⟨m', ?_⟩
    dsimp only at hm' ⊢
    rw [List.foldlM_cons, hm]
    exact hm'

theorem shaped_of_parts {c : Contents K V M} (h : T.Parts c) : T.Shaped c := by
  cases c with
  | leaf items => exact fun it hit => steps_of_read (h.2 it hit)
  | internal keys children => exact h.1.2
  | split col pivot lo hi => trivial

/-- Every measure a node needs is there to be taken. -/
theorem measured_of_parts {c : Contents K V M} (h : T.Parts c) : ∃ m, T.measured c = some m := by
  cases c with
  | leaf items => exact measured_leaf (shaped_of_parts h)
  | internal keys children => exact ⟨_, rfl⟩
  | split col pivot lo hi => exact ⟨_, rfl⟩

/-! ## Reading keeps the rule, and reads what adds up -/

theorem runs_checkSums {bytes : List UInt8} {parts : List (Nat × Nat)} {p : Wire.Place} :
    (checkSums parts).Runs (Wire.watch bytes 0) p fun _ q => q = p ∧ ∃ total, addUp parts = some total := by
  unfold checkSums
  split_ifs with h
  · exact .pure ⟨rfl, Option.isSome_iff_exists.1 h⟩
  · exact Wire.Traced.runs_codec

/-- **Building a node panics nowhere** on parts that were read and add up. -/
theorem runs_build {bytes : List UInt8} {c : Contents K V M} {p : Wire.Place} (hparts : T.Parts c)
    (hsum : ∃ total, addUp c.parts = some total) :
    (T.build c).Runs (Wire.watch bytes 0) p fun n q => q = p ∧ n.contents = c ∧ T.Built n := by
  obtain ⟨⟨size, reserved⟩, hsum⟩ := hsum
  obtain ⟨m, hm⟩ := measured_of_parts hparts
  unfold build
  rw [hsum, hm]
  exact .pure ⟨rfl, rfl, hparts, hsum, hm⟩

variable {s : FrameBytes} {d : Dec} {count spare : Nat}

/-- What reading a payload comes to. -/
def Paid (s : FrameBytes) (d : Dec) (spare : Nat) (T : TreeKind K V M) (r : FrameNode K V M × Dec) (p : Wire.Place) : Prop :=
  Moved s d spare 0 r.2 p ∧ T.Built r.1 ∧ r.1.contents.elements ≤ s.bytes.length ∧
    (T.encodeContents r.1.contents).refs = s.refs

theorem refs_internal (keys : List K) (children : List (Stub M)) :
    (T.encodeContents (.internal keys children)).refs = children.map Stub.ck := by
  have hkeys : (T.key.all keys).refs = [] := Persist.eachOf_plain (fun _ => T.key_plain) keys
  have hchildren : (Persist.eachOf T.measure.stub Stub.ck children).refs = [] := Persist.eachOf_plain (stub_plain T) children
  show children.map Stub.ck ++ ([] ++ ((T.key.all keys).refs ++ (Persist.eachOf T.measure.stub Stub.ck children).refs)) = _
  rw [hkeys, hchildren]
  exact List.append_nil _

theorem refs_split (col : Nat) (pivot : K) (lo hi : Stub M) :
    (T.encodeContents (.split col pivot lo hi)).refs = [lo.ck, hi.ck] := by
  show [lo.ck, hi.ck] ++ ([] ++ ((T.key.encode pivot).refs ++
    (((T.measure.stub lo.ck).encode lo).refs ++ ((T.measure.stub hi.ck).encode hi).refs))) = _
  rw [T.key_plain, stub_plain, stub_plain]
  rfl

theorem runs_decodeLeaf (hcount : Persist.u32.Read count) (hpos : d.pos ≤ s.bytes.length) (hstart : d.nextRef = 0) :
    (T.decodeLeaf s count d).Runs (Wire.watch s.bytes 0) ⟨d.pos, spare, 0⟩ (Paid s d spare T) := by
  have href : d.nextRef ≤ s.refs.length := hstart ▸ Nat.zero_le _
  refine .event (Wire.Traced.allowed_reserve count) ?_
  have hitems := (Persist.runs_times (p := T.item) spare Nat.one_pos count hpos href).also
    fun es r h => And.intro (Persist.read_times h).2 (Persist.links_times h)
  refine hitems.bind fun ⟨items, d₁⟩ p₁ ⟨⟨h₁, hlen, hle⟩, hread, hrefs⟩ => ?_
  dsimp only at hlen hle hread hrefs ⊢
  subst hlen
  refine runs_checkSums.bind fun _ p₂ ⟨hp₂, hsum⟩ => ?_
  subst hp₂
  split_ifs with hlinks
  · exact Wire.Traced.runs_codec
  · refine (runs_build (c := .leaf items) ⟨hcount, hread⟩ hsum).bind
      fun n q ⟨hq, hn, hbuilt⟩ => .pure ⟨?_, hbuilt, ?_, ?_⟩
    · rw [hq]
      exact h₁
    · have hwithin := h₁.within
      dsimp only at hwithin ⊢
      rw [hn]
      show items.length ≤ _
      omega
    · -- the items took every reference
      rw [hstart, not_not.1 hlinks, List.drop_length, List.append_nil] at hrefs
      dsimp only
      rw [hn]
      exact hrefs.symm

theorem runs_decodeInternal (hcount : Persist.u32.Read count) (hpos : d.pos ≤ s.bytes.length)
    (href : d.nextRef ≤ s.refs.length) :
    (T.decodeInternal s count d).Runs (Wire.watch s.bytes 0) ⟨d.pos, spare, 0⟩ (Paid s d spare T) := by
  refine .event (Wire.Traced.allowed_reserve count) ?_
  have hkeys := (Persist.runs_times spare T.key_least count hpos href).also
    fun es r h => (Persist.read_times h).2
  refine hkeys.bind fun ⟨keys, d₁⟩ p₁ ⟨⟨h₁, hlen, hle⟩, hread⟩ => ?_
  rw [h₁.place]
  dsimp only at hlen hle hread ⊢
  subst hlen
  split_ifs with hrefs
  · exact Wire.Traced.runs_codec
  · have hleast : ∀ ck, 0 < (T.measure.stub ck).least := fun ck => by
      show 0 < 8 + _
      omega
    have hchildren := (Persist.runs_each hleast s.refs d₁ p₁.spare h₁.within h₁.refs).also
      fun es r h => Persist.read_each (fun ck c hc => Persist.read_stub hc) h
    refine hchildren.bind fun ⟨children, d₂⟩ p₂ ⟨⟨h₂, hlen₂, hle₂⟩, hcks, hread₂⟩ => ?_
    dsimp only at hlen₂ hle₂ hcks hread₂ ⊢
    refine runs_checkSums.bind fun _ p₃ ⟨hp₃, hsum⟩ => ?_
    subst hp₃
    have hshape : keys.length + 1 = children.length := by
      rw [hlen₂]
      exact not_not.1 hrefs
    refine (runs_build (c := .internal keys children) ⟨⟨hcount, hshape⟩, hread, hread₂⟩ hsum).bind
      fun n q ⟨hq, hn, hbuilt⟩ => .pure ⟨?_, hbuilt, ?_, ?_⟩
    · rw [hq]
      exact h₁.trans h₂ (Nat.zero_le _)
    · have hwithin := h₂.within
      dsimp only at hwithin ⊢
      rw [hn]
      show keys.length + children.length ≤ _
      omega
    · dsimp only
      rw [hn, refs_internal]
      exact hcks.symm

theorem runs_decodeSplit (hcount : Persist.u32.Read count) (hpos : d.pos ≤ s.bytes.length)
    (href : d.nextRef ≤ s.refs.length) :
    (T.decodeSplit s count d).Runs (Wire.watch s.bytes 0) ⟨d.pos, spare, 0⟩ (Paid s d spare T) := by
  refine (T.key.runs_read spare hpos href).bind fun ⟨pivot, d₁⟩ p₁ ⟨h₁, hread⟩ => ?_
  rw [h₁.place]
  dsimp only at hread ⊢
  split
  · rename_i lo hi hrefs
    refine ((T.measure.stub lo).runs_read p₁.spare h₁.within h₁.refs).bind fun ⟨clo, d₂⟩ p₂ ⟨h₂, hlo⟩ => ?_
    rw [h₂.place]
    refine ((T.measure.stub hi).runs_read p₂.spare h₂.within h₂.refs).bind fun ⟨chi, d₃⟩ p₃ ⟨h₃, hhi⟩ => ?_
    refine runs_checkSums.bind fun _ p₄ ⟨hp₄, hsum⟩ => ?_
    subst hp₄
    obtain rfl := Persist.read_stub hlo
    obtain rfl := Persist.read_stub hhi
    refine (runs_build (c := .split count pivot clo chi) ⟨⟨hcount, hread⟩, hlo, hhi⟩ hsum).bind
      fun n q ⟨hq, hn, hbuilt⟩ => .pure ⟨?_, hbuilt, ?_, ?_⟩
    · rw [hq]
      exact h₁.trans (h₂.trans h₃ le_rfl) (Nat.zero_le _)
    · have hon := h₂.on
      have hwithin := h₂.within
      dsimp only at hon hwithin ⊢
      rw [hn]
      show 2 ≤ _
      have : 8 ≤ (T.measure.stub clo.ck).least := Nat.le_add_right 8 _
      omega
    · dsimp only
      rw [hn, refs_split]
      exact hrefs.symm
  · exact Wire.Traced.runs_codec

theorem runs_decodePayload {tag : UInt8} (hcount : Persist.u32.Read count) (hpos : d.pos ≤ s.bytes.length)
    (hstart : d.nextRef = 0) :
    (T.decodePayload s tag count d).Runs (Wire.watch s.bytes 0) ⟨d.pos, spare, 0⟩ (Paid s d spare T) := by
  have href : d.nextRef ≤ s.refs.length := hstart ▸ Nat.zero_le _
  unfold decodePayload
  split_ifs
  · exact runs_decodeLeaf hcount hpos hstart
  · exact runs_decodeInternal hcount hpos href
  · exact runs_decodeSplit hcount hpos href
  · exact Wire.Traced.runs_codec

/-- **Any bytes** keep the rule, and what comes of them was built on parts that were read. -/
theorem runs_decodeNode {bytes : List UInt8} :
    (T.decodeNode bytes).Runs (Wire.watch bytes 0) ⟨0, 0, 0⟩ fun n _ =>
      T.Built n ∧ n.contents.elements ≤ bytes.length ∧ (T.encodeContents n.contents).refs.length < 256 ^ 4 ∧
        ∀ r ∈ (T.encodeContents n.contents).refs, r.length = ckLen := by
  refine Wire.Traced.runs_header.bind fun ⟨tag, refs, pos⟩ p ⟨hlisted, hfew⟩ => ?_
  have hp : p = ⟨pos, p.spare, 0⟩ := by
    obtain ⟨_, _, _⟩ := p
    obtain ⟨rfl, rfl, -⟩ := hlisted
    rfl
  rw [hp]
  have hread := (Persist.u32.runs_read (s := ⟨bytes, refs⟩) (d := ⟨pos, 0⟩) p.spare hlisted.within (Nat.zero_le _)).also
    fun es r h => fun hd' => Persist.nextRef_of_plain h rfl (Nat.zero_le _) hd'
  refine hread.bind fun ⟨count, d⟩ p₁ ⟨⟨h₁, hcount⟩, hstart⟩ => ?_
  rw [h₁.place]
  refine (runs_decodePayload (s := ⟨bytes, refs⟩) hcount h₁.within (hstart h₁.refs)).bind
    fun ⟨n, d₂⟩ p₂ ⟨_, hbuilt, helements, hrefs⟩ => ?_
  dsimp only at hbuilt helements hrefs hlisted hfew ⊢
  split_ifs
  · exact Wire.Traced.runs_codec
  · refine .pure ⟨hbuilt, helements, ?_⟩
    rw [hrefs]
    exact ⟨hfew, hlisted.widths⟩

/-! ## What is framed is read back -/

theorem agrees_checkSums {parts : List (Nat × Nat)} {total : Nat × Nat} (h : addUp parts = some total) :
    (checkSums parts).Agrees (.ok ()) := by
  unfold checkSums
  rw [h]
  exact .pure _

theorem agrees_build {n : FrameNode K V M} (h : T.Built n) : (T.build n.contents).Agrees (.ok n) := by
  unfold build
  rw [h.sums, h.measured]
  exact .pure _

/-- A payload that links to nothing, where it was written. -/
theorem has_of_plain {e : Enc} (hd : d.nextRef = 0) (h : Holds s.bytes d.pos e.buf) (hplain : e.refs = []) : s.Has d e :=
  ⟨h, [], s.refs, by rw [hplain]; rfl, by rw [hd]; rfl⟩

theorem agrees_decodeLeaf {n : FrameNode K V M} {items : List (Item K V)} (hn : T.Built n) (hc : n.contents = .leaf items)
    (hs : s.Has d (T.item.all items)) (hd : d.nextRef = 0) (hrefs : s.refs = (T.item.all items).refs) :
    (T.decodeLeaf s items.length d).Agrees (.ok (n, d.after (T.item.all items))) := by
  have hparts := hn.parts
  have hsums := hn.sums
  have hbuild := agrees_build hn
  rw [hc] at hparts hsums hbuild
  refine .event ((Persist.agrees_times hparts.2 hs).bind_ok ((agrees_checkSums hsums).bind_ok ?_))
  have hlinks : (d.after (T.item.all items)).nextRef = s.refs.length := by
    rw [hrefs, Dec.after, hd, Nat.zero_add]
  rw [if_neg (not_not.2 hlinks)]
  exact hbuild.bind_ok (.pure _)

theorem agrees_decodeInternal {n : FrameNode K V M} {keys : List K} {children : List (Stub M)} (hn : T.Built n)
    (hc : n.contents = .internal keys children)
    (hs : s.Has d (T.key.all keys ++ Persist.eachOf T.measure.stub Stub.ck children))
    (hrefs : s.refs = children.map Stub.ck) :
    (T.decodeInternal s keys.length d).Agrees
      (.ok (n, d.after (T.key.all keys ++ Persist.eachOf T.measure.stub Stub.ck children))) := by
  have hparts := hn.parts
  have hsums := hn.sums
  have hbuild := agrees_build hn
  rw [hc] at hparts hsums hbuild
  obtain ⟨⟨-, hshape⟩, hkeys, hchildren⟩ := hparts
  have hmany : keys.length + 1 = s.refs.length := by
    rw [hrefs, List.length_map]
    exact hshape
  rw [Dec.after_append]
  refine .event ((Persist.agrees_times hkeys hs.left).bind_ok ?_)
  dsimp only
  rw [if_neg (not_not.2 hmany), hrefs]
  exact (Persist.agrees_each hchildren hs.right).bind_ok
    ((agrees_checkSums hsums).bind_ok (hbuild.bind_ok (.pure _)))

theorem agrees_decodeSplit {n : FrameNode K V M} {col : Nat} {pivot : K} {lo hi : Stub M} (hn : T.Built n)
    (hc : n.contents = .split col pivot lo hi)
    (hs : s.Has d (T.key.encode pivot ++ ((T.measure.stub lo.ck).encode lo ++ (T.measure.stub hi.ck).encode hi)))
    (hrefs : s.refs = [lo.ck, hi.ck]) :
    (T.decodeSplit s col d).Agrees
      (.ok (n, d.after (T.key.encode pivot ++ ((T.measure.stub lo.ck).encode lo ++ (T.measure.stub hi.ck).encode hi)))) := by
  have hparts := hn.parts
  have hsums := hn.sums
  have hbuild := agrees_build hn
  rw [hc] at hparts hsums hbuild
  obtain ⟨⟨-, hpivot⟩, hlo, hhi⟩ := hparts
  rw [Dec.after_append, Dec.after_append]
  refine (hpivot.back hs.left).bind_ok ?_
  dsimp only
  rw [hrefs]
  exact (hlo.back hs.right.left).bind_ok ((hhi.back hs.right.right).bind_ok
    ((agrees_checkSums hsums).bind_ok (hbuild.bind_ok (.pure _))))

/-- What follows the count of a node. -/
def rest (T : TreeKind K V M) : Contents K V M → Enc
  | .leaf items => T.item.all items
  | .internal keys children => T.key.all keys ++ Persist.eachOf T.measure.stub Stub.ck children
  | .split _ pivot lo hi =>
      T.key.encode pivot ++ ((T.measure.stub lo.ck).encode lo ++ (T.measure.stub hi.ck).encode hi)

theorem frame_eq (n : FrameNode K V M) :
    T.frame n = encodeFrame n.contents.tag (T.encodeContents n.contents).refs (T.encodeContents n.contents).buf := by
  unfold frame
  cases n.contents <;> rfl

theorem buf_eq (c : Contents K V M) : (T.encodeContents c).buf = (Persist.u32.encode c.count).buf ++ (T.rest c).buf := by
  cases c <;> rfl

theorem read_count {c : Contents K V M} (h : T.Parts c) : Persist.u32.Read c.count := by
  cases c with
  | leaf items => exact h.1
  | internal keys children => exact h.1.1
  | split col pivot lo hi => exact h.1.1

theorem rest_plain (keys : List K) (children : List (Stub M)) : (T.rest (.internal keys children)).refs = [] := by
  have h : children.map Stub.ck ++ (T.rest (.internal keys children)).refs = children.map Stub.ck :=
    refs_internal keys children
  exact List.append_right_eq_self.1 h

theorem agrees_decodePayload {n : FrameNode K V M} (hn : T.Built n) (hs : Holds s.bytes d.pos (T.rest n.contents).buf)
    (hd : d.nextRef = 0) (hrefs : s.refs = (T.encodeContents n.contents).refs) :
    (T.decodePayload s n.contents.tag n.contents.count d).Agrees (.ok (n, d.after (T.rest n.contents))) := by
  cases hc : n.contents with
  | leaf items =>
    rw [hc] at hs hrefs
    have hhas : s.Has d (T.item.all items) := ⟨hs, [], [], by rw [hrefs]; exact (List.append_nil _).symm, by rw [hd]; rfl⟩
    exact agrees_decodeLeaf hn hc hhas hd hrefs
  | internal keys children =>
    rw [hc] at hs hrefs
    rw [refs_internal] at hrefs
    exact agrees_decodeInternal hn hc (has_of_plain hd hs (rest_plain keys children)) hrefs
  | split col pivot lo hi =>
    rw [hc] at hs hrefs
    rw [refs_split] at hrefs
    have hplain : (T.rest (.split col pivot lo hi)).refs = [] := by
      show (T.key.encode pivot).refs ++
        (((T.measure.stub lo.ck).encode lo).refs ++ ((T.measure.stub hi.ck).encode hi).refs) = []
      rw [T.key_plain, stub_plain, stub_plain]
      rfl
    exact agrees_decodeSplit hn hc (has_of_plain hd hs hplain) hrefs

/-- **A node built from parts that were read is read back** from its own frame. -/
theorem agrees_frame {n : FrameNode K V M} (hn : T.Built n) (hfew : (T.encodeContents n.contents).refs.length < 256 ^ 4)
    (hwidths : ∀ r ∈ (T.encodeContents n.contents).refs, r.length = ckLen) :
    (T.decodeNode (T.frame n)).Agrees (.ok n) := by
  rw [frame_eq]
  generalize hrefs : (T.encodeContents n.contents).refs = refs at hfew hwidths
  generalize hbuf : (T.encodeContents n.contents).buf = buf
  have hheader : (Wire.Traced.header (encodeFrame n.contents.tag refs buf)).Agrees _ := Wire.Traced.agrees_header
  rw [decodeHeader_encode hwidths hfew] at hheader
  have hsplit : buf = (Persist.u32.encode n.contents.count).buf ++ (T.rest n.contents).buf := by rw [← hbuf, buf_eq]
  have hbytes : Holds (encodeFrame n.contents.tag refs buf) (6 + refs.flatten.length)
      ((Persist.u32.encode n.contents.count).buf ++ (T.rest n.contents).buf) :=
    ⟨nodeFormatVersion :: n.contents.tag :: (toBE 4 refs.length ++ refs.flatten), [],
      by simp [encodeFrame, ← hsplit], by simp; omega⟩
  refine hheader.bind_ok (((read_count hn.parts).back (has_of_plain rfl hbytes.left rfl)).bind_ok ?_)
  refine (agrees_decodePayload hn hbytes.right rfl hrefs.symm).bind_ok ?_
  have hend : (((Dec.mk (6 + refs.flatten.length) 0).after (Persist.u32.encode n.contents.count)).after
      (T.rest n.contents)).pos = (encodeFrame n.contents.tag refs buf).length := by
    simp only [Dec.after, encodeFrame, hsplit, List.length_cons, List.length_append, length_toBE]
    omega
  dsimp only
  rw [if_neg (not_not.2 hend)]
  exact .pure _

end TreeKind

/-- What a node read from bytes is: no more in it than there are bytes, its separators and spans
in order, its sums in a word each, and its measure that of its parts. -/
structure FrameNode.Sound (T : TreeKind K V M) (bytes : List UInt8) (n : FrameNode K V M) : Prop where
  elements : n.contents.elements ≤ bytes.length
  shaped : T.Shaped n.contents
  size : n.size = (n.contents.parts.map Prod.fst).sum
  reserved : n.reserved = (n.contents.parts.map Prod.snd).sum
  size_lt : n.size < 2 ^ 64
  reserved_lt : n.reserved < 2 ^ 64
  measured : T.measured n.contents = some n.measure

/-- **Hostile frames.** Whatever the kind of tree and the bytes, decoding a node harms nothing and
ends with a codec error or a sound node; and the frame of that node decodes to it and is its own
frame again. -/
theorem hostile_frame (T : TreeKind K V M) (bytes : List UInt8) :
    Wire.Harmless bytes (T.decodeNode bytes []).2 ∧
      Wire.Ends (T.decodeNode bytes []).1 fun n => n.Sound T bytes ∧
        (∀ es, (T.decodeNode (T.frame n) es).1 = .ok n) ∧ T.reframe (T.frame n) = .ok (T.frame n) := by
  have hruns : (T.decodeNode bytes).Runs (Wire.watch bytes 0) ⟨0, 0, 0⟩ _ := TreeKind.runs_decodeNode
  obtain ⟨hkept, hres⟩ := hruns [] trivial ⟨rfl, le_rfl, rfl⟩
  refine ⟨hkept.harmless, ?_⟩
  cases hr : (T.decodeNode bytes []).1 with
  | error e =>
      rw [hr] at hres
      exact hres
  | ok n =>
      rw [hr] at hres
      obtain ⟨_, -, hbuilt, helements, hfew, hwidths⟩ := hres
      obtain ⟨hsize, hreserved, hsize', hreserved'⟩ := addUp_eq hbuilt.sums
      have hback := TreeKind.agrees_frame hbuilt hfew hwidths
      refine ⟨⟨helements, TreeKind.shaped_of_parts hbuilt.parts, hsize, hreserved, hsize', hreserved', hbuilt.measured⟩,
        hback, ?_⟩
      unfold TreeKind.reframe
      rw [hback []]
      rfl

end Grmpl

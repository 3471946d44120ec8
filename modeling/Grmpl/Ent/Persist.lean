import Grmpl.Ent.NodeFrames
import Grmpl.Core.WireBounds

/-!
# What a node's payload is made of

A type that a payload holds says how it is written and how it is read. Reading moves on
within the frame, taking bytes and, for each tree linked to, the frame's next reference. It is
logged as the wire form's is, and a panic of the code is a failure no reader may have.

* `Persist`: a type's writer and reader, with what they promise: on any frame the reader keeps
  the rule, and what it read is read back wherever it is written again.
* `Persist.exact`, `reference`, `tuple`, `value`: what the others are made of.
* `Persist.map`, `pair`, `select`, `counted`: one type in terms of others.
-/

open Bytes

namespace Grmpl

/-- A frame's bytes, and the references its header lists. -/
structure FrameBytes where
  bytes : List UInt8
  refs : List Sha256Digest

/-- Where a payload's reader is: its position, and the next reference. -/
structure Dec where
  pos : Nat
  nextRef : Nat

/-- What a writer puts into a payload, and among its references. -/
structure Enc where
  buf : List UInt8
  refs : List Sha256Digest

/-- Where a reader is once it has read what was written. -/
def Dec.after (d : Dec) (e : Enc) : Dec := ⟨d.pos + e.buf.length, d.nextRef + e.refs.length⟩

instance : Append Enc := ⟨fun a b => ⟨a.buf ++ b.buf, a.refs ++ b.refs⟩⟩

def Enc.empty : Enc := ⟨[], []⟩

def Enc.put (bs : List UInt8) : Enc := ⟨bs, []⟩

/-- A frame has something written at a place. -/
structure FrameBytes.Has (s : FrameBytes) (d : Dec) (e : Enc) : Prop where
  bytes : Holds s.bytes d.pos e.buf
  refs : ∃ pre post, s.refs = pre ++ (e.refs ++ post) ∧ pre.length = d.nextRef

section Has

variable {s : FrameBytes} {d : Dec} {a b : Enc}

theorem Dec.after_append (d : Dec) (a b : Enc) : d.after (a ++ b) = (d.after a).after b := by
  show Dec.mk (d.pos + (a.buf ++ b.buf).length) (d.nextRef + (a.refs ++ b.refs).length) = _
  simp only [Dec.after, List.length_append, Nat.add_assoc]

theorem FrameBytes.Has.left (h : s.Has d (a ++ b)) : s.Has d a := by
  obtain ⟨hbytes, pre, post, hrefs, hlen⟩ := h
  exact ⟨hbytes.left, pre, b.refs ++ post, by rw [hrefs]; exact congrArg (pre ++ ·) (List.append_assoc _ _ _), hlen⟩

theorem FrameBytes.Has.right (h : s.Has d (a ++ b)) : s.Has (d.after a) b := by
  obtain ⟨hbytes, pre, post, hrefs, hlen⟩ := h
  refine ⟨hbytes.right, pre ++ a.refs, post, ?_, by simp [Dec.after, hlen]⟩
  rw [hrefs]
  show pre ++ ((a.refs ++ b.refs) ++ post) = _
  simp only [List.append_assoc]

end Has

/-- A place where the code would panic. -/
def panicked {α : Type} (what : String) : Wire.Traced α := Logged.fail (.behavior ("panicked: " ++ what))

/-- What came of reading: the reader is past where it was, by as many bytes to spare as it takes
at least, and still within the frame and its references. -/
structure Moved (s : FrameBytes) (d : Dec) (spare least : Nat) (d' : Dec) (p : Wire.Place) : Prop where
  here : p.pos = d'.pos
  depth : p.depth = 0
  on : d.pos + least ≤ d'.pos
  within : d'.pos ≤ s.bytes.length
  spare : spare + least ≤ p.spare
  next : d.nextRef ≤ d'.nextRef
  refs : d'.nextRef ≤ s.refs.length

theorem Moved.trans {s : FrameBytes} {d₀ d₁ d₂ : Dec} {spare m n k : Nat} {p q : Wire.Place}
    (h : Moved s d₀ spare m d₁ p) (h' : Moved s d₁ p.spare n d₂ q) (hk : k ≤ m + n) : Moved s d₀ spare k d₂ q where
  here := h'.here
  depth := h'.depth
  on := by
    have := h.on
    have := h'.on
    omega
  within := h'.within
  spare := by
    have := h.spare
    have := h'.spare
    omega
  next := h.next.trans h'.next
  refs := h'.refs

/-- The place a reader moved to, as the next reader finds it. -/
theorem Moved.place {s : FrameBytes} {d d' : Dec} {spare least : Nat} {p : Wire.Place} (h : Moved s d spare least d' p) :
    p = ⟨d'.pos, p.spare, 0⟩ := by
  obtain ⟨pos, sp, depth⟩ := p
  obtain ⟨rfl, rfl, -⟩ := h
  rfl

/-- How a type is written and read. -/
structure Persist (α : Type) where
  encode : α → Enc
  decode : FrameBytes → Dec → Wire.Traced (α × Dec)
  /-- The fewest bytes it takes. -/
  least : Nat
  /-- From any place in any frame the reader keeps the rule, and fails with codec errors alone. -/
  runs : ∀ (s : FrameBytes) (d : Dec) (spare : Nat), d.pos ≤ s.bytes.length → d.nextRef ≤ s.refs.length →
    (decode s d).Runs (Wire.watch s.bytes 0) ⟨d.pos, spare, 0⟩ fun r p => Moved s d spare least r.2 p
  /-- What was read once is read back wherever it is written. -/
  back : ∀ (s : FrameBytes) (d d' : Dec) (a : α) (es : List Wire.Event), (decode s d es).1 = .ok (a, d') →
    ∀ (s' : FrameBytes) (e : Dec), s'.Has e (encode a) → (decode s' e).Agrees (.ok (a, e.after (encode a)))
  /-- The references it took are those written with it. -/
  links : ∀ (s : FrameBytes) (d d' : Dec) (a : α) (es : List Wire.Event), (decode s d es).1 = .ok (a, d') →
    s.refs.drop d.nextRef = (encode a).refs ++ s.refs.drop d'.nextRef

namespace Persist

variable {α β γ : Type}

/-- Something a reader came to, in some frame. -/
def Read (p : Persist α) (a : α) : Prop := ∃ s d d' es, (p.decode s d es).1 = .ok (a, d')

theorem Read.back {p : Persist α} {a : α} (h : p.Read a) {s : FrameBytes} {d : Dec} (hs : s.Has d (p.encode a)) :
    (p.decode s d).Agrees (.ok (a, d.after (p.encode a))) := by
  obtain ⟨s₀, d₀, d₁, es, h⟩ := h
  exact p.back s₀ d₀ d₁ a es h s d hs

theorem runs_read (p : Persist α) {s : FrameBytes} {d : Dec} (spare : Nat) (hpos : d.pos ≤ s.bytes.length)
    (href : d.nextRef ≤ s.refs.length) : (p.decode s d).Runs (Wire.watch s.bytes 0) ⟨d.pos, spare, 0⟩ fun r q =>
      Moved s d spare p.least r.2 q ∧ p.Read r.1 :=
  (p.runs s d spare hpos href).also fun es r h => ⟨s, d, r.2, es, h⟩

/-- What links to nothing takes no reference. -/
theorem nextRef_of_plain {p : Persist α} {s : FrameBytes} {d d' : Dec} {a : α} {es : List Wire.Event}
    (h : (p.decode s d es).1 = .ok (a, d')) (hplain : (p.encode a).refs = []) (hd : d.nextRef ≤ s.refs.length)
    (hd' : d'.nextRef ≤ s.refs.length) : d'.nextRef = d.nextRef := by
  have hlinks := congrArg List.length (p.links s d d' a es h)
  rw [hplain, List.nil_append, List.length_drop, List.length_drop] at hlinks
  omega

/-! ## Bytes and references -/

def take (s : FrameBytes) (n : Nat) (d : Dec) : Wire.Traced (List UInt8 × Dec) :=
  match slice s.bytes d.pos n with
  | some bs => do
      Logged.event (.read d.pos n)
      return (bs, { d with pos := d.pos + n })
  | none => Wire.Traced.codec "granfilade: truncated payload"

theorem runs_take {s : FrameBytes} {n : Nat} {d : Dec} {spare : Nat} (href : d.nextRef ≤ s.refs.length) :
    (take s n d).Runs (Wire.watch s.bytes 0) ⟨d.pos, spare, 0⟩ fun r p => r.1.length = n ∧ Moved s d spare n r.2 p := by
  unfold take
  cases hs : slice s.bytes d.pos n with
  | none => exact Wire.Traced.runs_codec
  | some bs =>
    obtain ⟨hlen, hholds⟩ := slice_eq_some hs
    have hle := hholds.le
    rw [hlen] at hle
    exact Logged.Runs.event (Wire.Traced.allowed_read hle)
      (.pure ⟨hlen, rfl, rfl, le_rfl, hle, le_rfl, le_rfl, href⟩)

theorem agrees_take {s : FrameBytes} {bs : List UInt8} {d : Dec} (h : Holds s.bytes d.pos bs) :
    (take s bs.length d).Agrees (.ok (bs, d.after (.put bs))) := by
  unfold take
  rw [h.slice]
  exact Logged.Agrees.event (.pure _)

theorem next_take {s : FrameBytes} {n : Nat} {d d' : Dec} {bs : List UInt8} {es : List Wire.Event}
    (h : (take s n d es).1 = .ok (bs, d')) : d'.nextRef = d.nextRef := by
  unfold take at h
  cases hs : slice s.bytes d.pos n with
  | none =>
    rw [hs] at h
    cases h
  | some bs =>
    rw [hs] at h
    cases h
    rfl

/-- So many bytes, as an array of that length. -/
def exact (n : Nat) : Persist {bs : List UInt8 // bs.length = n} where
  encode bs := .put bs.1
  decode s d := do
    let (bs, d) ← take s n d
    if h : bs.length = n then return (⟨bs, h⟩, d) else panicked "a slice of another length"
  least := n
  runs s d spare _ href := by
    refine (runs_take href).bind fun ⟨bs, d'⟩ p ⟨hlen, hmoved⟩ => ?_
    dsimp only at hlen hmoved ⊢
    rw [dif_pos hlen]
    exact .pure hmoved
  back s d d' a es _ s' e hs := by
    obtain ⟨bs, rfl⟩ := a
    have htake : (take s' bs.length e).Agrees (.ok (bs, e.after (.put bs))) := agrees_take hs.bytes
    refine htake.bind_ok ?_
    dsimp only
    rw [dif_pos rfl]
    exact .pure _
  links s d d' a es h := by
    obtain ⟨⟨bs, d₁⟩, es₁, hbs, h⟩ := Logged.ok_of_bind h
    have hnext : d₁.nextRef = d.nextRef := next_take hbs
    dsimp only at h
    split_ifs at h with hlen
    · cases h
      rw [hnext]
      rfl
    · cases h

/-- The frame's next reference. -/
def reference : Persist Sha256Digest where
  encode ck := ⟨[], [ck]⟩
  decode s d :=
    match s.refs[d.nextRef]? with
    | some ck => return (ck, { d with nextRef := d.nextRef + 1 })
    | none => Wire.Traced.codec "granfilade: truncated reference run"
  least := 0
  runs s d spare hpos href := by
    cases hs : s.refs[d.nextRef]? with
    | none => exact Wire.Traced.runs_codec
    | some ck =>
        obtain ⟨hlt, -⟩ := List.getElem?_eq_some_iff.1 hs
        exact .pure ⟨rfl, rfl, le_rfl, hpos, le_rfl, Nat.le_succ _, hlt⟩
  back s d d' a es _ s' e hs := by
    obtain ⟨-, pre, post, hrefs, hlen⟩ := hs
    have hget : s'.refs[e.nextRef]? = some a := by
      rw [hrefs, ← hlen]
      simp
    rw [hget]
    exact .pure _
  links s d d' a es h := by
    cases hck : s.refs[d.nextRef]? with
    | none =>
        rw [hck] at h
        cases h
    | some ck =>
        rw [hck] at h
        cases h
        obtain ⟨hlt, rfl⟩ := List.getElem?_eq_some_iff.1 hck
        exact List.drop_eq_getElem_cons hlt

def tuple : Persist Tuple where
  encode t := .put (Wire.encodeTuple t)
  decode s d := do
    let (t, pos) ← Wire.Traced.decodeTuple s.bytes d.pos
    return (t, { d with pos := pos })
  least := 4
  runs s d spare hpos href := by
    refine (Wire.Traced.runs_decodeTuple d.pos).bind fun ⟨t, pos⟩ p ⟨hpast, _⟩ => .pure ?_
    obtain ⟨hnext, hdepth, hle, hwithin, hspare⟩ := hpast
    dsimp only at hnext hle hwithin ⊢
    exact ⟨hnext.symm, hdepth, by show d.pos + 4 ≤ pos; omega, by show pos ≤ _; omega, hspare, le_rfl, href⟩
  back s d d' a es h s' e hs := by
    obtain ⟨⟨t, pos⟩, es', ht, h⟩ := Logged.ok_of_bind h
    rw [Wire.Traced.agrees_decodeTuple d.pos es] at ht
    cases h
    obtain ⟨hlen, hfits⟩ := Wire.fits_of_decodeTuple ht
    have hread : (Wire.Traced.decodeTuple s'.bytes e.pos).Agrees _ := Wire.Traced.agrees_decodeTuple e.pos
    rw [Wire.decodeTuple_encode hlen hfits hs.bytes] at hread
    exact hread.bind_ok (.pure _)
  links s d d' a es h := by
    obtain ⟨_, es', -, h⟩ := Logged.ok_of_bind h
    cases h
    rfl

def value : Persist Value where
  encode v := .put (Wire.encodeValue v)
  decode s d := do
    let (v, pos) ← Wire.Traced.decodeValue s.bytes d.pos
    return (v, { d with pos := pos })
  least := 0
  runs s d spare hpos href := by
    refine (Wire.Traced.runs_decodeValueAt Wire.maxDepth (by omega)).bind fun ⟨v, pos⟩ p ⟨hpast, _⟩ => .pure ?_
    obtain ⟨hnext, hdepth, hle, hwithin, hspare⟩ := hpast
    dsimp only at hnext hle hwithin ⊢
    exact ⟨hnext.symm, hdepth, by show d.pos + 0 ≤ pos; omega, by show pos ≤ _; omega, hspare, le_rfl, href⟩
  back s d d' a es h s' e hs := by
    obtain ⟨⟨v, pos⟩, es', hv, h⟩ := Logged.ok_of_bind h
    have hagrees : (Wire.Traced.decodeValueAt s.bytes Wire.maxDepth d.pos es).1 = _ :=
      Wire.Traced.agrees_decodeValueAt Wire.maxDepth d.pos es
    rw [Wire.Traced.decodeValue, hagrees] at hv
    cases h
    have hread : (Wire.Traced.decodeValueAt s'.bytes Wire.maxDepth e.pos).Agrees _ :=
      Wire.Traced.agrees_decodeValueAt Wire.maxDepth e.pos
    rw [Wire.decodeValueAt_encode a _ _ (Wire.fits_of_decode _ _ _ _ hv) hs.bytes] at hread
    exact hread.bind_ok (.pure _)
  links s d d' a es h := by
    obtain ⟨_, es', -, h⟩ := Logged.ok_of_bind h
    cases h
    rfl

def unit : Persist Unit where
  encode _ := .empty
  decode _ d := return ((), d)
  least := 0
  runs _ _ _ hpos href := .pure ⟨rfl, rfl, le_rfl, hpos, le_rfl, le_rfl, href⟩
  back _ _ _ _ _ _ _ _ _ := .pure _
  links s d d' a es h := by
    cases h
    rfl

/-! ## One type in terms of others -/

theorem links_append {s : FrameBytes} {d d₁ d₂ : Dec} {a b : Enc}
    (h : s.refs.drop d.nextRef = a.refs ++ s.refs.drop d₁.nextRef)
    (h' : s.refs.drop d₁.nextRef = b.refs ++ s.refs.drop d₂.nextRef) :
    s.refs.drop d.nextRef = (a ++ b).refs ++ s.refs.drop d₂.nextRef := by
  rw [h, h']
  exact (List.append_assoc _ _ _).symm

/-- A type of which some of another's values are the forms, the rest being refused. -/
def refine (p : Persist α) (f : α → Except String β) (g : β → α) (h : ∀ a b, f a = .ok b → g b = a) : Persist β where
  encode b := p.encode (g b)
  decode s d := do
    let (a, d) ← p.decode s d
    match f a with
    | .ok b => return (b, d)
    | .error msg => Wire.Traced.codec msg
  least := p.least
  runs s d spare hpos href := by
    refine (p.runs s d spare hpos href).bind fun ⟨a, d₁⟩ p₁ h₁ => ?_
    dsimp only
    cases f a with
    | error msg => exact Wire.Traced.runs_codec
    | ok b => exact .pure h₁
  back s d d' b es hb s' e hs := by
    obtain ⟨⟨a, d₁⟩, es', ha, hb⟩ := Logged.ok_of_bind hb
    dsimp only at hb
    cases hf : f a with
    | error msg =>
        rw [hf] at hb
        cases hb
    | ok b' =>
        rw [hf] at hb
        cases hb
        rw [h a b hf] at hs ⊢
        refine (p.back s d d' a es ha s' e hs).bind_ok ?_
        dsimp only
        rw [hf]
        exact .pure _
  links s d d' b es hb := by
    obtain ⟨⟨a, d₁⟩, es', ha, hb⟩ := Logged.ok_of_bind hb
    dsimp only at hb
    cases hf : f a with
    | error msg =>
        rw [hf] at hb
        cases hb
    | ok b' =>
        rw [hf] at hb
        cases hb
        rw [h a b hf]
        exact p.links s d d' a es ha

theorem read_refine {p : Persist α} {f : α → Except String β} {g : β → α} {h : ∀ a b, f a = .ok b → g b = a} {b : β}
    (hb : (p.refine f g h).Read b) : ∃ a, p.Read a ∧ f a = .ok b := by
  obtain ⟨s, d, d', es, hb⟩ := hb
  obtain ⟨⟨a, d₁⟩, es', ha, hb⟩ := Logged.ok_of_bind hb
  dsimp only at hb
  cases hf : f a with
  | error msg =>
    rw [hf] at hb
    cases hb
  | ok b' =>
    rw [hf] at hb
    cases hb
    exact ⟨a, ⟨s, d, _, es, ha⟩, hf⟩

/-- A type that is another's values under a name. -/
def map (p : Persist α) (f : α → β) (g : β → α) (h : ∀ a, g (f a) = a) : Persist β :=
  p.refine (fun a => .ok (f a)) g fun a b hb => by
    cases hb
    exact h a

theorem read_map {p : Persist α} {f : α → β} {g : β → α} {h : ∀ a, g (f a) = a} {b : β} (hb : (p.map f g h).Read b) :
    ∃ a, p.Read a ∧ b = f a := by
  obtain ⟨a, ha, hb⟩ := read_refine hb
  cases hb
  exact ⟨a, ha, rfl⟩

/-- A type's values that pass a check. -/
def check (p : Persist α) (ok : α → Bool) (bad : α → String) : Persist α :=
  p.refine (fun a => if ok a then .ok a else .error (bad a)) id fun a b hb => by
    split_ifs at hb
    · cases hb
      rfl

theorem read_check {p : Persist α} {ok : α → Bool} {bad : α → String} {a : α} (h : (p.check ok bad).Read a) :
    ok a = true := by
  obtain ⟨a', -, hok⟩ := read_refine h
  split_ifs at hok with hgood
  · cases hok
    exact hgood

def pair (p : Persist α) (q : Persist β) : Persist (α × β) where
  encode x := p.encode x.1 ++ q.encode x.2
  decode s d := do
    let (a, d) ← p.decode s d
    let (b, d) ← q.decode s d
    return ((a, b), d)
  least := p.least + q.least
  runs s d spare hpos href := by
    refine (p.runs s d spare hpos href).bind fun ⟨a, d₁⟩ p₁ h₁ => ?_
    rw [h₁.place]
    exact (q.runs s d₁ p₁.spare h₁.within h₁.refs).bind fun ⟨b, d₂⟩ p₂ h₂ => .pure (h₁.trans h₂ le_rfl)
  back s d d' x es h s' e hs := by
    obtain ⟨⟨a, d₁⟩, es₁, ha, h⟩ := Logged.ok_of_bind h
    obtain ⟨⟨b, d₂⟩, es₂, hb, h⟩ := Logged.ok_of_bind h
    cases h
    rw [Dec.after_append]
    exact (p.back s d d₁ a es ha s' e hs.left).bind_ok ((q.back s d₁ d' b es₁ hb s' _ hs.right).bind_ok (.pure _))
  links s d d' x es h := by
    obtain ⟨⟨a, d₁⟩, es₁, ha, h⟩ := Logged.ok_of_bind h
    obtain ⟨⟨b, d₂⟩, es₂, hb, h⟩ := Logged.ok_of_bind h
    cases h
    exact links_append (p.links s d d₁ a es ha) (q.links s d₁ d' b es₁ hb)

theorem read_pair {p : Persist α} {q : Persist β} {x : α × β} (h : (p.pair q).Read x) : p.Read x.1 ∧ q.Read x.2 := by
  obtain ⟨s, d, d', es, h⟩ := h
  obtain ⟨⟨a, d₁⟩, es₁, ha, h⟩ := Logged.ok_of_bind h
  obtain ⟨⟨b, d₂⟩, es₂, hb, h⟩ := Logged.ok_of_bind h
  cases h
  exact ⟨⟨s, d, d₁, es, ha⟩, s, d₁, _, es₁, hb⟩

/-- A head that says how the rest is read, if it says anything, and can be told from the whole. -/
def select (p : Persist α) (arm : α → Option (Persist β)) (head : β → α) (bad : α → String)
    (h : ∀ a q, arm a = some q → ∀ b, q.Read b → head b = a) : Persist β where
  encode b := p.encode (head b) ++ ((arm (head b)).elim .empty fun q => q.encode b)
  decode s d := do
    let (a, d) ← p.decode s d
    match arm a with
    | some q => q.decode s d
    | none => Wire.Traced.codec (bad a)
  least := p.least
  runs s d spare hpos href := by
    refine (p.runs s d spare hpos href).bind fun ⟨a, d₁⟩ p₁ h₁ => ?_
    rw [h₁.place]
    dsimp only
    cases arm a with
    | none => exact Wire.Traced.runs_codec
    | some q =>
        exact (q.runs s d₁ p₁.spare h₁.within h₁.refs).mono fun r p₂ h₂ => h₁.trans h₂ (Nat.le_add_right _ _)
  back s d d' b es hb s' e hs := by
    obtain ⟨⟨a, d₁⟩, es₁, ha, hb⟩ := Logged.ok_of_bind hb
    dsimp only at hb
    cases harm : arm a with
    | none =>
        rw [harm] at hb
        cases hb
    | some q =>
        rw [harm] at hb
        obtain rfl := h a q harm b ⟨s, d₁, d', es₁, hb⟩
        rw [harm] at hs ⊢
        rw [Dec.after_append]
        refine (p.back s d d₁ _ es ha s' e hs.left).bind_ok ?_
        dsimp only
        rw [harm]
        exact q.back s d₁ d' b es₁ hb s' _ hs.right
  links s d d' b es hb := by
    obtain ⟨⟨a, d₁⟩, es₁, ha, hb⟩ := Logged.ok_of_bind hb
    dsimp only at hb
    cases harm : arm a with
    | none =>
        rw [harm] at hb
        cases hb
    | some q =>
        rw [harm] at hb
        obtain rfl := h a q harm b ⟨s, d₁, d', es₁, hb⟩
        rw [harm]
        exact links_append (p.links s d d₁ _ es ha) (q.links s d₁ d' b es₁ hb)

/-- A type of which another's values are a part. -/
def arm (p : Persist α) (f : α → β) (g : β → Option α) (h : ∀ a, g (f a) = some a) : Persist β where
  encode b := (g b).elim .empty p.encode
  decode s d := do
    let (a, d) ← p.decode s d
    return (f a, d)
  least := p.least
  runs s d spare hpos href := (p.runs s d spare hpos href).bind fun _ _ hmoved => .pure hmoved
  back s d d' b es hb s' e hs := by
    obtain ⟨⟨a, _⟩, es', ha, hb⟩ := Logged.ok_of_bind hb
    cases hb
    rw [h] at hs ⊢
    exact (p.back s d d' a es ha s' e hs).bind_ok (.pure _)
  links s d d' b es hb := by
    obtain ⟨⟨a, _⟩, es', ha, hb⟩ := Logged.ok_of_bind hb
    cases hb
    rw [h]
    exact p.links s d d' a es ha

theorem read_arm {p : Persist α} {f : α → β} {g : β → Option α} {h : ∀ a, g (f a) = some a} {b : β}
    (hb : (p.arm f g h).Read b) : ∃ a, p.Read a ∧ b = f a := by
  obtain ⟨s, d, d', es, hb⟩ := hb
  obtain ⟨⟨a, d₁⟩, es', ha, hb⟩ := Logged.ok_of_bind hb
  cases hb
  exact ⟨a, ⟨s, d, _, es, ha⟩, rfl⟩

theorem read_select {p : Persist α} {arm : α → Option (Persist β)} {head : β → α} {bad : α → String}
    {h : ∀ a q, arm a = some q → ∀ b, q.Read b → head b = a} {b : β} (hb : (p.select arm head bad h).Read b) :
    ∃ a q, arm a = some q ∧ q.Read b := by
  obtain ⟨s, d, d', es, hb⟩ := hb
  obtain ⟨⟨a, d₁⟩, es₁, ha, hb⟩ := Logged.ok_of_bind hb
  dsimp only at hb
  cases harm : arm a with
  | none =>
    rw [harm] at hb
    cases hb
  | some q =>
    rw [harm] at hb
    exact ⟨a, q, harm, s, d₁, d', es₁, hb⟩

/-! ## Numbers -/

def u32 : Persist Nat :=
  (exact 4).map (fun bs => ofBE bs.1) (fun n => ⟨toBE 4 n, length_toBE 4 n⟩) fun bs => by
    have h := toBE_ofBE bs.1
    rw [bs.2] at h
    exact Subtype.ext h

def u64 : Persist UInt64 :=
  (exact 8).map (fun bs => UInt64.ofNat (ofBE bs.1)) (fun n => ⟨toBE 8 n.toNat, length_toBE 8 _⟩) fun bs => by
    have hlt := ofBE_lt bs.1
    rw [bs.2] at hlt
    have h := toBE_ofBE bs.1
    rw [bs.2] at h
    refine Subtype.ext ?_
    dsimp only
    rw [UInt64.toNat_ofNat_of_lt' (by omega), h]

def i64 : Persist Int64 := u64.map UInt64.toInt64 Int64.toUInt64 fun n => UInt64.toUInt64_toInt64 n

/-- A count or a size, in eight bytes. -/
def size : Persist Nat := u64.map UInt64.toNat UInt64.ofNat fun _ => UInt64.ofNat_toNat

def byte : Persist UInt8 :=
  (exact 1).map (fun bs => bs.1.head (List.ne_nil_of_length_pos (by rw [bs.2]; exact Nat.one_pos)))
    (fun b => ⟨[b], rfl⟩) fun ⟨bs, h⟩ => by
      obtain ⟨b, rfl⟩ := List.length_eq_one_iff.1 h
      rfl

/-- Something or nothing, behind a flag that says which. -/
def flagged (p : Persist α) (bad : UInt8 → String) : Persist (Option α) :=
  byte.select
    (fun b =>
      if b = 0 then some (unit.arm (fun _ => none) (fun _ => some ()) fun _ => rfl)
      else if b = 1 then some (p.arm some id fun _ => rfl)
      else none)
    (fun a => if a.isSome then 1 else 0) bad (by
      intro b q harm a ha
      split_ifs at harm with h₀ h₁
      · cases harm
        obtain ⟨_, -, rfl⟩ := read_arm ha
        exact h₀.symm
      · cases harm
        obtain ⟨_, -, rfl⟩ := read_arm ha
        exact h₁.symm)

def option (p : Persist α) : Persist (Option α) :=
  p.flagged fun b => "granfilade: bad option flag " ++ toString b.toNat

/-! ## Lists behind a count -/

section Each

variable {ι : Type}

/-- Elements one after the other, each read as its index says. -/
def each (p : ι → Persist α) (s : FrameBytes) : List ι → Dec → Wire.Traced (List α × Dec)
  | [], d => return ([], d)
  | i :: is, d => do
      let (a, d) ← (p i).decode s d
      Logged.event (.build 1)
      let (as, d) ← each p s is d
      return (a :: as, d)

/-- Elements written one after the other, each as its own index says. -/
def eachOf (p : ι → Persist α) (index : α → ι) : List α → Enc
  | [] => .empty
  | a :: as => (p (index a)).encode a ++ eachOf p index as

variable {p : ι → Persist α} {s : FrameBytes}

theorem runs_each (hp : ∀ i, 0 < (p i).least) (is : List ι) : ∀ (d : Dec) (spare : Nat), d.pos ≤ s.bytes.length →
    d.nextRef ≤ s.refs.length → (each p s is d).Runs (Wire.watch s.bytes 0) ⟨d.pos, spare, 0⟩ fun r q =>
      Moved s d spare 0 r.2 q ∧ r.1.length = is.length ∧ d.pos + is.length ≤ r.2.pos := by
  induction is with
  | nil => exact fun d spare hpos href => .pure ⟨⟨rfl, rfl, le_rfl, hpos, le_rfl, le_rfl, href⟩, rfl, le_rfl⟩
  | cons i is ih =>
    intro d spare hpos href
    refine ((p i).runs s d spare hpos href).bind fun ⟨a, d₁⟩ p₁ h₁ => ?_
    rw [h₁.place]
    have hleast := hp i
    have hspare := h₁.spare
    have hon := h₁.on
    dsimp only at hon
    refine .event (Wire.Traced.allowed_build (by omega)) ?_
    refine (ih d₁ _ h₁.within h₁.refs).bind fun ⟨as, d₂⟩ p₂ ⟨h₂, hlen, hle⟩ => .pure ⟨?_, ?_, ?_⟩
    · have hspare' := h₂.spare
      have hon' := h₂.on
      dsimp only at hspare' hon' ⊢
      exact ⟨h₂.here, h₂.depth, by show d.pos + 0 ≤ d₂.pos; omega, h₂.within, by omega, h₁.next.trans h₂.next,
        h₂.refs⟩
    · exact congrArg (· + 1) hlen
    · dsimp only at hle ⊢
      rw [List.length_cons]
      omega

/-- Each element was read, at the index it has. -/
theorem read_each {index : α → ι} (hindex : ∀ i a, (p i).Read a → index a = i) {is : List ι} :
    ∀ {d d' : Dec} {es : List Wire.Event} {as : List α}, (each p s is d es).1 = .ok (as, d') →
      is = as.map index ∧ ∀ a ∈ as, (p (index a)).Read a := by
  induction is with
  | nil =>
    intro d d' es as h
    cases h
    exact ⟨rfl, fun _ ha => nomatch ha⟩
  | cons i is ih =>
    intro d d' es as h
    obtain ⟨⟨a, d₁⟩, es₁, ha, h⟩ := Logged.ok_of_bind h
    obtain ⟨_, es₂, -, h⟩ := Logged.ok_of_bind h
    obtain ⟨⟨as', d₂⟩, es₃, has, h⟩ := Logged.ok_of_bind h
    cases h
    have hread : (p i).Read a := ⟨s, d, d₁, es, ha⟩
    obtain rfl := hindex i a hread
    obtain ⟨rfl, hall⟩ := ih has
    exact ⟨rfl, List.forall_mem_cons.2 ⟨hread, hall⟩⟩

theorem links_each {index : α → ι} (hindex : ∀ i a, (p i).Read a → index a = i) {is : List ι} :
    ∀ {d d' : Dec} {es : List Wire.Event} {as : List α}, (each p s is d es).1 = .ok (as, d') →
      s.refs.drop d.nextRef = (eachOf p index as).refs ++ s.refs.drop d'.nextRef := by
  induction is with
  | nil =>
    intro d d' es as h
    cases h
    rfl
  | cons i is ih =>
    intro d d' es as h
    obtain ⟨⟨a, d₁⟩, es₁, ha, h⟩ := Logged.ok_of_bind h
    obtain ⟨_, es₂, -, h⟩ := Logged.ok_of_bind h
    obtain ⟨⟨as', d₂⟩, es₃, has, h⟩ := Logged.ok_of_bind h
    cases h
    obtain rfl := hindex i a ⟨s, d, d₁, es, ha⟩
    exact links_append ((p _).links s d d₁ a es ha) (ih has)

theorem eachOf_plain {index : α → ι} (h : ∀ i a, ((p i).encode a).refs = []) (as : List α) :
    (eachOf p index as).refs = [] := by
  induction as with
  | nil => rfl
  | cons a as ih =>
    show ((p (index a)).encode a).refs ++ (eachOf p index as).refs = []
    rw [h, ih]
    rfl

theorem agrees_each {index : α → ι} {as : List α} : ∀ {d : Dec}, (∀ a ∈ as, (p (index a)).Read a) → s.Has d (eachOf p index as) →
    (each p s (as.map index) d).Agrees (.ok (as, d.after (eachOf p index as))) := by
  induction as with
  | nil => exact fun _ _ => .pure _
  | cons a as ih =>
    intro d hall hs
    rw [eachOf, Dec.after_append]
    exact ((hall a List.mem_cons_self).back hs.left).bind_ok
      (.event ((ih (fun b hb => hall b (List.mem_cons_of_mem _ hb)) hs.right).bind_ok (.pure _)))

end Each

section Times

variable {p : Persist α} {s : FrameBytes} {n : Nat} {d d' : Dec} {es : List Wire.Event} {as : List α}

/-- So many elements, one after the other. -/
def times (p : Persist α) (s : FrameBytes) (n : Nat) (d : Dec) : Wire.Traced (List α × Dec) :=
  each (fun _ => p) s (List.replicate n ()) d

def all (p : Persist α) (as : List α) : Enc := eachOf (fun _ => p) (fun _ => ()) as

theorem runs_times (spare : Nat) (hp : 0 < p.least) (n : Nat) (hpos : d.pos ≤ s.bytes.length)
    (href : d.nextRef ≤ s.refs.length) : (times p s n d).Runs (Wire.watch s.bytes 0) ⟨d.pos, spare, 0⟩ fun r q =>
      Moved s d spare 0 r.2 q ∧ r.1.length = n ∧ d.pos + n ≤ r.2.pos := by
  have h := runs_each (s := s) (fun _ : Unit => hp) (List.replicate n ()) d spare hpos href
  rwa [List.length_replicate] at h

theorem read_times (h : (times p s n d es).1 = .ok (as, d')) : as.length = n ∧ ∀ a ∈ as, p.Read a := by
  have hread : List.replicate n () = as.map (fun _ => ()) ∧ _ := read_each (fun _ _ _ => rfl) h
  exact ⟨by simpa using (congrArg List.length hread.1).symm, hread.2⟩

theorem links_times (h : (times p s n d es).1 = .ok (as, d')) :
    s.refs.drop d.nextRef = (p.all as).refs ++ s.refs.drop d'.nextRef :=
  links_each (fun _ _ _ => rfl) h

theorem agrees_times (hall : ∀ a ∈ as, p.Read a) (hs : s.Has d (p.all as)) :
    (times p s as.length d).Agrees (.ok (as, d.after (p.all as))) := by
  have h : (each (fun _ => p) s (as.map fun _ => ()) d).Agrees _ := agrees_each hall hs
  rwa [List.map_const'] at h

end Times

/-- A count, then that many elements, with room made for no more of them than there are bytes. -/
def counted (p : Persist α) (hp : 0 < p.least) : Persist (List α) where
  encode as := u32.encode as.length ++ p.all as
  decode s d := do
    let (n, d) ← u32.decode s d
    Logged.event (.reserve (Wire.capacity n s.bytes d.pos) d.pos)
    times p s n d
  least := u32.least
  runs s d spare hpos href := by
    refine (u32.runs s d spare hpos href).bind fun ⟨n, d₁⟩ p₁ h₁ => ?_
    rw [h₁.place]
    refine .event (Wire.Traced.allowed_reserve n) ?_
    exact (runs_times _ hp n h₁.within h₁.refs).mono fun r p₂ h₂ => h₁.trans h₂.1 (Nat.le_add_right _ _)
  back s d d' as es h s' e hs := by
    obtain ⟨⟨n, d₁⟩, es₁, hn, h⟩ := Logged.ok_of_bind h
    obtain ⟨_, es₂, -, h⟩ := Logged.ok_of_bind h
    obtain ⟨rfl, hall⟩ := read_times h
    rw [Dec.after_append]
    exact (u32.back s d d₁ _ es hn s' e hs.left).bind_ok (.event (agrees_times hall hs.right))
  links s d d' as es h := by
    obtain ⟨⟨n, d₁⟩, es₁, hn, h⟩ := Logged.ok_of_bind h
    obtain ⟨_, es₂, -, h⟩ := Logged.ok_of_bind h
    obtain ⟨rfl, -⟩ := read_times h
    exact links_append (u32.links s d d₁ _ es hn) (links_times h)

end Persist

end Grmpl

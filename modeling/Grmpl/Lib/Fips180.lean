import Mathlib

/-!
# The secure hash standard's SHA-256

FIPS 180-4 on bit strings: a message is padded to whole blocks of 512 bits, each block gives
a schedule of words and sixty-four rounds of eight working variables, and what the rounds
leave is added to the hash value of the blocks before it.

* `bits`, `ofBits`: numbers as bit strings, the most significant bit first.
* `fracRoot`, `constant`, `initialWord`: the constants, as the fractional parts of roots of primes.
* `pad`: the padded message; `length_pad_least`, `pad_inj`.
* `schedule`, `working`: the recurrences for the words of a block and for the variables.
* `digest`: the digest of a message.
-/

namespace Fips180

/-- A message, bit by bit. -/
abbrev Bits := List Bool

/-- The standard's words. -/
abbrev Word := BitVec 32

/-! ## Numbers as bit strings -/

/-- A number in a width of bits, the most significant first. -/
def bits : Nat → Nat → Bits
  | 0, _ => []
  | width + 1, n => bits width (n / 2) ++ [decide (n % 2 = 1)]

def ofBits (bs : Bits) : Nat := bs.foldl (fun n b => n * 2 + b.toNat) 0

@[simp] theorem length_bits (width n : Nat) : (bits width n).length = width := by
  induction width generalizing n with
  | zero => rfl
  | succ width ih => rw [bits, List.length_append, ih, List.length_singleton]

theorem ofBits_concat (bs : Bits) (b : Bool) : ofBits (bs ++ [b]) = ofBits bs * 2 + b.toNat := by
  rw [ofBits, List.foldl_append]
  rfl

theorem ofBits_append (as bs : Bits) : ofBits (as ++ bs) = ofBits as * 2 ^ bs.length + ofBits bs := by
  induction bs using List.reverseRecOn with
  | nil => simp [ofBits]
  | append_singleton bs b ih =>
    rw [← List.append_assoc, ofBits_concat, ofBits_concat, ih, List.length_append, List.length_singleton]
    ring

/-- What does not fit the width is cut off. -/
theorem ofBits_bits (width n : Nat) : ofBits (bits width n) = n % 2 ^ width := by
  induction width generalizing n with
  | zero => rw [pow_zero, Nat.mod_one]; rfl
  | succ width ih =>
    have hlast : (decide (n % 2 = 1)).toNat = n % 2 := by
      rcases Nat.mod_two_eq_zero_or_one n with h | h <;> simp [h]
    rw [bits, ofBits_concat, ih, hlast, pow_succ', Nat.mod_mul]
    ring

/-- A number's bits, and below them those of a narrower one. -/
theorem bits_add (v w n : Nat) : bits (v + w) n = bits v (n / 2 ^ w) ++ bits w n := by
  induction w generalizing n with
  | zero => simp [bits]
  | succ w ih =>
    rw [← add_assoc, bits, ih, bits, List.append_assoc, Nat.div_div_eq_div_mul, ← pow_succ']

theorem bits_mod (w n : Nat) : bits w (n % 2 ^ w) = bits w n := by
  induction w generalizing n with
  | zero => rfl
  | succ w ih =>
    have hhalf : n % 2 ^ (w + 1) / 2 = n / 2 % 2 ^ w := by
      rw [pow_succ', Nat.mod_mul_right_div_self]
    have hlast : n % 2 ^ (w + 1) % 2 = n % 2 := Nat.mod_mod_of_dvd n (dvd_pow_self 2 (Nat.succ_ne_zero w))
    rw [bits, bits, hhalf, hlast, ih]

theorem bits_inj {w m n : Nat} (hm : m < 2 ^ w) (hn : n < 2 ^ w) (h : bits w m = bits w n) : m = n := by
  have hread := congrArg ofBits h
  rwa [ofBits_bits, ofBits_bits, Nat.mod_eq_of_lt hm, Nat.mod_eq_of_lt hn] at hread

/-! ## Functions on words -/

/-- `ROTR`: a word turned to the right. -/
def rotr (n : Nat) (x : Word) : Word := (x >>> n) ||| (x <<< (32 - n))

/-- `SHR`: a word shifted to the right. -/
def shr (n : Nat) (x : Word) : Word := x >>> n

def ch (x y z : Word) : Word := (x &&& y) ^^^ (~~~x &&& z)

def maj (x y z : Word) : Word := (x &&& y) ^^^ (x &&& z) ^^^ (y &&& z)

/-- `Σ₀` -/
def bigSigma0 (x : Word) : Word := rotr 2 x ^^^ rotr 13 x ^^^ rotr 22 x

/-- `Σ₁` -/
def bigSigma1 (x : Word) : Word := rotr 6 x ^^^ rotr 11 x ^^^ rotr 25 x

/-- `σ₀` -/
def smallSigma0 (x : Word) : Word := rotr 7 x ^^^ rotr 18 x ^^^ shr 3 x

/-- `σ₁` -/
def smallSigma1 (x : Word) : Word := rotr 17 x ^^^ rotr 19 x ^^^ shr 10 x

/-! ## Constants -/

/-- The first thirty-two bits of the fractional part of a root. -/
def fracRoot (k p : Nat) : Word := BitVec.ofNat 32 (Nat.nthRoot k (p * 2 ^ (32 * k)))

/-- `K`: the cube roots of the first sixty-four primes. -/
noncomputable def constant (t : Nat) : Word := fracRoot 3 (Nat.nth Nat.Prime t)

/-- The square roots of the first eight primes. -/
noncomputable def initialWord (i : Nat) : Word := fracRoot 2 (Nat.nth Nat.Prime i)

/-- A root is told by the numbers on both sides of it. -/
theorem fracRoot_eq {k p r : Nat} (hlo : r ^ k ≤ p * 2 ^ (32 * k)) (hhi : p * 2 ^ (32 * k) < (r + 1) ^ k) :
    fracRoot k p = BitVec.ofNat 32 r := by
  rw [fracRoot, Nat.nthRoot_eq_of_le_of_lt hlo hhi]

/-- The numbers below a bound that a predicate accepts are the first it accepts. -/
theorem nth_of_filter_range {p : Nat → Prop} [DecidablePred p] {t n : Nat} (bound : Nat)
    (h : ((List.range bound).filter p)[t]? = some n) : Nat.nth p t = n := by
  induction bound with
  | zero => exact absurd h (by simp)
  | succ bound ih =>
    rw [List.range_succ, List.filter_append] at h
    rcases lt_or_ge t ((List.range bound).filter p).length with hlt | hge
    · rw [List.getElem?_append_left hlt] at h
      exact ih h
    · rw [List.getElem?_append_right hge] at h
      by_cases hp : p bound
      · rw [List.filter_cons_of_pos (by simpa using hp), List.filter_nil, List.getElem?_singleton] at h
        obtain ⟨hlast, hn⟩ := Option.ite_none_right_eq_some.1 h
        obtain rfl := Option.some.inj hn
        have hcount : Nat.count p bound = ((List.range bound).filter p).length :=
          Nat.count_eq_card_filter_range p bound
        have ht : t = Nat.count p bound := by omega
        rw [ht]
        exact Nat.nth_count hp
      · rw [List.filter_cons_of_neg (by simpa using hp)] at h
        exact absurd h (by simp)

/-! ## Padding -/

theorem exists_zeros (len : Nat) : ∃ k, (len + 1 + k) % 512 = 448 := ⟨447 + 511 * len, by omega⟩

/-- The fewest zeros that leave a whole number of blocks but for the length. -/
def zeros (len : Nat) : Nat := Nat.find (exists_zeros len)

theorem zeros_eq {len k : Nat} (h : (len + 1 + k) % 512 = 448) (hk : k < 512) : zeros len = k := by
  rw [zeros, Nat.find_eq_iff]
  exact ⟨h, fun m hm hm' => by omega⟩

theorem zeros_spec (len : Nat) : (len + 1 + zeros len) % 512 = 448 ∧ zeros len < 512 := by
  have hk : zeros len = (447 + 511 * len) % 512 := zeros_eq (by omega) (by omega)
  omega

/-- A message, the marker, zeros, and the message's length. -/
def pad (message : Bits) : Bits :=
  message ++ true :: (List.replicate (zeros message.length) false ++ bits 64 message.length)

theorem length_pad (message : Bits) : (pad message).length = message.length + 1 + zeros message.length + 64 := by
  simp only [pad, List.length_append, List.length_cons, List.length_replicate, length_bits]
  omega

/-- A padded message is whole blocks, as few as the message, the marker and the length allow. -/
theorem length_pad_least (message : Bits) :
    (pad message).length % 512 = 0 ∧
      ∀ n, n % 512 = 0 → message.length + 1 + 64 ≤ n → (pad message).length ≤ n := by
  obtain ⟨hspec, hlt⟩ := zeros_spec message.length
  rw [length_pad]
  exact ⟨by omega, fun n hn hle => by omega⟩

theorem pad_inj {m n : Bits} (hm : m.length < 2 ^ 64) (hn : n.length < 2 ^ 64) (h : pad m = pad n) : m = n := by
  have hbits : bits 64 m.length = bits 64 n.length := by
    rw [pad, pad, ← List.cons_append, ← List.cons_append, ← List.append_assoc, ← List.append_assoc] at h
    exact (List.append_inj' h (by rw [length_bits, length_bits])).2
  have hlen := bits_inj hm hn hbits
  rw [pad, pad] at h
  exact (List.append_inj h hlen).1

/-! ## Blocks -/

/-- The blocks of a padded message. -/
def blocks (padded : Bits) : List Bits :=
  (List.range (padded.length / 512)).map fun i => (padded.drop (512 * i)).take 512

/-- The words of a block. -/
def word (block : Bits) (t : Nat) : Word := BitVec.ofNat 32 (ofBits ((block.drop (32 * t)).take 32))

/-- `W`: the schedule of a block, as a recurrence over its words. -/
def schedule (message : Nat → Word) (t : Nat) : Word :=
  if t < 16 then message t
  else smallSigma1 (schedule message (t - 2)) + schedule message (t - 7)
    + smallSigma0 (schedule message (t - 15)) + schedule message (t - 16)

/-- The eight working variables, and the eight words of a hash value. -/
structure Vars where
  a : Word
  b : Word
  c : Word
  d : Word
  e : Word
  f : Word
  g : Word
  h : Word

/-- The working variables of each round, as a recurrence. -/
noncomputable def working (w : Nat → Word) (start : Vars) : Nat → Vars
  | 0 => start
  | t + 1 =>
      let v := working w start t
      let t₁ := v.h + bigSigma1 v.e + ch v.e v.f v.g + constant t + w t
      let t₂ := bigSigma0 v.a + maj v.a v.b v.c
      ⟨t₁ + t₂, v.a, v.b, v.c, v.d + t₁, v.e, v.f, v.g⟩

def Vars.add (v w : Vars) : Vars :=
  ⟨v.a + w.a, v.b + w.b, v.c + w.c, v.d + w.d, v.e + w.e, v.f + w.f, v.g + w.g, v.h + w.h⟩

/-- The hash value after one more block. -/
noncomputable def compress (hash : Vars) (block : Bits) : Vars :=
  hash.add (working (schedule (word block)) hash 64)

/-- The first hash value. -/
noncomputable def initial : Vars :=
  ⟨initialWord 0, initialWord 1, initialWord 2, initialWord 3, initialWord 4, initialWord 5, initialWord 6,
    initialWord 7⟩

def Vars.bits (v : Vars) : Bits :=
  [v.a, v.b, v.c, v.d, v.e, v.f, v.g, v.h].flatMap fun x => Fips180.bits 32 x.toNat

/-- **The digest of a message.** -/
noncomputable def digest (message : Bits) : Bits := ((blocks (pad message)).foldl compress initial).bits

theorem schedule_lt {message : Nat → Word} {t : Nat} (ht : t < 16) : schedule message t = message t := by
  rw [schedule, if_pos ht]

theorem schedule_ge {message : Nat → Word} {t : Nat} (ht : 16 ≤ t) :
    schedule message t = smallSigma1 (schedule message (t - 2)) + schedule message (t - 7)
      + smallSigma0 (schedule message (t - 15)) + schedule message (t - 16) := by
  rw [schedule, if_neg (Nat.not_lt.2 ht)]

end Fips180

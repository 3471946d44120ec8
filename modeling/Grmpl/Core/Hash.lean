import Grmpl.Lib.Bytes
import Grmpl.Lib.Fips180

/-!
# The workspace's SHA-256

Content keys and package digests are durable, so the workspace owns its digest. The code works
on bytes, in place: the schedule is written into one array and the eight working variables turn
around in their own slots.

* `sha256`: the digest as computed.
* `pad_least`, `pad_inj`: the padded message, whole blocks and no more than it takes.
* `sha256_eq_digest`: the digest is the standard's.
-/

open Bytes

namespace Grmpl.Sha256

/-! ## The digest as computed -/

def K : List UInt32 := [
  0x428a2f98, 0x71374491, 0xb5c0fbcf, 0xe9b5dba5, 0x3956c25b, 0x59f111f1, 0x923f82a4, 0xab1c5ed5,
  0xd807aa98, 0x12835b01, 0x243185be, 0x550c7dc3, 0x72be5d74, 0x80deb1fe, 0x9bdc06a7, 0xc19bf174,
  0xe49b69c1, 0xefbe4786, 0x0fc19dc6, 0x240ca1cc, 0x2de92c6f, 0x4a7484aa, 0x5cb0a9dc, 0x76f988da,
  0x983e5152, 0xa831c66d, 0xb00327c8, 0xbf597fc7, 0xc6e00bf3, 0xd5a79147, 0x06ca6351, 0x14292967,
  0x27b70a85, 0x2e1b2138, 0x4d2c6dfc, 0x53380d13, 0x650a7354, 0x766a0abb, 0x81c2c92e, 0x92722c85,
  0xa2bfe8a1, 0xa81a664b, 0xc24b8b70, 0xc76c51a3, 0xd192e819, 0xd6990624, 0xf40e3585, 0x106aa070,
  0x19a4c116, 0x1e376c08, 0x2748774c, 0x34b0bcb5, 0x391c0cb3, 0x4ed8aa4a, 0x5b9cca4f, 0x682e6ff3,
  0x748f82ee, 0x78a5636f, 0x84c87814, 0x8cc70208, 0x90befffa, 0xa4506ceb, 0xbef9a3f7, 0xc67178f2]

def H0 : List UInt32 := [
  0x6a09e667, 0xbb67ae85, 0x3c6ef372, 0xa54ff53a, 0x510e527f, 0x9b05688c, 0x1f83d9ab, 0x5be0cd19]

def rotateRight (x : UInt32) (n : UInt32) : UInt32 := (x >>> n) ||| (x <<< (32 - n))

/-- Zeros are pushed until eight bytes are left of the last block. -/
def pushZeros (padded : List UInt8) : List UInt8 :=
  if padded.length % 64 = 56 then padded else pushZeros (padded ++ [0])
termination_by (120 - padded.length % 64) % 64
decreasing_by
  rw [List.length_append, List.length_singleton]
  omega

/-- The message, the marker, zeros, and the message's length in bits. -/
def pad (data : List UInt8) : List UInt8 :=
  let bitLen : UInt64 := UInt64.ofNat data.length * 8
  pushZeros (data ++ [0x80]) ++ toBE 8 bitLen.toNat

/-- The pieces of `n` elements; a shorter rest is left out. -/
def chunksExact {α : Type} (n : Nat) (l : List α) : List (List α) :=
  (List.range (l.length / n)).map fun i => (l.drop (i * n)).take n

/-- A word of the schedule, from the words before it. -/
def extended (w : List UInt32) (i : Nat) : UInt32 :=
  let s0 := rotateRight w[i - 15]! 7 ^^^ rotateRight w[i - 15]! 18 ^^^ (w[i - 15]! >>> 3)
  let s1 := rotateRight w[i - 2]! 17 ^^^ rotateRight w[i - 2]! 19 ^^^ (w[i - 2]! >>> 10)
  w[i - 16]! + s0 + w[i - 7]! + s1

/-- The array of the schedule: the chunk's words first, then each from those before it. -/
def schedule (chunk : List UInt8) : List UInt32 :=
  let w := (chunksExact 4 chunk).zipIdx.foldl (fun w p => w.set p.2 (UInt32.ofNat (ofBE p.1)))
    (List.replicate 64 0)
  (List.range' 16 48).foldl (fun w i => w.set i (extended w i)) w

/-- The working variables. -/
structure Working where
  a : UInt32
  b : UInt32
  c : UInt32
  d : UInt32
  e : UInt32
  f : UInt32
  g : UInt32
  hh : UInt32

def Working.start (h : List UInt32) : Working := ⟨h[0]!, h[1]!, h[2]!, h[3]!, h[4]!, h[5]!, h[6]!, h[7]!⟩

def round (w : List UInt32) (v : Working) (i : Nat) : Working :=
  let s1 := rotateRight v.e 6 ^^^ rotateRight v.e 11 ^^^ rotateRight v.e 25
  let ch := (v.e &&& v.f) ^^^ (~~~v.e &&& v.g)
  let t1 := v.hh + s1 + ch + K[i]! + w[i]!
  let s0 := rotateRight v.a 2 ^^^ rotateRight v.a 13 ^^^ rotateRight v.a 22
  let maj := (v.a &&& v.b) ^^^ (v.a &&& v.c) ^^^ (v.b &&& v.c)
  let t2 := s0 + maj
  { hh := v.g, g := v.f, f := v.e, e := v.d + t1, d := v.c, c := v.b, b := v.a, a := t1 + t2 }

/-- A chunk's rounds, added to the hash value they start from. -/
def compress (h : List UInt32) (chunk : List UInt8) : List UInt32 :=
  let w := schedule chunk
  let v := (List.range 64).foldl (round w) (Working.start h)
  List.zipWith (· + ·) h [v.a, v.b, v.c, v.d, v.e, v.f, v.g, v.hh]

/-- The digest of a message: the eight words fill the thirty-two bytes. -/
def sha256 (data : List UInt8) : List UInt8 :=
  let h := (chunksExact 64 (pad data)).foldl compress H0
  h.flatMap fun word => toBE 4 word.toNat

/-! ## Bytes as bits -/

def bitsOf (bs : List UInt8) : Fips180.Bits := bs.flatMap fun b => Fips180.bits 8 b.toNat

theorem bitsOf_cons (b : UInt8) (bs : List UInt8) : bitsOf (b :: bs) = Fips180.bits 8 b.toNat ++ bitsOf bs :=
  List.flatMap_cons

theorem bitsOf_singleton (b : UInt8) : bitsOf [b] = Fips180.bits 8 b.toNat := List.flatMap_singleton _ _

theorem bitsOf_append (as bs : List UInt8) : bitsOf (as ++ bs) = bitsOf as ++ bitsOf bs := List.flatMap_append

@[simp] theorem length_bitsOf (bs : List UInt8) : (bitsOf bs).length = 8 * bs.length := by
  induction bs with
  | nil => rfl
  | cons b bs ih =>
    rw [bitsOf_cons, List.length_append, Fips180.length_bits, ih, List.length_cons]
    ring

theorem bitsOf_inj {as bs : List UInt8} (h : bitsOf as = bitsOf bs) : as = bs := by
  have hlen : as.length = bs.length := by
    have hbits := congrArg List.length h
    rw [length_bitsOf, length_bitsOf] at hbits
    omega
  induction as generalizing bs with
  | nil => exact (List.eq_nil_of_length_eq_zero hlen.symm).symm
  | cons a as ih => cases bs with
    | nil => exact absurd hlen (Nat.succ_ne_zero _)
    | cons b bs =>
      rw [bitsOf_cons, bitsOf_cons] at h
      obtain ⟨hhead, htail⟩ := List.append_inj h (by rw [Fips180.length_bits, Fips180.length_bits])
      have hab := UInt8.toNat_inj.1 (Fips180.bits_inj a.toNat_lt b.toNat_lt hhead)
      rw [hab, ih htail (Nat.succ.inj hlen)]

theorem bitsOf_take (k : Nat) (bs : List UInt8) : bitsOf (bs.take k) = (bitsOf bs).take (8 * k) := by
  rcases le_total bs.length k with hle | hle
  · rw [List.take_of_length_le hle, List.take_of_length_le (by rw [length_bitsOf]; omega)]
  · have hsplit := congrArg bitsOf (List.take_append_drop k bs)
    rw [bitsOf_append] at hsplit
    rw [← hsplit, List.take_left' (by rw [length_bitsOf, List.length_take, min_eq_left hle])]

theorem bitsOf_drop (k : Nat) (bs : List UInt8) : bitsOf (bs.drop k) = (bitsOf bs).drop (8 * k) := by
  rcases le_total bs.length k with hle | hle
  · rw [List.drop_of_length_le hle, List.drop_of_length_le (by rw [length_bitsOf]; omega)]
    rfl
  · have hsplit := congrArg bitsOf (List.take_append_drop k bs)
    rw [bitsOf_append] at hsplit
    rw [← hsplit, List.drop_left' (by rw [length_bitsOf, List.length_take, min_eq_left hle])]

theorem ofBits_bitsOf (bs : List UInt8) : Fips180.ofBits (bitsOf bs) = ofBE bs := by
  induction bs using List.reverseRecOn with
  | nil => rfl
  | append_singleton bs b ih =>
    have hb : b.toNat % 2 ^ 8 = b.toNat := Nat.mod_eq_of_lt b.toNat_lt
    rw [bitsOf_append, Fips180.ofBits_append, ih, ofBE_concat, length_bitsOf, bitsOf_singleton,
      Fips180.ofBits_bits, hb]
    rfl

theorem bitsOf_toBE (width n : Nat) : bitsOf (toBE width n) = Fips180.bits (8 * width) n := by
  induction width generalizing n with
  | zero => rfl
  | succ width ih =>
    have hlast : Fips180.bits 8 (UInt8.ofNat n).toNat = Fips180.bits 8 n := Fips180.bits_mod 8 n
    rw [toBE, bitsOf_append, ih, bitsOf_singleton, hlast, mul_add, mul_one, Fips180.bits_add]
    rfl

theorem bitsOf_zeros (k : Nat) : bitsOf (List.replicate k 0) = List.replicate (8 * k) false := by
  induction k with
  | zero => rfl
  | succ k ih =>
    have hzero : Fips180.bits 8 (0 : UInt8).toNat = List.replicate 8 false := by decide
    rw [List.replicate_succ, bitsOf_cons, ih, hzero, List.replicate_append_replicate]
    congr 1
    ring

/-! ## Padding -/

/-- The loop ends, and has pushed the fewest zeros that do. -/
theorem pushZeros_spec (padded : List UInt8) :
    ∃ k < 64, pushZeros padded = padded ++ List.replicate k 0 ∧ (padded.length + k) % 64 = 56 := by
  induction padded using pushZeros.induct with
  | case1 padded hfull =>
    refine ⟨0, by omega, ?_, hfull⟩
    rw [pushZeros, if_pos hfull, List.replicate_zero, List.append_nil]
  | case2 padded hshort ih =>
    obtain ⟨k, hk, heq, hmod⟩ := ih
    rw [List.length_append, List.length_singleton] at hmod
    refine ⟨k + 1, by omega, ?_, by omega⟩
    rw [pushZeros, if_neg hshort, heq, List.replicate_succ, List.append_assoc]
    rfl

/-- The length in bits is read back as long as it fits. -/
theorem toNat_bitLen {n : Nat} (h : n < 2 ^ 61) : (UInt64.ofNat n * 8).toNat = 8 * n := by
  rw [UInt64.toNat_mul, UInt64.toNat_ofNat']
  show n % 2 ^ 64 * 8 % 2 ^ 64 = 8 * n
  omega

/-- **The message is padded as the standard pads it.** -/
theorem bitsOf_pad {data : List UInt8} (h : data.length < 2 ^ 61) : bitsOf (pad data) = Fips180.pad (bitsOf data) := by
  obtain ⟨k, hk, hpush, hmod⟩ := pushZeros_spec (data ++ [0x80])
  rw [List.length_append, List.length_singleton] at hmod
  have hmarker : bitsOf [0x80] = true :: List.replicate 7 false := by decide
  have hzeros : Fips180.zeros (bitsOf data).length = 7 + 8 * k :=
    Fips180.zeros_eq (by rw [length_bitsOf]; omega) (by omega)
  rw [pad, hpush, toNat_bitLen h, bitsOf_append, bitsOf_append, bitsOf_append, hmarker, bitsOf_zeros, bitsOf_toBE]
  rw [Fips180.pad, hzeros, List.replicate_add, length_bitsOf]
  simp only [List.append_assoc, List.cons_append]

/-- The padded message is whole chunks, as few as the message, the marker and the length allow. -/
theorem pad_least {data : List UInt8} (h : data.length < 2 ^ 61) :
    (pad data).length % 64 = 0 ∧ ∀ n, n % 64 = 0 → data.length + 1 + 8 ≤ n → (pad data).length ≤ n := by
  have hlen := congrArg List.length (bitsOf_pad h)
  obtain ⟨hwhole, hleast⟩ := Fips180.length_pad_least (bitsOf data)
  rw [← hlen, length_bitsOf, length_bitsOf] at hleast
  rw [← hlen, length_bitsOf] at hwhole
  refine ⟨by omega, fun n hn hle => ?_⟩
  have hbits := hleast (8 * n) (by omega) (by omega)
  omega

theorem pad_inj {as bs : List UInt8} (ha : as.length < 2 ^ 61) (hb : bs.length < 2 ^ 61) (h : pad as = pad bs) :
    as = bs := by
  have hbits := congrArg bitsOf h
  rw [bitsOf_pad ha, bitsOf_pad hb] at hbits
  exact bitsOf_inj (Fips180.pad_inj (by rw [length_bitsOf]; omega) (by rw [length_bitsOf]; omega) hbits)

/-! ## Chunks -/

theorem mem_chunksExact {n : Nat} {l c : List UInt8} (h : c ∈ chunksExact n l) : c.length = n := by
  obtain ⟨i, hi, rfl⟩ := List.mem_map.1 h
  have hfit : (i + 1) * n ≤ l.length :=
    (Nat.mul_le_mul_right n (List.mem_range.1 hi)).trans (Nat.div_mul_le_self l.length n)
  rw [Nat.add_mul, one_mul] at hfit
  rw [List.length_take, List.length_drop]
  omega

theorem blocks_bitsOf (l : List UInt8) : Fips180.blocks (bitsOf l) = (chunksExact 64 l).map bitsOf := by
  have hcount : (bitsOf l).length / 512 = l.length / 64 := by
    rw [length_bitsOf]
    omega
  rw [Fips180.blocks, chunksExact, hcount, List.map_map]
  refine List.map_congr_left fun i _ => ?_
  have hpos : 512 * i = 8 * (i * 64) := by ring
  rw [Function.comp_apply, bitsOf_take, bitsOf_drop, hpos]

/-- A word of a chunk, as the code reads it. -/
def wordAt (chunk : List UInt8) (t : Nat) : UInt32 := UInt32.ofNat (ofBE ((chunk.drop (t * 4)).take 4))

theorem word_bitsOf (chunk : List UInt8) (t : Nat) : Fips180.word (bitsOf chunk) t = (wordAt chunk t).toBitVec := by
  have hpos : 32 * t = 8 * (t * 4) := by ring
  have hwidth : 32 = 8 * 4 := rfl
  rw [Fips180.word, hpos, ← bitsOf_drop]
  nth_rewrite 2 [hwidth]
  rw [← bitsOf_take, ofBits_bitsOf]
  rfl

/-! ## Words -/

theorem toBitVec_s0 (x : UInt32) :
    (rotateRight x 7 ^^^ rotateRight x 18 ^^^ (x >>> 3)).toBitVec = Fips180.smallSigma0 x.toBitVec := by
  rfl

theorem toBitVec_s1 (x : UInt32) :
    (rotateRight x 17 ^^^ rotateRight x 19 ^^^ (x >>> 10)).toBitVec = Fips180.smallSigma1 x.toBitVec := by
  rfl

/-! ## The schedule -/

/-- Reading an array after one of its slots was written. -/
theorem getElem!_set {α : Type} [Inhabited α] {w : List α} {i : Nat} (hi : i < w.length) (x : α) (t : Nat) :
    (w.set i x)[t]! = if i = t then x else w[t]! := by
  simp only [List.getElem!_eq_getElem?_getD, List.getElem?_set, if_pos hi]
  split <;> rfl

/-- A loop that writes the slots of an array in order, each from those before it. -/
theorem foldl_write {α : Type} [Inhabited α] {f : List α → Nat → α} {v : Nat → α} (start n : Nat) {w : List α}
    (hfit : start + n ≤ w.length) (hstart : ∀ t < start, w[t]! = v t)
    (hstep : ∀ w' i, start ≤ i → i < start + n → (∀ t < i, w'[t]! = v t) → f w' i = v i) :
    ((List.range' start n).foldl (fun w i => w.set i (f w i)) w).length = w.length ∧
      ∀ t < start + n, ((List.range' start n).foldl (fun w i => w.set i (f w i)) w)[t]! = v t := by
  induction n with
  | zero => exact ⟨rfl, hstart⟩
  | succ n ih =>
    obtain ⟨hlen, hread⟩ := ih (by omega) fun w' i hi hi' => hstep w' i hi (by omega)
    rw [List.range'_concat, List.foldl_append, one_mul]
    set w' := (List.range' start n).foldl (fun w i => w.set i (f w i)) w
    show (w'.set (start + n) (f w' (start + n))).length = w.length ∧
      ∀ t < start + (n + 1), (w'.set (start + n) (f w' (start + n)))[t]! = v t
    refine ⟨by rw [List.length_set, hlen], fun t ht => ?_⟩
    rw [getElem!_set (by omega)]
    by_cases hlast : start + n = t
    · rw [if_pos hlast, ← hlast]
      exact hstep w' _ (by omega) (by omega) hread
    · rw [if_neg hlast]
      exact hread t (by omega)

/-- The chunk's words in their order. -/
theorem zipIdx_chunksExact {chunk : List UInt8} (h : chunk.length = 64) :
    (chunksExact 4 chunk).zipIdx = (List.range' 0 16).map fun i => ((chunk.drop (i * 4)).take 4, i) := by
  rw [chunksExact, h, List.zipIdx_map]
  rfl

/-- **The array of the schedule holds the standard's words.** -/
theorem schedule_spec {chunk : List UInt8} (h : chunk.length = 64) {t : Nat} (ht : t < 64) :
    ((schedule chunk)[t]!).toBitVec = Fips180.schedule (Fips180.word (bitsOf chunk)) t := by
  set v := fun t => UInt32.ofBitVec (Fips180.schedule (Fips180.word (bitsOf chunk)) t)
  have hword : ∀ i < 16, wordAt chunk i = v i := by
    intro i hi
    show _ = UInt32.ofBitVec _
    rw [Fips180.schedule_lt hi, word_bitsOf]
  obtain ⟨hlen, hfirst⟩ := foldl_write (f := fun _ i => wordAt chunk i) (v := v) 0 16
    (w := List.replicate 64 0) (by decide) (fun t ht => absurd ht (Nat.not_lt_zero t))
    fun w' i _ hi _ => hword i (by omega)
  set w := (List.range' 0 16).foldl (fun w i => w.set i (wordAt chunk i)) (List.replicate 64 0)
  have hrest : ∀ w' : List UInt32, ∀ i, 16 ≤ i → i < 16 + 48 → (∀ t < i, w'[t]! = v t) → extended w' i = v i := by
    intro w' i hi _ hread
    rw [← UInt32.toBitVec_inj, extended, hread (i - 16) (by omega), hread (i - 15) (by omega),
      hread (i - 7) (by omega), hread (i - 2) (by omega)]
    rw [UInt32.toBitVec_add, UInt32.toBitVec_add, UInt32.toBitVec_add, toBitVec_s0, toBitVec_s1]
    show _ = Fips180.schedule _ i
    rw [Fips180.schedule_ge hi]
    show Fips180.schedule _ _ + Fips180.smallSigma0 _ + Fips180.schedule _ _ + Fips180.smallSigma1 _ = _
    ac_rfl
  obtain ⟨-, hread⟩ := foldl_write 16 48 (w := w) (by rw [hlen]; decide) hfirst hrest
  rw [schedule, zipIdx_chunksExact h, List.foldl_map]
  exact congrArg UInt32.toBitVec (hread t ht)

/-! ## The rounds -/

def Working.words (v : Working) : Fips180.Vars :=
  ⟨v.a.toBitVec, v.b.toBitVec, v.c.toBitVec, v.d.toBitVec, v.e.toBitVec, v.f.toBitVec, v.g.toBitVec, v.hh.toBitVec⟩

/-- The primes the standard takes the roots of. -/
def primes : List Nat := [
  2, 3, 5, 7, 11, 13, 17, 19, 23, 29, 31, 37, 41, 43, 47, 53, 59, 61, 67, 71, 73, 79, 83, 89, 97, 101, 103, 107, 109,
  113, 127, 131, 137, 139, 149, 151, 157, 163, 167, 173, 179, 181, 191, 193, 197, 199, 211, 223, 227, 229, 233, 239,
  241, 251, 257, 263, 269, 271, 277, 281, 283, 293, 307, 311]

/-- Every prime up to the last of them is one of them. -/
theorem filter_prime : (List.range 312).filter (fun n => n.Prime) = primes := by
  have hdivisor : ∀ n : Nat, n ∈ List.range 312 →
      decide n.Prime = decide (2 ≤ n ∧ ∀ m : Nat, m < 18 → ¬ (2 ≤ m ∧ m < n ∧ n % m = 0)) := by
    intro n hn
    rw [List.mem_range] at hn
    rw [decide_eq_decide]
    refine ⟨fun h => ⟨h.two_le, fun m _ hm => ?_⟩, fun h => Nat.prime_def_le_sqrt.2 ⟨h.1, fun m hm hsqrt hdvd => ?_⟩⟩
    · exact (Nat.prime_def_lt'.1 h).2 m hm.1 hm.2.1 (Nat.dvd_of_mod_eq_zero hm.2.2)
    · have hle := Nat.le_sqrt.1 hsqrt
      exact h.2 m (by nlinarith) ⟨hm, by nlinarith, Nat.mod_eq_zero_of_dvd hdvd⟩
  rw [List.filter_congr hdivisor]
  decide +kernel

theorem nth_prime {t : Nat} (ht : t < 64) : Nat.nth Nat.Prime t = primes[t]! := by
  refine Fips180.nth_of_filter_range 312 ?_
  rw [filter_prime, List.getElem!_eq_getElem?_getD, List.getElem?_eq_getElem ht]
  rfl

/-- A word whose fraction starts a root. -/
def Roots (k p : Nat) (c : UInt32) : Prop :=
  ∃ q < 7, (q * 2 ^ 32 + c.toNat) ^ k ≤ p * 2 ^ (32 * k) ∧ p * 2 ^ (32 * k) < (q * 2 ^ 32 + c.toNat + 1) ^ k

instance (k p : Nat) (c : UInt32) : Decidable (Roots k p c) := inferInstanceAs (Decidable (∃ q < 7, _))

theorem Roots.eq {k p : Nat} {c : UInt32} (h : Roots k p c) : c.toBitVec = Fips180.fracRoot k p := by
  obtain ⟨q, -, hlo, hhi⟩ := h
  rw [Fips180.fracRoot_eq hlo hhi, ← BitVec.toNat_inj, BitVec.toNat_ofNat, Nat.mul_add_mod_of_lt c.toNat_lt]
  rfl

/-- **The code's constants are the standard's.** -/
theorem K_spec {t : Nat} (ht : t < 64) : (K[t]!).toBitVec = Fips180.constant t := by
  have hroots : ∀ t < 64, Roots 3 primes[t]! K[t]! := by decide +kernel
  rw [Fips180.constant, nth_prime ht]
  exact (hroots t ht).eq

theorem round_spec {w : List UInt32} {v : Working} {i : Nat} {w' : Nat → Fips180.Word}
    (hi : i < 64) (hw : (w[i]!).toBitVec = w' i) (start : Fips180.Vars) (hv : v.words = Fips180.working w' start i) :
    (round w v i).words = Fips180.working w' start (i + 1) := by
  rw [Fips180.working, ← hv, ← hw, ← K_spec hi]
  rfl

theorem rounds_spec {w : List UInt32} {v : Working} {w' : Nat → Fips180.Word} {n : Nat}
    (hw : ∀ i < n, (w[i]!).toBitVec = w' i) (hn : n ≤ 64) :
    ((List.range n).foldl (round w) v).words = Fips180.working w' v.words n := by
  induction n with
  | zero => rfl
  | succ n ih =>
    rw [List.range_succ, List.foldl_append]
    exact round_spec (by omega) (hw n (by omega)) _ (ih (fun i hi => hw i (by omega)) (by omega))

/-! ## The hash value -/

/-- The eight words of a hash value. -/
def hashOf (h : List UInt32) : Fips180.Vars := (Working.start h).words

theorem eight {h : List UInt32} (hlen : h.length = 8) : ∃ a b c d e f g hh, h = [a, b, c, d, e, f, g, hh] := by
  rcases h with _ | ⟨a, _ | ⟨b, _ | ⟨c, _ | ⟨d, _ | ⟨e, _ | ⟨f, _ | ⟨g, _ | ⟨hh, _ | ⟨i, h⟩⟩⟩⟩⟩⟩⟩⟩⟩
  case cons.cons.cons.cons.cons.cons.cons.cons.nil => exact ⟨a, b, c, d, e, f, g, hh, rfl⟩
  all_goals exact absurd hlen (by simp)

theorem H0_spec : hashOf H0 = Fips180.initial := by
  have hroots : ∀ t < 8, Roots 2 primes[t]! H0[t]! := by decide +kernel
  have hword : ∀ t < 8, (H0[t]!).toBitVec = Fips180.initialWord t := by
    intro t ht
    rw [Fips180.initialWord, nth_prime (by omega)]
    exact (hroots t ht).eq
  rw [Fips180.initial, ← hword 0 (by decide), ← hword 1 (by decide), ← hword 2 (by decide), ← hword 3 (by decide),
    ← hword 4 (by decide), ← hword 5 (by decide), ← hword 6 (by decide), ← hword 7 (by decide)]
  rfl

/-- A chunk's rounds compress the block of its bits. -/
theorem compress_spec {h : List UInt32} {chunk : List UInt8} (hlen : h.length = 8) (hchunk : chunk.length = 64) :
    (compress h chunk).length = 8 ∧ hashOf (compress h chunk) = Fips180.compress (hashOf h) (bitsOf chunk) := by
  have hrounds : ((List.range 64).foldl (round (schedule chunk)) (Working.start h)).words
      = Fips180.working (Fips180.schedule (Fips180.word (bitsOf chunk))) (hashOf h) 64 :=
    rounds_spec (fun i hi => schedule_spec hchunk hi) le_rfl
  rw [Fips180.compress, ← hrounds]
  obtain ⟨a, b, c, d, e, f, g, hh, rfl⟩ := eight hlen
  exact ⟨rfl, rfl⟩

theorem foldl_compress {chunks : List (List UInt8)} {h : List UInt32} (hlen : h.length = 8)
    (hchunks : ∀ c ∈ chunks, c.length = 64) :
    (chunks.foldl compress h).length = 8 ∧
      hashOf (chunks.foldl compress h) = (chunks.map bitsOf).foldl Fips180.compress (hashOf h) := by
  induction chunks generalizing h with
  | nil => exact ⟨hlen, rfl⟩
  | cons c chunks ih =>
    rw [List.forall_mem_cons] at hchunks
    obtain ⟨hlen', hstep⟩ := compress_spec hlen hchunks.1
    rw [List.foldl_cons, List.map_cons, List.foldl_cons, ← hstep]
    exact ih hlen' hchunks.2

theorem bitsOf_words {h : List UInt32} (hlen : h.length = 8) :
    bitsOf (h.flatMap fun word => toBE 4 word.toNat) = (hashOf h).bits := by
  obtain ⟨a, b, c, d, e, f, g, hh, rfl⟩ := eight hlen
  simp only [List.flatMap_cons, List.flatMap_nil, bitsOf_append, bitsOf_toBE]
  rfl

/-- **The workspace's SHA-256 is the standard's.** The loop of the padding ends, with whole chunks
and no more than the message, the marker and the length take, and no two messages are padded
alike. -/
theorem sha256_eq_digest {data : List UInt8} (h : data.length < 2 ^ 61) :
    bitsOf (sha256 data) = Fips180.digest (bitsOf data) ∧
      (∃ k < 64, pad data = data ++ [0x80] ++ List.replicate k 0 ++ toBE 8 (8 * data.length)) ∧
      ((pad data).length % 64 = 0 ∧ ∀ n, n % 64 = 0 → data.length + 1 + 8 ≤ n → (pad data).length ≤ n) ∧
      ∀ other : List UInt8, other.length < 2 ^ 61 → pad data = pad other → data = other := by
  refine ⟨?_, ?_, pad_least h, fun other hother heq => pad_inj h hother heq⟩
  · obtain ⟨hlen, hfold⟩ := foldl_compress (h := H0) rfl fun c hc => mem_chunksExact (n := 64) (l := pad data) hc
    rw [sha256, bitsOf_words hlen, hfold, H0_spec, Fips180.digest, ← bitsOf_pad h, blocks_bitsOf]
  · obtain ⟨k, hk, hpush, -⟩ := pushZeros_spec (data ++ [0x80])
    exact ⟨k, hk, by rw [pad, hpush, toNat_bitLen h]⟩

theorem sha256_eq_digest_sample :
    bitsOf (sha256 [0x61, 0x62, 0x63]) = Fips180.digest (bitsOf [0x61, 0x62, 0x63]) := by
  have h := @sha256_eq_digest [0x61, 0x62, 0x63] (by decide)
  exact h.1

end Grmpl.Sha256

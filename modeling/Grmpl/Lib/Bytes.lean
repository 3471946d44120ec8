import Mathlib.Data.List.Basic
import Mathlib.Data.List.Induction
import Mathlib.Data.Nat.Notation
import Mathlib.Tactic.Ring

/-!
# Reading back what was written

Numbers as big-endian bytes, and byte strings met inside longer ones.

* `toBE`, `ofBE`, `ofBE_toBE`, `toBE_ofBE`: a number in a fixed width, and back.
* `Holds bytes pos bs`: the bytes from a position on start with `bs`.
* `slice`, `Holds.slice`: a counted read of them.
-/

namespace Bytes

/-- A number in a width of bytes, the most significant first. -/
def toBE : Nat → Nat → List UInt8
  | 0, _ => []
  | width + 1, n => toBE width (n / 256) ++ [UInt8.ofNat n]

def ofBE (bs : List UInt8) : Nat := bs.foldl (fun n b => n * 256 + b.toNat) 0

@[simp] theorem length_toBE (width n : Nat) : (toBE width n).length = width := by
  induction width generalizing n with
  | zero => rfl
  | succ width ih => simp [toBE, ih]

/-- A number that fits its width is read back. -/
theorem ofBE_toBE (width n : Nat) (h : n < 256 ^ width) : ofBE (toBE width n) = n := by
  induction width generalizing n with
  | zero =>
    obtain rfl : n = 0 := by omega
    rfl
  | succ width ih =>
    have hdiv : n / 256 < 256 ^ width := by
      rw [pow_succ] at h
      exact Nat.div_lt_of_lt_mul (by rw [mul_comm]; exact h)
    have hread := ih _ hdiv
    unfold ofBE at hread ⊢
    rw [toBE, List.foldl_append, hread]
    simp only [List.foldl_cons, List.foldl_nil, UInt8.toNat_ofNat']
    omega

theorem ofBE_concat (bs : List UInt8) (b : UInt8) : ofBE (bs ++ [b]) = ofBE bs * 256 + b.toNat := by
  simp [ofBE]

theorem ofBE_lt (bs : List UInt8) : ofBE bs < 256 ^ bs.length := by
  induction bs using List.reverseRecOn with
  | nil => simp [ofBE]
  | append_singleton bs b ih =>
    rw [ofBE_concat, List.length_append, List.length_singleton, pow_succ]
    have hb := b.toNat_lt
    omega

/-- The bytes of a number are the only ones that spell it. -/
theorem toBE_ofBE (bs : List UInt8) : toBE bs.length (ofBE bs) = bs := by
  induction bs using List.reverseRecOn with
  | nil => rfl
  | append_singleton bs b ih =>
    have hb := b.toNat_lt
    have hdiv : ofBE (bs ++ [b]) / 256 = ofBE bs := by
      rw [ofBE_concat]
      omega
    have hlast : UInt8.ofNat (ofBE (bs ++ [b])) = b := by
      apply UInt8.toNat_inj.1
      rw [ofBE_concat, UInt8.toNat_ofNat']
      omega
    rw [List.length_append, List.length_singleton, toBE, hdiv, hlast, ih]

/-- The bytes from a position on start with these. -/
def Holds (bytes : List UInt8) (pos : Nat) (bs : List UInt8) : Prop :=
  ∃ pre post, bytes = pre ++ (bs ++ post) ∧ pre.length = pos

variable {bytes as bs : List UInt8} {pos : Nat}

theorem Holds.left (h : Holds bytes pos (as ++ bs)) : Holds bytes pos as := by
  obtain ⟨pre, post, rfl, hlen⟩ := h
  exact ⟨pre, bs ++ post, by simp, hlen⟩

theorem Holds.right (h : Holds bytes pos (as ++ bs)) : Holds bytes (pos + as.length) bs := by
  obtain ⟨pre, post, rfl, hlen⟩ := h
  exact ⟨pre ++ as, post, by simp, by simp [hlen]⟩

theorem Holds.get {b : UInt8} (h : Holds bytes pos (b :: bs)) : bytes[pos]? = some b := by
  obtain ⟨pre, post, rfl, rfl⟩ := h
  simp

theorem Holds.tail {b : UInt8} (h : Holds bytes pos (b :: bs)) : Holds bytes (pos + 1) bs :=
  (show Holds bytes pos ([b] ++ bs) from h).right

/-- The bytes of a length at a position, if there are so many. -/
def slice (bytes : List UInt8) (pos len : Nat) : Option (List UInt8) :=
  if pos + len ≤ bytes.length then some ((bytes.drop pos).take len) else none

theorem Holds.slice (h : Holds bytes pos bs) : slice bytes pos bs.length = some bs := by
  obtain ⟨pre, post, rfl, rfl⟩ := h
  rw [Bytes.slice, if_pos (by simp), List.drop_left, List.take_left]

theorem holds_iff : Holds bytes pos bs ↔ slice bytes pos bs.length = some bs := by
  refine ⟨Holds.slice, fun h => ?_⟩
  unfold Bytes.slice at h
  split_ifs at h with hle
  refine ⟨bytes.take pos, bytes.drop (pos + bs.length), ?_, by simp; omega⟩
  have htake := Option.some.inj h
  have htail : bs ++ bytes.drop (pos + bs.length) = bytes.drop pos := by
    rw [← List.drop_drop]
    nth_rewrite 1 [← htake]
    exact List.take_append_drop _ _
  rw [htail, List.take_append_drop]

theorem slice_eq_some {len : Nat} (h : slice bytes pos len = some bs) :
    bs.length = len ∧ Holds bytes pos bs := by
  have hlen : bs.length = len := by
    unfold Bytes.slice at h
    split_ifs at h with hle
    rw [← Option.some.inj h, List.length_take, List.length_drop]
    omega
  exact ⟨hlen, holds_iff.2 (by rw [hlen]; exact h)⟩

theorem Holds.append (h : Holds bytes pos as) (h' : Holds bytes (pos + as.length) bs) :
    Holds bytes pos (as ++ bs) := by
  obtain ⟨pre, post, rfl, rfl⟩ := h
  obtain ⟨pre', post', heq, hlen⟩ := h'
  rw [← List.append_assoc] at heq
  obtain ⟨rfl, rfl⟩ := List.append_inj heq (by simp [hlen])
  exact ⟨pre, post', by simp, rfl⟩

theorem holds_singleton {b : UInt8} (h : bytes[pos]? = some b) : Holds bytes pos [b] := by
  obtain ⟨hlt, hb⟩ := List.getElem?_eq_some_iff.1 h
  refine ⟨bytes.take pos, bytes.drop (pos + 1), ?_, by simp; omega⟩
  rw [← hb, List.singleton_append, ← List.drop_eq_getElem_cons hlt, List.take_append_drop]

theorem holds_nil (h : pos ≤ bytes.length) : Holds bytes pos [] :=
  ⟨bytes.take pos, bytes.drop pos, by simp, by simpa using h⟩

theorem Holds.le (h : Holds bytes pos bs) : pos + bs.length ≤ bytes.length := by
  obtain ⟨pre, post, rfl, rfl⟩ := h
  simp

/-- A string of bytes at a position stays there when more follow. -/
theorem Holds.more (h : Holds bytes pos bs) (rest : List UInt8) : Holds (bytes ++ rest) pos bs := by
  obtain ⟨pre, post, rfl, hlen⟩ := h
  exact ⟨pre, post ++ rest, by simp, hlen⟩

/-- The bytes from one position to another. -/
def consumed (bytes : List UInt8) (pos next : Nat) : List UInt8 := (bytes.drop pos).take (next - pos)

theorem Holds.consumed (h : Holds bytes pos bs) : consumed bytes pos (pos + bs.length) = bs := by
  obtain ⟨pre, post, rfl, rfl⟩ := h
  rw [Bytes.consumed, Nat.add_sub_cancel_left, List.drop_left, List.take_left]

end Bytes

import Grmpl.Lib.Bytes

/-!
# Formats

A reader of positions in a string of bytes against a writer: what the writer writes is
read back, what is read was written, piece by piece, and everything else is refused. Some
pieces may have other spellings than the one that is written; each leaves marks, which say
whether it is that one. Formats of parts make the format of the whole, one read after the
other.

* `Spelt`: bytes that spell what is written, and the marks they leave.
* `Format`: a reader against a writer.
* `Format.bind`, `Format.pure`, `Format.ite`, `Format.fail`: readers put together.
-/

open Bytes

variable {ε α β μ : Type}

/-- The bytes from a position to another spell what is written: pieces of it as they are,
and pieces spelt some other way, with the marks these leave. -/
inductive Spelt (bytes : List UInt8) (S : Nat → Nat → List UInt8 → List μ → Prop) :
    Nat → Nat → List UInt8 → List μ → Prop
  | nil (pos : Nat) : Spelt bytes S pos pos [] []
  | exact {pos : Nat} {code : List UInt8} : Holds bytes pos code →
      Spelt bytes S pos (pos + code.length) code []
  | piece {pos next : Nat} {code : List UInt8} {ms : List μ} : S pos next code ms →
      Spelt bytes S pos next code ms
  | append {pos mid next : Nat} {code code' : List UInt8} {ms ms' : List μ} :
      Spelt bytes S pos mid code ms → Spelt bytes S mid next code' ms' →
      Spelt bytes S pos next (code ++ code') (ms ++ ms')

/-- A reader of what a writer writes, some of it in other spellings, that refuses the rest. -/
structure Format (bytes : List UInt8) (S : Nat → Nat → List UInt8 → List μ → Prop) (Refusal : ε → Prop)
    (get : Nat → Except ε (α × Nat)) (Writes : α → List UInt8 → Prop) : Prop where
  back : ∀ {x code pos}, Writes x code → Holds bytes pos code → get pos = .ok (x, pos + code.length)
  read : ∀ {x pos next}, get pos = .ok (x, next) → ∃ code ms, Writes x code ∧ Spelt bytes S pos next code ms
  refuse : ∀ {pos e}, get pos = .error e → Refusal e

namespace Format

variable {bytes : List UInt8} {S : Nat → Nat → List UInt8 → List μ → Prop} {Refusal : ε → Prop}
  {get : Nat → Except ε (α × Nat)} {W W' : α → List UInt8 → Prop}

/-- The same writer told otherwise. -/
theorem congr (h : Format bytes S Refusal get W) (hW : ∀ x code, W x code ↔ W' x code) :
    Format bytes S Refusal get W' where
  back hx := h.back ((hW _ _).2 hx)
  read hr := let ⟨code, ms, hw, hs⟩ := h.read hr; ⟨code, ms, (hW _ _).1 hw, hs⟩
  refuse := h.refuse

/-- One read after another. -/
theorem bind {k : α × Nat → Except ε (β × Nat)} {V : α → β → List UInt8 → Prop}
    (h : Format bytes S Refusal get W) (hk : ∀ a, Format bytes S Refusal (fun pos => k (a, pos)) (V a)) :
    Format bytes S Refusal (fun pos => get pos >>= k)
      (fun y code => ∃ a ca cb, W a ca ∧ V a y cb ∧ code = ca ++ cb) where
  back := by
    rintro y _ pos ⟨a, ca, cb, ha, hb, rfl⟩ hholds
    rw [h.back ha hholds.left]
    show k (a, pos + ca.length) = _
    rw [(hk a).back hb hholds.right, List.length_append, Nat.add_assoc]
  read := by
    intro y pos next hr
    cases hg : get pos with
    | error e =>
      rw [hg] at hr
      cases hr
    | ok p =>
      rw [hg] at hr
      have hfirst : get pos = .ok (p.1, p.2) := hg
      obtain ⟨ca, ms, ha, hsa⟩ := h.read hfirst
      obtain ⟨cb, ms', hb, hsb⟩ := (hk p.1).read hr
      exact ⟨_, _, ⟨p.1, ca, cb, ha, hb, rfl⟩, hsa.append hsb⟩
  refuse := by
    intro pos e hr
    cases hg : get pos with
    | error e' =>
      rw [hg] at hr
      cases hr
      exact h.refuse hg
    | ok p =>
      rw [hg] at hr
      have hrest : k (p.1, p.2) = .error e := hr
      exact (hk p.1).refuse hrest

/-- Nothing left to read. -/
theorem pure (y : β) : Format bytes S Refusal (fun pos => .ok (y, pos)) (fun z code => z = y ∧ code = []) where
  back := by
    rintro _ _ pos ⟨rfl, rfl⟩ _
    rfl
  read := by
    intro z pos next hr
    cases hr
    exact ⟨[], [], ⟨rfl, rfl⟩, .nil pos⟩
  refuse := nofun

/-- Nothing that is written. -/
theorem fail {e : ε} (he : Refusal e) (hW : ∀ x code, ¬ W x code) :
    Format bytes S Refusal (fun _ => .error e) W where
  back := fun h => absurd h (hW _ _)
  read := nofun
  refuse := by
    intro pos e' hr
    cases hr
    exact he

/-- One of two readers, whichever it is. -/
theorem ite {p : Prop} [Decidable p] {f g : Nat → Except ε (α × Nat)}
    (hf : p → Format bytes S Refusal f W) (hg : ¬ p → Format bytes S Refusal g W) :
    Format bytes S Refusal (fun pos => if p then f pos else g pos) W := by
  by_cases hp : p
  · simpa only [if_pos hp] using hf hp
  · simpa only [if_neg hp] using hg hp

end Format

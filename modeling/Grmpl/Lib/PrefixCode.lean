import Grmpl.Lib.Bytes

/-!
# Prefix codes

A code no word of which begins another: what is spelt can be told from its start, whatever
follows, so that codes put one after another are codes again, and a list behind its length.

* `Delimits`, `PrefixCode`: one word, and all of them, told from what follows.
* `PrefixCode.seq`, `PrefixCode.fixed`, `PrefixCode.toBE`: codes put together.
* `PrefixCode.list`: a list behind its length.
-/

open Bytes

universe u v

variable {α : Type u} {γ : Type v} {β δ : Type*}

/-- Whatever follows, the word of `a` is not taken for another's. -/
def Delimits (enc : α → List δ) (P : α → Prop) (a : α) : Prop :=
  ∀ b, P b → ∀ x y, enc a ++ x = enc b ++ y → a = b ∧ x = y

/-- No word begins another's. -/
def PrefixCode (enc : α → List δ) (P : α → Prop) : Prop := ∀ a, P a → Delimits enc P a

namespace PrefixCode

variable {enc : α → List δ} {P Q : α → Prop}

theorem mono (h : PrefixCode enc P) (hQ : ∀ a, Q a → P a) : PrefixCode enc Q :=
  fun a ha b hb => h a (hQ a ha) b (hQ b hb)

/-- Words of one length that differ. -/
theorem fixed {width : Nat} (hlen : ∀ a, P a → (enc a).length = width)
    (hinj : ∀ a b, P a → P b → enc a = enc b → a = b) : PrefixCode enc P := by
  intro a ha b hb x y h
  obtain ⟨hab, hxy⟩ := List.append_inj h (by rw [hlen a ha, hlen b hb])
  exact ⟨hinj a b ha hb hab, hxy⟩

/-- One code after another, the two parts telling the whole. -/
theorem seq {f : α → β} {g : α → γ} {c : β → List δ} {d : γ → List δ} {Pf : β → Prop} {Pg : γ → Prop}
    (hf : PrefixCode c Pf) (hg : PrefixCode d Pg)
    (htells : ∀ a b, P a → P b → f a = f b → g a = g b → a = b) (hPf : ∀ a, P a → Pf (f a))
    (hPg : ∀ a, P a → Pg (g a)) : PrefixCode (fun a => c (f a) ++ d (g a)) P := by
  intro a ha b hb x y h
  simp only [List.append_assoc] at h
  obtain ⟨hfab, hrest⟩ := hf _ (hPf a ha) _ (hPf b hb) _ _ h
  obtain ⟨hgab, hxy⟩ := hg _ (hPg a ha) _ (hPg b hb) _ _ hrest
  exact ⟨htells a b ha hb hfab hgab, hxy⟩

/-- A code of what is told by a part. -/
theorem comap {f : β → α} {Pb : β → Prop} (h : PrefixCode enc P)
    (htells : ∀ a b, Pb a → Pb b → f a = f b → a = b)
    (hP : ∀ b, Pb b → P (f b)) : PrefixCode (fun b => enc (f b)) Pb := by
  intro a ha b hb x y heq
  obtain ⟨hab, hxy⟩ := h _ (hP a ha) _ (hP b hb) x y heq
  exact ⟨htells a b ha hb hab, hxy⟩

theorem toBE (width : Nat) : PrefixCode (Bytes.toBE width) (· < 256 ^ width) :=
  fixed (fun a _ => length_toBE width a) fun a b ha hb h => by
    rw [← ofBE_toBE width a ha, h, ofBE_toBE width b hb]

end PrefixCode

section Lists

variable {enc : α → List δ} {P : α → Prop}

/-- As many words one after another as are expected. -/
theorem flatMap_delimits : ∀ {as bs : List α}, as.length = bs.length → (∀ a ∈ as, Delimits enc P a) →
    (∀ b ∈ bs, P b) → ∀ {x y : List δ}, as.flatMap enc ++ x = bs.flatMap enc ++ y → as = bs ∧ x = y
  | [], [], _, _, _, _, _, h => ⟨rfl, by simpa using h⟩
  | a :: as, b :: bs, hlen, has, hbs, x, y, h => by
      rw [List.flatMap_cons, List.flatMap_cons, List.append_assoc, List.append_assoc] at h
      obtain ⟨rfl, hrest⟩ := has a List.mem_cons_self b (hbs b List.mem_cons_self) _ _ h
      obtain ⟨rfl, hxy⟩ := flatMap_delimits (Nat.succ.inj hlen)
        (fun a ha => has a (List.mem_cons_of_mem _ ha)) (fun b hb => hbs b (List.mem_cons_of_mem _ hb)) hrest
      exact ⟨rfl, hxy⟩

/-- A list behind its length, one whose elements are delimited. -/
theorem list_delimits {enc : α → List UInt8} {width : Nat} {as : List α} (hlen : as.length < 256 ^ width)
    (has : ∀ a ∈ as, Delimits enc P a) :
    Delimits (fun l => Bytes.toBE width l.length ++ l.flatMap enc)
      (fun l => l.length < 256 ^ width ∧ ∀ a ∈ l, P a) as := by
  intro bs hbs x y h
  simp only [List.append_assoc] at h
  obtain ⟨hcount, hrest⟩ := PrefixCode.toBE width _ hlen _ hbs.1 _ _ h
  exact flatMap_delimits hcount has hbs.2 hrest

theorem PrefixCode.list {enc : α → List UInt8} (h : PrefixCode enc P) (width : Nat) :
    PrefixCode (fun l : List α => Bytes.toBE width l.length ++ l.flatMap enc)
      (fun l => l.length < 256 ^ width ∧ ∀ a ∈ l, P a) :=
  fun _ hl => list_delimits hl.1 fun a ha => h a (hl.2 a ha)

end Lists

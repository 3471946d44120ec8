import Mathlib.Order.WellFounded
import Mathlib.Data.Set.Finite.Basic
import Mathlib.Data.Finite.Defs
import Mathlib.Order.Preorder.Finite

/-!
# Rounds until nothing changes

One round takes a state to the next; rounds are gone through until a round leaves the
state as it was. Where a round keeps the order of two states, going on from below a fixed
state never leaves the states below it, and an ascent within finitely many states ends.

* `Settles`: where the rounds from a state end.
* `Settles.le`: below every fixed state above the start.
* `exists_settles`: an ascent within finitely many states ends.
-/

namespace Rounds

variable {S : Type*} {round : S → S → Prop}

/-- The rounds from a state end in another. -/
inductive Settles (round : S → S → Prop) : S → S → Prop
  | still {s : S} : round s s → Settles round s s
  | on {s s' t : S} : round s s' → s' ≠ s → Settles round s' t → Settles round s t

/-- Where the rounds end, a round changes nothing. -/
theorem Settles.fixed {s t : S} (h : Settles round s t) : round t t := by
  induction h with
  | still h => exact h
  | on _ _ _ ih => exact ih

section Order

variable [Preorder S]

/-- **The end is below every fixed state above the start.** -/
theorem Settles.le {P : S → Prop} {s t u : S} (h : Settles round s t)
    (hkeep : ∀ a b, P a → round a b → P b)
    (hmono : ∀ a b a' b', P a → P b → round a a' → round b b' → a ≤ b → a' ≤ b') (hP : P u)
    (hu : round u u) : P s → s ≤ u → t ≤ u := by
  induction h with
  | still _ => exact fun _ => id
  | on hr _ _ ih => exact fun hs hle => ih (hkeep _ _ hs hr) (hmono _ _ _ _ hs hP hr hu hle)

/-- **An ascent within finitely many states ends.** -/
theorem exists_settles {P : S → Prop} (hfin : {s | P s}.Finite)
    (hanti : ∀ a b, P a → P b → a ≤ b → b ≤ a → a = b)
    (hround : ∀ s, P s → ∃ s', round s s' ∧ P s')
    (hmono : ∀ a b a' b', P a → P b → round a a' → round b b' → a ≤ b → a' ≤ b') {s s' : S} (hs : P s)
    (hfirst : round s s') (hs' : P s') (hup : s ≤ s') : ∃ t, Settles round s t := by
  have hwf : WellFounded fun a b : {s | P s} => (b : S) < a :=
    haveI := hfin.to_subtype
    Finite.wellFounded_of_trans_of_irrefl _
  -- on how far a state can still rise
  suffices ∀ (x : {s | P s}) (s' : S), round x s' → P s' → (x : S) ≤ s' → ∃ t, Settles round x t from
    this ⟨s, hs⟩ s' hfirst hs' hup
  intro x
  induction x using hwf.induction with
  | _ x ih =>
    intro s' hr hs' hle
    by_cases heq : s' = x
    · exact ⟨x, .still (heq ▸ hr)⟩
    · have hlt : (x : S) < s' := lt_of_le_not_ge hle fun hge => heq (hanti _ _ hs' x.2 hge hle)
      obtain ⟨s'', hr', hs''⟩ := hround s' hs'
      obtain ⟨t, ht⟩ := ih ⟨s', hs'⟩ hlt s'' hr' hs'' (hmono _ _ _ _ x.2 hs' hr hr' hle)
      exact ⟨t, .on hr heq ht⟩

end Order

end Rounds

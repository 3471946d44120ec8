import Mathlib.Data.List.Basic

/-!
# Loops that spend fuel

A loop goes round until it ends or its fuel is gone. One trip round it either spends
a unit of fuel and goes on from another state, or ends.

* `Trip`, `spend`: one trip, and as many as there is fuel for.
* `Spent`: a state some trips away, each of which spent its unit.
* `spend_add`: to go on with more fuel is to have had it from the start.
* `spend_left`, `spend_right`: how a loop stopped.
* `spend_map`: a loop that goes round as another does.
-/

namespace Fuelled

variable {S R : Type}

/-- What one trip round a loop comes to. -/
inductive Trip (S R : Type) where
  | spent (s : S)
  | ended (r : R)

/-- The loop with so much fuel: where it stood when that was gone, or how it ended. -/
def spend (trip : S → Trip S R) : Nat → S → S ⊕ R
  | 0, s => .inl s
  | fuel + 1, s =>
      match trip s with
      | .spent s' => spend trip fuel s'
      | .ended r => .inr r

/-- A state so many trips away. -/
inductive Spent (trip : S → Trip S R) : Nat → S → S → Prop
  | none (s : S) : Spent trip 0 s s
  | more {n : Nat} {s s' t : S} : trip s = .spent s' → Spent trip n s' t → Spent trip (n + 1) s t

variable {trip : S → Trip S R} {s t : S} {r : R}

/-- **Fuel adds up**: a loop that ran out goes on as if it had had the rest all along, and
one that ended is as it was. -/
theorem spend_add (a b : Nat) (s : S) : spend trip (a + b) s =
    match spend trip a s with
    | .inl t => spend trip b t
    | .inr r => .inr r := by
  induction a generalizing s with
  | zero =>
    rw [Nat.zero_add]
    rfl
  | succ a ih =>
    rw [Nat.add_right_comm, spend, spend]
    cases trip s with
    | spent s' => exact ih s'
    | ended r => rfl

/-- A loop whose fuel ran out spent all of it. -/
theorem spend_left {fuel : Nat} (h : spend trip fuel s = .inl t) : Spent trip fuel s t := by
  induction fuel generalizing s with
  | zero =>
    cases h
    exact .none _
  | succ fuel ih =>
    rw [spend] at h
    cases hs : trip s with
    | spent s' =>
      rw [hs] at h
      exact .more hs (ih h)
    | ended r =>
      rw [hs] at h
      cases h

/-- A loop that ended spent less than its fuel before its last trip. -/
theorem spend_right {fuel : Nat} (h : spend trip fuel s = .inr r) :
    ∃ n t, n < fuel ∧ Spent trip n s t ∧ trip t = .ended r := by
  induction fuel generalizing s with
  | zero => cases h
  | succ fuel ih =>
    rw [spend] at h
    cases hs : trip s with
    | spent s' =>
      rw [hs] at h
      obtain ⟨n, t, hn, hspent, hended⟩ := ih h
      exact ⟨n + 1, t, Nat.succ_lt_succ hn, .more hs hspent, hended⟩
    | ended r' =>
      rw [hs] at h
      cases h
      exact ⟨0, s, Nat.succ_pos fuel, .none s, hs⟩

/-- What every trip keeps, any number of them keeps. -/
theorem Spent.invariant {I : S → Prop} {n : Nat} (h : Spent trip n s t) (hs : I s)
    (hstep : ∀ s t, I s → trip s = .spent t → I t) : I t := by
  induction h with
  | none => exact hs
  | more htrip _ ih => exact ih (hstep _ _ hs htrip)

/-- What ends at once ends so with any fuel at all. -/
theorem spend_ended {fuel : Nat} (hpos : 0 < fuel) (h : trip s = .ended r) : spend trip fuel s = .inr r := by
  obtain ⟨n, rfl⟩ := Nat.exists_eq_add_of_lt hpos
  rw [Nat.zero_add, spend, h]

/-- A trip seen through what states and results become. -/
def Trip.map {S' R' : Type} (f : S → S') (g : R → R') : Trip S R → Trip S' R'
  | .spent s => .spent (f s)
  | .ended r => .ended (g r)

/-- **Loops that go round alike** stop alike. -/
theorem spend_map {S' R' : Type} {trip' : S' → Trip S' R'} {f : S → S'} {g : R → R'}
    (h : ∀ s, trip' (f s) = (trip s).map f g) (fuel : Nat) (s : S) :
    spend trip' fuel (f s) = (spend trip fuel s).map f g := by
  induction fuel generalizing s with
  | zero => rfl
  | succ fuel ih =>
    rw [spend, spend, h]
    cases trip s with
    | spent s' => exact ih s'
    | ended r => rfl

end Fuelled

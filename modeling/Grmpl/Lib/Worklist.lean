import Grmpl.Lib.OrdMap
import Mathlib.Logic.Relation
import Mathlib.Logic.Function.Iterate

/-!
# A walk that keeps the greatest value of each node

A point is a node at a value, and what follows a point only grows with its value. A stack of
points is worked off: a point is passed over if its node was met at no smaller value, and
otherwise raises its node to its value and puts what follows it on the stack.

* `Walk`, `pop`: the stack, the nodes in the order met, the greatest value of each.
* `Walking`, `Walking.pop`: what every step of a walk keeps.
* `Walking.covers_of_reaches`: once the stack is empty, whatever can be reached is covered.
* `visit`, `pops_visit`: the same walk by recursion, which the stack works off in so many steps.
-/

open OrdMap

namespace Worklist

/-- The points left to walk, the nodes met, and the greatest value of each. -/
structure Walk (B E : Type) where
  stack : List (B × E)
  order : List B
  best : List (B × E)

variable {B E : Type} [LinearOrder B] [LinearOrder E] (onward : B × E → List (B × E))

/-- A node was met at no smaller value. -/
def covers (best : List (B × E)) (x : B × E) : Bool := (lookup x.1 best).any (x.2 ≤ ·)

/-- The nodes met once a point is, and their values. -/
def meet (x : B × E) (acc : List B × List (B × E)) : List B × List (B × E) :=
  (if (lookup x.1 acc.2).isSome then acc.1 else acc.1 ++ [x.1], put x.1 x.2 acc.2)

/-- The point on top of the stack worked off. -/
def pop (w : Walk B E) : Walk B E :=
  match w.stack with
  | [] => w
  | x :: rest =>
      if covers w.best x then { w with stack := rest }
      else ⟨onward x ++ rest, (meet x (w.order, w.best)).1, (meet x (w.order, w.best)).2⟩

/-- A point can be walked to from another. -/
def Reaches : B × E → B × E → Prop := Relation.ReflTransGen fun x y => y ∈ onward x

section Covers

variable {best : List (B × E)} {x y : B × E}

theorem covers_iff : covers best x = true ↔ ∃ e, lookup x.1 best = some e ∧ x.2 ≤ e := by
  simp [covers, Option.any_eq_true]

/-- Raising a node uncovers nothing. -/
theorem covers_put (hx : covers best x = false) (hy : covers best y = true) : covers (put x.1 x.2 best) y = true := by
  obtain ⟨e, he, hle⟩ := covers_iff.1 hy
  rw [covers_iff, lookup_put]
  split_ifs with hb
  · refine ⟨x.2, rfl, hle.trans ?_⟩
    by_contra hlt
    rw [← Bool.not_eq_true, covers_iff] at hx
    exact hx ⟨e, hb ▸ he, (not_le.1 hlt).le⟩
  · exact ⟨e, he, hle⟩

theorem covers_put_self : covers (put x.1 x.2 best) x = true := covers_iff.2 ⟨x.2, lookup_put_self _ _ _, le_rfl⟩

end Covers

/-! ## What every step keeps -/

/-- A walk under way from a point. -/
structure Walking (start : B × E) (w : Walk B E) : Prop where
  met : ∀ b, b ∈ w.order ↔ (lookup b w.best).isSome
  nodup : w.order.Nodup
  /-- Nothing is walked that cannot be reached. -/
  sound : ∀ x, x ∈ w.stack ∨ lookup x.1 w.best = some x.2 → Reaches onward start x
  /-- What follows a node's greatest value is covered or still to be walked. -/
  closed : ∀ x, lookup x.1 w.best = some x.2 → ∀ y ∈ onward x, covers w.best y = true ∨ y ∈ w.stack
  started : covers w.best start = true ∨ start ∈ w.stack

variable {onward} {start : B × E} {w : Walk B E}

theorem walking_start (start : B × E) : Walking onward start ⟨[start], [], []⟩ where
  met b := by simp [lookup]
  nodup := .nil
  sound x hx := by
    rcases hx with hx | hx
    · rw [List.mem_singleton.1 hx]
      exact .refl
    · cases hx
  closed x hx := nomatch hx
  started := .inr (by simp)

/-- A point passed over leaves the walk as it is. -/
theorem Walking.skip {x : B × E} {rest : List (B × E)} (h : Walking onward start w) (hstack : w.stack = x :: rest)
    (hx : covers w.best x = true) : Walking onward start { w with stack := rest } := by
  have hleft : ∀ y, covers w.best y = true ∨ y ∈ w.stack → covers w.best y = true ∨ y ∈ rest := by
    rintro y (hy | hy)
    · exact .inl hy
    · rw [hstack, List.mem_cons] at hy
      rcases hy with rfl | hy
      · exact .inl hx
      · exact .inr hy
  refine ⟨h.met, h.nodup, fun y hy => h.sound y (hy.imp_left fun hy => ?_), fun y hy z hz => hleft z (h.closed y hy z hz),
    hleft start h.started⟩
  rw [hstack]
  exact List.mem_cons_of_mem _ hy

/-- A point that raises its node. -/
theorem Walking.raise {x : B × E} {rest : List (B × E)} (h : Walking onward start w) (hstack : w.stack = x :: rest)
    (hx : covers w.best x = false) :
    Walking onward start ⟨onward x ++ rest, (meet x (w.order, w.best)).1, put x.1 x.2 w.best⟩ := by
  have hreach : Reaches onward start x := h.sound x (.inl (by simp [hstack]))
  have hleft : ∀ y, covers w.best y = true ∨ y ∈ w.stack →
      covers (put x.1 x.2 w.best) y = true ∨ y ∈ onward x ++ rest := by
    rintro y (hy | hy)
    · exact .inl (covers_put hx hy)
    · rw [hstack, List.mem_cons] at hy
      rcases hy with rfl | hy
      · exact .inl covers_put_self
      · exact .inr (List.mem_append_right _ hy)
  constructor
  case met =>
    intro b
    simp only [meet, lookup_put]
    split_ifs with hsome hb hb
    · simp [hb, h.met, hsome]
    · exact h.met b
    · simp [hb]
    · simp [hb, h.met]
  case nodup =>
    simp only [meet]
    split_ifs with hsome
    · exact h.nodup
    · refine List.pairwise_append.2 ⟨h.nodup, List.pairwise_singleton _ _, fun b hb c hc => ?_⟩
      rw [List.mem_singleton.1 hc]
      rintro rfl
      exact hsome ((h.met _).1 hb)
  case sound =>
    intro y hy
    rcases hy with hy | hy
    · rcases List.mem_append.1 hy with hy | hy
      · exact hreach.tail hy
      · exact h.sound y (.inl (by simp [hstack, hy]))
    · rw [lookup_put] at hy
      split_ifs at hy with hb
      · rwa [show y = x from Prod.ext hb (Option.some.inj hy).symm]
      · exact h.sound y (.inr hy)
  case closed =>
    intro y hy z hz
    rw [lookup_put] at hy
    split_ifs at hy with hb
    · rw [show y = x from Prod.ext hb (Option.some.inj hy).symm] at hz
      exact .inr (List.mem_append_left _ hz)
    · exact hleft z (h.closed y hy z hz)
  case started => exact hleft start h.started

theorem Walking.pop (h : Walking onward start w) : Walking onward start (pop onward w) := by
  unfold Worklist.pop
  split
  · exact h
  · rename_i x rest hstack
    split_ifs with hx
    · exact h.skip hstack hx
    · exact h.raise hstack (by simpa using hx)

theorem Walking.pops (h : Walking onward start w) (n : Nat) : Walking onward start ((Worklist.pop onward)^[n] w) := by
  induction n with
  | zero => exact h
  | succ n ih =>
    rw [Function.iterate_succ_apply']
    exact ih.pop

/-- **Whatever can be reached is covered**, once nothing is left to walk. -/
theorem Walking.covers_of_reaches (hmono : ∀ b e e', e ≤ e' → onward (b, e) ⊆ onward (b, e'))
    (h : Walking onward start w) (hend : w.stack = []) {x : B × E} (hx : Reaches onward start x) :
    covers w.best x = true := by
  have hdone : ∀ y, covers w.best y = true ∨ y ∈ w.stack → covers w.best y = true := by
    rintro y (hy | hy)
    · exact hy
    · rw [hend] at hy
      cases hy
  induction hx with
  | refl => exact hdone _ h.started
  | @tail x y _ hy ih =>
    obtain ⟨e, he, hle⟩ := covers_iff.1 ih
    exact hdone y (h.closed (x.1, e) he y (hmono x.1 x.2 e hle hy))

/-! ## The same walk by recursion -/

variable (onward)

/-- A point met with everything that follows it, down to a depth. -/
def visit : Nat → B × E → List B × List (B × E) → List B × List (B × E)
  | 0, _, acc => acc
  | fuel + 1, x, acc =>
      if covers acc.2 x then acc else (onward x).foldl (fun acc y => visit fuel y acc) (meet x acc)

variable {onward}

/-- Points worked off one after the other, when each of them is. -/
theorem pops_each {f : B × E → List B × List (B × E) → List B × List (B × E)} : ∀ (xs rest : List (B × E))
    (acc : List B × List (B × E)),
    (∀ x ∈ xs, ∀ rest acc, ∃ n, (pop onward)^[n] ⟨x :: rest, acc.1, acc.2⟩ = ⟨rest, (f x acc).1, (f x acc).2⟩) →
    ∃ n, (pop onward)^[n] ⟨xs ++ rest, acc.1, acc.2⟩ =
      ⟨rest, (xs.foldl (fun acc x => f x acc) acc).1, (xs.foldl (fun acc x => f x acc) acc).2⟩ := by
  intro xs
  induction xs with
  | nil => exact fun rest acc _ => ⟨0, rfl⟩
  | cons x xs ih =>
    intro rest acc h
    obtain ⟨n, hn⟩ := h x (by simp) (xs ++ rest) acc
    obtain ⟨m, hm⟩ := ih rest (f x acc) fun y hy => h y (List.mem_cons_of_mem _ hy)
    refine ⟨m + n, ?_⟩
    rw [Function.iterate_add_apply, List.cons_append, hn, hm]
    rfl

/-- **The stack works a point off** as the recursion does, where what follows a point is of
a lower rank. -/
theorem pops_visit {rank : B → Nat} (hrank : ∀ x, ∀ y ∈ onward x, rank y.1 < rank x.1) :
    ∀ (fuel : Nat) (x : B × E), rank x.1 < fuel → ∀ rest acc, ∃ n,
      (pop onward)^[n] ⟨x :: rest, acc.1, acc.2⟩ = ⟨rest, (visit onward fuel x acc).1, (visit onward fuel x acc).2⟩ := by
  intro fuel
  induction fuel with
  | zero => exact fun x hx => absurd hx (Nat.not_lt_zero _)
  | succ fuel ih =>
    intro x hx rest acc
    rw [visit]
    by_cases hcov : covers acc.2 x = true
    · refine ⟨1, ?_⟩
      rw [if_pos hcov]
      show pop onward ⟨x :: rest, acc.1, acc.2⟩ = _
      rw [pop]
      exact if_pos hcov
    · rw [if_neg hcov]
      obtain ⟨n, hn⟩ := pops_each (f := visit onward fuel) (onward x) rest (meet x acc) fun y hy =>
        ih y (by have := hrank x y hy; omega)
      refine ⟨n + 1, ?_⟩
      rw [Function.iterate_succ_apply]
      have hone : pop onward ⟨x :: rest, acc.1, acc.2⟩ = ⟨onward x ++ rest, (meet x acc).1, (meet x acc).2⟩ := by
        rw [pop]
        exact if_neg hcov
      rw [hone, hn]

end Worklist

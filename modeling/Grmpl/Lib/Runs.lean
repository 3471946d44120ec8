import Mathlib.Data.List.Basic

/-!
# Runs of a partial step function

A system takes an action in a state or refuses it. A run is a sequence of actions
taken, each meeting a condition on the state before it.

* `Run step ok s t`: `t` is reached from `s` by steps that meet `ok`.
* `Run.invariant`: what every such step keeps, every such run keeps.
* `Run.monotone`: what no such step takes back, no such run takes back.
* `execute`, `after`: a list of actions run, and where it leads.
-/

namespace Runs

variable {S A : Type} {step : S → A → Option S} {ok ok' : S → A → Prop} {s t u : S}

/-- `t` is reached from `s` by steps that meet `ok`. -/
inductive Run (step : S → A → Option S) (ok : S → A → Prop) (s : S) : S → Prop
  | start : Run step ok s s
  | snoc {t u : S} {a : A} : Run step ok s t → ok t a → step t a = some u → Run step ok s u

/-- Any step at all. -/
abbrev Any (_ : S) (_ : A) : Prop := True

theorem Run.trans (h : Run step ok s t) (h' : Run step ok t u) : Run step ok s u := by
  induction h' with
  | start => exact h
  | snoc _ hok hstep ih => exact .snoc ih hok hstep

/-- A run that meets a condition meets every weaker one. -/
theorem Run.mono (hle : ∀ s a, ok s a → ok' s a) (h : Run step ok s t) : Run step ok' s t := by
  induction h with
  | start => exact .start
  | snoc _ hok hstep ih => exact .snoc ih (hle _ _ hok) hstep

/-- **The invariant rule.** What holds at the start and is kept by every step that
meets the condition holds wherever a run arrives. -/
theorem Run.invariant {I : S → Prop} (h : Run step ok s t) (hs : I s)
    (hstep : ∀ s a t, I s → ok s a → step s a = some t → I t) : I t := by
  induction h with
  | start => exact hs
  | snoc _ hok hst ih => exact hstep _ _ _ ih hok hst

/-- A relation that every step makes from an invariant state, a run makes too. -/
theorem Run.monotone {I : S → Prop} {R : S → S → Prop} (h : Run step ok s t) (hs : I s)
    (hstep : ∀ s a t, I s → ok s a → step s a = some t → I t)
    (hrefl : ∀ s, R s s) (htrans : ∀ s t u, R s t → R t u → R s u)
    (hR : ∀ s a t, I s → ok s a → step s a = some t → R s t) : R s t := by
  induction h with
  | start => exact hrefl _
  | snoc hrun hok hst ih =>
    exact htrans _ _ _ ih (hR _ _ _ (hrun.invariant hs hstep) hok hst)

/-- A list of actions, taken in order. -/
def execute (step : S → A → Option S) : S → List A → Option S
  | s, [] => some s
  | s, a :: as => (step s a).bind (execute step · as)

theorem Run.ofExecute : ∀ (as : List A) (s : S), execute step s as = some t →
    Run step Any s t := by
  intro as
  induction as with
  | nil =>
    intro s h
    cases h
    exact .start
  | cons a as ih =>
    intro s h
    obtain ⟨r, hr, hrest⟩ := Option.bind_eq_some_iff.1 h
    exact .trans (.snoc .start trivial hr) (ih r hrest)

/-- A list of actions taken in order, each checked first. -/
def executeChecked (step : S → A → Option S) (check : S → A → Bool) : S → List A → Option S
  | s, [] => some s
  | s, a :: as => if check s a then (step s a).bind (executeChecked step check · as) else none

theorem Run.ofChecked {check : S → A → Bool} : ∀ (as : List A),
    (∀ a ∈ as, ∀ s, check s a = true → ok s a) → ∀ s : S, executeChecked step check s as = some t →
      Run step ok s t := by
  intro as
  induction as with
  | nil =>
    intro _ s h
    cases h
    exact .start
  | cons a as ih =>
    intro hcheck s h
    rw [executeChecked] at h
    split at h
    · rename_i hc
      obtain ⟨r, hr, hrest⟩ := Option.bind_eq_some_iff.1 h
      exact .trans (.snoc .start (hcheck a List.mem_cons_self s hc) hr)
        (ih (fun b hb => hcheck b (List.mem_cons_of_mem a hb)) r hrest)
    · exact absurd h (by simp)

/-- Where a list of actions leads, the start if one is refused. -/
def after (step : S → A → Option S) (s : S) (as : List A) : S := (execute step s as).getD s

theorem execute_eq_after {as : List A} (h : (execute step s as).isSome = true) :
    execute step s as = some (after step s as) := by
  obtain ⟨t, ht⟩ := Option.isSome_iff_exists.1 h
  rw [Runs.after, ht, Option.getD_some]

theorem Run.after {as : List A} (h : (execute step s as).isSome = true) :
    Run step Any s (after step s as) := .ofExecute as s (execute_eq_after h)

theorem Run.afterCheckedAll {check : S → A → Bool} {as : List A}
    (hcheck : ∀ a ∈ as, ∀ s, check s a = true → ok s a)
    (h : (executeChecked step check s as).isSome = true) :
    Run step ok s ((executeChecked step check s as).getD s) := by
  obtain ⟨t, ht⟩ := Option.isSome_iff_exists.1 h
  rw [ht]
  exact .ofChecked as hcheck s ht

theorem Run.afterChecked {check : S → A → Bool} (hcheck : ∀ s a, check s a = true → ok s a)
    {as : List A} (h : (executeChecked step check s as).isSome = true) :
    Run step ok s ((executeChecked step check s as).getD s) :=
  .afterCheckedAll (fun a _ s => hcheck s a) h

end Runs

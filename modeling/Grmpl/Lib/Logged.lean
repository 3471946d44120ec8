import Mathlib.Data.List.Basic

/-!
# Programs that log what they do

A program that may fail, and keeps a log of its events whether it fails or not. What holds of
the log after every event is proved along the program, with a state that says where the
program is: each event is allowed where it happens, and moves the state.

* `Logged`: the programs; `Logged.event`, `Logged.fail`.
* `Logged.Agrees`: what a program comes to, its log aside.
* `Watch`, `Logged.Runs`: a rule kept by every event, and the program's states under it.
-/

/-- A program that may fail and logs its events, the newest first. -/
def Logged (Ev ε α : Type) : Type := List Ev → Except ε α × List Ev

namespace Logged

variable {Ev ε α β S : Type}

instance : Monad (Logged Ev ε) where
  pure a := fun es => (.ok a, es)
  bind x f := fun es =>
    match x es with
    | (.ok a, es) => f a es
    | (.error e, es) => (.error e, es)

def event (e : Ev) : Logged Ev ε Unit := fun es => (.ok (), e :: es)

def fail (e : ε) : Logged Ev ε α := fun es => (.error e, es)

/-- A failure reported as another. -/
def failAs (e : ε) (x : Logged Ev ε α) : Logged Ev ε α := fun es =>
  match x es with
  | (.ok a, es) => (.ok a, es)
  | (.error _, es) => (.error e, es)

theorem bind_ok {x : Logged Ev ε α} {f : α → Logged Ev ε β} {es es' : List Ev} {a : α} (h : x es = (.ok a, es')) :
    (x >>= f) es = f a es' := by
  show (match x es with
    | (.ok a, es) => f a es
    | (.error e, es) => (.error e, es)) = _
  rw [h]

theorem bind_error {x : Logged Ev ε α} {f : α → Logged Ev ε β} {es es' : List Ev} {e : ε}
    (h : x es = (.error e, es')) : (x >>= f) es = (.error e, es') := by
  show (match x es with
    | (.ok a, es) => f a es
    | (.error e, es) => (.error e, es)) = _
  rw [h]

/-- A program that went through went through its first step. -/
theorem ok_of_bind {x : Logged Ev ε α} {f : α → Logged Ev ε β} {es : List Ev} {b : β}
    (h : ((x >>= f) es).1 = .ok b) : ∃ a es', (x es).1 = .ok a ∧ (f a es').1 = .ok b := by
  rcases hx : x es with ⟨e | a, es'⟩
  · rw [bind_error hx] at h
    cases h
  · rw [bind_ok hx] at h
    exact ⟨a, es', rfl, h⟩

/-! ## What a program comes to -/

/-- What a program comes to, whatever was logged before. -/
def Agrees (x : Logged Ev ε α) (r : Except ε α) : Prop := ∀ es, (x es).1 = r

theorem Agrees.pure (a : α) : Agrees (Pure.pure a : Logged Ev ε α) (.ok a) := fun _ => rfl

theorem Agrees.fail (e : ε) : Agrees (Logged.fail e : Logged Ev ε α) (.error e) := fun _ => rfl

theorem Agrees.bind {x : Logged Ev ε α} {r : Except ε α} {f : α → Logged Ev ε β} {g : α → Except ε β}
    (hx : Agrees x r) (hf : ∀ a, r = .ok a → Agrees (f a) (g a)) : Agrees (x >>= f) (r >>= g) := by
  intro es
  have hx := hx es
  rcases hres : x es with ⟨e | a, es'⟩ <;> rw [hres] at hx <;> subst hx
  · rw [bind_error hres]
    rfl
  · rw [bind_ok hres]
    exact hf a rfl es'

/-- A first step that comes to something is gone on from there. -/
theorem Agrees.bind_ok {x : Logged Ev ε α} {a : α} {f : α → Logged Ev ε β} {r : Except ε β} (hx : Agrees x (.ok a))
    (hf : Agrees (f a) r) : Agrees (x >>= f) r :=
  Agrees.bind (g := fun _ => r) hx fun _ hb => Except.ok.inj hb ▸ hf

/-- An event comes to nothing. -/
theorem Agrees.event {e : Ev} {f : Unit → Logged Ev ε α} {r : Except ε α} (h : Agrees (f ()) r) :
    Agrees (Logged.event e >>= f) r := fun es => h (e :: es)

theorem Agrees.failAs_ok {x : Logged Ev ε α} {a : α} (h : Agrees x (.ok a)) (e : ε) : Agrees (x.failAs e) (.ok a) := by
  intro es
  have hx := h es
  unfold Logged.failAs
  split
  · rename_i b es' hres
    rw [hres] at hx
    exact hx
  · rename_i e' es' hres
    rw [hres] at hx
    cases hx

theorem Agrees.failAs_error {x : Logged Ev ε α} {e : ε} (h : Agrees x (.error e)) (e' : ε) :
    Agrees (x.failAs e') (.error e') := by
  intro es
  have hx := h es
  unfold Logged.failAs
  split
  · rename_i b es' hres
    rw [hres] at hx
    cases hx
  · rfl

end Logged

/-! ## What every event keeps -/

/-- A rule for logs, the states a program can be in under it, and the failures it may have. -/
structure Watch (Ev ε S : Type) where
  Kept : List Ev → Prop
  At : S → List Ev → Prop
  Fails : ε → Prop

namespace Logged

variable {Ev ε α β S : Type} (W : Watch Ev ε S)

/-- From a state a program keeps the rule throughout, and ends in a state or fails as it may. -/
def Runs (x : Logged Ev ε α) (s : S) (Q : α → S → Prop) : Prop :=
  ∀ es, W.Kept es → W.At s es → W.Kept (x es).2 ∧
    match (x es).1 with
    | .ok a => ∃ s', W.At s' (x es).2 ∧ Q a s'
    | .error e => W.Fails e

variable {W} {x : Logged Ev ε α} {s : S} {Q : α → S → Prop}

theorem Runs.pure {a : α} (h : Q a s) : Runs W (Pure.pure a) s Q := fun _ hkept hat => ⟨hkept, s, hat, h⟩

theorem Runs.fail {e : ε} (h : W.Fails e) : Runs W (Logged.fail e) s Q := fun _ hkept _ => ⟨hkept, h⟩

theorem Runs.mono {Q' : α → S → Prop} (h : Runs W x s Q) (hQ : ∀ a s', Q a s' → Q' a s') : Runs W x s Q' := by
  intro es hkept hat
  obtain ⟨hkept', hres⟩ := h es hkept hat
  refine ⟨hkept', ?_⟩
  cases hr : (x es).1 with
  | ok a =>
    rw [hr] at hres
    obtain ⟨s', hat', hq⟩ := hres
    exact ⟨s', hat', hQ a s' hq⟩
  | error e => rw [hr] at hres; exact hres

/-- A run also has whatever holds of everything the program comes to. -/
theorem Runs.also {P : α → Prop} (h : Runs W x s Q) (hP : ∀ es a, (x es).1 = .ok a → P a) :
    Runs W x s fun a s' => Q a s' ∧ P a := by
  intro es hkept hat
  obtain ⟨hkept', hres⟩ := h es hkept hat
  refine ⟨hkept', ?_⟩
  cases hr : (x es).1 with
  | ok a =>
    rw [hr] at hres
    obtain ⟨s', hat', hq⟩ := hres
    exact ⟨s', hat', hq, hP es a hr⟩
  | error e => rw [hr] at hres; exact hres

theorem Runs.bind {f : α → Logged Ev ε β} {R : β → S → Prop} (hx : Runs W x s Q)
    (hf : ∀ a s', Q a s' → Runs W (f a) s' R) : Runs W (x >>= f) s R := by
  intro es hkept hat
  obtain ⟨hkept', hres⟩ := hx es hkept hat
  rcases hr : x es with ⟨e | a, es'⟩ <;> rw [hr] at hkept' hres
  · rw [bind_error hr]
    exact ⟨hkept', hres⟩
  · rw [bind_ok hr]
    obtain ⟨s', hat', hq⟩ := hres
    exact hf a s' hq es' hkept' hat'

/-- An event that is allowed where it happens, and the state it moves to. -/
theorem Runs.event {e : Ev} {f : Unit → Logged Ev ε α} {s' : S}
    (hkept : ∀ es, W.Kept es → W.At s es → W.Kept (e :: es) ∧ W.At s' (e :: es)) (hf : Runs W (f ()) s' Q) :
    Runs W (Logged.event e >>= f) s Q := by
  intro es hk hat
  obtain ⟨hk', hat'⟩ := hkept es hk hat
  exact hf (e :: es) hk' hat'

theorem Runs.failAs {e : ε} (h : Runs W x s Q) (he : W.Fails e) : Runs W (x.failAs e) s Q := by
  intro es hkept hat
  obtain ⟨hkept', hres⟩ := h es hkept hat
  unfold Logged.failAs
  rcases hr : x es with ⟨e' | a, es'⟩ <;> rw [hr] at hkept' hres
  · exact ⟨hkept', he⟩
  · exact ⟨hkept', hres⟩

end Logged

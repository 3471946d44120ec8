import Mathlib

/-!
# Templates and masks

A template is a row with slots to be filled. A mask asks for values at some places of a
row and takes anything at the others. Which fillings of a template a mask takes is a
matter of what it pins slots to; over an infinite alphabet, fillings that no finite set of
values tells apart from a slot settle what holds of all of them.

* `Item`, `Item.fill`: templates and their fillings.
* `Takes`, `pins`, `takes_fill`: what a mask takes of a template's fillings.
* `Generic`, `exists_generic`: a filling that agrees with pins and is otherwise new.
* `Generic.subset`, `Generic.fill_inj`: what such a filling tells.
* `Rule`, `sound_iff`: rules tried in turn answer one thing for all fillings.
-/

namespace Templates

variable {α : Type*}

/-- An item of a template: a constant, or a slot. -/
inductive Item (α : Type*) where
  | const (a : α)
  | slot (i : Nat)
  deriving DecidableEq

def Item.fill (σ : Nat → α) : Item α → α
  | .const a => a
  | .slot i => σ i

/-- A mask takes a row: as long as it is, with the values it asks for. -/
def Takes : List (Option α) → List α → Prop
  | [], [] => True
  | none :: ms, _ :: as => Takes ms as
  | some m :: ms, a :: as => a = m ∧ Takes ms as
  | _, _ => False

instance Takes.decidable [DecidableEq α] : (ms : List (Option α)) → (as : List α) → Decidable (Takes ms as)
  | [], [] => isTrue trivial
  | none :: ms, _ :: as => Takes.decidable ms as
  | some _ :: ms, _ :: as => @instDecidableAnd _ _ _ (Takes.decidable ms as)
  | [], _ :: _ => isFalse id
  | none :: _, [] => isFalse id
  | some _ :: _, [] => isFalse id

section Pins

variable [DecidableEq α]

/-- What a mask pins the slots of a template to, none where it takes no filling. -/
def pins : List (Option α) → List (Item α) → Option (List (Nat × α))
  | [], [] => some []
  | none :: ms, _ :: xs => pins ms xs
  | some m :: ms, .const a :: xs => if a = m then pins ms xs else none
  | some m :: ms, .slot i :: xs => (pins ms xs).map ((i, m) :: ·)
  | _, _ => none

/-- **A mask takes the fillings that have what it pins.** -/
theorem takes_fill {σ : Nat → α} : ∀ {ms : List (Option α)} {xs : List (Item α)},
    Takes ms (xs.map (·.fill σ)) ↔ ∃ p, pins ms xs = some p ∧ ∀ e ∈ p, σ e.1 = e.2
  | [], [] => ⟨fun _ => ⟨[], rfl, fun _ h => absurd h List.not_mem_nil⟩, fun _ => trivial⟩
  | none :: ms, x :: xs => @takes_fill σ ms xs
  | some m :: ms, .const a :: xs => by
      rw [List.map_cons, Takes, takes_fill, pins]
      split_ifs with h
      · exact and_iff_right h
      · simp [Item.fill, h]
  | some m :: ms, .slot i :: xs => by
      rw [List.map_cons, Takes, takes_fill, pins]
      constructor
      · rintro ⟨hi, p, hp, hall⟩
        exact ⟨(i, m) :: p, by rw [hp]; rfl, List.forall_mem_cons.2 ⟨hi, hall⟩⟩
      · rintro ⟨p, hp, hall⟩
        obtain ⟨q, hq, rfl⟩ := Option.map_eq_some_iff.1 hp
        exact ⟨(List.forall_mem_cons.1 hall).1, q, hq, (List.forall_mem_cons.1 hall).2⟩
  | [], _ :: _ => ⟨False.elim, fun ⟨_, h, _⟩ => nomatch h⟩
  | none :: _, [] => ⟨False.elim, fun ⟨_, h, _⟩ => nomatch h⟩
  | some _ :: _, [] => ⟨False.elim, fun ⟨_, h, _⟩ => nomatch h⟩

/-- A mask pins slots to values it asks for. -/
theorem mem_of_pins : ∀ {ms : List (Option α)} {xs : List (Item α)} {p : List (Nat × α)}, pins ms xs = some p →
    ∀ e ∈ p, some e.2 ∈ ms
  | [], [], p, h => by
      cases h
      exact fun _ h => absurd h List.not_mem_nil
  | none :: ms, x :: xs, p, h => fun e he => .tail none (@mem_of_pins ms xs p h e he)
  | some m :: ms, .const a :: xs, p, h => by
      rw [pins] at h
      split_ifs at h
      exact fun e he => .tail _ (mem_of_pins h e he)
  | some m :: ms, .slot i :: xs, p, h => by
      rw [pins] at h
      obtain ⟨q, hq, rfl⟩ := Option.map_eq_some_iff.1 h
      intro e he
      rcases List.mem_cons.1 he with rfl | he
      · exact .head ms
      · exact .tail _ (mem_of_pins hq e he)

end Pins

/-- Pins that no slot contradicts. -/
def Consistent (p : List (Nat × α)) : Prop := ∀ e ∈ p, ∀ e' ∈ p, e.1 = e'.1 → e.2 = e'.2

theorem consistent_of_fill {σ : Nat → α} {p : List (Nat × α)} (h : ∀ e ∈ p, σ e.1 = e.2) : Consistent p :=
  fun e he e' he' heq => (h e he).symm.trans ((congrArg σ heq).trans (h e' he'))

/-- What a slot is pinned to. -/
def pinned (p : List (Nat × α)) (i : Nat) : Option α := (p.find? fun e => e.1 = i).map (·.2)

theorem mem_of_pinned {p : List (Nat × α)} {i : Nat} {a : α} (h : pinned p i = some a) : (i, a) ∈ p := by
  obtain ⟨e, he, rfl⟩ := Option.map_eq_some_iff.1 h
  have hi : e.1 = i := by simpa using List.find?_some he
  exact hi ▸ List.mem_of_find?_eq_some he

theorem pinned_of_mem {p : List (Nat × α)} (hp : Consistent p) {i : Nat} {a : α} (h : (i, a) ∈ p) :
    pinned p i = some a := by
  cases hf : pinned p i with
  | none => exact absurd (List.find?_eq_none.1 (Option.map_eq_none_iff.1 hf) _ h) (by simp)
  | some b => exact congrArg some (hp _ (mem_of_pinned hf) _ h rfl)

/-- An item, where slots are pinned. -/
def Item.under (p : List (Nat × α)) : Item α → Item α
  | .const a => .const a
  | .slot i => match pinned p i with
      | some a => .const a
      | none => .slot i

theorem Item.fill_under {p : List (Nat × α)} {σ : Nat → α} (h : ∀ e ∈ p, σ e.1 = e.2) (x : Item α) :
    (x.under p).fill σ = x.fill σ := by
  cases x with
  | const a => rfl
  | slot i =>
    rw [Item.under]
    split
    · exact (h _ (mem_of_pinned ‹_›)).symm
    · rfl

/-! ## Generic fillings -/

/-- A filling that has what is pinned, and else gives each slot a value of its own that is
none of those to avoid. -/
structure Generic (p : List (Nat × α)) (avoid : List α) (σ : Nat → α) : Prop where
  agrees : ∀ e ∈ p, σ e.1 = e.2
  avoids : ∀ i, pinned p i = none → σ i ∉ avoid
  injective : ∀ i j, pinned p i = none → pinned p j = none → σ i = σ j → i = j

/-- **Over infinitely many values there is one for any consistent pins.** -/
theorem exists_generic [Infinite α] {p : List (Nat × α)} (hp : Consistent p) (avoid : List α) :
    ∃ σ, Generic p avoid σ := by
  have hinf : {a | a ∉ avoid}.Infinite := by
    have h := (List.finite_toSet avoid).infinite_compl
    exact h
  let fresh := hinf.natEmbedding
  refine ⟨fun i => (pinned p i).getD (fresh i), fun e he => ?_, fun i hi => ?_, fun i j hi hj heq => ?_⟩
  · rw [pinned_of_mem hp (i := e.1) (a := e.2) he]
    rfl
  · rw [hi]
    exact (fresh i).2
  · rw [hi, hj] at heq
    exact fresh.injective (Subtype.ext heq)

variable {p : List (Nat × α)} {avoid : List α} {σ : Nat → α}

/-- A generic filling has no pins but its own. -/
theorem Generic.subset (h : Generic p avoid σ) {q : List (Nat × α)} (hq : ∀ e ∈ q, σ e.1 = e.2)
    (havoid : ∀ e ∈ q, e.2 ∈ avoid) : ∀ e ∈ q, e ∈ p := by
  intro e he
  cases hpin : pinned p e.1 with
  | none => exact absurd (havoid e he) (hq e he ▸ h.avoids _ hpin)
  | some a =>
    have hmem := mem_of_pinned hpin
    have hvalue : a = e.2 := (h.agrees _ hmem).symm.trans (hq e he)
    rwa [hvalue] at hmem

/-- The constants an item may be of. -/
def Item.Within (avoid : List α) : Item α → Prop
  | .const a => a ∈ avoid
  | .slot _ => True

/-- **A generic filling tells items apart**, as far as pins do. -/
theorem Generic.fill_inj (h : Generic p avoid σ) (hp : ∀ e ∈ p, e.2 ∈ avoid) {x y : Item α} (hx : x.Within avoid)
    (hy : y.Within avoid) (heq : x.fill σ = y.fill σ) : x.under p = y.under p := by
  -- a constant, and a slot that is not pinned
  have hapart : ∀ {a : α} {i : Nat}, a ∈ avoid → pinned p i = none → a ≠ σ i := fun ha hi heq =>
    h.avoids _ hi (heq ▸ ha)
  have hvalue : ∀ {i : Nat} {a : α}, pinned p i = some a → σ i = a ∧ a ∈ avoid := fun hi =>
    ⟨h.agrees _ (mem_of_pinned hi), hp _ (mem_of_pinned hi)⟩
  cases x with
  | const a =>
    cases y with
    | const b => rw [show a = b from heq]
    | slot j =>
      cases hj : pinned p j with
      | none => exact absurd heq (hapart hx hj)
      | some b => simp only [Item.under, hj, show a = b from heq.trans (hvalue hj).1]
  | slot i =>
    cases y with
    | const b =>
      cases hi : pinned p i with
      | none => exact absurd heq.symm (hapart hy hi)
      | some a => simp only [Item.under, hi, show a = b from (hvalue hi).1.symm.trans heq]
    | slot j =>
      cases hi : pinned p i with
      | none =>
        cases hj : pinned p j with
        | none => rw [h.injective i j hi hj heq]
        | some b => exact absurd (heq.trans (hvalue hj).1).symm (hapart (hvalue hj).2 hi)
      | some a =>
        cases hj : pinned p j with
        | none => exact absurd ((hvalue hi).1.symm.trans heq) (hapart (hvalue hi).2 hj)
        | some b =>
          simp only [Item.under, hi, hj,
            show a = b from (hvalue hi).1.symm.trans (heq.trans (hvalue hj).1)]

/-! ## Rules tried in turn -/

/-- A rule: the rows it takes, and what it answers of a template's, a tag with items. -/
structure Rule (β α : Type*) where
  mask : List (Option α)
  tag : β
  built : List (Item α)

variable {β : Type*}

/-- A rule answers what is wanted wherever slots are pinned so. -/
def Rule.Agrees (tag : β) (goal : List (Item α)) (p : List (Nat × α)) (r : Rule β α) : Prop :=
  r.tag = tag ∧ r.built.map (·.under p) = goal.map (·.under p)

/-- The constants of an item. -/
def Item.consts : Item α → List α
  | .const a => [a]
  | .slot _ => []

theorem Item.within_of_consts {avoid : List α} {x : Item α} (h : ∀ a ∈ x.consts, a ∈ avoid) : x.Within avoid := by
  cases x with
  | const a => exact h a (List.mem_singleton_self a)
  | slot i => trivial

/-- Rows of items told apart, as far as pins do. -/
theorem Generic.map_inj {p : List (Nat × α)} {avoid : List α} {σ : Nat → α} (h : Generic p avoid σ)
    (hp : ∀ e ∈ p, e.2 ∈ avoid) : ∀ {xs ys : List (Item α)}, (∀ x ∈ xs, x.Within avoid) → (∀ y ∈ ys, y.Within avoid) →
      xs.map (·.fill σ) = ys.map (·.fill σ) → xs.map (·.under p) = ys.map (·.under p)
  | [], [], _, _, _ => rfl
  | x :: xs, y :: ys, hx, hy, heq => by
      obtain ⟨hhead, htail⟩ := List.cons.inj heq
      rw [List.map_cons, List.map_cons, h.fill_inj hp (hx x (.head xs)) (hy y (.head ys)) hhead,
        h.map_inj hp (fun z hz => hx z (.tail x hz)) (fun z hz => hy z (.tail y hz)) htail]

section First

variable [DecidableEq α]

/-- A rule that takes some filling of a template answers what is wanted of all it takes,
or comes after one that takes all these. -/
def Rule.Settled (before : List (Rule β α)) (tag : β) (goal items : List (Item α)) (r : Rule β α) : Prop :=
  ∀ p ∈ pins r.mask items, Consistent p →
    r.Agrees tag goal p ∨ ∃ r' ∈ before, ∃ q ∈ pins r'.mask items, ∀ e ∈ q, e ∈ p

def Sound (rules : List (Rule β α)) (tag : β) (goal items : List (Item α)) : Prop :=
  ∀ i < rules.length, ∀ r ∈ rules[i]?, r.Settled (rules.take i) tag goal items

/-- **The first rule that takes a filling answers what is wanted, for every filling, if and
only if the rules are sound.** -/
theorem sound_iff [Infinite α] {rules : List (Rule β α)} {tag : β} {goal items : List (Item α)} :
    Sound rules tag goal items ↔ ∀ σ r, rules.find? (fun r => Takes r.mask (items.map (·.fill σ))) = some r →
      r.tag = tag ∧ r.built.map (·.fill σ) = goal.map (·.fill σ) := by
  constructor
  · intro h σ r hfind
    obtain ⟨htakes, before, after, rfl, hbefore⟩ := List.find?_eq_some_iff_append.1 hfind
    obtain ⟨p, hp, hσ⟩ := takes_fill.1 (of_decide_eq_true htakes)
    rcases h before.length (by simp) r (by simp) p hp (consistent_of_fill hσ) with ⟨htag, hbuilt⟩ | hcovered
    · refine ⟨htag, ?_⟩
      have hfill := congrArg (List.map (·.fill σ)) hbuilt
      simpa only [List.map_map, Function.comp_def, Item.fill_under hσ] using hfill
    · obtain ⟨r', hr', q, hq, hsub⟩ := hcovered
      rw [List.take_left] at hr'
      have htaken : Takes r'.mask (items.map (·.fill σ)) := takes_fill.2 ⟨q, hq, fun e he => hσ e (hsub e he)⟩
      exact absurd htaken (by simpa using hbefore r' hr')
  · intro h i hi r hr p hp hcons
    by_contra hnot
    rw [not_or] at hnot
    obtain ⟨hdisagrees, huncovered⟩ := hnot
    let avoid := rules.flatMap (fun r => r.mask.reduceOption ++ r.built.flatMap Item.consts) ++ goal.flatMap Item.consts
    have hmask : ∀ r ∈ rules, ∀ q, pins r.mask items = some q → ∀ e ∈ q, e.2 ∈ avoid := fun r hr q hq e he =>
      List.mem_append_left _ (List.mem_flatMap.2 ⟨r, hr, List.mem_append_left _
        (List.reduceOption_mem_iff.2 (mem_of_pins hq e he))⟩)
    have hrule : r ∈ rules := List.mem_of_getElem? hr
    obtain ⟨σ, hσ⟩ := exists_generic hcons avoid
    have hfind : rules.find? (fun r => Takes r.mask (items.map (·.fill σ))) = some r := by
      refine List.find?_eq_some_iff_append.2 ⟨decide_eq_true (takes_fill.2 ⟨p, hp, hσ.agrees⟩), rules.take i,
        rules.drop (i + 1), ?_, fun r' hr' => ?_⟩
      · obtain ⟨_, rfl⟩ := List.getElem?_eq_some_iff.1 hr
        rw [List.getElem_cons_drop, List.take_append_drop]
      · rw [Bool.not_eq_true', decide_eq_false_iff_not, takes_fill]
        rintro ⟨q, hq, hall⟩
        refine huncovered ⟨r', hr', q, hq, fun e he => hσ.subset hall ?_ e he⟩
        exact hmask r' (List.mem_of_mem_take hr') q hq
    obtain ⟨htag, hbuilt⟩ := h σ r hfind
    refine hdisagrees ⟨htag, hσ.map_inj (hmask r hrule p hp) (fun x hx => ?_) (fun x hx => ?_) hbuilt⟩
    · exact Item.within_of_consts fun a ha => List.mem_append_left _ (List.mem_flatMap.2 ⟨r, hrule,
        List.mem_append_right _ (List.mem_flatMap.2 ⟨x, hx, ha⟩)⟩)
    · exact Item.within_of_consts fun a ha => List.mem_append_right _ (List.mem_flatMap.2 ⟨x, hx, ha⟩)

end First

end Templates

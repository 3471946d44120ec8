import Grmpl.Lib.Fuelled
import Grmpl.Lib.NodeStore

/-!
# Marking what a stack of keys reaches

A stack of keys is worked off. A key met before is passed over; any other is marked and shown
to a visitor, which keeps a note of it and says what it refers to, or refuses. What a key
refers to may be anything, the key itself included.

* `Marks`, `trip`, `mark`: the stack, what is marked, the visitor's notes, and the walk.
* `Reached`: the keys some roots lead to.
* `mark_ends`: a walk over finitely many keys that refer to anything ends.
* `mark_ok`, `mark_error`: it ends with what is reached marked, each once and in its notes, or
  where a key that is reached was refused.
-/

open Fuelled

namespace Marking

/-- The keys to follow, the next first; those followed, the last first; and the notes made. -/
structure Marks (K σ : Type) where
  stack : List K
  marked : List K
  notes : σ

variable {K σ ε : Type}

/-- One key off the stack. -/
def trip [DecidableEq K] (visit : K → σ → Except ε (List K × σ)) (m : Marks K σ) :
    Trip (Marks K σ) (Except ε (Marks K σ)) :=
  match m.stack with
  | [] => .ended (.ok m)
  | k :: rest =>
      if k ∈ m.marked then .spent { m with stack := rest }
      else match visit k m.notes with
        | .error e => .ended (.error e)
        | .ok (refs, notes) => .spent ⟨refs.reverse ++ rest, k :: m.marked, notes⟩

/-- The walk from some roots, the last of them first. -/
def mark [DecidableEq K] (visit : K → σ → Except ε (List K × σ)) (fuel : Nat) (roots : List K) (notes : σ) :
    Marks K σ ⊕ Except ε (Marks K σ) :=
  spend (trip visit) fuel ⟨roots.reverse, [], notes⟩

/-- A key is led to from some roots. -/
def Reached (refs : K → Except ε (List K)) (roots : List K) (k : K) : Prop :=
  ∃ r ∈ roots, Relation.ReflTransGen (fun a b => ∃ ks, refs a = .ok ks ∧ b ∈ ks) r k

/-- A visitor that says what keys refer to and keeps a note of each. -/
def Visits (visit : K → σ → Except ε (List K × σ)) (refs : K → Except ε (List K)) (note : K → σ → σ) : Prop :=
  ∀ k notes, visit k notes = (refs k).map fun ks => (ks, note k notes)

/-- The keys a key refers to, none where it is refused. -/
def listed (refs : K → Except ε (List K)) (k : K) : List K := ((refs k).toOption).getD []

/-- The steps a walk has left: what is on its stack, and what the keys not yet marked will
put there. -/
def work [DecidableEq K] (refs : K → Except ε (List K)) (keys : List K) (m : Marks K σ) : Nat :=
  m.stack.length + ((keys.filter (· ∉ m.marked)).map fun k => (listed refs k).length).sum

/-! ## What every trip keeps -/

/-- A walk under way from some roots. -/
structure Walking (refs : K → Except ε (List K)) (note : K → σ → σ) (roots : List K) (notes : σ)
    (m : Marks K σ) : Prop where
  nodup : m.marked.Nodup
  /-- Nothing is followed that is not reached. -/
  sound : ∀ k, k ∈ m.stack ∨ k ∈ m.marked → Reached refs roots k
  /-- What a marked key refers to is marked or still to be followed. -/
  closed : ∀ k ∈ m.marked, ∃ ks, refs k = .ok ks ∧ ∀ d ∈ ks, d ∈ m.stack ∨ d ∈ m.marked
  started : ∀ r ∈ roots, r ∈ m.stack ∨ r ∈ m.marked
  noted : m.notes = m.marked.foldr note notes

variable {visit : K → σ → Except ε (List K × σ)} {refs : K → Except ε (List K)} {note : K → σ → σ}
  {roots : List K} {notes : σ} {m m' : Marks K σ}

theorem Reached.root {r : K} (h : r ∈ roots) : Reached refs roots r := ⟨r, h, .refl⟩

theorem Reached.tail {k d : K} {ks : List K} (h : Reached refs roots k) (hks : refs k = .ok ks) (hd : d ∈ ks) :
    Reached refs roots d := by
  obtain ⟨r, hr, hrk⟩ := h
  exact ⟨r, hr, hrk.tail ⟨ks, hks, hd⟩⟩

theorem walking_start : Walking refs note roots notes ⟨roots.reverse, [], notes⟩ where
  nodup := .nil
  sound k hk := by
    rcases hk with hk | hk
    · exact .root (List.mem_reverse.1 hk)
    · cases hk
  closed k hk := nomatch hk
  started r hr := .inl (List.mem_reverse.2 hr)
  noted := rfl

/-- A key passed over. -/
theorem Walking.skip {k : K} {rest : List K} (h : Walking refs note roots notes m) (hstack : m.stack = k :: rest)
    (hk : k ∈ m.marked) : Walking refs note roots notes { m with stack := rest } := by
  have hleft : ∀ d, d ∈ m.stack ∨ d ∈ m.marked → d ∈ rest ∨ d ∈ m.marked := by
    rintro d (hd | hd)
    · rw [hstack, List.mem_cons] at hd
      rcases hd with rfl | hd
      · exact .inr hk
      · exact .inl hd
    · exact .inr hd
  refine ⟨h.nodup, fun d hd => h.sound d (hd.imp_left fun hd => ?_), fun d hd => ?_,
    fun r hr => hleft r (h.started r hr), h.noted⟩
  · rw [hstack]
    exact List.mem_cons_of_mem _ hd
  · obtain ⟨ks, hks, hall⟩ := h.closed d hd
    exact ⟨ks, hks, fun x hx => hleft x (hall x hx)⟩

/-- A key followed. -/
theorem Walking.follow {k : K} {rest ks : List K} (h : Walking refs note roots notes m) (hstack : m.stack = k :: rest)
    (hk : k ∉ m.marked) (hks : refs k = .ok ks) :
    Walking refs note roots notes ⟨ks.reverse ++ rest, k :: m.marked, note k m.notes⟩ := by
  have hreach : Reached refs roots k := h.sound k (.inl (by simp [hstack]))
  have hleft : ∀ d, d ∈ m.stack ∨ d ∈ m.marked → d ∈ ks.reverse ++ rest ∨ d ∈ k :: m.marked := by
    rintro d (hd | hd)
    · rw [hstack, List.mem_cons] at hd
      rcases hd with rfl | hd
      · exact .inr List.mem_cons_self
      · exact .inl (List.mem_append_right _ hd)
    · exact .inr (List.mem_cons_of_mem _ hd)
  constructor
  case nodup => exact List.nodup_cons.2 ⟨hk, h.nodup⟩
  case sound =>
    rintro d (hd | hd)
    · rcases List.mem_append.1 hd with hd | hd
      · exact hreach.tail hks (List.mem_reverse.1 hd)
      · exact h.sound d (.inl (by simp [hstack, hd]))
    · rcases List.mem_cons.1 hd with rfl | hd
      · exact hreach
      · exact h.sound d (.inr hd)
  case closed =>
    intro d hd
    rcases List.mem_cons.1 hd with rfl | hd
    · exact ⟨ks, hks, fun x hx => .inl (List.mem_append_left _ (List.mem_reverse.2 hx))⟩
    · obtain ⟨ds, hds, hall⟩ := h.closed d hd
      exact ⟨ds, hds, fun x hx => hleft x (hall x hx)⟩
  case started => exact fun r hr => hleft r (h.started r hr)
  case noted => exact congrArg (note k) h.noted

variable [DecidableEq K]

/-- What a trip does: a key passed over, a key followed, or the end. -/
theorem trip_spent (hv : Visits visit refs note) (h : trip visit m = .spent m') :
    ∃ k rest, m.stack = k :: rest ∧
      (k ∈ m.marked ∧ m' = { m with stack := rest } ∨
        k ∉ m.marked ∧ ∃ ks, refs k = .ok ks ∧ m' = ⟨ks.reverse ++ rest, k :: m.marked, note k m.notes⟩) := by
  unfold trip at h
  split at h
  · cases h
  · rename_i k rest hstack
    refine ⟨k, rest, hstack, ?_⟩
    split_ifs at h with hk
    · exact .inl ⟨hk, (Trip.spent.inj h).symm⟩
    · rw [hv k m.notes] at h
      cases href : refs k with
      | error e =>
        rw [href] at h
        cases h
      | ok ks =>
        rw [href] at h
        exact .inr ⟨hk, ks, rfl, (Trip.spent.inj h).symm⟩

theorem trip_ended {r : Except ε (Marks K σ)} (hv : Visits visit refs note) (h : trip visit m = .ended r) :
    (m.stack = [] ∧ r = .ok m) ∨ ∃ k rest e, m.stack = k :: rest ∧ refs k = .error e ∧ r = .error e := by
  unfold trip at h
  split at h
  · rename_i hstack
    exact .inl ⟨hstack, (Trip.ended.inj h).symm⟩
  · rename_i k rest hstack
    split_ifs at h with hk
    rw [hv k m.notes] at h
    cases href : refs k with
    | error e =>
      rw [href] at h
      exact .inr ⟨k, rest, e, hstack, href, (Trip.ended.inj h).symm⟩
    | ok ks =>
      rw [href] at h
      cases h

theorem Walking.trip (hv : Visits visit refs note) (h : Walking refs note roots notes m)
    (ht : Marking.trip visit m = .spent m') : Walking refs note roots notes m' := by
  obtain ⟨k, rest, hstack, ⟨hk, rfl⟩ | ⟨hk, ks, hks, rfl⟩⟩ := trip_spent hv ht
  · exact h.skip hstack hk
  · exact h.follow hstack hk hks

/-! ## The whole walk -/

/-- A trip is one step of the walk's work, where only so many keys refer to anything. -/
theorem work_trip {keys : List K} (hkeys : ∀ k, listed refs k ≠ [] → k ∈ keys) (hv : Visits visit refs note)
    (ht : trip visit m = .spent m') : work refs keys m' < work refs keys m := by
  obtain ⟨k, rest, hstack, ⟨hk, rfl⟩ | ⟨hk, ks, hks, rfl⟩⟩ := trip_spent hv ht
  · simp only [work, hstack, List.length_cons]
    omega
  · have hlisted : listed refs k = ks := by simp [listed, hks, Except.toOption]
    have hsum := Nodes.sum_filter_add_le keys hk fun k => (listed refs k).length
    simp only [work, hstack, List.length_append, List.length_reverse, List.length_cons]
    by_cases hmem : k ∈ keys
    · rw [if_pos hmem, hlisted] at hsum
      omega
    · have hnil : ks = [] := by
        by_contra hne
        exact hmem (hkeys k (hlisted ▸ hne))
      rw [if_neg hmem] at hsum
      subst hnil
      simp only [List.length_nil]
      omega

/-- **A walk ends** with more fuel than there is work, and then always in the same way. -/
theorem mark_ends {keys : List K} (hkeys : ∀ k, listed refs k ≠ [] → k ∈ keys) (hv : Visits visit refs note)
    (roots : List K) (notes : σ) :
    ∃ r, ∀ fuel, work refs keys (⟨roots.reverse, [], notes⟩ : Marks K σ) < fuel →
      mark visit fuel roots notes = .inr r := by
  have hend : ∀ (n : Nat) (m : Marks K σ), work refs keys m < n →
      ∃ r, ∀ fuel, work refs keys m < fuel → spend (trip visit) fuel m = .inr r := by
    intro n
    induction n with
    | zero => exact fun m h => absurd h (Nat.not_lt_zero _)
    | succ n ih =>
      intro m hm
      cases ht : trip visit m with
      | ended r => exact ⟨r, fun fuel hfuel => spend_ended (by omega) ht⟩
      | spent m' =>
        have hlt := work_trip hkeys hv ht
        obtain ⟨r, hr⟩ := ih m' (by omega)
        refine ⟨r, fun fuel hfuel => ?_⟩
        obtain ⟨fuel, rfl⟩ := Nat.exists_eq_add_of_lt hfuel
        rw [spend, ht]
        exact hr _ (by omega)
  exact hend _ _ (Nat.lt_succ_self _)

/-- **A walk that ends well** marked what is reached, each key once, with a note of each. -/
theorem mark_ok {fuel : Nat} (hv : Visits visit refs note) (h : mark visit fuel roots notes = .inr (.ok m)) :
    m.marked.Nodup ∧ (∀ k, k ∈ m.marked ↔ Reached refs roots k) ∧
      (∀ k ∈ m.marked, ∃ ks, refs k = .ok ks) ∧ m.notes = m.marked.foldr note notes := by
  obtain ⟨n, t, -, hspent, hended⟩ := spend_right h
  have hw : Walking refs note roots notes t := hspent.invariant walking_start fun _ _ hw ht => hw.trip hv ht
  obtain ⟨hstack, hm⟩ | ⟨_, _, _, _, _, hm⟩ := trip_ended hv hended
  · obtain rfl := Except.ok.inj hm
    have hdone : ∀ k, k ∈ m.stack ∨ k ∈ m.marked → k ∈ m.marked := by
      rintro k (hk | hk)
      · rw [hstack] at hk
        cases hk
      · exact hk
    refine ⟨hw.nodup, fun k => ⟨fun hk => hw.sound k (.inr hk), ?_⟩, fun k hk => ?_, hw.noted⟩
    · rintro ⟨r, hr, hrk⟩
      -- along the way every key is marked, and so what it refers to is
      induction hrk with
      | refl => exact hdone r (hw.started r hr)
      | tail _ hstep ih =>
        obtain ⟨ks, hks, hd⟩ := hstep
        obtain ⟨ks', hks', hall⟩ := hw.closed _ ih
        obtain rfl := Except.ok.inj (hks.symm.trans hks')
        exact hdone _ (hall _ hd)
    · obtain ⟨ks, hks, -⟩ := hw.closed k hk
      exact ⟨ks, hks⟩
  · cases hm

/-- **A walk that is refused** reached a key that is. -/
theorem mark_error {fuel : Nat} {e : ε} (hv : Visits visit refs note)
    (h : mark visit fuel roots notes = .inr (.error e)) : ∃ k, Reached refs roots k ∧ refs k = .error e := by
  obtain ⟨n, t, -, hspent, hended⟩ := spend_right h
  have hw : Walking refs note roots notes t := hspent.invariant walking_start fun _ _ hw ht => hw.trip hv ht
  obtain ⟨_, hm⟩ | ⟨k, rest, e', hstack, href, hm⟩ := trip_ended hv hended
  · cases hm
  · obtain rfl := Except.error.inj hm
    exact ⟨k, hw.sound k (.inl (by simp [hstack])), href⟩

end Marking

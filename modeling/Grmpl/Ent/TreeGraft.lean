import Grmpl.Ent.TreeSearch

/-!
# Virtual copies

A graft copies a span to displaced keys: it cuts the tree and joins the pieces
around the new one. What it does to the slots is the plain operation, as long as
the displacement keeps the order of what it moves.

* `Tree.OrderKept`: a displacement keeps the order of everything a tree stores.
* `Tree.relocate_spec`, `Tree.graft_spec`.
-/

open OrdMap Separated

namespace Grmpl

namespace Tree

variable {K V M : Type} [Displace K] [Measure K V M] {p : Bool} {h : Nat} {U : K → Prop}
  {t : Tree K V M}

/-- No condition on the keys. -/
abbrev anyKey (_ : K) : Prop := True

/-- Moving by `d` keeps the order of every key a tree stores, rows, holes and
separators: what `Displace` asks of any displaced subtree. -/
def OrderKept (d : Dsp) (t : Tree K V M) : Prop :=
  ∀ a ∈ stored t, ∀ b ∈ stored t, a < b → displace a d < displace b d

instance (d : Dsp) (t : Tree K V M) : Decidable (OrderKept d t) :=
  inferInstanceAs (Decidable (∀ a ∈ stored t, ∀ b ∈ stored t, a < b → displace a d < displace b d))

/-- A plain list with every key moved. -/
def moved {W : Type} (d : Dsp) (S : List (K × W)) : List (K × W) :=
  S.map fun e => (displace e.1 d, e.2)

/-- **Relocate**: every key moves, at the price of one handle. -/
theorem relocate_spec {d : Dsp} (ht : Sound p U t) (hd : OrderKept d t) :
    Sound p anyKey (t.relocate d) ∧ slots (t.relocate d) = moved d (slots t) := by
  rcases ht with rfl | ⟨h, ht⟩
  · exact ⟨Sound.nil, rfl⟩
  · refine ⟨(ht.of_stored.1.relocate ⟨fun _ _ => trivial, fun a b ha hb => hd a ha b hb⟩).sound, ?_⟩
    exact ht.slots_relocate d

theorem Sound.isEmpty (ht : Sound p U t) : t.isEmpty = (slots t).isEmpty := by
  rcases ht with rfl | ⟨h, ht⟩
  · rfl
  · rw [ht.isEmpty]
    exact (List.isEmpty_eq_false_iff.2 ht.slots_ne_nil).symm

/-! ## Graft -/

/-- The plain virtual copy: the entries of a span copied to displaced keys, unless
the target is occupied or not all of them land in it. -/
def graftMap {W : Type} (lo hi : K) (d : Dsp) (S : List (K × W)) : Option (List (K × W)) :=
  if hi ≤ lo then some S
  else if (between lo hi S).isEmpty then some S
  else
    let tlo := displace lo d
    let thi := displace hi d
    let copy := moved d (between lo hi S)
    if thi ≤ tlo ∨ (between tlo thi S).isEmpty = false then none
    else if copy.all fun e => tlo ≤ e.1 ∧ e.1 < thi then
      some (below tlo S ++ copy ++ atLeast tlo S)
    else none

theorem below_atLeast {W : Type} (lo hi : K) (S : List (K × W)) :
    below hi (atLeast lo S) = between lo hi S := by
  simp [below, atLeast, between, List.filter_filter, Bool.and_comm]

/-- The subtree a graft copies. -/
def graftSpan (t : Tree K V M) (lo hi : K) : Tree K V M := ((t.split lo).2.split hi).1

theorem graftSpan_spec (ht : Sound p U t) (lo hi : K) :
    Sound p U (graftSpan t lo hi) ∧ slots (graftSpan t lo hi) = between lo hi (slots t) := by
  obtain ⟨-, hrest, hrslots⟩ := split_spec ht lo
  obtain ⟨⟨hspan, hsslots⟩, -⟩ := split_spec hrest hi
  exact ⟨hspan, by rw [graftSpan, hsslots, hrslots, below_atLeast]⟩

/-- The ends of a sorted tree tell whether all its keys lie in a span. -/
theorem ends_inside (ht : Node p h U t) (lo hi : K) {first last : K} (hfirst : t.minKey = some first)
    (hlast : t.maxKey = some last) :
    (first < lo ∨ hi ≤ last) ↔ ¬ ∀ e ∈ slots t, lo ≤ e.1 ∧ e.1 < hi := by
  obtain ⟨k, hk, hkmem, hkmin⟩ := minKey_spec ht
  obtain ⟨k', hk', hkmem', hkmax⟩ := maxKey_spec ht
  obtain rfl := Option.some.inj (hfirst.symm.trans hk)
  obtain rfl := Option.some.inj (hlast.symm.trans hk')
  obtain ⟨e, he, rfl⟩ := List.mem_map.1 hkmem
  obtain ⟨e', he', rfl⟩ := List.mem_map.1 hkmem'
  constructor
  · rintro (hlt | hle) hall
    · exact absurd (hall e he).1 (not_le.2 hlt)
    · exact absurd (hall e' he').2 (not_lt.2 hle)
  · intro hnot
    by_contra hends
    rw [not_or, not_lt, not_le] at hends
    exact hnot fun x hx => ⟨hends.1.trans (hkmin x hx), (hkmax x hx).trans_lt hends.2⟩

variable [RunValue V]

/-- **Graft** is the plain virtual copy. -/
theorem graft_spec {lo hi : K} {d : Dsp} (ht : Sound p anyKey t)
    (hd : OrderKept d (graftSpan t lo hi)) :
    (t.graft lo hi d).map slots = graftMap lo hi d (slots t) ∧
      ∀ t' ∈ t.graft lo hi d, Sound p anyKey t' := by
  obtain ⟨hspan, hsslots⟩ := graftSpan_spec ht lo hi
  obtain ⟨hcopy, hcslots⟩ := relocate_spec hspan hd
  unfold graft graftMap
  by_cases hle : hi ≤ lo
  · simpa [hle] using ht
  rw [if_neg hle, if_neg hle]
  simp only
  rw [← graftSpan, hspan.isEmpty, hsslots]
  by_cases hempty : (between lo hi (slots t)).isEmpty = true
  · simpa [hempty] using ht
  rw [if_neg hempty, if_neg hempty, anyIn_spec ht, anySlot]
  by_cases hocc : displace hi d ≤ displace lo d ∨
      (between (displace lo d) (displace hi d) (slots t)).isEmpty = false
  · rw [if_pos (by simpa using hocc), if_pos hocc]
    simp
  rw [if_neg (by simpa using hocc), if_neg hocc]
  -- the copy is some tree, so it has ends
  have hne : slots ((graftSpan t lo hi).relocate d) ≠ [] := by
    rw [hcslots, hsslots, moved]
    simpa using hempty
  obtain ⟨hc, hcN⟩ := hcopy.resolve_left fun hnil => hne (by rw [hnil]; rfl)
  obtain ⟨first, hfirst, -⟩ := minKey_spec hcN
  obtain ⟨last, hlast, -⟩ := maxKey_spec hcN
  rw [hfirst, hlast]
  simp only
  have hends := ends_inside hcN (displace lo d) (displace hi d) hfirst hlast
  rw [hcslots, hsslots] at hends
  by_cases hall : ∀ e ∈ moved d (between lo hi (slots t)), displace lo d ≤ e.1 ∧ e.1 < displace hi d
  · rw [if_neg (by simpa using fun hout => hends.1 hout hall), if_pos (by simpa using hall)]
    obtain ⟨⟨hbelow, hbslots⟩, habove, haslots⟩ := split_spec ht (displace lo d)
    have hall' : ∀ e ∈ slots ((graftSpan t lo hi).relocate d),
        displace lo d ≤ e.1 ∧ e.1 < displace hi d := by
      rw [hcslots, hsslots]
      exact hall
    have hfree : ∀ e ∈ atLeast (displace lo d) (slots t), displace hi d ≤ e.1 := by
      intro e he
      rw [not_or] at hocc
      by_contra hlt
      refine hocc.2 (List.isEmpty_eq_false_iff.2 (List.ne_nil_of_mem (a := e) ?_))
      obtain ⟨hmem, hge⟩ := List.mem_filter.1 he
      exact List.mem_filter.2 ⟨hmem, by simpa using ⟨by simpa using hge, not_le.1 hlt⟩⟩
    have hj := join_spec hbelow hcopy fun x hx y hy => by
      rw [hbslots] at hx
      exact lt_of_lt_of_le (by simpa using (List.mem_filter.1 hx).2) (hall' y hy).1
    have hj' := join_spec hj.1 habove fun x hx y hy => by
      rw [hj.2, hbslots] at hx
      rw [haslots] at hy
      rcases List.mem_append.1 hx with hx | hx
      · exact lt_of_lt_of_le (by simpa using (List.mem_filter.1 hx).2)
          (by simpa using (List.mem_filter.1 hy).2)
      · exact (hall' x hx).2.trans_le (hfree y hy)
    refine ⟨?_, by simpa using hj'.1⟩
    rw [Option.map_some, hj'.2, hj.2, hbslots, haslots, hcslots, hsslots]
  · rw [if_pos (by simpa using hends.2 hall), if_neg (by simpa using hall)]
    simp

/-! ## Reserve -/

end Tree

end Grmpl

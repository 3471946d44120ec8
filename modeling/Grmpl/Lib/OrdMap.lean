import Mathlib

/-!
# Plain sorted maps

Association lists in strictly ascending key order, the plain maps that richer
representations are compared with. The operations are written with filters, so
they distribute over the pieces a representation cuts a map into.

* `Sorted l`: keys strictly ascend.
* `put`, `drop`, `below`, `atLeast`, `between`: the operations on lists.
* `OrdMap`: a list bundled with its order, with the same operations.
-/

namespace OrdMap

variable {K V : Type*}

theorem filter_eq_self_of {α : Type*} {l : List α} {p : α → Bool} (h : ∀ e ∈ l, p e = true) :
    l.filter p = l := List.filter_eq_self.2 h

theorem filter_eq_nil_of {α : Type*} {l : List α} {p : α → Bool} (h : ∀ e ∈ l, p e = false) :
    l.filter p = [] := List.filter_eq_nil_iff.2 fun e he => by simp [h e he]

/-- Two tests one of whose rows all come before the other's pick their rows in turn. -/
theorem filter_or {α : Type*} {p q : α → Bool} : ∀ {l : List α},
    l.Pairwise (fun a b => ¬ (q a = true ∧ p b = true)) → (∀ a ∈ l, ¬ (p a = true ∧ q a = true)) →
      l.filter (fun a => p a || q a) = l.filter p ++ l.filter q
  | [], _, _ => rfl
  | a :: l, hl, hdis => by
      obtain ⟨ha, hl⟩ := List.pairwise_cons.1 hl
      have ih := filter_or hl fun b hb => hdis b (List.mem_cons_of_mem a hb)
      by_cases hq : q a = true
      · have hp : p a = false := by
          by_contra h
          exact hdis a List.mem_cons_self ⟨by simpa using h, hq⟩
        have hnone : l.filter p = [] := List.filter_eq_nil_iff.2 fun b hb hpb => ha b hb ⟨hq, hpb⟩
        rw [hnone, List.nil_append] at ih
        simp [hp, hq, hnone, ih]
      · by_cases hp : p a = true <;> simp [hp, hq, ih]

variable [LinearOrder K]

/-- Keys strictly ascend. -/
def Sorted (l : List (K × V)) : Prop := l.Pairwise fun a b => a.1 < b.1

/-- `l` with `v` bound to `k`. -/
def put (k : K) (v : V) (l : List (K × V)) : List (K × V) :=
  l.filter (fun e => e.1 < k) ++ (k, v) :: l.filter (fun e => k < e.1)

/-- `l` without the key `k`. -/
def drop (k : K) (l : List (K × V)) : List (K × V) := l.filter fun e => e.1 ≠ k

/-- The entries below `k`. -/
def below (k : K) (l : List (K × V)) : List (K × V) := l.filter fun e => e.1 < k

/-- The entries at or above `k`. -/
def atLeast (k : K) (l : List (K × V)) : List (K × V) := l.filter fun e => k ≤ e.1

/-- The entries in the half-open span from `lo` to `hi`. -/
def between (lo hi : K) (l : List (K × V)) : List (K × V) :=
  l.filter fun e => lo ≤ e.1 ∧ e.1 < hi

/-- The value bound to `k`. -/
def lookup (k : K) (l : List (K × V)) : Option V := (l.find? fun e => e.1 = k).map Prod.snd

/-! ## Order -/

theorem sorted_append {a b : List (K × V)} :
    Sorted (a ++ b) ↔ Sorted a ∧ Sorted b ∧ ∀ x ∈ a, ∀ y ∈ b, x.1 < y.1 :=
  List.pairwise_append

theorem Sorted.filter {l : List (K × V)} (h : Sorted l) (p : K × V → Bool) : Sorted (l.filter p) :=
  List.Pairwise.filter p h

theorem sorted_put {k : K} {v : V} {l : List (K × V)} (h : Sorted l) : Sorted (put k v l) := by
  refine sorted_append.2 ⟨h.filter _, List.pairwise_cons.2 ⟨?_, h.filter _⟩, ?_⟩
  · intro e he
    simpa using (List.mem_filter.1 he).2
  · intro x hx y hy
    have hxk : x.1 < k := by simpa using (List.mem_filter.1 hx).2
    rcases List.mem_cons.1 hy with rfl | hy
    · exact hxk
    · exact hxk.trans (by simpa using (List.mem_filter.1 hy).2)

/-! ## Pieces -/

/-- A write between two pieces changes only the middle one. -/
theorem put_middle {k : K} {v : V} {a b c : List (K × V)} (ha : ∀ e ∈ a, e.1 < k)
    (hc : ∀ e ∈ c, k < e.1) : put k v (a ++ b ++ c) = a ++ put k v b ++ c := by
  have ha₁ : a.filter (fun e => e.1 < k) = a := filter_eq_self_of fun e he => by simpa using ha e he
  have ha₂ : a.filter (fun e => k < e.1) = [] :=
    filter_eq_nil_of fun e he => by simpa using (ha e he).le
  have hc₁ : c.filter (fun e => e.1 < k) = [] :=
    filter_eq_nil_of fun e he => by simpa using (hc e he).le
  have hc₂ : c.filter (fun e => k < e.1) = c := filter_eq_self_of fun e he => by simpa using hc e he
  simp [put, List.filter_append, ha₁, ha₂, hc₁, hc₂]

theorem put_eq {k : K} {v : V} {a c : List (K × V)} (ha : ∀ e ∈ a, e.1 < k)
    (hc : ∀ e ∈ c, k < e.1) : put k v (a ++ c) = a ++ (k, v) :: c := by
  have h := put_middle (k := k) (v := v) (b := []) ha hc
  simpa [put] using h

/-- A write over the entry at its key. -/
theorem put_replace {k : K} {v w : V} {a c : List (K × V)} (ha : ∀ e ∈ a, e.1 < k)
    (hc : ∀ e ∈ c, k < e.1) : put k v (a ++ (k, w) :: c) = a ++ (k, v) :: c := by
  have h := put_middle (k := k) (v := v) (b := [(k, w)]) ha hc
  simpa [put] using h

/-- A write of the value already there changes nothing. -/
theorem put_same {k : K} {v : V} {l : List (K × V)} (h : Sorted l) (hmem : (k, v) ∈ l) :
    put k v l = l := by
  obtain ⟨a, c, rfl⟩ := List.append_of_mem hmem
  obtain ⟨-, hc, hac⟩ := sorted_append.1 h
  exact put_replace (fun e he => hac e he (k, v) (by simp)) (List.pairwise_cons.1 hc).1

theorem drop_middle {k : K} {a b c : List (K × V)} (ha : ∀ e ∈ a, e.1 ≠ k)
    (hc : ∀ e ∈ c, e.1 ≠ k) : drop k (a ++ b ++ c) = a ++ drop k b ++ c := by
  have ha' : a.filter (fun e => e.1 ≠ k) = a := filter_eq_self_of fun e he => by simpa using ha e he
  have hc' : c.filter (fun e => e.1 ≠ k) = c := filter_eq_self_of fun e he => by simpa using hc e he
  simp only [drop, List.filter_append, ha', hc']

/-- Dropping a key commutes with an injective renaming of keys. -/
theorem drop_map {f : K → K} (hf : Function.Injective f) (k : K) (l : List (K × V)) :
    drop (f k) (l.map fun e => (f e.1, e.2)) = (drop k l).map fun e => (f e.1, e.2) := by
  rw [drop, drop, List.filter_map]
  congr 1
  refine List.filter_congr fun e _ => ?_
  simp [hf.eq_iff]

theorem below_append (k : K) (a b : List (K × V)) : below k (a ++ b) = below k a ++ below k b :=
  List.filter_append _ _

theorem atLeast_append (k : K) (a b : List (K × V)) :
    atLeast k (a ++ b) = atLeast k a ++ atLeast k b := List.filter_append _ _

theorem below_append_of {k : K} {a b : List (K × V)} (ha : ∀ e ∈ a, e.1 < k)
    (hb : ∀ e ∈ b, k ≤ e.1) : below k (a ++ b) = a ∧ atLeast k (a ++ b) = b := by
  constructor
  · rw [below, List.filter_append, filter_eq_self_of fun e he => by simpa using ha e he,
      filter_eq_nil_of fun e he => by simpa using hb e he, List.append_nil]
  · rw [atLeast, List.filter_append, filter_eq_nil_of fun e he => by simpa using ha e he,
      filter_eq_self_of fun e he => by simpa using hb e he, List.nil_append]

/-- A sorted list is its part below a key and its part from the key on. -/
theorem below_append_atLeast {k : K} {l : List (K × V)} (h : Sorted l) :
    below k l ++ atLeast k l = l := by
  induction l with
  | nil => rfl
  | cons e l ih =>
    rw [Sorted, List.pairwise_cons] at h
    by_cases hk : e.1 < k
    · have := ih h.2
      simp only [below, atLeast] at this ⊢
      simp [hk, this]
    · have hall : ∀ x ∈ e :: l, k ≤ x.1 := by
        intro x hx
        rcases List.mem_cons.1 hx with rfl | hx
        · exact not_lt.1 hk
        · exact (not_lt.1 hk).trans (h.1 x hx).le
      have := below_append_of (a := []) (k := k) (by simp) hall
      simpa using congrArg₂ (· ++ ·) this.1 this.2

theorem mem_put {k : K} {v : V} {l : List (K × V)} {e : K × V} (h : e ∈ put k v l) :
    e = (k, v) ∨ e ∈ l := by
  simp only [put, List.mem_append, List.mem_cons, List.mem_filter] at h
  rcases h with h | h | h
  · exact .inr h.1
  · exact .inl h
  · exact .inr h.1

theorem mem_put_of_ne {k : K} {v : V} {l : List (K × V)} {e : K × V} (h : e ∈ l) (hk : e.1 ≠ k) :
    e ∈ put k v l := by
  simp only [put, List.mem_append, List.mem_cons, List.mem_filter]
  rcases lt_or_gt_of_ne hk with hlt | hlt
  · exact .inl ⟨h, by simpa using hlt⟩
  · exact .inr (.inr ⟨h, by simpa using hlt⟩)

/-! ## Lookup -/

theorem lookup_append {k : K} {a b : List (K × V)} (ha : ∀ e ∈ a, e.1 ≠ k) :
    lookup k (a ++ b) = lookup k b := by
  have : a.find? (fun e => e.1 = k) = none := by
    rw [List.find?_eq_none]
    intro e he
    simpa using ha e he
  simp [lookup, List.find?_append, this]

theorem lookup_absent {k : K} {l : List (K × V)} (h : ∀ e ∈ l, e.1 ≠ k) : lookup k l = none := by
  have := lookup_append (b := []) h
  simpa [lookup] using this

theorem lookup_append_right {k : K} {a b : List (K × V)} (hb : ∀ e ∈ b, e.1 ≠ k) :
    lookup k (a ++ b) = lookup k a := by
  have : b.find? (fun e => e.1 = k) = none := by
    rw [List.find?_eq_none]
    intro e he
    simpa using hb e he
  simp [lookup, List.find?_append, this]

theorem lookup_of_mem {k : K} {v : V} {l : List (K × V)} (h : Sorted l) (hmem : (k, v) ∈ l) :
    lookup k l = some v := by
  obtain ⟨a, c, rfl⟩ := List.append_of_mem hmem
  rw [sorted_append] at h
  rw [lookup_append fun e he => (h.2.2 e he (k, v) (by simp)).ne]
  simp [lookup]

/-- A lookup reads the first entry of its key, wherever a filter that spares the
key leaves it. -/
theorem lookup_filter_keep {k : K} {l : List (K × V)} {p : K × V → Bool} (hp : ∀ v, p (k, v) = true) :
    lookup k (l.filter p) = lookup k l := by
  simp only [lookup, List.find?_filter]
  congr 2
  funext e
  obtain ⟨x, v⟩ := e
  by_cases he : x = k
  · simp [he, hp v]
  · simp [he]

@[simp] theorem lookup_put_self (k : K) (v : V) (l : List (K × V)) : lookup k (put k v l) = some v := by
  rw [put, lookup_append (fun e he => by simpa using (of_decide_eq_true (List.mem_filter.1 he).2).ne)]
  simp [lookup]

theorem lookup_put_ne {k k' : K} (h : k' ≠ k) (v : V) (l : List (K × V)) :
    lookup k' (put k v l) = lookup k' l := by
  rcases lt_or_gt_of_ne h with hlt | hlt
  · rw [put, lookup_append_right, lookup_filter_keep fun _ => by simpa using hlt]
    intro e he
    rcases List.mem_cons.1 he with rfl | he
    · exact h.symm
    · exact (hlt.trans (of_decide_eq_true (List.mem_filter.1 he).2)).ne'
  · rw [put, ← List.singleton_append, ← List.append_assoc, lookup_append,
      lookup_filter_keep fun _ => by simpa using hlt]
    intro e he
    rcases List.mem_append.1 he with he | he
    · exact ((of_decide_eq_true (List.mem_filter.1 he).2).trans hlt).ne
    · obtain rfl := List.mem_singleton.1 he
      exact h.symm

/-- A map read one key at a time, after a binding. -/
theorem lookup_put (k k' : K) (v : V) (l : List (K × V)) :
    lookup k' (put k v l) = if k' = k then some v else lookup k' l := by
  split_ifs with h
  · rw [h, lookup_put_self]
  · exact lookup_put_ne h v l

/-- A filter that drops a key undoes its binding, if it keeps every other key it
kept. -/
theorem filter_put {k : K} {v : V} {l : List (K × V)} {p : K × V → Bool}
    (hp : ∀ w, p (k, w) = false) : (put k v l).filter p = (l.filter (fun e => e.1 < k)).filter p
      ++ (l.filter fun e => k < e.1).filter p := by
  simp [put, List.filter_append, hp]

/-- A binding at a key above every other goes at the end. -/
theorem put_last {k : K} {v : V} {l : List (K × V)} (h : ∀ e ∈ l, e.1 < k) :
    put k v l = l ++ [(k, v)] := by
  rw [put, filter_eq_self_of fun e he => by simpa using h e he,
    filter_eq_nil_of fun e he => by simpa using (h e he).le]

/-- A filter that keeps a key with whatever it is bound to passes its binding. -/
theorem filter_put_keep {k : K} {v : V} {l : List (K × V)} {p : K × V → Bool} (hp : p (k, v) = true) :
    (put k v l).filter p = put k v (l.filter p) := by
  unfold put
  rw [List.filter_append, List.filter_cons_of_pos hp]
  simp only [List.filter_filter, Bool.and_comm]

/-- And one that drops it leaves no trace of it. -/
theorem filter_put_skip {k : K} {v : V} {l : List (K × V)} {p : K × V → Bool} (hl : Sorted l)
    (hp : ∀ w, p (k, w) = false) : (put k v l).filter p = l.filter p := by
  have hcut : l.filter p = (below k l).filter p ++ (atLeast k l).filter p := by
    rw [← List.filter_append, below_append_atLeast hl]
  rw [filter_put hp, hcut]
  refine congrArg (List.filter p (below k l) ++ ·) ?_
  unfold atLeast
  rw [List.filter_filter, List.filter_filter]
  refine List.filter_congr fun e _ => ?_
  by_cases he : e.1 = k
  · rw [← he] at hp
    simp [hp e.2]
  · have hle : k < e.1 ↔ k ≤ e.1 := ⟨le_of_lt, fun h => lt_of_le_of_ne h (Ne.symm he)⟩
    simp [hle]

/-- Maps with the same bindings are the same. -/
theorem Sorted.ext {a b : List (K × V)} (ha : Sorted a) (hb : Sorted b) (h : ∀ e, e ∈ a ↔ e ∈ b) :
    a = b := by
  have hnodup : ∀ {l : List (K × V)}, Sorted l → l.Nodup := fun hl =>
    hl.imp fun hlt heq => absurd (heq ▸ hlt) (lt_irrefl _)
  have hperm := (List.perm_ext_iff_of_nodup (hnodup ha) (hnodup hb)).2 h
  exact hperm.eq_of_pairwise (fun x y _ _ hxy hyx => absurd (hxy.trans hyx) (lt_irrefl _)) ha hb

theorem mem_of_lookup {k : K} {v : V} {l : List (K × V)} (h : lookup k l = some v) :
    (k, v) ∈ l := by
  simp only [lookup, Option.map_eq_some_iff] at h
  obtain ⟨e, he, rfl⟩ := h
  have hk := List.find?_some he
  have hmem := List.mem_of_find?_eq_some he
  simp only [decide_eq_true_eq] at hk
  exact hk ▸ hmem

/-- A row put where its key has none is one row more. -/
theorem perm_put {k : K} {v : V} {m : List (K × V)} (h : ∀ e ∈ m, e.1 ≠ k) :
    (put k v m).Perm ((k, v) :: m) := by
  have hrest : m.filter (fun e => !decide (e.1 < k)) = m.filter (fun e => k < e.1) := by
    refine List.filter_congr fun e he => ?_
    rw [← decide_not]
    exact decide_eq_decide.2 ⟨fun hle => lt_of_le_of_ne (not_lt.1 hle) (h e he).symm, fun hlt => hlt.le.not_gt⟩
  rw [put, ← hrest]
  refine List.perm_middle.trans (.cons _ ?_)
  exact List.filter_append_perm _ m

theorem mem_put_iff {k : K} {v : V} {l : List (K × V)} {e : K × V} :
    e ∈ put k v l ↔ e = (k, v) ∨ (e ∈ l ∧ e.1 ≠ k) := by
  simp only [put, List.mem_append, List.mem_cons, List.mem_filter, decide_eq_true_eq]
  constructor
  · rintro (⟨h, hlt⟩ | rfl | ⟨h, hlt⟩)
    · exact .inr ⟨h, hlt.ne⟩
    · exact .inl rfl
    · exact .inr ⟨h, hlt.ne'⟩
  · rintro (rfl | ⟨h, hne⟩)
    · exact .inr (.inl rfl)
    · rcases lt_or_gt_of_ne hne with hlt | hlt
      · exact .inl ⟨h, hlt⟩
      · exact .inr (.inr ⟨h, hlt⟩)

theorem mem_drop {k : K} {l : List (K × V)} {e : K × V} :
    e ∈ drop k l ↔ e ∈ l ∧ e.1 ≠ k := by
  simp [drop]

/-- One key has one value. -/
theorem Sorted.unique {l : List (K × V)} {a b : K × V} (h : Sorted l) (ha : a ∈ l) (hb : b ∈ l)
    (hk : a.1 = b.1) : a = b := by
  have hl := lookup_of_mem (v := a.2) h ha
  have hl' := lookup_of_mem (v := b.2) h hb
  rw [hk, hl'] at hl
  exact Prod.ext hk (Option.some.inj hl).symm

end OrdMap

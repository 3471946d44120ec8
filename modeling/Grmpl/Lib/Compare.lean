import Mathlib.Order.Defs.LinearOrder
import Mathlib.Order.Basic

/-!
# Comparison functions and lexicographic lists

General facts about comparison functions `α → α → Ordering`, independent of
any program: a comparison is *lawful* when it decides equality, is
antisymmetric under swapping and is transitive, and a lawful comparison gives
a linear order.

* `LawfulCmp`: the three laws.
* `lexCmp`: two lists compared element by element, the shorter first.
* `LawfulCmp.linearOrder`: the linear order of a lawful comparison.
-/

namespace Compare

variable {α β : Type*}

/-- A comparison function that decides equality, swaps and composes. -/
structure LawfulCmp (cmp : α → α → Ordering) : Prop where
  eq_iff : ∀ a b, cmp a b = .eq ↔ a = b
  swap : ∀ a b, (cmp a b).swap = cmp b a
  lt_trans : ∀ a b c, cmp a b = .lt → cmp b c = .lt → cmp a c = .lt

/-! ## Lexicographic comparison of lists -/

/-- Lists compared element by element; a proper prefix comes first. -/
def lexCmp (cmp : α → α → Ordering) : List α → List α → Ordering
  | [], [] => .eq
  | [], _ :: _ => .lt
  | _ :: _, [] => .gt
  | a :: as, b :: bs => (cmp a b).then (lexCmp cmp as bs)

/-- The lexicographic comparison decides equality as soon as the elements of
its first list are told apart. -/
theorem lexCmp_eq_iff {cmp : α → α → Ordering} {as : List α}
    (h : ∀ a ∈ as, ∀ b, cmp a b = .eq ↔ a = b) (bs : List α) :
    lexCmp cmp as bs = .eq ↔ as = bs := by
  induction as generalizing bs with
  | nil => cases bs <;> simp [lexCmp]
  | cons a as ih =>
    cases bs with
    | nil => simp [lexCmp]
    | cons b bs =>
      have ha := h a (by simp) b
      have htl := ih (fun x hx => h x (by simp [hx])) bs
      simp [lexCmp, Ordering.then_eq_eq, ha, htl]

theorem lexCmp_swap {cmp : α → α → Ordering} {as : List α}
    (h : ∀ a ∈ as, ∀ b, (cmp a b).swap = cmp b a) (bs : List α) :
    (lexCmp cmp as bs).swap = lexCmp cmp bs as := by
  induction as generalizing bs with
  | nil => cases bs <;> simp [lexCmp]
  | cons a as ih =>
    cases bs with
    | nil => simp [lexCmp]
    | cons b bs =>
      have ha := h a (by simp) b
      have htl := ih (fun x hx => h x (by simp [hx])) bs
      simp [lexCmp, Ordering.swap_then, ha, htl]

/-- Lists compare as before after a map that leaves their elements' comparisons. -/
theorem lexCmp_map {cmp : α → α → Ordering} {f : α → α} {as bs : List α}
    (h : ∀ a ∈ as, ∀ b ∈ bs, cmp (f a) (f b) = cmp a b) :
    lexCmp cmp (as.map f) (bs.map f) = lexCmp cmp as bs := by
  induction as generalizing bs with
  | nil => cases bs <;> rfl
  | cons a as ih => cases bs with
    | nil => rfl
    | cons b bs =>
      have hhead := h a List.mem_cons_self b List.mem_cons_self
      have htail := ih fun x hx y hy => h x (List.mem_cons_of_mem a hx) y (List.mem_cons_of_mem b hy)
      rw [List.map_cons, List.map_cons, lexCmp, lexCmp, hhead, htail]

/-- Smaller at the head, or equal there and smaller in the tail. -/
theorem lexCmp_cons_lt {cmp : α → α → Ordering} {a b : α} {as bs : List α} :
    lexCmp cmp (a :: as) (b :: bs) = .lt ↔
      cmp a b = .lt ∨ (cmp a b = .eq ∧ lexCmp cmp as bs = .lt) := by
  simp only [lexCmp, Ordering.then_eq_lt]

theorem lexCmp_lt_trans {cmp : α → α → Ordering} (heq : ∀ a b, cmp a b = .eq ↔ a = b)
    {as : List α} (h : ∀ a ∈ as, ∀ b c, cmp a b = .lt → cmp b c = .lt → cmp a c = .lt)
    (bs cs : List α) (hab : lexCmp cmp as bs = .lt) (hbc : lexCmp cmp bs cs = .lt) :
    lexCmp cmp as cs = .lt := by
  induction as generalizing bs cs with
  | nil =>
    cases bs with
    | nil => exact hbc
    | cons b bs => cases cs with
        | nil => simp [lexCmp] at hbc
        | cons c cs => rfl
  | cons a as ih =>
    cases bs with
    | nil => simp [lexCmp] at hab
    | cons b bs => cases cs with
        | nil => simp [lexCmp] at hbc
        | cons c cs =>
          rw [lexCmp_cons_lt] at hab hbc ⊢
          have htl := ih (fun x hx => h x (by simp [hx]))
          rcases hab with hab | ⟨hab, hab'⟩ <;> rcases hbc with hbc | ⟨hbc, hbc'⟩
          · exact Or.inl (h a (by simp) b c hab hbc)
          · exact Or.inl ((heq b c).1 hbc ▸ hab)
          · exact Or.inl ((heq a b).1 hab ▸ hbc)
          · refine Or.inr ⟨?_, htl _ _ hab' hbc'⟩
            exact (heq a b).1 hab ▸ hbc

/-- Lists over a lawful comparison are lawfully compared. -/
theorem LawfulCmp.lex {cmp : α → α → Ordering} (h : LawfulCmp cmp) : LawfulCmp (lexCmp cmp) where
  eq_iff _ bs := lexCmp_eq_iff (fun a _ b => h.eq_iff a b) bs
  swap _ bs := lexCmp_swap (fun a _ b => h.swap a b) bs
  lt_trans _ bs cs := lexCmp_lt_trans h.eq_iff (fun a _ b c => h.lt_trans a b c) bs cs

/-- A list between two that differ in their last element alone starts as they do, and goes
on with an element between those. -/
theorem LawfulCmp.lex_between {cmp : α → α → Ordering} (h : LawfulCmp cmp) {lo hi : α} :
    ∀ {init l : List α}, lexCmp cmp l (init ++ [lo]) ≠ .lt → lexCmp cmp l (init ++ [hi]) = .lt →
      ∃ c rest, l = init ++ c :: rest ∧ cmp c lo ≠ .lt ∧ cmp c hi = .lt := by
  intro init
  induction init with
  | nil =>
    intro l hlo hhi
    cases l with
    | nil => exact absurd rfl hlo
    | cons c rest =>
      refine ⟨c, rest, rfl, fun hc => hlo (lexCmp_cons_lt.2 (.inl hc)), ?_⟩
      rcases lexCmp_cons_lt.1 hhi with hc | ⟨-, hrest⟩
      · exact hc
      · cases rest <;> simp [lexCmp] at hrest
  | cons a init ih =>
    intro l hlo hhi
    cases l with
    | nil => exact absurd rfl hlo
    | cons b bs =>
      rw [List.cons_append, Ne, lexCmp_cons_lt] at hlo
      rw [List.cons_append, lexCmp_cons_lt] at hhi
      rcases hhi with hb | ⟨hb, hhi⟩
      · exact absurd (.inl hb) hlo
      · obtain rfl := (h.eq_iff b a).1 hb
        obtain ⟨c, rest, rfl, hc⟩ := ih (fun hlt => hlo (.inr ⟨hb, hlt⟩)) hhi
        exact ⟨c, rest, rfl, hc⟩

/-- A comparison through an injective key into a linear order is lawful. -/
theorem LawfulCmp.onKey [LinearOrder β] (key : α → β) (hkey : ∀ a b, key a = key b → a = b) :
    LawfulCmp (fun a b => compare (key a) (key b)) where
  eq_iff a b := by
    rw [compare_eq_iff_eq]
    exact ⟨hkey a b, fun h => h ▸ rfl⟩
  swap a b := by
    rcases lt_trichotomy (key a) (key b) with h | h | h
    · rw [compare_lt_iff_lt.2 h, compare_gt_iff_gt.2 h]; rfl
    · rw [compare_eq_iff_eq.2 h, compare_eq_iff_eq.2 h.symm]; rfl
    · rw [compare_gt_iff_gt.2 h, compare_lt_iff_lt.2 h]; rfl
  lt_trans a b c := by
    simp only [compare_lt_iff_lt]
    exact fun hab hbc => hab.trans hbc

/-! ## The linear order of a lawful comparison -/

section LinearOrder

variable {cmp : α → α → Ordering}

theorem LawfulCmp.refl (h : LawfulCmp cmp) (a : α) : cmp a a = .eq := (h.eq_iff a a).2 rfl

theorem LawfulCmp.gt_iff (h : LawfulCmp cmp) (a b : α) : cmp a b = .gt ↔ cmp b a = .lt := by
  rw [← h.swap a b]
  cases cmp a b <;> simp

/-- Equality decided by the comparison. -/
def LawfulCmp.decEq (h : LawfulCmp cmp) : DecidableEq α :=
  fun a b => decidable_of_iff (cmp a b = .eq) (h.eq_iff a b)

/-- A lawful comparison written as the order tests it stands for. -/
theorem LawfulCmp.eq_ite (h : LawfulCmp cmp) (a b : α) [Decidable (a = b)] :
    cmp a b = if cmp a b = .lt then .lt else if a = b then .eq else .gt := by
  cases hcmp : cmp a b with
  | lt => simp
  | eq => simp [(h.eq_iff a b).1 hcmp]
  | gt =>
    have hne : a ≠ b := fun he => by simp [(h.eq_iff a b).2 he] at hcmp
    simp [hne]

/-- The linear order a lawful comparison describes, whose `compare` is the
comparison itself. -/
@[reducible] def LawfulCmp.linearOrder (h : LawfulCmp cmp) : LinearOrder α where
  le a b := cmp a b ≠ .gt
  lt a b := cmp a b = .lt
  le_refl a := by simp [h.refl a]
  le_trans a b c hab hbc := by
    intro hac
    rw [h.gt_iff] at hac
    rw [ne_eq, h.gt_iff] at hab hbc
    cases hcmp : cmp b c with
    | lt => exact hab (h.lt_trans _ _ _ hcmp hac)
    | eq => exact hab ((h.eq_iff b c).1 hcmp ▸ hac)
    | gt => exact hbc ((h.gt_iff b c).1 hcmp)
  lt_iff_le_not_ge a b := by
    rw [ne_eq, ne_eq, h.gt_iff b a, not_not]
    constructor
    · intro hlt
      exact ⟨by simp [hlt], hlt⟩
    · exact fun hlt => hlt.2
  le_antisymm a b hab hba := by
    rw [ne_eq, h.gt_iff] at hab hba
    rw [← h.eq_iff]
    cases hcmp : cmp a b with
    | lt => exact absurd hcmp hba
    | eq => rfl
    | gt => exact absurd ((h.gt_iff a b).1 hcmp) hab
  le_total a b := by
    rw [ne_eq, ne_eq, h.gt_iff b a]
    cases cmp a b <;> simp
  toDecidableLE a b := inferInstanceAs (Decidable (cmp a b ≠ .gt))
  toDecidableEq := h.decEq
  toDecidableLT a b := inferInstanceAs (Decidable (cmp a b = .lt))
  compare := cmp
  compare_eq_compareOfLessAndEq a b := @eq_ite _ _ h a b (h.decEq a b)

/-- A list sorted by a lawful comparison ascends, where nothing is in it twice. -/
theorem LawfulCmp.pairwise_mergeSort (h : LawfulCmp cmp) {l : List α} (hnodup : l.Nodup) :
    (l.mergeSort fun a b => (cmp a b).isLE).Pairwise (cmp · · = .lt) := by
  let := h.linearOrder
  have hle : ∀ a b : α, (cmp a b).isLE = true ↔ a ≤ b := fun a b => Ordering.isLE_iff_ne_gt
  have hsorted : (l.mergeSort fun a b => (cmp a b).isLE).Pairwise fun a b => (cmp a b).isLE = true :=
    List.pairwise_mergeSort (fun a b c hab hbc => (hle a c).2 (le_trans ((hle a b).1 hab) ((hle b c).1 hbc)))
      (fun a b => by rw [Bool.or_eq_true, hle, hle]; exact le_total a b) l
  have hdistinct : (l.mergeSort fun a b => (cmp a b).isLE).Nodup := (List.mergeSort_perm l _).nodup_iff.2 hnodup
  exact (hsorted.and hdistinct).imp fun {a b} ⟨hab, hne⟩ => lt_of_le_of_ne ((hle a b).1 hab) hne

end LinearOrder

/-- Pairs compared by their first parts, and by their second where those agree. -/
theorem LawfulCmp.prod {cmp : α → α → Ordering} {cmp' : β → β → Ordering} (h : LawfulCmp cmp) (h' : LawfulCmp cmp') :
    LawfulCmp fun p q : α × β => (cmp p.1 q.1).then (cmp' p.2 q.2) where
  eq_iff p q := by rw [Ordering.then_eq_eq, h.eq_iff, h'.eq_iff, Prod.ext_iff]
  swap p q := by rw [Ordering.swap_then, h.swap, h'.swap]
  lt_trans p q r hpq hqr := by
    rw [Ordering.then_eq_lt] at hpq hqr ⊢
    rcases hpq with hpq | ⟨hpq, hpq'⟩ <;> rcases hqr with hqr | ⟨hqr, hqr'⟩
    · exact .inl (h.lt_trans _ _ _ hpq hqr)
    · exact .inl ((h.eq_iff _ _).1 hqr ▸ hpq)
    · exact .inl ((h.eq_iff _ _).1 hpq ▸ hqr)
    · exact .inr ⟨(h.eq_iff _ _).1 hpq ▸ hqr, h'.lt_trans _ _ _ hpq' hqr'⟩

end Compare

import Mathlib

/-!
# Content-addressed nodes

A node is named by a key that closes over its children's keys, so what a key
reaches never changes. A write collects the nodes under a root that are not known
to be stored already, skipping a known node with everything beneath it.

* `Nodes`: what each key refers to.
* `Nodes.collect`: the nodes a write adds.
* `Nodes.Backed`: every known key has all it reaches in store, the invariant that
  makes skipping right.
* `Nodes.closed_collect`, `Nodes.backed_collect`: a write leaves its root closed,
  and its nodes known with reason.
* `Nodes.mark`: the keys reachable from some roots through stored nodes.
* `Nodes.mem_mark`, `Nodes.closed_sweep`: marking finds exactly what closed roots
  reach, so keeping what is marked keeps them closed.
-/

/-- What each content key refers to: the keys its node was hashed over. -/
structure Nodes (C : Type) where
  refs : C → List C
  depth : C → Nat
  depth_lt : ∀ c, ∀ d ∈ refs c, depth d < depth c

namespace Nodes

variable {C : Type} (N : Nodes C)

/-- `c` reaches `d` through references. -/
def Reaches : C → C → Prop := Relation.ReflTransGen fun c d => d ∈ N.refs c

/-- The nodes under `c` not skipped, children first. -/
def collectIn (skip : C → Bool) : Nat → C → List C
  | 0, _ => []
  | fuel + 1, c =>
      if skip c then [] else (N.refs c).flatMap (collectIn skip fuel) ++ [c]

/-- The nodes a write of the tree under `c` adds. -/
def collect (skip : C → Bool) (c : C) : List C := N.collectIn skip (N.depth c + 1) c

/-- The nodes a write of a root record adds. -/
def collectAll (skip : C → Bool) (roots : List C) : List C := roots.flatMap (N.collect skip)

/-- Everything the keys reach is stored. -/
def Closed (stored : List C) (roots : List C) : Prop :=
  ∀ r ∈ roots, ∀ d, N.Reaches r d → d ∈ stored

/-- Everything a known key reaches is stored. -/
def Backed (stored known : List C) : Prop := N.Closed stored known

variable {N} {stored known : List C} {skip : C → Bool}

theorem Closed.mono {stored' roots : List C} (h : N.Closed stored roots)
    (hsub : ∀ d ∈ stored, d ∈ stored') : N.Closed stored' roots :=
  fun r hr d hd => hsub d (h r hr d hd)

/-- What a collection reaches is in it or under something skipped. -/
theorem collectIn_reaches : ∀ (fuel : Nat) (c : C), N.depth c < fuel → ∀ x ∈
    c :: N.collectIn skip fuel c, ∀ d, N.Reaches x d →
      d ∈ N.collectIn skip fuel c ∨ ∃ s, skip s = true ∧ N.Reaches s d := by
  intro fuel
  induction fuel with
  | zero => intro c hc; omega
  | succ fuel ih =>
    intro c hc x hx d hd
    have hrefs : ∀ r ∈ N.refs c, N.depth r < fuel := by
      intro r hr
      have := N.depth_lt c r hr
      omega
    by_cases hskip : skip c = true
    · have hnil : N.collectIn skip (fuel + 1) c = [] := by simp [collectIn, hskip]
      rw [hnil, List.mem_singleton] at hx
      exact .inr ⟨c, hskip, hx ▸ hd⟩
    · have hlist : N.collectIn skip (fuel + 1) c
          = (N.refs c).flatMap (N.collectIn skip fuel) ++ [c] := by simp [collectIn, hskip]
      -- a child's collection answers for whatever the child or its nodes reach
      have hchild : ∀ r ∈ N.refs c, ∀ y ∈ r :: N.collectIn skip fuel r, N.Reaches y d →
          d ∈ N.collectIn skip (fuel + 1) c ∨ ∃ s, skip s = true ∧ N.Reaches s d := by
        intro r hr y hy hyd
        rcases ih r (hrefs r hr) y hy d hyd with h | h
        · left
          rw [hlist]
          exact List.mem_append_left _ (List.mem_flatMap.2 ⟨r, hr, h⟩)
        · exact .inr h
      have hself : N.Reaches c d →
          d ∈ N.collectIn skip (fuel + 1) c ∨ ∃ s, skip s = true ∧ N.Reaches s d := by
        intro hcd
        rcases Relation.ReflTransGen.cases_head hcd with rfl | ⟨r, hr, hrd⟩
        · left
          rw [hlist]
          simp
        · exact hchild r hr r List.mem_cons_self hrd
      rw [hlist, List.mem_cons, List.mem_append, List.mem_flatMap, List.mem_singleton] at hx
      rcases hx with rfl | ⟨r, hr, hxr⟩ | rfl
      · exact hself hd
      · exact hchild r hr x (List.mem_cons_of_mem _ hxr) hd
      · exact hself hd

variable {roots : List C}

/-- A write leaves its root closed: what it did not add was already in store. -/
theorem closed_collect (hskip : ∀ c, skip c = true → c ∈ known) (hb : N.Backed stored known) :
    N.Closed (stored ++ N.collectAll skip roots) roots := by
  intro r hr d hd
  rcases collectIn_reaches (N.depth r + 1) r (Nat.lt_succ_self _) r List.mem_cons_self d hd with
    h | ⟨s, hs, hsd⟩
  · exact List.mem_append_right _ (List.mem_flatMap.2 ⟨r, hr, h⟩)
  · exact List.mem_append_left _ (hb s (hskip s hs) d hsd)

/-- The nodes a write adds may count as known once they are in store. -/
theorem backed_collect (hskip : ∀ c, skip c = true → c ∈ known) (hb : N.Backed stored known) :
    N.Closed (stored ++ N.collectAll skip roots) (N.collectAll skip roots) := by
  intro x hx d hd
  obtain ⟨r, hr, hxr⟩ := List.mem_flatMap.1 hx
  rcases collectIn_reaches (N.depth r + 1) r (Nat.lt_succ_self _) x
    (List.mem_cons_of_mem _ hxr) d hd with h | ⟨s, hs, hsd⟩
  · exact List.mem_append_right _ (List.mem_flatMap.2 ⟨r, hr, h⟩)
  · exact List.mem_append_left _ (hb s (hskip s hs) d hsd)

/-- Nodes that refer only to one another and to known nodes are closed once they
are in store. -/
theorem closed_of_covered {more : List C} (hb : N.Backed stored known)
    (hcov : ∀ x ∈ more, ∀ d ∈ N.refs x, d ∈ more ∨ d ∈ known) : N.Closed (stored ++ more) more := by
  intro x hx d hd
  induction hd using Relation.ReflTransGen.head_induction_on with
  | refl => exact List.mem_append_right _ hx
  | head hxy hyd ih =>
    rename_i x y
    rcases hcov x hx y hxy with hy | hy
    · exact ih hy
    · exact List.mem_append_left _ (hb y hy d hyd)

theorem backed_append {more : List C} (h : N.Backed stored known) (h' : N.Closed stored more) :
    N.Backed stored (known ++ more) := by
  intro c hc
  rcases List.mem_append.1 hc with hc | hc
  · exact h c hc
  · exact h' c hc

/-- What a closed key reaches is closed. -/
theorem Closed.of_reaches (h : N.Closed stored roots) {r : C} (hr : r ∈ roots) {d : C}
    (hd : N.Reaches r d) : N.Closed stored [d] := by
  intro x hx e he
  obtain rfl := List.mem_singleton.1 hx
  exact h r hr e (hd.trans he)

/-! ## Marking what is reachable -/

section Mark

variable (N) [DecidableEq C]

/-- The references a marking walk follows: those of a stored node, the last on
top. -/
def expand (stored : List C) (c : C) : List C := if c ∈ stored then (N.refs c).reverse else []

/-- The walk from a stack of keys, each followed once. -/
def markIn (stored : List C) : Nat → List C → List C → List C
  | 0, _, marked => marked
  | _ + 1, [], marked => marked
  | fuel + 1, c :: stack, marked =>
      if c ∈ marked then markIn stored fuel stack marked
      else markIn stored fuel (N.expand stored c ++ stack) (c :: marked)

/-- The steps a walk has left: what is on its stack, and what the nodes not yet
marked will put there. -/
def work (stored stack marked : List C) : Nat :=
  stack.length + ((stored.filter (· ∉ marked)).map fun c => (N.refs c).length).sum

/-- Every key reachable from the roots through stored nodes. -/
def mark (stored roots : List C) : List C :=
  N.markIn stored (N.work stored roots [] + 1) roots.reverse []

variable {N} {stack marked : List C}

theorem mem_expand {c d : C} : d ∈ N.expand stored c ↔ c ∈ stored ∧ d ∈ N.refs c := by
  unfold expand
  split <;> simp_all

/-- Dropping one key's copies from a list takes its weight off the sum. -/
theorem sum_filter_add_le (stored : List C) {c : C} (hc : c ∉ marked) (f : C → Nat) :
    ((stored.filter (· ∉ c :: marked)).map f).sum + (if c ∈ stored then f c else 0)
      ≤ ((stored.filter (· ∉ marked)).map f).sum := by
  induction stored with
  | nil => simp
  | cons x stored ih =>
    by_cases hxc : x = c
    · subst hxc
      have hdrop : (x :: stored).filter (· ∉ x :: marked) = stored.filter (· ∉ x :: marked) := by
        simp
      have hkeep : (x :: stored).filter (· ∉ marked) = x :: stored.filter (· ∉ marked) := by
        simp [hc]
      rw [hdrop, hkeep, if_pos List.mem_cons_self, List.map_cons, List.sum_cons]
      omega
    · by_cases hxm : x ∈ marked
      · simpa [List.filter_cons, hxc, hxm, Ne.symm hxc] using ih
      · simpa [List.filter_cons, hxc, hxm, Ne.symm hxc, Nat.add_assoc] using ih

/-- Marking a key is one step of the walk's work. -/
theorem work_mark {c : C} (hc : c ∉ marked) :
    N.work stored (N.expand stored c ++ stack) (c :: marked) < N.work stored (c :: stack) marked := by
  have hsum := sum_filter_add_le stored hc fun c => (N.refs c).length
  unfold work expand
  split at hsum
  · rename_i hmem
    simp only [hmem, if_true, List.length_append, List.length_reverse, List.length_cons]
    omega
  · rename_i hmem
    simp only [hmem, if_false, List.nil_append, List.length_cons]
    omega

/-- What a walk has marked, or has on its stack, is marked in the end. -/
theorem subset_markIn : ∀ (fuel : Nat) (stack marked : List C), N.work stored stack marked < fuel →
    (∀ x ∈ marked, x ∈ N.markIn stored fuel stack marked) ∧
      ∀ x ∈ stack, x ∈ N.markIn stored fuel stack marked := by
  intro fuel
  induction fuel with
  | zero => intro stack marked h; omega
  | succ fuel ih =>
    intro stack marked hwork
    cases stack with
    | nil => simp [markIn]
    | cons c stack =>
      by_cases hc : c ∈ marked
      · have hlt : N.work stored stack marked < fuel := by
          simp only [work, List.length_cons] at hwork ⊢
          omega
        obtain ⟨hm, hs⟩ := ih stack marked hlt
        simp only [markIn, hc, if_true]
        exact ⟨hm, List.forall_mem_cons.2 ⟨hm c hc, hs⟩⟩
      · obtain ⟨hm, hs⟩ := ih _ _ (Nat.lt_of_lt_of_le (work_mark hc) (Nat.le_of_lt_succ hwork))
        simp only [markIn, hc, if_false]
        exact ⟨fun x hx => hm x (List.mem_cons_of_mem _ hx), List.forall_mem_cons.2
          ⟨hm c List.mem_cons_self, fun x hx => hs x (List.mem_append_right _ hx)⟩⟩

/-- In the end the stored nodes marked refer to marked nodes. -/
theorem markIn_refs : ∀ (fuel : Nat) (stack marked : List C), N.work stored stack marked < fuel →
    (∀ x ∈ marked, x ∈ stored → ∀ d ∈ N.refs x, d ∈ marked ∨ d ∈ stack) →
    ∀ x ∈ N.markIn stored fuel stack marked, x ∈ stored → ∀ d ∈ N.refs x,
      d ∈ N.markIn stored fuel stack marked := by
  intro fuel
  induction fuel with
  | zero => intro stack marked h; omega
  | succ fuel ih =>
    intro stack marked hwork hdone
    cases stack with
    | nil => simpa [markIn] using hdone
    | cons c stack =>
      by_cases hc : c ∈ marked
      · simp only [markIn, hc, if_true]
        refine ih stack marked ?_ fun x hx hxs d hd => ?_
        · simp only [work, List.length_cons] at hwork ⊢
          omega
        · rcases hdone x hx hxs d hd with h | h
          · exact .inl h
          · rcases List.mem_cons.1 h with rfl | h
            · exact .inl hc
            · exact .inr h
      · simp only [markIn, hc, if_false]
        refine ih _ _ (Nat.lt_of_lt_of_le (work_mark hc) (Nat.le_of_lt_succ hwork)) ?_
        intro x hx hxs d hd
        rcases List.mem_cons.1 hx with rfl | hx
        · exact .inr (List.mem_append_left _ (mem_expand.2 ⟨hxs, hd⟩))
        · rcases hdone x hx hxs d hd with h | h
          · exact .inl (List.mem_cons_of_mem _ h)
          · rcases List.mem_cons.1 h with rfl | h
            · exact .inl List.mem_cons_self
            · exact .inr (List.mem_append_right _ h)

/-- A walk marks nothing its stack does not reach. -/
theorem markIn_reaches : ∀ (fuel : Nat) (stack marked : List C),
    ∀ x ∈ N.markIn stored fuel stack marked, x ∈ marked ∨ ∃ r ∈ stack, N.Reaches r x := by
  intro fuel
  induction fuel with
  | zero => intro stack marked x hx; exact .inl hx
  | succ fuel ih =>
    intro stack marked x hx
    cases stack with
    | nil => exact .inl hx
    | cons c stack =>
      by_cases hc : c ∈ marked
      · simp only [markIn, hc, if_true] at hx
        rcases ih _ _ x hx with h | ⟨r, hr, hrx⟩
        · exact .inl h
        · exact .inr ⟨r, List.mem_cons_of_mem _ hr, hrx⟩
      · simp only [markIn, hc, if_false] at hx
        rcases ih _ _ x hx with h | ⟨r, hr, hrx⟩
        · rcases List.mem_cons.1 h with rfl | h
          · exact .inr ⟨x, List.mem_cons_self, .refl⟩
          · exact .inl h
        · rcases List.mem_append.1 hr with hr | hr
          · exact .inr ⟨c, List.mem_cons_self, .head (mem_expand.1 hr).2 hrx⟩
          · exact .inr ⟨r, List.mem_cons_of_mem _ hr, hrx⟩

/-- Marking from closed roots marks exactly what they reach. -/
theorem mem_mark (h : N.Closed stored roots) {x : C} :
    x ∈ N.mark stored roots ↔ ∃ r ∈ roots, N.Reaches r x := by
  have hwork : N.work stored roots.reverse [] < N.work stored roots [] + 1 := by
    simp [work]
  constructor
  · intro hx
    rcases markIn_reaches _ _ _ x hx with hx | ⟨r, hr, hrx⟩
    · cases hx
    · exact ⟨r, List.mem_reverse.1 hr, hrx⟩
  · rintro ⟨r, hr, hrx⟩
    have hroot := (subset_markIn _ _ _ hwork).2 r (List.mem_reverse.2 hr)
    -- along the path every node is stored, so its references are followed
    induction hrx with
    | refl => exact hroot
    | tail hry hyz ih =>
      exact markIn_refs _ _ _ hwork (fun x hx => by cases hx) _ ih (h r hr _ hry) _ hyz

/-- Keeping what is marked keeps the roots closed. -/
theorem closed_sweep (h : N.Closed stored roots) :
    N.Closed (stored.filter (· ∈ N.mark stored roots)) roots := by
  intro r hr d hd
  exact List.mem_filter.2 ⟨h r hr d hd, decide_eq_true ((mem_mark h).2 ⟨r, hr, hd⟩)⟩

end Mark

end Nodes

import Grmpl.Ent.CanopyRoutes
import Mathlib.Data.List.Flatten

/-!
# The canopy against a linear scan

Interests come and go, and the canopy's tree is only ever a faster way to filter the list of
those that are live. Each of them keeps its id, and ids are given out in order, so the list is
in the order the canopy answers in.

* `Canopy.unregister`: an interest dropped.
* `Interest`, `Churn`, `live`: the list of live interests, kept beside the canopy.
* `Canopy.Mirrors`: the canopy's rows are that list.
* `interest_routing`: what is routed is what a filter of the list finds.
-/

open OrdMap

namespace Grmpl

/-! ## Removals move nothing -/

namespace Tree

variable {K V M : Type} [Displace K] [Measure K V M] [RunValue V]

omit [Displace K] [Measure K V M] [RunValue V] in
theorem Still.relocate_zero {t : Tree K V M} (ht : Still t) : Still (t.relocate 0) := by
  rw [Tree.relocate_zero]
  exact ht

theorem still_rem (key : K) : ∀ (fuel : Nat) (t : Tree K V M) (off : Dsp), Still t →
    ∀ r ∈ rem key fuel t off, Ins.AllStill r := by
  intro fuel
  induction fuel with
  | zero => intro t off ht r hr; cases hr
  | succ fuel ih =>
    intro t off ht r hr
    cases ht with
    | nil => cases hr
    | leaf s items =>
      rw [rem] at hr
      split at hr
      · rw [← Option.some.inj hr]
        exact still_finishLeaf _ _
      · cases hr
    | internal s keys children h =>
      have hall : Still (nodeInternal 0 s keys children) := .internal s keys children h
      rw [rem] at hr
      dsimp only at hr
      split at hr
      · rename_i c ks ch hc ho
        have hch := (hall.opened_internal ho).2
        have hrec := ih c (off + 0) (h c (List.mem_of_getElem? hc))
        split at hr
        · cases hr
        · rename_i c' hres
          have hc' : Still c' := hrec _ hres
          rw [← Option.some.inj hr]
          refine still_internal _ (still_fix _ fun x hx => ?_)
          rcases List.mem_or_eq_of_mem_set hx with hx | rfl
          · exact hch x hx
          · exact hc'.relocate_zero
        · rename_i l sep r' hres
          have hsplit : Still l ∧ Still r' := hrec _ hres
          rw [← Option.some.inj hr]
          refine still_finish _ fun x hx => ?_
          simp only [List.mem_append, List.mem_cons] at hx
          rcases hx with hx | rfl | rfl | hx
          · exact hch x (List.mem_of_mem_take hx)
          · exact hsplit.1.relocate_zero
          · exact hsplit.2.relocate_zero
          · exact hch x (List.mem_of_mem_drop hx)
      · cases hr

omit [Displace K] [Measure K V M] [RunValue V] in
theorem Still.shrinkRoot {t : Tree K V M} (ht : Still t) : Still t.shrinkRoot := by
  unfold Tree.shrinkRoot
  split
  · cases ht with
    | internal s keys children h => exact (h _ (by simp)).relocate_zero
  · exact .nil
  · exact ht

/-- A removal displaces nothing. -/
theorem Still.remove {t : Tree K V M} (ht : Still t) (key : K) : Still (t.remove key) := by
  have hrem := still_rem key t.depth t 0 ht
  unfold Tree.remove
  split
  · exact ht
  · rename_i t' hres
    have ht' : Still t' := hrem _ hres
    exact ht'.shrinkRoot
  · rename_i l sep r hres
    have hsplit : Still l ∧ Still r := hrem _ hres
    refine still_internal _ fun c hc => ?_
    rcases List.mem_cons.1 hc with rfl | hc
    · exact hsplit.1
    · rw [List.mem_singleton.1 hc]
      exact hsplit.2

end Tree

namespace Canopy

open Tree

/-- An interest dropped: the first row that carries its id. -/
def unregister (c : Canopy) (id : Nat) : Canopy :=
  match c.enf.iter.find? fun e => e.1.id = id with
  | some e => { c with enf := c.enf.remove e.1 }
  | none => c

end Canopy

/-! ## The list of live interests -/

/-- A standing interest. -/
structure Interest where
  id : Nat
  rel : Nat
  lo : Tuple
  hi : Tuple
  endorse : Endorsement
  deriving DecidableEq

namespace Interest

/-- The row a canopy keeps of it. -/
def row (i : Interest) : InterestKey × (Tuple × Endorsement) := (⟨i.rel, i.lo, i.id⟩, (i.hi, i.endorse))

/-- An updated tuple falls in it. -/
def contains (i : Interest) (u : Nat × Tuple × Int) : Bool := i.rel = u.1 && i.lo ≤ u.2.1 && u.2.1 < i.hi

/-- It and a span each start before the other ends. -/
def overlaps (i : Interest) (rel : Nat) (lo hi : Tuple) : Bool :=
  i.rel = rel && lo < hi && i.lo < hi && lo < i.hi

end Interest

/-- A registration or a removal. -/
inductive Churn
  | register (rel : Nat) (lo hi : Tuple) (endorse : Endorsement)
  | unregister (id : Nat)

/-- The live interests as a list, and the next id. -/
structure Standing where
  next : Nat
  interests : List Interest

namespace Churn

def canopy (c : Canopy) : Churn → Canopy
  | register rel lo hi endorse => (c.registerEndorsed rel lo hi endorse).1
  | unregister id => c.unregister id

def live (l : Standing) : Churn → Standing
  | register rel lo hi endorse => ⟨l.next + 1, l.interests ++ [⟨l.next, rel, lo, hi, endorse⟩]⟩
  | unregister id => ⟨l.next, l.interests.filter fun i => i.id ≠ id⟩

end Churn

namespace Canopy

open Tree

/-- A canopy holds exactly these interests, and gives out the same next id. -/
structure Mirrors (c : Canopy) (l : Standing) : Prop where
  wellformed : c.Wellformed
  next : c.next = l.next
  rows : c.interests.Perm (l.interests.map Interest.row)
  ascending : l.interests.Pairwise fun i j => i.id < j.id
  given : ∀ i ∈ l.interests, i.id < l.next

variable {c : Canopy} {l : Standing}

theorem mirrors_new : Mirrors new ⟨0, []⟩ := ⟨wellformed_new, rfl, .nil, .nil, nofun⟩

/-- No two rows carry one id. -/
theorem Mirrors.nodup (h : Mirrors c l) : (c.interests.map fun e => e.1.id).Nodup := by
  have hids : (c.interests.map fun e => e.1.id).Perm (l.interests.map Interest.id) := by
    have := h.rows.map fun e => e.1.id
    rwa [List.map_map] at this
  exact hids.nodup_iff.2 (List.pairwise_map.2 (h.ascending.imp fun hlt => hlt.ne))

theorem Mirrors.register (h : Mirrors c l) (rel : Nat) (lo hi : Tuple) (endorse : Endorsement) :
    Mirrors (c.registerEndorsed rel lo hi endorse).1 ((Churn.register rel lo hi endorse).live l) where
  wellformed := h.wellformed.register rel lo hi endorse
  next := congrArg (· + 1) h.next
  rows := by
    have habsent : ∀ e ∈ c.interests, e.1 ≠ ⟨rel, lo, c.next⟩ := by
      rintro e he heq
      have hlt := h.wellformed.given e he
      rw [heq] at hlt
      exact Nat.lt_irrefl _ hlt
    rw [rows_registerEndorsed h.wellformed]
    refine (perm_put habsent).trans ?_
    rw [Churn.live, List.map_append, h.next]
    exact (h.rows.cons _).trans (List.perm_append_singleton _ _).symm
  ascending := by
    refine List.pairwise_append.2 ⟨h.ascending, List.pairwise_singleton _ _, fun i hi j hj => ?_⟩
    rw [List.mem_singleton.1 hj]
    exact h.given i hi
  given := by
    intro i hi
    rcases List.mem_append.1 hi with hi | hi
    · exact (h.given i hi).trans (Nat.lt_succ_self _)
    · rw [List.mem_singleton.1 hi]
      exact Nat.lt_succ_self _

theorem rows_remove (hc : c.Wellformed) (key : InterestKey) :
    Tree.rows (c.enf.remove key) = drop key c.interests := by
  rw [Tree.rows, (remove_spec hc.sound key).2]
  exact rowsOf_dropRow _ _

/-- A removal keeps the canopy well formed, and drops the rows that carry the id. -/
theorem Mirrors.unregister_rows (h : Mirrors c l) (id : Nat) : (c.unregister id).Wellformed ∧
    (c.unregister id).next = c.next ∧ (c.unregister id).interests = c.interests.filter fun e => e.1.id ≠ id := by
  have hiter : c.enf.iter = c.interests := iter_spec h.wellformed.sound
  unfold unregister
  rw [hiter]
  split
  · rename_i e hfind
    obtain rfl : e.1.id = id := by simpa using List.find?_some hfind
    have he := List.mem_of_find?_eq_some hfind
    have hrows := rows_remove h.wellformed e.1
    refine ⟨⟨(remove_spec h.wellformed.sound e.1).1, h.wellformed.still.remove e.1, fun x hx => ?_⟩, rfl, ?_⟩
    · rw [hrows] at hx
      exact h.wellformed.given x (mem_drop.1 hx).1
    · -- the only row that carries the id is the one found
      refine hrows.trans (List.filter_congr fun x hx => decide_eq_decide.2 (not_congr ⟨congrArg _, fun hid => ?_⟩))
      exact congrArg Prod.fst (List.inj_on_of_nodup_map h.nodup hx he hid)
  · rename_i hnone
    refine ⟨h.wellformed, rfl, (filter_eq_self_of fun x hx => ?_).symm⟩
    simpa using List.find?_eq_none.1 hnone x hx

theorem Mirrors.unregister (h : Mirrors c l) (id : Nat) :
    Mirrors (c.unregister id) ((Churn.unregister id).live l) := by
  obtain ⟨hwell, hnext, hrows⟩ := h.unregister_rows id
  refine ⟨hwell, hnext.trans h.next, ?_, h.ascending.filter _, fun i hi => h.given i (List.mem_of_mem_filter hi)⟩
  rw [hrows]
  have hfilter := h.rows.filter fun e => e.1.id ≠ id
  rwa [List.filter_map] at hfilter

theorem Mirrors.step (h : Mirrors c l) (op : Churn) : Mirrors (op.canopy c) (op.live l) := by
  cases op with
  | register rel lo hi endorse => exact h.register rel lo hi endorse
  | unregister id => exact h.unregister id

/-- Any churn keeps the canopy and the list together. -/
theorem Mirrors.run (h : Mirrors c l) (ops : List Churn) :
    Mirrors (ops.foldl Churn.canopy c) (ops.foldl Churn.live l) := by
  induction ops generalizing c l with
  | nil => exact h
  | cons op ops ih => exact ih (h.step op)

/-! ## Answers -/

theorem childrenFor_sublist (rel : Nat) (past : Tuple → Bool) (ks : List InterestKey) (ch : List CanopyEnf) :
    (childrenFor rel past ks ch).Sublist ch := by
  have hall : (List.range ch.length).filterMap (ch[·]?) = ch := by
    rw [List.filterMap_congr (g := fun i => some (ch.getD i .nil))]
    · refine List.ext_getElem (by simp) fun i hi hi' => ?_
      simp [List.getElem?_eq_getElem hi']
    · intro i hi
      have hlt := List.mem_range.1 hi
      simp [List.getD, List.getElem?_eq_getElem hlt]
  nth_rewrite 2 [← hall]
  exact (List.filter_sublist.trans (List.takeWhile_sublist _)).filterMap _

theorem filterMap_ite_sublist {α β : Type} (p : α → Bool) (f : α → β) (xs : List α) :
    (xs.filterMap fun x => if p x then some (f x) else none).Sublist (xs.map f) := by
  induction xs with
  | nil => exact .slnil
  | cons x xs ih =>
    rw [List.filterMap_cons, List.map_cons]
    split
    · exact ih.cons _
    · rename_i y hy
      obtain ⟨-, hy⟩ := Option.ite_none_right_eq_some.1 hy
      rw [← Option.some.inj hy]
      exact ih.cons_cons _

/-- A walk meets each row at most once. -/
theorem walk_sublist (rel : Nat) (start : Tuple) (past : Tuple → Bool) (required : Endorsement)
    (keep : InterestKey → Tuple → Bool) : ∀ (fuel h : Nat) (U : InterestKey → Prop) (t : CanopyEnf), h ≤ fuel →
      Node true h U t → Still t →
      (walk rel start past required keep fuel t).Sublist ((Tree.rows t).map fun e => e.1.id) := by
  intro fuel
  induction fuel with
  | zero => exact fun h U t _ _ _ => List.nil_sublist _
  | succ fuel ih =>
    intro h U t hh ht hstill
    rw [walk]
    split_ifs
    · exact List.nil_sublist _
    · exact List.nil_sublist _
    · exact List.nil_sublist _
    · cases ht.shape with
      | @leaf _ items ho hok hslots _ _ =>
        rw [hstill.opened_leaf ho]
        have hrows : Tree.rows t = items.filterMap Item.asOne := by
          rw [Tree.rows, hslots]
          exact rowsOf_plain (hok.plain rfl).1
        rw [hrows]
        exact filterMap_ite_sublist _ _ _
      | @internal _ h' ks ch ho _ _ _ hch hslots _ =>
        obtain ⟨hview, hbelow⟩ := hstill.opened_internal ho
        rw [hview]
        have hrows : Tree.rows t = ch.flatMap Tree.rows := by
          rw [Tree.rows, hslots, rowsOf_flatMap]
          rfl
        rw [hrows, List.map_flatMap]
        refine ((childrenFor_sublist rel past ks ch).flatMap _).trans (List.Sublist.flatMap_right ch fun c hc => ?_)
        obtain ⟨_, _, ⟨hcN, -⟩, -⟩ := hch.of_mem c hc
        exact ih h' U c (by omega) hcN (hbelow c hc)

/-- An overlap names no interest twice. -/
theorem Mirrors.nodup_overlap (h : Mirrors c l) (rel : Nat) (lo hi : Tuple) : (c.overlap rel lo hi).Nodup := by
  refine List.Nodup.sublist ?_ h.nodup
  rcases h.wellformed.sound with hnil | ⟨n, ht⟩
  · rw [overlap, hnil]
    exact List.nil_sublist _
  · exact walk_sublist _ _ _ _ _ _ n anyKey _ ht.depth_eq.1.ge ht h.wellformed.still

theorem eq_of_ascending {a b : List Nat} (ha : a.Pairwise (· < ·)) (hb : b.Pairwise (· < ·))
    (h : ∀ x, x ∈ a ↔ x ∈ b) : a = b := by
  have hperm := (List.perm_ext_iff_of_nodup (ha.imp fun hlt => hlt.ne) (hb.imp fun hlt => hlt.ne)).2 h
  exact hperm.eq_of_pairwise (fun x y _ _ hxy hyx => absurd (hxy.trans hyx) (lt_irrefl _)) ha hb

theorem ascending_mergeSort {a : List Nat} (h : a.Nodup) : (a.mergeSort (· ≤ ·)).Pairwise (· < ·) := by
  have hsorted : (a.mergeSort (· ≤ ·)).Pairwise (· ≤ ·) := List.pairwise_mergeSort' (· ≤ ·) a
  have hnodup : (a.mergeSort (· ≤ ·)).Nodup := (List.mergeSort_perm a _).nodup_iff.2 h
  exact (hsorted.and hnodup).imp fun ⟨hle, hne⟩ => lt_of_le_of_ne hle hne

/-- A filter of the list names its interests in the order of their ids. -/
theorem Mirrors.ascending_filter (h : Mirrors c l) (p : Interest → Bool) :
    ((l.interests.filter p).map Interest.id).Pairwise (· < ·) :=
  List.pairwise_map.2 (h.ascending.filter p)

/-- What the canopy's rows are tested for, the list's interests are. -/
theorem Mirrors.exists_row (h : Mirrors c l) {q : InterestKey × (Tuple × Endorsement) → Prop} :
    (∃ e ∈ c.interests, q e) ↔ ∃ i ∈ l.interests, q i.row := by
  simp only [h.rows.mem_iff, List.mem_map, exists_exists_and_eq_and]

theorem Mirrors.routeEndorsed (h : Mirrors c l) (updates : List (Nat × Tuple × Int)) (required : Endorsement) :
    c.routeEndorsed updates required =
      (l.interests.filter fun i => updates.any i.contains && i.endorse.dominates required).map Interest.id := by
  refine eq_of_ascending ?_ (h.ascending_filter _) fun id => ?_
  · have hsorted := (List.pairwise_mergeSort' (· ≤ ·)
      (updates.flatMap fun u => c.stab u.1 u.2.1 required)).sublist (List.dedup_sublist _)
    exact (hsorted.and (List.nodup_dedup _)).imp fun ⟨hle, hne⟩ => lt_of_le_of_ne hle hne
  · rw [Canopy.routeEndorsed, List.mem_dedup, List.mem_mergeSort, List.mem_flatMap]
    simp only [mem_stab h.wellformed, h.exists_row, List.mem_map, List.mem_filter, Bool.and_eq_true, List.any_eq_true,
      Interest.contains, Interest.row, decide_eq_true_eq]
    constructor
    · rintro ⟨u, hu, i, hi, hrel, ⟨hlo, hhi⟩, hdom, hid⟩
      exact ⟨i, ⟨hi, ⟨u, hu, ⟨hrel, hlo⟩, hhi⟩, hdom⟩, hid⟩
    · rintro ⟨i, ⟨hi, ⟨u, hu, ⟨hrel, hlo⟩, hhi⟩, hdom⟩, hid⟩
      exact ⟨u, hu, i, hi, hrel, ⟨hlo, hhi⟩, hdom, hid⟩

theorem Mirrors.routeSpan (h : Mirrors c l) (rel : Nat) (lo hi : Tuple) :
    c.routeSpan rel lo hi = (l.interests.filter (·.overlaps rel lo hi)).map Interest.id := by
  refine eq_of_ascending ?_ (h.ascending_filter _) fun id => ?_
  · rw [Canopy.routeSpan]
    refine ascending_mergeSort ?_
    split_ifs
    · exact h.nodup_overlap rel lo hi
    · exact .nil
  · rw [mem_routeSpan h.wellformed]
    simp only [h.exists_row, List.mem_map, List.mem_filter, Interest.overlaps, Interest.row, Bool.and_eq_true,
      decide_eq_true_eq]
    constructor
    · rintro ⟨hspan, i, hi, hrel, ⟨hlo, hhi⟩, hid⟩
      exact ⟨i, ⟨hi, ⟨⟨hrel, hspan⟩, hlo⟩, hhi⟩, hid⟩
    · rintro ⟨i, ⟨hi, ⟨⟨hrel, hspan⟩, hlo⟩, hhi⟩, hid⟩
      exact ⟨hspan, i, hi, hrel, ⟨hlo, hhi⟩, hid⟩

end Canopy

/-- **Routing is a linear scan.** After any registrations and removals, a batch of updates is
routed to the live interests that one of its tuples falls in and that carry every required
flag, and a span to those of its relation that overlap it: as a filter of the list of live
interests finds them, each id once. -/
theorem interest_routing (ops : List Churn) :
    let c := ops.foldl Churn.canopy Canopy.new
    let l := ops.foldl Churn.live ⟨0, []⟩
    (∀ updates required, c.routeEndorsed updates required =
      (l.interests.filter fun i => updates.any i.contains && i.endorse.dominates required).map Interest.id) ∧
    (∀ rel lo hi, c.routeSpan rel lo hi = (l.interests.filter (·.overlaps rel lo hi)).map Interest.id) ∧
    (∀ rel lo hi endorse, (c.registerEndorsed rel lo hi endorse).2 = l.next) ∧
    (l.interests.map Interest.id).Nodup := by
  intro c l
  have h : Canopy.Mirrors c l := Canopy.mirrors_new.run ops
  refine ⟨h.routeEndorsed, h.routeSpan, fun _ _ _ _ => h.next, ?_⟩
  exact List.pairwise_map.2 (h.ascending.imp fun hlt => hlt.ne)

end Grmpl

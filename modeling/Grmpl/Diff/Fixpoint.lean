import Grmpl.Diff.Rising
import Grmpl.Lib.Rounds

/-!
# The fixpoint of an iteration

An iteration goes round from the rows of its start until a round changes nothing. It comes
to the least set that a round leaves as it is where a round answers more, given more, where
the step takes none of the start's rows away, and where some finite set is closed under the
rounds; of these the code checks only that nothing is aggregated.

* `Comes`: an evaluation with rounds enough.
* `Recursion`, `Recursion.Round`: an iteration over a store, and one round of it.
* `Recursion.EndsLeast`: it ends at the least fixpoint.
* `iterate_least`: when it does.
-/

open Rounds

namespace Grmpl

/-- With rounds enough, an evaluation comes to an answer. -/
def Comes (run : Nat → Except Fault Multiset) (m : Multiset) : Prop :=
  ∃ rounds, ∀ fuel, rounds ≤ fuel → run fuel = .ok m

theorem Comes.unique {run : Nat → Except Fault Multiset} {m m' : Multiset} (h : Comes run m)
    (h' : Comes run m') : m = m' := by
  obtain ⟨a, ha⟩ := h
  obtain ⟨b, hb⟩ := h'
  exact Except.ok.inj ((ha _ (le_max_left a b)).symm.trans (hb _ (le_max_right a b)))

/-! ## More rounds than enough -/

theorem roundsFrom_mono {step step' : Multiset → Except Fault Multiset} {initVal : Multiset}
    (hstep : ∀ r m, step r = .ok m → step' r = .ok m) : ∀ {n n' : Nat} {r out : Multiset}, n ≤ n' →
      roundsFrom step initVal n r = .ok out → roundsFrom step' initVal n' r = .ok out := by
  intro n
  induction n with
  | zero => exact fun _ h => nomatch h
  | succ n ih =>
    intro n' r out hle h
    obtain ⟨n', rfl⟩ := Nat.exists_eq_add_of_le' (Nat.lt_of_lt_of_le n.succ_pos hle)
    obtain ⟨stepped, hs, h⟩ := bind_ok h
    rw [roundsFrom, hstep r stepped hs]
    dsimp only at h
    show (if _ then _ else _) = _
    split_ifs at h ⊢
    · exact h
    · exact ih (Nat.le_of_succ_le_succ hle) h

theorem bind_ok_of {α β : Type} {x x' : Except Fault α} {f f' : α → Except Fault β} {b : β}
    (hx : ∀ a, x = .ok a → x' = .ok a) (hf : ∀ a, f a = .ok b → f' a = .ok b) (h : x >>= f = .ok b) :
    x' >>= f' = .ok b := by
  obtain ⟨a, ha, h⟩ := bind_ok h
  rw [hx a ha]
  exact hf a h

/-- A plan that has come to an answer comes to it with more rounds. -/
theorem answer_mono {reader : EditionReader} {fuel fuel' : Nat} (hle : fuel ≤ fuel') :
    ∀ {q : Query} {recur : Option Multiset} {m : Multiset},
      answerOf fuel reader recur q = .ok m → answerOf fuel' reader recur q = .ok m := by
  intro q
  induction q with
  | rel _ | rangeRel _ _ _ | rangeRelOn _ _ _ _ | recur => exact id
  | map input f ih | filter input pred ih | project input cols ih | negate input ih | distinct input ih
  | reduce input key agg ih | inherit input col key ctx ih =>
    exact bind_ok_of (fun a => ih) fun _ => id
  | join l r lk rk ihl ihr | union l r ihl ihr =>
    exact bind_ok_of (fun a => ihl) fun _ => bind_ok_of (fun b => ihr) fun _ => id
  | iterate init step ihi ihs =>
    intro recur m h
    simp only [answerOf] at h ⊢
    split_ifs at h ⊢
    exact bind_ok_of (fun a => ihi) (fun a => roundsFrom_mono (fun r m => ihs) hle) h
  | materialized plan into pre cursorRel key reduce ih =>
    intro recur m h
    cases recur with
    | some s =>
      have h' : answerOf fuel reader (some s) plan = .ok m := h
      exact ih h'
    | none =>
      refine bind_ok_of (fun _ => id) (fun stored h => ?_) h
      cases stored with
      | none =>
        have h' : answerOf fuel reader none plan = .ok m := h
        exact ih h'
      | some rows => exact h
  | shared arc inner ih => exact ih

theorem comes_of_ok {reader : EditionReader} {fuel : Nat} {q : Query} {recur : Option Multiset} {m : Multiset}
    (h : answerOf fuel reader recur q = .ok m) : Comes (fun fuel => answerOf fuel reader recur q) m :=
  ⟨fuel, fun _ hle => answer_mono hle h⟩

/-! ## Sets of rows -/

/-- Every row weighs one. -/
def IsSet (m : Multiset) : Prop := ∀ e ∈ m.rows, e.2 = 1

theorem isSet_positive (m : Multiset) : IsSet m.positive := fun _ he => (ZSet.mem_positive.1 he).1

namespace IsSet

variable {m m' : Multiset}

theorem clean (h : IsSet m) : m.Clean := fun e he => by
  rw [h e he]
  decide

theorem weight (h : IsSet m) (k : Tuple) : m.weight k = 0 ∨ m.weight k = 1 := by
  by_cases hk : m.weight k = 0
  · exact .inl hk
  · exact .inr (h _ (ZSet.mem_of_weight hk))

theorem nonneg (h : IsSet m) : 0 ≤ m.den := fun k => by
  rw [ZSet.den_apply]
  rcases h.weight k with hk | hk <;> simp [hk]

theorem eq_of_le (h : IsSet m) (h' : IsSet m') (hle : m ≤ m') (hge : m' ≤ m) : m = m' :=
  ZSet.eq_of_le_of_le h.clean h'.clean hle hge

/-- Below a collection are finitely many sets. -/
theorem finite_below (c : Multiset) : {m : Multiset | IsSet m ∧ m ≤ c}.Finite := by
  refine Set.Finite.of_finite_image (f := fun m : Multiset => m.den.support) ?_ ?_
  · refine (c.den.support.powerset.finite_toSet).subset ?_
    rintro _ ⟨m, ⟨hset, hle⟩, rfl⟩
    refine Finset.mem_coe.2 (Finset.mem_powerset.2 fun k hk => ?_)
    rw [Finsupp.mem_support_iff, ZSet.den_apply] at hk ⊢
    have hone := (hset.weight k).resolve_left hk
    have hck := ZSet.le_iff.1 hle k
    omega
  · rintro m ⟨hset, -⟩ m' ⟨hset', -⟩ heq
    refine ZSet.ext_of_den hset.clean hset'.clean ?_
    ext k
    have hk : m.den k ≠ 0 ↔ m'.den k ≠ 0 := by
      rw [← Finsupp.mem_support_iff, ← Finsupp.mem_support_iff]
      exact Finset.ext_iff.1 heq k
    rw [ZSet.den_apply, ZSet.den_apply] at hk ⊢
    rcases hset.weight k with h | h <;> rcases hset'.weight k with h' | h' <;> simp_all

end IsSet

/-! ## Rounds -/

/-- An iteration over an edition of a store. -/
structure Recursion where
  init : Query
  step : Query
  store : DynTraceStore
  at' : Nat

namespace Recursion

variable (R : Recursion)

/-- The rows it starts from. -/
def Starts (i : Multiset) : Prop := Comes (fun fuel => evalSnapshot fuel R.init R.store R.at') i

/-- What the step makes of a set. -/
def Steps (s m : Multiset) : Prop := Comes (fun fuel => evalWithRecur fuel R.step R.store R.at' s) m

/-- One round: the distinct rows of the start and of the step. -/
def Round (s s' : Multiset) : Prop := ∃ i m, R.Starts i ∧ R.Steps s m ∧ (i.merge m).positive = s'

/-- The loop ends, at the least set that a round leaves as it is, each row at weight one. -/
def EndsLeast : Prop :=
  ∃ r, Comes (fun fuel => evalSnapshot fuel (.iterate R.init R.step) R.store R.at') r ∧
    R.Round r r ∧ IsSet r ∧ ∀ s, R.Round s s → r ≤ s

/-- Evaluation accepts the plan: nothing is aggregated, and the start and, from rows of a
shape, the step come to rows of the shape. -/
structure Accepted (P : Tuple → Prop) : Prop where
  reduce : (R.init.containsReduce || R.step.containsReduce) = false
  starts : ∃ i, R.Starts i ∧ Shaped P i.rows
  steps : ∀ s, IsSet s → Shaped P s.rows → ∃ m, R.Steps s m ∧ Shaped P m.rows

/-- A round answers more, given more. -/
def Growing : Prop := ∀ s s' t t', IsSet s → IsSet t → R.Round s s' → R.Round t t' → s ≤ t → s' ≤ t'

/-- The step over no rows takes none of the start's away. -/
def KeepsStart : Prop := ∀ i s, R.Starts i → R.Round .empty s → i.positive ≤ s

/-- Some finite set of rows of the shape is closed under the rounds. -/
def Bounded (P : Tuple → Prop) : Prop := ∃ c c', IsSet c ∧ Shaped P c.rows ∧ R.Round c c' ∧ c' ≤ c

variable {R} {P : Tuple → Prop}

/-- What an iteration reads. -/
abbrev reader (R : Recursion) : EditionReader := R.store.readerAt R.at'

theorem addressed_init (h : (Query.iterate R.init R.step).Addressed) : R.init.Addressed :=
  fun a p p' hp hp' => h a p p' (.inl hp) (.inl hp')

theorem addressed_step (h : (Query.iterate R.init R.step).Addressed) : R.step.Addressed :=
  fun a p p' hp hp' => h a p p' (.inr hp) (.inr hp')

theorem starts_iff (h : (Query.iterate R.init R.step).Addressed) {i : Multiset} :
    R.Starts i ↔ Comes (fun fuel => answerOf fuel R.reader none R.init) i := by
  simp only [Starts, evalSnapshot, evalSnapshotOn_eq (addressed_init h)]

theorem steps_iff (h : (Query.iterate R.init R.step).Addressed) {s m : Multiset} :
    R.Steps s m ↔ Comes (fun fuel => answerOf fuel R.reader (some s) R.step) m := by
  simp only [Steps, evalWithRecur_eq (addressed_step h)]

theorem Round.isSet {s s' : Multiset} (h : R.Round s s') : IsSet s' := by
  obtain ⟨i, m, -, -, rfl⟩ := h
  exact isSet_positive _

theorem Accepted.round (h : R.Accepted P) {s : Multiset} (hset : IsSet s) (hs : Shaped P s.rows) :
    ∃ s', R.Round s s' ∧ Shaped P s'.rows := by
  obtain ⟨i, hi, hPi⟩ := h.starts
  obtain ⟨m, hm, hPm⟩ := h.steps s hset hs
  exact ⟨_, ⟨i, m, hi, hm, rfl⟩, (hPi.merge hPm).positive⟩

theorem Round.unique {s s' s'' : Multiset} (h : R.Round s s') (h' : R.Round s s'') : s' = s'' := by
  obtain ⟨i, m, hi, hm, rfl⟩ := h
  obtain ⟨i', m', hi', hm', rfl⟩ := h'
  rw [hi.unique hi', hm.unique hm']

/-- Rounds that settle are gone through by the loop, with rounds enough. -/
theorem comes_of_settles (haddr : (Query.iterate R.init R.step).Addressed) {i r out : Multiset}
    (hi : R.Starts i) (h : Rounds.Settles R.Round r out) :
    ∃ rounds, ∀ fuel n, rounds ≤ fuel → rounds ≤ n →
      roundsFrom (fun s => answerOf fuel R.reader (some s) R.step) i n r = .ok out := by
  induction h with
  | @still s hr =>
    obtain ⟨i', m, hi', hm, heq⟩ := hr
    obtain rfl := hi.unique hi'
    obtain ⟨a, ha⟩ := (steps_iff haddr).1 hm
    refine ⟨a + 1, fun fuel n hfuel hn => ?_⟩
    obtain ⟨n, rfl⟩ := Nat.exists_eq_add_of_le' (Nat.lt_of_lt_of_le a.succ_pos hn)
    have hstep : answerOf fuel R.reader (some s) R.step = .ok m := ha fuel (by omega)
    rw [roundsFrom, hstep]
    exact if_pos heq
  | @on s s' t hr hne _ ih =>
    obtain ⟨b, hb⟩ := ih
    obtain ⟨i', m, hi', hm, heq⟩ := hr
    obtain rfl := hi.unique hi'
    obtain ⟨a, ha⟩ := (steps_iff haddr).1 hm
    refine ⟨max a b + 1, fun fuel n hfuel hn => ?_⟩
    obtain ⟨n, rfl⟩ := Nat.exists_eq_add_of_le' (Nat.lt_of_lt_of_le (max a b).succ_pos hn)
    have hstep : answerOf fuel R.reader (some s) R.step = .ok m := ha fuel (by omega)
    rw [roundsFrom, hstep]
    show (if (i.merge m).positive = s then _ else _) = _
    rw [heq, if_neg hne]
    exact hb fuel n (by omega) (by omega)

/-- Where the loop ends, a round changes nothing. -/
theorem round_of_roundsFrom (haddr : (Query.iterate R.init R.step).Addressed) (hacc : R.Accepted P)
    {i : Multiset} (hi : R.Starts i) {fuel : Nat} : ∀ {n : Nat} {r out : Multiset},
      roundsFrom (fun s => answerOf fuel R.reader (some s) R.step) i n r = .ok out →
      IsSet r → Shaped P r.rows → R.Round out out ∧ IsSet out ∧ Shaped P out.rows := by
  intro n
  induction n with
  | zero => exact fun h => nomatch h
  | succ n ih =>
    intro r out h hset hr
    obtain ⟨m, hm, h⟩ := bind_ok h
    have hround : R.Round r (i.merge m).positive :=
      ⟨i, m, hi, (steps_iff haddr).2 (comes_of_ok hm), rfl⟩
    dsimp only at h
    split_ifs at h with heq
    · cases h
      rw [heq] at hround
      exact ⟨hround, hset, hr⟩
    · obtain ⟨s', hs', hPs'⟩ := hacc.round hset hr
      obtain rfl := hround.unique hs'
      exact ih h hround.isSet hPs'

/-- The loop as the evaluator runs it. -/
theorem evalSnapshot_iterate (haddr : (Query.iterate R.init R.step).Addressed)
    (hreduce : (R.init.containsReduce || R.step.containsReduce) = false) (fuel : Nat) :
    evalSnapshot fuel (.iterate R.init R.step) R.store R.at' = (do
      let initVal ← answerOf fuel R.reader none R.init
      roundsFrom (fun s => answerOf fuel R.reader (some s) R.step) initVal fuel initVal.positive) := by
  rw [evalSnapshot, evalSnapshotOn_eq haddr, answerOf, hreduce]
  rfl

/-- **A plan that rises and whose rows weigh nothing less than nothing answers more, given
more, and keeps its start.** -/
theorem growing_of_rises {hist : TraceStore} (hr : ReaderKeeps R.reader hist)
    (haddr : (Query.iterate R.init R.step).Addressed) (hrises : R.step.Rises R.reader true) : R.Growing := by
  rintro s s' t t' hs _ ⟨i, m, hi, hm, rfl⟩ ⟨i', m', hi', hm', rfl⟩ hle
  obtain rfl := hi.unique hi'
  obtain ⟨a, ha⟩ := (steps_iff haddr).1 hm
  obtain ⟨b, hb⟩ := (steps_iff haddr).1 hm'
  refine ZSet.positive_mono ?_
  show (i.merge m).den ≤ (i.merge m').den
  rw [ZSet.den_merge, ZSet.den_merge]
  exact add_le_add_right (rises_answer hr hs.nonneg hle hrises (ha _ (le_max_left a b)) (hb _ (le_max_right a b))) _

theorem keepsStart_of_solid {hist : TraceStore} (hr : ReaderKeeps R.reader hist)
    (haddr : (Query.iterate R.init R.step).Addressed) (hsolid : R.step.Solid R.reader) : R.KeepsStart := by
  rintro i s hi ⟨i', m, hi', hm, rfl⟩
  obtain rfl := hi.unique hi'
  obtain ⟨a, ha⟩ := (steps_iff haddr).1 hm
  refine ZSet.positive_mono ?_
  show i.den ≤ (i.merge m).den
  rw [ZSet.den_merge]
  exact le_add_of_nonneg_right (solid_answer hr le_rfl hsolid (ha a le_rfl))

/-- Each row of a list, as often as it is listed. -/
theorem total_ones (l : List Tuple) (t : Tuple) : ZSet.total (l.map fun t => (t, (1 : ℤ))) t = l.count t := by
  induction l with
  | nil => rfl
  | cons x l ih =>
    rw [List.map_cons, ZSet.total_cons, Finsupp.add_apply, ih, Finsupp.single_apply, List.count_cons]
    by_cases h : x = t <;> simp [h, add_comm]

/-- A shape of finitely many rows bounds the rounds. -/
theorem bounded_of_finite (hacc : R.Accepted P) (hfin : {t | P t}.Finite) : R.Bounded P := by
  have hlist : ∀ t, t ∈ hfin.toFinset.toList ↔ P t := fun t => by
    rw [Finset.mem_toList, hfin.mem_toFinset]
    rfl
  have hPc : Shaped P (ZSet.ofPairs (hfin.toFinset.toList.map fun t => (t, (1 : ℤ)))).positive.rows := by
    refine (shaped_ofPairs fun e he => ?_).positive
    obtain ⟨t, ht, rfl⟩ := List.mem_map.1 he
    exact (hlist t).1 ht
  obtain ⟨c', hc', hPc'⟩ := hacc.round (isSet_positive _) hPc
  refine ⟨_, c', isSet_positive _, hPc, hc', ZSet.le_iff.2 fun k => ?_⟩
  rcases hc'.isSet.weight k with hk | hk
  · rw [hk, ← ZSet.den_apply]
    exact ZSet.positive_nonneg _ k
  · have hP : P k := hPc' _ (ZSet.mem_of_weight (m := c') (k := k) (by rw [hk]; decide))
    have hcount : 0 < hfin.toFinset.toList.count k := List.count_pos_iff.2 ((hlist k).2 hP)
    rw [hk, ZSet.weight_positive, if_pos]
    rw [← ZSet.den_apply, ZSet.den_ofPairs, total_ones]
    exact_mod_cast hcount

/-- **The loop ends at the least fixpoint where a finite set is closed under the rounds.** -/
theorem endsLeast_of_bounded (haddr : (Query.iterate R.init R.step).Addressed) (hacc : R.Accepted P)
    (hgrow : R.Growing) (hkeep : R.KeepsStart) (hb : R.Bounded P) : R.EndsLeast := by
  obtain ⟨c, c', hcset, hPc, hcc', hle⟩ := hb
  obtain ⟨i, hi, hPi⟩ := hacc.starts
  have hempty : IsSet (.empty : Multiset) := fun _ he => absurd he (by simp [ZSet.empty])
  obtain ⟨e, he, -⟩ := hacc.round hempty shaped_empty
  -- the start is below what a round makes of anything
  have hstart : ∀ s s', IsSet s → R.Round s s' → i.positive ≤ s' := fun s s' hs hr =>
    (hkeep i e hi he).trans (hgrow _ _ _ _ hempty hs he hr hs.nonneg)
  have hround : ∀ s, IsSet s ∧ Shaped P s.rows ∧ s ≤ c →
      ∃ s', R.Round s s' ∧ IsSet s' ∧ Shaped P s'.rows ∧ s' ≤ c := by
    rintro s ⟨hs, hPs, hsc⟩
    obtain ⟨s', hs', hPs'⟩ := hacc.round hs hPs
    exact ⟨s', hs', hs'.isSet, hPs', (hgrow _ _ _ _ hs hcset hs' hcc' hsc).trans hle⟩
  have hfrom : IsSet i.positive ∧ Shaped P i.positive.rows ∧ i.positive ≤ c :=
    ⟨isSet_positive i, hPi.positive, (hstart c c' hcset hcc').trans hle⟩
  obtain ⟨s', hfirst, hs'⟩ := hround _ hfrom
  obtain ⟨r, hr⟩ := exists_settles ((IsSet.finite_below c).subset fun s hs => ⟨hs.1, hs.2.2⟩)
    (fun a b ha hb => ha.1.eq_of_le hb.1) hround (fun a b a' b' ha hb => hgrow _ _ _ _ ha.1 hb.1) hfrom hfirst hs'
    (hstart _ _ hfrom.1 hfirst)
  obtain ⟨N, hN⟩ := comes_of_settles haddr hi hr
  obtain ⟨M, hM⟩ := (starts_iff haddr).1 hi
  refine ⟨r, ⟨max N M, fun fuel hfuel => ?_⟩, hr.fixed, hr.fixed.isSet, fun s hs => ?_⟩
  · have hinit : answerOf fuel R.reader none R.init = .ok i := hM fuel (by omega)
    show evalSnapshot fuel (.iterate R.init R.step) R.store R.at' = .ok r
    rw [evalSnapshot_iterate haddr hacc.reduce, hinit]
    exact hN fuel fuel (by omega) (by omega)
  · exact hr.le (fun a b _ hab => hab.isSet) (fun a b a' b' => hgrow a a' b b' ) hs.isSet hs hfrom.1
      (hstart s s hs.isSet hs)

/-- The end of the loop is of the shape its rounds keep. -/
theorem shaped_of_comes (haddr : (Query.iterate R.init R.step).Addressed) (hacc : R.Accepted P) {r : Multiset}
    (h : Comes (fun fuel => evalSnapshot fuel (.iterate R.init R.step) R.store R.at') r) :
    Shaped P r.rows := by
  obtain ⟨N, hN⟩ := h
  obtain ⟨i, hi, hPi⟩ := hacc.starts
  obtain ⟨M, hM⟩ := (starts_iff haddr).1 hi
  have hrun : evalSnapshot (max N M) (.iterate R.init R.step) R.store R.at' = .ok r := hN _ (le_max_left N M)
  have hinit : answerOf (max N M) R.reader none R.init = .ok i := hM _ (le_max_right N M)
  rw [evalSnapshot_iterate haddr hacc.reduce, hinit] at hrun
  exact (round_of_roundsFrom haddr hacc hi hrun (isSet_positive i) hPi.positive).2.2

/-- Where the loop ends, its end is closed under the rounds. -/
theorem bounded_of_endsLeast (haddr : (Query.iterate R.init R.step).Addressed) (hacc : R.Accepted P)
    (h : R.EndsLeast) : R.Bounded P := by
  obtain ⟨r, hcomes, hfix, hset, -⟩ := h
  exact ⟨r, r, hset, shaped_of_comes haddr hacc hcomes, hfix, le_rfl⟩

end Recursion

/-- **Where an iteration ends at its least fixpoint.** If its rounds answer more, given more,
and the step takes none of the start's rows away, it does exactly where some finite set of
rows is closed under the rounds. A step that names the iteration's value under evenly many
negations, and joins it with what weighs nothing less than nothing, answers more, given
more; one whose rows all weigh so takes none away; and finitely many rows of the shape are
such a set. -/
theorem iterate_least {R : Recursion} {P : Tuple → Prop} {hist : TraceStore}
    (hr : ReaderKeeps R.reader hist) (haddr : (Query.iterate R.init R.step).Addressed)
    (hacc : R.Accepted P) :
    (R.Growing → R.KeepsStart → (R.EndsLeast ↔ R.Bounded P)) ∧
    (R.step.Rises R.reader true → R.Growing) ∧ (R.step.Solid R.reader → R.KeepsStart) ∧
    ({t | P t}.Finite → R.Bounded P) :=
  ⟨fun hgrow hkeep => ⟨Recursion.bounded_of_endsLeast haddr hacc,
      Recursion.endsLeast_of_bounded haddr hacc hgrow hkeep⟩,
    Recursion.growing_of_rises hr haddr, Recursion.keepsStart_of_solid hr haddr,
    Recursion.bounded_of_finite hacc⟩

/-- A pair of entities. -/
def pair (a b : UInt64) : Tuple := ⟨[.ent ⟨a⟩, .ent ⟨b⟩]⟩

/-- One pair in relation 1. -/
def onePair : TraceStore := TraceStore.empty.commit [(1, pair 1 2, 1)]

/-- The pairs, and the pairs turned round. -/
def bothWays : Recursion := ⟨.rel 1, .project .recur [1, 0], onePair.dyn, 1⟩

theorem onePair_keeps : ReaderKeeps bothWays.reader onePair := (onePair.dyn_keeps.readerAt (Nat.zero_le 1)).2

theorem bothWays_accepted : bothWays.Accepted fun t => t = pair 1 2 ∨ t = pair 2 1 := by
  have hstart : bothWays.Starts (onePair.contents 1 1) := by
    refine ⟨0, fun fuel _ => ?_⟩
    show Except.ok (ZSet.ofPairs (onePair.rowsAt 1 1)) = .ok (onePair.contents 1 1)
    decide +kernel
  refine ⟨rfl, ⟨_, hstart, ?_⟩, fun s _ hs => ?_⟩
  · have hrows : (onePair.contents 1 1).rows = [(pair 1 2, 1)] := by decide +kernel
    rw [hrows]
    intro e he
    exact .inl (by rw [List.mem_singleton.1 he])
  · obtain ⟨out, hout, hP⟩ := mapped_shaped (f := (·.project [1, 0])) (Q := fun t => t = pair 1 2 ∨ t = pair 2 1) hs (by
      rintro t (rfl | rfl)
      · exact ⟨pair 2 1, rfl, .inr rfl⟩
      · exact ⟨pair 1 2, rfl, .inl rfl⟩)
    refine ⟨out, ⟨0, fun fuel _ => ?_⟩, hP⟩
    show inBounds (mapped (·.project [1, 0]) s) = .ok out
    rw [hout]
    rfl

theorem iterate_least_bothWays : bothWays.EndsLeast := by
  have haddr : (Query.iterate bothWays.init bothWays.step).Addressed := by
    rintro a p p' (h | h)
    · exact h.elim
    · exact h.elim
  obtain ⟨hleast, hgrow, hkeep, hbounded⟩ := iterate_least onePair_keeps haddr bothWays_accepted
  exact (hleast (hgrow rfl) (hkeep trivial)).2 (hbounded (Set.toFinite {pair 1 2, pair 2 1}))

/-- What is there, but for what was found. -/
def flipFlop : Recursion := ⟨.rel 1, .negate .recur, onePair.dyn, 1⟩

/-- The one pair, or nothing: each is followed by the other. -/
theorem flipFlop_spins (fuel : Nat) : ∀ (n : Nat) (s : Multiset), s = onePair.contents 1 1 ∨ s = .empty →
    roundsFrom (fun s => answerOf fuel flipFlop.reader (some s) flipFlop.step) (onePair.contents 1 1) n s =
      .error .spin := by
  intro n
  induction n with
  | zero => exact fun _ _ => rfl
  | succ n ih =>
    intro s hs
    show (if ((onePair.contents 1 1).merge s.negate).positive = s then _ else _) = _
    rcases hs with rfl | rfl
    · have hnext : ((onePair.contents 1 1).merge (onePair.contents 1 1).negate).positive = .empty := by
        decide +kernel
      rw [hnext, if_neg (by decide +kernel)]
      exact ih _ (.inr rfl)
    · have hnext : ((onePair.contents 1 1).merge (ZSet.negate .empty)).positive = onePair.contents 1 1 := by
        decide +kernel
      rw [hnext, if_neg (by decide +kernel)]
      exact ih _ (.inl rfl)

/-- **An iteration that takes away what it has found goes round for ever**: it is accepted,
and comes to nothing with any number of rounds. -/
theorem iterate_not_least : flipFlop.Accepted (fun _ => True) ∧ ¬ flipFlop.EndsLeast := by
  have hread : ∀ fuel, answerOf fuel flipFlop.reader none flipFlop.init = .ok (onePair.contents 1 1) := by
    intro fuel
    show Except.ok (ZSet.ofPairs (onePair.rowsAt 1 1)) = .ok (onePair.contents 1 1)
    decide +kernel
  refine ⟨⟨rfl, ⟨_, ⟨0, fun fuel _ => hread fuel⟩, fun _ _ => trivial⟩, fun s _ _ =>
    ⟨s.negate, ⟨0, fun _ _ => rfl⟩, fun _ _ => trivial⟩⟩, ?_⟩
  rintro ⟨r, ⟨N, hN⟩, -⟩
  have haddr : (Query.iterate flipFlop.init flipFlop.step).Addressed := by
    rintro a p p' (h | h)
    · exact h.elim
    · exact h.elim
  have hrun : evalSnapshot N (.iterate flipFlop.init flipFlop.step) flipFlop.store flipFlop.at' = .ok r :=
    hN N le_rfl
  rw [Recursion.evalSnapshot_iterate haddr rfl, hread] at hrun
  have hstart : (onePair.contents 1 1).positive = onePair.contents 1 1 := by decide +kernel
  have hspin := flipFlop_spins N N _ (.inl hstart)
  cases hspin.symm.trans hrun

end Grmpl

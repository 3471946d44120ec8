import Grmpl.Diff.Delta

/-!
# Plans over one relation, row by row

A plan that reads one relation answers the relation's rows that fall inside it, and one that
drops and replaces them one by one answers each where it lands. Two versions of a relation
are told apart by the rows whose weight differs.

* `baseOf_den`, `rowsOf_den`: what such plans answer, in what the relation holds.
* `source_spec`: the column of the relation that a column of the plan carries.
* `imagesByGroup_spec`, `imagesByGroup_ok`: rows sent on, under their groups.
* `compare_total`, `distinct_change`: the differences of two versions.
-/

open OrdMap

namespace Grmpl

section Rows

variable {fuel : Nat} {reader : EditionReader} {hist : TraceStore} {recur : Option Multiset}
  {q : Query} {m : Multiset} {b : BaseRel} {rs : RowWise}

/-! ## Plans over one relation -/

/-- What is read of a relation: the rows that are asked for. -/
theorem scanned_den {x : Result Rows} {p : Tuple → Bool} {rel : RelId} {e : Nat}
    (hx : Answers x (keepRows p (hist.rowsAt rel e)))
    (h : (do return ZSet.ofPairs (← ask x) : Except Fault Multiset) = .ok m) :
    m.den = (hist.contents e rel).den.filter (p · = true) ∧ m.Clean := by
  obtain ⟨got, rfl, hperm⟩ := hx
  cases h
  refine ⟨?_, ZSet.clean_ofPairs _⟩
  rw [ZSet.den_ofPairs, ZSet.total_perm hperm]
  exact ZSet.total_filter _ _

theorem Answers.whole {x : Result Rows} {rows : Rows} (hx : Answers x rows) :
    Answers x (keepRows (fun _ => true) rows) := by
  rwa [keepRows, List.filter_eq_self.2 fun _ _ => rfl]

/-- What a plan over one relation answers: the relation's rows that fall inside. -/
theorem baseOf_den (hr : ReaderKeeps reader hist) : ∀ {q : Query}, baseOf q = some b →
    answerOf fuel reader recur q = .ok m →
      m.den = (hist.contents reader.edition b.rel).den.filter (b.admits · = true) ∧ m.Clean := by
  intro q
  induction q with
  | rel r =>
    intro hb h
    cases hb
    exact scanned_den (hr.read r).whole h
  | rangeRel r lo hi =>
    intro hb h
    cases hb
    exact scanned_den (hr.readRange r lo hi) h
  | rangeRelOn r col lo hi =>
    intro hb h
    cases hb
    exact scanned_den (hr.readRangeOn r col lo hi) h
  | shared arc inner ih => exact fun hb h => ih hb h
  | _ => intro hb; cases hb

theorem throughSteps_append (s : RowStep) : ∀ (steps : List RowStep) (t : Tuple),
    throughSteps (steps ++ [s]) t = (throughSteps steps t).bind fun o => match o with
      | none => some none
      | some t' => throughSteps [s] t' := by
  intro steps
  induction steps with
  | nil => exact fun t => rfl
  | cons step steps ih =>
    intro t
    cases step with
    | filter pred =>
      simp only [List.cons_append, throughSteps]
      cases pred t with
      | none => rfl
      | some keep => cases keep <;> simp [ih]
    | project cols =>
      simp only [List.cons_append, throughSteps]
      cases t.project cols with
      | none => rfl
      | some t' => simp [ih]

/-- Where a row of the relation lands, if it does. -/
def RowWise.landed (rs : RowWise) (t : Tuple) : Option Tuple := (rs.image t).getD none

theorem landed_image {t image : Tuple} (h : rs.landed t = some image) : rs.image t = some (some image) := by
  unfold RowWise.landed at h
  cases hi : rs.image t with
  | none =>
    rw [hi] at h
    cases h
  | some o =>
    rw [hi] at h
    exact congrArg some h

/-- One more operator sends on what landed. -/
theorem landed_append (s : RowStep) (t : Tuple) :
    ({ rs with steps := rs.steps ++ [s] } : RowWise).landed t =
      (rs.landed t).bind fun t' => (throughSteps [s] t').getD none := by
  unfold RowWise.landed RowWise.image
  dsimp only
  split_ifs with hadmits
  · rw [throughSteps_append]
    cases throughSteps rs.steps t with
    | none => rfl
    | some o => cases o <;> rfl
  · rfl

/-- What a plan over one relation seen row by row answers: the relation's rows, each where it
lands. -/
theorem rowsOf_den (hr : ReaderKeeps reader hist) : ∀ {q : Query} {rs : RowWise} {m : Multiset},
    rowsOf q = some rs → answerOf fuel reader recur q = .ok m →
      m.den = ZSet.spread rs.landed (hist.contents reader.edition rs.base.rel).den := by
  have base : ∀ {q : Query} {rs : RowWise} {m : Multiset}, (baseOf q).map (⟨·, []⟩) = some rs →
      answerOf fuel reader recur q = .ok m →
        m.den = ZSet.spread rs.landed (hist.contents reader.edition rs.base.rel).den := by
    intro q rs m hq h
    obtain ⟨b, hb, rfl⟩ := Option.map_eq_some_iff.1 hq
    rw [(baseOf_den hr hb h).1, ZSet.filter_eq_spread]
    refine ZSet.spread_congr fun t _ => ?_
    unfold RowWise.landed RowWise.image
    split_ifs <;> rfl
  intro q
  induction q with
  | filter input pred ih =>
    intro rs m hq h
    obtain ⟨rs', hrs', rfl⟩ := Option.map_eq_some_iff.1 hq
    obtain ⟨a, ha, h⟩ := bind_ok h
    rw [filtered_den (inBounds_ok h), ih hrs' ha, ZSet.spread_spread]
    refine ZSet.spread_congr fun t _ => ?_
    rw [landed_append]
    refine congrArg _ (funext fun t' => ?_)
    cases hp : pred t' with
    | none => simp [throughSteps, hp]
    | some keep => cases keep <;> simp [throughSteps, hp]
  | project input cols ih =>
    intro rs m hq h
    obtain ⟨rs', hrs', rfl⟩ := Option.map_eq_some_iff.1 hq
    obtain ⟨a, ha, h⟩ := bind_ok h
    rw [mapped_den (inBounds_ok h), ih hrs' ha, ZSet.spread_spread]
    refine ZSet.spread_congr fun t _ => ?_
    rw [landed_append]
    refine congrArg _ (funext fun t' => ?_)
    cases hp : t'.project cols <;> simp [throughSteps, hp]
  | shared arc inner ih => exact fun hq h => ih hq h
  | _ => exact fun hq h => base hq h

/-- A key's column is the row's. -/
theorem key_getElem {t : Tuple} {cols : List Nat} {k : List Value} (hk : t.key cols = some k) {i c : Nat}
    (hc : cols[i]? = some c) : k[i]? = t.cells[c]? := by
  have hall := mapM_some_iff.1 hk
  obtain ⟨hi, rfl⟩ := List.getElem?_eq_some_iff.1 hc
  have hlen := hall.length_eq
  rw [List.getElem?_eq_getElem (hlen ▸ hi)]
  exact ((List.forall₂_iff_get.1 hall).2 i hi (hlen ▸ hi)).symm

theorem key_head {t : Tuple} {cols : List Nat} {c : Nat} (hc : cols.head? = some c) {k : List Value}
    (hk : t.key cols = some k) : ∃ v, t.cells[c]? = some v ∧ k.head? = some v := by
  cases cols with
  | nil => cases hc
  | cons c' cols =>
    cases hc
    obtain ⟨v, vs, hv, -, rfl⟩ := mapM_cons_some.1 hk
    exact ⟨v, hv, rfl⟩

/-- **A column's source**: the row's column that ends there. -/
theorem source_spec {t image : Tuple} {col c : Nat} (ht : rs.image t = some (some image))
    (hc : rs.source col = some c) : image.cells[col]? = t.cells[c]? := by
  have through : ∀ (steps : List RowStep) (t : Tuple) (c : Nat), throughSteps steps t = some (some image) →
      RowWise.source ⟨rs.base, steps⟩ col = some c → image.cells[col]? = t.cells[c]? := by
    intro steps
    induction steps with
    | nil =>
      intro t c ht hc
      cases ht
      cases hc
      rfl
    | cons step steps ih =>
      intro t c ht hc
      rw [RowWise.source, List.foldr_cons] at hc
      obtain ⟨c', hc', hc⟩ := Option.bind_eq_some_iff.1 hc
      cases step with
      | filter pred =>
        cases hc
        obtain ⟨keep, hkeep, ht⟩ := Option.bind_eq_some_iff.1 ht
        cases keep with
        | false => cases ht
        | true => exact ih t _ ht hc'
      | project cols =>
        obtain ⟨t', ht', ht⟩ := Option.bind_eq_some_iff.1 ht
        obtain ⟨k, hk, rfl⟩ := Option.map_eq_some_iff.1 ht'
        rw [ih _ _ ht hc']
        exact key_getElem hk hc
  unfold RowWise.image at ht
  split_ifs at ht
  · exact through _ t c ht hc
  · cases ht

/-! ## The images of rows -/

theorem imagesByGroup_cons {key : List Nat} {e : Tuple × Diff} {rows : Rows} :
    imagesByGroup rs key (e :: rows) = inBounds (rs.image e.1) >>= fun o => match o with
      | none => imagesByGroup rs key rows
      | some image => match image.key key with
          | none => pure none
          | some group => imagesByGroup rs key rows >>= fun rest => pure (rest.map ((group, image, e.2) :: ·)) := rfl

/-- Rows all sent on somewhere are sent on under their groups, and weigh what they did. -/
theorem imagesByGroup_spec {key : List Nat} : ∀ {rows : Rows} {gs : List (List Value × Tuple × Diff)},
    imagesByGroup rs key rows = .ok (some gs) →
      ZSet.total (gs.map Prod.snd) = ZSet.spread rs.landed (ZSet.total rows) ∧
        ∀ g ∈ gs, g.2.1.key key = some g.1 := by
  intro rows
  induction rows with
  | nil =>
    intro gs h
    cases h
    exact ⟨by simp, by simp⟩
  | cons e rows ih =>
    intro gs h
    rw [imagesByGroup_cons] at h
    obtain ⟨o, ho, h⟩ := bind_ok h
    have hlanded : rs.landed e.1 = o := by
      rw [RowWise.landed, inBounds_ok ho]
      rfl
    rw [ZSet.total_cons, map_add, ZSet.spread_single, hlanded]
    cases o with
    | none =>
      obtain ⟨htotal, hkeys⟩ := ih h
      exact ⟨by rw [htotal, zero_add], hkeys⟩
    | some image =>
      dsimp only at h
      cases hgroup : image.key key with
      | none =>
        rw [hgroup] at h
        cases h
      | some group =>
        rw [hgroup] at h
        obtain ⟨rest, hrest, h⟩ := bind_ok h
        cases rest with
        | none => cases h
        | some rest =>
          cases h
          obtain ⟨htotal, hkeys⟩ := ih hrest
          refine ⟨by rw [List.map_cons, ZSet.total_cons, htotal], fun g hg => ?_⟩
          rcases List.mem_cons.1 hg with rfl | hg
          · exact hgroup
          · exact hkeys g hg

theorem imagesByGroup_ok {key : List Nat} : ∀ {rows : Rows}, (∀ e ∈ rows, (rs.image e.1).isSome) →
    ∃ o, imagesByGroup rs key rows = .ok o := by
  intro rows
  induction rows with
  | nil => exact fun _ => ⟨some [], rfl⟩
  | cons e rows ih =>
    intro h
    obtain ⟨o, ho⟩ := Option.isSome_iff_exists.1 (h e List.mem_cons_self)
    obtain ⟨rest, hrest⟩ := ih fun x hx => h x (List.mem_cons_of_mem e hx)
    rw [imagesByGroup_cons, ho]
    cases o with
    | none => exact ⟨rest, hrest⟩
    | some image =>
      cases hgroup : image.key key with
      | none => exact ⟨none, by simp [inBounds, bind, Except.bind, pure, Except.pure, hgroup]⟩
      | some group =>
        refine ⟨rest.map ((group, image, e.2) :: ·), ?_⟩
        simp [inBounds, bind, Except.bind, pure, Except.pure, hgroup, hrest]

end Rows

/-! ## The differences of two versions -/

section Compare

variable {store : DynTraceStore} {hist : TraceStore} {start upTo : Nat}

/-- What a store lists as changed, each change weighed alike, sums to the weighed change of
every row. -/
theorem compare_total (hk : Keeps store hist) (hstart : hist.watermark ≤ start) (hle : start ≤ upTo)
    (rel : RelId) : ∃ cs, store.compare rel start upTo = .ok cs ∧
      ∀ g : Diff → Diff → Diff, (∀ w, g w w = 0) → ∀ t,
        ZSet.total (cs.map fun c => (c.1, g c.2.1 c.2.2)) t =
          g ((hist.contents start rel).weight t) ((hist.contents upTo rel).weight t) := by
  obtain ⟨cs, hcs, hsorted, hmem⟩ := hk.compare hstart (hstart.trans hle) rel
  refine ⟨cs, hcs, fun g hg t => ?_⟩
  by_cases hsame : (hist.contents start rel).weight t = (hist.contents upTo rel).weight t
  · rw [hsame, hg]
    refine ZSet.total_apply_of_absent fun e he heq => ?_
    obtain ⟨⟨t', wa, wb⟩, hc, rfl⟩ := List.mem_map.1 he
    obtain ⟨ha, hb, hne⟩ := (hmem t' wa wb).1 hc
    subst heq
    exact hne (ha.symm.trans (hsame.trans hb))
  · have hc := (hmem t _ _).2 ⟨rfl, rfl, hsame⟩
    refine ZSet.total_apply_of_mem (l := cs.map fun c => (c.1, g c.2.1 c.2.2)) ?_ (List.mem_map_of_mem hc)
    exact List.pairwise_map.2 (hsorted.imp fun hlt => hlt.ne)

theorem entering_positive (m n : Multiset) (t : Tuple) :
    entering (m.weight t) (n.weight t) = n.positive.weight t - m.positive.weight t := by
  rw [entering, ZSet.weight_positive, ZSet.weight_positive]

theorem entering_self (w : Diff) : entering w w = 0 := sub_self _

/-- **What enters and leaves a relation read as a set**: the rows whose weight crosses zero. -/
theorem distinct_change (hk : Keeps store hist) (hstart : hist.watermark ≤ start) (hle : start ≤ upTo)
    {b : BaseRel} {admits : Tuple → Bool} {was is : Multiset}
    (hwas : was.den = (hist.contents start b.rel).den.filter (admits · = true))
    (his : is.den = (hist.contents upTo b.rel).den.filter (admits · = true)) :
    ∃ cs, store.compare b.rel start upTo = .ok cs ∧
      (ZSet.addAll .empty ((cs.filter fun c => admits c.1).map fun c =>
        (c.1, entering c.2.1 c.2.2))).strip.Change was.positive is.positive := by
  obtain ⟨cs, hcs, htotal⟩ := compare_total hk hstart hle b.rel
  refine ⟨cs, hcs, ZSet.Change.of_weight (ZSet.clean_strip _) fun t => ?_⟩
  have hfilter : ((cs.filter fun c => admits c.1).map fun c => (c.1, entering c.2.1 c.2.2)) =
      (cs.map fun c => (c.1, entering c.2.1 c.2.2)).filter fun e => admits e.1 := by
    rw [List.filter_map]
    rfl
  rw [← ZSet.den_apply, ZSet.den_strip, ZSet.den_addAll, ZSet.den_empty, zero_add, hfilter, ZSet.total_filter,
    ← entering_positive, ← ZSet.den_apply was, ← ZSet.den_apply is, hwas, his, Finsupp.filter_apply,
    Finsupp.filter_apply, Finsupp.filter_apply, htotal entering entering_self t, ZSet.den_apply, ZSet.den_apply]
  split_ifs
  · rfl
  · exact (entering_self 0).symm

end Compare

end Grmpl

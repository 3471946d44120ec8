import Grmpl.Diff.Query

/-!
# The shapes of rows

A plan indexes the rows of its relations, and no row need be as wide as another. A plan
keeps a shape if its operators find in rows of the shapes below them the columns they
name; its evaluation then never indexes past the end of a row, and answers rows of the
shape.

* `Shaped`: rows that all meet a property; `mapped_shaped` and its like: the operators.
* `Eval.Meets`: what an evaluation that has not panicked promises, and its rules.
* `KeepsShape`: a plan that keeps a shape.
* `keepsShape_meets`: such a plan is evaluated within its rows.
-/

open OrdMap

namespace Grmpl

/-- Every row meets a property. -/
def Shaped (P : Tuple → Prop) (rows : Rows) : Prop := ∀ e ∈ rows, P e.1

section Shaped

variable {P Q R : Tuple → Prop} {rows : Rows} {m l r : Multiset}

theorem Shaped.mono (h : Shaped P rows) (hPQ : ∀ t, P t → Q t) : Shaped Q rows :=
  fun e he => hPQ e.1 (h e he)

theorem shaped_empty : Shaped P ZSet.empty.rows := fun _ he => absurd he (by simp [ZSet.empty])

theorem shaped_ofPairs (h : Shaped P rows) : Shaped P (ZSet.ofPairs rows).rows := by
  intro e he
  obtain ⟨x, hx, hxe⟩ := ZSet.mem_ofPairs he
  exact hxe ▸ h x hx

theorem Shaped.filter (h : Shaped P m.rows) (p : Tuple → Bool) : Shaped P (m.filter p).rows :=
  fun e he => h e (List.mem_filter.1 he).1

theorem Shaped.strip (h : Shaped P m.rows) : Shaped P m.strip.rows :=
  fun e he => h e (List.mem_filter.1 he).1

theorem Shaped.positive (h : Shaped P m.rows) : Shaped P m.positive.rows := by
  intro e he
  obtain ⟨x, hx, hxe⟩ := ZSet.mem_positive_rows he
  exact hxe ▸ h x hx

theorem Shaped.negate (h : Shaped P m.rows) : Shaped P m.negate.rows := by
  intro e he
  obtain ⟨x, hx, rfl⟩ := List.mem_map.1 he
  exact h x hx

theorem Shaped.merge (hl : Shaped P l.rows) (hr : Shaped P r.rows) : Shaped P (l.merge r).rows := by
  intro e he
  rcases ZSet.mem_addAll he with ⟨x, hx, hxe⟩ | ⟨x, hx, hxe⟩
  · exact hxe ▸ hl x hx
  · exact hxe ▸ hr x hx

/-! ## The operators -/

theorem mapped_shaped {f : Tuple → Option Tuple} (hm : Shaped P m.rows)
    (hf : ∀ t, P t → ∃ t', f t = some t' ∧ Q t') :
    ∃ out, mapped f m = some out ∧ Shaped Q out.rows := by
  obtain ⟨bs, hbs⟩ := mapM_isSome (f := fun e => (f e.1).map (·, e.2)) (l := m.rows) fun e he => by
    obtain ⟨t', ht', -⟩ := hf e.1 (hm e he)
    simp [ht']
  refine ⟨.ofPairs bs, by rw [mapped, hbs, Option.map_some], shaped_ofPairs fun b hb => ?_⟩
  obtain ⟨e, he, hfe⟩ := mem_of_mapM hbs hb
  obtain ⟨t', ht', hQ⟩ := hf e.1 (hm e he)
  simp only [ht', Option.map_some, Option.some.injEq] at hfe
  exact hfe ▸ hQ

theorem filtered_shaped {p : Tuple → Option Bool} (hm : Shaped P m.rows)
    (hp : ∀ t, P t → (p t).isSome) : ∃ out, filtered p m = some out ∧ Shaped P out.rows := by
  obtain ⟨bs, hbs⟩ := mapM_isSome (f := fun e => p e.1) (l := m.rows) fun e he => hp e.1 (hm e he)
  exact ⟨_, by rw [filtered, hbs, Option.map_some], hm.filter _⟩

/-- Every row under its key. -/
theorem keyed_some {cols : List Nat} (hrows : Shaped P rows) (hkey : ∀ t, P t → (t.key cols).isSome) :
    ∃ ks, keyed cols rows = some ks ∧ ∀ x ∈ ks, x.2 ∈ rows ∧ x.2.1.key cols = some x.1 := by
  obtain ⟨ks, hks⟩ := mapM_isSome (f := fun e => (Tuple.key e.1 cols).map (·, e)) (l := rows)
    fun e he => by
      obtain ⟨vs, hvs⟩ := Option.isSome_iff_exists.1 (hkey e.1 (hrows e he))
      simp [hvs]
  refine ⟨ks, hks, fun x hx => ?_⟩
  obtain ⟨e, he, hfe⟩ := mem_of_mapM hks hx
  obtain ⟨vs, hvs, rfl⟩ := Option.map_eq_some_iff.1 hfe
  exact ⟨he, hvs⟩

theorem join_shaped {lk rk : List Nat} (hl : Shaped P l.rows) (hr : Shaped Q r.rows)
    (hlk : ∀ t, P t → (t.key lk).isSome) (hrk : ∀ t, Q t → (t.key rk).isSome)
    (hcat : ∀ a b, P a → Q b → a.key lk = b.key rk → R (a.concat b)) :
    ∃ out, joinMultisets l lk r rk = some out ∧ Shaped R out.rows := by
  obtain ⟨rs, hrs, hrmem⟩ := keyed_some hr hrk
  obtain ⟨ls, hls, hlmem⟩ := keyed_some hl hlk
  refine ⟨_, by rw [joinMultisets, hrs, hls]; rfl, shaped_ofPairs fun e he => ?_⟩
  obtain ⟨x, hx, he⟩ := List.mem_flatMap.1 he
  obtain ⟨y, hy, rfl⟩ := List.mem_map.1 he
  obtain ⟨hy, hkey⟩ := List.mem_filter.1 hy
  refine hcat _ _ (hl _ (hlmem x hx).1) (hr _ (hrmem y hy).1) ?_
  rw [(hlmem x hx).2, (hrmem y hy).2, of_decide_eq_true hkey]

/-- What an aggregate makes of a group of rows of a shape, beside the group's key. -/
def FoldsTo (P Q : Tuple → Prop) (cols : List Nat) (agg : Agg) : Prop :=
  ∀ t ts, P t → (∀ x ∈ ts, P x) → ts ≠ [] →
    ∃ v, foldAgg ts agg = some v ∧ ∀ k, t.key cols = some k → Q ⟨k ++ [v]⟩

/-- A group's key is a row's, and so are its members, of which there is one. -/
theorem mem_groups {rows : List (List Value × Tuple × Diff)} {g : Tuple × List Tuple}
    (hg : g ∈ groups rows) :
    g.2 ≠ [] ∧ (∃ x ∈ rows, x.1 = g.1.cells) ∧ ∀ t ∈ g.2, ∃ x ∈ rows, x.2.1 = t := by
  have hfold : ∀ (rs : List (List Value × Tuple × Diff)) (gs : List (Tuple × List Tuple)),
      (∀ x ∈ rs, x ∈ rows) →
      (∀ g ∈ gs, g.2 ≠ [] ∧ (∃ x ∈ rows, x.1 = g.1.cells) ∧ ∀ t ∈ g.2, ∃ x ∈ rows, x.2.1 = t) →
      ∀ g ∈ rs.foldl (fun gs r => put ⟨r.1⟩ ((lookup ⟨r.1⟩ gs).getD [] ++ [r.2.1]) gs) gs,
        g.2 ≠ [] ∧ (∃ x ∈ rows, x.1 = g.1.cells) ∧ ∀ t ∈ g.2, ∃ x ∈ rows, x.2.1 = t := by
    intro rs
    induction rs with
    | nil => exact fun _ _ hgs => hgs
    | cons r rs ih =>
      intro gs hrs hgs
      refine ih _ (fun x hx => hrs x (List.mem_cons_of_mem r hx)) fun g hg => ?_
      rcases mem_put hg with rfl | hg
      · refine ⟨by simp, ⟨r, hrs r List.mem_cons_self, rfl⟩, fun t ht => ?_⟩
        rcases List.mem_append.1 ht with ht | ht
        · cases hl : lookup (⟨r.1⟩ : Tuple) gs with
          | none =>
            rw [hl] at ht
            exact absurd ht (by simp)
          | some ts =>
            rw [hl] at ht
            exact (hgs _ (mem_of_lookup hl)).2.2 t ht
        · exact ⟨r, hrs r List.mem_cons_self, (List.mem_singleton.1 ht).symm⟩
      · exact hgs g hg
  exact hfold rows [] (fun _ hx => hx) (fun _ hx => absurd hx (by simp)) g hg

theorem reduce_shaped {cols : List Nat} {agg : Agg} (hm : Shaped P m.rows)
    (hkey : ∀ t, P t → (t.key cols).isSome) (hfold : FoldsTo P Q cols agg) :
    ∃ out, reduceSnapshot m cols agg = some out ∧ Shaped Q out.rows := by
  have hpos : Shaped P (m.rows.filter fun e => 0 < e.2) := fun e he => hm e (List.mem_filter.1 he).1
  obtain ⟨ks, hks, hmem⟩ := keyed_some hpos hkey
  have hgroup : ∀ g ∈ groups ks, ∃ v, foldAgg g.2 agg = some v ∧ Q ⟨g.1.cells ++ [v]⟩ := by
    intro g hg
    obtain ⟨hne, ⟨y, hy, hyg⟩, hms⟩ := mem_groups hg
    have hP : ∀ x ∈ ks, P x.2.1 := fun x hx => hpos _ (hmem x hx).1
    obtain ⟨v, hv, hQ⟩ := hfold y.2.1 g.2 (hP y hy) (fun t ht => by
      obtain ⟨x, hx, rfl⟩ := hms t ht
      exact hP x hx) hne
    exact ⟨v, hv, hQ _ (hyg ▸ (hmem y hy).2)⟩
  obtain ⟨out, hout⟩ := mapM_isSome (l := groups ks)
    (f := fun g => (foldAgg g.2 agg).map fun v => ((⟨g.1.cells ++ [v]⟩, 1) : Tuple × Diff)) fun g hg => by
      obtain ⟨v, hv, -⟩ := hgroup g hg
      simp [hv]
  refine ⟨_, by rw [reduceSnapshot, hks]; exact congrArg (· >>= _) hout, fun e he => ?_⟩
  rcases ZSet.mem_addAll he with ⟨x, hx, -⟩ | ⟨x, hx, hxe⟩
  · exact absurd hx (by simp [ZSet.empty])
  · obtain ⟨g, hg, hfg⟩ := mem_of_mapM hout hx
    obtain ⟨v, hv, hQ⟩ := hgroup g hg
    simp only [hv, Option.map_some, Option.some.injEq] at hfg
    rw [← hxe, ← hfg]
    exact hQ

theorem inherit_shaped (hm : Shaped P m.rows) (hext : ∀ t v, P t → Q ⟨t.cells ++ [v]⟩) (col : Nat)
    (key : Value) (ctx : Rows) : Shaped Q (inherit m col key ctx).rows := by
  refine shaped_ofPairs fun e he => ?_
  obtain ⟨x, hx, hfx⟩ := List.mem_filterMap.1 he
  obtain ⟨v, -, hfx⟩ := Option.bind_eq_some_iff.1 hfx
  obtain ⟨s, -, hfx⟩ := Option.bind_eq_some_iff.1 hfx
  cases hfx
  exact hext x.1 s.value (hm x hx)

end Shaped

/-! ## Evaluations that do not panic -/

/-- From any arrangements, no panic, and any value meets the property. -/
def Eval.Meets {α : Type} (P : α → Prop) (x : Eval α) : Prop :=
  ∀ arr, x.value arr ≠ .error .panic ∧ ∀ a, x.value arr = .ok a → P a

namespace Eval

variable {α β : Type} {P : α → Prop} {Q : β → Prop}

theorem value_pure (a : α) (arr : Arrangements) : (pure a : Eval α).value arr = .ok a := rfl

theorem value_lift (x : Except Fault α) (arr : Arrangements) : (liftM x : Eval α).value arr = x := rfl

/-- One computation after another, from the arrangements it left. -/
theorem value_bind (x : Eval α) (f : α → Eval β) (arr : Arrangements) :
    (x >>= f).value arr = match x.value arr with
      | .ok a => (f a).value (x.run arr).2
      | .error e => .error e := by
  show ((ExceptT.mk (x.run >>= ExceptT.bindCont f)).run arr).1 = _
  show (ExceptT.bindCont f (x.run arr).1 (x.run arr).2).1 = match (x.run arr).1 with
      | .ok a => (f a).value (x.run arr).2
      | .error e => .error e
  cases (x.run arr).1 <;> rfl

theorem Meets.pure {a : α} (h : P a) : Meets P (Pure.pure a : Eval α) := fun arr => by
  rw [value_pure]
  refine ⟨nofun, fun b hb => ?_⟩
  cases hb
  exact h

theorem Meets.bind {x : Eval α} {f : α → Eval β} (hx : x.Meets P) (hf : ∀ a, P a → (f a).Meets Q) :
    (x >>= f).Meets Q := fun arr => by
  rw [value_bind]
  cases hv : x.value arr with
  | error e =>
    refine ⟨fun he => (hx arr).1 ?_, nofun⟩
    cases he
    exact hv
  | ok a => exact hf a ((hx arr).2 a hv) _

theorem meets_lift {x : Except Fault α} (hx : x ≠ .error .panic) (h : ∀ a, x = .ok a → P a) :
    Meets P (liftM x : Eval α) := fun arr => by
  rw [value_lift]
  exact ⟨hx, h⟩

theorem Meets.ask {x : Result α} (h : ∀ a, x = .ok a → P a) : Meets P (liftM (ask x)) := fun arr => by
  rw [value_lift]
  cases x with
  | error e => exact ⟨nofun, nofun⟩
  | ok a =>
    refine ⟨nofun, fun b hb => ?_⟩
    cases hb
    exact h a rfl

theorem Meets.inBounds {x : Option α} (h : ∃ a, x = some a ∧ P a) : Meets P (liftM (inBounds x)) :=
  fun arr => by
    obtain ⟨a, rfl, ha⟩ := h
    rw [value_lift]
    refine ⟨nofun, fun b hb => ?_⟩
    cases hb
    exact ha

theorem meets_throw {e : Fault} (he : e ≠ .panic) : Meets P (throw e : Eval α) := fun _ =>
  ⟨fun h => he (by cases h; rfl), nofun⟩

end Eval

/-! ## Plans that keep a shape -/

/-- A plan's rows are of a shape, those of its recursion variable being of another: what
it reads is, and each operator finds the columns it names. -/
inductive KeepsShape (reader : EditionReader) :
    Option (Tuple → Prop) → Query → (Tuple → Prop) → Prop
  | rel {w r P} : (∀ rows, reader.read r = .ok rows → Shaped P rows) → KeepsShape reader w (.rel r) P
  | rangeRel {w r lo hi P} : (∀ rows, reader.readRange r lo hi = .ok rows → Shaped P rows) →
      KeepsShape reader w (.rangeRel r lo hi) P
  | rangeRelOn {w r col lo hi P} : (∀ rows, reader.readRangeOn r col lo hi = .ok rows → Shaped P rows) →
      KeepsShape reader w (.rangeRelOn r col lo hi) P
  | map {w q f P Q} : KeepsShape reader w q P → (∀ t, P t → ∃ t', f t = some t' ∧ Q t') →
      KeepsShape reader w (.map q f) Q
  | filter {w q p P} : KeepsShape reader w q P → (∀ t, P t → (p t).isSome) →
      KeepsShape reader w (.filter q p) P
  | project {w q cols P Q} : KeepsShape reader w q P →
      (∀ t, P t → ∃ t', t.project cols = some t' ∧ Q t') → KeepsShape reader w (.project q cols) Q
  | join {w l r lk rk P Q R} : KeepsShape reader w l P → KeepsShape reader w r Q →
      (∀ t, P t → (t.key lk).isSome) → (∀ t, Q t → (t.key rk).isSome) →
      (∀ a b, P a → Q b → R (a.concat b)) → KeepsShape reader w (.join l r lk rk) R
  | union {w a b P} : KeepsShape reader w a P → KeepsShape reader w b P →
      KeepsShape reader w (.union a b) P
  | negate {w a P} : KeepsShape reader w a P → KeepsShape reader w (.negate a) P
  | distinct {w a P} : KeepsShape reader w a P → KeepsShape reader w (.distinct a) P
  | reduce {w q key agg P Q} : KeepsShape reader w q P → (∀ t, P t → (t.key key).isSome) →
      FoldsTo P Q key agg → KeepsShape reader w (.reduce q key agg) Q
  | recur {P} : KeepsShape reader (some P) .recur P
  | iterate {w init step P} : KeepsShape reader w init P → KeepsShape reader (some P) step P →
      KeepsShape reader w (.iterate init step) P
  | inherit {w q P Q} (col key ctx) : KeepsShape reader w q P → (∀ t v, P t → Q ⟨t.cells ++ [v]⟩) →
      KeepsShape reader w (.inherit q col key ctx) Q
  | materialized {w plan into pre cursorRel key fold P} : KeepsShape reader w plan P →
      (∀ rows, storedView reader plan.baseRelations into pre cursorRel key = .ok (some rows) →
        ∃ out, viewOf fold rows = some out ∧ Shaped P out.rows) →
      storedView reader plan.baseRelations into pre cursorRel key ≠ .error .panic →
      KeepsShape reader w (.materialized plan into pre cursorRel key fold) P
  | weaken {w q P Q} : KeepsShape reader w q P → (∀ t, P t → Q t) → KeepsShape reader w q Q

section Evaluate

variable {reader : EditionReader} {fuel : Nat}

theorem iterateFrom_meets {P : Tuple → Prop} {step : Multiset → Eval Multiset} {initVal : Multiset}
    (hinit : Shaped P initVal.rows)
    (hstep : ∀ r : Multiset, Shaped P r.rows → (step r).Meets fun m => Shaped P m.rows) :
    ∀ (fuel : Nat) (r : Multiset), Shaped P r.rows →
      (iterateFrom step initVal fuel r).Meets fun m => Shaped P m.rows := by
  intro fuel
  induction fuel with
  | zero => exact fun _ _ => Eval.meets_throw (by decide)
  | succ fuel ih =>
    intro r hr
    refine (hstep r hr).bind fun stepped hs => ?_
    have hnext := (hinit.merge hs).positive
    dsimp only
    split_ifs
    · exact .pure hr
    · exact ih _ hnext

/-- **A plan that keeps a shape is evaluated within its rows.** -/
theorem keepsShape_meets {w : Option (Tuple → Prop)} {q : Query} {P : Tuple → Prop}
    (h : KeepsShape reader w q P) :
    ∀ recur : Option Multiset, (∀ m ∈ recur, ∀ W ∈ w, Shaped W m.rows) →
      (evalInner fuel reader none recur q).Meets fun m => Shaped P m.rows := by
  induction h with
  | rel hr => exact fun recur _ => (Eval.Meets.ask hr).bind fun rows hrows => .pure (shaped_ofPairs hrows)
  | rangeRel hr =>
    exact fun recur _ => (Eval.Meets.ask hr).bind fun rows hrows => .pure (shaped_ofPairs hrows)
  | rangeRelOn hr =>
    exact fun recur _ => (Eval.Meets.ask hr).bind fun rows hrows => .pure (shaped_ofPairs hrows)
  | map _ hf ih => exact fun recur hr => (ih recur hr).bind fun m hm => .inBounds (mapped_shaped hm hf)
  | filter _ hp ih => exact fun recur hr => (ih recur hr).bind fun m hm => .inBounds (filtered_shaped hm hp)
  | project _ hc ih => exact fun recur hr => (ih recur hr).bind fun m hm => .inBounds (mapped_shaped hm hc)
  | join _ _ hlk hrk hcat ihl ihr =>
    exact fun recur hrec => (ihl recur hrec).bind fun l hl => (ihr recur hrec).bind fun r hr =>
      .inBounds (join_shaped hl hr hlk hrk fun a b ha hb _ => hcat a b ha hb)
  | union _ _ iha ihb =>
    exact fun recur hr => (iha recur hr).bind fun a ha => (ihb recur hr).bind fun b hb =>
      .pure (ha.merge hb).strip
  | negate _ ih => exact fun recur hr => (ih recur hr).bind fun a ha => .pure ha.negate
  | distinct _ ih => exact fun recur hr => (ih recur hr).bind fun a ha => .pure ha.positive
  | reduce _ hk hfold ih =>
    exact fun recur hr => (ih recur hr).bind fun m hm => .inBounds (reduce_shaped hm hk hfold)
  | recur =>
    intro recur hr
    refine .pure ?_
    cases recur with
    | none => exact shaped_empty
    | some m => exact hr m rfl _ rfl
  | iterate _ _ ihi ihs =>
    intro recur hr
    simp only [evalInner]
    split_ifs
    · exact Eval.meets_throw nofun
    · exact (ihi none nofun).bind fun initVal hinit => iterateFrom_meets hinit
        (fun r hr => ihs (some r) fun m hm W hW => by cases hm; cases hW; exact hr) fuel _ hinit.positive
  | inherit col key ctx _ hext ih =>
    exact fun recur hr => (ih recur hr).bind fun m hm => (Eval.Meets.ask (P := fun _ => True) fun _ _ =>
      trivial).bind fun rows _ => .pure (inherit_shaped hm hext col key rows)
  | @materialized w plan into pre cursorRel key fold P _ hcopy hsafe ih =>
    intro recur hr
    cases recur with
    | none =>
      have hview : Eval.Meets (fun o : Option Multiset => ∀ rows ∈ o, ∃ out : Multiset,
          viewOf fold rows = some out ∧ Shaped P out.rows)
          (liftM (storedView reader plan.baseRelations into pre cursorRel key)) :=
        Eval.meets_lift hsafe fun o ho rows hrows => hcopy rows (hrows ▸ ho)
      refine hview.bind fun o ho => ?_
      cases o with
      | none => exact ih none nofun
      | some rows => exact .inBounds (ho rows rfl)
    | some m => exact ih (some m) hr
  | weaken _ hPQ ih =>
    exact fun recur hr arr => ⟨(ih recur hr arr).1, fun m hm => ((ih recur hr arr).2 m hm).mono hPQ⟩

end Evaluate

end Grmpl

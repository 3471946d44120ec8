import Grmpl.Lang.QueryTypes

/-!
# The order of row types

A column's type lies below itself and below the type that admits everything. The checker
respects the order, so the types of an iteration only rise, one column after another
until none does.

* `Ty.Le`, `RowTy.Le`: the order.
* `synth_mono`: a wider recursion variable types a plan no more narrowly.
* `Settles`: the loop as it runs; `settle_settles`: it has run out when the rounds are up.
* `settle_fixed`: what an iteration settles on.
-/

namespace Grmpl

/-- A type, or the one that admits everything. -/
def Ty.Le (a b : Ty) : Prop := a = b ∨ b = .any

/-- Column by column. -/
abbrev RowTy.Le (a b : RowTy) : Prop := List.Forall₂ Ty.Le a b

namespace Ty

theorem Le.refl (a : Ty) : a.Le a := .inl rfl

theorem Le.trans {a b c : Ty} (h : a.Le b) (h' : b.Le c) : a.Le c := by
  rcases h with rfl | rfl
  · exact h'
  · rcases h' with rfl | rfl
    · exact .inr rfl
    · exact .inr rfl

theorem le_lub_left (a b : Ty) : a.Le (a.lub b) := by
  unfold lub
  split_ifs
  · exact .refl a
  · exact .inr rfl

theorem le_lub_right (a b : Ty) : b.Le (a.lub b) := by
  unfold lub
  split_ifs with h
  · exact h ▸ .refl b
  · exact .inr rfl

theorem lub_mono {a a' b b' : Ty} (ha : a.Le a') (hb : b.Le b') : (a.lub b).Le (a'.lub b') := by
  rcases ha with rfl | rfl
  · rcases hb with rfl | rfl
    · exact .refl _
    · by_cases h : a = .any
      · exact .inr (by rw [lub, if_pos h]; exact h)
      · exact .inr (if_neg h)
  · by_cases h : Ty.any = b'
    · exact .inr (if_pos h)
    · exact .inr (if_neg h)

end Ty

namespace RowTy

theorem Le.refl (a : RowTy) : RowTy.Le a a := List.forall₂_same.2 fun x _ => .refl x

theorem Le.trans {a b c : RowTy} (h : a.Le b) : b.Le c → RowTy.Le a c := by
  induction h generalizing c with
  | nil => exact fun h' => h'
  | cons hab _ ih =>
    intro h'
    cases h' with
    | cons hbc hrest => exact .cons (hab.trans hbc) (ih hrest)

theorem le_zipWith_left : ∀ {a b : RowTy}, a.length = b.length → RowTy.Le a (a.zipWith Ty.lub b) := by
  intro a
  induction a with
  | nil => exact fun _ => .nil
  | cons x a ih =>
    intro b hlen
    cases b with
    | nil => cases hlen
    | cons y b => exact .cons (x.le_lub_left y) (ih (Nat.succ.inj hlen))

theorem le_zipWith_right : ∀ {a b : RowTy}, a.length = b.length → RowTy.Le b (a.zipWith Ty.lub b) := by
  intro a
  induction a with
  | nil =>
    intro b hlen
    rw [List.length_eq_zero_iff.1 hlen.symm]
    exact .nil
  | cons x a ih =>
    intro b hlen
    cases b with
    | nil => cases hlen
    | cons y b => exact .cons (x.le_lub_right y) (ih (Nat.succ.inj hlen))

theorem zipWith_mono {a a' : RowTy} (ha : a.Le a') : ∀ {b b' : RowTy}, b.Le b' →
    RowTy.Le (a.zipWith Ty.lub b) (a'.zipWith Ty.lub b') := by
  induction ha with
  | nil => exact fun _ => .nil
  | cons hx _ ih =>
    intro b b' hb
    cases hb with
    | nil => exact .nil
    | cons hy hrest => exact .cons (Ty.lub_mono hx hy) (ih hrest)

/-- How many columns can still rise. -/
def room (a : RowTy) : Nat := a.countP (· ≠ .any)

theorem room_cons (x : Ty) (a : RowTy) : room (x :: a) = room a + if x = .any then 0 else 1 := by
  rw [room, room, List.countP_cons]
  by_cases h : x = .any <;> simp [h]

theorem room_le (a : RowTy) : a.room ≤ a.length := List.countP_le_length

/-- A row type that rises leaves less room. -/
theorem Le.room_lt {a b : RowTy} (h : a.Le b) : a ≠ b → room b < room a := by
  induction h with
  | nil => exact fun hne => absurd rfl hne
  | @cons x y a b hxy hab ih =>
    intro hne
    have hle : room b ≤ room a := by
      by_cases hab' : a = b
      · exact hab' ▸ le_rfl
      · exact (ih hab').le
    rw [room_cons, room_cons]
    rcases hxy with rfl | rfl
    · have hlt := ih fun h => hne (by rw [h])
      omega
    · by_cases hx : x = .any
      · have hlt := ih fun h => hne (by rw [h, hx])
        rw [if_pos rfl, if_pos hx]
        omega
      · rw [if_pos rfl, if_neg hx]
        omega

end RowTy

theorem unionTy_ok {a b c : RowTy} (h : unionTy a b = .ok c) :
    a.length = b.length ∧ c = a.zipWith Ty.lub b := by
  unfold unionTy at h
  split_ifs at h with hlen
  · exact ⟨not_not.1 hlen, (Except.ok.inj h).symm⟩

/-- Each operand lies below the union. -/
theorem unionTy_le {a b c : RowTy} (h : unionTy a b = .ok c) : RowTy.Le a c ∧ RowTy.Le b c := by
  obtain ⟨hlen, rfl⟩ := unionTy_ok h
  exact ⟨RowTy.le_zipWith_left hlen, RowTy.le_zipWith_right hlen⟩

theorem unionTy_mono {a a' b b' c c' : RowTy} (ha : a.Le a') (hb : b.Le b') (h : unionTy a b = .ok c)
    (h' : unionTy a' b' = .ok c') : RowTy.Le c c' := by
  obtain ⟨-, rfl⟩ := unionTy_ok h
  obtain ⟨-, rfl⟩ := unionTy_ok h'
  exact RowTy.zipWith_mono ha hb

/-! ## The loop of an iteration -/

/-- The loop as it runs, from what the recursion variable is typed with to its end. -/
inductive Settles (step : RowTy → Typed RowTy) (init : RowTy) : RowTy → Typed RowTy → Prop
  | failed {t e} : step t = .error e → Settles step init t (.error e)
  | uneven {t a} : step t = .ok a → init.length ≠ a.length →
      Settles step init t (.error (.iterateArityMismatch init.length a.length))
  | done {t a} : step t = .ok a → unionTy init a = .ok t → Settles step init t (.ok t)
  | again {t a next r} : step t = .ok a → unionTy init a = .ok next → next ≠ t →
      Settles step init next r → Settles step init t r

/-- A step that types no more narrowly under a wider type. -/
def Rises (step : RowTy → Typed RowTy) : Prop :=
  ∀ {t t' a a' : RowTy}, t.Le t' → step t = .ok a → step t' = .ok a' → RowTy.Le a a'

section Settle

variable {step : RowTy → Typed RowTy} {init t : RowTy}

/-- From a type the next lies above, as many rounds as there is room for, and one more,
see the loop to its end. -/
theorem settles_of_room (hstep : Rises step) : ∀ (rounds : Nat) (t : RowTy),
    (∀ a next, step t = .ok a → unionTy init a = .ok next → RowTy.Le t next) → t.room < rounds →
      Settles step init t (settle step init rounds t) := by
  intro rounds
  induction rounds with
  | zero => exact fun t _ hroom => absurd hroom (Nat.not_lt_zero _)
  | succ rounds ih =>
    intro t hup hroom
    rw [settle]
    cases ha : step t with
    | error e => exact .failed ha
    | ok a =>
      simp only [bind, Except.bind]
      split_ifs with hlen
      · exact .uneven ha hlen
      · cases hnext : unionTy init a with
        | error e =>
          rw [unionTy, if_neg hlen] at hnext
          cases hnext
        | ok next =>
          simp only
          split_ifs with hsame
          · obtain rfl := hsame
            exact .done ha hnext
          · have hle := hup a next ha hnext
            refine .again ha hnext hsame (ih next (fun a' next' ha' hnext' => ?_) ?_)
            · exact unionTy_mono (.refl init) (hstep hle ha ha') hnext hnext'
            · exact lt_of_lt_of_le (hle.room_lt (Ne.symm hsame)) (Nat.lt_succ_iff.1 hroom)

/-- **The rounds given are enough for the loop to end.** -/
theorem settle_settles (hstep : Rises step) (init : RowTy) :
    Settles step init init (settle step init (init.length + 1) init) :=
  settles_of_room hstep _ init (fun _ _ _ h => (unionTy_le h).1)
    (Nat.lt_succ_of_le init.room_le)

/-- What a loop ends on, the step types below, the seed too. -/
theorem Settles.fixed {r : Typed RowTy} (h : Settles step init t r) : ∀ {u}, r = .ok u →
    ∃ a, step u = .ok a ∧ unionTy init a = .ok u := by
  induction h with
  | failed => exact fun h => nomatch h
  | uneven => exact fun h => nomatch h
  | done ha hu =>
    intro u h
    cases h
    exact ⟨_, ha, hu⟩
  | again _ _ _ _ ih => exact ih

theorem settle_fixed (hstep : Rises step) {init u : RowTy}
    (h : settle step init (init.length + 1) init = .ok u) :
    ∃ a, step u = .ok a ∧ unionTy init a = .ok u := (settle_settles hstep init).fixed h

/-- A loop that starts below a type that the step and a wider seed stay below ends below
it. -/
theorem Settles.le (hstep : Rises step) {init' u a : RowTy} (hinit : init.Le init')
    (hu : step u = .ok a) (hfix : unionTy init' a = .ok u) {r : Typed RowTy} (h : Settles step init t r) :
    t.Le u → ∀ {v}, r = .ok v → RowTy.Le v u := by
  induction h with
  | failed => exact fun _ _ h => nomatch h
  | uneven => exact fun _ _ h => nomatch h
  | done =>
    intro ht v h
    cases h
    exact ht
  | again ha hnext _ _ ih =>
    exact fun ht => ih (unionTy_mono hinit (hstep ht ha hu) hnext hfix)

end Settle

/-! ## The checker respects the order -/

theorem colTy_ok {row : RowTy} {i : Nat} {ty : Ty} : colTy row i = .ok ty ↔ row[i]? = some ty := by
  unfold colTy
  cases row[i]? <;> simp

/-- Elements at one place of two lists related element by element. -/
theorem forall₂_getElem {α β : Type} {R : α → β → Prop} {as : List α} {bs : List β}
    (h : List.Forall₂ R as bs) : ∀ {i : Nat} {a : α} {b : β}, as[i]? = some a → bs[i]? = some b → R a b := by
  induction h with
  | nil => exact fun h => nomatch h
  | cons hab _ ih =>
    intro i a b ha hb
    cases i with
    | zero =>
      cases ha
      cases hb
      exact hab
    | succ i => exact ih ha hb

/-- A list is typed element by element. -/
theorem mapM_typed {α β : Type} {f : α → Typed β} : ∀ {as : List α} {bs : List β},
    as.mapM f = .ok bs → List.Forall₂ (fun a b => f a = .ok b) as bs := by
  intro as
  induction as with
  | nil =>
    intro bs h
    cases h
    exact .nil
  | cons a as ih =>
    intro bs h
    rw [List.mapM_cons] at h
    obtain ⟨b, hb, h⟩ := bind_ok h
    obtain ⟨bs', hbs, h⟩ := bind_ok h
    cases h
    exact .cons hb (ih hbs)

/-- Lists typed by two functions of which one types no more narrowly. -/
theorem mapM_mono {α : Type} {f g : α → Typed Ty} (hfg : ∀ a x y, f a = .ok x → g a = .ok y → x.Le y) :
    ∀ {as : List α} {xs ys : RowTy}, as.mapM f = .ok xs → as.mapM g = .ok ys → RowTy.Le xs ys := by
  intro as xs ys hx hy
  have hxs := mapM_typed hx
  have hys := mapM_typed hy
  clear hx hy
  induction hxs generalizing ys with
  | nil =>
    cases hys
    exact .nil
  | cons hx _ ih =>
    cases hys with
    | cons hy hrest => exact .cons (hfg _ _ _ hx hy) (ih hrest)

theorem colTy_mono {a b : RowTy} (h : a.Le b) (i : Nat) (x y : Ty) (hx : colTy a i = .ok x)
    (hy : colTy b i = .ok y) : x.Le y := forall₂_getElem h (colTy_ok.1 hx) (colTy_ok.1 hy)

theorem exprTy_mono {a b : RowTy} (h : a.Le b) (e : RowExpr) (x y : Ty) (hx : e.ty a = .ok x)
    (hy : e.ty b = .ok y) : x.Le y := by
  cases e with
  | col i => exact colTy_mono h i x y hx hy
  | lit v =>
    cases hx
    cases hy
    exact .refl _

theorem aggTy_mono {a b : RowTy} (h : a.Le b) {agg : Agg} {x y : Ty} (hx : agg.ty a = .ok x)
    (hy : agg.ty b = .ok y) : x.Le y := by
  cases agg with
  | count =>
    cases hx
    cases hy
    exact .refl _
  | sum c =>
    obtain ⟨tx, -, hx⟩ := bind_ok hx
    obtain ⟨ty, -, hy⟩ := bind_ok hy
    split_ifs at hx hy
    cases hx
    cases hy
    exact .refl _
  | min c => exact colTy_mono h c x y hx hy
  | max c => exact colTy_mono h c x y hx hy

/-- **A wider recursion variable types a plan no more narrowly.** -/
theorem synth_mono (env : TypeEnv) : ∀ (q : QueryIr) {r r' : Option RowTy} {t t' : RowTy},
    (∀ a ∈ r, ∀ b ∈ r', RowTy.Le a b) → synth env r q = .ok t → synth env r' q = .ok t' → t.Le t' := by
  intro q
  induction q with
  | rel r =>
    intro _ _ t t' _ ht ht'
    obtain rfl := Except.ok.inj (ht.symm.trans ht')
    exact .refl t
  | map input f ih =>
    intro _ _ t t' hr ht ht'
    obtain ⟨ti, hti, ht⟩ := bind_ok ht
    obtain ⟨ti', hti', ht'⟩ := bind_ok ht'
    exact mapM_mono (exprTy_mono (ih hr hti hti')) ht ht'
  | filter input pred ih =>
    intro _ _ t t' hr ht ht'
    obtain ⟨ti, hti, ht⟩ := bind_ok ht
    obtain ⟨ti', hti', ht'⟩ := bind_ok ht'
    obtain ⟨-, -, ht⟩ := bind_ok ht
    obtain ⟨-, -, ht'⟩ := bind_ok ht'
    cases ht
    cases ht'
    exact ih hr hti hti'
  | project input cols ih =>
    intro _ _ t t' hr ht ht'
    obtain ⟨ti, hti, ht⟩ := bind_ok ht
    obtain ⟨ti', hti', ht'⟩ := bind_ok ht'
    exact mapM_mono (colTy_mono (ih hr hti hti')) ht ht'
  | join left right lk rk ihl ihr =>
    intro _ _ t t' hr ht ht'
    obtain ⟨tl, htl, ht⟩ := bind_ok ht
    obtain ⟨tr, htr, ht⟩ := bind_ok ht
    obtain ⟨tl', htl', ht'⟩ := bind_ok ht'
    obtain ⟨tr', htr', ht'⟩ := bind_ok ht'
    split_ifs at ht ht'
    obtain ⟨-, -, ht⟩ := bind_ok ht
    obtain ⟨-, -, ht'⟩ := bind_ok ht'
    cases ht
    cases ht'
    exact List.rel_append (ihl hr htl htl') (ihr hr htr htr')
  | union a b iha ihb =>
    intro _ _ t t' hr ht ht'
    obtain ⟨ta, hta, ht⟩ := bind_ok ht
    obtain ⟨tb, htb, ht⟩ := bind_ok ht
    obtain ⟨ta', hta', ht'⟩ := bind_ok ht'
    obtain ⟨tb', htb', ht'⟩ := bind_ok ht'
    exact unionTy_mono (iha hr hta hta') (ihb hr htb htb') ht ht'
  | negate a ih => exact fun hr => ih hr
  | distinct a ih => exact fun hr => ih hr
  | reduce input key agg ih =>
    intro _ _ t t' hr ht ht'
    obtain ⟨ti, hti, ht⟩ := bind_ok ht
    obtain ⟨ti', hti', ht'⟩ := bind_ok ht'
    obtain ⟨cols, hcols, ht⟩ := bind_ok ht
    obtain ⟨cols', hcols', ht'⟩ := bind_ok ht'
    obtain ⟨a, ha, ht⟩ := bind_ok ht
    obtain ⟨a', ha', ht'⟩ := bind_ok ht'
    cases ht
    cases ht'
    have hle := ih hr hti hti'
    exact List.rel_append (mapM_mono (colTy_mono hle) hcols hcols')
      (.cons (aggTy_mono hle ha ha') .nil)
  | recur =>
    intro r r' t t' hr ht ht'
    cases r with
    | none => cases ht
    | some a =>
      cases r' with
      | none => cases ht'
      | some b =>
        cases ht
        cases ht'
        exact hr _ rfl _ rfl
  | inherit input col key ctx ih =>
    intro _ _ t t' hr ht ht'
    obtain ⟨ti, hti, ht⟩ := bind_ok ht
    obtain ⟨ti', hti', ht'⟩ := bind_ok ht'
    cases ht
    cases ht'
    exact List.rel_append (ih hr hti hti') (.cons (.refl _) .nil)
  | materialized plan into pre cursorRel key fold ih => exact fun hr => ih hr
  | iterate init step ihi ihs =>
    intro _ _ t t' hr ht ht'
    obtain ⟨ti, hti, ht⟩ := bind_ok ht
    obtain ⟨ti', hti', ht'⟩ := bind_ok ht'
    have hstep : Rises fun t => synth env (some t) step := fun hle ha ha' =>
      ihs (fun x hx y hy => by cases hx; cases hy; exact hle) ha ha'
    obtain ⟨u, hu, hfix⟩ := settle_fixed hstep ht'
    have hinit := ihi hr hti hti'
    exact (settle_settles hstep ti).le hstep hinit hu hfix (hinit.trans (unionTy_le hfix).1) ht

theorem synth_rises (env : TypeEnv) (step : QueryIr) : Rises fun t => synth env (some t) step :=
  fun hle ha ha' => synth_mono env step (fun x hx y hy => by cases hx; cases hy; exact hle) ha ha'

end Grmpl

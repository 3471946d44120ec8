import Grmpl.Diff.Shapes
import Grmpl.Lang.TypeOrder

/-!
# The rows of a typed plan

A row type can be read in more than one way: as the types of a row's cells, or only as
how many cells a row has at least. In any reading that respects the order of row types, a
plan with a row type, lowered, is evaluated within its rows and answers rows of its type.

* `Reading`: what a row type says of a row; `typesReading`, `widthReading`.
* `Query.Copied`: the stored copies of a plan answer what their plans do.
* `synth_keepsShape`: a typed plan keeps its type's shape.
* `row_type_sound`: **the checker is sound**, and its loop ends.
-/

namespace Grmpl

/-- A reading of row types: what a type says of a row, and of a cell. -/
structure Reading where
  row : RowTy → Tuple → Prop
  cell : Ty → Value → Prop
  get {ts : RowTy} {t : Tuple} {i : Nat} {ty : Ty} : row ts t → ts[i]? = some ty → ∃ v, t.cells[i]? = some v ∧ cell ty v
  made {ts vs} : List.Forall₂ cell ts vs → row ts ⟨vs⟩
  append {ts us t u} : row ts t → row us u → row (ts ++ us) (t.concat u)
  le {ts us t} : RowTy.Le ts us → row ts t → row us t
  lit (v : Value) : cell (valueTy v) v
  any (v : Value) : cell .any v

/-- Every cell inhabits its column's type, and there is a cell for every column. -/
def RowTy.Admits (ts : RowTy) (t : Tuple) : Prop :=
  List.Forall₂ (fun (ty : Ty) v => ty.admits v = true) ts t.cells

theorem Ty.Le.admits {a b : Ty} (h : a.Le b) {v : Value} (hv : a.admits v = true) :
    b.admits v = true := by
  rcases h with rfl | rfl
  · exact hv
  · cases v <;> rfl

theorem RowTy.Le.admits {ts us : RowTy} (h : ts.Le us) : ∀ {vs : List Value},
    List.Forall₂ (fun (ty : Ty) v => ty.admits v = true) ts vs →
      List.Forall₂ (fun (ty : Ty) v => ty.admits v = true) us vs := by
  induction h with
  | nil => exact fun h => h
  | cons hab _ ih =>
    intro vs h
    cases h with
    | cons hv hrest => exact .cons (hab.admits hv) (ih hrest)

/-- A row type as the types of a row's cells. -/
def typesReading : Reading where
  row := RowTy.Admits
  cell ty v := ty.admits v = true
  get {ts t i ty} h hi := by
    obtain ⟨hlt, -⟩ := List.getElem?_eq_some_iff.1 hi
    have hlt' : i < t.cells.length := h.length_eq ▸ hlt
    exact ⟨_, List.getElem?_eq_getElem hlt', forall₂_getElem h hi (List.getElem?_eq_getElem hlt')⟩
  made h := h
  append h h' := List.rel_append h h'
  le hle h := hle.admits h
  lit v := by cases v <;> rfl
  any v := by cases v <;> rfl

/-- A row type as a width. -/
def widthReading : Reading where
  row ts t := ts.length ≤ t.arity
  cell _ _ := True
  get {ts t i ty} h hi := by
    obtain ⟨hlt, -⟩ := List.getElem?_eq_some_iff.1 hi
    exact ⟨_, List.getElem?_eq_getElem (hlt.trans_le h), trivial⟩
  made h := h.length_eq.le
  append {ts us t u} h h' := by
    show (ts ++ us).length ≤ (t.cells ++ u.cells).length
    rw [List.length_append, List.length_append]
    exact Nat.add_le_add h h'
  le hle h := hle.length_eq ▸ h
  lit _ := trivial
  any _ := trivial

/-- The keys of a join that passes lie within its operands. -/
theorem checkJoinKeys_ok {tl tr : RowTy} : ∀ {lk rk : List Nat} {pos : Nat},
    checkJoinKeys tl tr pos lk rk = .ok () → lk.length = rk.length →
      (∀ c ∈ lk, c < tl.length) ∧ ∀ c ∈ rk, c < tr.length := by
  intro lk
  induction lk with
  | nil =>
    intro rk pos _ hlen
    obtain rfl := List.length_eq_zero_iff.1 hlen.symm
    exact ⟨fun _ h => absurd h (by simp), fun _ h => absurd h (by simp)⟩
  | cons l lk ih =>
    intro rk pos h hlen
    cases rk with
    | nil => cases hlen
    | cons r rk =>
      obtain ⟨lt, hl, h⟩ := bind_ok h
      obtain ⟨rt, hr, h⟩ := bind_ok h
      split_ifs at h
      obtain ⟨hlk, hrk⟩ := ih h (Nat.succ.inj hlen)
      exact ⟨List.forall_mem_cons.2 ⟨(List.getElem?_eq_some_iff.1 (colTy_ok.1 hl)).1, hlk⟩,
        List.forall_mem_cons.2 ⟨(List.getElem?_eq_some_iff.1 (colTy_ok.1 hr)).1, hrk⟩⟩

namespace Reading

variable {R : Reading} {ts us : RowTy} {t : Tuple}

/-! ## What the checker rules out -/

theorem col (h : R.row ts t) {i : Nat} {ty : Ty} (hi : colTy ts i = .ok ty) :
    ∃ v, t.cells[i]? = some v ∧ R.cell ty v := R.get h (colTy_ok.1 hi)

theorem expr (h : R.row ts t) {e : RowExpr} {ty : Ty} (he : e.ty ts = .ok ty) :
    ∃ v, e.eval t = some v ∧ R.cell ty v := by
  cases e with
  | col i => exact R.col h he
  | lit v =>
    cases he
    exact ⟨v, rfl, R.lit v⟩

/-- A list of questions about a row, typed, is answered by cells of the types. -/
theorem answers {α : Type} {f : α → Option Value} {g : α → Typed Ty}
    (hfg : ∀ a ty, g a = .ok ty → ∃ v, f a = some v ∧ R.cell ty v) : ∀ {as : List α} {tys : RowTy},
    as.mapM g = .ok tys → ∃ vs, as.mapM f = some vs ∧ List.Forall₂ R.cell tys vs := by
  intro as tys h
  have hall := mapM_typed h
  clear h
  induction hall with
  | nil => exact ⟨[], rfl, .nil⟩
  | cons ha _ ih =>
    obtain ⟨v, hv, hcell⟩ := hfg _ _ ha
    obtain ⟨vs, hvs, hcells⟩ := ih
    exact ⟨v :: vs, mapM_cons_some.2 ⟨v, vs, hv, hvs, rfl⟩, .cons hcell hcells⟩

theorem cols (h : R.row ts t) {cs : List Nat} {tys : RowTy} (hcs : cs.mapM (colTy ts) = .ok tys) :
    ∃ vs, t.key cs = some vs ∧ List.Forall₂ R.cell tys vs :=
  answers (fun _ _ hc => R.col h hc) hcs

mutual

/-- A predicate that passes has a value on every row of the type. -/
theorem pred (h : R.row ts t) : ∀ {p : PredExpr}, checkPred ts p = .ok () → (p.test t).isSome
  | .eq a b, hp => by
      rw [checkPred] at hp
      obtain ⟨ta, hta, hp⟩ := bind_ok hp
      obtain ⟨tb, htb, -⟩ := bind_ok hp
      obtain ⟨va, hva, -⟩ := R.expr h hta
      obtain ⟨vb, hvb, -⟩ := R.expr h htb
      simp [PredExpr.test, hva, hvb]
  | .and ps, hp => by
      rw [checkPred] at hp
      rw [PredExpr.test]
      exact preds h hp

theorem preds (h : R.row ts t) : ∀ {ps : List PredExpr}, checkPreds ts ps = .ok () →
    (PredExpr.testAll t ps).isSome
  | [], _ => by
      rw [PredExpr.testAll]
      rfl
  | p :: ps, hp => by
      rw [checkPreds] at hp
      obtain ⟨u, hp, hps⟩ := bind_ok hp
      obtain ⟨b, hb⟩ := Option.isSome_iff_exists.1 (pred h hp)
      rw [PredExpr.testAll, hb]
      cases b
      · rfl
      · exact preds h hps

end

theorem checkPreds_ok {ps : List PredExpr} : checkPreds ts ps = .ok () ↔ ∀ p ∈ ps, checkPred ts p = .ok () := by
  induction ps with
  | nil => simp [checkPreds]
  | cons p ps ih =>
    rw [checkPreds, List.forall_mem_cons, ← ih]
    cases checkPred ts p with
    | error e => exact ⟨fun h => (nomatch h), fun h => (nomatch h.1)⟩
    | ok u => exact ⟨fun h => ⟨rfl, h⟩, fun h => h.2⟩

/-- What a pushdown leaves of a predicate that passes, passes. -/
theorem checkPred_residual {p rest : PredExpr} (h : checkPred ts p = .ok ()) {k : Nat}
    (hrest : residualOf (conjunctsOf p) k = some rest) : checkPred ts rest = .ok () := by
  have hall : ∀ c ∈ conjunctsOf p, checkPred ts c = .ok () := by
    cases p with
    | eq a b => exact fun c hc => List.mem_singleton.1 hc ▸ h
    | and ps =>
      rw [checkPred] at h
      exact checkPreds_ok.1 h
  have hsub : ∀ c ∈ (conjunctsOf p).eraseIdx k, checkPred ts c = .ok () :=
    fun c hc => hall c (List.mem_of_mem_eraseIdx hc)
  unfold residualOf at hrest
  split at hrest
  · cases hrest
  · rename_i c hc
    cases hrest
    exact hsub _ (by rw [hc]; exact List.mem_singleton_self _)
  · cases hrest
    rw [checkPred]
    exact checkPreds_ok.2 hsub

theorem key_isSome (h : R.row ts t) {cs : List Nat} (hcs : ∀ c ∈ cs, c < ts.length) : (t.key cs).isSome := by
  obtain ⟨vs, hvs⟩ := mapM_isSome (f := fun c => t.cells[c]?) (l := cs) fun c hc => by
    obtain ⟨v, hv, -⟩ := R.get h (List.getElem?_eq_getElem (hcs c hc))
    exact hv ▸ rfl
  rw [Tuple.key, hvs]
  rfl

/-- A group of rows of a type is folded to a value of the aggregate's. -/
theorem agg {ms : List Tuple} (hms : ∀ t ∈ ms, R.row ts t) (hne : ms ≠ []) {agg : Agg} {ty : Ty}
    (hty : agg.ty ts = .ok ty) : ∃ v, foldAgg ms agg = some v ∧ R.cell ty v := by
  have hcol : ∀ {c : Nat} {ty : Ty}, colTy ts c = .ok ty →
      ∃ vs, ms.mapM (·.cells[c]?) = some vs ∧ vs ≠ [] ∧ ∀ v ∈ vs, R.cell ty v := by
    intro c ty hc
    obtain ⟨vs, hvs⟩ := mapM_isSome (f := fun t : Tuple => t.cells[c]?) (l := ms) fun t ht => by
      obtain ⟨v, hv, -⟩ := R.col (hms t ht) hc
      exact hv ▸ rfl
    refine ⟨vs, hvs, fun hnil => hne ?_, fun v hv => ?_⟩
    · have hlen := (mapM_some_iff.1 hvs).length_eq
      rwa [hnil, List.length_nil, List.length_eq_zero_iff] at hlen
    · obtain ⟨t, ht, htv⟩ := mem_of_mapM hvs hv
      obtain ⟨v', hv', hcell⟩ := R.col (hms t ht) hc
      rw [htv] at hv'
      cases hv'
      exact hcell
  cases agg with
  | count =>
    cases hty
    exact ⟨_, rfl, R.lit (.int _)⟩
  | sum c =>
    obtain ⟨tc, htc, hty⟩ := bind_ok hty
    split_ifs at hty
    cases hty
    obtain ⟨vs, hvs, -⟩ := hcol htc
    exact ⟨_, by rw [foldAgg, hvs, Option.map_some], R.lit (.int _)⟩
  | min c =>
    obtain ⟨vs, hvs, hvs', hcells⟩ := hcol hty
    obtain ⟨v, hv⟩ := Option.isSome_iff_exists.1 (List.isSome_min?_of_ne_nil hvs')
    exact ⟨v, by rw [foldAgg, hvs]; exact hv, hcells v (List.min?_mem hv)⟩
  | max c =>
    obtain ⟨vs, hvs, hvs', hcells⟩ := hcol hty
    obtain ⟨v, hv⟩ := Option.isSome_iff_exists.1 (List.isSome_max?_of_ne_nil hvs')
    exact ⟨v, by rw [foldAgg, hvs]; exact hv, hcells v (List.max?_mem hv)⟩

end Reading

/-! ## Stored copies -/

/-- Wherever a plan reads a stored copy, the copy answers what its own plan does, and is
read within its rows. -/
def Query.Copied (reader : EditionReader) : Query → Prop
  | .rel _ | .rangeRel .. | .rangeRelOn .. | .recur => True
  | .map input _ | .filter input _ | .project input _ | .negate input | .distinct input
  | .reduce input .. | .inherit input .. | .shared _ input => input.Copied reader
  | .join left right .. | .union left right | .iterate left right =>
      left.Copied reader ∧ right.Copied reader
  | .materialized plan into pre cursorRel key fold => plan.Copied reader ∧
      ∀ rows, storedView reader plan.baseRelations into pre cursorRel key = .ok (some rows) →
        ∃ fuel out, viewOf fold rows = some out ∧ evalSnapshotOn fuel plan reader = .ok out

/-- The rows of a copy are read within them. -/
theorem storedView_ne_panic {reader : EditionReader} {h : TraceStore} (hk : ReaderKeeps reader h)
    (rels : List RelId) (into : RelId) (pre : Tuple) (cursorRel : RelId) (key : Entity) :
    storedView reader rels into pre cursorRel key ≠ .error .panic := by
  have hstored : ∀ rows, storedRows reader into pre = .ok rows →
      ∀ e ∈ rows, e.1.cells.take pre.arity = pre.cells := by
    intro rows hrows e he
    unfold storedRows at hrows
    split at hrows
    · rename_i hnil
      rw [Tuple.arity, List.getLast?_eq_none_iff.1 hnil]
      rfl
    · rename_i last hlast
      split at hrows
      · rename_i next hnext
        obtain ⟨got, hgot, hperm⟩ := hk.readRange into pre ⟨pre.cells.dropLast ++ [next]⟩
        cases hgot.symm.trans hrows
        exact take_of_inRange hlast hnext (List.mem_filter.1 (hperm.mem_iff.1 he)).2
      · obtain ⟨all, hall, hkept⟩ := bind_ok (x := reader.read into) hrows
        cases hkept
        simpa using (List.mem_filter.1 he).2
  unfold storedView
  cases cursorAt reader cursorRel key with
  | error e => exact fun hpanic => by cases hpanic
  | ok c =>
    cases c with
    | none => exact fun hpanic => by cases hpanic
    | some cursor =>
      simp only [ask, bind, Except.bind]
      cases reader.touchedSince cursor rels with
      | error e => exact fun hpanic => by cases hpanic
      | ok touched =>
        cases touched with
        | true => exact fun hpanic => by cases hpanic
        | false =>
          cases hrows : storedRows reader into pre with
          | error e => exact fun hpanic => by cases hpanic
          | ok rows =>
            obtain ⟨out, hout⟩ := mapM_isSome (l := rows)
              (f := fun e => (e.1.drop? pre.arity).map (·, e.2)) fun e he => by
                have hlen := congrArg List.length (hstored rows hrows e he)
                rw [List.length_take] at hlen
                have hle : pre.arity ≤ e.1.arity := min_eq_left_iff.1 hlen
                rw [Tuple.drop?, if_pos hle]
                rfl
            simp [hout, inBounds, pure, Except.pure]

/-! ## The plan -/

section Plan

variable {R : Reading} {env : TypeEnv} {reader : EditionReader} {h : TraceStore}

/-- What a reader reads of a relation is rows of the relation's type. -/
def Reading.Stored (R : Reading) (env : TypeEnv) (h : TraceStore) (at' : Nat) : Prop :=
  ∀ rel ts, env.rel rel = .ok ts → Shaped (R.row ts) (h.rowsAt rel at')

theorem shaped_answer {P : Tuple → Prop} {x : Result Rows} {rows got : Rows} (ha : Answers x rows)
    (hgot : x = .ok got) (hrows : Shaped P rows) : Shaped P got := by
  obtain ⟨got', hgot', hperm⟩ := ha
  cases hgot'.symm.trans hgot
  exact fun e he => hrows e (hperm.mem_iff.1 he)

theorem shaped_keepRows {P : Tuple → Prop} {rows : Rows} (hrows : Shaped P rows) (p : Tuple → Bool) :
    Shaped P (keepRows p rows) := fun e he => hrows e (List.mem_filter.1 he).1

/-- A filter of a base relation keeps the relation's type, whatever of it was pushed
down. -/
theorem lowerFilter_keepsShape {w : Option (Tuple → Prop)} (hk : ReaderKeeps reader h) {r : RelId}
    {ts : RowTy} (hrows : Shaped (R.row ts) (h.rowsAt r reader.edition)) {p : PredExpr}
    (hp : checkPred ts p = .ok ()) : KeepsShape reader w (lowerFilter r p) (R.row ts) := by
  have hresidual : ∀ {base : Query} {k : Nat}, KeepsShape reader w base (R.row ts) →
      KeepsShape reader w (residualFilter base (residualOf (conjunctsOf p) k)) (R.row ts) := by
    intro base k hbase
    cases hrest : residualOf (conjunctsOf p) k with
    | none => exact hbase
    | some rest => exact .filter hbase fun t ht => R.pred ht (Reading.checkPred_residual hp hrest)
  have hpush : ∀ {want : Nat → Bool} {x : Nat × Value × Value × Option PredExpr},
      pushdown want p = some x → ∃ k, x.2.2.2 = residualOf (conjunctsOf p) k := by
    intro want x hx
    obtain ⟨k, -, hx⟩ := Option.bind_eq_some_iff.1 hx
    obtain ⟨y, -, hx⟩ := Option.bind_eq_some_iff.1 hx
    cases hx
    exact ⟨k, rfl⟩
  unfold lowerFilter
  split
  · rename_i hx
    obtain ⟨k, hk'⟩ := hpush hx
    dsimp only at hk'
    rw [hk']
    exact hresidual (.rangeRel fun rows hr =>
      shaped_answer (hk.readRange r _ _) hr (shaped_keepRows hrows _))
  · split
    · rename_i hx
      obtain ⟨k, hk'⟩ := hpush hx
      dsimp only at hk'
      rw [hk']
      exact hresidual (.rangeRelOn fun rows hr =>
        shaped_answer (hk.readRangeOn r _ _ _) hr (shaped_keepRows hrows _))
    · exact .filter (.rel fun rows hr => shaped_answer (hk.read r) hr hrows) fun t ht => R.pred ht hp

/-- **A typed plan keeps the shape of its type.** -/
theorem synth_keepsShape (hk : ReaderKeeps reader h) (hstored : R.Stored env h reader.edition) :
    ∀ {q : QueryIr} {recur : Option RowTy} {ts : RowTy}, synth env recur q = .ok ts →
      q.lower.Copied reader → KeepsShape reader (recur.map R.row) q.lower (R.row ts) := by
  intro q
  induction q with
  | rel r =>
    exact fun ht _ => .rel fun rows hr => shaped_answer (hk.read r) hr (hstored r _ ht)
  | map input f ih =>
    intro recur ts ht hc
    obtain ⟨ti, hti, ht⟩ := bind_ok ht
    refine .map (ih hti hc) fun t hrow => ?_
    obtain ⟨vs, hvs, hcells⟩ := Reading.answers (fun e ty he => R.expr hrow he) ht
    exact ⟨⟨vs⟩, by rw [MapExpr.apply, hvs, Option.map_some], R.made hcells⟩
  | filter input p ih =>
    intro recur ts ht hc
    obtain ⟨ti, hti, ht⟩ := bind_ok ht
    obtain ⟨_, hp, ht⟩ := bind_ok ht
    cases ht
    cases input with
    | rel r => exact lowerFilter_keepsShape hk (hstored r _ hti) hp
    | _ => exact .filter (ih hti hc) fun t hrow => R.pred hrow hp
  | project input cols ih =>
    intro recur ts ht hc
    obtain ⟨ti, hti, ht⟩ := bind_ok ht
    refine .project (ih hti hc) fun t hrow => ?_
    obtain ⟨vs, hvs, hcells⟩ := R.cols hrow ht
    exact ⟨⟨vs⟩, by rw [Tuple.project, hvs, Option.map_some], R.made hcells⟩
  | join left right lk rk ihl ihr =>
    intro recur ts ht hc
    obtain ⟨tl, htl, ht⟩ := bind_ok ht
    obtain ⟨tr, htr, ht⟩ := bind_ok ht
    split_ifs at ht with hlen
    obtain ⟨_, hkeys, ht⟩ := bind_ok ht
    cases ht
    obtain ⟨hlk, hrk⟩ := checkJoinKeys_ok hkeys (not_not.1 hlen)
    refine .join (ihl htl hc.1) (ihr htr hc.2) (fun t hrow => ?_) (fun t hrow => ?_)
      fun a b ha hb => R.append ha hb
    · exact R.key_isSome hrow hlk
    · exact R.key_isSome hrow hrk
  | union a b iha ihb =>
    intro recur ts ht hc
    obtain ⟨ta, hta, ht⟩ := bind_ok ht
    obtain ⟨tb, htb, ht⟩ := bind_ok ht
    obtain ⟨hla, hlb⟩ := unionTy_le ht
    exact .union (.weaken (iha hta hc.1) fun _ => R.le hla) (.weaken (ihb htb hc.2) fun _ => R.le hlb)
  | negate a ih => exact fun ht hc => .negate (ih ht hc)
  | distinct a ih => exact fun ht hc => .distinct (ih ht hc)
  | reduce input key agg ih =>
    intro recur ts ht hc
    obtain ⟨ti, hti, ht⟩ := bind_ok ht
    obtain ⟨cols, hcols, ht⟩ := bind_ok ht
    obtain ⟨ty, hty, ht⟩ := bind_ok ht
    cases ht
    refine .reduce (ih hti hc) (fun t hrow => ?_) fun t ms hrow hms hne => ?_
    · obtain ⟨vs, hvs, -⟩ := R.cols hrow hcols
      exact hvs ▸ rfl
    · obtain ⟨v, hv, hcell⟩ := R.agg hms hne hty
      refine ⟨v, hv, fun k hkey => ?_⟩
      obtain ⟨vs, hvs, hcells⟩ := R.cols hrow hcols
      obtain rfl := Option.some.inj (hvs.symm.trans hkey)
      exact R.made (List.rel_append hcells (.cons hcell .nil))
  | recur =>
    intro recur ts ht _
    cases recur with
    | none => cases ht
    | some t =>
      cases ht
      exact .recur
  | inherit input col key ctx ih =>
    intro recur ts ht hc
    obtain ⟨ti, hti, ht⟩ := bind_ok ht
    cases ht
    exact .inherit col key ctx (ih hti hc) fun t v hrow =>
      R.append hrow (R.made (.cons (R.any v) .nil))
  | materialized plan into pre cursorRel key fold ih =>
    intro recur ts ht hc
    have hplan := ih ht hc.1
    refine .materialized hplan (fun rows hrows => ?_) (storedView_ne_panic hk _ _ _ _ _)
    obtain ⟨fuel, out, hout, heval⟩ := hc.2 rows hrows
    exact ⟨out, hout, ((keepsShape_meets hplan none nofun) _).2 out heval⟩
  | iterate init step ihi ihs =>
    intro recur ts ht hc
    obtain ⟨ti, hti, ht⟩ := bind_ok ht
    obtain ⟨ta, hta, hfix⟩ := settle_fixed (synth_rises env step) ht
    obtain ⟨hli, hls⟩ := unionTy_le hfix
    exact .iterate (.weaken (ihi hti hc.1) fun _ => R.le hli)
      (.weaken (ihs hta hc.2) fun _ => R.le hls)

end Plan

/-! ## The checker is sound -/

/-- A checker that needs schemas types a relation by its schema. -/
theorem TypeEnv.rel_ok {schemaAt : RelId → Result (Option Schema)} {rel : RelId} {ts : RowTy}
    (h : (TypeEnv.mk schemaAt none).rel rel = .ok ts) :
    ∃ schema, schemaAt rel = .ok (some schema) ∧ ts = RowTy.fromSchema schema := by
  unfold TypeEnv.rel at h
  split at h
  · cases h
  · rename_i schema hschema
    cases h
    exact ⟨schema, hschema, rfl⟩
  · cases h

/-- Rows that conform to their relations' schemas are stored as their types say. -/
theorem stored_of_conforms {schemaAt : RelId → Result (Option Schema)} {h : TraceStore} {at' : Nat}
    (hconf : ∀ rel schema, schemaAt rel = .ok (some schema) →
      ∀ e ∈ h.rowsAt rel at', schema.Conforms e.1) :
    typesReading.Stored ⟨schemaAt, none⟩ h at' := by
  intro rel ts hts e he
  obtain ⟨schema, hschema, rfl⟩ := TypeEnv.rel_ok hts
  exact List.forall₂_map_left_iff.2 (hconf rel schema hschema e he)

/-- **Row types are sound.** Over rows that conform to the schemas in force, a plan with a
row type is evaluated within its rows, and every row of its answer inhabits the type; and
the checker's loop over an iteration ends, for every plan. -/
theorem row_type_sound {schemaAt : RelId → Result (Option Schema)} {s : DynTraceStore} {h : TraceStore}
    (hk : Keeps s h) {at' : Nat} (hlive : h.watermark ≤ at')
    (hconf : ∀ rel schema, schemaAt rel = .ok (some schema) →
      ∀ e ∈ h.rowsAt rel at', schema.Conforms e.1)
    {q : QueryIr} {ts : RowTy} (ht : checkQuery q schemaAt = .ok ts)
    (hcopy : q.lower.Copied (s.readerAt at')) :
    (∀ fuel, evalSnapshot fuel q.lower s at' ≠ .error .panic ∧
      ∀ m, evalSnapshot fuel q.lower s at' = .ok m → ∀ e ∈ m.rows, ts.Admits e.1) ∧
    ∀ (env : TypeEnv) (recur : Option RowTy) (init step : QueryIr) (ti : RowTy),
      synth env recur init = .ok ti →
        Settles (fun t => synth env (some t) step) ti ti (synth env recur (.iterate init step)) := by
  obtain ⟨hed, hreader⟩ := hk.readerAt hlive
  refine ⟨fun fuel => ?_, fun env recur init step ti hti => ?_⟩
  · have hkeeps := synth_keepsShape (R := typesReading) hreader
      (hed.symm ▸ stored_of_conforms hconf) ht hcopy
    exact keepsShape_meets hkeeps none nofun _
  · have hsynth : synth env recur (.iterate init step)
        = settle (fun t => synth env (some t) step) ti (ti.length + 1) ti := by
      rw [synth, hti]
      rfl
    rw [hsynth]
    exact settle_settles (synth_rises env step) ti

/-- Pairs of entities. -/
def edgeSchema : Schema := ⟨[⟨"from", .ent⟩, ⟨"to", .ent⟩]⟩

/-- How many entities each one reaches. -/
def reachCount : QueryIr :=
  .reduce (.iterate (.rel 1) (.project (.join (.rel 1) .recur [1] [0]) [0, 3])) [0] .count

/-- Two entities that reach each other. -/
def loopStore : TraceStore :=
  TraceStore.empty.commit [(1, ⟨[.ent ⟨1⟩, .ent ⟨2⟩]⟩, 1), (1, ⟨[.ent ⟨2⟩, .ent ⟨1⟩]⟩, 1)]

/-- Relation 1 holds pairs of entities. -/
def edgeSchemas : RelId → Result (Option Schema) := fun rel => .ok (if rel = 1 then some edgeSchema else none)

theorem row_type_sound_reach : ∃ m, evalSnapshot 9 reachCount.lower loopStore.dyn 1 = .ok m ∧
    m.rows.length = 2 ∧ ∀ e ∈ m.rows, RowTy.Admits [.ent, .int] e.1 := by
  have hconf : ∀ rel schema, edgeSchemas rel = .ok (some schema) →
      ∀ e ∈ loopStore.rowsAt rel 1, schema.Conforms e.1 := by
    intro rel schema hs e he
    by_cases hrel : rel = 1
    · subst hrel
      obtain rfl := Option.some.inj (Except.ok.inj hs)
      have hrows : loopStore.rowsAt 1 1
          = [(⟨[.ent ⟨1⟩, .ent ⟨2⟩]⟩, 1), (⟨[.ent ⟨2⟩, .ent ⟨1⟩]⟩, 1)] := by
        decide +kernel
      rw [hrows] at he
      rcases List.mem_pair.1 he with rfl | rfl <;> exact Schema.check_eq_ok.1 rfl
    · exact absurd (Except.ok.inj hs) (by simp [hrel])
  have htyped : checkQuery reachCount edgeSchemas = .ok [.ent, .int] := by decide +kernel
  have heval : (evalSnapshot 9 reachCount.lower loopStore.dyn 1).toOption.map (·.rows.length) = some 2 := by
    decide +kernel
  have hsound := (row_type_sound loopStore.dyn_keeps (Nat.zero_le 1) hconf htyped
    ⟨trivial, trivial, trivial⟩).1 9
  cases hm : evalSnapshot 9 reachCount.lower loopStore.dyn 1 with
  | error f =>
      rw [hm] at heval
      cases heval
  | ok m =>
      rw [hm] at heval
      exact ⟨m, rfl, Option.some.inj heval, hsound.2 m hm⟩

end Grmpl

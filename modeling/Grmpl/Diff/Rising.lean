import Grmpl.Diff.Arranged
import Grmpl.Lib.ZSetOrder

/-!
# Plans that rise with their recursion variable

Every operator but negation and the join keeps the order of the rows it is given, whatever
their weights; negation turns it, and a join keeps it where what stands on its other side
weighs nothing less than nothing.

* `mapped_den` and its like: the operators, in what their rows denote.
* `Query.Recurs`, `Query.Solid`, `Query.Rises`: what a plan's shape says of its answers.
* `rises_answer`: a rising plan answers more, given more.
-/

open OrdMap

namespace Grmpl

/-! ## The operators, in what their rows denote -/

section Operators

variable {m l r out : Multiset}

/-- Entries sent on one by one, each to where its key is. -/
theorem total_mapM {f : Tuple → Option Tuple} {rows bs : Rows}
    (h : rows.mapM (fun e => (f e.1).map (·, e.2)) = some bs) :
    ZSet.total bs = ZSet.spread f (ZSet.total rows) := by
  rw [← ZSet.total_filterMap]
  congr 1
  have hall := mapM_some_iff.1 h
  induction hall with
  | nil => rfl
  | cons hab hrest ih =>
    simp only [List.filterMap_cons, hab, ← ih (mapM_some_iff.2 hrest)]

theorem mapped_den {f : Tuple → Option Tuple} (h : mapped f m = some out) :
    out.den = ZSet.spread f m.den := by
  obtain ⟨bs, hbs, rfl⟩ := Option.map_eq_some_iff.1 h
  rw [ZSet.den_ofPairs, total_mapM hbs]
  rfl

theorem filtered_den {p : Tuple → Option Bool} (h : filtered p m = some out) :
    out.den = ZSet.spread (fun t => if (p t).getD false = true then some t else none) m.den := by
  obtain ⟨bs, hbs, rfl⟩ := Option.map_eq_some_iff.1 h
  show ZSet.total (m.rows.filter fun e => (p e.1).getD false) = ZSet.spread _ (ZSet.total m.rows)
  rw [← ZSet.total_filterMap, ← List.filterMap_eq_filter]
  congr 1
  refine List.filterMap_congr fun e _ => ?_
  by_cases he : (p e.1).getD false = true <;> simp [he, Option.guard]

/-- Two rows that meet on their keys, concatenated. -/
def meets (lk rk : List Nat) (a b : Tuple) : Option Tuple :=
  if b.key rk = a.key lk then some (a.concat b) else none

/-- One row with every row that meets it. -/
theorem total_meets {lk rk : List Nat} {a : Tuple} {k : List Value} (hk : a.key lk = some k) (w : ℤ) :
    ∀ {rows : Rows} {idx : List (List Value × Tuple × Diff)}, keyed rk rows = some idx →
      ZSet.total ((idx.filter fun r => r.1 = k).map fun r => (a.concat r.2.1, w * r.2.2)) =
        w • ZSet.spread (meets lk rk a) (ZSet.total rows) := by
  intro rows idx h
  have hall := mapM_some_iff.1 h
  induction hall with
  | nil => simp
  | @cons e x rows idx hab hrest ih =>
    obtain ⟨kb, hkb, rfl⟩ := Option.map_eq_some_iff.1 hab
    have hmeet : meets lk rk a e.1 = if kb = k then some (a.concat e.1) else none := by
      rw [meets, hkb, hk]
      simp only [Option.some.injEq]
    rw [ZSet.total_cons, map_add, smul_add, ← ih (mapM_some_iff.2 hrest), ZSet.spread_single, hmeet]
    by_cases hkk : kb = k
    · rw [List.filter_cons_of_pos (by simpa using hkk), List.map_cons, ZSet.total_cons, if_pos hkk]
      simp
    · rw [List.filter_cons_of_neg (by simpa using hkk), if_neg hkk]
      simp

theorem join_den {lk rk : List Nat} (hjoin : joinMultisets l lk r rk = some out) :
    out.den = ZSet.cross (meets lk rk) l.den r.den := by
  obtain ⟨idx, hidx, h⟩ := Option.bind_eq_some_iff.1 hjoin
  obtain ⟨ls, hls, h⟩ := Option.bind_eq_some_iff.1 h
  cases h
  rw [ZSet.den_ofPairs]
  show _ = ZSet.cross (meets lk rk) (ZSet.total l.rows) _
  have hall := mapM_some_iff.1 hls
  clear h hls hjoin
  generalize l.rows = rows at hall
  induction hall with
  | nil => simp
  | @cons e x rows ls hab hrest ih =>
    obtain ⟨k, hk, rfl⟩ := Option.map_eq_some_iff.1 hab
    rw [List.flatMap_cons, ZSet.total_append, ih, ZSet.total_cons, map_add, LinearMap.add_apply,
      ZSet.cross_single, total_meets hk e.2 hidx]
    rfl

/-- The value a row inherits, at its end. -/
def inherits (scopes : List Binding) (col : Nat) (t : Tuple) : Option Tuple := do
  let v ← t.cells[col]?
  let s ← innermost scopes v
  pure ⟨t.cells ++ [s.value]⟩

end Operators

/-! ## The scopes of a value -/

/-- Later to start, or then earlier to end, or then of less value. -/
def Binding.Above (a b : Binding) : Prop :=
  b.first < a.first ∨ b.first = a.first ∧ (a.last < b.last ∨ a.last = b.last ∧ a.value < b.value)

theorem Binding.cmp_gt {a b : Binding} : a.cmp b = .gt ↔ a.Above b := by
  unfold cmp Above
  rcases lt_trichotomy a.first b.first with h | h | h
  · simp [compare_lt_iff_lt.2 h, h.not_gt, h.ne']
  · rcases lt_trichotomy a.last b.last with h' | h' | h'
    · simp [h, compare_gt_iff_gt.2 h', h']
    · simp [h, h', compare_gt_iff_gt]
    · simp [h, compare_lt_iff_lt.2 h', h'.not_gt, h'.ne']
  · simp [compare_gt_iff_gt.2 h, h]

theorem Binding.Above.trans {a b c : Binding} (h : a.Above b) (h' : b.Above c) : a.Above c := by
  unfold Above at *
  rcases h with h | ⟨h, hl⟩ <;> rcases h' with h' | ⟨h', hl'⟩
  · exact .inl (h'.trans h)
  · exact .inl (h' ▸ h)
  · exact .inl (h ▸ h')
  · refine .inr ⟨h'.trans h, ?_⟩
    rcases hl with hl | ⟨hl, hv⟩ <;> rcases hl' with hl' | ⟨hl', hv'⟩
    · exact .inl (hl.trans hl')
    · exact .inl (hl' ▸ hl)
    · exact .inl (hl ▸ hl')
    · exact .inr ⟨hl.trans hl', hv.trans hv'⟩

theorem Binding.above_irrefl (a : Binding) : ¬ a.Above a := by
  rintro (h | ⟨-, h | ⟨-, h⟩⟩) <;> exact lt_irrefl _ h

/-- Neither is above the other: they are the same. -/
theorem Binding.eq_of_not_above {a b : Binding} (h : ¬ a.Above b) (h' : ¬ b.Above a) : a = b := by
  unfold Above at h h'
  push Not at h h'
  have hfirst : a.first = b.first := le_antisymm h.1 h'.1
  have hlast : a.last = b.last := le_antisymm (h'.2 hfirst).1 (h.2 hfirst.symm).1
  have hvalue : a.value = b.value :=
    le_antisymm ((h'.2 hfirst).2 hlast.symm) ((h.2 hfirst.symm).2 hlast)
  cases a
  cases b
  simp_all

/-- The scope that is kept is one of them, and none is above it. -/
theorem innermost_fold (scopes : List Binding) : ∀ best : Option Binding,
    ∀ b, scopes.foldl (fun best s => match best with
        | none => some s
        | some b => if b.cmp s = .gt then some b else some s) best = some b →
      (b ∈ scopes ∨ best = some b) ∧ (∀ s ∈ scopes, ¬ s.Above b) ∧ ∀ s ∈ best, ¬ s.Above b := by
  induction scopes with
  | nil =>
    intro best b h
    have hbest : best = some b := h
    refine ⟨.inr hbest, by simp, fun s hs => ?_⟩
    rw [hbest] at hs
    cases hs
    exact b.above_irrefl
  | cons x scopes ih =>
    intro best b h
    rw [List.foldl_cons] at h
    obtain ⟨hmem, hall, hbest⟩ := ih _ b h
    cases best with
    | none =>
      have hx : ¬ x.Above b := hbest x rfl
      refine ⟨.inl ?_, fun s hs => ?_, by simp⟩
      · rcases hmem with hmem | hmem
        · exact List.mem_cons_of_mem x hmem
        · cases hmem
          exact List.mem_cons_self
      · rcases List.mem_cons.1 hs with rfl | hs
        · exact hx
        · exact hall s hs
    | some y =>
      dsimp only at hbest hmem
      split_ifs at hbest hmem with hgt
      · have hy : ¬ y.Above b := hbest y rfl
        refine ⟨?_, fun s hs => ?_, fun s hs => by cases hs; exact hy⟩
        · rcases hmem with hmem | hmem
          · exact .inl (List.mem_cons_of_mem x hmem)
          · exact .inr hmem
        · rcases List.mem_cons.1 hs with rfl | hs
          · exact fun habove => hy ((Binding.cmp_gt.1 hgt).trans habove)
          · exact hall s hs
      · have hx : ¬ x.Above b := hbest x rfl
        refine ⟨.inl ?_, fun s hs => ?_, fun s hs => ?_⟩
        · rcases hmem with hmem | hmem
          · exact List.mem_cons_of_mem x hmem
          · cases hmem
            exact List.mem_cons_self
        · rcases List.mem_cons.1 hs with rfl | hs
          · exact hx
          · exact hall s hs
        · cases hs
          intro habove
          by_cases hxy : x.Above y
          · exact hx (hxy.trans habove)
          · exact hx (Binding.eq_of_not_above hxy (fun h => hgt (Binding.cmp_gt.2 h)) ▸ habove)

/-- A list of scopes has one that is kept, unless it is empty. -/
theorem innermost_fold_none {scopes : List Binding} : ∀ {best : Option Binding},
    scopes.foldl (fun best s => match best with
        | none => some s
        | some b => if b.cmp s = .gt then some b else some s) best = none → best = none ∧ scopes = [] := by
  induction scopes with
  | nil => exact fun h => ⟨h, rfl⟩
  | cons x scopes ih =>
    intro best h
    have hbest := (ih h).1
    cases best with
    | none => cases hbest
    | some y =>
      dsimp only at hbest
      split_ifs at hbest

/-- **The most specific scope does not depend on the order of the scopes**, nor on those the
value is not in. -/
theorem innermost_congr {scopes scopes' : List Binding} {v : Value}
    (h : ∀ s : Binding, s.first ≤ v → v ≤ s.last → (s ∈ scopes ↔ s ∈ scopes')) :
    innermost scopes v = innermost scopes' v := by
  have hin : ∀ s, s ∈ scopes.filter (fun s => s.first ≤ v && v ≤ s.last) ↔
      s ∈ scopes'.filter fun s => s.first ≤ v && v ≤ s.last := by
    intro s
    simp only [List.mem_filter, Bool.and_eq_true, decide_eq_true_eq]
    exact ⟨fun hs => ⟨(h s hs.2.1 hs.2.2).1 hs.1, hs.2⟩, fun hs => ⟨(h s hs.2.1 hs.2.2).2 hs.1, hs.2⟩⟩
  cases hb : innermost scopes v with
  | none =>
    have hnil := (innermost_fold_none hb).2
    have hnil' : scopes'.filter (fun s => s.first ≤ v && v ≤ s.last) = [] :=
      List.eq_nil_iff_forall_not_mem.2 fun s hs => by
        have := (hin s).2 hs
        rw [hnil] at this
        exact absurd this (by simp)
    rw [innermost, hnil']
    rfl
  | some b =>
    cases hb' : innermost scopes' v with
    | none =>
      have hmem := (innermost_fold _ _ _ hb).1.resolve_right nofun
      have := (hin b).1 hmem
      rw [(innermost_fold_none hb').2] at this
      exact absurd this (by simp)
    | some b' =>
      obtain ⟨hmem, hall, -⟩ := innermost_fold _ _ _ hb
      obtain ⟨hmem', hall', -⟩ := innermost_fold _ _ _ hb'
      rw [Binding.eq_of_not_above (hall' b ((hin b).1 (hmem.resolve_right nofun)))
        (hall b' ((hin b').2 (hmem'.resolve_right nofun)))]

/-- A live binding of a key is a row's. -/
theorem mem_scopesOf {key : Value} {ctx : Rows} {s : Binding} :
    s ∈ scopesOf key ctx ↔ ∃ w, 0 < w ∧ (⟨[s.first, s.last, key, s.value]⟩, w) ∈ ctx := by
  unfold scopesOf
  rw [List.mem_filterMap]
  constructor
  · rintro ⟨⟨⟨cells⟩, w⟩, he, hs⟩
    obtain ⟨he, hw⟩ := List.mem_filter.1 he
    split at hs
    · rename_i first last k v hcells
      split_ifs at hs with hk
      cases hs
      subst hk
      cases hcells
      exact ⟨w, by simpa using hw, he⟩
    · cases hs
  · rintro ⟨w, hw, he⟩
    exact ⟨_, List.mem_filter.2 ⟨he, by simpa using hw⟩, by simp⟩

/-- What the rows inherit from the scopes a reader finds around their values, they inherit
from the whole relation. -/
theorem inherit_read_den {reader : EditionReader} {hist : TraceStore} (hr : ReaderKeeps reader hist)
    {m : Multiset} {col : Nat} {ctx : RelId} {got : Rows}
    (hgot : reader.readContaining ctx 0 1 (distinctCells m col) = .ok got) (key : Value) :
    (inherit m col key got).den =
      ZSet.spread (inherits (scopesOf key (hist.rowsAt ctx reader.edition)) col) m.den := by
  obtain ⟨got', hgot', hperm⟩ := hr.readContaining ctx 0 1 (distinctCells m col)
  obtain rfl : got = got' := Except.ok.inj (hgot.symm.trans hgot')
  rw [inherit, ZSet.den_ofPairs]
  show _ = ZSet.spread _ (ZSet.total m.rows)
  rw [← ZSet.total_filterMap]
  congr 1
  refine List.filterMap_congr fun e he => ?_
  cases hv : e.1.cells[col]? with
  | none => simp [inherits, hv]
  | some v =>
    have hpoint : v ∈ distinctCells m col :=
      List.mem_dedup.2 (List.mem_insertionSort _ |>.2 (List.mem_filterMap.2 ⟨e, he, hv⟩))
    have hsame : innermost (scopesOf key got) v =
        innermost (scopesOf key (hist.rowsAt ctx reader.edition)) v := by
      refine innermost_congr fun s hfirst hlast => ?_
      rw [mem_scopesOf, mem_scopesOf]
      refine exists_congr fun w => and_congr_right fun _ => ?_
      rw [hperm.mem_iff, keepRows, List.mem_filter]
      refine and_iff_left ?_
      simp only [containsAny, List.getElem?_cons_zero, List.getElem?_cons_succ, List.any_eq_true,
        Bool.and_eq_true, decide_eq_true_eq]
      exact ⟨v, hpoint, hfirst, hlast⟩
    cases hs : innermost (scopesOf key (hist.rowsAt ctx reader.edition)) v with
    | none => simp [inherits, hv, hs, hsame.trans hs]
    | some s => simp [inherits, hv, hs, hsame.trans hs]

/-! ## What a plan's shape says of its answers -/

/-- A plan that names the value of the enclosing iteration. -/
def Query.Recurs : Query → Bool
  | .recur => true
  | .rel _ | .rangeRel .. | .rangeRelOn .. | .iterate .. => false
  | .map input _ | .filter input _ | .project input _ | .negate input | .distinct input | .reduce input ..
  | .inherit input .. | .materialized input .. | .shared _ input => input.Recurs
  | .join l r .. | .union l r => l.Recurs || r.Recurs

section Shape

variable (reader : EditionReader)

/-- No row of a plan weighs less than nothing: those it reads do not, and it negates none
but under a distinct. -/
def Query.Solid : Query → Prop
  | .rel r => ∀ rows, reader.read r = .ok rows → 0 ≤ ZSet.total rows
  | .rangeRel r lo hi => ∀ rows, reader.readRange r lo hi = .ok rows → 0 ≤ ZSet.total rows
  | .rangeRelOn r col lo hi => ∀ rows, reader.readRangeOn r col lo hi = .ok rows → 0 ≤ ZSet.total rows
  | .map input _ | .filter input _ | .project input _ | .inherit input .. | .materialized input ..
  | .shared _ input => input.Solid
  | .join l r .. | .union l r => l.Solid ∧ r.Solid
  | .distinct _ | .recur | .iterate .. => True
  | .negate _ | .reduce .. => False

/-- A plan whose rows weigh more, or no more, as the iteration's value grows: it names it
under evenly many negations, or oddly many, and joins it with what weighs nothing less
than nothing. -/
def Query.Rises : Bool → Query → Prop
  | up, .recur => up = true
  | _, .rel _ | _, .rangeRel .. | _, .rangeRelOn .. | _, .iterate .. => True
  | up, .map input _ | up, .filter input _ | up, .project input _ | up, .inherit input ..
  | up, .distinct input | up, .materialized input .. | up, .shared _ input => input.Rises up
  | up, .negate input => input.Rises (!up)
  | up, .union l r => l.Rises up ∧ r.Rises up
  | up, .join l r .. => l.Rises up ∧ r.Rises up ∧ (l.Recurs = true → r.Solid reader) ∧
      (r.Recurs = true → l.Solid reader)
  | _, .reduce input .. => input.Recurs = false

end Shape

section Answers

variable {fuel : Nat} {reader : EditionReader} {q : Query} {S S' m m' : Multiset}

theorem ask_ok {α : Type} {x : Result α} {a : α} (h : ask x = .ok a) : x = .ok a := by
  cases x with
  | error e => cases h
  | ok b => exact congrArg Except.ok (Except.ok.inj h)

theorem inBounds_ok {α : Type} {x : Option α} {a : α} (h : inBounds x = .ok a) : x = some a := by
  cases x with
  | none => cases h
  | some b => exact congrArg some (Except.ok.inj h)

/-- A plan that does not name the iteration's value answers alike whatever it is. -/
theorem answer_fixed : ∀ {q : Query}, q.Recurs = false →
    answerOf fuel reader (some S) q = answerOf fuel reader (some S') q := by
  intro q
  induction q with
  | recur => exact fun h => nomatch h
  | rel _ | rangeRel _ _ _ | rangeRelOn _ _ _ _ | iterate _ _ _ _ => exact fun _ => rfl
  | map input f ih | filter input pred ih | project input cols ih | negate input ih | distinct input ih
  | reduce input key agg ih | inherit input col key ctx ih => exact fun h => by simp only [answerOf, ih h]
  | materialized plan into pre cursorRel key reduce ih => exact fun h => ih h
  | shared arc inner ih => exact fun h => ih h
  | join l r lk rk ihl ihr | union l r ihl ihr =>
    intro h
    obtain ⟨hl, hr⟩ := Bool.or_eq_false_iff.1 h
    simp only [answerOf, ihl hl, ihr hr]

/-- The rounds end at a set, if they start from one. -/
theorem roundsFrom_nonneg {step : Multiset → Except Fault Multiset} {initVal : Multiset} :
    ∀ {n : Nat} {r out : Multiset}, roundsFrom step initVal n r = .ok out → 0 ≤ r.den → 0 ≤ out.den := by
  intro n
  induction n with
  | zero => exact fun h => nomatch h
  | succ n ih =>
    intro r out h hr
    obtain ⟨stepped, -, h⟩ := bind_ok h
    dsimp only at h
    split_ifs at h
    · cases h
      exact hr
    · exact ih h (ZSet.positive_nonneg _)

/-- **No row of a solid plan's answer weighs less than nothing.** -/
theorem solid_answer {hist : TraceStore} (hr : ReaderKeeps reader hist) (hS : 0 ≤ S.den) :
    ∀ {q : Query} {m : Multiset}, q.Solid reader → answerOf fuel reader (some S) q = .ok m → 0 ≤ m.den := by
  intro q
  induction q with
  | rel _ | rangeRel _ _ _ | rangeRelOn _ _ _ _ =>
    intro m hq h
    obtain ⟨rows, hrows, h⟩ := bind_ok h
    cases h
    rw [ZSet.den_ofPairs]
    exact hq rows (ask_ok hrows)
  | map input f ih =>
    intro m hq h
    obtain ⟨a, ha, h⟩ := bind_ok h
    rw [mapped_den (inBounds_ok h)]
    exact ZSet.spread_nonneg f (ih hq ha)
  | filter input pred ih =>
    intro m hq h
    obtain ⟨a, ha, h⟩ := bind_ok h
    rw [filtered_den (inBounds_ok h)]
    exact ZSet.spread_nonneg _ (ih hq ha)
  | project input cols ih =>
    intro m hq h
    obtain ⟨a, ha, h⟩ := bind_ok h
    rw [mapped_den (inBounds_ok h)]
    exact ZSet.spread_nonneg _ (ih hq ha)
  | join l r lk rk ihl ihr =>
    intro m hq h
    obtain ⟨a, ha, h⟩ := bind_ok h
    obtain ⟨b, hb, h⟩ := bind_ok h
    rw [join_den (inBounds_ok h)]
    exact ZSet.cross_nonneg _ (ihl hq.1 ha) (ihr hq.2 hb)
  | union l r ihl ihr =>
    intro m hq h
    obtain ⟨a, ha, h⟩ := bind_ok h
    obtain ⟨b, hb, h⟩ := bind_ok h
    cases h
    rw [ZSet.den_strip, ZSet.den_merge]
    exact add_nonneg (ihl hq.1 ha) (ihr hq.2 hb)
  | negate input ih => exact fun hq => hq.elim
  | distinct input ih =>
    intro m _ h
    obtain ⟨a, -, h⟩ := bind_ok h
    cases h
    exact ZSet.positive_nonneg a
  | reduce input key agg ih => exact fun hq => hq.elim
  | recur =>
    intro m _ h
    cases h
    exact hS
  | iterate init step ihi ihs =>
    intro m _ h
    simp only [answerOf] at h
    split_ifs at h
    obtain ⟨initVal, -, h⟩ := bind_ok h
    exact roundsFrom_nonneg h (ZSet.positive_nonneg _)
  | inherit input col key ctx ih =>
    intro m hq h
    obtain ⟨a, ha, h⟩ := bind_ok h
    obtain ⟨got, hgot, h⟩ := bind_ok h
    cases h
    rw [inherit_read_den hr (ask_ok hgot)]
    exact ZSet.spread_nonneg _ (ih hq ha)
  | materialized plan into pre cursorRel key reduce ih => exact fun hq h => ih hq h
  | shared arc inner ih => exact fun hq h => ih hq h

/-- In order, one way or the other. -/
def Ordered {α : Type} [LE α] (up : Bool) (v v' : α) : Prop := if up then v ≤ v' else v' ≤ v

theorem Ordered.refl {up : Bool} (v : Tuple →₀ ℤ) : Ordered up v v := by
  cases up <;> exact le_refl v

theorem Ordered.trans {up : Bool} {u v w : Tuple →₀ ℤ} (h : Ordered up u v) (h' : Ordered up v w) :
    Ordered up u w := by
  cases up
  · exact le_trans (show w ≤ v from h') h
  · exact le_trans (show u ≤ v from h) h'

/-- What keeps an order keeps it either way. -/
theorem Ordered.map {up : Bool} {v v' : Tuple →₀ ℤ} {f : (Tuple →₀ ℤ) → (Tuple →₀ ℤ)}
    (h : Ordered up v v') (hf : ∀ u u', u ≤ u' → f u ≤ f u') : Ordered up (f v) (f v') := by
  cases up <;> exact hf _ _ h

theorem Ordered.add {up : Bool} {u u' v v' : Tuple →₀ ℤ} (h : Ordered up u u') (h' : Ordered up v v') :
    Ordered up (u + v) (u' + v') := by
  cases up <;> exact add_le_add h h'

theorem Ordered.neg {up : Bool} {v v' : Tuple →₀ ℤ} (h : Ordered (!up) v v') : Ordered up (-v) (-v') := by
  cases up <;> exact neg_le_neg h

/-- **A plan that rises answers more, given more**, and one that sinks no more. -/
theorem rises_answer {hist : TraceStore} (hr : ReaderKeeps reader hist) (hS : 0 ≤ S.den) (hle : S ≤ S') :
    ∀ {q : Query} {up : Bool} {m m' : Multiset}, q.Rises reader up →
      answerOf fuel reader (some S) q = .ok m → answerOf fuel reader (some S') q = .ok m' →
      Ordered up m.den m'.den := by
  intro q
  induction q with
  | rel _ | rangeRel _ _ _ | rangeRelOn _ _ _ _ | iterate _ _ _ _ =>
    intro up m m' _ h h'
    cases h.symm.trans h'
    exact .refl _
  | map input f ih | project input cols ih =>
    intro up m m' hq h h'
    obtain ⟨a, ha, h⟩ := bind_ok h
    obtain ⟨a', ha', h'⟩ := bind_ok h'
    rw [mapped_den (inBounds_ok h), mapped_den (inBounds_ok h')]
    exact (ih hq ha ha').map fun _ _ => ZSet.spread_mono _
  | filter input pred ih =>
    intro up m m' hq h h'
    obtain ⟨a, ha, h⟩ := bind_ok h
    obtain ⟨a', ha', h'⟩ := bind_ok h'
    rw [filtered_den (inBounds_ok h), filtered_den (inBounds_ok h')]
    exact (ih hq ha ha').map fun _ _ => ZSet.spread_mono _
  | join l r lk rk ihl ihr =>
    intro up m m' hq h h'
    obtain ⟨hl, hr', hsr, hsl⟩ := hq
    obtain ⟨a, ha, h⟩ := bind_ok h
    obtain ⟨b, hb, h⟩ := bind_ok h
    obtain ⟨a', ha', h'⟩ := bind_ok h'
    obtain ⟨b', hb', h'⟩ := bind_ok h'
    rw [join_den (inBounds_ok h), join_den (inBounds_ok h')]
    -- first the left side moves, then the right
    have hleft : Ordered up (ZSet.cross (meets lk rk) a.den b.den)
        (ZSet.cross (meets lk rk) a'.den b.den) := by
      cases hrec : l.Recurs with
      | false =>
        cases ha.symm.trans ((answer_fixed hrec).trans ha')
        exact .refl _
      | true =>
        have hb0 := solid_answer hr hS (hsr hrec) hb
        exact (ihl hl ha ha').map (f := fun v => ZSet.cross (meets lk rk) v b.den)
          fun _ _ hv => ZSet.cross_mono_left _ hv hb0
    have hright : Ordered up (ZSet.cross (meets lk rk) a'.den b.den)
        (ZSet.cross (meets lk rk) a'.den b'.den) := by
      cases hrec : r.Recurs with
      | false =>
        cases hb.symm.trans ((answer_fixed hrec).trans hb')
        exact .refl _
      | true =>
        have ha0 := solid_answer hr (hS.trans hle) (hsl hrec) ha'
        exact (ihr hr' hb hb').map fun _ _ => ZSet.cross_mono_right _ ha0
    exact hleft.trans hright
  | union l r ihl ihr =>
    intro up m m' hq h h'
    obtain ⟨a, ha, h⟩ := bind_ok h
    obtain ⟨b, hb, h⟩ := bind_ok h
    obtain ⟨a', ha', h'⟩ := bind_ok h'
    obtain ⟨b', hb', h'⟩ := bind_ok h'
    cases h
    cases h'
    rw [ZSet.den_strip, ZSet.den_strip, ZSet.den_merge, ZSet.den_merge]
    exact (ihl hq.1 ha ha').add (ihr hq.2 hb hb')
  | negate input ih =>
    intro up m m' hq h h'
    obtain ⟨a, ha, h⟩ := bind_ok h
    obtain ⟨a', ha', h'⟩ := bind_ok h'
    cases h
    cases h'
    rw [ZSet.den_negate, ZSet.den_negate]
    exact (ih hq ha ha').neg
  | distinct input ih =>
    intro up m m' hq h h'
    obtain ⟨a, ha, h⟩ := bind_ok h
    obtain ⟨a', ha', h'⟩ := bind_ok h'
    cases h
    cases h'
    have hord := ih hq ha ha'
    cases up
    · exact ZSet.positive_mono (m := a') (n := a) hord
    · exact ZSet.positive_mono (m := a) (n := a') hord
  | reduce input key agg ih =>
    intro up m m' hq h h'
    have hsame : answerOf fuel reader (some S) (input.reduce key agg) =
        answerOf fuel reader (some S') (input.reduce key agg) := answer_fixed hq
    cases h.symm.trans (hsame.trans h')
    exact .refl _
  | recur =>
    intro up m m' hq h h'
    cases h
    cases h'
    subst hq
    exact hle
  | inherit input col key ctx ih =>
    intro up m m' hq h h'
    obtain ⟨a, ha, h⟩ := bind_ok h
    obtain ⟨a', ha', h'⟩ := bind_ok h'
    obtain ⟨got, hgot, h⟩ := bind_ok h
    obtain ⟨got', hgot', h'⟩ := bind_ok h'
    cases h
    cases h'
    rw [inherit_read_den hr (ask_ok hgot), inherit_read_den hr (ask_ok hgot')]
    exact (ih hq ha ha').map fun _ _ => ZSet.spread_mono _
  | materialized plan into pre cursorRel key reduce ih => exact fun hq h h' => ih hq h h'
  | shared arc inner ih => exact fun hq h h' => ih hq h h'

end Answers

end Grmpl

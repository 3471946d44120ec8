import Grmpl.Diff.Readers
import Grmpl.Ent.StoreLater

/-!
# Readers of an edition

A reader is taken of a store at an edition: it keeps the directory of relations as it stood
and answers from it, but for the spans of a column and for what moved since an edition, which
it asks the store.

* `EntReader`, `EntReader.answers`: a reader, and its answers over the store as it stands.
* `Inner.OnSettled`, `Inner.SinceSettled`: what it may ask the store later on.
* `Later.readRangeOn`, `Later.touchedSince`: those answers are what they were.
* `reader_isolated`: **a reader's answers stay what they were**, its plans' too.
-/

open OrdMap Runs Contents

namespace Grmpl

/-- A reader of an edition: the directory of relations when it was taken. -/
structure EntReader (F : Type) where
  rels : List (RelId × RelRoots F)
  at' : Nat
  watermark : Nat

/-- A reader taken of a branch. -/
def Inner.readerAt {F : Type} (i : Inner F) (at' : Nat) : EntReader F := ⟨i.rels, at', i.watermark⟩

namespace EntReader

variable {F : Type} [FactReads F]

omit [FactReads F] in
/-- The Fact root in force at the reader's edition. -/
def facts (r : EntReader F) (rel : RelId) : Option F :=
  (lookup rel r.rels).bind fun roots => Inner.lastLe r.at' roots.versions

/-- An answer, unless the edition was consolidated away when the reader was taken. -/
def behindDoor {α : Type} (r : EntReader F) (op : String) (a : α) : Result α :=
  if r.at' < r.watermark then .error (door op r.at' r.watermark) else .ok a

/-- A reader's answers, over the store as it stands. -/
def answers (r : EntReader F) (store : Inner F) : EditionReader where
  edition := r.at'
  read rel := r.behindDoor "read_at" (((r.facts rel).map FactEnf.iter).getD [])
  readRange rel lo hi := r.behindDoor "read_range" (((r.facts rel).map fun t => FactEnf.rangeCollect t lo hi).getD [])
  readRangeOn rel col lo hi := (store.readRangeOn rel r.at' col lo hi).2
  readContaining rel first last points := r.behindDoor "read_containing" (((r.facts rel).map fun t =>
    (Inner.stab t first last points).getD (keepRows (fun k => containsAny k first last points) (FactEnf.iter t))).getD [])
  touchedSince start rels := if r.at' ≤ start then .ok false else .ok (store.touchedSince start r.at' rels)

/-- The rows a reader answers from its own directory do not depend on the store. -/
theorem answers_agree (r : EntReader F) (i j : Inner F) : (r.answers i).Agrees (r.answers j) := ⟨rfl, rfl, rfl, rfl⟩

end EntReader

namespace Inner

variable {F : Type} [FactReads F] [OrdersRows F] {i j : Inner F} {rel : RelId} {at' col start : Nat} {rels : List RelId}

/-- **What a span of a column read at an edition needs to stay as it was**: the edition is not
consolidated away, and if it was the current one and is no more, so that a span of entities is
searched for and not read from an arrangement, the extents hold their rows. -/
structure OnSettled (i j : Inner F) (at' : Nat) (rel : RelId) (col : Nat) (lo hi : Value) : Prop where
  kept : j.watermark ≤ at'
  fits : col < 2 ^ 32
  covered : at' = i.current → i.current < j.current → col ≠ 0 → i.layoutOf rel = .ordered → lo.entId.isSome → hi.entId.isSome →
    ∀ t, i.factAt rel at' = some t → OrdersRows.Covered t

omit [FactReads F] [OrdersRows F] in
/-- **What the question of what moved since an edition needs**: that edition is not consolidated
away, or was already, or something did move. -/
def SinceSettled (i j : Inner F) (at' start : Nat) (rels : List RelId) : Prop :=
  at' ≤ start ∨ j.watermark ≤ start ∨ start < i.watermark ∨
    ∃ rel ∈ rels, ∃ l ∈ (i.rootsOr rel).log, start < (ofLex l.1).1 ∧ (ofLex l.1).1 ≤ at'

/-- The test of a search admits every extent that holds a row in the span. -/
theorem meets_of_holds {x : Extent} {t : Tuple} (h : x.Holds t) {e : Entity} (hc : t.cells[col]? = some (.ent e)) {lo hi : UInt64}
    (hlo : lo ≤ e.id) (hhi : e.id < hi) : x.meets col lo hi = true := by
  obtain ⟨b, hb, hb₀, hb₁⟩ := h col e hc
  simp only [Extent.meets, hb, Bool.and_eq_true, decide_eq_true_eq]
  exact ⟨UInt64.lt_of_le_of_lt hb₀ hhi, UInt64.le_trans hlo hb₁⟩

theorem Value.entId_eq {v : Value} {id : UInt64} (h : v.entId = some id) : v = .ent ⟨id⟩ := by
  cases v with
  | ent e =>
    obtain ⟨x⟩ := e
    cases h
    rfl
  | _ => cases h

/-- Between two entities there are only the entities between them. -/
theorem between_ents {lo hi c : Value} {l h : UInt64} (hlo : lo.entId = some l) (hhi : hi.entId = some h) :
    (lo ≤ c && c < hi) = (c.entId).any fun id => l ≤ id && id < h := by
  rw [Value.entId_eq hlo, Value.entId_eq hhi, Bool.eq_iff_iff]
  simp only [Bool.and_eq_true, decide_eq_true_eq, ← not_lt, ← compare_lt_iff_lt, Value.compare_def]
  cases c with
  | ent e =>
    simp only [Value.cmp, cmpEntity, Value.entId, Option.any_some, Bool.and_eq_true, decide_eq_true_eq, compare_lt_iff_lt,
      UInt64.le_iff_toNat_le, UInt64.lt_iff_toNat_lt, not_lt]
  | _ => simp [Value.cmp, Value.rank, Value.entId, compare_lt_iff_lt]

/-- **A search on extents that hold their rows** is a filter. -/
theorem searchBox_covered {t : F} {m : Rows} (ht : OrdersRows.Holds t m) (hcov : OrdersRows.Covered t) {lo hi : Value} {l h : UInt64}
    (hlo : lo.entId = some l) (hhi : hi.entId = some h) : searchBox t [(col, l, h)] = keepRows (inColumn col lo hi) m := by
  have hkeep : ∀ k : Tuple, inColumn col lo hi k = ((k.cells[col]?).bind Value.entId).any fun id => l ≤ id && id < h := by
    intro k
    unfold inColumn
    cases k.cells[col]? with
    | none => rfl
    | some c => exact between_ents hlo hhi
  unfold searchBox keepRows
  rw [OrdersRows.search ht hcov fun x e _ hk hx => ?_]
  · exact List.filter_congr fun e _ => by simp [hkeep]
  · simp only [List.all_cons, List.all_nil, Bool.and_true] at hk ⊢
    obtain ⟨id, hid, hin⟩ := Option.any_eq_true .. |>.1 hk
    obtain ⟨c, hc, hcid⟩ := Option.bind_eq_some_iff.1 hid
    rw [Value.entId_eq hcid] at hc
    simp only [Bool.and_eq_true, decide_eq_true_eq] at hin
    exact meets_of_holds hx hc hin.1 hin.2

/-- What was not written by an edition has no rows in any column's order. -/
theorem InOrder.readRangeOn_unwritten (h : i.InOrder i.current) (hw : i.watermark ≤ at') (hcol : col < 2 ^ 32)
    (hf : i.factAt rel at' = none) (lo hi : Value) : (i.readRangeOn rel at' col lo hi).2 = .ok [] := by
  by_cases hplain : col ≠ 0 ∧ i.layoutOf rel = .ordered ∧ at' = i.current
  · obtain ⟨hne, hl, rfl⟩ := hplain
    obtain ⟨rows, hrows, hperm⟩ := h.readRangeOn (not_lt.2 hw) hne hcol hl lo hi
    rw [rowsAt, hf] at hperm
    rw [hrows, List.perm_nil.1 hperm]
  · unfold Inner.readRangeOn
    rw [if_neg (not_lt.2 hw), hf]
    split_ifs with hne hl hat
    · rfl
    · rfl
    · cases lo.entId <;> cases hi.entId <;> rfl
    · refine absurd ⟨hne, ?_, not_not.1 hat⟩ hplain
      cases hlay : i.layoutOf rel with
      | ordered => rfl
      | kd => exact absurd hlay hl

/-- **A span of a column read at an edition stays as it was**, up to the order of the rows. -/
theorem Later.readRangeOn (h : Later i j) (hi' : i.InOrder i.current) (hj : j.InOrder j.current) (hw : i.watermark ≤ at')
    (hc : at' ≤ i.current) {lo hi : Value} (hs : OnSettled i j at' rel col lo hi) :
    Alike (i.readRangeOn rel at' col lo hi).2 (j.readRangeOn rel at' col lo hi).2 := by
  have hfact := h.fact rel at' hs.kept hc
  cases hf : i.factAt rel at' with
  | none =>
    rw [hf] at hfact
    rw [hi'.readRangeOn_unwritten hw hs.fits hf, hj.readRangeOn_unwritten hs.kept hs.fits hfact]
    exact .refl _
  | some t =>
    rw [hf] at hfact
    have hv : (i.rootsOr rel).versions ≠ [] := by
      intro hnil
      rw [factAt_eq, hnil] at hf
      cases hf
    obtain ⟨hlay, -⟩ := h.layout rel hv
    have hrows : j.rowsAt rel at' = i.rowsAt rel at' := by rw [rowsAt, rowsAt, hfact, hf]
    by_cases hcol : col = 0
    · refine .of_eq ?_
      rw [Inner.readRangeOn, Inner.readRangeOn, if_neg (not_lt.2 hw), if_neg (not_lt.2 hs.kept), if_pos hcol, if_pos hcol, hfact, hf]
    · cases hl : i.layoutOf rel with
      | kd =>
        refine .of_eq ?_
        rw [Inner.readRangeOn, Inner.readRangeOn, if_neg (not_lt.2 hw), if_neg (not_lt.2 hs.kept), if_neg hcol, if_neg hcol,
          if_pos hl, if_pos (hlay.trans hl), hfact, hf]
      | ordered =>
        rw [hl] at hlay
        have hkd : i.layoutOf rel ≠ .kd := by rw [hl]; decide
        have hkd' : j.layoutOf rel ≠ .kd := by rw [hlay]; decide
        by_cases hat : at' = i.current
        · subst hat
          obtain ⟨rows, hok, hperm⟩ := hi'.readRangeOn (not_lt.2 hw) hcol hs.fits hl lo hi
          rw [hok]
          rcases h.current.lt_or_eq with hlt | heq
          · obtain ⟨v, hmem, rfl⟩ := Option.map_eq_some_iff.1 (factAt_eq i rel i.current ▸ hf)
            obtain ⟨m, hm⟩ := (hi' rel).arranged hl v (List.mem_filter.1 (List.mem_of_getLast? hmem)).1
            have hrowsm : i.rowsAt rel i.current = m := by
              rw [rowsAt, hf]
              exact OrdersRows.iter hm
            rw [hrowsm] at hperm
            have hanswer : (j.readRangeOn rel i.current col lo hi).2 = .ok (keepRows (inColumn col lo hi) m) := by
              unfold Inner.readRangeOn
              rw [if_neg (not_lt.2 hs.kept), if_neg hcol, if_neg hkd', if_pos hlt.ne, hfact]
              cases hlo : lo.entId with
              | none => exact congrArg (fun r => Except.ok (keepRows _ r)) (OrdersRows.iter hm)
              | some l => cases hhi : hi.entId with
                | none => exact congrArg (fun r => Except.ok (keepRows _ r)) (OrdersRows.iter hm)
                | some u =>
                  have hcov := hs.covered rfl hlt hcol hl (hlo ▸ rfl) (hhi ▸ rfl) _ hf
                  exact congrArg Except.ok (searchBox_covered hm hcov hlo hhi)
            rw [hanswer]
            exact hperm
          · rw [heq] at hrows hperm ⊢
            obtain ⟨rows', hok', hperm'⟩ := hj.readRangeOn (not_lt.2 (heq ▸ hs.kept)) hcol hs.fits hlay lo hi
            rw [hok']
            exact hperm.trans (hrows ▸ hperm'.symm)
        · refine .of_eq ?_
          have hat' : at' ≠ j.current := by have := h.current; omega
          rw [Inner.readRangeOn, Inner.readRangeOn, if_neg (not_lt.2 hw), if_neg (not_lt.2 hs.kept), if_neg hcol, if_neg hcol,
            if_neg hkd, if_neg hkd', if_pos hat, if_pos hat', hfact, hf]
          cases lo.entId <;> cases hi.entId <;> rfl

omit [FactReads F] [OrdersRows F] in
/-- **Whether anything moved since an edition stays as it was.** -/
theorem Later.touchedSince (h : Later i j) (hc : at' ≤ i.current) (hs : SinceSettled i j at' start rels) (hlt : start < at') :
    j.touchedSince start at' rels = i.touchedSince start at' rels := by
  have hlog : ∀ k : Inner F, ∀ rel, ((k.roots rel).any fun r => 0 < (logBetween start at' r.log).length) =
      decide (0 < (logBetween start at' (k.rootsOr rel).log).length) := by
    intro k rel
    rw [rootsOr]
    cases k.roots rel <;> rfl
  have hsame : j.watermark ≤ start → j.touchedSince start at' rels = i.touchedSince start at' rels := by
    intro hw
    unfold Inner.touchedSince
    simp only [hlog]
    rw [if_neg (not_lt.2 hw), if_neg (not_lt.2 (h.watermark.trans hw))]
    exact List.any_congr rfl fun rel => by rw [h.log rel start at' hw hc]
  have htrue : ∀ k : Inner F, start < k.watermark → k.touchedSince start at' rels = true := fun k hw => if_pos hw
  rcases hs with hs | hs | hs | ⟨rel, hrel, l, hl, hstart, hup⟩
  · omega
  · exact hsame hs
  · rw [htrue i hs, htrue j (hs.trans_le h.watermark)]
  · by_cases hw : j.watermark ≤ start
    · exact hsame hw
    · rw [htrue j (not_le.1 hw)]
      refine Eq.symm ?_
      unfold Inner.touchedSince
      simp only [hlog]
      split_ifs
      · rfl
      · refine List.any_eq_true.2 ⟨rel, hrel, decide_eq_true (List.length_pos_of_mem (a := l) ?_)⟩
        simp only [logBetween, between, List.mem_filter, decide_eq_true_eq]
        refine ⟨hl, ?_, Prod.Lex.lt_iff.2 (.inl (Nat.lt_succ_of_le hup))⟩
        rcases (Nat.succ_le_of_lt hstart).lt_or_eq with hlt | heq
        · exact Prod.Lex.le_iff.2 (.inl hlt)
        · exact Prod.Lex.le_iff.2 (.inr ⟨heq, Nat.zero_le _⟩)

end Inner

/-- **Reader isolation**: whatever is done in the world after a reader was taken of a store, its
answers from its own directory are what they were; the span of a column it reads, and what moved
since an edition, are if they need nothing consolidated away; and so is any plan that asks only
these. -/
theorem reader_isolated {F N : Type} [FactReads F] [OrdersRows F] [Parts N Dsp] [DecidableEq N] [ContentTree F N]
    {w w' : Family F N} (hreach : Run Family.step Family.Plain Family.new w) {k : Nat} {b : BranchId} {s : BranchState F}
    (hk : w.stores[k]? = some (b, s)) {at' : Nat} (hw : s.inner.watermark ≤ at') (hc : at' ≤ s.inner.current)
    (hrun : Run Family.step Family.Plain w w') : ∃ s', w'.stores[k]? = some (b, s') ∧
      ((s.inner.readerAt at').answers s.inner).Agrees ((s.inner.readerAt at').answers s'.inner) ∧
      (∀ rel col lo hi, s.inner.OnSettled s'.inner at' rel col lo hi →
        Alike (((s.inner.readerAt at').answers s.inner).readRangeOn rel col lo hi)
          (((s.inner.readerAt at').answers s'.inner).readRangeOn rel col lo hi)) ∧
      (∀ start rels, s.inner.SinceSettled s'.inner at' start rels →
        ((s.inner.readerAt at').answers s'.inner).touchedSince start rels
          = ((s.inner.readerAt at').answers s.inner).touchedSince start rels) ∧
      ∀ fuel q, q.Asks (s.inner.OnSettled s'.inner at') (s.inner.SinceSettled s'.inner at')
          ((s.inner.readerAt at').answers s.inner) →
        evalSnapshotOn fuel q ((s.inner.readerAt at').answers s'.inner) = evalSnapshotOn fuel q ((s.inner.readerAt at').answers s.inner) := by
  obtain ⟨horder, hkept⟩ := Family.inOrder_run hreach
  obtain ⟨⟨horder', -⟩, s', hk', hlater⟩ := Family.later_run horder hkept hrun hk
  have hs := horder.stores _ (List.mem_of_getElem? hk)
  have hs' := horder'.stores _ (List.mem_of_getElem? hk')
  have hagrees := (s.inner.readerAt at').answers_agree s.inner s'.inner
  have hon : ∀ rel col lo hi, s.inner.OnSettled s'.inner at' rel col lo hi →
      Alike (((s.inner.readerAt at').answers s.inner).readRangeOn rel col lo hi)
        (((s.inner.readerAt at').answers s'.inner).readRangeOn rel col lo hi) :=
    fun _ _ _ _ hsettled => hlater.readRangeOn hs hs' hw hc hsettled
  have hsince : ∀ start rels, s.inner.SinceSettled s'.inner at' start rels →
      ((s.inner.readerAt at').answers s'.inner).touchedSince start rels
        = ((s.inner.readerAt at').answers s.inner).touchedSince start rels := by
    intro start rels hsettled
    show (if at' ≤ start then .ok false else .ok (s'.inner.touchedSince start at' rels) : Result Bool)
      = if at' ≤ start then .ok false else .ok (s.inner.touchedSince start at' rels)
    split_ifs with hle
    · rfl
    · rw [hlater.touchedSince hc hsettled (not_le.1 hle)]
  exact ⟨s', hk', hagrees, hon, hsince, fun fuel _ hq => evalSnapshotOn_agrees hagrees hon hsince fuel hq⟩

/-! ## An edition consolidated away under its reader -/

/-- A row put in a relation, and an edition later. -/
def firstRow : List FamilyAct := [.on 0 (.commit [] [(7, ⟨[.ent ⟨1⟩, .ent ⟨2⟩]⟩, 1)])]

def laterRow : List FamilyAct := [.on 0 (.commit [] [(7, ⟨[.ent ⟨3⟩, .ent ⟨2⟩]⟩, 1)]), .on 0 (.readOn 7 2 1 (.ent ⟨0⟩) (.ent ⟨9⟩))]

/-- A commit, or a read of a column there is room for. -/
def plainAct : FamilyAct → Bool
  | .on _ (.commit _ _) => true
  | .on _ (.readOn _ _ col _ _) => col < 2 ^ 32
  | _ => false

theorem plain_of_plainAct (w : Family FactRows FactRows) (a : FamilyAct) (h : plainAct a = true) : w.Plain a := by
  cases a with
  | index budget => cases h
  | on k a => cases a with
    | commit pre updates => trivial
    | readOn rel at' col lo hi => exact show col < 2 ^ 32 from of_decide_eq_true h
    | _ => cases h

theorem reader_isolated_sample : ∃ s s' : BranchState FactRows, s'.inner.current = 2 ∧
    (((s.inner.readerAt 1).answers s.inner).readRangeOn 7 1 (.ent ⟨0⟩) (.ent ⟨9⟩)).toOption = some [(⟨[.ent ⟨1⟩, .ent ⟨2⟩]⟩, 1)] ∧
    Alike (((s.inner.readerAt 1).answers s.inner).readRangeOn 7 1 (.ent ⟨0⟩) (.ent ⟨9⟩))
      (((s.inner.readerAt 1).answers s'.inner).readRangeOn 7 1 (.ent ⟨0⟩) (.ent ⟨9⟩)) := by
  have hfirst : Run Family.step Family.Plain (Family.new : Family FactRows FactRows)
      ((executeChecked Family.step (fun _ a => plainAct a) (Family.new : Family FactRows FactRows) firstRow).getD .new) :=
    .afterChecked (fun w a => plain_of_plainAct w a) (by decide +kernel)
  set w := (executeChecked Family.step (fun _ a => plainAct a) (Family.new : Family FactRows FactRows) firstRow).getD .new with hw
  have hran : (executeChecked Family.step (fun _ a => plainAct a) w laterRow).isSome = true := by
    rw [hw]
    decide +kernel
  have hlater : Run Family.step Family.Plain w ((executeChecked Family.step (fun _ a => plainAct a) w laterRow).getD .new) :=
    .afterChecked (fun w a => plain_of_plainAct w a) hran
  obtain ⟨y, hy, hkept, hnow⟩ : ∃ y, ((executeChecked Family.step (fun _ a => plainAct a) w laterRow).getD .new).stores[0]? = some y ∧
      y.2.inner.watermark ≤ 1 ∧ y.2.inner.current = 2 := by
    rw [hw]
    decide +kernel
  obtain ⟨⟨b, s⟩, hx, hwm, hcur, hrows⟩ : ∃ x, w.stores[0]? = some x ∧ x.2.inner.watermark ≤ 1 ∧ 1 ≤ x.2.inner.current ∧
      (((x.2.inner.readerAt 1).answers x.2.inner).readRangeOn 7 1 (.ent ⟨0⟩) (.ent ⟨9⟩)).toOption
        = some [(⟨[.ent ⟨1⟩, .ent ⟨2⟩]⟩, 1)] := by
    rw [hw]
    decide +kernel
  obtain ⟨s', hx', -, hon, -⟩ := reader_isolated hfirst hx hwm hcur hlater
  obtain rfl := Option.some.inj (hy.symm.trans hx')
  exact ⟨s, s', hnow, hrows, hon 7 1 _ _ ⟨hkept, by decide, fun _ _ _ _ _ _ _ _ => trivial⟩⟩

/-- **A span of a column read after its edition was consolidated away** is refused. -/
theorem reader_not_isolated : ¬ ∀ (w w' : Family FactRows FactRows) (k b : Nat) (s s' : BranchState FactRows) (at' : Nat),
    Run Family.step Any Family.new w → w.stores[k]? = some (b, s) → s.inner.watermark ≤ at' → at' ≤ s.inner.current →
      Run Family.step Any w w' → w'.stores[k]? = some (b, s') → ∀ rel col lo hi,
        Alike (((s.inner.readerAt at').answers s.inner).readRangeOn rel col lo hi)
          (((s.inner.readerAt at').answers s'.inner).readRangeOn rel col lo hi) := by
  intro h
  have hex : (execute Family.step (Family.new : Family FactRows FactRows) firstRow).isSome = true := by decide +kernel
  set w := after Family.step (Family.new : Family FactRows FactRows) firstRow with hw
  obtain ⟨⟨b, s⟩, hx, hb, hs, w', hw', ⟨b', s'⟩, hx', hb', hne⟩ : ∃ x, w.stores[0]? = some x ∧ x.1 = 0 ∧
      (x.2.inner.watermark ≤ 1 ∧ 1 ≤ x.2.inner.current ∧
        (((x.2.inner.readerAt 1).answers x.2.inner).readRangeOn 7 1 (.ent ⟨0⟩) (.ent ⟨9⟩)).toOption.isSome = true) ∧
      ∃ w', execute Family.step w [.on 0 (.commit [] []), .on 0 (.consolidate 2)] = some w' ∧ ∃ y, w'.stores[0]? = some y ∧ y.1 = 0 ∧
        (((x.2.inner.readerAt 1).answers y.2.inner).readRangeOn 7 1 (.ent ⟨0⟩) (.ent ⟨9⟩)).toOption = none := by
    rw [hw]
    decide +kernel
  dsimp only at hb hb'
  subst hb hb'
  have halike := h w w' 0 0 s s' 1 (.after hex) hx hs.1 hs.2.1 (.ofExecute _ _ hw') hx' 7 1 (.ent ⟨0⟩) (.ent ⟨9⟩)
  have hsome := halike.isSome
  rw [hs.2.2, hne] at hsome
  cases hsome

end Grmpl

import Grmpl.Diff.Stream
import Grmpl.Proc.Maintained
import Grmpl.Proc.Refresh

/-!
# Materializing a view changes no answer

What a plan is evaluated to tells a materialization its changes, so the relation it keeps is
the plan's answer at its cursor. A larger plan that reads that relation in the view's place
answers what it would with the view evaluated, at every edition and over every interval,
whether the copy is current there or behind.

* `Shows`: a materialization of a plan.
* `materialized_law`: what is kept is the plan's answer at the cursor.
* `Reads`: a view that is read from what a materialization keeps.
* `materialized_transparent`: plans with such views, and with the views evaluated.
-/

open OrdMap Runs

namespace Grmpl

/-- What a plan answers of a history, as a sum; nothing where it has no answer. -/
noncomputable def answerDen (fuel : Nat) (q : Query) (s : TraceStore) (e : Nat) : Tuple →₀ ℤ :=
  match s.answer fuel e q with
  | .ok m => m.den
  | .error _ => 0

theorem answerDen_ok {fuel : Nat} {q : Query} {s : TraceStore} {e : Nat} {m : Multiset}
    (h : s.answer fuel e q = .ok m) : answerDen fuel q s e = m.den := by
  rw [answerDen, h]

/-- A materialization of a plan: what it folds in is what the plan's changes are evaluated to,
in order. -/
def Shows (fuel : Nat) (serve : TraceStore → DynTraceStore) (q : Query) (m : Materialized) : Prop :=
  ∀ s a b rows, m.view s a b = .ok rows → ∃ d, evalDelta fuel (serve s) a b q = .ok d ∧ rows = toSortedVec d

section Materialize

variable {fuel : Nat} {serve : TraceStore → DynTraceStore} {q plan : Query} {m : Materialized} {s : TraceStore}

/-- A change of a plan adds up to the difference of its answers. -/
theorem Answerable.total_delta (h : Answerable fuel (serve s) q s) {a b : Nat} (hmark : s.watermark ≤ a)
    (hab : a ≤ b) (hle : b ≤ s.current) : ∃ d, evalDelta fuel (serve s) a b q = .ok d ∧
      ZSet.total (toSortedVec d) = answerDen fuel q s b - answerDen fuel q s a := by
  obtain ⟨m, hm⟩ := h.answers a (hab.trans hle)
  obtain ⟨n, hn⟩ := h.answers b hle
  refine ⟨n.difference m, h.delta hmark hab hle hm hn, ?_⟩
  rw [total_toSortedVec, answerDen_ok hm, answerDen_ok hn, (ZSet.change_difference n m).den]

/-- A plan's answers are what its changes tell. -/
theorem told_of_shows (h : Shows fuel serve q m) :
    Told (fun s => Answerable fuel (serve s) q s) (answerDen fuel q) m where
  zero s := by
    cases hm : s.answer fuel 0 q with
    | error e => rw [answerDen, hm]
    | ok n => rw [answerDen_ok hm, answer_zero hm, ZSet.den_empty]
  commit updates hle := by rw [answerDen, answer_commit hle, ← answerDen]
  consolidate s upTo e := rfl
  changes {s a b rows} hgood hmark hab hle hrows := by
    obtain ⟨d, hd, rfl⟩ := h s a b rows hrows
    obtain ⟨d', hd', htotal⟩ := hgood.total_delta hmark hab hle
    cases hd.symm.trans hd'
    exact htotal

/-- **What a materialization keeps of a plan is the plan's answer at its cursor**, at every
edition of every run of its maintainers. -/
theorem materialized_law {schemas : SchemaCatalog} {w : Maintenance} {n : Nat} (hshows : Shows fuel serve q m)
    (hapart : m.into ≠ m.cursorRel) (hfresh : ∀ updates ∈ s.patches, Maintenance.Spares m updates)
    (hrun : Run (Maintenance.step schemas m) (Maintenance.KeepsView (fun s => Answerable fuel (serve s) q s) m)
      ⟨s, .replicate n .idle⟩ w) : ∀ e ≤ w.store.current, m.KeptAt (answerDen fuel q) w.store e := by
  intro e he
  have h := keptLaw_run (told_of_shows hshows) hapart hfresh hrun
  rcases he.lt_or_eq with hlt | rfl
  · exact h.kept e hlt
  · obtain ⟨c, hc, -⟩ := h.now
    exact ⟨c, hc⟩

/-! ## Views read from what is kept -/

/-- A view that is read from what a materialization keeps: the kept rows that start with the
view's arguments, read as the view reads them, are what the view answers. -/
structure Reads (fuel : Nat) (s : TraceStore) (m : Materialized) (kept plan : Query) (into : RelId) (pre : Tuple)
    (cursorRel : RelId) (key : Entity) (fold : Option (List Nat × Agg)) : Prop where
  into : into = m.into
  cursorRel : cursorRel = m.cursorRel
  key : key = m.key
  opens : ∀ e ≤ s.current, ∀ n, s.answer fuel e kept = .ok n → ∃ rows,
    viewOf fold (.ofPairs (n.rows.filterMap fun r => (r.1.after? pre).map (·, r.2))) = some rows ∧
      s.answer fuel e plan = .ok rows

/-- The cursor a plan's reader finds is the materialization's. -/
theorem cursorAt_kept {ans : TraceStore → Nat → Tuple →₀ ℤ} {reader : EditionReader} (hr : ReaderKeeps reader s)
    {c : Option Nat} (h : m.KeptAs ans s reader.edition c) {x : Nat}
    (hx : cursorAt reader m.cursorRel m.key = .ok (some x)) : c = some x := by
  unfold cursorAt at hx
  cases hnext : (Value.ent m.key).successor with
  | none =>
    rw [hnext] at hx
    cases hx
  | some next =>
    rw [hnext] at hx
    obtain ⟨got, hgot, hperm⟩ := hr.readRange m.cursorRel ⟨[.ent m.key]⟩ ⟨[next]⟩
    dsimp only at hx
    rw [hgot] at hx
    obtain ⟨⟨t, d⟩, hmem, hrow⟩ := List.exists_of_findSome?_eq_some (Except.ok.inj hx)
    obtain ⟨hmem, hin⟩ := List.mem_filter.1 (hperm.mem_iff.1 hmem)
    have htake := @take_of_inRange ⟨[.ent m.key]⟩ _ _ rfl hnext _ hin
    dsimp only at hrow htake
    split at hrow
    · rename_i v n hcells
      split_ifs at hrow with hpos
      have hkey : t.cells[0]? = some (.ent m.key) := by
        rw [hcells] at htake ⊢
        exact congrArg some (List.cons.inj htake).1
      obtain ⟨y, rfl, hroom, rfl⟩ := h.of_row hmem hpos hkey
      obtain rfl := Value.int.inj (List.cons.inj (List.cons.inj hcells).2).1
      rw [Int64.toInt_ofNat_of_lt hroom] at hrow
      exact hrow
    · cases hrow

/-- **A view's copy stands for it** wherever its materialization keeps what it should. -/
theorem trueCopy_of_kept {reader : EditionReader} (hr : ReaderKeeps reader s) (hle : reader.edition ≤ s.current)
    (hkept : m.KeptAt (answerDen fuel q) s reader.edition) (hanswers : ∀ e ≤ s.current, ∃ n, s.answer fuel e q = .ok n)
    {into : RelId} {pre : Tuple} {cursorRel : RelId} {key : Entity} {fold : Option (List Nat × Agg)}
    (hreads : Reads fuel s m q plan into pre cursorRel key fold) :
    TrueCopy fuel s reader plan into pre cursorRel key fold := by
  obtain ⟨c, hc⟩ := hkept
  obtain ⟨rfl, rfl, rfl, hopens⟩ := hreads
  intro x hx hstill
  obtain rfl := cursorAt_kept hr hc hx
  have hxle := (hc.bound x rfl).1
  obtain ⟨n, hn⟩ := hanswers x (hxle.trans hle)
  obtain ⟨rows, hview, hplan⟩ := hopens x (hxle.trans hle) n hn
  have hrows : (s.contents reader.edition m.into).den = n.den := hc.rows.trans (answerDen_ok hn)
  have hstored : s.storedIn reader.edition m.into pre =
      .ofPairs (n.rows.filterMap fun r => (r.1.after? pre).map (·, r.2)) := by
    refine ZSet.ext_of_den (ZSet.clean_ofPairs _) (ZSet.clean_ofPairs _) ?_
    rw [TraceStore.storedIn, ZSet.den_ofPairs, ZSet.den_ofPairs, ZSet.total_filterMap fun t : Tuple => t.after? pre,
      ZSet.total_filterMap fun t : Tuple => t.after? pre]
    exact congrArg _ hrows
  refine ⟨rows, by rw [hstored, hview], ?_⟩
  -- the plan's relations have stood still since the cursor
  rw [answer_eq hr, ← answer_unmoved hxle fun rel hrel => hstill rel (mem_baseRelations.2 hrel), hplan]

theorem eachCopy_mono {P P' : Query → RelId → Tuple → RelId → Entity → Option (List Nat × Agg) → Prop}
    (h : ∀ plan into pre cursorRel key fold, P plan into pre cursorRel key fold → P' plan into pre cursorRel key fold) :
    ∀ {q : Query}, q.EachCopy P → q.EachCopy P' := by
  intro q
  induction q with
  | rel _ | rangeRel _ _ _ | rangeRelOn _ _ _ _ | recur => exact fun _ => trivial
  | map input f ih | filter input pred ih | project input cols ih | negate input ih | distinct input ih
  | reduce input key agg ih | inherit input col key ctx ih | shared arc inner ih => exact fun hq => ih hq
  | join l r lk rk ihl ihr | union l r ihl ihr | iterate l r ihl ihr => exact fun hq => ⟨ihl hq.1, ihr hq.2⟩
  | materialized plan into pre cursorRel key fold ih => exact fun hq => ⟨h _ _ _ _ _ _ hq.1, ih hq.2⟩

/-- **Reading a view from its copy changes no answer**: in every run of its maintainers, a plan
whose views are read from what is kept answers at every edition what it would with the views
evaluated, and over every interval what takes the one such answer to the other. -/
theorem materialized_transparent {schemas : SchemaCatalog} {w : Maintenance} {n : Nat} {larger : Query}
    (hshows : Shows fuel serve q m) (hapart : m.into ≠ m.cursorRel)
    (hfresh : ∀ updates ∈ s.patches, Maintenance.Spares m updates)
    (hrun : Run (Maintenance.step schemas m) (Maintenance.KeepsView (fun s => Answerable fuel (serve s) q s) m)
      ⟨s, .replicate n .idle⟩ w) (hgood : Answerable fuel (serve w.store) q w.store) (haddr : larger.Addressed)
    (hreads : larger.EachCopy (Reads fuel w.store m q)) :
    (∀ e, w.store.watermark ≤ e → e ≤ w.store.current →
      evalSnapshot fuel larger (serve w.store) e = w.store.answer fuel e larger) ∧
    ∀ a b was is, w.store.watermark ≤ a → a ≤ b → b ≤ w.store.current → larger.Grouped w.store a b →
      w.store.answer fuel a larger = .ok was → w.store.answer fuel b larger = .ok is →
        evalDelta fuel (serve w.store) a b larger = .ok (is.difference was) := by
  have hk := hgood.keeps
  have hlaw := materialized_law hshows hapart hfresh hrun
  have copies : ∀ e, w.store.watermark ≤ e → e ≤ w.store.current →
      larger.EachCopy (TrueCopy fuel w.store ((serve w.store).readerAt e)) := by
    intro e hmark hle
    obtain ⟨hedition, hr⟩ := hk.readerAt hmark
    exact eachCopy_mono (fun _ _ _ _ _ _ h =>
      trueCopy_of_kept hr (by rwa [hedition]) (by rw [hedition]; exact hlaw e hle) hgood.answers h) hreads
  have same : ∀ e, w.store.watermark ≤ e → e ≤ w.store.current →
      evalSnapshot fuel larger (serve w.store) e = w.store.answer fuel e larger := fun e hmark hle =>
    snapshot_answer hk hmark haddr (copies e hmark hle)
  refine ⟨same, fun a b was is hmark hab hle hg hwas his => ?_⟩
  have hmark' := hmark.trans hab
  exact evalDelta_exact hk hmark hab haddr (copies a hmark (hab.trans hle)) (copies b hmark' hle) hg
    ((same a hmark (hab.trans hle)).trans hwas) ((same b hmark' hle).trans his)

/-- A view without arguments whose answers are sets is read from what is kept of it. -/
theorem reads_whole (hset : ∀ e n, s.answer fuel e q = .ok n → n.positive = n) :
    Reads fuel s m q q m.into ⟨[]⟩ m.cursorRel m.key none := by
  refine ⟨rfl, rfl, rfl, fun e _ n hn => ⟨n, ?_, hn⟩⟩
  have hafter : (n.rows.filterMap fun r => (r.1.after? ⟨[]⟩).map (·, r.2)) = n.rows := by
    rw [List.filterMap_congr (g := some) fun r _ => ?_, List.filterMap_some]
    rw [Tuple.after?, if_pos (by simp [Tuple.arity])]
    rfl
  have hclean : n.Clean := by
    rw [← hset e n hn]
    exact ZSet.clean_positive n
  have hsame : ZSet.ofPairs n.rows = n := ZSet.ext_of_den (ZSet.clean_ofPairs _) hclean (ZSet.den_ofPairs _)
  rw [hafter, hsame, viewOf, hset e n hn]

end Materialize

/-! ## A refresh, and a plan over what it keeps -/

/-- A store that tells which relations a commit touched. -/
def TraceStore.telling (s : TraceStore) : DynTraceStore :=
  { s.dyn with
    touchedSince := fun start upTo rels => .ok (s.touchedSince start upTo rels)
    readerAt := fun e => { s.forwardingReader e with touchedSince := fun start rels => .ok (s.touchedSince start e rels) } }

theorem TraceStore.telling_keeps (s : TraceStore) : Keeps s.telling s :=
  { s.dyn_keeps with
    touchedSince := fun _ _ _ => ⟨_, rfl, fun h => (Maintainer.touchedSince_false.1 h).2⟩
    readerAt := fun hat =>
      ⟨rfl, { TraceStore.forwardingReader_keeps hat with
        touchedSince := fun _ _ => ⟨_, rfl, fun h => (Maintainer.touchedSince_false.1 h).2⟩ }⟩ }

/-- The rows of relation 1, kept in relation 13. -/
def presentKept : Materialized where
  view := fun s a b => match evalDelta 0 s.telling a b presentRows with
    | .ok d => .ok (toSortedVec d)
    | .error (.error e) => .error e
    | .error _ => .error .preconditionFailed
  quiet := fun _ _ _ => .ok false
  into := 13
  key := ⟨3⟩
  cursorRel := 11
  authority := ⟨0, [⟨11, none⟩, ⟨13, none⟩]⟩

theorem presentKept_shows : Shows 0 TraceStore.telling presentRows presentKept := by
  intro s a b rows h
  unfold presentKept at h
  dsimp only at h
  split at h
  · rename_i d hd
    cases h
    exact ⟨d, hd, rfl⟩
  · cases h
  · cases h

/-- Installed, refreshed, and the relation it reads committed to. -/
def refreshedOnce : List Maintenance.Act :=
  [.install, .cursor 0, .fold 0, .commit 0, .other [(1, pair 1 3, 1)], .cursor 0]

/-- Where that leads. -/
def refreshed : Maintenance :=
  (executeChecked (Maintenance.step noSchemas presentKept) (Maintenance.checkView presentKept) ⟨onePair, [.idle]⟩
    refreshedOnce).getD ⟨onePair, [.idle]⟩

theorem refreshed_run : Run (Maintenance.step noSchemas presentKept)
    (Maintenance.KeepsView (fun s => Answerable 0 s.telling presentRows s) presentKept) ⟨onePair, .replicate 1 .idle⟩
      refreshed :=
  Run.afterChecked (fun _ _ h => Maintenance.keepsView_of_check (fun s => presentRows_answerable s.telling_keeps) h)
    (by decide +kernel)

theorem materialized_law_refreshed :
    presentKept.KeptAt (answerDen 0 presentRows) refreshed.store refreshed.store.current :=
  materialized_law presentKept_shows (by decide) (by decide) refreshed_run _ le_rfl

/-- The rows kept, taken away from nothing. -/
def presentMissing : Query := .negate (.materialized presentRows 13 ⟨[]⟩ 11 ⟨3⟩ none)

theorem materialized_transparent_missing :
    (∀ e, refreshed.store.watermark ≤ e → e ≤ refreshed.store.current →
      evalSnapshot 0 presentMissing refreshed.store.telling e = refreshed.store.answer 0 e presentMissing) ∧
    ∀ a b was is, refreshed.store.watermark ≤ a → a ≤ b → b ≤ refreshed.store.current →
      presentMissing.Grouped refreshed.store a b → refreshed.store.answer 0 a presentMissing = .ok was →
      refreshed.store.answer 0 b presentMissing = .ok is →
        evalDelta 0 refreshed.store.telling a b presentMissing = .ok (is.difference was) := by
  refine materialized_transparent presentKept_shows (by decide) (by decide) refreshed_run
    (presentRows_answerable refreshed.store.telling_keeps) (fun _ _ _ h => h.elim) ⟨?_, trivial⟩
  refine reads_whole fun e n hn => ?_
  obtain ⟨x, -, hn⟩ := bind_ok hn
  cases hn
  exact ZSet.positive_positive x

end Grmpl

import Grmpl.Diff.Regroup

/-!
# The change of an answer is the difference of its ends

For a store that keeps the contract of its reads, what `evalDelta` answers is the snapshot at
the end of the interval less the one at its start, by every way it takes there: that nothing
the plan reads was touched, that only some rows can meet a change, that only some groups
changed, that a view's copy is current.

* `matching_spec`, `join_change`: the change of a join.
* `mapped_change`, `filtered_change`, `inherit_change`: the operators that send rows on.
* `evalDelta_change`: the change of a plan's answer.
* `evalDelta_exact`: it takes the one snapshot to the other.
-/

open OrdMap

namespace Grmpl

/-! ## Joins -/

section Join

variable {fuel : Nat} {store : DynTraceStore} {hist : TraceStore} {at' : Nat} {lk rk : List Nat}
  {l l' r r' da db was is : Multiset}

theorem filter_comm (p q : Tuple → Prop) [DecidablePred p] [DecidablePred q] (d : Tuple →₀ ℤ) :
    (d.filter p).filter q = (d.filter q).filter p := by
  ext t
  simp only [Finsupp.filter_apply]
  split_ifs <;> rfl

/-- The rows of a change are of the ends' kind. -/
theorem shaped_change {P : Tuple → Prop} (hd : da.Change l l') (hl : Shaped P l.rows)
    (hl' : Shaped P l'.rows) : Shaped P da.rows := fun e he => by
  rcases hd.mem he with ⟨w, hw⟩ | ⟨w, hw⟩
  · exact hl (e.1, w) hw
  · exact hl' (e.1, w) hw

/-- A join with an answer found the keys of its rows. -/
theorem join_keys (h : joinMultisets l lk r rk = some is) :
    Shaped (fun t => (t.key lk).isSome) l.rows ∧ Shaped (fun t => (t.key rk).isSome) r.rows := by
  obtain ⟨idx, hidx, h⟩ := Option.bind_eq_some_iff.1 h
  obtain ⟨ls, hls, -⟩ := Option.bind_eq_some_iff.1 h
  have found : ∀ {cols : List Nat} {rows : Rows} {ks : List (List Value × Tuple × Diff)},
      keyed cols rows = some ks → ∀ e ∈ rows, (e.1.key cols).isSome := fun hks e he => by
    obtain ⟨x, -, hx⟩ := exists_of_mapM hks he
    obtain ⟨k, hk, -⟩ := Option.map_eq_some_iff.1 hx
    rw [hk]
    rfl
  exact ⟨found hls, found hidx⟩

/-- Part of a side of a join: its rows, all but some that meet no row of the other's change. -/
structure MeetsAll (part side : Multiset) (sideKey : List Nat) (delta : Multiset) (deltaKey : List Nat) : Prop where
  mem : ∀ e ∈ part.rows, ∃ w, (e.1, w) ∈ side.rows
  den : ∃ p : Tuple → Bool, part.den = side.den.filter (p · = true) ∧
    ∀ a, delta.den a ≠ 0 → ∀ t, p t ≠ true → (a.key deltaKey).isSome → t.key sideKey ≠ a.key deltaKey

/-- **The side of a join that did not change is read wherever it can meet what did.** -/
theorem matching_spec (hk : Keeps store hist) (hat : hist.watermark ≤ at') {side : Query} (haddr : side.Addressed)
    (hcopies : side.EachCopy (TrueCopy fuel hist (store.readerAt at'))) {T : Multiset}
    (hT : answerOf fuel (store.readerAt at') none side.unstored = .ok T) (sk dk : List Nat) (delta : Multiset) :
    ∃ part, matching fuel store side sk delta dk at' = .ok part ∧ MeetsAll part T sk delta dk := by
  obtain ⟨hedition, hr⟩ := hk.readerAt hat
  -- read whole
  have whole : ∃ part, evalSnapshot fuel side store at' = .ok part ∧ MeetsAll part T sk delta dk := by
    refine ⟨T, ?_, fun e he => ⟨e.2, he⟩, fun _ => true, ?_, fun _ _ _ hp => absurd rfl hp⟩
    · rw [evalSnapshot, evalSnapshotOn_eq haddr, answer_unstored hr none hcopies, hT]
    · exact ((Finsupp.filter_eq_self_iff _ _).2 fun _ _ => rfl).symm
  unfold matching
  cases hb : baseOf side with
  | none => exact whole
  | some base => cases hsk : sk.head? with
    | none => exact whole
    | some col => cases hdk : dk.head? with
      | none => exact whole
      | some dcol =>
        dsimp only
        split_ifs with hfew
        · obtain ⟨got, hgot, hperm⟩ := hk.lookup hat base.rel col (distinctCells delta dcol)
          obtain ⟨hden, hclean⟩ := baseOf_den hr (baseOf_unstored hb) hT
          rw [hedition] at hden
          have hpart : (ZSet.ofPairs (keepRows base.admits got)).den =
              T.den.filter (hasKey col (distinctCells delta dcol) · = true) := by
            rw [ZSet.den_ofPairs, keepRows, ZSet.total_filter, ZSet.total_perm hperm, keepRows,
              ZSet.total_filter, hden]
            exact filter_comm _ _ _
          refine ⟨_, by rw [hgot]; rfl, fun e he => ?_, _, hpart, fun a ha t hp hka hmeet => ?_⟩
          · -- what is found is the side's
            have hw : T.weight e.1 ≠ 0 := by
              have hne := ZSet.clean_ofPairs _ e he
              rw [← ZSet.weight_of_mem he, ← ZSet.den_apply, hpart, Finsupp.filter_apply] at hne
              split_ifs at hne
              · rwa [ZSet.den_apply] at hne
              · exact absurd rfl hne
            exact ⟨_, ZSet.mem_of_weight hw⟩
          · -- a row that meets a changed one holds its key
            obtain ⟨k, hkey⟩ := Option.isSome_iff_exists.1 hka
            obtain ⟨v, hv, hhead⟩ := key_head hdk hkey
            obtain ⟨v', hv', hhead'⟩ := key_head hsk (hmeet.trans hkey)
            cases hhead.symm.trans hhead'
            refine hp ?_
            have hmem : v ∈ distinctCells delta dcol := List.mem_dedup.2 ((List.mem_insertionSort _).2
              (List.mem_filterMap.2 ⟨_, ZSet.mem_of_weight (by rwa [ZSet.den_apply] at ha), hv⟩))
            simp [hasKey, hv', hmem]
        · exact whole

/-- What is left out where it would be empty. -/
theorem unless_empty {c : Prop} [Decidable c] {v : Tuple →₀ ℤ} {x : Except Fault Multiset} (hc : c → 0 = v)
    (h : ¬ c → ∃ a, x = .ok a ∧ a.den = v) : ∃ a, (if c then .ok .empty else x) = .ok a ∧ a.den = v := by
  by_cases hnil : c
  · exact ⟨.empty, if_pos hnil, ZSet.den_empty.trans (hc hnil)⟩
  · obtain ⟨a, hx, ha⟩ := h hnil
    exact ⟨a, (if_neg hnil).trans hx, ha⟩

/-- **The change of a join**, by the rule of products: each side's change against the other as
it ends, less the two changes against each other. -/
theorem join_change (hwas : joinMultisets l lk r rk = some was) (his : joinMultisets l' lk r' rk = some is)
    (hda : da.Change l l') (hdb : db.Change r r') (ahead behind : Except Fault Multiset)
    (hahead : da.rows ≠ [] → ∃ part, MeetsAll part r' rk da lk ∧ ahead = inBounds (joinMultisets da lk part rk))
    (hbehind : db.rows ≠ [] → ∃ part, MeetsAll part l' lk db rk ∧ behind = inBounds (joinMultisets part lk db rk)) :
    ∃ a b c, (if da.rows = [] then .ok .empty else ahead) = .ok a ∧
      (if db.rows = [] then .ok .empty else behind) = .ok b ∧
      (if da.rows = [] ∨ db.rows = [] then .ok .empty else inBounds (joinMultisets da lk db rk)) = .ok c ∧
      ((a.merge b).merge c.negate).strip.Change was is := by
  have hkeysL := shaped_change hda (join_keys hwas).1 (join_keys his).1
  have hkeysR := shaped_change hdb (join_keys hwas).2 (join_keys his).2
  have joined : ∀ {x y : Multiset}, (∀ e ∈ x.rows, (e.1.key lk).isSome) → (∀ e ∈ y.rows, (e.1.key rk).isSome) →
      ∃ out, joinMultisets x lk y rk = some out ∧ out.den = ZSet.cross (meets lk rk) x.den y.den := by
    intro x y hx hy
    obtain ⟨out, hout, -⟩ := join_shaped (P := fun t => (t.key lk).isSome) (Q := fun t => (t.key rk).isSome)
      (R := fun _ => True) hx hy (fun _ h => h) (fun _ h => h) fun _ _ _ _ _ => trivial
    exact ⟨out, hout, join_den hout⟩
  have hmemL : ∀ {a : Tuple}, da.den a ≠ 0 → (a.key lk).isSome := fun ha =>
    hkeysL _ (ZSet.mem_of_weight (by rwa [ZSet.den_apply] at ha))
  have hmemR : ∀ {a : Tuple}, db.den a ≠ 0 → (a.key rk).isSome := fun ha =>
    hkeysR _ (ZSet.mem_of_weight (by rwa [ZSet.den_apply] at ha))
  have hzeroL : da.rows = [] → ∀ u : Tuple →₀ ℤ, 0 = ZSet.cross (meets lk rk) da.den u := fun hnil u => by
    rw [(ZSet.rows_eq_nil_iff hda.clean).1 hnil, map_zero, LinearMap.zero_apply]
  have hzeroR : db.rows = [] → ∀ v : Tuple →₀ ℤ, 0 = ZSet.cross (meets lk rk) v db.den := fun hnil v => by
    rw [(ZSet.rows_eq_nil_iff hdb.clean).1 hnil, map_zero]
  -- the three products, each empty where a factor is
  obtain ⟨a, ha, hden_a⟩ := unless_empty (x := ahead) (fun hnil => hzeroL hnil r'.den) fun hnil => by
    obtain ⟨part, ⟨hmem, p, hden, hmeet⟩, rfl⟩ := hahead hnil
    obtain ⟨out, hout, hcross⟩ := joined (x := da) (y := part) hkeysL fun e he => by
      obtain ⟨w, hw⟩ := hmem e he
      exact (join_keys his).2 (e.1, w) hw
    refine ⟨out, by rw [hout]; rfl, ?_⟩
    rw [hcross, hden]
    exact ZSet.cross_filter_right _ _ fun x hx t _ hp => if_neg (hmeet x hx t hp (hmemL hx))
  obtain ⟨b, hb, hden_b⟩ := unless_empty (x := behind) (fun hnil => hzeroR hnil l'.den) fun hnil => by
    obtain ⟨part, ⟨hmem, p, hden, hmeet⟩, rfl⟩ := hbehind hnil
    obtain ⟨out, hout, hcross⟩ := joined (x := part) (y := db) (fun e he => by
      obtain ⟨w, hw⟩ := hmem e he
      exact (join_keys his).1 (e.1, w) hw) hkeysR
    refine ⟨out, by rw [hout]; rfl, ?_⟩
    rw [hcross, hden]
    exact ZSet.cross_filter_left _ _ fun t _ hp x hx => if_neg (hmeet x hx t hp (hmemR hx)).symm
  obtain ⟨c, hc, hden_c⟩ := unless_empty (x := inBounds (joinMultisets da lk db rk))
    (c := da.rows = [] ∨ db.rows = []) (fun hnil => hnil.elim (fun hnil => hzeroL hnil db.den) fun hnil => hzeroR hnil da.den) fun _ => by
      obtain ⟨out, hout, hcross⟩ := joined hkeysL hkeysR
      exact ⟨out, by rw [hout]; rfl, hcross⟩
  refine ⟨a, b, c, ha, hb, hc, ZSet.clean_strip _, ?_⟩
  rw [ZSet.den_strip, ZSet.den_merge, ZSet.den_merge, ZSet.den_negate, hden_a, hden_b, hden_c, join_den hwas,
    join_den his, hda.den, hdb.den, ← ZSet.cross_change]
  exact (sub_eq_add_neg _ _).symm

end Join

/-! ## The change of an answer -/

/-- The groups of every aggregate over a relation seen row by row can be made of what the
relation holds, at both ends. -/
def Query.Grouped (hist : TraceStore) (start upTo : Nat) : Query → Prop
  | .rel _ | .rangeRel .. | .rangeRelOn .. | .recur | .distinct _ | .iterate .. => True
  | .map input _ | .filter input _ | .project input _ | .negate input | .inherit input .. | .shared _ input
  | .materialized input .. => input.Grouped hist start upTo
  | .join l r .. | .union l r => l.Grouped hist start upTo ∧ r.Grouped hist start upTo
  | .reduce input .. => ∀ rs, rowsOf input.undistinct = some rs → rs.Within hist start ∧ rs.Within hist upTo

section Change

variable {fuel : Nat} {store : DynTraceStore} {hist : TraceStore} {start upTo at' : Nat} {q : Query}
  {m n d was is : Multiset}

/-- A plan's snapshot is its answer with every view evaluated. -/
theorem snapshot_eq (hk : Keeps store hist) (hat : hist.watermark ≤ at') (haddr : q.Addressed)
    (hcopies : q.EachCopy (TrueCopy fuel hist (store.readerAt at'))) :
    evalSnapshot fuel q store at' = answerOf fuel (store.readerAt at') none q.unstored := by
  rw [evalSnapshot, evalSnapshotOn_eq haddr, answer_unstored (hk.readerAt hat).2 none hcopies]

/-- **A plan whose relations stand still answers the same.** -/
theorem quiet_spec (hk : Keeps store hist) (hstart : hist.watermark ≤ start) (hle : start ≤ upTo)
    (hwas : answerOf fuel (store.readerAt start) none q.unstored = .ok was)
    (his : answerOf fuel (store.readerAt upTo) none q.unstored = .ok is) :
    ∃ b, quiet store start upTo q = .ok b ∧ (b = true → was = is) := by
  obtain ⟨touched, htouched, hstill⟩ := hk.touchedSince start upTo q.baseRelations
  obtain ⟨heditionF, hrF⟩ := hk.readerAt hstart
  obtain ⟨heditionT, hrT⟩ := hk.readerAt (hstart.trans hle)
  refine ⟨!touched, by simp [quiet, ask, htouched, bind, Except.bind, pure, Except.pure], fun h => ?_⟩
  have hsame := @answer_same fuel _ _ _ _ hrF hrT q none fun rel hrel => by
    rw [heditionF, heditionT]
    exact (hstill (by simpa using h) rel (mem_baseRelations.2 hrel)).contents_eq hle
  exact Except.ok.inj ((hwas.symm.trans hsame).trans his)

/-- The updates of an interval that fall inside are the change of what is inside. -/
theorem scan_change (hk : Keeps store hist) (hstart : hist.watermark ≤ start) (hle : start ≤ upTo) {rel : RelId}
    {admits : Tuple → Bool} (hwas : was.den = (hist.contents start rel).den.filter (admits · = true))
    (his : is.den = (hist.contents upTo rel).den.filter (admits · = true)) :
    ∃ us, store.scanUpdates rel start upTo = .ok us ∧
      (ZSet.ofPairs ((us.filter fun u => admits u.tuple).map fun u => (u.tuple, u.diff))).Change was is := by
  obtain ⟨us, hus, htotal⟩ := hk.scanUpdates hstart hle rel
  refine ⟨us, hus, ZSet.clean_ofPairs _, ?_⟩
  have hfilter : (us.filter fun u => admits u.tuple).map (fun u => (u.tuple, u.diff)) =
      (us.map fun u => (u.tuple, u.diff)).filter fun e => admits e.1 := by
    rw [List.filter_map]
    rfl
  rw [ZSet.den_ofPairs, hfilter, ZSet.total_filter, htotal, hwas, his]
  exact Finsupp.filter_sub _ _ _

/-- What sends rows on sends the change of a collection on to the change of what it makes. -/
theorem mapped_change {f : Tuple → Option Tuple} (hd : d.Change m n) (hwas : mapped f m = some was)
    (his : mapped f n = some is) : ∃ out, mapped f d = some out ∧ out.Change was is := by
  have hsome : ∀ {x out : Multiset}, mapped f x = some out → ∀ e ∈ x.rows, (f e.1).isSome := by
    intro x out hout e he
    obtain ⟨bs, hbs, -⟩ := Option.map_eq_some_iff.1 hout
    obtain ⟨b, -, hb⟩ := exists_of_mapM hbs he
    obtain ⟨t, ht, -⟩ := Option.map_eq_some_iff.1 hb
    rw [ht]
    rfl
  obtain ⟨out, hout, -⟩ := mapped_shaped (P := fun t => (f t).isSome) (Q := fun _ => True) (m := d)
    (shaped_change hd (hsome hwas) (hsome his)) fun t ht => by
      obtain ⟨t', ht'⟩ := Option.isSome_iff_exists.1 ht
      exact ⟨t', ht', trivial⟩
  refine ⟨out, hout, ?_, ?_⟩
  · obtain ⟨bs, -, rfl⟩ := Option.map_eq_some_iff.1 hout
    exact ZSet.clean_ofPairs bs
  · rw [mapped_den hout, mapped_den hwas, mapped_den his, hd.den, map_sub]

theorem filtered_change {p : Tuple → Option Bool} (hd : d.Change m n) (hwas : filtered p m = some was)
    (his : filtered p n = some is) : ∃ out, filtered p d = some out ∧ out.Change was is := by
  have hsome : ∀ {x out : Multiset}, filtered p x = some out → ∀ e ∈ x.rows, (p e.1).isSome := by
    intro x out hout e he
    obtain ⟨bs, hbs, -⟩ := Option.map_eq_some_iff.1 hout
    obtain ⟨b, -, hb⟩ := exists_of_mapM hbs he
    rw [hb]
    rfl
  obtain ⟨out, hout, -⟩ := filtered_shaped (P := fun t => (p t).isSome) (m := d)
    (shaped_change hd (hsome hwas) (hsome his)) fun t ht => ht
  refine ⟨out, hout, ?_, ?_⟩
  · obtain ⟨bs, -, rfl⟩ := Option.map_eq_some_iff.1 hout
    exact hd.clean.filter _
  · rw [filtered_den hout, filtered_den hwas, filtered_den his, hd.den, map_sub]

/-- Where the scopes stand still, what the changed rows inherit is the change of what is
inherited. -/
theorem inherit_change (hk : Keeps store hist) (hstart : hist.watermark ≤ start) (hle : start ≤ upTo)
    {ctx : RelId} (hstill : hist.Still ctx start upTo) (hd : d.Change m n) {col : Nat} {key : Value}
    {got got' : Rows} (hgot : (store.readerAt start).readContaining ctx 0 1 (distinctCells m col) = .ok got)
    (hgot' : (store.readerAt upTo).readContaining ctx 0 1 (distinctCells n col) = .ok got') :
    ∃ rows, store.readContaining ctx upTo 0 1 (distinctCells d col) = .ok rows ∧
      (inherit d col key rows).Change (inherit m col key got) (inherit n col key got') := by
  have hend := hstart.trans hle
  obtain ⟨heditionF, hrF⟩ := hk.readerAt hstart
  obtain ⟨heditionT, hrT⟩ := hk.readerAt hend
  obtain ⟨rows, hrows, hperm⟩ := hk.readContaining hend ctx 0 1 (distinctCells d col)
  obtain ⟨rows', hrows', hperm'⟩ := hrT.readContaining ctx 0 1 (distinctCells d col)
  rw [heditionT] at hperm'
  refine ⟨rows, hrows, ZSet.clean_ofPairs _, ?_⟩
  have hsame : hist.rowsAt ctx start = hist.rowsAt ctx upTo := congrArg ZSet.rows (hstill.contents_eq hle)
  rw [inherit_perm (hperm.trans hperm'.symm), inherit_read_den hrT hrows', inherit_read_den hrF hgot,
    inherit_read_den hrT hgot', heditionF, heditionT, hsame, hd.den, map_sub]

/-- **The change of an answer is the difference of its ends.** -/
theorem evalDelta_change (hk : Keeps store hist) (hstart : hist.watermark ≤ start) (hle : start ≤ upTo) :
    ∀ {q : Query} {was is : Multiset}, q.Addressed → q.EachCopy (TrueCopy fuel hist (store.readerAt start)) →
      q.EachCopy (TrueCopy fuel hist (store.readerAt upTo)) → q.Grouped hist start upTo →
      answerOf fuel (store.readerAt start) none q.unstored = .ok was →
      answerOf fuel (store.readerAt upTo) none q.unstored = .ok is →
        ∃ d, evalDelta fuel store start upTo q = .ok d ∧ d.Change was is := by
  have hend := hstart.trans hle
  obtain ⟨heditionF, hrF⟩ := hk.readerAt hstart
  obtain ⟨heditionT, hrT⟩ := hk.readerAt hend
  -- a relation's updates, where the plan is one relation
  have scanned : ∀ {q : Query} {b : BaseRel} {was is : Multiset}, baseOf q = some b →
      answerOf fuel (store.readerAt start) none q = .ok was → answerOf fuel (store.readerAt upTo) none q = .ok is →
        was.den = (hist.contents start b.rel).den.filter (b.admits · = true) ∧
          is.den = (hist.contents upTo b.rel).den.filter (b.admits · = true) := by
    intro q b was is hb hwas his
    have hF := (baseOf_den hrF hb hwas).1
    have hT := (baseOf_den hrT hb his).1
    rw [heditionF] at hF
    rw [heditionT] at hT
    exact ⟨hF, hT⟩
  -- both ends in hand
  have ends : ∀ {q : Query} {was is : Multiset}, q.Addressed →
      q.EachCopy (TrueCopy fuel hist (store.readerAt start)) → q.EachCopy (TrueCopy fuel hist (store.readerAt upTo)) →
      answerOf fuel (store.readerAt start) none q.unstored = .ok was →
      answerOf fuel (store.readerAt upTo) none q.unstored = .ok is →
        evalSnapshot fuel q store start = .ok was ∧ evalSnapshot fuel q store upTo = .ok is :=
    fun haddr hF hT hwas his => ⟨(snapshot_eq hk hstart haddr hF).trans hwas, (snapshot_eq hk hend haddr hT).trans his⟩
  intro q
  induction q with
  | rel r =>
    intro was is _ _ _ _ hwas his
    obtain ⟨hF, hT⟩ := scanned (b := ⟨r, .whole⟩) rfl hwas his
    obtain ⟨us, hus, hchange⟩ := scan_change hk hstart hle hF hT
    refine ⟨_, by rw [evalDelta, hus]; rfl, ?_⟩
    have hall : (us.filter fun u => BaseRel.admits ⟨r, .whole⟩ u.tuple) = us := List.filter_eq_self.2 fun _ _ => rfl
    rwa [hall] at hchange
  | rangeRel r lo hi | rangeRelOn r col lo hi =>
    intro was is _ _ _ _ hwas his
    obtain ⟨hF, hT⟩ := scanned rfl hwas his
    obtain ⟨us, hus, hchange⟩ := scan_change hk hstart hle hF hT
    exact ⟨_, by rw [evalDelta, hus]; rfl, hchange⟩
  | recur =>
    intro was is _ _ _ _ hwas his
    cases hwas
    cases his
    exact ⟨_, rfl, .self _⟩
  | map input f ih | project input cols ih =>
    intro was is haddr hF hT hg hwas his
    obtain ⟨a, ha, hwas⟩ := bind_ok hwas
    obtain ⟨b, hb, his⟩ := bind_ok his
    obtain ⟨d, hd, hchange⟩ := ih haddr hF hT hg ha hb
    obtain ⟨out, hout, hchange⟩ := mapped_change hchange (inBounds_ok hwas) (inBounds_ok his)
    exact ⟨out, by rw [evalDelta, hd]; exact congrArg inBounds hout, hchange⟩
  | filter input pred ih =>
    intro was is haddr hF hT hg hwas his
    obtain ⟨a, ha, hwas⟩ := bind_ok hwas
    obtain ⟨b, hb, his⟩ := bind_ok his
    obtain ⟨d, hd, hchange⟩ := ih haddr hF hT hg ha hb
    obtain ⟨out, hout, hchange⟩ := filtered_change hchange (inBounds_ok hwas) (inBounds_ok his)
    exact ⟨out, by rw [evalDelta, hd]; exact congrArg inBounds hout, hchange⟩
  | negate input ih =>
    intro was is haddr hF hT hg hwas his
    obtain ⟨a, ha, hwas⟩ := bind_ok hwas
    obtain ⟨b, hb, his⟩ := bind_ok his
    cases hwas
    cases his
    obtain ⟨d, hd, hchange⟩ := ih haddr hF hT hg ha hb
    refine ⟨d.negate, by rw [evalDelta, hd]; rfl, hchange.clean.negate, ?_⟩
    rw [ZSet.den_negate, ZSet.den_negate, ZSet.den_negate, hchange.den]
    abel
  | union l r ihl ihr =>
    intro was is haddr hF hT hg hwas his
    obtain ⟨a, ha, hwas⟩ := bind_ok hwas
    obtain ⟨a', ha', hwas⟩ := bind_ok hwas
    obtain ⟨b, hb, his⟩ := bind_ok his
    obtain ⟨b', hb', his⟩ := bind_ok his
    cases hwas
    cases his
    obtain ⟨d, hd, hchange⟩ := ihl (fun x p p' hp hp' => haddr x p p' (.inl hp) (.inl hp')) hF.1 hT.1 hg.1 ha hb
    obtain ⟨d', hd', hchange'⟩ :=
      ihr (fun x p p' hp hp' => haddr x p p' (.inr hp) (.inr hp')) hF.2 hT.2 hg.2 ha' hb'
    refine ⟨(d.merge d').strip, by rw [evalDelta, hd, hd']; rfl, ZSet.clean_strip _, ?_⟩
    rw [ZSet.den_strip, ZSet.den_strip, ZSet.den_strip, ZSet.den_merge, ZSet.den_merge, ZSet.den_merge,
      hchange.den, hchange'.den]
    abel
  | join l r lk rk ihl ihr =>
    intro was is haddr hF hT hg hwas his
    obtain ⟨a, ha, hwas⟩ := bind_ok hwas
    obtain ⟨a', ha', hwas⟩ := bind_ok hwas
    obtain ⟨b, hb, his⟩ := bind_ok his
    obtain ⟨b', hb', his⟩ := bind_ok his
    have haddrL : l.Addressed := fun x p p' hp hp' => haddr x p p' (.inl hp) (.inl hp')
    have haddrR : r.Addressed := fun x p p' hp hp' => haddr x p p' (.inr hp) (.inr hp')
    obtain ⟨d, hd, hchange⟩ := ihl haddrL hF.1 hT.1 hg.1 ha hb
    obtain ⟨d', hd', hchange'⟩ := ihr haddrR hF.2 hT.2 hg.2 ha' hb'
    obtain ⟨part, hpart, hmeets⟩ := matching_spec hk hend haddrR hT.2 hb' rk lk d
    obtain ⟨part', hpart', hmeets'⟩ := matching_spec hk hend haddrL hT.1 hb lk rk d'
    obtain ⟨x, y, z, hx, hy, hz, hout⟩ := join_change (inBounds_ok hwas) (inBounds_ok his) hchange hchange'
      (inBounds (joinMultisets d lk part rk)) (inBounds (joinMultisets part' lk d' rk))
      (fun _ => ⟨part, hmeets, rfl⟩) fun _ => ⟨part', hmeets', rfl⟩
    refine ⟨_, ?_, hout⟩
    rw [evalDelta, hd, hd']
    simp only [bind, Except.bind, hpart, hpart', pure, Except.pure, hx, hy, hz]
  | distinct input ih =>
    intro was is haddr hF hT hg hwas his
    obtain ⟨a, ha, hwas⟩ := bind_ok hwas
    obtain ⟨b, hb, his⟩ := bind_ok his
    rw [evalDelta]
    cases hbase : baseOf input with
    | some base =>
      cases hwas
      cases his
      obtain ⟨hdenF, hdenT⟩ := scanned (baseOf_unstored hbase) ha hb
      obtain ⟨cs, hcs, hchange⟩ := distinct_change hk hstart hle hdenF hdenT
      exact ⟨_, by dsimp only; rw [hcs]; rfl, hchange⟩
    | none =>
      obtain ⟨still, hquiet, hsame⟩ := quiet_spec hk hstart hle (q := .distinct input)
        (by rw [Query.unstored, answerOf, ha]; exact hwas) (by rw [Query.unstored, answerOf, hb]; exact his)
      obtain ⟨hsF, hsT⟩ := ends (q := input) haddr hF hT ha hb
      dsimp only
      rw [hquiet]
      cases still with
      | true =>
        obtain rfl := hsame rfl
        exact ⟨_, rfl, .self _⟩
      | false =>
        cases hwas
        cases his
        exact ⟨b.positive.difference a.positive, by
          simp only [hsF, hsT, bind, Except.bind]
          rfl, ZSet.change_difference _ _⟩
  | reduce input key agg ih =>
    intro was is haddr hF hT hg hwas his
    obtain ⟨a, ha, hwas'⟩ := bind_ok hwas
    obtain ⟨b, hb, his'⟩ := bind_ok his
    obtain ⟨still, hquiet, hsame⟩ := quiet_spec hk hstart hle (q := .reduce input key agg) hwas his
    obtain ⟨hsF, hsT⟩ := ends (q := input) haddr hF hT ha hb
    obtain ⟨o, ho, hgroups⟩ := reduceByKey_change hk hstart hle ha hb (inBounds_ok hwas') (inBounds_ok his') hg
    rw [evalDelta, hquiet]
    cases still with
    | true =>
      obtain rfl := hsame rfl
      exact ⟨_, rfl, .self _⟩
    | false =>
      cases o with
      | some out =>
        exact ⟨out, by simp only [ho, bind, Except.bind]; rfl, hgroups out rfl⟩
      | none =>
        exact ⟨is.difference was, by
          simp only [ho, hsF, hsT, hwas', his', bind, Except.bind]
          rfl, ZSet.change_difference _ _⟩
  | iterate init step ihi ihs =>
    intro was is haddr hF hT hg hwas his
    obtain ⟨still, hquiet, hsame⟩ := quiet_spec hk hstart hle (q := .iterate init step) hwas his
    obtain ⟨hsF, hsT⟩ := ends haddr hF hT hwas his
    rw [evalDelta, hquiet]
    cases still with
    | true =>
      obtain rfl := hsame rfl
      exact ⟨_, rfl, .self _⟩
    | false =>
      exact ⟨is.difference was, by
        simp only [hsF, hsT, bind, Except.bind]
        rfl, ZSet.change_difference _ _⟩
  | inherit input col key ctx ih =>
    intro was is haddr hF hT hg hwas his
    obtain ⟨hsF, hsT⟩ := ends haddr hF hT hwas his
    obtain ⟨touched, htouched, hstill⟩ := hk.touchedSince start upTo [ctx]
    rw [evalDelta, htouched]
    cases touched with
    | true =>
      exact ⟨is.difference was, by
        simp only [hsF, hsT, ask, bind, Except.bind]
        rfl, ZSet.change_difference _ _⟩
    | false =>
      obtain ⟨a, ha, hwas⟩ := bind_ok hwas
      obtain ⟨got, hgot, hwas⟩ := bind_ok hwas
      obtain ⟨b, hb, his⟩ := bind_ok his
      obtain ⟨got', hgot', his⟩ := bind_ok his
      cases hwas
      cases his
      obtain ⟨d, hd, hchange⟩ := ih haddr hF hT hg ha hb
      obtain ⟨rows, hrows, hout⟩ := inherit_change hk hstart hle (hstill rfl ctx List.mem_cons_self) hchange
        (ask_ok hgot) (ask_ok hgot')
      exact ⟨_, by
        simp only [hd, hrows, ask, bind, Except.bind]
        rfl, hout⟩
  | shared arc inner ih =>
    intro was is haddr hF hT hg hwas his
    exact ih (fun x p p' hp hp' => haddr x p p' (.inr hp) (.inr hp')) hF hT hg hwas his
  | materialized plan into pre cursorRel key fold ih =>
    intro was is haddr hF hT hg hwas his
    obtain ⟨d, hd, hchange⟩ := ih haddr hF.2 hT.2 hg hwas his
    cases fold with
    | some f => exact ⟨d, hd, hchange⟩
    | none =>
      obtain ⟨o, ho, hcopy⟩ := storedDelta_change hk hstart hle hF.1 hT.1 hwas his
      rw [evalDelta, ho]
      cases o with
      | none => exact ⟨d, hd, hchange⟩
      | some d' => exact ⟨d', rfl, hcopy d' rfl⟩

/-- **Snapshots and changes agree**: what a plan's change over an interval comes to is the
snapshot at its end less the one at its start. -/
theorem evalDelta_exact (hk : Keeps store hist) (hstart : hist.watermark ≤ start) (hle : start ≤ upTo)
    (haddr : q.Addressed) (hfrom : q.EachCopy (TrueCopy fuel hist (store.readerAt start)))
    (hto : q.EachCopy (TrueCopy fuel hist (store.readerAt upTo))) (hgrouped : q.Grouped hist start upTo)
    (hwas : evalSnapshot fuel q store start = .ok was) (his : evalSnapshot fuel q store upTo = .ok is) :
    evalDelta fuel store start upTo q = .ok (is.difference was) := by
  rw [snapshot_eq hk hstart haddr hfrom] at hwas
  rw [snapshot_eq hk (hstart.trans hle) haddr hto] at his
  obtain ⟨d, hd, hchange⟩ := evalDelta_change hk hstart hle haddr hfrom hto hgrouped hwas his
  rw [hd, hchange.unique (ZSet.change_difference is was)]

/-- One pair, and another with the same first cell. -/
def twoPairs : TraceStore := onePair.commit [(1, pair 1 3, 1)]

/-- How many pairs start with each cell. -/
def countByFirst : Query := .reduce (.rel 1) [0] .count

theorem evalDelta_exact_counted : evalDelta 0 twoPairs.dyn 1 2 countByFirst =
    .ok (ZSet.difference (.ofPairs [(⟨[.ent ⟨1⟩, .int 2]⟩, 1)]) (.ofPairs [(⟨[.ent ⟨1⟩, .int 1]⟩, 1)])) := by
  refine evalDelta_exact twoPairs.dyn_keeps (Nat.zero_le 1) (by decide) (fun _ _ _ h => h.elim) trivial trivial ?_
    (by decide +kernel) (by decide +kernel)
  rintro rs hrs
  cases hrs
  exact ⟨fun _ _ => rfl, fun _ _ => rfl⟩

end Change

end Grmpl

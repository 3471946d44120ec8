import Grmpl.Diff.Copies

/-!
# Aggregates, group by group

The groups whose rows changed are gathered from what the relation holds at the end, and as
they were by putting the changes back. They fold as they do in the whole, and the groups that
did not change answer the same.

* `reduce_part`: some groups of a collection folded alone.
* `undistinct_answer`: an aggregate sees through `distinct`.
* `groups_change`: the groups that changed, folded at both ends.
* `reduceByKey_change`: the change of an aggregate.
-/

open OrdMap

namespace Grmpl

/-! ## Aggregates -/

section Reduce

variable {fuel : Nat} {store : DynTraceStore} {hist : TraceStore} {start upTo : Nat} {m n out : Multiset}
  {key : List Nat} {agg : Agg} {groups : List (List Value)}

/-- Where the groups are the same, so is what they fold to. -/
theorem folded_congr {row : Tuple} (h : ∀ k v, row = ⟨k ++ [v]⟩ → membersOf m key k = membersOf n key k) :
    Folded m key agg row ↔ Folded n key agg row := by
  constructor
  · rintro ⟨k, v, hrow, hne, hv⟩
    rw [h k v hrow] at hne hv
    exact ⟨k, v, hrow, hne, hv⟩
  · rintro ⟨k, v, hrow, hne, hv⟩
    rw [← h k v hrow] at hne hv
    exact ⟨k, v, hrow, hne, hv⟩

/-- Some groups of a collection alone. -/
def PartOf (key : List Nat) (groups : List (List Value)) (part whole : Multiset) : Prop :=
  ∀ t, ((∃ k ∈ groups, t.key key = some k) → part.weight t = whole.weight t) ∧
    ((¬ ∃ k ∈ groups, t.key key = some k) → part.weight t = 0)

/-- **Some groups of a collection folded alone**: they fold as they do in it, and no other
group is answered. -/
theorem reduce_part {part whole : Multiset} (hpart : PartOf key groups part whole)
    (hpos : ∀ t, 0 < whole.weight t ↔ 0 < m.weight t) (h : reduceSnapshot m key agg = some out) :
    ∃ out', reduceSnapshot part key agg = some out' ∧
      (∀ k v, k ∈ groups → out'.weight ⟨k ++ [v]⟩ = out.weight ⟨k ++ [v]⟩) ∧
        ∀ row, (∀ k v, row = ⟨k ++ [v]⟩ → k ∉ groups) → out'.weight row = 0 := by
  have hin : ∀ t k, t.key key = some k → k ∈ groups → (0 < part.weight t ↔ 0 < m.weight t) := fun t k ht hk => by
    rw [(hpart t).1 ⟨k, hk, ht⟩, hpos]
  have hout : ∀ t, 0 < part.weight t → ∃ k ∈ groups, t.key key = some k := fun t ht => by
    by_contra hnot
    exact ht.ne' ((hpart t).2 hnot)
  have hsame : ∀ k ∈ groups, membersOf part key k = membersOf m key k := fun k hk =>
    membersOf_congr fun t ht => hin t k ht hk
  have hmem : ∀ {k}, membersOf part key k ≠ [] → k ∈ groups := by
    intro k hne
    obtain ⟨t, ht⟩ := List.exists_mem_of_ne_nil _ hne
    obtain ⟨hpos, hkey⟩ := mem_membersOf.1 ht
    obtain ⟨k', hk', hkey'⟩ := hout t hpos
    cases hkey.symm.trans hkey'
    exact hk'
  have hkey : ∀ t, 0 < part.weight t → ∃ k, t.key key = some k := fun t ht => by
    obtain ⟨k, -, hk⟩ := hout t ht
    exact ⟨k, hk⟩
  obtain ⟨out', hout'⟩ : ∃ out', reduceSnapshot part key agg = some out' := exists_reduce hkey fun k hne => by
      have heq := hsame k (hmem hne)
      rw [heq] at hne ⊢
      exact reduce_folds h hne
  refine ⟨out', hout', fun k v hk => ?_, fun row hrow => ?_⟩
  · refine reduce_weight_congr hout' h (folded_congr fun k' v' heq => ?_)
    obtain rfl : k = k' := (List.append_inj' (congrArg Tuple.cells heq) rfl).1
    exact hsame k hk
  · refine ((reduce_isSet hout').weight row).resolve_right fun hone => ?_
    obtain ⟨k, v, heq, hne, -⟩ := (reduce_weight hout' row).1 (by rw [hone]; exact one_pos)
    exact hrow k v heq (hmem hne)

/-- The part of a list of images that falls in some groups. -/
theorem total_groups {gs : List (List Value × Tuple × Diff)} (hgs : ∀ g ∈ gs, g.2.1.key key = some g.1)
    (t : Tuple) :
    ((∃ k ∈ groups, t.key key = some k) →
      ZSet.total ((gs.filter fun g => groups.contains g.1).map Prod.snd) t = ZSet.total (gs.map Prod.snd) t) ∧
    ((¬ ∃ k ∈ groups, t.key key = some k) →
      ZSet.total ((gs.filter fun g => groups.contains g.1).map Prod.snd) t = 0) := by
  have hfilter : (gs.filter fun g => groups.contains g.1).map Prod.snd =
      (gs.map Prod.snd).filter fun e => (e.1.key key).any groups.contains := by
    rw [List.filter_map]
    refine congrArg (List.map Prod.snd) (List.filter_congr fun g hg => ?_)
    rw [Function.comp_apply, hgs g hg, Option.any_some]
  rw [hfilter, ZSet.total_filter fun t : Tuple => (t.key key).any groups.contains, Finsupp.filter_apply]
  constructor
  · rintro ⟨k, hk, hkey⟩
    rw [if_pos (by simp [hkey, hk])]
  · intro hnot
    refine if_neg fun h => ?_
    cases hkey : t.key key with
    | none =>
      rw [hkey] at h
      cases h
    | some k =>
      rw [hkey, Option.any_some] at h
      exact hnot ⟨k, by simpa using h, hkey⟩

/-- An aggregate answers the same through the `distinct`s its input starts with. -/
theorem undistinct_answer {reader : EditionReader} : ∀ {q : Query} {m : Multiset},
    answerOf fuel reader none q.unstored = .ok m →
      ∃ m', answerOf fuel reader none q.undistinct.unstored = .ok m' ∧ ∀ t, 0 < m'.weight t ↔ 0 < m.weight t := by
  intro q
  induction q with
  | distinct inner ih =>
    intro m h
    obtain ⟨a, ha, h⟩ := bind_ok h
    cases h
    obtain ⟨m', hm', hiff⟩ := ih ha
    exact ⟨m', hm', fun t => (hiff t).trans ZSet.positive_pos.symm⟩
  | shared arc inner ih => exact fun h => ih h
  | _ => exact fun h => ⟨_, h, fun t => Iff.rfl⟩

/-- Every row of the relation a plan sees row by row can be sent on. -/
def RowWise.Within (rs : RowWise) (hist : TraceStore) (at' : Nat) : Prop :=
  ∀ t, (hist.contents at' rs.base.rel).weight t ≠ 0 → (rs.image t).isSome

section Back

variable {was is mF mT oF oT : Multiset} {back : List (List Value × Tuple × Diff)}

/-- Outside the groups that changed a row weighs the same at both ends. -/
theorem weight_still (hback : ZSet.total (back.map Prod.snd) = mF.den - mT.den)
    (hkeys : ∀ g ∈ back, g.2.1.key key = some g.1) {t : Tuple}
    (ht : ¬ ∃ k ∈ back.map Prod.fst, t.key key = some k) : mF.weight t = mT.weight t := by
  have hzero : ZSet.total (back.map Prod.snd) t = 0 := by
    refine ZSet.total_apply_of_absent fun e he heq => ht ?_
    obtain ⟨g, hg, rfl⟩ := List.mem_map.1 he
    exact ⟨g.1, List.mem_map_of_mem hg, heq ▸ hkeys g hg⟩
  rw [hback, Finsupp.sub_apply, ZSet.den_apply, ZSet.den_apply] at hzero
  exact sub_eq_zero.1 hzero

/-- And so does what an aggregate answers there. -/
theorem answer_still (hback : ZSet.total (back.map Prod.snd) = mF.den - mT.den)
    (hkeys : ∀ g ∈ back, g.2.1.key key = some g.1)
    (hposF : ∀ t, 0 < mF.weight t ↔ 0 < was.weight t) (hposT : ∀ t, 0 < mT.weight t ↔ 0 < is.weight t)
    (hfrom : reduceSnapshot was key agg = some oF) (hto : reduceSnapshot is key agg = some oT) {row : Tuple}
    (hrow : ∀ k v, row = ⟨k ++ [v]⟩ → k ∉ back.map Prod.fst) : oF.weight row = oT.weight row := by
  refine reduce_weight_congr hfrom hto (folded_congr fun k v heq => membersOf_congr fun t ht => ?_)
  rw [← hposF, ← hposT, weight_still hback hkeys]
  rintro ⟨k', hk', ht'⟩
  cases ht.symm.trans ht'
  exact hrow k v heq hk'

/-- **The groups that changed**, gathered as they are and with the changes put back, fold to
the change of the aggregate. -/
theorem groups_change {members : List (List Value × Tuple × Diff)}
    (hback : ZSet.total (back.map Prod.snd) = mF.den - mT.den)
    (hkeys : ∀ g ∈ back, g.2.1.key key = some g.1) (hmkeys : ∀ g ∈ members, g.2.1.key key = some g.1)
    (hmembers : ∀ t, (∃ k ∈ back.map Prod.fst, t.key key = some k) →
      ZSet.total (members.map Prod.snd) t = mT.weight t)
    (hposF : ∀ t, 0 < mF.weight t ↔ 0 < was.weight t) (hposT : ∀ t, 0 < mT.weight t ↔ 0 < is.weight t)
    (hfrom : reduceSnapshot was key agg = some oF) (hto : reduceSnapshot is key agg = some oT) {atTo atFrom : Multiset}
    (hatTo : atTo = ZSet.empty.addAll ((members.filter fun g => (back.map Prod.fst).contains g.1).map Prod.snd))
    (hatFrom : atFrom = atTo.merge (ZSet.empty.addAll (back.map Prod.snd))) :
    ∃ is' was', reduceSnapshot atTo key agg = some is' ∧ reduceSnapshot atFrom key agg = some was' ∧
      (is'.difference was').Change oF oT := by
  have hpartT : PartOf key (back.map Prod.fst) atTo mT := by
    intro t
    have hpart := @total_groups _ (back.map Prod.fst) _ hmkeys t
    have hw : atTo.weight t = ZSet.total
        ((members.filter fun g => (back.map Prod.fst).contains g.1).map Prod.snd) t := by
      rw [hatTo, ← ZSet.den_apply, ZSet.den_addAll, ZSet.den_empty, zero_add]
    exact ⟨fun h => (hw.trans (hpart.1 h)).trans (hmembers t h), fun h => hw.trans (hpart.2 h)⟩
  have hpartF : PartOf key (back.map Prod.fst) atFrom mF := by
    intro t
    have hw : atFrom.weight t = atTo.weight t + (mF.weight t - mT.weight t) := by
      rw [hatFrom, ← ZSet.den_apply, ZSet.den_merge, ZSet.den_addAll, ZSet.den_empty, zero_add, hback,
        Finsupp.add_apply, Finsupp.sub_apply, ZSet.den_apply, ZSet.den_apply, ZSet.den_apply]
    refine ⟨fun h => ?_, fun h => ?_⟩
    · rw [hw, (hpartT t).1 h]
      exact add_sub_cancel _ _
    · rw [hw, (hpartT t).2 h, weight_still hback hkeys h, sub_self, add_zero]
  obtain ⟨is', his', hsame, hnone⟩ := reduce_part hpartT hposT hto
  obtain ⟨was', hwas', hsame', hnone'⟩ := reduce_part hpartF hposF hfrom
  refine ⟨is', was', his', hwas', ZSet.Change.of_weight (ZSet.clean_strip _) fun row => ?_⟩
  rw [(ZSet.change_difference is' was').weight]
  by_cases hrow : ∃ k v, row = ⟨k ++ [v]⟩ ∧ k ∈ back.map Prod.fst
  · obtain ⟨k, v, rfl, hk⟩ := hrow
    rw [hsame k v hk, hsame' k v hk]
  · have hout : ∀ k v, row = ⟨k ++ [v]⟩ → k ∉ back.map Prod.fst := fun k v heq hk => hrow ⟨k, v, heq, hk⟩
    rw [hnone row hout, hnone' row hout, answer_still hback hkeys hposF hposT hfrom hto hout, sub_self, sub_self]

end Back

/-- **The change of an aggregate is that of the groups that changed.** -/
theorem reduceByKey_change (hk : Keeps store hist) (hstart : hist.watermark ≤ start) (hle : start ≤ upTo)
    {input : Query} {was is oF oT : Multiset}
    (hwas : answerOf fuel (store.readerAt start) none input.unstored = .ok was)
    (his : answerOf fuel (store.readerAt upTo) none input.unstored = .ok is)
    (hfrom : reduceSnapshot was key agg = some oF) (hto : reduceSnapshot is key agg = some oT)
    (hwithin : ∀ rs, rowsOf input.undistinct = some rs → rs.Within hist start ∧ rs.Within hist upTo) :
    ∃ o, reduceByKey store start upTo input key agg = .ok o ∧ ∀ d, o = some d → d.Change oF oT := by
  have hend := hstart.trans hle
  obtain ⟨heditionF, hrF⟩ := hk.readerAt hstart
  obtain ⟨heditionT, hrT⟩ := hk.readerAt hend
  unfold reduceByKey
  cases hrs : rowsOf input.undistinct with
  | none => exact ⟨none, rfl, fun d h => by cases h⟩
  | some rs => cases hlead : key.head? with
    | none => exact ⟨none, rfl, fun d h => by cases h⟩
    | some lead => cases hsource : rs.source lead with
      | none => exact ⟨none, by dsimp only; rw [hsource]; rfl, fun d h => by cases h⟩
      | some col =>
        obtain ⟨hwithinF, hwithinT⟩ := hwithin rs hrs
        dsimp only
        rw [hsource]
        -- what the input reads, at either end
        obtain ⟨mF, hmF, hposF⟩ := undistinct_answer hwas
        obtain ⟨mT, hmT, hposT⟩ := undistinct_answer his
        have hdenF := rowsOf_den hrF (rowsOf_unstored hrs) hmF
        have hdenT := rowsOf_den hrT (rowsOf_unstored hrs) hmT
        rw [heditionF] at hdenF
        rw [heditionT] at hdenT
        obtain ⟨cs, hcs, hsorted, hmem⟩ := hk.compare hstart hend rs.base.rel
        obtain ⟨cs', hcs', htotal⟩ := compare_total hk hstart hle rs.base.rel
        cases hcs.symm.trans hcs'
        obtain ⟨back?, hback⟩ : ∃ o, imagesByGroup rs key (cs.map fun c => (c.1, c.2.1 - c.2.2)) = .ok o :=
          imagesByGroup_ok fun e he => by
            obtain ⟨⟨t, a, b⟩, hc, rfl⟩ := List.mem_map.1 he
            obtain ⟨ha, hb, hne⟩ := (hmem t a b).1 hc
            by_cases hz : (hist.contents start rs.base.rel).weight t = 0
            · exact hwithinT t fun hz' => hne (by rw [← ha, ← hb, hz, hz'])
            · exact hwithinF t hz
        simp only [ask, hcs, bind, Except.bind, hback]
        cases back? with
        | none => exact ⟨none, rfl, fun d h => by cases h⟩
        | some back =>
          obtain ⟨hsum, hkeys⟩ := imagesByGroup_spec hback
          have hmoved : ZSet.total (cs.map fun c => (c.1, c.2.1 - c.2.2)) =
              (hist.contents start rs.base.rel).den - (hist.contents upTo rs.base.rel).den := by
            ext t
            rw [htotal (· - ·) sub_self t, Finsupp.sub_apply, ZSet.den_apply, ZSet.den_apply]
          rw [hmoved, map_sub, ← hdenF, ← hdenT] at hsum
          -- every group has a first cell
          have hleads : ∀ k ∈ back.map Prod.fst, ∃ v, k.head? = some v := by
            intro k hk
            obtain ⟨g, hg, rfl⟩ := List.mem_map.1 hk
            obtain ⟨v, -, hv⟩ := key_head hlead (hkeys g hg)
            exact ⟨v, hv⟩
          have hmemleads : ∀ {k v}, k ∈ back.map Prod.fst → k.head? = some v →
              v ∈ (((back.map Prod.fst).filterMap List.head?).insertionSort (· ≤ ·)).dedup := fun hk hv =>
            List.mem_dedup.2 ((List.mem_insertionSort _).2 (List.mem_filterMap.2 ⟨_, hk, hv⟩))
          dsimp only
          split_ifs with hnil hmany
          · refine ⟨_, rfl, fun d h => ?_⟩
            cases h
            refine ZSet.Change.of_weight ZSet.clean_empty fun row => ?_
            rw [answer_still hsum hkeys hposF hposT hfrom hto fun k v _ hk => ?_, sub_self]
            · rfl
            · obtain ⟨v, hv⟩ := hleads k hk
              have := hmemleads hk hv
              rw [hnil] at this
              cases this
          · exact ⟨none, rfl, fun d h => by cases h⟩
          · obtain ⟨got, hgot, hperm⟩ := hk.lookup hend rs.base.rel col
              (((back.map Prod.fst).filterMap List.head?).insertionSort (· ≤ ·)).dedup
            obtain ⟨members?, hmembers⟩ : ∃ o, imagesByGroup rs key got = .ok o := imagesByGroup_ok fun e he => by
              refine hwithinT e.1 ?_
              have hrow := (List.mem_filter.1 (hperm.mem_iff.1 he)).1
              have hclean := hist.clean_contents upTo rs.base.rel e hrow
              rwa [← ZSet.weight_of_mem (m := hist.contents upTo rs.base.rel) hrow] at hclean
            simp only [hgot, hmembers]
            cases members? with
            | none => exact ⟨none, rfl, fun d h => by cases h⟩
            | some members =>
              obtain ⟨hsumT, hmkeys⟩ := imagesByGroup_spec hmembers
              rw [ZSet.total_perm hperm, keepRows, ZSet.total_filter] at hsumT
              obtain ⟨is', was', his', hwas', hchange⟩ := groups_change hsum hkeys hmkeys (fun t ht => by
                obtain ⟨k, hkmem, htk⟩ := ht
                rw [hsumT, ← ZSet.den_apply mT, hdenT]
                refine ZSet.spread_filter_apply _ _ fun row _ hland => ?_
                -- what lands in a changed group holds the group's first cell
                obtain ⟨v, hv, hhead⟩ := key_head hlead htk
                rw [source_spec (landed_image hland) hsource] at hv
                have hfound := hmemleads hkmem hhead
                rw [hasKey, hv]
                exact List.contains_iff_mem.2 hfound) hposF hposT hfrom hto rfl rfl
              refine ⟨some (is'.difference was'), ?_, fun d h => ?_⟩
              · simp only [his', hwas', inBounds]
                rfl
              · cases h
                exact hchange

end Reduce

end Grmpl

import Grmpl.Ent.Forks

/-!
# Forks are faithful and isolated

A fork answers every edition up to its own as its parent does, and what is done through
stores of other branches changes no answer of a branch but one: a backfollow lists the
versions of every branch. Even of that answer the versions on the branch itself stay,
once the index has been brought up to them, in a world with one store a branch.

* `Apart`, `isolated_run`: what steps on other branches leave alone.
* `Solo`: what worlds with one store a branch keep.
* `IndexSettled`, `Since`: the index after it was brought up to date.
* `forks_faithful_isolated`: the laws of forks.
-/

open OrdMap Runs Contents

namespace Grmpl

variable {F N : Type} [FactReads F] [Parts N Dsp] [DecidableEq N] [ContentTree F N]
  {w w' : Family F N} {a : FamilyAct} {b : BranchId}

/-- The branch a step is made through a store of is another. -/
def Apart (b : BranchId) (w : Family F N) : FamilyAct → Prop
  | .on k _ => ∀ x ∈ w.stores[k]?, x.1 ≠ b
  | .index _ => True

/-- **What is done through other branches' stores leaves a branch's stores alone**, and
its state as last staged. -/
theorem isolated_step (hb : b < w.dag.next) (hok : Apart b w a)
    (hst : w.step a = some w') :
    (∀ (k : Nat) (s : BranchState F), w.stores[k]? = some (b, s) → w'.stores[k]? = some (b, s)) ∧
      lookup b w'.branches = lookup b w.branches := by
  have hset : ∀ {j : Nat} {c : BranchId} {t t' : BranchState F}, w.stores[j]? = some (c, t) → c ≠ b →
      ∀ (k : Nat) (s : BranchState F), w.stores[k]? = some (b, s) →
        (w.stores.set j (c, t'))[k]? = some (b, s) := by
    intro j c t t' hj hc k s hk
    rw [List.getElem?_set_ne]
    · exact hk
    · rintro rfl
      rw [hj] at hk
      cases hk
      exact hc rfl
  have hsnoc : ∀ (x : BranchId × BranchState F) (k : Nat) (s : BranchState F),
      w.stores[k]? = some (b, s) → (w.stores ++ [x])[k]? = some (b, s) := by
    intro x k s hk
    rw [List.getElem?_append_left (List.getElem?_eq_some_iff.1 hk).1]
    exact hk
  cases happens_of_step hst with
  | index budget => exact ⟨fun _ _ hk => hk, rfl⟩
  | read hk _ => exact ⟨hset hk (hok _ hk), rfl⟩
  | write hk _ => exact ⟨hset hk (hok _ hk), lookup_put_ne (hok _ hk).symm _ _⟩
  | fork hk _ => exact ⟨hsnoc _, lookup_put_ne hb.ne _ _⟩
  | conflict => exact ⟨fun _ _ hk => hk, rfl⟩
  | merge hk _ _ => exact ⟨hsnoc _, lookup_put_ne hb.ne _ _⟩
  | branch _ => exact ⟨hsnoc _, rfl⟩

/-! ## A branch's own holdings -/

/-- A step of a world with one store a branch: no second store is opened on a branch,
and a fork is taken at an edition its parent has. -/
def Live (w : Family F N) : FamilyAct → Prop
  | .on _ (.branch _) => False
  | .on k (.fork at') => ∀ x ∈ w.stores[k]?, at' ≤ x.2.inner.current
  | _ => True

/-- The edition a branch is at, as last staged. -/
def Family.cur (w : Family F N) (b : BranchId) : Nat := ((w.states b).map Inner.current).getD 0

/-- What worlds with one store a branch keep besides: each store is at its branch's
edition, and no branch was forked past its parent's. -/
structure Solo (w : Family F N) : Prop where
  one : ∀ (j k : Nat) (x y : BranchId × BranchState F), w.stores[j]? = some x → w.stores[k]? = some y →
    x.1 = y.1 → j = k
  current : ∀ x ∈ w.stores, x.2.inner.current = w.cur x.1
  forks : ∀ c ∈ w.dag.branches, ∀ p ∈ c.2.parent, p.2 ≤ w.cur p.1

omit [FactReads F] [Parts N Dsp] [DecidableEq N] [ContentTree F N] in
theorem cur_put (w : Family F N) (b b' : BranchId) (s : BranchState F) (stores : List (BranchId × BranchState F))
    (g : Dag) (h : History N) : Family.cur ⟨g, put b s w.branches, h, stores⟩ b' =
      if b' = b then s.inner.current else w.cur b' := by
  unfold Family.cur Family.states
  dsimp only
  rw [lookup_put]
  split_ifs <;> rfl

omit [FactReads F] [Parts N Dsp] [DecidableEq N] [ContentTree F N] in
theorem solo_new : Solo (Family.new : Family F N) := by
  refine ⟨fun j k x y hj hk _ => ?_, fun x hx => ?_, fun c hc p hp => ?_⟩
  · have hj' := (List.getElem?_eq_some_iff.1 hj).1
    have hk' := (List.getElem?_eq_some_iff.1 hk).1
    simp only [Family.new, List.length_singleton] at hj' hk'
    omega
  · obtain rfl := List.mem_singleton.1 hx
    rfl
  · obtain rfl := List.mem_singleton.1 hc
    exact absurd hp (by simp)

omit [FactReads F] [Parts N Dsp] [DecidableEq N] [ContentTree F N] in
/-- A store's state set, at an edition no lower, and its branch's with it if staged. -/
theorem Solo.set (h : Solo w) {k : Nat} {c : BranchId} {t t' : BranchState F}
    (hk : w.stores[k]? = some (c, t)) {branches : List (BranchId × BranchState F)}
    (hcur : ∀ b, Family.cur ⟨w.dag, branches, w.history, w.stores.set k (c, t')⟩ b =
      if b = c then t'.inner.current else w.cur b) (hle : t.inner.current ≤ t'.inner.current) :
    Solo ⟨w.dag, branches, w.history, w.stores.set k (c, t')⟩ := by
  have hat : ∀ (j : Nat) (x : BranchId × BranchState F), (w.stores.set k (c, t'))[j]? = some x →
      (j = k ∧ x = (c, t')) ∨ (j ≠ k ∧ w.stores[j]? = some x ∧ x.1 ≠ c) := by
    intro j x hj
    rw [List.getElem?_set] at hj
    split_ifs at hj with hkj
    · exact .inl ⟨hkj.symm, (Option.some.inj hj).symm⟩
    · exact .inr ⟨Ne.symm hkj, hj, fun hc => hkj (h.one _ _ _ _ hj hk hc).symm⟩
  refine ⟨fun i j x y hi hj hxy => ?_, fun x hx => ?_, fun d hd p hp => ?_⟩
  · rcases hat i x hi with ⟨rfl, rfl⟩ | ⟨hik, hi, hxc⟩ <;> rcases hat j y hj with ⟨rfl, rfl⟩ | ⟨hjk, hj, hyc⟩
    · rfl
    · exact absurd hxy.symm hyc
    · exact absurd hxy hxc
    · exact h.one _ _ _ _ hi hj hxy
  · obtain ⟨j, hj⟩ := List.mem_iff_getElem?.1 hx
    rw [hcur]
    rcases hat j x hj with ⟨-, rfl⟩ | ⟨-, hj, hxc⟩
    · rw [if_pos rfl]
    · rw [if_neg hxc]
      exact h.current x (List.mem_of_getElem? hj)
  · rw [hcur]
    have hold := h.forks d hd p hp
    split_ifs with hpc
    · rw [hpc, ← h.current _ (List.mem_of_getElem? hk)] at hold
      exact hold.trans hle
    · exact hold

omit [FactReads F] [DecidableEq N] [ContentTree F N] in
/-- A branch numbered next, forked at or before its parent's edition. -/
theorem Solo.spawn (h : Solo w) (hk : Kept w) {r : Branch}
    (hr : ∀ p ∈ r.parent, p.1 < w.dag.next ∧ p.2 ≤ w.cur p.1) (s : BranchState F) :
    Solo (w.spawn (⟨put w.dag.next r w.dag.branches, w.dag.next + 1⟩, w.dag.next) s) := by
  have hcur : ∀ b, (w.spawn (⟨put w.dag.next r w.dag.branches, w.dag.next + 1⟩, w.dag.next) s).cur b =
      if b = w.dag.next then s.inner.current else w.cur b := fun b => cur_put w _ b s _ _ _
  have hat : ∀ (j : Nat) (x : BranchId × BranchState F), (w.stores ++ [(w.dag.next, s)])[j]? = some x →
      (j = w.stores.length ∧ x = (w.dag.next, s)) ∨ (w.stores[j]? = some x ∧ x.1 < w.dag.next) := by
    intro j x hj
    rw [List.getElem?_append] at hj
    split_ifs at hj with hlt
    · exact .inr ⟨hj, (hk.stores x (List.mem_of_getElem? hj)).1⟩
    · obtain ⟨hzero, hget⟩ := List.getElem?_eq_some_iff.1 hj
      simp only [List.length_singleton, Nat.lt_one_iff] at hzero
      exact .inl ⟨by omega, by simpa [hzero] using hget.symm⟩
  refine ⟨fun i j x y hi hj hxy => ?_, fun x hx => ?_, fun d hd p hp => ?_⟩
  · rcases hat i x hi with ⟨rfl, rfl⟩ | ⟨hi, hx⟩ <;> rcases hat j y hj with ⟨rfl, rfl⟩ | ⟨hj, hy⟩
    · rfl
    · exact absurd hxy.symm hy.ne
    · exact absurd hxy hx.ne
    · exact h.one _ _ _ _ hi hj hxy
  · rw [hcur]
    obtain ⟨j, hj⟩ := List.mem_iff_getElem?.1 hx
    rcases hat j x hj with ⟨-, rfl⟩ | ⟨hj, hlt⟩
    · rw [if_pos rfl]
    · rw [if_neg hlt.ne]
      exact h.current x (List.mem_of_getElem? hj)
  · have hparent : p.1 < w.dag.next ∧ p.2 ≤ w.cur p.1 := by
      rcases mem_put hd with rfl | hd
      · exact hr p hp
      · have hlt := hk.dag d hd
        exact ⟨(hlt.2 p hp).trans hlt.1, h.forks d hd p hp⟩
    rw [hcur, if_neg hparent.1.ne]
    exact hparent.2

theorem Solo.step (h : Solo w) (hk : Kept w) (hok : Live w a) (hst : w.step a = some w') : Solo w' := by
  have hstore : ∀ {k : Nat} {b : BranchId} {s : BranchState F}, w.stores[k]? = some (b, s) →
      b < w.dag.next ∧ s.inner.current = w.cur b ∧ Sorted s.inner.rels := fun hks =>
    have hmem := List.mem_of_getElem? hks
    ⟨(hk.stores _ hmem).1, h.current _ hmem, (hk.stores _ hmem).2⟩
  cases happens_of_step hst with
  | index budget => exact ⟨h.one, h.current, h.forks⟩
  | @read k a b s s' hks hr =>
    have hcur := (BranchState.read_keeps hr (hstore hks).2.2).2
    refine h.set hks (fun b' => ?_) hcur.ge
    split_ifs with hb
    · rw [hcur, (hstore hks).2.1, hb]
      rfl
    · rfl
  | write hks hr =>
    exact h.set hks (fun b' => cur_put w _ b' _ _ _ _)
      (BranchState.write_keeps hr (hstore hks).2.2).2
  | fork hks _ =>
    refine h.spawn hk (fun p hp => ?_) _
    obtain rfl := Option.some.inj hp
    exact ⟨(hstore hks).1, (hok _ hks).trans (hstore hks).2.1.le⟩
  | conflict => exact h
  | merge hks _ _ =>
    refine h.spawn hk (fun p hp => ?_) _
    obtain rfl := Option.some.inj hp
    exact ⟨(hstore hks).1, (hstore hks).2.1.le⟩
  | branch _ => exact hok.elim

/-! ## After the index was brought up to date -/

/-- Every version is indexed, and every fork was taken at an edition that is. -/
structure IndexSettled (w : Family F N) : Prop where
  indexed : ∀ o i, w.states o = some i → i.current ≤ w.history.startOf w.dag o
  forks : ∀ c ∈ w.dag.branches, ∀ p ∈ c.2.parent, p.2 ≤ w.history.startOf w.dag p.1

omit [FactReads F] in
/-- In a world with one store a branch, bringing the index up to date settles it. -/
theorem Solo.settled (h : Solo w) (hk : Kept w) :
    IndexSettled { w with history := w.history.catchUp w.dag w.states none } := by
  have hindexed : ∀ o i, w.states o = some i →
      i.current ≤ (w.history.catchUp w.dag w.states none).startOf w.dag o := by
    intro o i hi
    obtain ⟨s, hs, rfl⟩ := Option.map_eq_some_iff.1 hi
    exact hk.history.catchUp_all (hk.ids o (hk.branches _ (mem_of_lookup hs)).1) hi
  refine ⟨hindexed, fun c hc p hp => (h.forks c hc p hp).trans ?_⟩
  unfold Family.cur
  cases hi : w.states p.1 with
  | none => exact Nat.zero_le _
  | some i => exact hindexed p.1 i hi

/-- What has happened since a world, on branches other than one. -/
structure Since (w w' : Family F N) (b : BranchId) : Prop where
  dag : w.dag.Extends w'.dag
  state : w'.states b = w.states b
  start : ∀ o < w.dag.next, w.history.startOf w.dag o ≤ w'.history.startOf w'.dag o
  kept : ∀ x ∈ w.history.holders, x ∈ w'.history.holders
  fresh : ∀ x ∈ w'.history.holders, x ∈ w.history.holders ∨
    (x.2.branch < w.dag.next → x.2.branch ≠ b ∧ w.history.startOf w.dag x.2.branch < x.2.edition)

omit [FactReads F] [DecidableEq N] [ContentTree F N] [Parts N Dsp] in
theorem Since.refl (w : Family F N) (b : BranchId) : Since w w b :=
  ⟨.refl _, rfl, fun _ _ => le_rfl, fun _ hx => hx, fun _ hx => .inl hx⟩

omit [FactReads F] [DecidableEq N] [ContentTree F N] [Parts N Dsp] in
/-- Nothing but the graph, other branches and the stores changed. -/
theorem Since.of_same {v : Family F N} (h : Since w v b) (hext : v.dag.Extends w'.dag)
    (hstate : w'.states b = v.states b) (hhist : w'.history = v.history) : Since w w' b := by
  refine ⟨h.dag.trans hext, hstate.trans h.state, fun o ho => ?_, hhist ▸ h.kept, hhist ▸ h.fresh⟩
  refine (h.start o ho).trans_eq ?_
  rw [hhist, History.startOf, History.startOf, hext.parent (ho.trans_le h.dag.next)]

omit [FactReads F] in
/-- The index brought further up to date. -/
theorem Since.catchUp {v : Family F N} (hs : IndexSettled w) (h : Since w v b) (hv : v.history.Sound)
    (budget : Option Nat) :
    Since w { v with history := v.history.catchUp v.dag v.states budget } b := by
  have hon := hv.catchUp v.dag v.states budget
  refine ⟨h.dag, h.state, fun o ho => (h.start o ho).trans (hon.start o),
    fun x hx => hon.adds.kept x (h.kept x hx), fun x hx => ?_⟩
  rcases hon.adds.fresh x hx with hx | ⟨hstart, i, hi, hcur⟩
  · exact h.fresh x hx
  · refine .inr fun hlt => ⟨?_, (h.start _ hlt).trans_lt hstart⟩
    -- the branch itself has no version that was not indexed
    rintro rfl
    have hle := (hs.indexed _ i (h.state ▸ hi)).trans (h.start _ hlt)
    omega

omit [FactReads F] in
/-- **What a backfollow finds on the branch is what it found.** -/
theorem Since.onBranch_backfollow (hs : IndexSettled w) (h : Since w w' b) (hk : Kept w) (hk' : Kept w')
    (hb : b < w.dag.next) (t : F) (lo hi : Tuple) :
    onBranch b (Grmpl.backfollow w'.history w'.dag w'.states t lo hi) =
      onBranch b (Grmpl.backfollow w.history w.dag w.states t lo hi) := by
  have hb' := hb.trans_le h.dag.next
  refine hk.history.onBranch_backfollow hk'.history h.state (fun e o => ?_) (fun x r hx => ?_) t lo hi
  · rw [Dag.mem_inheritors hk'.dag hb', Dag.mem_inheritors hk.dag hb, h.dag.inherits hk.dag hk'.dag hb]
  · rw [Dag.mem_inheritors hk.dag hb] at hx
    refine ⟨fun hin => ?_, fun hin => h.kept _ hin⟩
    rcases h.fresh _ hin with hin | hnew
    · exact hin
    · -- a version indexed since is past every fork taken before
      obtain ⟨hne, hlt⟩ := hnew ((hx.le hk.dag).trans_lt hb)
      cases hx with
      | self => exact absurd rfl hne
      | child hc hp hle _ =>
        have hfork := hs.forks _ hc _ hp
        dsimp only at hlt hfork
        omega

theorem Since.step (hs : IndexSettled w) {v v' : Family F N} (h : Since w v b) (hv : Kept v)
    (hb : b < w.dag.next) (hok : Apart b v a) (hst : v.step a = some v') : Since w v' b := by
  have hbv := hb.trans_le h.dag.next
  have hext := (hv.step hst).2
  have hstate : v'.states b = v.states b := by
    rw [Family.states, (isolated_step hbv hok hst).2]
    rfl
  cases happens_of_step hst with
  | index budget => exact h.catchUp hs hv.history budget
  | _ => exact h.of_same hext hstate rfl

theorem isolated_run (hk : Kept w) (hb : b < w.dag.next) (hrun : Run Family.step (Apart b) w w') :
    (∀ (k : Nat) (s : BranchState F), w.stores[k]? = some (b, s) → w'.stores[k]? = some (b, s)) ∧
      lookup b w'.branches = lookup b w.branches := by
  have hall : Kept w' ∧ w.dag.Extends w'.dag ∧
      (∀ (k : Nat) (s : BranchState F), w.stores[k]? = some (b, s) → w'.stores[k]? = some (b, s)) ∧
      lookup b w'.branches = lookup b w.branches := by
    refine hrun.invariant (I := fun v => Kept v ∧ w.dag.Extends v.dag ∧
      (∀ (k : Nat) (s : BranchState F), w.stores[k]? = some (b, s) → v.stores[k]? = some (b, s)) ∧
      lookup b v.branches = lookup b w.branches) ⟨hk, .refl _, fun _ _ h => h, rfl⟩ ?_
    rintro v a v' ⟨hv, hext, hst, hbr⟩ hok hstep
    obtain ⟨hv', hext'⟩ := hv.step hstep
    obtain ⟨h1, h2⟩ := isolated_step (hb.trans_le hext.next) hok hstep
    exact ⟨hv', hext.trans hext', fun k s h => h1 k s (hst k s h), h2.trans hbr⟩
  exact hall.2.2

/-! ## The laws -/

omit [FactReads F] in
/-- A fork into the past has no arrangements yet. -/
theorem forkAt_orders {i : Inner F} {at' : Nat} (hne : at' ≠ i.current) {rel : RelId} {r : RelRoots F}
    (hr : (i.forkAt at').roots rel = some r) : r.orders = [] := by
  unfold Inner.forkAt at hr
  rw [if_neg hne] at hr
  obtain ⟨x, -, heq⟩ := List.mem_filterMap.1 (mem_of_lookup hr)
  dsimp only at heq
  split_ifs at heq
  cases heq
  rfl

/-- A lookup of keys some of which have no successor reads the same rows alike at any
edition. -/
theorem lookupRows_past {i j : Inner F} {rel : RelId} {at' col : Nat} {keys : List Value}
    (hw : j.watermark = i.watermark) (hf : j.factAt rel at' = i.factAt rel at')
    (hsp : Inner.spans (Inner.keySet keys) = none) :
    (j.lookupRows rel at' col keys).2 = (i.lookupRows rel at' col keys).2 := by
  unfold Inner.lookupRows
  dsimp only
  rw [hsp, hw, hf]
  dsimp only
  split_ifs <;> rfl

/-- What a fork taken at an edition of its parent's answers at each edition up to it. -/
structure Faithful (s c : BranchState F) (at' : Nat) (rel : RelId) (e : Nat) : Prop where
  readAt : c.inner.readAt rel e = s.inner.readAt rel e
  scanUpdates : ∀ start, c.inner.scanUpdates rel start e = s.inner.scanUpdates rel start e
  readRange : ∀ lo hi, c.inner.readRange rel e lo hi = s.inner.readRange rel e lo hi
  readContaining : ∀ first last points,
    c.inner.readContaining rel e first last points = s.inner.readContaining rel e first last points
  schemaAt : c.ctx.schemaAt rel e = s.ctx.schemaAt rel e
  /-- By a column, alike but at the fork's own edition where the parent has gone on. -/
  readRangeOn : ∀ col, e < at' ∨ at' = s.inner.current ∨ col = 0 ∨ s.inner.layoutOf rel = .kd →
    ∀ lo hi, (c.inner.readRangeOn rel e col lo hi).2 = (s.inner.readRangeOn rel e col lo hi).2
  lookupRows : ∀ col, e < at' ∨ at' = s.inner.current ∨ col = 0 ∨ s.inner.layoutOf rel = .kd →
    ∀ keys, (c.inner.lookupRows rel e col keys).2 = (s.inner.lookupRows rel e col keys).2
  /-- There, by an arrangement of the rows: the same rows, in the column's order. -/
  readRangeOnFresh : ∀ col, e = at' → at' < s.inner.current → col ≠ 0 →
    s.inner.layoutOf rel = .ordered → ∀ lo hi, (c.inner.readRangeOn rel e col lo hi).2 =
      .ok (keepRows (inColumn col lo hi) (Inner.byColumn col (s.inner.rowsAt rel e)))
  lookupRowsFresh : ∀ col, e = at' → at' < s.inner.current → col ≠ 0 →
    s.inner.layoutOf rel = .ordered → ∀ keys, (c.inner.lookupRows rel e col keys).2 =
      if (Inner.spans (Inner.keySet keys)).isSome then
        .ok (keepRows (hasKey col keys) (Inner.byColumn col (s.inner.rowsAt rel e)))
      else (s.inner.lookupRows rel e col keys).2

/-- **A fork answers what its parent does.** -/
theorem fork_faithful [Arranges F] {s : BranchState F} (hs : Sorted s.inner.rels) {at' : Nat}
    (hw : s.inner.watermark ≤ at') (hat : at' ≤ s.inner.current) (rel : RelId) {e : Nat}
    (he : e ≤ at') : Faithful s (s.forkAt at') at' rel e := by
  have hbelow : Inner.SameBelow (at' + 1) s.inner (s.forkAt at').inner := Inner.forkAt_sameBelow hs at'
  have hlt : e < at' + 1 := Nat.lt_succ_of_le he
  have halike : ∀ col, e < at' ∨ at' = s.inner.current ∨ col = 0 ∨ s.inner.layoutOf rel = .kd →
      Inner.ReadsAlike s.inner (s.forkAt at').inner rel e col := by
    intro col hplace
    refine hbelow.readsAlike hlt rfl col ?_
    rcases hplace with hpast | hnow | hlead
    · exact .inl ⟨(hpast.trans_le hat).ne, hpast.ne⟩
    · refine .inr (.inl ⟨hnow, ?_⟩)
      rw [BranchState.forkAt, Inner.forkAt, if_pos hnow]
      rfl
    · exact .inr (.inr hlead)
  have hfact : (s.forkAt at').inner.factAt rel e = s.inner.factAt rel e := hbelow.factAt hlt rel
  have hrows : (s.forkAt at').inner.rowsAt rel e = s.inner.rowsAt rel e := by
    rw [Inner.rowsAt, Inner.rowsAt, hfact]
  refine ⟨hbelow.readAt hlt rel, fun start => hbelow.scanUpdates rel hlt,
    (halike 0 (.inr (.inr (.inl rfl)))).readRange, (halike 0 (.inr (.inr (.inl rfl)))).readContaining, rfl,
    fun col hp => (halike col hp).readRangeOn, fun col hp => (halike col hp).lookupRows, ?_, ?_⟩
  · rintro col rfl hpast hcol hlay lo hi
    rw [← hrows]
    exact Inner.readRangeOn_fresh (i := (s.forkAt e).inner) (not_lt.2 hw)
      (fun r hr => forkAt_orders hpast.ne hr) hcol hlay lo hi
  · rintro col rfl hpast hcol hlay keys
    split_ifs with hsp
    · rw [← hrows]
      exact Inner.lookupRows_fresh (i := (s.forkAt e).inner) (not_lt.2 hw)
        (fun r hr => forkAt_orders hpast.ne hr) hcol hlay hsp
    · exact lookupRows_past rfl hfact (Option.not_isSome_iff_eq_none.1 hsp)

omit [FactReads F] in
/-- And it finds what its parent finds of its rows, asked of the same world. -/
theorem fork_backfollow {s : BranchState F} (hs : Sorted s.inner.rels) {at' e : Nat} (he : e ≤ at')
    (w : Family F N) (rel : RelId) (lo hi : Tuple) :
    w.backfollow (s.forkAt at') rel e lo hi = w.backfollow s rel e lo hi := by
  have hbelow : Inner.SameBelow (at' + 1) s.inner (s.forkAt at').inner := Inner.forkAt_sameBelow hs at'
  unfold Family.backfollow
  rw [hbelow.factAt (Nat.lt_succ_of_le he) rel]
  rfl

theorem kept_index (h : Kept w) (budget : Option Nat) :
    Kept { w with history := w.history.catchUp w.dag w.states budget } :=
  (h.step (a := .index budget) rfl).1

theorem solo_run (h : Run Family.step Live (Family.new : Family F N) w) : Solo w :=
  (h.invariant (I := fun w => Kept w ∧ Solo w) ⟨kept_new, solo_new⟩ fun _ _ _ hw hok hst =>
    ⟨(hw.1.step hst).1, hw.2.step hw.1 hok hst⟩).2

/-- What a branch's stores find on the branch after others' steps is what they found
when the index was brought up to date. -/
theorem backfollow_since {w₁ w₂ : Family F N} (hs : IndexSettled w₁) (hk : Kept w₁) (hk' : Kept w₂)
    (h : Since w₁ w₂ b) (hb : b < w₁.dag.next) (s : BranchState F) (rel : RelId) (e : Nat)
    (lo hi : Tuple) : onBranch b <$> w₂.backfollow s rel e lo hi =
      if e < s.inner.watermark then .error (door "backfollow" e s.inner.watermark)
      else .ok (((s.inner.factAt rel e).map fun t =>
        onBranch b (Grmpl.backfollow w₁.history w₁.dag w₁.states t lo hi)).getD []) := by
  unfold Family.backfollow
  split_ifs
  · rfl
  · refine congrArg Except.ok ?_
    cases s.inner.factAt rel e with
    | none => rfl
    | some t =>
      exact (h.catchUp hs hk'.history none).onBranch_backfollow hs hk (kept_index hk' none) hb t lo hi

/-- **Forks are faithful and isolated.** In every world, a fork at an edition its parent
has answers at each edition up to it what the parent answers, by backfollow too when
both are asked of one world; and whatever is done through stores of other branches
leaves a store's branch as it is, so every answer made from it. A backfollow lists the
versions of every branch; of what it lists, the versions on the store's own branch
stay, in a world with one store a branch, once it has been asked. -/
theorem forks_faithful_isolated [Arranges F] (hrun : Run Family.step Any Family.new w) {k : Nat}
    {s : BranchState F} (hs : w.stores[k]? = some (b, s)) :
    (∀ at' ≤ s.inner.current, ∀ w', w.step (.on k (.fork at')) = some w' → ∃ c,
      w'.stores[w.stores.length]? = some (w.dag.next, c) ∧ w'.stores[k]? = some (b, s) ∧
      ∀ rel, ∀ e ≤ at', Faithful s c at' rel e ∧
        ∀ lo hi, w'.backfollow c rel e lo hi = w'.backfollow s rel e lo hi) ∧
    (∀ w', Run Family.step (Apart b) w w' → w'.stores[k]? = some (b, s) ∧
      lookup b w'.branches = lookup b w.branches) ∧
    (Run Family.step Live Family.new w → ∀ w₁ w₂, w.step (.index none) = some w₁ →
      Run Family.step (Apart b) w₁ w₂ → ∀ rel e lo hi,
        onBranch b <$> w₂.backfollow s rel e lo hi = onBranch b <$> w₁.backfollow s rel e lo hi) := by
  have hk := kept_run hrun
  obtain ⟨hb, hsorted⟩ := hk.stores _ (List.mem_of_getElem? hs)
  refine ⟨fun at' hat w' hst => ?_, fun w' hr => ?_, fun hlive w₁ w₂ hw₁ hr rel e lo hi => ?_⟩
  · cases happens_of_step hst with
    | read _ hread => cases hread
    | write _ hwrite => cases hwrite
    | fork hs' hw =>
        obtain ⟨rfl, rfl⟩ := Prod.mk.inj (Option.some.inj (hs.symm.trans hs'))
        refine ⟨s.forkAt at', List.getElem?_concat_length .., ?_, fun rel e he =>
          ⟨fork_faithful hsorted hw hat rel he, fork_backfollow hsorted he _ rel⟩⟩
        exact (List.getElem?_append_left (List.getElem?_eq_some_iff.1 hs).1).trans hs
  · obtain ⟨h1, h2⟩ := isolated_run hk hb hr
    exact ⟨h1 k s hs, h2⟩
  · cases hw₁
    have hset := (solo_run hlive).settled hk
    have hk₁ := kept_index hk none
    obtain ⟨hk₂, hsince⟩ := hr.invariant (I := fun v => Kept v ∧ Since _ v b) ⟨hk₁, .refl _ b⟩
      fun _ _ _ hv hok hst => ⟨(hv.1.step hst).1, hv.2.step hset hv.1 hb hok hst⟩
    rw [backfollow_since hset hk₁ hk₂ hsince hb, backfollow_since hset hk₁ hk₁ (.refl _ b) hb]

/-- A row committed, its branch forked, and the row committed again to another relation
of the parent. -/
def sharedRow : List FamilyAct :=
  [.on 0 (.commit [] [(1, Inner.entKey 5, 1)]), .on 0 (.fork 1)]

/-- Two rows out of a column's order, and an edition past them. -/
def crossedRows : List FamilyAct :=
  [.on 0 (.commit [] [(1, ⟨[.int 1, .int 9]⟩, 1), (1, ⟨[.int 2, .int 3]⟩, 1)]), .on 0 (.commit [] [])]

theorem forks_faithful_isolated_sample : ∃ (w : Family FactRows FactRows) (s : BranchState FactRows),
    Run Family.step Any Family.new w ∧ w.stores[1]? = some (1, s) ∧
      (∀ w', Run Family.step (Apart 1) w w' → w'.stores[1]? = some (1, s) ∧
        lookup 1 w'.branches = lookup 1 w.branches) := by
  have hex : (execute Family.step (Family.new : Family FactRows FactRows) sharedRow).isSome = true := by
    decide +kernel
  have hrun : Run Family.step Any Family.new _ := .after hex
  obtain ⟨x, hx, hb⟩ : ∃ x, (after Family.step (Family.new : Family FactRows FactRows)
      sharedRow).stores[1]? = some x ∧ x.1 = 1 := by
    decide +kernel
  obtain ⟨b, s⟩ := x
  subst hb
  exact ⟨_, s, hrun, hx, (forks_faithful_isolated hrun hx).2.1⟩

/-- A backfollow of a fork's row finds it in a relation of the parent written since, and
a read of a fork by a column lists rows its parent lists in another order. -/
theorem forks_not_exact :
    (¬ ∀ (w : Family FactRows FactRows) (k b : Nat) (s : BranchState FactRows) (w' : Family FactRows FactRows),
      Run Family.step Any Family.new w → w.stores[k]? = some (b, s) → Run Family.step (Apart b) w w' →
        ∀ rel e lo hi, w'.backfollow s rel e lo hi = w.backfollow s rel e lo hi) ∧
    (¬ ∀ (w w' : Family FactRows FactRows) (k b at' : Nat) (s c : BranchState FactRows),
      Run Family.step Any Family.new w → w.stores[k]? = some (b, s) → at' ≤ s.inner.current →
        w.step (.on k (.fork at')) = some w' → w'.stores[w.stores.length]? = some (w.dag.next, c) →
        ∀ rel col lo hi, (c.inner.readRangeOn rel at' col lo hi).2 =
          (s.inner.readRangeOn rel at' col lo hi).2) := by
  constructor
  · intro h
    have hex : (execute Family.step (Family.new : Family FactRows FactRows) sharedRow).isSome = true := by
      decide +kernel
    set w := after Family.step (Family.new : Family FactRows FactRows) sharedRow with hw
    obtain ⟨⟨b, s⟩, hx, hb, w', hw', hne⟩ : ∃ x, w.stores[1]? = some x ∧ x.1 = 1 ∧
        ∃ w', w.step (.on 0 (.commit [] [(2, Inner.entKey 5, 1)])) = some w' ∧
          (w'.backfollow x.2 1 1 (Inner.entKey 0) (Inner.entKey 9)).toOption.map List.length ≠
            (w.backfollow x.2 1 1 (Inner.entKey 0) (Inner.entKey 9)).toOption.map List.length := by
      rw [hw]
      decide +kernel
    have hapart : Apart b w (.on 0 (.commit [] [(2, Inner.entKey 5, 1)])) := by
      dsimp only at hb
      subst hb
      show ∀ x ∈ w.stores[0]?, x.1 ≠ 1
      rw [hw]
      decide +kernel
    exact hne (by rw [h w 1 b s w' (.after hex) hx (.snoc .start hapart hw') 1 1])
  · intro h
    have hex : (execute Family.step (Family.new : Family FactRows FactRows) crossedRows).isSome = true := by
      decide +kernel
    set w := after Family.step (Family.new : Family FactRows FactRows) crossedRows with hw
    obtain ⟨⟨b, s⟩, hx, hle, w', hw', ⟨n, c⟩, hc, hn, hne⟩ : ∃ x, w.stores[0]? = some x ∧
        1 ≤ x.2.inner.current ∧ ∃ w', w.step (.on 0 (.fork 1)) = some w' ∧
          ∃ y, w'.stores[w.stores.length]? = some y ∧ y.1 = w.dag.next ∧
            ((y.2.inner.readRangeOn 1 1 1 (.int 0) (.int 100)).2).toOption ≠
              ((x.2.inner.readRangeOn 1 1 1 (.int 0) (.int 100)).2).toOption := by
      rw [hw]
      decide +kernel
    dsimp only at hn
    subst hn
    exact hne (by rw [h w w' 0 b 1 s c (.after hex) hx hle hw' hc])

end Grmpl

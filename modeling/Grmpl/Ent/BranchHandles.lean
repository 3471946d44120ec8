import Grmpl.Ent.Recovery

/-!
# Two handles of one branch

A handle has its own copy of its branch's state, and a commit edits only that copy
and the root's. So a branch's handles agree as long as whoever commits holds the only
live one.

* `Sole`: the condition on a step.
* `HandlesCurrent`: every live handle is at its branch's current edition.
* `EditionsApart`: two commits of one branch are numbered apart.
* `NoLostUpdate`: what an acknowledged commit may count on.
* `no_lost_update`: where the condition holds it may.
-/

open OrdMap Runs

namespace Grmpl

open World EntRoot

variable {F C : Type} [DecidableEq C] [Framed F C] [FactEnf F]

/-- A commit is made through its branch's only live handle, and a fork's handle is
made before anyone has committed to the fork. -/
def Sole (w : World F C) : Action → Prop
  | .commit h _ _ => ∀ k ∈ w.freeHandle h, ∀ o ∈ w.handles.set h none, ∀ k' ∈ o, k'.branch ≠ k.branch
  | .adopt c => ∀ call ∈ w.calls[c]?, ∀ x ∈ call.op.staged,
      (w.root.state x.2.1).map Inner.current = some x.2.2.current
  | _ => True

instance (w : World F C) : (a : Action) → Decidable (Sole w a)
  | .commit h _ _ => inferInstanceAs (Decidable (∀ k ∈ w.freeHandle h, ∀ o ∈ w.handles.set h none, ∀ k' ∈ o,
      k'.branch ≠ k.branch))
  | .adopt c => inferInstanceAs (Decidable (∀ call ∈ w.calls[c]?, ∀ x ∈ call.op.staged,
      (w.root.state x.2.1).map Inner.current = some x.2.2.current))
  | .flush | .fork .. | .forkStage _ | .merge .. | .branch _ | .drop _ | .lead _ | .wrote .. | .finish _ =>
      .isTrue trivial

/-- Every live handle is at its branch's current edition. -/
def HandlesCurrent (w : World F C) : Prop :=
  ∀ k, some k ∈ w.handles → (w.root.state k.branch).map Inner.current = some k.inner.current

/-- Two commits of one branch were numbered apart. -/
def EditionsApart (w : World F C) : Prop :=
  ∀ (i j : Nat) (x y : Call F), w.calls[i]? = some x → w.calls[j]? = some y →
    ∀ h b s u st h' s' u' st', x.op = .commit h b s u st → y.op = .commit h' b s' u' st' →
      st.current = st'.current → i = j

variable {w w' : World F C} {a : Action}

omit [DecidableEq C] [Framed F C] [FactEnf F] in
/-- A live handle left is one that was live elsewhere, or the one set. -/
theorem mem_set_handle {i : Nat} {o : Option (Handle F)} {k : Handle F}
    (h : some k ∈ w.handles.set i o) : some k ∈ w.handles.set i none ∨ o = some k := by
  obtain ⟨j, hj⟩ := List.mem_iff_getElem?.1 h
  rw [List.getElem?_set] at hj
  split_ifs at hj with hij hlt
  · exact .inr (Option.some.inj hj)
  · refine .inl (List.mem_iff_getElem?.2 ⟨j, ?_⟩)
    rw [List.getElem?_set_ne hij]
    exact hj

omit [DecidableEq C] [Framed F C] [FactEnf F] in
theorem mem_of_set_none {i : Nat} {k : Handle F} (h : some k ∈ w.handles.set i none) :
    some k ∈ w.handles := by
  rcases List.mem_or_eq_of_mem_set h with h | h
  · exact h
  · cases h

omit [FactEnf F] in
/-- What a stage leaves of another branch. -/
theorem state_stageIn_ne (w : World F C) {b b' : BranchId} (h : b' ≠ b) (inner : Inner F) :
    (w.stageIn b inner).root.state b' = w.root.state b' := by
  show (lookup b' w.root.dag.branches).map (fun _ => (lookup b' (put b inner w.root.branches)).getD _) = _
  rw [lookup_put_ne h]
  rfl

omit [FactEnf F] in
/-- And of its own. -/
theorem state_stageIn_self (w : World F C) {b : BranchId} (inner : Inner F)
    (h : (lookup b w.root.dag.branches).isSome = true) :
    (w.stageIn b inner).root.state b = some inner := by
  refine state_eq_some.2 ⟨h, ?_⟩
  show (lookup b (put b inner w.root.branches)).getD Inner.empty = inner
  rw [lookup_put_self]
  rfl

omit [FactEnf F] in
/-- A new branch leaves the state of every branch numbered before it. -/
theorem state_spawn (w : World F C) {b : BranchId} (h : b < w.root.dag.next) (parents : Branch)
    (inner : Inner F) : (w.spawn (⟨put w.root.dag.next parents w.root.dag.branches,
      w.root.dag.next + 1⟩, w.root.dag.next) inner).root.state b = w.root.state b := by
  rw [World.spawn, state_stageIn_ne _ h.ne]
  show (lookup b (put w.root.dag.next parents w.root.dag.branches)).map _ = _
  rw [lookup_put_ne h.ne]
  rfl

omit [DecidableEq C] [Framed F C] [FactEnf F] in
/-- A commit through a current handle is up to date. -/
theorem HandlesCurrent.upToDate (hc : HandlesCurrent w) : UpToDate w a := by
  cases a with
  | commit i pre updates => exact fun k hk => hc k (mem_of_getElem? (handle_of_free hk))
  | _ => trivial

theorem handlesCurrent_step (h : HandlesCurrent w) (hchain : ChainInv w) (hok : Sole w a)
    (hd : Does w a w') : HandlesCurrent w' := by
  have hset : ∀ {i : Nat} {k : Handle F} (held : Bool), w.handles[i]? = some (some k) →
      ∀ k', some k' ∈ w.handles.set i (some { k with held }) →
        (w.root.state k'.branch).map Inner.current = some k'.inner.current := by
    intro i k held hk k' hk'
    rcases List.mem_or_eq_of_mem_set hk' with hk' | hk'
    · exact h k' hk'
    · obtain rfl := Option.some.inj hk'
      exact h k (mem_of_getElem? hk)
  have hbefore : ∀ k, some k ∈ w.handles → k.branch < w.root.dag.next := by
    intro k hk
    obtain ⟨-, s, hs, -⟩ := hchain.handles k hk
    exact hchain.root.numbered _ (state_eq_some.1 hs).1
  cases hd with
  | commit i pre updates k hk =>
    obtain ⟨-, s, hs, -⟩ := hchain.handles k (mem_of_getElem? (handle_of_free hk))
    intro k' hk'
    rcases mem_set_handle hk' with hk' | hk'
    · -- another handle is on another branch
      have hne := hok k hk _ hk' k' rfl
      show ((w.stageIn k.branch _).root.state k'.branch).map Inner.current = _
      rw [state_stageIn_ne w hne]
      exact h k' (mem_of_set_none hk')
    · obtain rfl := Option.some.inj hk'
      show ((w.stageIn k.branch _).root.state k.branch).map Inner.current = _
      rw [state_stageIn_self w _ (state_eq_some.1 hs).1]
      rfl
  | fork i at' k hk hat => exact hset true (handle_of_free hk)
  | forkFailed c i at' k e hc hk => exact hset false hk
  | forkStage c i at' k hc hk =>
    intro k' hk'
    have hb : k'.branch < w.root.dag.next := by
      rcases List.mem_or_eq_of_mem_set hk' with hk' | hk'
      · exact hbefore k' hk'
      · obtain rfl := Option.some.inj hk'
        exact hbefore k (mem_of_getElem? hk)
    show ((w.spawn (⟨put w.root.dag.next _ w.root.dag.branches, w.root.dag.next + 1⟩,
      w.root.dag.next) _).root.state k'.branch).map Inner.current = _
    rw [state_spawn w hb]
    exact hset false hk k' hk'
  | merge i j todo k theirs merged dag hk hm hdag =>
    obtain ⟨parents, rfl⟩ := hdag
    intro k' hk'
    show ((w.spawn (⟨put w.root.dag.next parents w.root.dag.branches, w.root.dag.next + 1⟩,
      w.root.dag.next) _).root.state k'.branch).map Inner.current = _
    rw [state_spawn w (hbefore k' hk')]
    exact h k' hk'
  | branch b inner hb =>
    intro k hk
    rcases List.mem_append.1 hk with hk | hk
    · exact h k hk
    · obtain rfl := Option.some.inj (List.mem_singleton.1 hk)
      show (w.root.state b).map Inner.current = _
      rw [hb]
      rfl
  | adopt c b seq state hc =>
    intro k hk
    rcases List.mem_append.1 hk with hk | hk
    · exact h k hk
    · obtain rfl := Option.some.inj (List.mem_singleton.1 hk)
      exact hok _ hc (seq, b, state) rfl
  | drop i k hk => exact fun k' hk' => h k' (mem_of_set_none hk')
  | wrote c op target outcome hc =>
    intro k hk
    rw [endWrite_handles] at hk
    have hroot : (w.endWrite c op target outcome).root = w.root := endWrite_root c op target outcome
    rw [hroot]
    exact h k hk
  | refused => exact h
  | conflict => exact h
  | flush => exact h
  | leadNothing => exact h
  | lead => exact h
  | doomed => exact h
  | finish => exact h

omit [DecidableEq C] [Framed F C] in
/-- A commit already made lies below one made through a current handle of its branch. -/
theorem edition_lt (hchain : ChainInv w) (hc : HandlesCurrent w) {x y : Call F} (hx : x ∈ w.calls)
    (hy : NewOp w w' y.op) {h h' s s' : Nat} {b : BranchId} {u u' : List (RelId × Tuple × Diff)}
    {st st' : Inner F} (hxop : x.op = .commit h b s u st) (hyop : y.op = .commit h' b s' u' st') :
    st.current < st'.current := by
  rw [hyop] at hy
  cases hy with
  | commit _ pre _ k hk _ =>
    obtain ⟨-, ⟨t, ht, hx⟩, -⟩ := hchain.calls x hx s k.branch st (by rw [hxop]; rfl)
    have hcur := hc k (mem_of_getElem? (handle_of_free hk))
    have hstate : w.root.state k.branch = some t :=
      state_eq_some.2 ⟨hchain.root.known _ t ht, by rw [ht]; rfl⟩
    rw [hstate] at hcur
    have hle := hx.current
    rw [show t.current = k.inner.current from Option.some.inj hcur] at hle
    exact Nat.lt_succ_of_le hle

theorem editionsApart_step (h : EditionsApart w) (hchain : ChainInv w) (hc : HandlesCurrent w)
    (hd : Does w a w') : EditionsApart w' := by
  intro i j x y hi hj p b s u st p' s' u' st' hxop hyop hcur
  rcases op_step hd hi with ⟨x₀, hx₀, hxop₀⟩ | ⟨hx, hilast⟩
  · rcases op_step hd hj with ⟨y₀, hy₀, hyop₀⟩ | ⟨hy, -⟩
    · exact h i j x₀ y₀ hx₀ hy₀ p b s u st p' s' u' st' (hxop₀.trans hxop) (hyop₀.trans hyop) hcur
    · have := edition_lt hchain hc (mem_of_getElem? hx₀) hy (hxop₀.trans hxop) hyop
      omega
  · rcases op_step hd hj with ⟨y₀, hy₀, hyop₀⟩ | ⟨-, hjlast⟩
    · have := edition_lt hchain hc (mem_of_getElem? hy₀) hx (hyop₀.trans hyop) hxop
      omega
    · rw [hilast (by rw [hxop]; rfl), hjlast (by rw [hyop]; rfl)]

/-- What an acknowledged commit may count on: every live handle of its branch shows
it, and a handle made or a world opened now would, and its edition is its own. -/
structure NoLostUpdate (w : World F C) : Prop where
  handles : ∀ call ∈ w.calls, ∀ h b s updates state, call.op = .commit h b s updates state →
    call.pc = .returned (.ok ()) → ∀ k, some k ∈ w.handles → k.branch = b →
      state.Extends k.inner ∧ k.inner.Shows state.current updates
  root : ∀ call ∈ w.calls, ∀ h b s updates state, call.op = .commit h b s updates state →
    call.pc = .returned (.ok ()) →
      ∃ r, w.root.state b = some r ∧ state.Extends r ∧ r.Shows state.current updates
  disk : ∀ call ∈ w.calls, ∀ h b s updates state, call.op = .commit h b s updates state →
    call.pc = .returned (.ok ()) →
      ∃ r, w.disk.state b = some r ∧ state.Extends r ∧ r.Shows state.current updates
  apart : EditionsApart w

omit [DecidableEq C] in
theorem HistoryInv.noLostUpdate (h : HistoryInv w) (hc : HandlesCurrent w) (ha : EditionsApart w) :
    NoLostUpdate w := by
  have hroot : ∀ call ∈ w.calls, ∀ i b s updates state, call.op = .commit i b s updates state →
      ∃ r, w.root.state b = some r ∧ state.Extends r ∧ r.Shows state.current updates := by
    intro call hcall i b s updates state hop
    obtain ⟨-, ⟨r, hr, hx⟩, -⟩ := h.chain.calls call hcall s b state (by rw [hop]; rfl)
    refine ⟨r, state_eq_some.2 ⟨h.chain.root.known b r hr, by rw [hr]; rfl⟩, hx, ?_⟩
    exact (h.shown call hcall i b s updates state hop).extends hx
  refine ⟨fun call hcall i b s updates state hop _ k hk hb => ?_,
    fun call hcall i b s updates state hop _ => hroot call hcall i b s updates state hop,
    h.recovers.commits, ha⟩
  subst hb
  obtain ⟨r, hr, hx, hshow⟩ := hroot call hcall i k.branch s updates state hop
  obtain ⟨-, r', hr', hk'⟩ := h.chain.handles k hk
  obtain rfl := Option.some.inj (hr.symm.trans hr')
  have hcur := hc k hk
  rw [hr] at hcur
  have hback := hk'.symm (Option.some.inj hcur)
  exact ⟨hx.trans hback, hshow.extends hback⟩

/-- **No update is lost between handles of one branch**, in every run where whoever
commits holds the branch's only live handle. -/
theorem no_lost_update {stored known : List C} {disk : EntRoot F} {b : BranchId} {inner : Inner F}
    (hdisk : disk.WF) (hb : disk.state b = some inner)
    (hknown : (Framed.nodes F).Backed stored known)
    (hstored : (Framed.nodes F).Closed stored (Framed.slots disk))
    (hrun : Run World.step Sole (World.opened stored known disk b inner) w) : NoLostUpdate w := by
  have hinv : HistoryInv w ∧ HandlesCurrent w ∧ EditionsApart w := by
    refine hrun.invariant (I := fun v => HistoryInv v ∧ HandlesCurrent v ∧ EditionsApart v)
      ⟨historyInv_opened hdisk hb hknown hstored, fun k hk => ?_, fun i j x y hi => ?_⟩ ?_
    · obtain rfl := Option.some.inj (List.mem_singleton.1 hk)
      show (disk.state b).map Inner.current = _
      rw [hb]
      rfl
    · exact absurd hi (by simp [World.opened, World.on])
    · rintro v a v' ⟨hv, hc, ha⟩ hok hst
      have hd := step_does hst
      exact ⟨historyInv_step hv hc.upToDate hd, handlesCurrent_step hc hv.chain hok hd,
        editionsApart_step ha hv.chain hc hd⟩
  exact hinv.1.noLostUpdate hinv.2.1 hinv.2.2

/-! ## Two commits as one edition -/

/-- Both handles of one branch are told their commit is edition 1. -/
theorem acknowledged_commits_collide : ∃ w : World FactRows (BranchId × Nat),
    Run World.step Any freshWorld w ∧ ¬ NoLostUpdate w := by
  have hex : (execute World.step freshWorld twoHandles).isSome = true := by decide +kernel
  refine ⟨after World.step freshWorld twoHandles, .after hex, fun h => ?_⟩
  have hcall : ∀ i : Fin 2, ((after World.step freshWorld twoHandles).calls[i.val]?).map
      (fun call => (call.op.handle, call.pc.isAcknowledged, call.op.staged.map fun x =>
        (x.2.1, x.2.2.current))) = some (some i.val, true, some (0, 1)) := by decide +kernel
  obtain ⟨x, hx, hxcall⟩ := Option.map_eq_some_iff.1 (hcall 0)
  obtain ⟨y, hy, hycall⟩ := Option.map_eq_some_iff.1 (hcall 1)
  obtain ⟨b, s, u, st, hxop⟩ := Op.handle_eq_some.1 (congrArg Prod.fst hxcall)
  obtain ⟨b', s', u', st', hyop⟩ := Op.handle_eq_some.1 (congrArg Prod.fst hycall)
  simp only [hxop, hyop, Op.staged, Option.map_some, Prod.mk.injEq, Option.some.injEq] at hxcall hycall
  obtain ⟨-, -, rfl, hst⟩ := hxcall
  obtain ⟨-, -, rfl, hst'⟩ := hycall
  exact absurd (h.apart 0 1 x y hx hy _ _ s u st _ s' u' st' hxop hyop (hst.trans hst'.symm)) (by simp)

/-- One handle commits twice, is dropped, and the next handle commits once. -/
def oneHandle : List Action :=
  [.commit 0 [] (assertInt 1), .lead 0, .wrote 0 .landed, .finish 0, .commit 0 [] (assertInt 2),
    .drop 0, .branch 0, .commit 1 [] (assertInt 3), .lead 1, .wrote 1 .landed, .finish 1, .finish 2]

theorem no_lost_update_sample : ∃ w : World FactRows (BranchId × Nat),
    Run World.step Sole freshWorld w ∧ w.disk.edition 0 = 3 ∧ NoLostUpdate w := by
  have hex : (executeChecked World.step (fun w a => decide (Sole w a)) freshWorld
      oneHandle).isSome = true := by decide +kernel
  have hrun : Run World.step Sole freshWorld _ := Run.afterChecked (by simp) hex
  have hnone : (Framed.nodes FactRows).Closed [] (Framed.slots (EntRoot.empty : EntRoot FactRows)) :=
    fun r hr => absurd hr (by simp [Framed.slots, EntRoot.empty])
  exact ⟨_, hrun, by decide +kernel,
    no_lost_update EntRoot.wf_empty rfl (fun c hc => absurd hc (by simp)) hnone hrun⟩

end Grmpl

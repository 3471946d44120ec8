import Grmpl.Ent.DurableHistory

/-!
# Commits survive a crash

A group's batch is the nodes each of its stages found unknown, with the last stage's
root record. A node is skipped only if it is known to be stored with everything it
reaches, so whatever root is on disk has its nodes there too.

* `StoreInv`: the root on disk is closed, and each staged root is once its own nodes
  are added.
* `CommitsShown`: the state a commit staged shows its patch.
* `Recovers`: what a crash at this moment recovers.
* `commits_survive_crashes`: every run of up-to-date commits recovers, and disk roots
  only grow.
-/

open OrdMap Runs

namespace Grmpl

open World EntRoot

variable {F C : Type} [DecidableEq C] [Framed F C]

/-- The root on disk is closed, known nodes are backed, and a staged root is closed
once its own nodes are stored. -/
structure StoreInv (w : World F C) : Prop where
  backed : (Framed.nodes F).Backed w.stored w.known
  disk : (Framed.nodes F).Closed w.stored (Framed.slots w.disk)
  roots : ∀ p ∈ w.queue, (Framed.nodes F).Closed (w.stored ++ p.nodes) (Framed.slots p.root)
  nodes : ∀ p ∈ w.queue, (Framed.nodes F).Closed (w.stored ++ p.nodes) p.nodes

variable {w w' : World F C} {a : Action}

omit [DecidableEq C] in
/-- A step that leaves the store, the disk and the queue. -/
theorem StoreInv.move (h : StoreInv w) (hstored : w'.stored = w.stored) (hknown : w'.known = w.known)
    (hdisk : w'.disk = w.disk) (hqueue : w'.queue = w.queue) : StoreInv w' where
  backed := by
    rw [hstored, hknown]
    exact h.backed
  disk := by
    rw [hstored, hdisk]
    exact h.disk
  roots := by
    rw [hstored, hqueue]
    exact h.roots
  nodes := by
    rw [hstored, hqueue]
    exact h.nodes

/-- A stage collects what its root needs beyond what is known. -/
theorem StoreInv.stageIn (h : StoreInv w) (b : BranchId) (inner : Inner F) :
    StoreInv (w.stageIn b inner) := by
  have hskip : ∀ c, decide (c ∈ w.known) = true → c ∈ w.known := fun c hc => of_decide_eq_true hc
  have hqueue : (w.stageIn b inner).queue = w.queue ++ [⟨w.dur.staged + 1, b, inner.current,
      (Framed.nodes F).collectAll (fun c => decide (c ∈ w.known))
        (Framed.slots (w.stageIn b inner).root), (w.stageIn b inner).root⟩] :=
    (List.append_assoc _ _ _).symm
  refine ⟨h.backed, h.disk, fun p hp => ?_, fun p hp => ?_⟩
  · rw [hqueue, List.mem_append, List.mem_singleton] at hp
    rcases hp with hp | rfl
    · exact h.roots p hp
    · exact Nodes.closed_collect hskip h.backed
  · rw [hqueue, List.mem_append, List.mem_singleton] at hp
    rcases hp with hp | rfl
    · exact h.nodes p hp
    · exact Nodes.backed_collect hskip h.backed

omit [DecidableEq C] in
/-- What stays queued stays closed over a larger store. -/
theorem StoreInv.grow (h : StoreInv w) {more : List C} (hstored : w'.stored = w.stored ++ more)
    (hqueue : w'.queue = w.dur.pending)
    (hknown : (Framed.nodes F).Backed w'.stored w'.known)
    (hdisk : (Framed.nodes F).Closed w'.stored (Framed.slots w'.disk)) : StoreInv w' := by
  have hsub : ∀ (p : Pending F C), ∀ c ∈ w.stored ++ p.nodes, c ∈ w'.stored ++ p.nodes := by
    intro p c hc
    rw [hstored, List.append_assoc, List.mem_append, List.mem_append]
    rcases List.mem_append.1 hc with hc | hc
    · exact .inl hc
    · exact .inr (.inr hc)
  refine ⟨hknown, hdisk, fun p hp => ?_, fun p hp => ?_⟩
  · rw [hqueue] at hp
    exact (h.roots p (List.mem_append_right _ hp)).mono (hsub p)
  · rw [hqueue] at hp
    exact (h.nodes p (List.mem_append_right _ hp)).mono (hsub p)

omit [DecidableEq C] in
/-- A batch leaves the group's last root closed, and its nodes. -/
theorem StoreInv.batch (h : StoreInv w) {p : Pending F C} (hp : w.group.getLast? = some p) :
    (Framed.nodes F).Closed (w.stored ++ w.group.flatMap Pending.nodes) (Framed.slots p.root) ∧
      (Framed.nodes F).Closed (w.stored ++ w.group.flatMap Pending.nodes)
        (w.group.flatMap Pending.nodes) := by
  have hsub : ∀ q ∈ w.group, ∀ c ∈ w.stored ++ q.nodes,
      c ∈ w.stored ++ w.group.flatMap Pending.nodes := by
    intro q hq c hc
    rcases List.mem_append.1 hc with hc | hc
    · exact List.mem_append_left _ hc
    · exact List.mem_append_right _ (List.mem_flatMap.2 ⟨q, hq, hc⟩)
  have hmem := List.mem_of_getLast? hp
  refine ⟨(h.roots p (List.mem_append_left _ hmem)).mono (hsub p hmem), fun c hc => ?_⟩
  obtain ⟨q, hq, hc⟩ := List.mem_flatMap.1 hc
  exact (h.nodes q (List.mem_append_left _ hq)).mono (hsub q hq) c hc

omit [DecidableEq C] in
/-- A write leaves the store closed, whatever becomes of it. -/
theorem StoreInv.endWrite (h : StoreInv w) {p : Pending F C} (hp : w.group.getLast? = some p)
    (c : Nat) (op : Op F) (target : Option Nat) (outcome : Outcome) :
    StoreInv (w.endWrite c op target outcome) := by
  obtain ⟨hqueue, -⟩ := settled_endWrite hp c op target outcome
  obtain ⟨hroot, hnodes⟩ := h.batch hp
  have hbatch : w.batch.stored = w.stored ++ w.group.flatMap Pending.nodes ∧
      w.batch.disk = p.root ∧ w.batch.known = w.known := by simp [World.batch, hp]
  obtain ⟨hstored, hdisk, hknown⟩ := hbatch
  cases outcome with
  | landed =>
    have hstored' : (w.endWrite c op target .landed).stored
        = w.stored ++ w.group.flatMap Pending.nodes := hstored
    have hdisk' : (w.endWrite c op target .landed).disk = p.root := hdisk
    refine h.grow hstored' hqueue ?_ ?_
    · rw [hstored']
      refine Nodes.backed_append ?_ hnodes
      exact h.backed.mono fun d hd => List.mem_append_left _ hd
    · rw [hstored', hdisk']
      exact hroot
  | lost msg => exact h.grow (List.append_nil _).symm hqueue h.backed h.disk
  | unsynced msg kept =>
    cases kept with
    | false => exact h.grow (List.append_nil _).symm hqueue h.backed h.disk
    | true =>
      have hstored' : (w.endWrite c op target (.unsynced msg true)).stored
          = w.stored ++ w.group.flatMap Pending.nodes := hstored
      have hdisk' : (w.endWrite c op target (.unsynced msg true)).disk = p.root := hdisk
      have hknown' : (w.endWrite c op target (.unsynced msg true)).known = w.known := hknown
      refine h.grow hstored' hqueue ?_ ?_
      · rw [hstored', hknown']
        exact h.backed.mono fun d hd => List.mem_append_left _ hd
      · rw [hstored', hdisk']
        exact hroot

omit [DecidableEq C] in
theorem storeInv_opened {stored known : List C} {disk : EntRoot F} (b : BranchId) (inner : Inner F)
    (hknown : (Framed.nodes F).Backed stored known)
    (hdisk : (Framed.nodes F).Closed stored (Framed.slots disk)) :
    StoreInv (World.opened stored known disk b inner) :=
  ⟨hknown, hdisk, fun p hp => absurd hp (by simp [World.opened, World.on, World.queue, Durable.new]),
    fun p hp => absurd hp (by simp [World.opened, World.on, World.queue, Durable.new])⟩

variable [FactEnf F]

theorem storeInv_step (h : StoreInv w) (hq : QueueInv w) (hd : Does w a w') : StoreInv w' := by
  cases hd with
  | refused => exact h
  | conflict => exact h
  | commit i pre updates k hk =>
    exact (h.stageIn k.branch (k.inner.apply (k.inner.current + 1) pre updates none)).move
      rfl rfl rfl rfl
  | flush => exact h.move rfl rfl rfl rfl
  | fork i at' k hk hat => exact h.move rfl rfl rfl rfl
  | forkFailed c i at' k e hc hk => exact h.move rfl rfl rfl rfl
  | forkStage c i at' k hc hk =>
    have hdag : StoreInv ({ w.setHandle i (some { k with held := false }) with
        root := { w.root with dag := (w.root.dag.fork k.branch at').1 } } : World F C) :=
      h.move rfl rfl rfl rfl
    exact (hdag.stageIn _ _).move rfl rfl rfl rfl
  | merge i j todo k theirs merged dag hk hm hdag =>
    have hdag : StoreInv ({ w with root := { w.root with dag := dag } } : World F C) :=
      h.move rfl rfl rfl rfl
    exact (hdag.stageIn _ _).move rfl rfl rfl rfl
  | branch b inner hb => exact h.move rfl rfl rfl rfl
  | adopt c b seq state hc => exact h.move rfl rfl rfl rfl
  | drop i k hk => exact h.move rfl rfl rfl rfl
  | leadNothing c op target msg hc => exact h.move rfl rfl rfl rfl
  | lead c op target hc hdoom hdone hidle hne =>
    refine h.move rfl rfl rfl ?_
    show w.dur.pending ++ [] = w.group ++ w.dur.pending
    rw [hq.idle hidle, List.nil_append, List.append_nil]
  | wrote c op target outcome hc =>
    obtain ⟨p, hp⟩ := getLast?_of_ne_nil (hq.writing.1 (hq.leader c _ hc rfl).1)
    exact h.endWrite hp c op target outcome
  | doomed c op target msg hc => exact h.move rfl rfl rfl rfl
  | finish c op target hc => exact h.move rfl rfl rfl rfl

/-! ## What was committed -/

/-- The state a commit staged shows its patch. -/
def CommitsShown (w : World F C) : Prop :=
  ∀ call ∈ w.calls, ∀ h b s updates state, call.op = .commit h b s updates state →
    state.Shows state.current updates

theorem commitsShown_step (h : CommitsShown w) (hchain : ChainInv w) (hd : Does w a w') :
    CommitsShown w' := by
  intro x hx i b s u st hop
  rcases ops_step hd hx with ⟨y, hy, hyop⟩ | hnew
  · exact h y hy i b s u st (hyop.trans hop)
  · rw [hop] at hnew
    cases hnew with
    | commit _ pre _ k hk _ =>
      exact Inner.apply_shows (hchain.handles k (mem_of_getElem? (handle_of_free hk))).1 _ _ _

/-- What holds along a run of up-to-date commits. -/
structure HistoryInv (w : World F C) : Prop where
  queue : QueueInv w
  chain : ChainInv w
  forks : ForksAbove w
  store : StoreInv w
  shown : CommitsShown w

theorem historyInv_step (h : HistoryInv w) (hok : UpToDate w a) (hd : Does w a w') :
    HistoryInv w' :=
  ⟨queueInv_step h.queue hd, chainInv_step h.chain h.queue h.forks hok hd, forksAbove_step h.forks hd,
    storeInv_step h.store h.queue hd, commitsShown_step h.shown h.chain hd⟩

omit [DecidableEq C] in
theorem historyInv_opened {stored known : List C} {disk : EntRoot F} {b : BranchId} {inner : Inner F}
    (hdisk : disk.WF) (hb : disk.state b = some inner)
    (hknown : (Framed.nodes F).Backed stored known)
    (hstored : (Framed.nodes F).Closed stored (Framed.slots disk)) :
    HistoryInv (World.opened stored known disk b inner) := by
  refine ⟨queueInv_opened stored known disk b inner, chainInv_opened stored known hdisk hb, ?_,
    storeInv_opened b inner hknown hstored, ?_⟩
  · intro x hx
    exact absurd hx (by simp [World.opened, World.on])
  · intro x hx
    exact absurd hx (by simp [World.opened, World.on])

/-- A run of up-to-date commits keeps it all. -/
theorem historyInv_run (h : HistoryInv w) (hrun : Run World.step UpToDate w w') : HistoryInv w' :=
  hrun.invariant h fun _ _ _ hi hok hst => historyInv_step hi hok (step_does hst)

/-- No step puts an older root on disk. -/
theorem disk_step (h : HistoryInv w) (hd : Does w a w') : Grows w.disk w'.disk := by
  cases hd with
  | wrote c op target outcome hc =>
    obtain ⟨p, hp⟩ := getLast?_of_ne_nil (h.queue.writing.1 (h.queue.leader c _ hc rfl).1)
    obtain ⟨-, hdisk | ⟨q, hq, hdisk, -⟩⟩ := settled_endWrite hp c op target outcome
    · exact hdisk.1 ▸ .refl _
    · rw [hdisk]
      have hchain := h.chain.roots
      rw [World.roots, List.pairwise_cons] at hchain
      have hmem : q ∈ w.queue := List.mem_append_left _ (List.mem_of_getLast? hq)
      exact hchain.1 _ (List.mem_append_left _ (List.mem_map_of_mem hmem))
  | refused => exact .refl _
  | conflict => exact .refl _
  | commit => exact .refl _
  | flush => exact .refl _
  | fork => exact .refl _
  | forkFailed => exact .refl _
  | forkStage => exact .refl _
  | merge => exact .refl _
  | branch => exact .refl _
  | adopt => exact .refl _
  | drop => exact .refl _
  | leadNothing => exact .refl _
  | lead => exact .refl _
  | doomed => exact .refl _
  | finish => exact .refl _

/-- What a crash at this moment recovers: a root whose nodes are all stored, a prefix
of every branch's history, with every stage that was acknowledged. -/
structure Recovers (w : World F C) : Prop where
  wf : w.disk.WF
  stored : (Framed.nodes F).Closed w.stored (Framed.slots w.disk)
  history : Grows w.disk w.root
  commits : ∀ call ∈ w.calls, ∀ h b s updates state, call.op = .commit h b s updates state →
    call.pc = .returned (.ok ()) →
      ∃ r, w.disk.state b = some r ∧ state.Extends r ∧ r.Shows state.current updates
  branches : ∀ call ∈ w.calls, ∀ b s state, call.op = .spawn b s state →
    call.pc = .returned (.ok ()) → ∃ r, w.disk.state b = some r ∧ state.Extends r

omit [DecidableEq C] in
/-- A stage that was acknowledged is on disk. -/
theorem HistoryInv.onDisk (h : HistoryInv w) {call : Call F} (hcall : call ∈ w.calls)
    (hok : call.pc = .returned (.ok ())) {s : Nat} {b : BranchId} {state : Inner F}
    (hop : call.op.staged = some (s, b, state)) : ∃ r, w.disk.state b = some r ∧ state.Extends r := by
  have hseq : call.op.seq = some s := by
    cases hc : call.op <;> rw [hc] at hop <;> simp_all [Op.staged, Op.seq]
  have hland := h.queue.written s ((h.queue.calls call hcall).ok hok s hseq)
  obtain ⟨-, -, -, hdisk⟩ := h.chain.calls call hcall s b state hop
  obtain ⟨r, hr, hx⟩ := hdisk hland
  refine ⟨r, state_eq_some.2 ⟨h.chain.disk.known b r hr, ?_⟩, hx⟩
  rw [hr]
  rfl

omit [DecidableEq C] in
theorem HistoryInv.recovers (h : HistoryInv w) : Recovers w where
  wf := h.chain.disk
  stored := h.store.disk
  history := h.chain.disk_root
  commits call hcall i b s updates state hop hok := by
    obtain ⟨r, hr, hx⟩ := h.onDisk (s := s) (b := b) hcall hok (by rw [hop]; rfl)
    exact ⟨r, hr, hx, (h.shown call hcall i b s updates state hop).extends hx⟩
  branches call hcall b s state hop hok := h.onDisk (s := s) hcall hok (by rw [hop]; rfl)

/-- **Commits survive a crash**, in every run whose commits are made on their
branch's current edition: what is on disk holds them all, and only grows. -/
theorem commits_survive_crashes {stored known : List C} {disk : EntRoot F} {b : BranchId}
    {inner : Inner F} (hdisk : disk.WF) (hb : disk.state b = some inner)
    (hknown : (Framed.nodes F).Backed stored known)
    (hstored : (Framed.nodes F).Closed stored (Framed.slots disk))
    (hrun : Run World.step UpToDate (World.opened stored known disk b inner) w) :
    Recovers w ∧ ∀ w', Run World.step UpToDate w w' → Grows w.disk w'.disk := by
  have hinv := historyInv_run (historyInv_opened hdisk hb hknown hstored) hrun
  refine ⟨hinv.recovers, fun w' hrun' => ?_⟩
  exact hrun'.monotone (I := HistoryInv) (R := fun v v' => Grows v.disk v'.disk) hinv
    (fun v a v' hv hok hst => historyInv_step hv hok (step_does hst)) (fun v => .refl _)
    (fun v v' v'' h h' => h.trans h') fun v a v' hv _ hst => disk_step hv (step_does hst)

/-! ## A commit replaced -/

/-- Two handles on one branch at edition 0 commit one after the other, and both land. -/
def twoHandles : List Action :=
  [.branch 0, .commit 0 [] (assertInt 1), .lead 0, .wrote 0 .landed, .finish 0,
    .commit 1 [] (assertInt 2), .lead 1, .wrote 1 .landed, .finish 1]

/-- The first commit was acknowledged as edition 1, which a crash recovers as the
second. -/
theorem acknowledged_commit_replaced : ∃ w : World FactRows (BranchId × Nat),
    Run World.step Any freshWorld w ∧ ¬ Recovers w := by
  have hex : (execute World.step freshWorld twoHandles).isSome = true := by decide +kernel
  refine ⟨after World.step freshWorld twoHandles, .after hex, fun h => ?_⟩
  have hcall : ((after World.step freshWorld twoHandles).calls[0]?).map
      (fun call => (call.op.handle, call.pc.isAcknowledged)) = some (some 0, true) := by decide +kernel
  have hstaged : (((after World.step freshWorld twoHandles).calls[0]?).bind fun call =>
      call.op.staged.map fun x => (x.2.1, x.2.2.current)) = some (0, 1) := by decide +kernel
  have hread : (((after World.step freshWorld twoHandles).calls[0]?).bind fun call =>
      call.op.staged.map fun x => x.2.2.readAt 0 1) = some (.ok [(⟨[.int 1]⟩, 1)]) := by decide +kernel
  have hdisk : ((after World.step freshWorld twoHandles).disk.state 0).map (fun r => r.readAt 0 1)
      = some (.ok [(⟨[.int 2]⟩, 1)]) := by decide +kernel
  obtain ⟨call, hc, hcall⟩ := Option.map_eq_some_iff.1 hcall
  obtain ⟨b, s, u, st, hop⟩ := Op.handle_eq_some.1 (congrArg Prod.fst hcall)
  simp only [hc, hop, Op.staged, Option.bind_some, Option.map_some, Option.some.injEq,
    Prod.mk.injEq] at hstaged hread
  obtain ⟨rfl, hcur⟩ := hstaged
  obtain ⟨r, hr, hx, -⟩ := h.commits call (mem_of_getElem? hc) 0 _ s u st hop
    (Pc.isAcknowledged_iff.1 (congrArg Prod.snd hcall))
  have hkept := hx.readAt 0 1 hcur.ge
  rw [hr] at hdisk
  rw [hread, show r.readAt 0 1 = .ok [(⟨[.int 2]⟩, 1)] from Option.some.inj hdisk] at hkept
  exact absurd hkept (by decide)

/-- Commits on the root branch and on a fork of it, three groups, the last lost. -/
def twoBranches : List Action :=
  [.commit 0 [] (assertInt 1), .commit 0 [] (assertInt 2), .lead 0, .wrote 0 .landed, .finish 0,
    .finish 1, .fork 0 1, .finish 2, .forkStage 2, .lead 2, .wrote 2 .landed, .finish 2, .adopt 2,
    .commit 1 [] (assertInt 3), .lead 3, .wrote 3 (.lost "io")]

theorem commits_survive_crashes_sample : ∃ w : World FactRows (BranchId × Nat),
    Run World.step UpToDate freshWorld w ∧ w.disk.edition 0 = 2 ∧ w.disk.edition 1 = 1 ∧
      w.root.edition 1 = 2 ∧ Recovers w := by
  have hex : (executeChecked World.step (fun w a => decide (UpToDate w a)) freshWorld
      twoBranches).isSome = true := by decide +kernel
  have hrun : Run World.step UpToDate freshWorld _ := Run.afterChecked (by simp) hex
  have hnone : (Framed.nodes FactRows).Closed [] (Framed.slots (EntRoot.empty : EntRoot FactRows)) :=
    fun r hr => absurd hr (by simp [Framed.slots, EntRoot.empty])
  exact ⟨_, hrun, by decide +kernel, by decide +kernel, by decide +kernel,
    (commits_survive_crashes EntRoot.wf_empty rfl (fun c hc => absurd hc (by simp)) hnone hrun).1⟩

end Grmpl

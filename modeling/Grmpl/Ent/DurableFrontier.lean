import Grmpl.Ent.DurableHistory

/-!
# The durable frontier

A branch's frontier is raised by whoever's group lands, and set when a handle is
made, to the edition of the handle's state. Staged editions count in a branch's
state before they are on disk, so the frontier stays behind the disk only where
handles are made on states that have landed.

* `KeepsFrontier`: the condition on a step, in editions alone.
* `FrontierInv`: editions rise along the roots in flight, and the frontier is behind
  the first of them.
* `durable_edition_behind`: where the condition holds, the frontier never passes the
  disk and never falls.
-/

open OrdMap Runs

namespace Grmpl

open World EntRoot

variable {F C : Type}

/-- An edition lies between a branch's frontier and what is on disk. -/
def World.Landed (w : World F C) (b : BranchId) (e : Nat) : Prop :=
  w.dur.edition b ≤ e ∧ e ≤ w.disk.edition b

instance (w : World F C) (b : BranchId) (e : Nat) : Decidable (w.Landed b e) :=
  inferInstanceAs (Decidable (_ ∧ _))

/-- A commit is numbered no lower than its branch, and a handle is made on an edition
that has landed. -/
def KeepsFrontier (w : World F C) : Action → Prop
  | .commit h _ _ => ∀ k ∈ w.freeHandle h, w.root.edition k.branch ≤ k.inner.current + 1
  | .branch b => ∀ s ∈ w.root.state b, w.Landed b s.current
  | .adopt c => ∀ call ∈ w.calls[c]?, ∀ x ∈ call.op.staged, w.Landed x.2.1 x.2.2.current
  | _ => True

instance (w : World F C) : (a : Action) → Decidable (KeepsFrontier w a)
  | .commit h _ _ => inferInstanceAs (Decidable (∀ k ∈ w.freeHandle h,
      w.root.edition k.branch ≤ k.inner.current + 1))
  | .branch b => inferInstanceAs (Decidable (∀ s ∈ w.root.state b, w.Landed b s.current))
  | .adopt c => inferInstanceAs (Decidable (∀ call ∈ w.calls[c]?, ∀ x ∈ call.op.staged,
      w.Landed x.2.1 x.2.2.current))
  | .flush | .fork .. | .forkStage _ | .merge .. | .drop _ | .lead _ | .wrote .. | .finish _ =>
      .isTrue trivial

/-- Editions rise along the roots in flight, and the frontier is behind the first. -/
structure FrontierInv (w : World F C) : Prop where
  known : ∀ b, (lookup b w.root.dag.branches).isSome = true → b < w.root.dag.next
  states : ∀ b, (lookup b w.root.branches).isSome = true → b < w.root.dag.next
  handles : ∀ k, some k ∈ w.handles → k.branch < w.root.dag.next
  calls : ∀ call ∈ w.calls, ∀ x ∈ call.op.staged, x.2.1 < w.root.dag.next
  roots : w.roots.Pairwise fun r r' => ∀ b, r.edition b ≤ r'.edition b
  queue : ∀ p ∈ w.queue, p.root.edition p.branch = p.edition
  frontier : ∀ b, w.dur.edition b ≤ w.disk.edition b

variable {w w' : World F C} {a : Action}

/-! ## The frontier's table -/

theorem edition_put (r : EntRoot F) (b b' : BranchId) (inner : Inner F) :
    ({ r with branches := put b inner r.branches } : EntRoot F).edition b'
      = if b' = b then inner.current else r.edition b' := by
  simp only [EntRoot.edition, lookup_put]
  split_ifs <;> rfl

/-- A group's stages only raise the frontier. -/
theorem le_raise (group : List (Pending F C)) : ∀ (d : List (BranchId × Nat)) (b : BranchId),
    (lookup b d).getD 0 ≤ (lookup b (group.foldl Durable.raise d)).getD 0 := by
  induction group with
  | nil => exact fun d b => le_rfl
  | cons p group ih =>
    intro d b
    refine le_trans ?_ (ih (Durable.raise d p) b)
    by_cases hb : b = p.branch
    · rw [Durable.raise, hb, lookup_put_self]
      exact le_max_left _ _
    · rw [Durable.raise, lookup_put_ne hb]

/-- And no higher than the highest of them. -/
theorem raise_le {m : BranchId → Nat} (group : List (Pending F C)) :
    ∀ d : List (BranchId × Nat), (∀ b, (lookup b d).getD 0 ≤ m b) →
      (∀ p ∈ group, p.edition ≤ m p.branch) →
        ∀ b, (lookup b (group.foldl Durable.raise d)).getD 0 ≤ m b := by
  induction group with
  | nil => exact fun d hd _ => hd
  | cons p group ih =>
    intro d hd hp
    refine ih _ (fun b => ?_) fun q hq => hp q (List.mem_cons_of_mem _ hq)
    by_cases hb : b = p.branch
    · rw [Durable.raise, hb, lookup_put_self]
      exact max_le (hd p.branch) (hp p List.mem_cons_self)
    · rw [Durable.raise, lookup_put_ne hb]
      exact hd b

/-! ## Steps -/

/-- A step that leaves the roots, the queue and the frontier. -/
theorem FrontierInv.move (h : FrontierInv w) (hroot : w'.root = w.root) (hdisk : w'.disk = w.disk)
    (hqueue : w'.queue = w.queue) (hdur : ∀ b, w'.dur.edition b ≤ w.disk.edition b)
    (hhandles : ∀ k, some k ∈ w'.handles → k.branch < w.root.dag.next)
    (hcalls : ∀ x ∈ w'.calls, ∀ y ∈ x.op.staged, y.2.1 < w.root.dag.next) : FrontierInv w' where
  known := hroot ▸ h.known
  states := hroot ▸ h.states
  handles k hk := by
    rw [hroot]
    exact hhandles k hk
  calls x hx y hy := by
    rw [hroot]
    exact hcalls x hx y hy
  roots := by
    rw [World.roots, hroot, hdisk, hqueue]
    exact h.roots
  queue := by
    rw [hqueue]
    exact h.queue
  frontier := by
    rw [hdisk]
    exact hdur

/-- A thread moved on, on the operation it was on. -/
theorem FrontierInv.setCall (h : FrontierInv w) {c : Nat} {call : Call F} {op : Op F} {pc : Pc}
    (hc : w.calls[c]? = some call) (hop : call.op = op) : FrontierInv (w.setCall c ⟨op, pc⟩) := by
  refine h.move rfl rfl rfl h.frontier h.handles fun x hx y hy => ?_
  obtain ⟨z, hz, hzop⟩ := ops_of_set hc hop hx
  exact h.calls z hz y (hzop ▸ hy)

/-- A thread added, on a branch already numbered. -/
theorem FrontierInv.addCall (h : FrontierInv w) {call : Call F}
    (hnew : ∀ x ∈ call.op.staged, x.2.1 < w.root.dag.next) : FrontierInv (w.addCall call) := by
  refine h.move rfl rfl rfl h.frontier h.handles fun x hx => ?_
  rcases List.mem_append.1 hx with hx | hx
  · exact h.calls x hx
  · exact List.mem_singleton.1 hx ▸ hnew

/-- A live handle dropped, or replaced by one on the same branch. -/
theorem FrontierInv.setHandle (h : FrontierInv w) {i : Nat} {k : Handle F} {o : Option (Handle F)}
    (hk : w.handles[i]? = some (some k)) (ho : ∀ k' ∈ o, k'.branch = k.branch) :
    FrontierInv (w.setHandle i o) := by
  refine h.move rfl rfl rfl h.frontier (fun k' hk' => ?_) h.calls
  rcases List.mem_or_eq_of_mem_set hk' with hk' | hk'
  · exact h.handles k' hk'
  · rw [ho k' hk'.symm]
    exact h.handles k (mem_of_getElem? hk)

/-- A new handle on an edition that has landed. -/
theorem FrontierInv.on (h : FrontierInv w) {b : BranchId} {inner : Inner F}
    (hb : b < w.root.dag.next) (hland : w.Landed b inner.current) : FrontierInv (w.on b inner) := by
  refine h.move rfl rfl rfl (fun b' => ?_) (fun k hk => ?_) h.calls
  · show (lookup b' (put b inner.current w.dur.durable)).getD 0 ≤ w.disk.edition b'
    by_cases hbb : b' = b
    · rw [hbb, lookup_put_self]
      exact hland.2
    · rw [lookup_put_ne hbb]
      exact h.frontier b'
  · rcases List.mem_append.1 hk with hk | hk
    · exact h.handles k hk
    · obtain rfl := Option.some.inj (List.mem_singleton.1 hk)
      exact hb

/-- A group settled, and the frontier with it. -/
theorem FrontierInv.settle (h : FrontierInv w) (hroot : w'.root = w.root)
    (hqueue : w'.queue = w.dur.pending) (hhandles : w'.handles = w.handles)
    (hcalls : ∀ x ∈ w'.calls, ∃ y ∈ w.calls, y.op = x.op) (hdisk : Settled w w')
    (hdur : ∀ b, w'.dur.edition b ≤ w'.disk.edition b) : FrontierInv w' where
  known := hroot ▸ h.known
  states := hroot ▸ h.states
  handles k hk := by
    rw [hroot]
    exact h.handles k (hhandles ▸ hk)
  calls x hx y hy := by
    obtain ⟨z, hz, hzop⟩ := hcalls x hx
    rw [hroot]
    exact h.calls z hz y (hzop ▸ hy)
  roots := roots_settle h.roots hroot hqueue hdisk
  queue p hp := by
    rw [hqueue] at hp
    exact h.queue p (List.mem_append_right _ hp)
  frontier := hdur

/-- The last root of a group covers what is on disk, and every stage of the group. -/
theorem FrontierInv.last (h : FrontierInv w) {p : Pending F C} (hp : w.group.getLast? = some p) :
    (∀ b, w.disk.edition b ≤ p.root.edition b) ∧
      ∀ q ∈ w.group, q.edition ≤ p.root.edition q.branch := by
  have hgroup : w.group = w.group.dropLast ++ [p] := (List.dropLast_append_getLast? p hp).symm
  have hchain := h.roots
  rw [World.roots, List.pairwise_cons] at hchain
  have hmem : p ∈ w.queue := List.mem_append_left _ (List.mem_of_getLast? hp)
  refine ⟨hchain.1 _ (List.mem_append_left _ (List.mem_map_of_mem hmem)), fun q hq => ?_⟩
  rw [← h.queue q (List.mem_append_left _ hq)]
  have hord := (List.pairwise_append.1 hchain.2).1
  rw [World.queue, List.map_append, List.pairwise_append, hgroup, List.map_append,
    List.pairwise_append] at hord
  rw [hgroup, List.mem_append, List.mem_singleton] at hq
  rcases hq with hq | rfl
  · exact hord.1.2.2 _ (List.mem_map_of_mem hq) p.root (by simp) q.branch
  · exact le_rfl

section Stage

variable [DecidableEq C] [Framed F C]

/-- A stage numbered no lower than its branch. -/
theorem FrontierInv.stageIn (h : FrontierInv w) {b : BranchId} {inner : Inner F}
    (hb : b < w.root.dag.next) (hle : w.root.edition b ≤ inner.current) :
    FrontierInv (w.stageIn b inner) := by
  have hedition : ∀ b', (w.stageIn b inner).root.edition b'
      = if b' = b then inner.current else w.root.edition b' := fun b' => edition_put w.root b b' inner
  have hqueue : ∃ p : Pending F C, p.branch = b ∧ p.edition = inner.current ∧
      p.root = (w.stageIn b inner).root ∧ (w.stageIn b inner).queue = w.queue ++ [p] :=
    ⟨_, rfl, rfl, rfl, (List.append_assoc _ _ _).symm⟩
  obtain ⟨p, hpb, hpe, hproot, hqueue⟩ := hqueue
  refine ⟨h.known, fun b' hb' => ?_, h.handles, h.calls, ?_, fun q hq => ?_, h.frontier⟩
  · by_cases hbb : b' = b
    · exact hbb ▸ hb
    · have hb'' : (lookup b' (put b inner w.root.branches)).isSome = true := hb'
      rw [lookup_put_ne hbb] at hb''
      exact h.states b' hb''
  · have hput : ({ w with root := (w.stageIn b inner).root } : World F C).roots.Pairwise
        fun r r' => ∀ b, r.edition b ≤ r'.edition b := by
      refine roots_put (fun _ _ _ h h' b => (h b).trans (h' b)) h.roots rfl rfl fun b' => ?_
      show w.root.edition b' ≤ (w.stageIn b inner).root.edition b'
      rw [hedition]
      split_ifs with hbb
      · exact hbb ▸ hle
      · exact le_rfl
    exact roots_stage (fun r b => le_rfl) hput rfl rfl hproot hqueue
  · rw [hqueue, List.mem_append, List.mem_singleton] at hq
    rcases hq with hq | rfl
    · exact h.queue q hq
    · rw [hproot, hpb, hedition, if_pos rfl, hpe]

/-- A new branch with its state staged. -/
theorem FrontierInv.spawn (h : FrontierInv w) (parents : Branch) (inner : Inner F) :
    FrontierInv (w.spawn (⟨put w.root.dag.next parents w.root.dag.branches, w.root.dag.next + 1⟩,
      w.root.dag.next) inner) := by
  have hnone : lookup w.root.dag.next w.root.branches = none := by
    by_contra hs
    exact absurd (h.states _ (Option.ne_none_iff_isSome.1 hs)) (lt_irrefl _)
  have hnew : FrontierInv ({ w with root := { w.root with
      dag := ⟨put w.root.dag.next parents w.root.dag.branches, w.root.dag.next + 1⟩ } } :
        World F C) := by
    refine ⟨fun b hb => ?_, fun b hb => Nat.lt_succ_of_lt (h.states b hb),
      fun k hk => Nat.lt_succ_of_lt (h.handles k hk),
      fun x hx y hy => Nat.lt_succ_of_lt (h.calls x hx y hy),
      roots_put (fun _ _ _ h h' b => (h b).trans (h' b)) h.roots rfl rfl fun b => le_rfl, h.queue,
      h.frontier⟩
    by_cases hn : b = w.root.dag.next
    · exact hn ▸ Nat.lt_succ_self _
    · have hb' : (lookup b (put w.root.dag.next parents w.root.dag.branches)).isSome = true := hb
      rw [lookup_put_ne hn] at hb'
      exact Nat.lt_succ_of_lt (h.known b hb')
  refine hnew.stageIn (Nat.lt_succ_self _) ?_
  show ((lookup w.root.dag.next w.root.branches).map Inner.current).getD 0 ≤ inner.current
  rw [hnone]
  exact Nat.zero_le _

variable [FactEnf F]

theorem frontierInv_step (h : FrontierInv w) (hq : QueueInv w) (hok : KeepsFrontier w a)
    (hd : Does w a w') : FrontierInv w' := by
  cases hd with
  | refused => exact h
  | conflict => exact h
  | commit i pre updates k hk =>
    have hb := h.handles k (mem_of_getElem? (handle_of_free hk))
    have hset : FrontierInv (w.setHandle i (some { k with
        inner := k.inner.apply (k.inner.current + 1) pre updates none })) := by
      refine h.setHandle (handle_of_free hk) ?_
      rintro k' ⟨⟩
      rfl
    have hle : w.root.edition k.branch ≤ k.inner.current + 1 := hok k hk
    have hstage : FrontierInv ((w.setHandle i (some { k with
        inner := k.inner.apply (k.inner.current + 1) pre updates none })).stageIn k.branch
          (k.inner.apply (k.inner.current + 1) pre updates none)) := hset.stageIn hb hle
    refine hstage.addCall fun x hx => ?_
    obtain rfl := Option.some.inj hx
    exact hb
  | flush => exact h.addCall fun _ hx => (nomatch hx)
  | fork i at' k hk hat =>
    refine FrontierInv.addCall (h.setHandle (handle_of_free hk) ?_) fun _ hx => (nomatch hx)
    rintro k' ⟨⟩
    rfl
  | forkFailed c i at' k e hc hk =>
    refine FrontierInv.setCall (h.setHandle hk ?_) hc rfl
    rintro k' ⟨⟩
    rfl
  | forkStage c i at' k hc hk =>
    have hset : FrontierInv (w.setHandle i (some { k with held := false })) := by
      refine h.setHandle hk ?_
      rintro k' ⟨⟩
      rfl
    have hspawn := hset.spawn ⟨some (k.branch, at'), none⟩ (k.inner.forkAt at')
    refine hspawn.move rfl rfl rfl hspawn.frontier hspawn.handles fun x hx y hy => ?_
    rcases List.mem_or_eq_of_mem_set hx with hx | rfl
    · exact hspawn.calls x hx y hy
    · obtain rfl := Option.some.inj hy
      exact Nat.lt_succ_self _
  | merge i j todo k theirs merged dag hk hm hdag =>
    obtain ⟨parents, rfl⟩ := hdag
    refine (h.spawn parents merged).addCall fun x hx => ?_
    obtain rfl := Option.some.inj hx
    exact Nat.lt_succ_self _
  | branch b inner hb => exact h.on (h.known b (state_eq_some.1 hb).1) (hok inner hb)
  | adopt c b seq state hc =>
    have hland := hok _ hc (seq, b, state) rfl
    exact (h.on (h.calls _ (mem_of_getElem? hc) (seq, b, state) rfl) hland).setCall hc rfl
  | drop i k hk => exact h.setHandle (handle_of_free hk) fun _ hk' => (nomatch hk')
  | leadNothing c op target msg hc => exact h.setCall hc rfl
  | lead c op target hc hdoom hdone hidle hne =>
    have htaken : FrontierInv ({ w with
        group := w.dur.pending
        dur := { w.dur with pending := [], writing := true } } : World F C) := by
      have hqueue : w.queue = w.dur.pending ++ [] := by
        rw [World.queue, hq.idle hidle, List.nil_append, List.append_nil]
      exact h.move rfl rfl hqueue.symm h.frontier h.handles h.calls
    exact htaken.setCall hc rfl
  | wrote c op target outcome hc =>
    obtain ⟨p, hp⟩ := getLast?_of_ne_nil (hq.writing.1 (hq.leader c _ hc rfl).1)
    have hcalls : ∀ x ∈ (w.endWrite c op target outcome).calls, ∃ y ∈ w.calls, y.op = x.op := by
      obtain ⟨pc, hset⟩ := endWrite_calls (w := w) c op target outcome
      intro x hx
      rw [hset] at hx
      exact ops_of_set hc rfl hx
    obtain ⟨hqueue, hsettled⟩ := settled_endWrite hp c op target outcome
    refine h.settle (endWrite_root c op target outcome) hqueue (endWrite_handles c op target outcome)
      hcalls hsettled fun b => ?_
    obtain ⟨hdisk, hgroup⟩ := h.last hp
    have hbatch : w.batch.disk = p.root ∧ w.batch.dur = w.dur := by simp [World.batch, hp]
    cases outcome with
    | landed =>
      show (lookup b (w.group.foldl Durable.raise w.dur.durable)).getD 0 ≤ w.batch.disk.edition b
      rw [hbatch.1]
      exact raise_le w.group _ (fun b => (h.frontier b).trans (hdisk b)) hgroup b
    | lost msg => exact h.frontier b
    | unsynced msg kept =>
      cases kept with
      | false => exact h.frontier b
      | true =>
        show w.batch.dur.edition b ≤ w.batch.disk.edition b
        rw [hbatch.1, hbatch.2]
        exact (h.frontier b).trans (hdisk b)
  | doomed c op target msg hc => exact h.setCall hc rfl
  | finish c op target hc => exact h.setCall hc rfl

/-- No step that meets the condition takes the frontier back. -/
theorem frontier_step (hq : QueueInv w) (hok : KeepsFrontier w a) (hd : Does w a w')
    (b : BranchId) : w.dur.edition b ≤ w'.dur.edition b := by
  have hon : ∀ {b' : BranchId} {inner : Inner F}, w.Landed b' inner.current →
      w.dur.edition b ≤ (w.on b' inner).dur.edition b := by
    intro b' inner hland
    show _ ≤ (lookup b (put b' inner.current w.dur.durable)).getD 0
    by_cases hbb : b = b'
    · rw [hbb, lookup_put_self]
      exact hland.1
    · rw [lookup_put_ne hbb]
      exact le_rfl
  cases hd with
  | branch b' inner hb => exact hon (hok inner hb)
  | adopt c b' seq state hc => exact hon (hok _ hc (seq, b', state) rfl)
  | wrote c op target outcome hc =>
    obtain ⟨p, hp⟩ := getLast?_of_ne_nil (hq.writing.1 (hq.leader c _ hc rfl).1)
    cases outcome with
    | landed => exact le_raise w.group w.dur.durable b
    | lost msg => exact le_rfl
    | unsynced msg kept =>
      cases kept with
      | false => exact le_rfl
      | true =>
        show _ ≤ w.batch.dur.edition b
        rw [batch_eq]
  | refused => exact le_rfl
  | conflict => exact le_rfl
  | commit => exact le_rfl
  | flush => exact le_rfl
  | fork => exact le_rfl
  | forkFailed => exact le_rfl
  | forkStage => exact le_rfl
  | merge => exact le_rfl
  | drop => exact le_rfl
  | leadNothing => exact le_rfl
  | lead => exact le_rfl
  | doomed => exact le_rfl
  | finish => exact le_rfl

omit [DecidableEq C] [Framed F C] [FactEnf F] in
/-- A world just opened counts as durable the edition it was opened on. -/
theorem frontierInv_opened (stored known : List C) {disk : EntRoot F} {b : BranchId}
    {inner : Inner F} (hdisk : disk.WF) (hb : disk.state b = some inner) :
    FrontierInv (World.opened stored known disk b inner) := by
  obtain ⟨hknown, hinner⟩ := state_eq_some.1 hb
  refine ⟨hdisk.numbered, fun b' hb' => ?_, fun k hk => ?_,
    fun x hx => absurd hx (by simp [World.opened, World.on]), ?_,
    fun p hp => absurd hp (by simp [World.opened, World.on, World.queue, Durable.new]), fun b' => ?_⟩
  · obtain ⟨s, hs⟩ := Option.isSome_iff_exists.1 hb'
    exact hdisk.numbered b' (hdisk.known b' s hs)
  · obtain rfl := Option.some.inj (List.mem_singleton.1 hk)
    exact hdisk.numbered b hknown
  · show [disk, disk].Pairwise fun r r' => ∀ b, r.edition b ≤ r'.edition b
    simp
  · show (lookup b' (put b inner.current [])).getD 0 ≤ disk.edition b'
    by_cases hbb : b' = b
    · rw [hbb, lookup_put_self, EntRoot.edition, ← hinner]
      cases lookup b disk.branches with
      | none => exact le_rfl
      | some s => exact le_rfl
    · rw [lookup_put_ne hbb]
      exact Nat.zero_le _

/-- **The durable frontier stays behind the disk and never falls**, in every run whose
commits are numbered no lower than their branch and whose handles are made on editions
that have landed. -/
theorem durable_edition_behind (stored known : List C) {disk : EntRoot F} {b : BranchId}
    {inner : Inner F} (hdisk : disk.WF) (hb : disk.state b = some inner)
    (hrun : Run World.step KeepsFrontier (World.opened stored known disk b inner) w) :
    (∀ b, w.dur.edition b ≤ w.disk.edition b) ∧
      ∀ w', Run World.step KeepsFrontier w w' → ∀ b, w.dur.edition b ≤ w'.dur.edition b := by
  have hstep : ∀ (v : World F C) (a : Action) (v' : World F C), QueueInv v ∧ FrontierInv v →
      KeepsFrontier v a → v.step a = some v' → QueueInv v' ∧ FrontierInv v' :=
    fun v a v' hv hok hst => ⟨queueInv_step hv.1 (step_does hst),
      frontierInv_step hv.2 hv.1 hok (step_does hst)⟩
  have hinv : QueueInv w ∧ FrontierInv w := hrun.invariant (I := fun v => QueueInv v ∧ FrontierInv v)
    ⟨queueInv_opened stored known disk b inner, frontierInv_opened stored known hdisk hb⟩ hstep
  refine ⟨hinv.2.frontier, fun w' hrun' => ?_⟩
  exact hrun'.monotone (I := fun v => QueueInv v ∧ FrontierInv v)
    (R := fun v v' => ∀ b, v.dur.edition b ≤ v'.dur.edition b) hinv hstep (fun v b => le_rfl)
    (fun v v' v'' h h' b => (h b).trans (h' b))
    fun v a v' hv hok hst b => frontier_step hv.1 hok (step_does hst) b

end Stage

/-! ## A frontier past the disk -/

/-- A handle made on a branch whose latest edition is staged and not written. -/
def unwrittenHandle : List Action := [.commit 0 [] (assertInt 1), .branch 0]

/-- The frontier is an edition past what a crash would recover. -/
theorem durable_edition_ahead : ∃ w : World FactRows (BranchId × Nat),
    Run World.step Any freshWorld w ∧ ¬ ∀ b, w.dur.edition b ≤ w.disk.edition b := by
  have hex : (execute World.step freshWorld unwrittenHandle).isSome = true := by decide +kernel
  refine ⟨_, .after hex, fun h => ?_⟩
  have hahead : (after World.step freshWorld unwrittenHandle).dur.edition 0 = 1 ∧
      (after World.step freshWorld unwrittenHandle).disk.edition 0 = 0 := by decide +kernel
  have := h 0
  omega

/-- A commit lands before a handle is made on its branch and a fork of it is taken. -/
def writtenHandle : List Action :=
  [.commit 0 [] (assertInt 1), .lead 0, .wrote 0 .landed, .finish 0, .branch 0, .fork 0 1, .finish 1,
    .forkStage 1, .lead 1, .wrote 1 .landed, .finish 1, .adopt 1]

theorem durable_edition_behind_sample : ∃ w : World FactRows (BranchId × Nat),
    Run World.step KeepsFrontier freshWorld w ∧ w.dur.edition 1 = 1 ∧
      ∀ b, w.dur.edition b ≤ w.disk.edition b := by
  have hex : (executeChecked World.step (fun w a => decide (KeepsFrontier w a)) freshWorld
      writtenHandle).isSome = true := by decide +kernel
  have hrun : Run World.step KeepsFrontier freshWorld _ := Run.afterChecked (by simp) hex
  exact ⟨_, hrun, by decide +kernel, (durable_edition_behind _ _ EntRoot.wf_empty rfl hrun).1⟩

end Grmpl

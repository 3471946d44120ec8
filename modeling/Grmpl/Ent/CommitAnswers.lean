import Grmpl.Ent.GroupCommit

/-!
# Whether a commit's answer is its own

One record of a failure stands for every stage at or below it, so a failure that
comes after a stage has landed, and before its thread has woken, is taken for that
stage's. Where no failing write finds such a thread, and leaves nothing in the
store, each answer is about the stage it was asked for.

* `NoStaleWaiter`: the condition on a failing write.
* `AnswersOwn`: an answer says what became of its own stage, and a commit made
  while nobody writes can still be answered.
* `group_commit_answers`: every run that meets the condition answers so.
-/

open OrdMap Runs

namespace Grmpl

open World

variable {F C : Type}

/-- A write fails only when no thread still waits for a stage that has landed, and
leaves nothing behind. -/
def NoStaleWaiter (w : World F C) : Action → Prop
  | .wrote _ (.unsynced _ true) => False
  | .wrote _ .landed => True
  | .wrote _ _ => ∀ call ∈ w.calls, call.pc.waitsFor w.written = false
  | _ => True

instance (w : World F C) (a : Action) : Decidable (NoStaleWaiter w a) := by
  unfold NoStaleWaiter
  split <;> infer_instance

/-- A thread without an answer, or with a refusal, whose stage failed: it was in no
group that landed. -/
def LostNotLanded (w : World F C) : Prop :=
  ∀ call ∈ w.calls, ∀ s, call.op.seq = some s → w.Failed s → s ∈ w.written →
    call.pc = .returned (.ok ()) ∨ call.pc = .over

variable [DecidableEq C] [Framed F C] [FactEnf F]

/-- Each answer is about its own stage: an Ok that the group with the stage landed,
an error that no group with it has landed or will. And the store is not blocked. -/
structure AnswersOwn (w : World F C) : Prop where
  ok : ∀ call ∈ w.calls, ∀ s, call.op.seq = some s → call.pc = .returned (.ok ()) → s ∈ w.written
  error : ∀ call ∈ w.calls, ∀ s, call.op.seq = some s → ∀ e, call.pc = .returned (.error e) →
    s ∉ w.written ∧ s ∉ w.unsettled ∧ s ≤ w.dur.staged
  unblocked : w.dur.writing = false → ∀ h k updates, w.freeHandle h = some k →
    ∃ w', execute World.step w [.commit h [] updates, .lead w.calls.length,
        .wrote w.calls.length .landed, .finish w.calls.length] = some w' ∧
      ∃ op, w'.calls[w.calls.length]? = some ⟨op, .returned (.ok ())⟩

variable {w w' : World F C} {a : Action}

omit [DecidableEq C] [Framed F C] [FactEnf F] in
/-- A step that leaves the queue's record and moves threads on to no new stage keeps
what failed apart from what landed. -/
theorem LostNotLanded.move (h : LostNotLanded w) (hq : SameQueue w w')
    (hc : ∀ x ∈ w'.calls, x ∈ w.calls ∨ x.op.seq = none ∨ x.pc = .over ∨ x.pc = .returned (.ok ()) ∨
      ∃ y ∈ w.calls, y.op = x.op ∧ ∃ t, y.pc = .waiting t) : LostNotLanded w' := by
  intro x hx s hs hf hw
  rw [hq.failed] at hf
  rw [hq.written] at hw
  rcases hc x hx with hx | hx | hx | hx | ⟨y, hy, hop, t, ht⟩
  · exact h x hx s hs hf hw
  · rw [hx] at hs
    cases hs
  · exact .inr hx
  · exact .inl hx
  · rcases h y hy s (hop ▸ hs) hf hw with h' | h' <;> rw [ht] at h' <;> cases h'

omit [FactEnf F] in
/-- A stage is numbered past every failure. -/
theorem LostNotLanded.stageIn (h : LostNotLanded w) (hq : QueueInv w) (b : BranchId)
    (inner : Inner F) (hc : ∀ x ∈ w'.calls, x ∈ w.calls ∨ x.op.seq = some (w.dur.staged + 1))
    (hq' : SameQueue (w.stageIn b inner) w') : LostNotLanded w' := by
  intro x hx s hs hf hw
  rw [hq'.failed] at hf
  rw [hq'.written] at hw
  rcases hc x hx with hx | hx
  · exact h x hx s hs hf hw
  · obtain rfl : w.dur.staged + 1 = s := Option.some.inj (hx.symm.trans hs)
    obtain ⟨f, hf, hle⟩ := hf
    have := (hq.failure f hf).1
    omega

omit [DecidableEq C] [Framed F C] [FactEnf F] in
/-- A write that fails with no such thread waiting. -/
theorem LostNotLanded.failedWrite (h : LostNotLanded w) (hq : QueueInv w) {c : Nat} {op : Op F}
    {target : Option Nat} {msg : String} (hc : w.calls[c]? = some ⟨op, .leading target⟩)
    (hfw : FailedWrite w w' c op msg)
    (hok : ∀ call ∈ w.calls, call.pc.waitsFor w.written = false) :
    LostNotLanded w' := by
  -- a stage in the group being written has not landed
  have hgroup : ∀ s ∈ w.group.map Pending.seq, s ∉ w.written := by
    intro s hs hw
    have := (hq.fresh s (by
      rw [World.unsettled, List.map_append]
      exact List.mem_append_left _ hs)).1
    have := hq.written s hw
    omega
  intro x hx s hs hf hw
  rw [hfw.written] at hw
  rw [hfw.calls] at hx
  rcases List.mem_or_eq_of_mem_set hx with hx | rfl
  · have hx' := hq.calls x hx
    cases hpc : x.pc with
    | waiting t =>
      have ht := (hx'.waiting t hpc).trans hs
      have := hok x hx
      rw [hpc, ht] at this
      exact absurd hw (by simpa [Pc.waitsFor] using this)
    | leading t =>
      obtain ⟨ht, hin⟩ := hx'.leading t hpc
      exact absurd hw (hgroup s (hin s (ht.trans hs)))
    | returned r =>
      cases r with
      | ok u => exact .inl rfl
      | error e =>
        rcases h x hx s hs (hx'.error e hpc s hs) hw with h' | h' <;>
          rw [hpc] at h' <;> cases h'
    | _ => exact .inr rfl
  · obtain ⟨ht, hin⟩ := (hq.calls _ (mem_of_getElem? hc)).leading _ rfl
    exact absurd hw (hgroup s (hin s (ht.trans hs)))

theorem lostNotLanded_step (h : LostNotLanded w) (hq : QueueInv w) (hok : NoStaleWaiter w a)
    (hd : Does w a w') : LostNotLanded w' := by
  have hset : ∀ {c : Nat} {call x : Call F}, x ∈ w.calls.set c call → x ∈ w.calls ∨ x = call :=
    fun hx => List.mem_or_eq_of_mem_set hx
  have happ : ∀ {call x : Call F}, x ∈ w.calls ++ [call] → x ∈ w.calls ∨ x = call := fun hx =>
    (List.mem_append.1 hx).imp_right List.mem_singleton.1
  cases hd with
  | refused => exact h
  | conflict => exact h
  | commit i pre updates k hk =>
    refine LostNotLanded.stageIn (w := w.setHandle i (some { k with
      inner := k.inner.apply (k.inner.current + 1) pre updates none })) h
      (hq.same ⟨rfl, rfl, rfl, rfl, rfl, rfl, rfl⟩ rfl) k.branch _ (fun x hx => ?_)
      ⟨rfl, rfl, rfl, rfl, rfl, rfl, rfl⟩
    rcases happ hx with hx | rfl
    · exact .inl hx
    · exact .inr rfl
  | flush =>
    refine h.move ⟨rfl, rfl, rfl, rfl, rfl, rfl, rfl⟩ fun x hx => ?_
    rcases happ hx with hx | rfl
    · exact .inl hx
    · exact .inr (.inl rfl)
  | fork i at' k hk hat =>
    refine h.move ⟨rfl, rfl, rfl, rfl, rfl, rfl, rfl⟩ fun x hx => ?_
    rcases happ hx with hx | rfl
    · exact .inl hx
    · exact .inr (.inl rfl)
  | forkFailed c i at' k e hc hk =>
    refine h.move ⟨rfl, rfl, rfl, rfl, rfl, rfl, rfl⟩ fun x hx => ?_
    rcases hset hx with hx | rfl
    · exact .inl hx
    · exact .inr (.inl rfl)
  | forkStage c i at' k hc hk =>
    refine LostNotLanded.stageIn (w := { w.setHandle i (some { k with held := false }) with
      root := { w.root with dag := (w.root.dag.fork k.branch at').1 } }) h
      (hq.same ⟨rfl, rfl, rfl, rfl, rfl, rfl, rfl⟩ rfl) _ _ (fun x hx => ?_)
      ⟨rfl, rfl, rfl, rfl, rfl, rfl, rfl⟩
    rcases hset hx with hx | rfl
    · exact .inl hx
    · exact .inr rfl
  | merge i j todo k theirs merged dag hk hm hdag =>
    refine LostNotLanded.stageIn (w := { w with root := { w.root with dag := dag } }) h
      (hq.same ⟨rfl, rfl, rfl, rfl, rfl, rfl, rfl⟩ rfl) w.root.dag.next merged (fun x hx => ?_)
      ⟨rfl, rfl, rfl, rfl, rfl, rfl, rfl⟩
    rcases happ hx with hx | rfl
    · exact .inl hx
    · exact .inr rfl
  | branch b inner hb => exact h.move ⟨rfl, rfl, rfl, rfl, rfl, rfl, rfl⟩ fun x hx => .inl hx
  | adopt c b seq state hc =>
    refine h.move ⟨rfl, rfl, rfl, rfl, rfl, rfl, rfl⟩ fun x hx => ?_
    rcases hset hx with hx | rfl
    · exact .inl hx
    · exact .inr (.inr (.inl rfl))
  | drop i k hk => exact h.move ⟨rfl, rfl, rfl, rfl, rfl, rfl, rfl⟩ fun x hx => .inl hx
  | leadNothing c op target msg hc hdoom hdone hidle hnil =>
    exact absurd hnil (hq.pending_ne_nil hc hdoom hdone hidle)
  | lead c op target hc hdoom hdone hidle hne =>
    intro x hx s hs hf hw
    rcases hset hx with hx | rfl
    · exact h x hx s hs hf hw
    · rcases h _ (mem_of_getElem? hc) s hs hf hw with h' | h' <;> cases h'
  | wrote c op target outcome hc =>
    cases outcome with
    | landed =>
      -- what lands now was staged after every failure
      intro x hx s hs hf hw
      have hf' : w.Failed s := hf
      have hw' : s ∈ w.written := by
        rcases List.mem_append.1 hw with hw | hw
        · exact hw
        · obtain ⟨f, hf, hle⟩ := hf'
          have := (hq.failure f hf).2 s (by
            rw [World.unsettled, List.map_append]
            exact List.mem_append_left _ hw)
          omega
      rw [landed_calls] at hx
      rcases hset hx with hx | rfl
      · exact h x hx s hs hf' hw'
      · rcases h _ (mem_of_getElem? hc) s hs hf' hw' with h' | h' <;> cases h'
    | lost msg => exact h.failedWrite hq hc (failedWrite_lost w msg) hok
    | unsynced msg kept =>
      cases kept with
      | true => exact hok.elim
      | false => exact h.failedWrite hq hc (failedWrite_unsynced w msg false) hok
  | doomed c op target msg hc hdoom =>
    refine h.move ⟨rfl, rfl, rfl, rfl, rfl, rfl, rfl⟩ fun x hx => ?_
    rcases hset hx with hx | rfl
    · exact .inl hx
    · exact .inr (.inr (.inr (.inr ⟨_, mem_of_getElem? hc, rfl, target, rfl⟩)))
  | finish c op target hc hdoom hdone =>
    refine h.move ⟨rfl, rfl, rfl, rfl, rfl, rfl, rfl⟩ fun x hx => ?_
    rcases hset hx with hx | rfl
    · exact .inl hx
    · exact .inr (.inr (.inr (.inl rfl)))

/-- After a failure, or whatever else has happened, the next commit made while
nobody writes leads its own group and is answered. -/
theorem QueueInv.unblocked (hq : QueueInv w) (hidle : w.dur.writing = false) {h : Nat}
    {k : Handle F} (updates : List (RelId × Tuple × Diff)) (hk : w.freeHandle h = some k) :
    ∃ w', execute World.step w [.commit h [] updates, .lead w.calls.length,
        .wrote w.calls.length .landed, .finish w.calls.length] = some w' ∧
      ∃ op, w'.calls[w.calls.length]? = some ⟨op, .returned (.ok ())⟩ := by
  let inner := k.inner.apply (k.inner.current + 1) [] updates none
  let s := w.dur.staged + 1
  let op : Op F := .commit h k.branch s updates inner
  let w₁ := ((w.setHandle h (some { k with inner })).stageIn k.branch inner).addCall
    ⟨op, .waiting (some s)⟩
  let w₂ := { w₁ with
    group := w₁.dur.pending
    dur := { w₁.dur with pending := [], writing := true } }.setCall w.calls.length
      ⟨op, .leading (some s)⟩
  let w₃ := w₂.endWrite w.calls.length op (some s) .landed
  have h₁ : w.step (.commit h [] updates) = some w₁ := by
    simp [World.step, hk, w₁, op, s, inner]
  -- no failure reaches the new stage, and nothing has landed that far
  have hdoom : w₁.dur.doom (some s) = none := by
    show (w.dur.failure.bind fun f => if f.1 < s then none else some f.2) = none
    cases hf : w.dur.failure with
    | none => rfl
    | some f =>
      have := (hq.failure f hf).1
      simp [show f.1 < s by omega]
  have hdone : w₁.dur.done (some s) = false := by
    have := hq.landed
    show decide (s ≤ w.dur.landed) = false
    simp
    omega
  have hcall₁ : w₁.calls[w.calls.length]? = some ⟨op, .waiting (some s)⟩ :=
    List.getElem?_concat_length
  have h₂ : w₁.step (.lead w.calls.length) = some w₂ := by
    have hidle' : w₁.dur.writing = false := hidle
    have hpend : w₁.dur.pending.isEmpty = false := by
      show (w.dur.pending ++ [_]).isEmpty = false
      simp
    simp only [World.step, hcall₁, hdoom, hdone, hidle', hpend]
    rfl
  have hcall₂ : w₂.calls[w.calls.length]? = some ⟨op, .leading (some s)⟩ :=
    List.getElem?_set_self (List.getElem?_eq_some_iff.1 hcall₁).1
  have h₃ : w₂.step (.wrote w.calls.length .landed) = some w₃ := by
    simp only [World.step, hcall₂]
    rfl
  have hcall₃ : w₃.calls[w.calls.length]? = some ⟨op, .waiting (some s)⟩ := by
    rw [landed_calls]
    exact List.getElem?_set_self (List.getElem?_eq_some_iff.1 hcall₂).1
  have hlast : w₂.group.getLast? = some ⟨s, k.branch, inner.current,
      Framed.nodes (F := F).collectAll (fun c => decide (c ∈ w.known)) (Framed.slots w₁.root),
      w₁.root⟩ := List.getLast?_concat
  have hdone₃ : w₃.dur.done (some s) = true := by
    show decide (s ≤ max w.dur.landed (((w₂.group.getLast?).map Pending.seq).getD 0)) = true
    rw [hlast]
    simp
  have h₄ : w₃.step (.finish w.calls.length) = some (w₃.setCall w.calls.length ⟨op, .returned (.ok ())⟩) := by
    have hdoom₃ : w₃.dur.doom (some s) = none := hdoom
    simp only [World.step, hcall₃, hdoom₃, hdone₃]
    rfl
  refine ⟨w₃.setCall w.calls.length ⟨op, .returned (.ok ())⟩, ?_, op,
    List.getElem?_set_self (List.getElem?_eq_some_iff.1 hcall₃).1⟩
  simp only [execute, h₁, h₂, h₃, h₄, Option.bind_some]

/-- **Group commit answers each committer**, in every run whose failing writes find
no thread still waiting for a stage that has landed and leave nothing behind. -/
theorem group_commit_answers (stored known : List C) (disk : EntRoot F) (b : BranchId)
    (inner : Inner F)
    (hrun : Run World.step NoStaleWaiter (World.opened stored known disk b inner) w) :
    AnswersOwn w := by
  have hq : QueueInv w := queueInv_run hrun (queueInv_opened stored known disk b inner)
  have hinv : QueueInv w ∧ LostNotLanded w := by
    refine hrun.invariant (I := fun v => QueueInv v ∧ LostNotLanded v)
      ⟨queueInv_opened stored known disk b inner, ?_⟩ ?_
    · intro x hx
      exact absurd hx (by simp [World.opened, World.on])
    · rintro v a v' ⟨hv, hl⟩ hok hstep
      exact ⟨queueInv_step hv (step_does hstep), lostNotLanded_step hl hv hok (step_does hstep)⟩
  refine ⟨fun x hx s hs hpc => (hq.calls x hx).ok hpc s hs, fun x hx s hs e hpc => ?_,
    fun hidle i k updates hk => hq.unblocked hidle updates hk⟩
  obtain ⟨f, hf, hle⟩ := (hq.calls x hx).error e hpc s hs
  refine ⟨fun hw => ?_, fun hun => ?_, ((hq.calls x hx).stage s hs).1⟩
  · rcases hinv.2 x hx s hs ⟨f, hf, hle⟩ hw with h | h <;> rw [hpc] at h <;> cases h
  · have := (hq.failure f hf).2 s hun
    omega

/-! ## The failure taken for another's -/

/-- A fresh store, opened on its root branch. -/
def freshWorld : World FactRows (BranchId × Nat) :=
  World.opened [] [] EntRoot.empty Dag.root Inner.empty

/-- A row of a lone integer asserted in relation 0. -/
def assertInt (n : Int64) : List (RelId × Tuple × Diff) := [(0, ⟨[.int n]⟩, 1)]

/-- Two committers share a group that lands; before the first has woken, a third
commit's group fails. -/
def staleAnswer : List Action :=
  [.commit 0 [] (assertInt 1), .commit 0 [] (assertInt 2), .lead 1, .wrote 1 .landed, .finish 1,
    .commit 0 [] (assertInt 3), .lead 2, .wrote 2 (.lost "io"), .finish 0]

/-- The first committer is told of a failure its stage had no part in. -/
theorem group_commit_stale_answer : ∃ w : World FactRows (BranchId × Nat),
    Run World.step Any freshWorld w ∧ ¬ AnswersOwn w := by
  have hex : (execute World.step freshWorld staleAnswer).isSome = true := by decide +kernel
  refine ⟨after World.step freshWorld staleAnswer, .after hex, fun h => ?_⟩
  have hcall : ((after World.step freshWorld staleAnswer).calls[0]?).map
      (fun call => (call.op.seq, call.pc.isRefused)) = some (some 1, true) := by decide +kernel
  have hwritten : 1 ∈ (after World.step freshWorld staleAnswer).written := by decide +kernel
  obtain ⟨call, hc, hcall⟩ := Option.map_eq_some_iff.1 hcall
  obtain ⟨e, he⟩ := Pc.isRefused_iff.1 (congrArg Prod.snd hcall)
  exact (h.error call (mem_of_getElem? hc) 1 (congrArg Prod.fst hcall) e he).1 hwritten

/-- A group of two fails, its follower is told, and the next commit lands. -/
def failedGroup : List Action :=
  [.commit 0 [] (assertInt 1), .commit 0 [] (assertInt 2), .lead 1, .wrote 1 (.lost "io"), .finish 0,
    .commit 0 [] (assertInt 3), .lead 2, .wrote 2 .landed, .finish 2]

theorem group_commit_answers_sample : ∃ w : World FactRows (BranchId × Nat),
    Run World.step NoStaleWaiter freshWorld w ∧ w.written = [3] ∧ AnswersOwn w := by
  have hex : (executeChecked World.step (fun w a => decide (NoStaleWaiter w a)) freshWorld
      failedGroup).isSome = true := by decide +kernel
  have hrun : Run World.step NoStaleWaiter freshWorld _ := Run.afterChecked (by simp) hex
  exact ⟨_, hrun, by decide +kernel, group_commit_answers _ _ _ _ _ hrun⟩

end Grmpl

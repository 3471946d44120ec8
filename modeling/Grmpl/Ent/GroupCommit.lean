import Grmpl.Ent.FamilySteps
import Grmpl.Ent.FactRows

/-!
# Group commit answers each committer

Stages are numbered as they are queued, groups take the whole queue, and one
record says how far writes have landed and how far they have failed. Whatever has
happened since, a stage is still queued, was in a group that landed, or lies at or
below the failure on record.

* `QueueInv`, `CallInv`: the queue's invariant, and what holds of each thread.
* `queueInv_step`: every step keeps it.
* `NoStaleWaiter`: the condition on a failing write under which an answer is
  never another stage's.
* `AnswersOwn`: each answer is about its own stage, and commits are not blocked.
-/

open OrdMap Runs

namespace Grmpl

variable {F C : Type}

/-- The stage a thread's operation waits for. -/
def Op.seq : Op F → Option Nat
  | .commit _ _ s _ _ => some s
  | .spawn _ s _ => some s
  | .flush => none
  | .fork _ _ => none

/-- The handle a commit was made through. -/
def Op.handle : Op F → Option Nat
  | .commit h _ _ _ _ => some h
  | _ => none

theorem Op.handle_eq_some {op : Op F} {h : Nat} :
    op.handle = some h ↔ ∃ b s u st, op = .commit h b s u st := by
  cases op <;> simp [Op.handle]

namespace Pc

def isLeading : Pc → Bool
  | .leading _ => true
  | _ => false

/-- The thread was told of an error. -/
def isRefused : Pc → Bool
  | .returned (.error _) => true
  | _ => false

/-- The thread was told its stage is durable. -/
def isAcknowledged : Pc → Bool
  | .returned (.ok ()) => true
  | _ => false

/-- The thread waits for one of the stages listed. -/
def waitsFor (stages : List Nat) : Pc → Bool
  | .waiting (some s) => s ∈ stages
  | _ => false

theorem isRefused_iff {pc : Pc} : pc.isRefused = true ↔ ∃ e, pc = .returned (.error e) := by
  cases pc with
  | returned r => cases r <;> simp [isRefused]
  | _ => simp [isRefused]

theorem isAcknowledged_iff {pc : Pc} : pc.isAcknowledged = true ↔ pc = .returned (.ok ()) := by
  cases pc with
  | returned r => cases r <;> simp [isAcknowledged]
  | _ => simp [isAcknowledged]

end Pc

namespace World

/-- The stages queued or being written, oldest first. -/
def unsettled (w : World F C) : List Nat := (w.group ++ w.dur.pending).map Pending.seq

/-- Whether a stage lies at or below the failure on record. -/
def Failed (w : World F C) (s : Nat) : Prop := ∃ f, w.dur.failure = some f ∧ s ≤ f.1

end World

open World

/-- What holds of a thread: its stage is queued, landed or failed, it waits for
that stage, and an answer it has says what became of it. -/
structure CallInv (w : World F C) (call : Call F) : Prop where
  stage : ∀ s, call.op.seq = some s →
    s ≤ w.dur.staged ∧ (s ∈ w.unsettled ∨ s ∈ w.written ∨ w.Failed s)
  waiting : ∀ t, call.pc = .waiting t → t = call.op.seq
  leading : ∀ t, call.pc = .leading t → t = call.op.seq ∧ ∀ s, t = some s → s ∈ w.group.map Pending.seq
  ok : call.pc = .returned (.ok ()) → ∀ s, call.op.seq = some s → s ∈ w.written
  error : ∀ e, call.pc = .returned (.error e) → ∀ s, call.op.seq = some s → w.Failed s

/-- The queue's invariant. -/
structure QueueInv (w : World F C) : Prop where
  writing : w.dur.writing = true ↔ w.group ≠ []
  leader : ∀ (c : Nat) (call : Call F), w.calls[c]? = some call → call.pc.isLeading = true →
    w.dur.writing = true ∧
      ∀ (c' : Nat) (call' : Call F), w.calls[c']? = some call' → call'.pc.isLeading = true → c' = c
  ordered : w.unsettled.Pairwise (· < ·)
  fresh : ∀ s ∈ w.unsettled, w.dur.landed < s ∧ s ≤ w.dur.staged
  landed : w.dur.landed ≤ w.dur.staged
  failure : ∀ f, w.dur.failure = some f → f.1 ≤ w.dur.staged ∧ ∀ s ∈ w.unsettled, f.1 < s
  written : ∀ s ∈ w.written, s ≤ w.dur.landed
  calls : ∀ call ∈ w.calls, CallInv w call

/-- Two worlds with one queue. -/
structure SameQueue (w w' : World F C) : Prop where
  group : w'.group = w.group
  pending : w'.dur.pending = w.dur.pending
  staged : w'.dur.staged = w.dur.staged
  landed : w'.dur.landed = w.dur.landed
  writing : w'.dur.writing = w.dur.writing
  failure : w'.dur.failure = w.dur.failure
  written : w'.written = w.written

variable {w w' : World F C}

theorem SameQueue.unsettled (h : SameQueue w w') : w'.unsettled = w.unsettled := by
  rw [World.unsettled, World.unsettled, h.group, h.pending]

theorem SameQueue.failed (h : SameQueue w w') (s : Nat) : w'.Failed s ↔ w.Failed s := by
  rw [World.Failed, World.Failed, h.failure]

theorem CallInv.same {call : Call F} (h : CallInv w call) (hq : SameQueue w w') :
    CallInv w' call where
  stage s hs := by
    rw [hq.staged, hq.unsettled, hq.written, hq.failed]
    exact h.stage s hs
  waiting := h.waiting
  leading t ht := by
    rw [hq.group]
    exact h.leading t ht
  ok hpc s hs := by
    rw [hq.written]
    exact h.ok hpc s hs
  error e hpc s hs := (hq.failed s).2 (h.error e hpc s hs)

/-- A thread that only waits, or whose answer is used, has nothing to answer for
beyond its stage. -/
theorem CallInv.waitingFor {op : Op F} (h : ∀ s, op.seq = some s →
    s ≤ w.dur.staged ∧ (s ∈ w.unsettled ∨ s ∈ w.written ∨ w.Failed s)) :
    CallInv w ⟨op, .waiting op.seq⟩ :=
  ⟨h, fun _ ht => (Pc.waiting.inj ht).symm, fun _ ht => (nomatch ht), fun ht => (nomatch ht),
    fun _ ht => (nomatch ht)⟩

theorem mem_of_getElem? {α : Type} {l : List α} {i : Nat} {x : α} (h : l[i]? = some x) : x ∈ l :=
  List.mem_of_getElem? h

/-- A queue left as it is, with one thread moved on. -/
theorem QueueInv.setCall (h : QueueInv w) (hq : SameQueue w w') {c : Nat} {call : Call F}
    (hc : w'.calls = w.calls.set c call) (hpc : call.pc.isLeading = false) (hcall : CallInv w call) :
    QueueInv w' where
  writing := by
    rw [hq.writing, hq.group]
    exact h.writing
  leader i x hi hx := by
    -- a leading thread of the new world led in the old one
    have hold : ∀ (j : Nat) (y : Call F), w'.calls[j]? = some y → y.pc.isLeading = true →
        w.calls[j]? = some y := by
      intro j y hj hy
      rw [hc, List.getElem?_set] at hj
      split_ifs at hj with hcj hlt
      · cases hj
        rw [hpc] at hy
        exact absurd hy (by simp)
      · exact hj
    rw [hq.writing]
    refine ⟨(h.leader i x (hold i x hi hx) hx).1, fun j y hj hy => ?_⟩
    exact (h.leader i x (hold i x hi hx) hx).2 j y (hold j y hj hy) hy
  ordered := by
    rw [hq.unsettled]
    exact h.ordered
  fresh := by
    rw [hq.unsettled, hq.landed, hq.staged]
    exact h.fresh
  landed := by
    rw [hq.landed, hq.staged]
    exact h.landed
  failure := by
    rw [hq.failure, hq.unsettled, hq.staged]
    exact h.failure
  written := by
    rw [hq.written, hq.landed]
    exact h.written
  calls x hx := by
    rw [hc] at hx
    rcases List.mem_or_eq_of_mem_set hx with hx | rfl
    · exact (h.calls x hx).same hq
    · exact hcall.same hq

/-- A queue left as it is, with a thread added. -/
theorem QueueInv.addCall (h : QueueInv w) (hq : SameQueue w w') {call : Call F}
    (hc : w'.calls = w.calls ++ [call]) (hpc : call.pc.isLeading = false) (hcall : CallInv w call) :
    QueueInv w' := by
  have hq' : SameQueue w { w with calls := w.calls ++ [⟨.flush, .over⟩] } := ⟨rfl, rfl, rfl, rfl, rfl, rfl, rfl⟩
  have hover : QueueInv { w with calls := w.calls ++ [⟨.flush, .over⟩] } := by
    refine ⟨h.writing, ?_, h.ordered, h.fresh, h.landed, h.failure, h.written, ?_⟩
    · have hold : ∀ (j : Nat) (y : Call F), (w.calls ++ [(⟨.flush, .over⟩ : Call F)])[j]? = some y →
          y.pc.isLeading = true → w.calls[j]? = some y := by
        intro j y hj hy
        rw [List.getElem?_append] at hj
        split_ifs at hj with hlt
        · exact hj
        · obtain rfl := List.mem_singleton.1 (List.mem_of_getElem? hj)
          exact absurd hy (by simp [Pc.isLeading])
      intro i x hi hx
      refine ⟨(h.leader i x (hold i x hi hx) hx).1, fun j y hj hy => ?_⟩
      exact (h.leader i x (hold i x hi hx) hx).2 j y (hold j y hj hy) hy
    · intro x hx
      rcases List.mem_append.1 hx with hx | hx
      · exact (h.calls x hx).same hq'
      · obtain rfl := List.mem_singleton.1 hx
        exact ⟨fun _ hs => (nomatch hs), fun _ ht => (nomatch ht), fun _ ht => (nomatch ht),
          fun ht => (nomatch ht), fun _ ht => (nomatch ht)⟩
  have hset : w'.calls = ({ w with calls := w.calls ++ [⟨.flush, .over⟩] } : World F C).calls.set
      w.calls.length call := by
    rw [hc]
    simp
  exact hover.setCall ⟨hq.group, hq.pending, hq.staged, hq.landed, hq.writing, hq.failure, hq.written⟩
    hset hpc (hcall.same hq')

/-- Only the threads and the queue count. -/
theorem QueueInv.same (h : QueueInv w) (hq : SameQueue w w') (hc : w'.calls = w.calls) :
    QueueInv w' where
  writing := by
    rw [hq.writing, hq.group]
    exact h.writing
  leader := by
    rw [hc, hq.writing]
    exact h.leader
  ordered := by
    rw [hq.unsettled]
    exact h.ordered
  fresh := by
    rw [hq.unsettled, hq.landed, hq.staged]
    exact h.fresh
  landed := by
    rw [hq.landed, hq.staged]
    exact h.landed
  failure := by
    rw [hq.failure, hq.unsettled, hq.staged]
    exact h.failure
  written := by
    rw [hq.written, hq.landed]
    exact h.written
  calls x hx := (h.calls x (hc ▸ hx)).same hq

/-! ## Staging -/

section Stage

variable [DecidableEq C] [Framed F C]

/-- A stage is numbered after every other. -/
theorem unsettled_stageIn (w : World F C) (b : BranchId) (inner : Inner F) :
    (w.stageIn b inner).unsettled = w.unsettled ++ [w.dur.staged + 1] := by
  simp [World.unsettled, stageIn]

theorem CallInv.stageIn {call : Call F} (h : CallInv w call) (b : BranchId) (inner : Inner F) :
    CallInv (w.stageIn b inner) call where
  stage s hs := by
    obtain ⟨hle, hs'⟩ := h.stage s hs
    refine ⟨Nat.le_succ_of_le hle, ?_⟩
    rw [unsettled_stageIn, List.mem_append]
    rcases hs' with h' | h' | h'
    · exact .inl (.inl h')
    · exact .inr (.inl h')
    · exact .inr (.inr h')
  waiting := h.waiting
  leading := h.leading
  ok := h.ok
  error := h.error

theorem QueueInv.stageIn (h : QueueInv w) (b : BranchId) (inner : Inner F) :
    QueueInv (w.stageIn b inner) where
  writing := h.writing
  leader := h.leader
  ordered := by
    rw [unsettled_stageIn, List.pairwise_append]
    refine ⟨h.ordered, List.pairwise_singleton _ _, fun s hs t ht => ?_⟩
    obtain rfl := List.mem_singleton.1 ht
    exact Nat.lt_succ_of_le (h.fresh s hs).2
  fresh s hs := by
    rw [unsettled_stageIn, List.mem_append, List.mem_singleton] at hs
    rcases hs with hs | rfl
    · exact ⟨(h.fresh s hs).1, Nat.le_succ_of_le (h.fresh s hs).2⟩
    · exact ⟨Nat.lt_succ_of_le h.landed, le_rfl⟩
  landed := Nat.le_succ_of_le h.landed
  failure f hf := by
    obtain ⟨hle, hlt⟩ := h.failure f hf
    refine ⟨Nat.le_succ_of_le hle, fun s hs => ?_⟩
    rw [unsettled_stageIn, List.mem_append, List.mem_singleton] at hs
    rcases hs with hs | rfl
    · exact hlt s hs
    · exact Nat.lt_succ_of_le hle
  written := h.written
  calls x hx := (h.calls x hx).stageIn b inner

end Stage

/-! ## Leading and writing -/

/-- Nothing is being written while nobody writes. -/
theorem QueueInv.idle (h : QueueInv w) (hidle : w.dur.writing = false) : w.group = [] := by
  by_contra hg
  rw [h.writing.2 hg] at hidle
  exact absurd hidle (by simp)

/-- The whole queue taken as a group. -/
theorem QueueInv.lead (h : QueueInv w) {c : Nat} {op : Op F} {target : Option Nat}
    (hc : w.calls[c]? = some ⟨op, .waiting target⟩) (hdoom : w.dur.doom target = none)
    (hdone : w.dur.done target = false) (hidle : w.dur.writing = false)
    (hne : w.dur.pending ≠ []) :
    QueueInv ({ w with
      group := w.dur.pending
      dur := { w.dur with pending := [], writing := true } }.setCall c ⟨op, .leading target⟩) := by
  have hgroup := h.idle hidle
  have hun : ({ w with
      group := w.dur.pending
      dur := { w.dur with pending := [], writing := true } }.setCall c
        ⟨op, .leading target⟩ : World F C).unsettled = w.unsettled := by
    simp [World.unsettled, World.setCall, hgroup]
  have hcall := h.calls _ (mem_of_getElem? hc)
  refine ⟨by simpa [World.setCall] using hne, ?_, ?_, ?_, h.landed, ?_, h.written, ?_⟩
  · have hlead : ∀ (j : Nat) (y : Call F), (w.calls.set c ⟨op, .leading target⟩)[j]? = some y →
        y.pc.isLeading = true → j = c := by
      intro j y hj hy
      rw [List.getElem?_set] at hj
      split_ifs at hj with hcj hlt
      · exact hcj.symm
      · have := (h.leader j y hj hy).1
        rw [hidle] at this
        exact absurd this (by simp)
    intro i x hi hx
    refine ⟨rfl, fun j y hj hy => ?_⟩
    rw [hlead i x hi hx, hlead j y hj hy]
  · rw [hun]
    exact h.ordered
  · rw [hun]
    exact h.fresh
  · rw [hun]
    exact h.failure
  · intro x hx
    rcases List.mem_or_eq_of_mem_set hx with hx | rfl
    · have hx' := h.calls x hx
      refine ⟨fun s hs => ?_, hx'.waiting, fun t ht => ⟨(hx'.leading t ht).1, fun s hs => ?_⟩,
        hx'.ok, hx'.error⟩
      · rw [hun]
        exact hx'.stage s hs
      · have := (hx'.leading t ht).2 s hs
        rw [hgroup] at this
        exact absurd this (by simp)
    · refine ⟨fun s hs => ?_, fun _ ht => (nomatch ht), fun t ht => ?_, fun ht => (nomatch ht),
        fun _ ht => (nomatch ht)⟩
      · rw [hun]
        exact hcall.stage s hs
      · -- neither landed nor failed, the leader's stage is in the queue it takes
        cases ht
        refine ⟨hcall.waiting _ rfl, fun s hs => ?_⟩
        subst hs
        obtain ⟨-, hst⟩ := hcall.stage s (hcall.waiting _ rfl).symm
        rcases hst with hst | hst | ⟨f, hf, hle⟩
        · rw [World.unsettled, hgroup, List.nil_append] at hst
          exact hst
        · have := h.written s hst
          simp only [Durable.done, decide_eq_false_iff_not] at hdone
          omega
        · rw [Durable.doom, hf] at hdoom
          simp only [Option.bind_some, ite_eq_left_iff] at hdoom
          exact absurd (hdoom (by omega)) (by simp)

/-- The last stage of a group, the greatest of them. -/
theorem QueueInv.last (h : QueueInv w) {p : Pending F C} (hp : w.group.getLast? = some p) :
    p ∈ w.group ∧ (∀ s ∈ w.group.map Pending.seq, s ≤ p.seq) ∧
      ∀ s ∈ w.dur.pending.map Pending.seq, p.seq < s := by
  have hmem := List.mem_of_getLast? hp
  have hord := h.ordered
  rw [World.unsettled, List.map_append, List.pairwise_append] at hord
  refine ⟨hmem, fun s hs => ?_, fun s hs => hord.2.2 _ (List.mem_map_of_mem hmem) s hs⟩
  obtain ⟨init, hinit⟩ : ∃ init, w.group = init ++ [p] :=
    ⟨w.group.dropLast, (List.dropLast_append_getLast? p hp).symm⟩
  rw [hinit, List.map_append, List.pairwise_append] at hord
  rw [hinit, List.map_append, List.mem_append] at hs
  rcases hs with hs | hs
  · exact (hord.1.2.2 s hs p.seq (by simp)).le
  · obtain rfl := List.mem_singleton.1 hs
    exact le_rfl

theorem getLast?_of_ne_nil {α : Type} {l : List α} (h : l ≠ []) : ∃ x, l.getLast? = some x :=
  ⟨l.getLast h, List.getLast?_eq_some_getLast h⟩

section Write

variable {c : Nat} {op : Op F} {target : Option Nat}

/-- Nobody leads once the leader is back. -/
theorem QueueInv.noLeader (h : QueueInv w) (hc : w.calls[c]? = some ⟨op, .leading target⟩)
    {pc : Pc} (hpc : pc.isLeading = false) {i : Nat} {x : Call F}
    (hi : (w.calls.set c ⟨op, pc⟩)[i]? = some x) : x.pc.isLeading = false := by
  by_contra hx
  rw [List.getElem?_set] at hi
  split_ifs at hi with hci hlt
  · cases hi
    exact hx hpc
  · exact hci ((h.leader c _ hc rfl).2 i x hi (by simpa using hx)).symm

theorem landed_calls (w : World F C) :
    (w.endWrite c op target .landed).calls = w.calls.set c ⟨op, .waiting target⟩ := by
  have hbatch : w.batch.calls = w.calls := by
    unfold World.batch
    split <;> rfl
  simp [World.endWrite, World.setCall, hbatch]

/-- A group that landed. -/
theorem QueueInv.landedWrite (h : QueueInv w) (hc : w.calls[c]? = some ⟨op, .leading target⟩) :
    QueueInv (w.endWrite c op target .landed) := by
  obtain ⟨hbusy, -⟩ := h.leader c _ hc rfl
  obtain ⟨p, hp⟩ := getLast?_of_ne_nil (h.writing.1 hbusy)
  obtain ⟨hpmem, hmax, hpend⟩ := h.last hp
  have hun : ∀ s, s ∈ w.unsettled ↔ s ∈ w.group.map Pending.seq ∨ s ∈ w.dur.pending.map Pending.seq := by
    intro s
    rw [World.unsettled, List.map_append, List.mem_append]
  have hpseq : p.seq ≤ w.dur.staged := (h.fresh p.seq ((hun _).2 (.inl (List.mem_map_of_mem hpmem)))).2
  have hord := h.ordered
  rw [World.unsettled, List.map_append, List.pairwise_append] at hord
  have hnew : (w.endWrite c op target .landed).unsettled = w.dur.pending.map Pending.seq := by
    simp [World.unsettled, World.endWrite, World.setCall]
  have hcalls : (w.endWrite c op target .landed).calls = w.calls.set c ⟨op, .waiting target⟩ :=
    landed_calls w
  have hland : (w.endWrite c op target .landed).dur.landed = max w.dur.landed p.seq := by
    simp [World.endWrite, World.setCall, hp]
  have hwritten : (w.endWrite c op target .landed).written = w.written ++ w.group.map Pending.seq := rfl
  have hcallInv : ∀ x ∈ w.calls, x.pc.isLeading = false → CallInv (w.endWrite c op target .landed) x := by
    intro x hx hpc
    have hx' := h.calls x hx
    refine ⟨fun s hs => ?_, hx'.waiting, fun t ht => ?_, fun hok s hs => ?_, hx'.error⟩
    · obtain ⟨hle, hst⟩ := hx'.stage s hs
      refine ⟨hle, ?_⟩
      rw [hnew, hwritten, List.mem_append]
      rcases hst with hst | hst | hst
      · rcases (hun s).1 hst with hst | hst
        · exact .inr (.inl (.inr hst))
        · exact .inl hst
      · exact .inr (.inl (.inl hst))
      · exact .inr (.inr hst)
    · rw [ht] at hpc
      exact absurd hpc (by simp [Pc.isLeading])
    · rw [hwritten]
      exact List.mem_append_left _ (hx'.ok hok s hs)
  refine ⟨by simp [World.endWrite, World.setCall], ?_, ?_, ?_, ?_, ?_, ?_, ?_⟩
  · intro i x hi hx
    rw [hcalls] at hi
    rw [h.noLeader hc rfl hi] at hx
    exact absurd hx (by simp)
  · rw [hnew]
    exact hord.2.1
  · intro s hs
    rw [hnew] at hs
    rw [hland]
    have := (h.fresh s ((hun s).2 (.inr hs)))
    exact ⟨max_lt this.1 (hpend s hs), this.2⟩
  · rw [hland]
    exact max_le h.landed hpseq
  · intro f hf
    obtain ⟨hle, hlt⟩ := h.failure f hf
    refine ⟨hle, fun s hs => ?_⟩
    rw [hnew] at hs
    exact hlt s ((hun s).2 (.inr hs))
  · intro s hs
    rw [hwritten, List.mem_append] at hs
    rw [hland]
    rcases hs with hs | hs
    · exact (h.written s hs).trans (le_max_left _ _)
    · exact (hmax s hs).trans (le_max_right _ _)
  · intro x hx
    obtain ⟨i, hi⟩ := List.mem_iff_getElem?.1 hx
    rw [hcalls] at hi hx
    have hpc := h.noLeader hc rfl hi
    rcases List.mem_or_eq_of_mem_set hx with hx | rfl
    · exact hcallInv x hx hpc
    · have hlead := h.calls _ (mem_of_getElem? hc)
      refine ⟨fun s hs => ?_, fun t ht => ?_, fun _ ht => (nomatch ht), fun ht => (nomatch ht),
        fun _ ht => (nomatch ht)⟩
      · refine ⟨(hlead.stage s hs).1, .inr (.inl ?_)⟩
        rw [hwritten]
        exact List.mem_append_right _ ((hlead.leading _ rfl).2 s ((hlead.leading _ rfl).1.trans hs))
      · cases ht
        exact (hlead.leading _ rfl).1

/-- A world as a failed write leaves its queue. -/
structure FailedWrite (w w' : World F C) (c : Nat) (op : Op F) (msg : String) : Prop where
  group : w'.group = []
  pending : w'.dur.pending = w.dur.pending
  staged : w'.dur.staged = w.dur.staged
  landed : w'.dur.landed = w.dur.landed
  writing : w'.dur.writing = false
  failure : w'.dur.failure = some (((w.group.getLast?).map Pending.seq).getD 0, msg)
  written : w'.written = w.written
  calls : w'.calls = w.calls.set c ⟨op, .returned (.error (.store msg))⟩

theorem batch_eq (w : World F C) : w.batch = { w with stored := w.batch.stored, disk := w.batch.disk } := by
  unfold World.batch
  split <;> rfl

theorem failedWrite_lost (w : World F C) (msg : String) :
    FailedWrite w (w.endWrite c op target (.lost msg)) c op msg :=
  ⟨rfl, rfl, rfl, rfl, rfl, rfl, rfl, rfl⟩

theorem failedWrite_unsynced (w : World F C) (msg : String) (kept : Bool) :
    FailedWrite w (w.endWrite c op target (.unsynced msg kept)) c op msg := by
  cases kept with
  | false => exact ⟨rfl, rfl, rfl, rfl, rfl, rfl, rfl, rfl⟩
  | true =>
    simp only [World.endWrite, if_true]
    rw [batch_eq]
    exact ⟨rfl, rfl, rfl, rfl, rfl, rfl, rfl, rfl⟩

/-- A failed write raises the failure on record past every stage it carried. -/
theorem FailedWrite.failed_iff {msg : String} (hw : FailedWrite w w' c op msg)
    {p : Pending F C} (hp : w.group.getLast? = some p) (s : Nat) : w'.Failed s ↔ s ≤ p.seq := by
  rw [World.Failed, hw.failure, hp]
  simp

/-- A group that failed. -/
theorem QueueInv.failedWrite (h : QueueInv w) (hc : w.calls[c]? = some ⟨op, .leading target⟩)
    {msg : String} (hw : FailedWrite w w' c op msg) : QueueInv w' := by
  obtain ⟨hbusy, -⟩ := h.leader c _ hc rfl
  obtain ⟨p, hp⟩ := getLast?_of_ne_nil (h.writing.1 hbusy)
  obtain ⟨hpmem, hmax, hpend⟩ := h.last hp
  have hun : ∀ s, s ∈ w.unsettled ↔ s ∈ w.group.map Pending.seq ∨ s ∈ w.dur.pending.map Pending.seq := by
    intro s
    rw [World.unsettled, List.map_append, List.mem_append]
  have hpun : p.seq ∈ w.unsettled := (hun _).2 (.inl (List.mem_map_of_mem hpmem))
  have hord := h.ordered
  rw [World.unsettled, List.map_append, List.pairwise_append] at hord
  have hnew : w'.unsettled = w.dur.pending.map Pending.seq := by
    rw [World.unsettled, hw.group, hw.pending, List.nil_append]
  have hfailed : ∀ s, w.Failed s → w'.Failed s := by
    rintro s ⟨f, hf, hle⟩
    exact (hw.failed_iff hp s).2 (hle.trans ((h.failure f hf).2 _ hpun).le)
  refine ⟨by simp [hw.writing, hw.group], ?_, ?_, ?_, ?_, ?_, ?_, ?_⟩
  · intro i x hi hx
    rw [hw.calls] at hi
    rw [h.noLeader hc rfl hi] at hx
    exact absurd hx (by simp)
  · rw [hnew]
    exact hord.2.1
  · intro s hs
    rw [hnew] at hs
    rw [hw.landed, hw.staged]
    exact h.fresh s ((hun s).2 (.inr hs))
  · rw [hw.landed, hw.staged]
    exact h.landed
  · intro f hf
    rw [hw.failure, hp] at hf
    obtain rfl := Option.some.inj hf
    rw [hw.staged, hnew]
    exact ⟨(h.fresh _ hpun).2, hpend⟩
  · rw [hw.written, hw.landed]
    exact h.written
  · intro x hx
    obtain ⟨i, hi⟩ := List.mem_iff_getElem?.1 hx
    rw [hw.calls] at hi hx
    have hpc := h.noLeader hc rfl hi
    have hstage : ∀ y ∈ w.calls, ∀ s, y.op.seq = some s →
        s ≤ w'.dur.staged ∧ (s ∈ w'.unsettled ∨ s ∈ w'.written ∨ w'.Failed s) := by
      intro y hy s hs
      obtain ⟨hle, hst⟩ := (h.calls y hy).stage s hs
      rw [hw.staged, hnew, hw.written]
      refine ⟨hle, ?_⟩
      rcases hst with hst | hst | hst
      · rcases (hun s).1 hst with hst | hst
        · exact .inr (.inr ((hw.failed_iff hp s).2 (hmax s hst)))
        · exact .inl hst
      · exact .inr (.inl hst)
      · exact .inr (.inr (hfailed s hst))
    rcases List.mem_or_eq_of_mem_set hx with hx | rfl
    · have hx' := h.calls x hx
      refine ⟨hstage x hx, hx'.waiting, fun t ht => ?_, fun hok s hs => ?_, fun e he s hs => ?_⟩
      · rw [ht] at hpc
        exact absurd hpc (by simp [Pc.isLeading])
      · rw [hw.written]
        exact hx'.ok hok s hs
      · exact hfailed s (hx'.error e he s hs)
    · have hlead := h.calls _ (mem_of_getElem? hc)
      refine ⟨hstage ⟨op, .leading target⟩ (mem_of_getElem? hc), fun _ ht => (nomatch ht), fun _ ht => (nomatch ht),
        fun ht => (nomatch ht), fun e he s hs => ?_⟩
      have hs' : target = some s := (hlead.leading _ rfl).1.trans hs
      exact (hw.failed_iff hp s).2 (hmax s ((hlead.leading _ rfl).2 s hs'))

end Write

/-! ## Steps -/

section Steps

variable [DecidableEq C] [Framed F C] [FactEnf F] {a : Action}

omit [DecidableEq C] [Framed F C] [FactEnf F] in
/-- What a doom says of the stage waited for. -/
theorem failed_of_doom {s : Nat} {msg : String} (h : w.dur.doom (some s) = some msg) : w.Failed s := by
  obtain ⟨f, hf, hs⟩ := Option.bind_eq_some_iff.1 h
  simp only at hs
  split_ifs at hs with hlt
  exact ⟨f, hf, by omega⟩

omit [DecidableEq C] [Framed F C] [FactEnf F] in
theorem not_failed_of_doom {s : Nat} (h : w.dur.doom (some s) = none) : ¬ w.Failed s := by
  rintro ⟨f, hf, hle⟩
  rw [Durable.doom, hf] at h
  simp only [Option.bind_some, ite_eq_left_iff] at h
  exact absurd (h (by omega)) (by simp)

omit [DecidableEq C] [Framed F C] [FactEnf F] in
/-- A stage neither failed nor landed is still queued. -/
theorem QueueInv.queued (h : QueueInv w) {call : Call F} (hc : call ∈ w.calls) {s : Nat}
    (hs : call.op.seq = some s) (hdoom : w.dur.doom (some s) = none)
    (hdone : w.dur.done (some s) = false) : s ∈ w.unsettled := by
  rcases ((h.calls call hc).stage s hs).2 with hst | hst | hst
  · exact hst
  · have := h.written s hst
    simp only [Durable.done, decide_eq_false_iff_not] at hdone
    omega
  · exact absurd hst (not_failed_of_doom hdoom)

omit [DecidableEq C] [Framed F C] [FactEnf F] in
/-- Whoever finds nobody writing and its own answer open finds the queue filled. -/
theorem QueueInv.pending_ne_nil (h : QueueInv w) {c : Nat} {op : Op F} {target : Option Nat}
    (hc : w.calls[c]? = some ⟨op, .waiting target⟩) (hdoom : w.dur.doom target = none)
    (hdone : w.dur.done target = false) (hidle : w.dur.writing = false) : w.dur.pending ≠ [] := by
  intro hnil
  have hgroup := h.idle hidle
  cases target with
  | none => simp [Durable.done, hnil, hidle] at hdone
  | some s =>
    have := h.queued (mem_of_getElem? hc) ((h.calls _ (mem_of_getElem? hc)).waiting _ rfl).symm
      hdoom hdone
    simp [World.unsettled, hgroup, hnil] at this

omit [DecidableEq C] [Framed F C] [FactEnf F] in
/-- A thread whose answer has been used. -/
theorem CallInv.over {op : Op F} (h : ∀ s, op.seq = some s →
    s ≤ w.dur.staged ∧ (s ∈ w.unsettled ∨ s ∈ w.written ∨ w.Failed s)) : CallInv w ⟨op, .over⟩ :=
  ⟨h, fun _ ht => (nomatch ht), fun _ ht => (nomatch ht), fun ht => (nomatch ht),
    fun _ ht => (nomatch ht)⟩

omit [FactEnf F] in
/-- A stage just queued, and the thread that waits for it. -/
theorem CallInv.staged (b : BranchId) (inner : Inner F) {op : Op F}
    (hop : op.seq = some (w.dur.staged + 1)) :
    CallInv (w.stageIn b inner) ⟨op, .waiting (some (w.dur.staged + 1))⟩ := by
  rw [← hop]
  refine CallInv.waitingFor fun s hs => ?_
  obtain rfl : w.dur.staged + 1 = s := Option.some.inj (hop.symm.trans hs)
  refine ⟨le_rfl, .inl ?_⟩
  rw [unsettled_stageIn]
  simp

/-- Every step keeps the queue's invariant. -/
theorem queueInv_step (h : QueueInv w) (hd : Does w a w') : QueueInv w' := by
  cases hd with
  | refused => exact h
  | conflict => exact h
  | commit i pre updates k hk =>
    have hset : QueueInv (w.setHandle i (some { k with
        inner := k.inner.apply (k.inner.current + 1) pre updates none })) :=
      h.same ⟨rfl, rfl, rfl, rfl, rfl, rfl, rfl⟩ rfl
    exact (hset.stageIn k.branch _).addCall ⟨rfl, rfl, rfl, rfl, rfl, rfl, rfl⟩ rfl rfl
      (CallInv.staged _ _ rfl)
  | flush =>
    exact h.addCall ⟨rfl, rfl, rfl, rfl, rfl, rfl, rfl⟩ rfl rfl
      (CallInv.waitingFor fun _ hs => (nomatch hs))
  | fork i at' k hk hat =>
    exact h.addCall ⟨rfl, rfl, rfl, rfl, rfl, rfl, rfl⟩ rfl rfl
      (CallInv.waitingFor fun _ hs => (nomatch hs))
  | forkFailed c i at' k e hc hk =>
    exact h.setCall ⟨rfl, rfl, rfl, rfl, rfl, rfl, rfl⟩ rfl rfl
      (CallInv.over fun _ hs => (nomatch hs))
  | forkStage c i at' k hc hk =>
    have hset : QueueInv ({ w.setHandle i (some { k with held := false }) with
        root := { w.root with dag := (w.root.dag.fork k.branch at').1 } } : World F C) :=
      h.same ⟨rfl, rfl, rfl, rfl, rfl, rfl, rfl⟩ rfl
    exact (hset.stageIn _ _).setCall ⟨rfl, rfl, rfl, rfl, rfl, rfl, rfl⟩ rfl rfl
      (CallInv.staged _ _ rfl)
  | merge i j todo k theirs merged dag hk hm hdag =>
    have hset : QueueInv ({ w with root := { w.root with dag := dag } } : World F C) :=
      h.same ⟨rfl, rfl, rfl, rfl, rfl, rfl, rfl⟩ rfl
    exact (hset.stageIn _ _).addCall ⟨rfl, rfl, rfl, rfl, rfl, rfl, rfl⟩ rfl rfl
      (CallInv.staged _ _ rfl)
  | branch b inner hb => exact h.same ⟨rfl, rfl, rfl, rfl, rfl, rfl, rfl⟩ rfl
  | adopt c b seq state hc =>
    exact h.setCall ⟨rfl, rfl, rfl, rfl, rfl, rfl, rfl⟩ rfl rfl
      (CallInv.over (h.calls _ (mem_of_getElem? hc)).stage)
  | drop i k hk => exact h.same ⟨rfl, rfl, rfl, rfl, rfl, rfl, rfl⟩ rfl
  | leadNothing c op target msg hc hdoom hdone hidle hnil =>
    exact absurd hnil (h.pending_ne_nil hc hdoom hdone hidle)
  | lead c op target hc hdoom hdone hidle hne => exact h.lead hc hdoom hdone hidle hne
  | wrote c op target outcome hc =>
    cases outcome with
    | landed => exact h.landedWrite hc
    | lost msg => exact h.failedWrite hc (failedWrite_lost w msg)
    | unsynced msg kept => exact h.failedWrite hc (failedWrite_unsynced w msg kept)
  | doomed c op target msg hc hdoom =>
    have hcall := h.calls _ (mem_of_getElem? hc)
    refine h.setCall ⟨rfl, rfl, rfl, rfl, rfl, rfl, rfl⟩ rfl rfl ?_
    refine ⟨hcall.stage, fun _ ht => (nomatch ht), fun _ ht => (nomatch ht), fun ht => (nomatch ht),
      fun e _ s hs => ?_⟩
    rw [(hcall.waiting _ rfl).trans hs] at hdoom
    exact failed_of_doom hdoom
  | finish c op target hc hdoom hdone =>
    have hcall := h.calls _ (mem_of_getElem? hc)
    refine h.setCall ⟨rfl, rfl, rfl, rfl, rfl, rfl, rfl⟩ rfl rfl ?_
    refine ⟨hcall.stage, fun _ ht => (nomatch ht), fun _ ht => (nomatch ht), fun _ s hs => ?_,
      fun _ ht => (nomatch ht)⟩
    rw [(hcall.waiting _ rfl).trans hs] at hdoom hdone
    -- done and not failed, the stage can only have landed
    rcases (hcall.stage s hs).2 with hst | hst | hst
    · have := (h.fresh s hst).1
      simp only [Durable.done, decide_eq_true_eq] at hdone
      omega
    · exact hst
    · exact absurd hst (not_failed_of_doom hdoom)

omit [DecidableEq C] [Framed F C] [FactEnf F] in
/-- A world just opened has an empty queue. -/
theorem queueInv_opened (stored known : List C) (disk : EntRoot F) (b : BranchId) (inner : Inner F) :
    QueueInv (World.opened stored known disk b inner) := by
  refine ⟨by simp [World.opened, World.on, Durable.new], by simp [World.opened, World.on],
    by simp [World.opened, World.on, World.unsettled, Durable.new],
    by simp [World.opened, World.on, World.unsettled, Durable.new], le_rfl,
    by simp [World.opened, World.on, Durable.new], by simp [World.opened, World.on],
    by simp [World.opened, World.on]⟩

/-- A run keeps the queue's invariant. -/
theorem queueInv_run {ok : World F C → Action → Prop} (h : Run World.step ok w w')
    (hw : QueueInv w) : QueueInv w' :=
  h.invariant hw fun _ _ _ hi _ hs => queueInv_step hi (step_does hs)

end Steps

end Grmpl

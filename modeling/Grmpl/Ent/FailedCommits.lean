import Grmpl.Ent.CommitAnswers

/-!
# What a failed commit leaves behind

A commit edits its handle's state before it waits for the write, and nothing takes
the edit back when the write fails. So a commit told of an error stays readable,
and the next write that lands carries it to disk with everything staged after it.

* `Visible`: a state is what some later read of its branch sees.
* `NoTrace`: no commit told of an error is visible.
* `SparesCommits`: the condition on a failing write.
* `failed_commit_no_trace`: where it holds no commit fails, and a commit that fails
  is always visible.
-/

open OrdMap Runs

namespace Grmpl

open World

variable {F C : Type} [DecidableEq C] [Framed F C] [FactEnf F]

namespace EntRoot

/-- A branch's state in the root is one that a state extends to. -/
def Has (r : EntRoot F) (b : BranchId) (s : Inner F) : Prop :=
  ∃ s', lookup b r.branches = some s' ∧ s.Extends s'

end EntRoot

/-- A state is what some later read of its branch sees: through a live handle, one
made from the root, or one opened on what is on disk. -/
def Visible (w : World F C) (b : BranchId) (s : Inner F) : Prop :=
  (∃ k, some k ∈ w.handles ∧ k.branch = b ∧ s.Extends k.inner) ∨ w.root.Has b s ∨ w.disk.Has b s

/-- No commit told of an error is visible. -/
def NoTrace (w : World F C) : Prop :=
  ∀ call ∈ w.calls, ∀ h b s updates state, call.op = .commit h b s updates state →
    call.pc.isRefused = true → ¬ Visible w b state

/-- A thread is a commit whose stage lies at or below `hi` and is unanswered. -/
def dooms (hi : Nat) (call : Call F) : Bool :=
  match call.op, call.pc with
  | .commit _ _ s _ _, .waiting _ => s ≤ hi
  | .commit _ _ s _ _, .leading _ => s ≤ hi
  | _, _ => false

/-- A write fails only when no unanswered commit lies at or below its last stage. -/
def SparesCommits (w : World F C) : Action → Prop
  | .wrote _ .landed => True
  | .wrote _ _ => ∀ call ∈ w.calls, dooms (((w.group.getLast?).map Pending.seq).getD 0) call = false
  | _ => True

instance (w : World F C) : (a : Action) → Decidable (SparesCommits w a)
  | .wrote _ .landed => .isTrue trivial
  | .wrote _ (.lost _) | .wrote _ (.unsynced ..) => inferInstanceAs (Decidable (∀ call ∈ w.calls,
      dooms (((w.group.getLast?).map Pending.seq).getD 0) call = false))
  | .commit .. | .flush | .fork .. | .forkStage _ | .merge .. | .branch _ | .adopt _ | .drop _ | .lead _
  | .finish _ => .isTrue trivial

/-- No commit has been told of an error, and none is doomed to be. -/
def NoneDoomed (w : World F C) : Prop :=
  ∀ call ∈ w.calls, ∀ h b s updates state, call.op = .commit h b s updates state →
    call.pc.isRefused = false ∧
      (∀ t, call.pc = .waiting t ∨ call.pc = .leading t → ¬ w.Failed s)

variable {w w' : World F C} {a : Action}

omit [DecidableEq C] [Framed F C] [FactEnf F] in
/-- A step that leaves the queue's record and answers no commit with an error. -/
theorem NoneDoomed.move (h : NoneDoomed w) (hq : SameQueue w w')
    (hc : ∀ x ∈ w'.calls, x ∈ w.calls ∨ (∀ h b s u st, x.op ≠ .commit h b s u st) ∨
      (x.pc.isRefused = false ∧ ((∀ t, x.pc ≠ .waiting t ∧ x.pc ≠ .leading t) ∨
        ∃ y ∈ w.calls, y.op = x.op ∧ ∃ t, y.pc = .waiting t))) : NoneDoomed w' := by
  intro x hx i b s u st hop
  rcases hc x hx with hx | hx | ⟨hr, hx⟩
  · refine ⟨(h x hx i b s u st hop).1, fun t ht => ?_⟩
    rw [hq.failed]
    exact (h x hx i b s u st hop).2 t ht
  · exact absurd hop (hx i b s u st)
  · refine ⟨hr, fun t ht => ?_⟩
    rcases hx with hx | ⟨y, hy, hyop, t', hy'⟩
    · rcases ht with ht | ht
      · exact absurd ht (hx t).1
      · exact absurd ht (hx t).2
    · rw [hq.failed]
      exact (h y hy i b s u st (hyop.trans hop)).2 t' (.inl hy')

omit [DecidableEq C] [Framed F C] [FactEnf F] in
/-- A stage is numbered past every failure. -/
theorem not_failed_next (hq : QueueInv w) : ¬ w.Failed (w.dur.staged + 1) := by
  rintro ⟨f, hf, hle⟩
  have := (hq.failure f hf).1
  omega

theorem noneDoomed_step (h : NoneDoomed w) (hq : QueueInv w) (hok : SparesCommits w a)
    (hd : Does w a w') : NoneDoomed w' := by
  have hset : ∀ {c : Nat} {call x : Call F}, x ∈ w.calls.set c call → x ∈ w.calls ∨ x = call :=
    fun hx => List.mem_or_eq_of_mem_set hx
  have happ : ∀ {call x : Call F}, x ∈ w.calls ++ [call] → x ∈ w.calls ∨ x = call := fun hx =>
    (List.mem_append.1 hx).imp_right List.mem_singleton.1
  have hfail : ∀ {c : Nat} {op : Op F} {target : Option Nat} {msg : String},
      w.calls[c]? = some ⟨op, .leading target⟩ → FailedWrite w w' c op msg →
        (∀ call ∈ w.calls, dooms (((w.group.getLast?).map Pending.seq).getD 0) call = false) →
          NoneDoomed w' := by
    intro c op target msg hc hfw hspare x hx i b s u st hop
    rw [hfw.calls] at hx
    rcases hset hx with hx | rfl
    · refine ⟨(h x hx i b s u st hop).1, fun t ht => ?_⟩
      have hlate := hspare x hx
      rw [World.Failed, hfw.failure]
      rintro ⟨f, hf, hle⟩
      obtain rfl := Option.some.inj hf
      rcases ht with ht | ht <;> simp [dooms, hop, ht] at hlate <;> omega
    · -- a leader that commits has its stage in the group
      have hlead := hq.calls _ (mem_of_getElem? hc)
      obtain ⟨ht, hin⟩ := hlead.leading _ rfl
      subst hop
      obtain ⟨p, hp⟩ := getLast?_of_ne_nil (hq.writing.1 (hq.leader c _ hc rfl).1)
      have hle := (hq.last hp).2.1 s (hin s ht)
      have hlate := hspare _ (mem_of_getElem? hc)
      simp [dooms, hp] at hlate
      omega
  cases hd with
  | refused => exact h
  | conflict => exact h
  | commit i pre updates k hk =>
    intro x hx j b s u st hop
    rcases happ hx with hx | rfl
    · exact h x hx j b s u st hop
    · obtain ⟨-, -, rfl, -, -⟩ := Op.commit.inj hop
      exact ⟨rfl, fun _ _ => not_failed_next hq⟩
  | flush =>
    refine h.move ⟨rfl, rfl, rfl, rfl, rfl, rfl, rfl⟩ fun x hx => ?_
    rcases happ hx with hx | rfl
    · exact .inl hx
    · exact .inr (.inl (by simp))
  | fork i at' k hk hat =>
    refine h.move ⟨rfl, rfl, rfl, rfl, rfl, rfl, rfl⟩ fun x hx => ?_
    rcases happ hx with hx | rfl
    · exact .inl hx
    · exact .inr (.inl (by simp))
  | forkFailed c i at' k e hc hk =>
    refine h.move ⟨rfl, rfl, rfl, rfl, rfl, rfl, rfl⟩ fun x hx => ?_
    rcases hset hx with hx | rfl
    · exact .inl hx
    · exact .inr (.inl (by simp))
  | forkStage c i at' k hc hk =>
    intro x hx j b s u st hop
    rcases hset hx with hx | rfl
    · exact h x hx j b s u st hop
    · cases hop
  | merge i j todo k theirs merged dag hk hm hdag =>
    intro x hx j b s u st hop
    rcases happ hx with hx | rfl
    · exact h x hx j b s u st hop
    · cases hop
  | branch b inner hb => exact h.move ⟨rfl, rfl, rfl, rfl, rfl, rfl, rfl⟩ fun x hx => .inl hx
  | adopt c b seq state hc =>
    refine h.move ⟨rfl, rfl, rfl, rfl, rfl, rfl, rfl⟩ fun x hx => ?_
    rcases hset hx with hx | rfl
    · exact .inl hx
    · exact .inr (.inl (by simp))
  | drop i k hk => exact h.move ⟨rfl, rfl, rfl, rfl, rfl, rfl, rfl⟩ fun x hx => .inl hx
  | leadNothing c op target msg hc hdoom hdone hidle hnil =>
    exact absurd hnil (hq.pending_ne_nil hc hdoom hdone hidle)
  | lead c op target hc hdoom hdone hidle hne =>
    intro x hx i b s u st hop
    rcases hset hx with hx | rfl
    · exact h x hx i b s u st hop
    · exact ⟨rfl, fun _ _ => (h _ (mem_of_getElem? hc) i b s u st hop).2 target (.inl rfl)⟩
  | wrote c op target outcome hc =>
    cases outcome with
    | lost msg => exact hfail hc (failedWrite_lost w msg) hok
    | unsynced msg kept => exact hfail hc (failedWrite_unsynced w msg kept) hok
    | landed =>
      intro x hx i b s u st hop
      rw [landed_calls] at hx
      rcases hset hx with hx | rfl
      · exact h x hx i b s u st hop
      · exact ⟨rfl, fun _ _ => (h _ (mem_of_getElem? hc) i b s u st hop).2 target (.inr rfl)⟩
  | doomed c op target msg hc hdoom =>
    intro x hx i b s u st hop
    rcases hset hx with hx | rfl
    · exact h x hx i b s u st hop
    · have hcall := hq.calls _ (mem_of_getElem? hc)
      have htarget : target = some s := (hcall.waiting _ rfl).trans (congrArg Op.seq hop)
      rw [htarget] at hdoom
      exact absurd (failed_of_doom hdoom)
        ((h _ (mem_of_getElem? hc) i b s u st hop).2 target (.inl rfl))
  | finish c op target hc hdoom hdone =>
    refine h.move ⟨rfl, rfl, rfl, rfl, rfl, rfl, rfl⟩ fun x hx => ?_
    rcases hset hx with hx | rfl
    · exact .inl hx
    · exact .inr (.inr ⟨rfl, .inl (by simp)⟩)

/-! ## The edit that stays -/

/-- A commit's handle, while it lives, holds a state its own extends to. -/
def HandlesKeep (w : World F C) : Prop :=
  ∀ call ∈ w.calls, ∀ h b s updates state, call.op = .commit h b s updates state →
    h < w.handles.length ∧
      ∀ k, w.handles[h]? = some (some k) → k.branch = b ∧ state.Extends k.inner

omit [DecidableEq C] [Framed F C] [FactEnf F] in
theorem handle_of_free {h : Nat} {k : Handle F} (hk : w.freeHandle h = some k) :
    w.handles[h]? = some (some k) := by
  obtain ⟨hk, -⟩ := Option.filter_eq_some_iff.1 hk
  exact Option.join_eq_some_iff.1 hk

/-- Every handle of the second world that was in the first is on the same branch,
and has what it had. -/
def HandlesGrow (w w' : World F C) : Prop :=
  w.handles.length ≤ w'.handles.length ∧
    ∀ i k', i < w.handles.length → w'.handles[i]? = some (some k') →
      ∃ k, w.handles[i]? = some (some k) ∧ k.branch = k'.branch ∧ k.inner.Extends k'.inner

omit [DecidableEq C] [Framed F C] in
theorem HandlesGrow.same (h : w'.handles = w.handles) : HandlesGrow w w' := by
  rw [HandlesGrow, h]
  exact ⟨le_rfl, fun i k _ hk => ⟨k, hk, rfl, .refl _⟩⟩

omit [DecidableEq C] [Framed F C] in
theorem HandlesGrow.append {k : Handle F} (h : w'.handles = w.handles ++ [some k]) :
    HandlesGrow w w' := by
  rw [HandlesGrow, h]
  refine ⟨by simp, fun i k' hi hk => ⟨k', ?_, rfl, .refl _⟩⟩
  rwa [List.getElem?_append_left hi] at hk

omit [DecidableEq C] [Framed F C] in
/-- A live handle replaced by one with more, or dropped. -/
theorem HandlesGrow.set {i : Nat} {k : Handle F} {o : Option (Handle F)}
    (hk : w.handles[i]? = some (some k)) (h : w'.handles = w.handles.set i o)
    (ho : ∀ k' ∈ o, k.branch = k'.branch ∧ k.inner.Extends k'.inner) : HandlesGrow w w' := by
  rw [HandlesGrow, h]
  refine ⟨by simp, fun j k' hj hk' => ?_⟩
  rw [List.getElem?_set] at hk'
  split_ifs at hk' with hij hlt
  · subst hij
    obtain rfl := Option.some.inj hk'
    exact ⟨k, hk, ho k' rfl⟩
  · exact ⟨k', hk', rfl, .refl _⟩

omit [DecidableEq C] [Framed F C] in
theorem HandlesKeep.grow (h : HandlesKeep w) (hg : HandlesGrow w w')
    (hc : ∀ x ∈ w'.calls, ∀ i b s u st, x.op = .commit i b s u st →
      (∃ y ∈ w.calls, y.op = x.op) ∨ (i < w'.handles.length ∧
        ∀ k, w'.handles[i]? = some (some k) → k.branch = b ∧ st.Extends k.inner)) :
    HandlesKeep w' := by
  intro x hx i b s u st hop
  rcases hc x hx i b s u st hop with ⟨y, hy, hyop⟩ | hnew
  · obtain ⟨hlt, hkeep⟩ := h y hy i b s u st (hyop.trans hop)
    refine ⟨hlt.trans_le hg.1, fun k' hk' => ?_⟩
    obtain ⟨k, hk, hb, hx⟩ := hg.2 i k' hlt hk'
    obtain ⟨hb', hx'⟩ := hkeep k hk
    exact ⟨hb ▸ hb', hx'.trans hx⟩
  · exact hnew

omit [DecidableEq C] [Framed F C] [FactEnf F] in
/-- A thread moved on is on the operation it was on. -/
theorem ops_of_set {c : Nat} {call : Call F} {op : Op F} {pc : Pc} (hc : w.calls[c]? = some call)
    (hop : call.op = op) {x : Call F} (hx : x ∈ w.calls.set c ⟨op, pc⟩) :
    ∃ y ∈ w.calls, y.op = x.op := by
  rcases List.mem_or_eq_of_mem_set hx with hx | rfl
  · exact ⟨x, hx, rfl⟩
  · exact ⟨call, mem_of_getElem? hc, hop⟩

omit [DecidableEq C] [Framed F C] [FactEnf F] in
/-- A write leaves the handles. -/
theorem endWrite_handles (c : Nat) (op : Op F) (target : Option Nat) (outcome : Outcome) :
    (w.endWrite c op target outcome).handles = w.handles := by
  have hbatch : w.batch.handles = w.handles := by rw [batch_eq]
  cases outcome with
  | landed => exact hbatch
  | lost msg => rfl
  | unsynced msg kept =>
    cases kept with
    | true => exact hbatch
    | false => rfl

omit [DecidableEq C] [Framed F C] [FactEnf F] in
/-- And the root in memory. -/
theorem endWrite_root (c : Nat) (op : Op F) (target : Option Nat) (outcome : Outcome) :
    (w.endWrite c op target outcome).root = w.root := by
  have hbatch : w.batch.root = w.root := by rw [batch_eq]
  cases outcome with
  | landed => exact hbatch
  | lost msg => rfl
  | unsynced msg kept =>
    cases kept with
    | true => exact hbatch
    | false => rfl

omit [DecidableEq C] [Framed F C] [FactEnf F] in
/-- A write leaves what its leader was at. -/
theorem endWrite_calls (c : Nat) (op : Op F) (target : Option Nat) (outcome : Outcome) :
    ∃ pc, (w.endWrite c op target outcome).calls = w.calls.set c ⟨op, pc⟩ := by
  cases outcome with
  | landed => exact ⟨_, landed_calls w⟩
  | lost msg => exact ⟨_, (failedWrite_lost w msg).calls⟩
  | unsynced msg kept => exact ⟨_, (failedWrite_unsynced w msg kept).calls⟩

/-- No step takes anything back from a handle it leaves alive. -/
theorem handlesGrow_step (hd : Does w a w') : HandlesGrow w w' := by
  cases hd with
  | commit i pre updates k hk =>
    refine .set (handle_of_free hk) rfl ?_
    rintro k' ⟨⟩
    exact ⟨rfl, Inner.apply_extends _ _ _ _⟩
  | fork i at' k hk hat =>
    refine .set (handle_of_free hk) rfl ?_
    rintro k' ⟨⟩
    exact ⟨rfl, .refl _⟩
  | forkFailed c i at' k e hc hk =>
    refine .set hk rfl ?_
    rintro k' ⟨⟩
    exact ⟨rfl, .refl _⟩
  | forkStage c i at' k hc hk =>
    refine .set hk rfl ?_
    rintro k' ⟨⟩
    exact ⟨rfl, .refl _⟩
  | drop i k hk =>
    refine .set (handle_of_free hk) rfl ?_
    rintro k' ⟨⟩
  | branch b inner hb => exact .append rfl
  | adopt c b seq state hc => exact .append rfl
  | wrote c op target outcome hc => exact .same (endWrite_handles c op target outcome)
  | refused => exact .same rfl
  | conflict => exact .same rfl
  | flush => exact .same rfl
  | merge => exact .same rfl
  | leadNothing => exact .same rfl
  | lead => exact .same rfl
  | doomed => exact .same rfl
  | finish => exact .same rfl

/-- An operation a step may have set a thread to. -/
inductive NewOp (w w' : World F C) : Op F → Prop
  | commit (h : Nat) (pre updates) (k : Handle F) : w.freeHandle h = some k →
      w'.handles = w.handles.set h (some { k with
        inner := k.inner.apply (k.inner.current + 1) pre updates none }) →
      NewOp w w' (.commit h k.branch (w.dur.staged + 1) updates
        (k.inner.apply (k.inner.current + 1) pre updates none))
  | flush : NewOp w w' .flush
  | fork (h at' : Nat) (k : Handle F) : w.freeHandle h = some k → k.inner.watermark ≤ at' →
      w'.handles = w.handles.set h (some { k with held := true }) → NewOp w w' (.fork h at')
  | spawn (b : BranchId) (s : Nat) (state : Inner F) : NewOp w w' (.spawn b s state)

omit [DecidableEq C] [Framed F C] [FactEnf F] in
/-- A thread moved on, at its place or another's. -/
theorem op_of_set {c i : Nat} {call x : Call F} {op : Op F} {pc : Pc} (hc : w.calls[c]? = some call)
    (hop : call.op = op) (hx : (w.calls.set c ⟨op, pc⟩)[i]? = some x) :
    ∃ y, w.calls[i]? = some y ∧ y.op = x.op := by
  rw [List.getElem?_set] at hx
  split_ifs at hx with hci hlt
  · cases hx
    exact ⟨call, hci ▸ hc, hop⟩
  · exact ⟨x, hx, rfl⟩

/-- A thread is on the operation it was on, or on a new one; a new commit's thread
comes last. -/
theorem op_step (hd : Does w a w') {i : Nat} {x : Call F} (hx : w'.calls[i]? = some x) :
    (∃ y, w.calls[i]? = some y ∧ y.op = x.op) ∨
      (NewOp w w' x.op ∧ (x.op.handle.isSome = true → i = w.calls.length)) := by
  have happ : ∀ {call : Call F}, (w.calls ++ [call])[i]? = some x →
      (∃ y, w.calls[i]? = some y ∧ y.op = x.op) ∨ (x = call ∧ i = w.calls.length) := by
    intro call hx
    rw [List.getElem?_append] at hx
    split_ifs at hx with hlt
    · exact .inl ⟨x, hx, rfl⟩
    · have hi : i - w.calls.length = 0 := by
        by_contra hne
        rw [List.getElem?_eq_none (by simp; omega)] at hx
        cases hx
      rw [hi] at hx
      exact .inr ⟨(Option.some.inj hx).symm, by omega⟩
  cases hd with
  | refused => exact .inl ⟨x, hx, rfl⟩
  | conflict => exact .inl ⟨x, hx, rfl⟩
  | commit j pre updates k hk =>
    refine (happ hx).imp_right ?_
    rintro ⟨rfl, hi⟩
    exact ⟨.commit j pre updates k hk rfl, fun _ => hi⟩
  | flush =>
    refine (happ hx).imp_right ?_
    rintro ⟨rfl, hi⟩
    exact ⟨.flush, fun _ => hi⟩
  | fork j at' k hk hat =>
    refine (happ hx).imp_right ?_
    rintro ⟨rfl, hi⟩
    exact ⟨.fork j at' k hk hat rfl, fun _ => hi⟩
  | forkFailed c j at' k e hc hk => exact .inl (op_of_set hc rfl hx)
  | forkStage c j at' k hc hk =>
    have hx' : (w.calls.set c _)[i]? = some x := hx
    rw [List.getElem?_set] at hx'
    split_ifs at hx' with hci hlt
    · obtain rfl := Option.some.inj hx'
      exact .inr ⟨.spawn _ _ _, fun h => absurd h (by simp [Op.handle])⟩
    · exact .inl ⟨x, hx', rfl⟩
  | merge j j' todo k theirs merged dag hk hm hdag =>
    refine (happ hx).imp_right ?_
    rintro ⟨rfl, hi⟩
    exact ⟨.spawn _ _ _, fun _ => hi⟩
  | branch b inner hb => exact .inl ⟨x, hx, rfl⟩
  | adopt c b seq state hc => exact .inl (op_of_set hc rfl hx)
  | drop j k hk => exact .inl ⟨x, hx, rfl⟩
  | leadNothing c op target msg hc => exact .inl (op_of_set hc rfl hx)
  | lead c op target hc => exact .inl (op_of_set hc rfl hx)
  | wrote c op target outcome hc =>
    obtain ⟨pc, hcalls⟩ := endWrite_calls (w := w) c op target outcome
    rw [hcalls] at hx
    exact .inl (op_of_set hc rfl hx)
  | doomed c op target msg hc => exact .inl (op_of_set hc rfl hx)
  | finish c op target hc => exact .inl (op_of_set hc rfl hx)

theorem ops_step (hd : Does w a w') {x : Call F} (hx : x ∈ w'.calls) :
    (∃ y ∈ w.calls, y.op = x.op) ∨ NewOp w w' x.op := by
  obtain ⟨i, hi⟩ := List.mem_iff_getElem?.1 hx
  rcases op_step hd hi with ⟨y, hy, hyop⟩ | ⟨hnew, -⟩
  · exact .inl ⟨y, mem_of_getElem? hy, hyop⟩
  · exact .inr hnew

omit [DecidableEq C] [Framed F C] [FactEnf F] in
/-- The handle a step has just set is there. -/
theorem handle_lt {i : Nat} {k k' : Handle F} (hk : w.freeHandle i = some k)
    (h : w'.handles = w.handles.set i (some k')) : i < w'.handles.length := by
  rw [h, List.length_set]
  exact (List.getElem?_eq_some_iff.1 (handle_of_free hk)).1

omit [DecidableEq C] [Framed F C] [FactEnf F] in
/-- And is what it was set to. -/
theorem handle_set {i : Nat} {k k' k'' : Handle F} (hk : w.freeHandle i = some k)
    (h : w'.handles = w.handles.set i (some k')) (hk'' : w'.handles[i]? = some (some k'')) :
    k'' = k' := by
  rw [h, List.getElem?_set_self (List.getElem?_eq_some_iff.1 (handle_of_free hk)).1] at hk''
  exact (Option.some.inj (Option.some.inj hk'')).symm

theorem handlesKeep_step (h : HandlesKeep w) (hd : Does w a w') : HandlesKeep w' := by
  refine h.grow (handlesGrow_step hd) fun x hx j b s u st hop => ?_
  refine (ops_step hd hx).imp_right fun hnew => ?_
  rw [hop] at hnew
  cases hnew with
  | commit _ pre _ k hk hset =>
    refine ⟨handle_lt hk hset, fun k' hk' => ?_⟩
    obtain rfl := handle_set hk hset hk'
    exact ⟨rfl, .refl _⟩

/-- **A failed commit leaves no trace only by not failing.** In a run whose failing
writes spare every unanswered commit, none is visible that was told of an error; and
in any run at all, one told of an error is visible through its handle. -/
theorem failed_commit_no_trace (stored known : List C) (disk : EntRoot F) (b : BranchId)
    (inner : Inner F) :
    (Run World.step SparesCommits (World.opened stored known disk b inner) w → NoTrace w) ∧
      (Run World.step Any (World.opened stored known disk b inner) w →
        ∀ call ∈ w.calls, ∀ h b s updates state, call.op = .commit h b s updates state →
          call.pc.isRefused = true → ∀ k, w.handles[h]? = some (some k) → Visible w b state) := by
  have hempty : ∀ call, call ∉ (World.opened stored known disk b inner : World F C).calls := by
    intro call
    simp [World.opened, World.on]
  constructor
  · intro hrun
    have hinv : QueueInv w ∧ NoneDoomed w := by
      refine hrun.invariant (I := fun v => QueueInv v ∧ NoneDoomed v)
        ⟨queueInv_opened stored known disk b inner, fun x hx => absurd hx (hempty x)⟩ ?_
      rintro v a v' ⟨hv, hn⟩ hok hstep
      exact ⟨queueInv_step hv (step_does hstep), noneDoomed_step hn hv hok (step_does hstep)⟩
    intro x hx i b s u st hop hr
    rw [(hinv.2 x hx i b s u st hop).1] at hr
    exact absurd hr (by simp)
  · intro hrun x hx i b' s u st hop _ k hk
    have hkeep : HandlesKeep w := hrun.invariant (I := HandlesKeep) (fun x hx => absurd hx (hempty x))
      fun v a v' hv _ hstep => handlesKeep_step hv (step_does hstep)
    obtain ⟨hb, hext⟩ := (hkeep x hx i b' s u st hop).2 k hk
    exact .inl ⟨k, mem_of_getElem? hk, hb, hext⟩

/-! ## A failed commit on disk -/

/-- A commit's write is lost and the committer told; the next commit lands. -/
def lostThenLanded : List Action :=
  [.commit 0 [] (assertInt 1), .lead 0, .wrote 0 (.lost "io"), .commit 0 [] (assertInt 2), .lead 1,
    .wrote 1 .landed, .finish 1]

/-- The failed commit is visible, and a crash recovers it as edition 1. -/
theorem failed_commit_recovered : ∃ w : World FactRows (BranchId × Nat),
    Run World.step Any freshWorld w ∧ ¬ NoTrace w ∧
      (w.disk.state Dag.root).map (fun s => s.readAt 0 1) = some (.ok [(⟨[.int 1]⟩, 1)]) := by
  have hex : (execute World.step freshWorld lostThenLanded).isSome = true := by decide +kernel
  have hrun : Run World.step Any freshWorld (after World.step freshWorld lostThenLanded) := .after hex
  refine ⟨_, hrun, fun h => ?_, by decide +kernel⟩
  have hkeep : HandlesKeep (after World.step freshWorld lostThenLanded) :=
    hrun.invariant (I := HandlesKeep) (fun x hx => absurd hx (by simp [freshWorld, World.opened, World.on]))
      fun v a v' hv _ hstep => handlesKeep_step hv (step_does hstep)
  have hcall : ((after World.step freshWorld lostThenLanded).calls[0]?).map
      (fun call => (call.op.handle, call.pc.isRefused)) = some (some 0, true) := by decide +kernel
  have hlive : ((after World.step freshWorld lostThenLanded).handles[0]?).join.isSome = true := by
    decide +kernel
  obtain ⟨call, hc, hcall⟩ := Option.map_eq_some_iff.1 hcall
  obtain ⟨k, hk⟩ := Option.isSome_iff_exists.1 hlive
  have hk := Option.join_eq_some_iff.1 hk
  obtain ⟨b, s, u, st, hop⟩ := Op.handle_eq_some.1 (congrArg Prod.fst hcall)
  obtain ⟨hb, hext⟩ := (hkeep call (mem_of_getElem? hc) 0 b s u st hop).2 k hk
  exact h call (mem_of_getElem? hc) 0 b s u st hop (congrArg Prod.snd hcall)
    (.inl ⟨k, mem_of_getElem? hk, hb, hext⟩)

/-- A commit lands, and the write of a fork made of it is lost. -/
def lostFork : List Action :=
  [.commit 0 [] (assertInt 1), .lead 0, .wrote 0 .landed, .finish 0, .fork 0 1, .finish 1, .forkStage 1,
    .lead 1, .wrote 1 (.lost "io")]

theorem failed_commit_no_trace_sample : (∃ w : World FactRows (BranchId × Nat),
    Run World.step SparesCommits freshWorld w ∧ w.dur.failure = some (2, "io") ∧ NoTrace w) ∧
      ∀ call ∈ (after World.step freshWorld lostThenLanded).calls, ∀ b s u st,
        call.op = .commit 0 b s u st → call.pc.isRefused = true → ∀ k,
          (after World.step freshWorld lostThenLanded).handles[0]? = some (some k) →
            Visible (after World.step freshWorld lostThenLanded) b st := by
  have hex : (executeChecked World.step (fun w a => decide (SparesCommits w a)) freshWorld
      lostFork).isSome = true := by decide +kernel
  have hrun : Run World.step SparesCommits freshWorld _ := Run.afterChecked (by simp) hex
  have hex' : (execute World.step freshWorld lostThenLanded).isSome = true := by decide +kernel
  refine ⟨⟨_, hrun, by decide +kernel, (failed_commit_no_trace _ _ _ _ _).1 hrun⟩, ?_⟩
  intro call hc b s u st hop hr k hk
  exact (failed_commit_no_trace _ _ _ _ _).2 (.after hex') call hc 0 b s u st hop hr k hk

end Grmpl

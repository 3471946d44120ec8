import Grmpl.Ent.FailedCommits

/-!
# What a crash recovers

The roots in flight (the one on disk, those staged, oldest first, and the one in
memory) are versions of one world, each holding everything the one before it
does, as long as every commit is made on its branch's latest state. So whatever
lands is at least what landed before it, and a stage that has landed is on disk.

* `EntRoot.Grows`: every branch of the first root is continued in the second.
* `UpToDate`: a commit's handle is at its branch's current edition.
* `ChainInv`: the roots in flight grow, and each stage is in every root from its
  own on.
* `chainInv_step`: every up-to-date step keeps it.
-/

open OrdMap Runs

namespace Grmpl

open World

variable {F C : Type} [FactEnf F]

namespace EntRoot

/-- Every branch of the first root is continued in the second. -/
def Grows (r r' : EntRoot F) : Prop := ∀ b s, lookup b r.branches = some s → r'.Has b s

theorem Grows.refl (r : EntRoot F) : Grows r r := fun _ s hs => ⟨s, hs, .refl s⟩

theorem Has.grows {r r' : EntRoot F} {b : BranchId} {s : Inner F} (h : r.Has b s)
    (hg : Grows r r') : r'.Has b s := by
  obtain ⟨t, ht, hst⟩ := h
  obtain ⟨u, hu, htu⟩ := hg b t ht
  exact ⟨u, hu, hst.trans htu⟩

theorem Grows.trans {r r' r'' : EntRoot F} (h : Grows r r') (h' : Grows r' r'') : Grows r r'' :=
  fun b s hs => (h b s hs).grows h'

/-- Every branch with a state is known, every known branch was numbered, and every
state is well formed. -/
structure WF (r : EntRoot F) : Prop where
  known : ∀ b s, lookup b r.branches = some s → (lookup b r.dag.branches).isSome = true
  numbered : ∀ b, (lookup b r.dag.branches).isSome = true → b < r.dag.next
  states : ∀ b s, lookup b r.branches = some s → s.WF

omit [FactEnf F] in
theorem state_eq_some {r : EntRoot F} {b : BranchId} {s : Inner F} : r.state b = some s ↔
    (lookup b r.dag.branches).isSome = true ∧ (lookup b r.branches).getD Inner.empty = s := by
  rw [EntRoot.state, Option.map_eq_some_iff, Option.isSome_iff_exists]
  constructor
  · rintro ⟨x, hx, hs⟩
    exact ⟨⟨x, hx⟩, hs⟩
  · rintro ⟨⟨x, hx⟩, hs⟩
    exact ⟨x, hx, hs⟩

omit [FactEnf F] in
theorem WF.state {r : EntRoot F} (h : r.WF) {b : BranchId} {s : Inner F} (hs : r.state b = some s) :
    s.WF := by
  obtain ⟨-, hs⟩ := state_eq_some.1 hs
  cases hb : lookup b r.branches with
  | none =>
    rw [hb] at hs
    exact hs ▸ Inner.wf_empty
  | some t =>
    rw [hb] at hs
    exact hs ▸ h.states b t hb

omit [FactEnf F] in
theorem wf_empty : (EntRoot.empty : EntRoot F).WF := by
  refine ⟨fun b s h => absurd h (by simp [EntRoot.empty, lookup]), fun b h => ?_,
    fun b s h => absurd h (by simp [EntRoot.empty, lookup])⟩
  rw [Option.isSome_iff_exists] at h
  obtain ⟨x, hx⟩ := h
  obtain ⟨rfl, -⟩ := Prod.ext_iff.1 (List.mem_singleton.1 (mem_of_lookup hx))
  exact Nat.zero_lt_one

end EntRoot

open EntRoot

/-- The state an operation staged, with its stage and branch. -/
def Op.staged : Op F → Option (Nat × BranchId × Inner F)
  | .commit _ b s _ state => some (s, b, state)
  | .spawn b s state => some (s, b, state)
  | .flush => none
  | .fork _ _ => none

/-- The staged writes not settled, oldest first. -/
def World.queue (w : World F C) : List (Pending F C) := w.group ++ w.dur.pending

/-- The roots in flight: on disk, staged, and in memory. -/
def World.roots (w : World F C) : List (EntRoot F) := w.disk :: (w.queue.map Pending.root ++ [w.root])

section Roots

variable {w w' : World F C} {R : EntRoot F → EntRoot F → Prop}

omit [FactEnf F] in
/-- What relates the roots in flight still does with another in memory that the last
one leads to. -/
theorem roots_put (htrans : ∀ r s t, R r s → R s t → R r t) (h : w.roots.Pairwise R)
    (hdisk : w'.disk = w.disk) (hqueue : w'.queue = w.queue) (hR : R w.root w'.root) :
    w'.roots.Pairwise R := by
  rw [World.roots, List.pairwise_cons, List.pairwise_append] at h
  rw [World.roots, hdisk, hqueue, List.pairwise_cons, List.pairwise_append]
  refine ⟨fun r hr => ?_, h.2.1, List.pairwise_singleton _ _, fun r hr r' hr' => ?_⟩
  · rcases List.mem_append.1 hr with hr | hr
    · exact h.1 r (List.mem_append_left _ hr)
    · rw [List.mem_singleton.1 hr]
      exact htrans _ _ _ (h.1 w.root (by simp)) hR
  · rw [List.mem_singleton.1 hr']
    exact htrans _ _ _ (h.2.2.2 r hr w.root (by simp)) hR

omit [FactEnf F] in
/-- And with that one staged as well. -/
theorem roots_stage (hrefl : ∀ r, R r r) (h : w.roots.Pairwise R) {p : Pending F C}
    (hdisk : w'.disk = w.disk) (hroot : w'.root = w.root) (hp : p.root = w.root)
    (hqueue : w'.queue = w.queue ++ [p]) : w'.roots.Pairwise R := by
  rw [World.roots, List.pairwise_cons] at h
  rw [World.roots, hdisk, hroot, hqueue, List.map_append, List.map_singleton, hp,
    List.pairwise_cons]
  refine ⟨fun r hr => ?_, ?_⟩
  · rcases List.mem_append.1 hr with hr | hr
    · exact h.1 r hr
    · exact h.1 r (List.mem_append_right _ hr)
  · rw [List.pairwise_append]
    refine ⟨h.2, List.pairwise_singleton _ _, fun r hr r' hr' => ?_⟩
    rw [List.mem_singleton.1 hr']
    rcases List.mem_append.1 hr with hr | hr
    · exact (List.pairwise_append.1 h.2).2.2 r hr w.root (List.mem_singleton_self _)
    · rw [List.mem_singleton.1 hr]
      exact hrefl w.root

/-- What a settled group leaves on disk: what was there, or its own last root. -/
def Settled (w w' : World F C) : Prop :=
  (w'.disk = w.disk ∧ w'.dur.landed = w.dur.landed) ∨ ∃ p, w.group.getLast? = some p ∧
    w'.disk = p.root ∧ w'.dur.landed ≤ max w.dur.landed p.seq

omit [FactEnf F] in
/-- What relates the roots in flight relates those left when a group settles. -/
theorem roots_settle (h : w.roots.Pairwise R) (hroot : w'.root = w.root)
    (hqueue : w'.queue = w.dur.pending) (hdisk : Settled w w') : w'.roots.Pairwise R := by
  rw [World.roots, hroot, hqueue]
  rcases hdisk with ⟨hd, -⟩ | ⟨p, hp, hd, -⟩
  · refine h.sublist ?_
    rw [hd, World.roots, World.queue, List.map_append, List.append_assoc]
    exact (List.sublist_append_right _ _).cons_cons _
  · refine h.sublist ?_
    have hgroup : w.group = w.group.dropLast ++ [p] := (List.dropLast_append_getLast? p hp).symm
    rw [hd, World.roots, World.queue, hgroup]
    simp only [List.map_append, List.map_cons, List.append_assoc, List.singleton_append]
    exact (List.sublist_append_right _ _).cons _

omit [FactEnf F] in
/-- A write settles the group. -/
theorem settled_endWrite {p : Pending F C} (hp : w.group.getLast? = some p) (c : Nat) (op : Op F)
    (target : Option Nat) (outcome : Outcome) :
    (w.endWrite c op target outcome).queue = w.dur.pending ∧
      Settled w (w.endWrite c op target outcome) := by
  have hbatch : w.batch.disk = p.root := by simp [World.batch, hp]
  cases outcome with
  | landed =>
    exact ⟨rfl, .inr ⟨p, hp, hbatch, by simp [World.endWrite, World.setCall, hp]⟩⟩
  | lost msg => exact ⟨rfl, .inl ⟨rfl, rfl⟩⟩
  | unsynced msg kept =>
    have hw : FailedWrite w (w.endWrite c op target (.unsynced msg kept)) c op msg :=
      failedWrite_unsynced w msg kept
    have hqueue : (w.endWrite c op target (.unsynced msg kept)).queue = w.dur.pending := by
      rw [World.queue, hw.group, hw.pending]
      rfl
    cases kept with
    | true =>
      refine ⟨hqueue, .inr ⟨p, hp, hbatch, ?_⟩⟩
      rw [hw.landed]
      exact le_max_left _ _
    | false => exact ⟨hqueue, .inl ⟨rfl, rfl⟩⟩

end Roots

/-- A commit's handle is at its branch's current edition. -/
def UpToDate (w : World F C) : Action → Prop
  | .commit h _ _ => ∀ k ∈ w.freeHandle h, (w.root.state k.branch).map Inner.current = some k.inner.current
  | _ => True

instance (w : World F C) : (a : Action) → Decidable (UpToDate w a)
  | .commit h _ _ => inferInstanceAs (Decidable (∀ k ∈ w.freeHandle h,
      (w.root.state k.branch).map Inner.current = some k.inner.current))
  | .flush | .fork .. | .forkStage _ | .merge .. | .branch _ | .adopt _ | .drop _ | .lead _ | .wrote ..
  | .finish _ => .isTrue trivial

/-- A well-formed stage, in every root from its own on. -/
def InFlight (w : World F C) (s : Nat) (b : BranchId) (state : Inner F) : Prop :=
  state.WF ∧ w.root.Has b state ∧ (∀ p ∈ w.queue, s ≤ p.seq → p.root.Has b state) ∧
    (s ≤ w.dur.landed → w.disk.Has b state)

/-- The roots in flight grow, and each stage is in every root from its own on. -/
structure ChainInv (w : World F C) : Prop where
  root : w.root.WF
  disk : w.disk.WF
  roots : w.roots.Pairwise Grows
  queue : ∀ p ∈ w.queue, p.root.WF
  handles : ∀ k, some k ∈ w.handles → k.inner.WF ∧ ∃ s, w.root.state k.branch = some s ∧ k.inner.Extends s
  calls : ∀ call ∈ w.calls, ∀ s b state, call.op.staged = some (s, b, state) → InFlight w s b state

variable {w w' : World F C} {a : Action}

/-- A step that leaves the roots and the queue, moves threads on and may make a
handle or leave one as it was. -/
theorem ChainInv.move (h : ChainInv w) (hroot : w'.root = w.root) (hdisk : w'.disk = w.disk)
    (hqueue : w'.queue = w.queue) (hlanded : w'.dur.landed = w.dur.landed)
    (hhandles : ∀ k, some k ∈ w'.handles →
      k.inner.WF ∧ ∃ s, w.root.state k.branch = some s ∧ k.inner.Extends s)
    (hcalls : ∀ x ∈ w'.calls, ∀ s b state, x.op.staged = some (s, b, state) → InFlight w s b state) :
    ChainInv w' where
  root := hroot ▸ h.root
  disk := hdisk ▸ h.disk
  roots := by
    rw [World.roots, hroot, hdisk, hqueue]
    exact h.roots
  queue := by
    rw [hqueue]
    exact h.queue
  handles k hk := by
    rw [hroot]
    exact hhandles k hk
  calls x hx s b st hop := by
    rw [InFlight, hroot, hdisk, hqueue, hlanded]
    exact hcalls x hx s b st hop

/-- The root on disk has grown into every root after it. -/
theorem ChainInv.disk_root (h : ChainInv w) : Grows w.disk w.root := by
  have := h.roots
  rw [World.roots, List.pairwise_cons] at this
  exact this.1 _ (by simp)

/-! ## Staging -/

section Stage

variable [DecidableEq C] [Framed F C]

/-- The root with a branch's state replaced. -/
theorem grows_put {r : EntRoot F} {b : BranchId} {inner : Inner F}
    (h : ∀ s, lookup b r.branches = some s → s.Extends inner) :
    Grows r { r with branches := put b inner r.branches } := by
  intro b' s hs
  by_cases hb : b' = b
  · subst hb
    exact ⟨inner, lookup_put_self _ _ _, h s hs⟩
  · exact ⟨s, by rw [lookup_put_ne hb, hs], .refl s⟩

/-- A state staged for a known branch, past what the branch had. -/
theorem ChainInv.stageIn (h : ChainInv w) {b : BranchId} {inner : Inner F}
    (hwf : inner.WF) (hknown : (lookup b w.root.dag.branches).isSome = true)
    (hnew : ∀ s, lookup b w.root.branches = some s → s.Extends inner)
    (hhandles : ∀ k, some k ∈ w.handles → k.branch = b → k.inner.Extends inner) :
    ChainInv (w.stageIn b inner) := by
  have hgrow : Grows w.root (w.stageIn b inner).root := grows_put hnew
  have hqueue : ∃ p : Pending F C, p.root = (w.stageIn b inner).root ∧
      (w.stageIn b inner).queue = w.queue ++ [p] := ⟨_, rfl, (List.append_assoc _ _ _).symm⟩
  obtain ⟨p, hproot, hqueue⟩ := hqueue
  have hrootwf : (w.stageIn b inner).root.WF := by
    refine ⟨fun b' s hs => ?_, h.root.numbered, fun b' s hs => ?_⟩
    · by_cases hb : b' = b
      · exact hb ▸ hknown
      · exact h.root.known b' s ((lookup_put_ne hb _ _).symm.trans hs)
    · by_cases hb : b' = b
      · subst hb
        have : inner = s := Option.some.inj ((lookup_put_self _ _ _).symm.trans hs)
        exact this ▸ hwf
      · exact h.root.states b' s ((lookup_put_ne hb _ _).symm.trans hs)
  refine ⟨hrootwf, h.disk, ?_, ?_, ?_, ?_⟩
  · have hput : ({ w with root := (w.stageIn b inner).root } : World F C).roots.Pairwise Grows :=
      roots_put (fun _ _ _ => Grows.trans) h.roots rfl rfl hgrow
    exact roots_stage Grows.refl hput rfl rfl hproot hqueue
  · intro q hqm
    rw [hqueue, List.mem_append, List.mem_singleton] at hqm
    rcases hqm with hqm | rfl
    · exact h.queue q hqm
    · exact hproot ▸ hrootwf
  · intro k hk
    obtain ⟨hkwf, s, hs, hks⟩ := h.handles k hk
    refine ⟨hkwf, ?_⟩
    obtain ⟨hdag, hs⟩ := state_eq_some.1 hs
    by_cases hb : k.branch = b
    · refine ⟨inner, state_eq_some.2 ⟨hdag, ?_⟩, hhandles k hk hb⟩
      rw [hb]
      show (lookup b (put b inner w.root.branches)).getD Inner.empty = inner
      rw [lookup_put_self]
      rfl
    · refine ⟨s, state_eq_some.2 ⟨hdag, ?_⟩, hks⟩
      show (lookup k.branch (put b inner w.root.branches)).getD Inner.empty = s
      rw [lookup_put_ne hb]
      exact hs
  · intro x hx s b' st hop
    obtain ⟨hwf, hr, hp, hd⟩ := h.calls x hx s b' st hop
    refine ⟨hwf, hr.grows hgrow, fun q hqm hsq => ?_, hd⟩
    rw [hqueue, List.mem_append, List.mem_singleton] at hqm
    rcases hqm with hqm | rfl
    · exact hp q hqm hsq
    · exact hproot ▸ hr.grows hgrow


/-- A stage just made is in the one root from its own on. -/
theorem inFlight_stageIn (hq : QueueInv w) (b : BranchId) {inner : Inner F} (hwf : inner.WF) :
    InFlight (w.stageIn b inner) (w.dur.staged + 1) b inner := by
  have hhas : (w.stageIn b inner).root.Has b inner := ⟨inner, lookup_put_self _ _ _, .refl _⟩
  refine ⟨hwf, hhas, fun p hp hle => ?_, fun hle => ?_⟩
  · have hp' : p ∈ w.queue ∨ p.root = (w.stageIn b inner).root := by
      have : p ∈ w.group ++ (w.dur.pending ++ [_]) := hp
      rw [← List.append_assoc, List.mem_append, List.mem_singleton] at this
      rcases this with h | rfl
      · exact .inl h
      · exact .inr rfl
    rcases hp' with hp' | hp'
    · have := (hq.fresh p.seq (List.mem_map_of_mem hp')).2
      omega
    · exact hp' ▸ hhas
  · have hle' : w.dur.staged + 1 ≤ w.dur.landed := hle
    have := hq.landed
    omega

omit [DecidableEq C] [Framed F C] in
/-- A new branch in the root, before its state is staged. -/
theorem ChainInv.newBranch (h : ChainInv w) (parents : Branch) :
    ChainInv ({ w with root := { w.root with
      dag := ⟨put w.root.dag.next parents w.root.dag.branches, w.root.dag.next + 1⟩ } } : World F C) := by
  have hknown : ∀ b, (lookup b w.root.dag.branches).isSome = true →
      lookup b (put w.root.dag.next parents w.root.dag.branches) = lookup b w.root.dag.branches :=
    fun b hb => lookup_put_ne (h.root.numbered b hb).ne _ _
  refine ⟨⟨fun b s hs => ?_, fun b hb => ?_, h.root.states⟩, h.disk, ?_, h.queue, fun k hk => ?_,
    h.calls⟩
  · show (lookup b (put w.root.dag.next parents w.root.dag.branches)).isSome = true
    rw [hknown b (h.root.known b s hs)]
    exact h.root.known b s hs
  · by_cases hn : b = w.root.dag.next
    · exact hn ▸ Nat.lt_succ_self _
    · have hb' : (lookup b (put w.root.dag.next parents w.root.dag.branches)).isSome = true := hb
      rw [lookup_put_ne hn] at hb'
      exact (h.root.numbered b hb').trans (Nat.lt_succ_self _)
  · exact roots_put (fun _ _ _ => Grows.trans) h.roots rfl rfl fun b s hs => ⟨s, hs, .refl s⟩
  · obtain ⟨hwf, s, hs, hks⟩ := h.handles k hk
    obtain ⟨hdag, hs⟩ := state_eq_some.1 hs
    refine ⟨hwf, s, state_eq_some.2 ⟨?_, hs⟩, hks⟩
    show (lookup k.branch (put w.root.dag.next parents w.root.dag.branches)).isSome = true
    rw [hknown _ hdag]
    exact hdag

/-- A new branch with its state staged. -/
theorem ChainInv.spawn (h : ChainInv w) (parents : Branch) {inner : Inner F} (hwf : inner.WF) :
    ChainInv (w.spawn (⟨put w.root.dag.next parents w.root.dag.branches, w.root.dag.next + 1⟩,
      w.root.dag.next) inner) := by
  -- nothing is known yet of a branch with the next number
  have hnew : lookup w.root.dag.next w.root.branches = none := by
    by_contra hs
    obtain ⟨s, hs⟩ := Option.ne_none_iff_exists'.1 hs
    exact absurd (h.root.numbered _ (h.root.known _ s hs)) (lt_irrefl _)
  refine (h.newBranch parents).stageIn hwf ?_ (fun s hs => ?_) (fun k hk hb => ?_)
  · show (lookup w.root.dag.next (put w.root.dag.next parents w.root.dag.branches)).isSome = true
    rw [lookup_put_self]
    rfl
  · exact absurd (hs : lookup w.root.dag.next w.root.branches = some s) (by simp [hnew])
  · obtain ⟨-, s, hs, -⟩ := h.handles k hk
    have := h.root.numbered _ (state_eq_some.1 hs).1
    rw [hb] at this
    exact absurd this (lt_irrefl _)

end Stage

/-! ## Settling -/

/-- A group settled: gone from the queue, and with its last root on disk if it landed
or its batch was kept. -/
theorem ChainInv.settle (h : ChainInv w) (hroot : w'.root = w.root)
    (hqueue : w'.queue = w.dur.pending) (hhandles : w'.handles = w.handles)
    (hcalls : ∀ x ∈ w'.calls, ∃ y ∈ w.calls, y.op = x.op)
    (hdisk : Settled w w') : ChainInv w' := by
  have hsub : ∀ p ∈ w'.queue, p ∈ w.queue := fun p hp => by
    rw [hqueue] at hp
    exact List.mem_append_right _ hp
  refine ⟨hroot ▸ h.root, ?_, roots_settle h.roots hroot hqueue hdisk,
    fun p hp => h.queue p (hsub p hp), fun k hk => ?_, fun x hx s b st hop => ?_⟩
  · rcases hdisk with ⟨hd, -⟩ | ⟨p, hp, hd, -⟩
    · exact hd ▸ h.disk
    · exact hd ▸ h.queue p (List.mem_append_left _ (List.mem_of_getLast? hp))
  · rw [hroot]
    exact h.handles k (hhandles ▸ hk)
  · obtain ⟨y, hy, hyop⟩ := hcalls x hx
    obtain ⟨hwf, hr, hq, hland⟩ := h.calls y hy s b st (hyop ▸ hop)
    refine ⟨hwf, hroot ▸ hr, fun p hp => hq p (hsub p hp), fun hle => ?_⟩
    rcases hdisk with ⟨hd, hl⟩ | ⟨p, hp, hd, hl⟩
    · rw [hl] at hle
      exact hd ▸ hland hle
    · have hp' : p ∈ w.queue := List.mem_append_left _ (List.mem_of_getLast? hp)
      rw [hd]
      rcases le_max_iff.1 (hle.trans hl) with hle | hle
      · have hchain := h.roots
        rw [World.roots, List.pairwise_cons] at hchain
        exact (hland hle).grows (hchain.1 _ (List.mem_append_left _ (List.mem_map_of_mem hp')))
      · exact hq p hp' hle

/-- A handle set to one on the same state. -/
theorem ChainInv.setHandle (h : ChainInv w) {i : Nat} {k : Handle F}
    (hk : w.handles[i]? = some (some k)) (held : Bool) :
    ChainInv (w.setHandle i (some { k with held })) := by
  refine h.move rfl rfl rfl rfl (fun k' hk' => ?_) h.calls
  rcases List.mem_or_eq_of_mem_set hk' with hk' | hk'
  · exact h.handles k' hk'
  · obtain rfl := Option.some.inj hk'
    exact h.handles k (mem_of_getElem? hk)

/-- A thread moved on, on the operation it was on. -/
theorem ChainInv.setCall (h : ChainInv w) {c : Nat} {call : Call F} {op : Op F} {pc : Pc}
    (hc : w.calls[c]? = some call) (hop : call.op = op) : ChainInv (w.setCall c ⟨op, pc⟩) := by
  refine h.move rfl rfl rfl rfl h.handles fun x hx s b st hx' => ?_
  obtain ⟨y, hy, hyop⟩ := ops_of_set hc hop hx
  exact h.calls y hy s b st (hyop ▸ hx')

/-- A thread on an operation that stages nothing, or a state in flight. -/
theorem ChainInv.addCall (h : ChainInv w) {call : Call F}
    (hnew : ∀ s b state, call.op.staged = some (s, b, state) → InFlight w s b state) :
    ChainInv (w.addCall call) := by
  refine h.move rfl rfl rfl rfl h.handles fun x hx s b st hop => ?_
  rcases List.mem_append.1 hx with hx | hx
  · exact h.calls x hx s b st hop
  · obtain rfl := List.mem_singleton.1 hx
    exact hnew s b st hop

/-- A thread moved to an operation that staged a state in flight. -/
theorem ChainInv.setOp (h : ChainInv w) {c : Nat} {call : Call F}
    (hnew : ∀ s b state, call.op.staged = some (s, b, state) → InFlight w s b state) :
    ChainInv (w.setCall c call) := by
  refine h.move rfl rfl rfl rfl h.handles fun x hx s b st hop => ?_
  rcases List.mem_or_eq_of_mem_set hx with hx | rfl
  · exact h.calls x hx s b st hop
  · exact hnew s b st hop

/-- A new handle on a state its branch's is past. -/
theorem ChainInv.on (h : ChainInv w) {b : BranchId} {inner s : Inner F} (hwf : inner.WF)
    (hs : w.root.state b = some s) (hx : inner.Extends s) : ChainInv (w.on b inner) := by
  refine h.move rfl rfl rfl rfl (fun k hk => ?_) h.calls
  rcases List.mem_append.1 hk with hk | hk
  · exact h.handles k hk
  · obtain rfl := Option.some.inj (List.mem_singleton.1 hk)
    exact ⟨hwf, s, hs, hx⟩

section Steps

variable [DecidableEq C] [Framed F C]

/-- A fork's edition is one its handle still reads. -/
def ForksAbove (w : World F C) : Prop :=
  ∀ call ∈ w.calls, ∀ h at', call.op = .fork h at' → h < w.handles.length ∧
    ∀ k, w.handles[h]? = some (some k) → k.inner.watermark ≤ at'

omit [DecidableEq C] [Framed F C] in
theorem ForksAbove.grow (h : ForksAbove w) (hg : HandlesGrow w w')
    (hc : ∀ x ∈ w'.calls, ∀ i at', x.op = .fork i at' → (∃ y ∈ w.calls, y.op = x.op) ∨
      (i < w'.handles.length ∧ ∀ k, w'.handles[i]? = some (some k) → k.inner.watermark ≤ at')) :
    ForksAbove w' := by
  intro x hx i at' hop
  rcases hc x hx i at' hop with ⟨y, hy, hyop⟩ | hnew
  · obtain ⟨hlt, hkeep⟩ := h y hy i at' (hyop.trans hop)
    refine ⟨hlt.trans_le hg.1, fun k' hk' => ?_⟩
    obtain ⟨k, hk, -, hx⟩ := hg.2 i k' hlt hk'
    exact hx.watermark ▸ hkeep k hk
  · exact hnew

theorem forksAbove_step (h : ForksAbove w) (hd : Does w a w') : ForksAbove w' := by
  refine h.grow (handlesGrow_step hd) fun x hx i at' hop => ?_
  refine (ops_step hd hx).imp_right fun hnew => ?_
  rw [hop] at hnew
  cases hnew with
  | fork _ _ k hk hat hset =>
    refine ⟨handle_lt hk hset, fun k' hk' => ?_⟩
    obtain rfl := handle_set hk hset hk'
    exact hat

/-- What was staged for a commit whose handle is up to date: the branch's latest
state with the patch applied. -/
theorem ChainInv.commit (h : ChainInv w) (hq : QueueInv w) {i : Nat} {k : Handle F}
    (hk : w.freeHandle i = some k) (pre : List (RelId × Tuple)) (updates : List (RelId × Tuple × Diff))
    (hup : (w.root.state k.branch).map Inner.current = some k.inner.current) :
    ChainInv (((w.setHandle i (some { k with
      inner := k.inner.apply (k.inner.current + 1) pre updates none })).stageIn k.branch
        (k.inner.apply (k.inner.current + 1) pre updates none)).addCall
          ⟨.commit i k.branch (w.dur.staged + 1) updates
            (k.inner.apply (k.inner.current + 1) pre updates none),
            .waiting (some (w.dur.staged + 1))⟩) := by
  obtain ⟨hkwf, s, hs, hks⟩ := h.handles k (mem_of_getElem? (handle_of_free hk))
  have hcur : s.current = k.inner.current := by simpa [hs] using hup
  have hsk : s.Extends k.inner := hks.symm hcur
  have hwf := Inner.apply_wf hkwf pre updates none
  have hnew := hsk.trans (Inner.apply_extends k.inner pre updates none)
  have hstage : ChainInv (w.stageIn k.branch (k.inner.apply (k.inner.current + 1) pre updates none)) := by
    refine h.stageIn hwf (state_eq_some.1 hs).1 (fun t ht => ?_) (fun k' hk' hb => ?_)
    · obtain ⟨-, hs'⟩ := state_eq_some.1 hs
      rw [ht] at hs'
      exact (show t = s from hs') ▸ hnew
    · obtain ⟨-, s', hs', hks'⟩ := h.handles k' hk'
      rw [hb, hs] at hs'
      exact (Option.some.inj hs' ▸ hks').trans hnew
  have hflight := inFlight_stageIn hq k.branch hwf
  have hset : ChainInv ((w.setHandle i (some { k with
      inner := k.inner.apply (k.inner.current + 1) pre updates none })).stageIn k.branch
        (k.inner.apply (k.inner.current + 1) pre updates none)) := by
    refine hstage.move rfl rfl rfl rfl (fun k' hk' => ?_) hstage.calls
    rcases List.mem_or_eq_of_mem_set hk' with hk' | hk'
    · exact hstage.handles k' hk'
    · obtain rfl := Option.some.inj hk'
      refine ⟨hwf, _, state_eq_some.2 ⟨(state_eq_some.1 hs).1, ?_⟩, .refl _⟩
      show (lookup k.branch (put k.branch _ w.root.branches)).getD Inner.empty = _
      rw [lookup_put_self]
      rfl
  refine hset.addCall fun s' b' st' hop => ?_
  obtain ⟨rfl, rfl, rfl⟩ : w.dur.staged + 1 = s' ∧ k.branch = b' ∧ _ = st' := by
    simpa [Op.staged] using hop
  exact hflight

/-- A step whose commit is up to date keeps the roots in flight growing. -/
theorem chainInv_step (h : ChainInv w) (hq : QueueInv w) (hf : ForksAbove w) (hok : UpToDate w a)
    (hd : Does w a w') : ChainInv w' := by
  cases hd with
  | refused => exact h
  | conflict => exact h
  | commit i pre updates k hk => exact h.commit hq hk pre updates (hok k hk)
  | flush => exact h.addCall fun _ _ _ hop => (nomatch hop)
  | fork i at' k hk hat =>
    exact (h.setHandle (handle_of_free hk) true).addCall fun _ _ _ hop => (nomatch hop)
  | forkFailed c i at' k e hc hk => exact (h.setHandle hk false).setCall hc rfl
  | forkStage c i at' k hc hk =>
    have hwf := Inner.forkAt_wf (h.handles k (mem_of_getElem? hk)).1
      ((hf _ (mem_of_getElem? hc) i at' rfl).2 k hk)
    have hq' : QueueInv ({ w.setHandle i (some { k with held := false }) with
        root := { w.root with dag := (w.root.dag.fork k.branch at').1 } } : World F C) :=
      hq.same ⟨rfl, rfl, rfl, rfl, rfl, rfl, rfl⟩ rfl
    refine ((h.setHandle hk false).spawn ⟨some (k.branch, at'), none⟩ hwf).setOp
      fun s b st hop => ?_
    obtain ⟨rfl, rfl, rfl⟩ : w.dur.staged + 1 = s ∧ w.root.dag.next = b ∧ _ = st := by
      simpa [Op.staged, Dag.fork] using hop
    exact inFlight_stageIn hq' _ hwf
  | merge i j todo k theirs merged dag hk hm hdag =>
    obtain ⟨parents, rfl⟩ := hdag
    have hwf := Inner.merge_wf (h.handles k (mem_of_getElem? (handle_of_free hk))).1 hm
    have hq' : QueueInv ({ w with root := { w.root with
        dag := ⟨put w.root.dag.next parents w.root.dag.branches, w.root.dag.next + 1⟩ } } :
          World F C) :=
      hq.same ⟨rfl, rfl, rfl, rfl, rfl, rfl, rfl⟩ rfl
    refine (h.spawn parents hwf).addCall fun s b st hop => ?_
    obtain ⟨rfl, rfl, rfl⟩ : w.dur.staged + 1 = s ∧ w.root.dag.next = b ∧ merged = st := by
      simpa [Op.staged] using hop
    exact inFlight_stageIn hq' _ hwf
  | branch b inner hb => exact h.on (h.root.state hb) hb (.refl _)
  | adopt c b seq state hc =>
    obtain ⟨hwf, ⟨s, hs, hx⟩, -⟩ := h.calls _ (mem_of_getElem? hc) seq b state rfl
    have hstate : w.root.state b = some s := state_eq_some.2 ⟨h.root.known b s hs, by rw [hs]; rfl⟩
    exact (h.on hwf hstate hx).setCall hc rfl
  | drop i k hk =>
    refine h.move rfl rfl rfl rfl (fun k' hk' => ?_) h.calls
    rcases List.mem_or_eq_of_mem_set hk' with hk' | hk'
    · exact h.handles k' hk'
    · cases hk'
  | leadNothing c op target msg hc => exact h.setCall hc rfl
  | lead c op target hc hdoom hdone hidle hne =>
    have hgroup := hq.idle hidle
    have htaken : ChainInv ({ w with
        group := w.dur.pending
        dur := { w.dur with pending := [], writing := true } } : World F C) := by
      have hqueue : w.queue = w.dur.pending ++ [] := by
        rw [World.queue, hgroup, List.nil_append, List.append_nil]
      exact h.move rfl rfl hqueue.symm rfl h.handles h.calls
    exact htaken.setCall hc rfl
  | wrote c op target outcome hc =>
    obtain ⟨p, hp⟩ := getLast?_of_ne_nil (hq.writing.1 (hq.leader c _ hc rfl).1)
    have hcalls : ∀ x ∈ (w.endWrite c op target outcome).calls, ∃ y ∈ w.calls, y.op = x.op := by
      obtain ⟨pc, hset⟩ := endWrite_calls (w := w) c op target outcome
      intro x hx
      rw [hset] at hx
      exact ops_of_set hc rfl hx
    obtain ⟨hqueue, hsettled⟩ := settled_endWrite hp c op target outcome
    exact h.settle (endWrite_root c op target outcome) hqueue (endWrite_handles c op target outcome)
      hcalls hsettled
  | doomed c op target msg hc => exact h.setCall hc rfl
  | finish c op target hc => exact h.setCall hc rfl

end Steps

/-- A world just opened has one root in flight, twice. -/
theorem chainInv_opened (stored known : List C) {disk : EntRoot F} {b : BranchId} {inner : Inner F}
    (hdisk : disk.WF) (hb : disk.state b = some inner) :
    ChainInv (World.opened stored known disk b inner) := by
  refine ⟨hdisk, hdisk, ?_, fun p hp => absurd hp (by simp [World.opened, World.on, World.queue, Durable.new]),
    fun k hk => ?_, fun x hx => absurd hx (by simp [World.opened, World.on])⟩
  · show [disk, disk].Pairwise Grows
    simp [Grows.refl]
  · obtain rfl := Option.some.inj (List.mem_singleton.1 hk)
    exact ⟨hdisk.state hb, inner, hb, .refl _⟩

end Grmpl

import Grmpl.Lang.Execute
import Grmpl.Lang.Granted
import Mathlib.Data.Nat.ModEq

/-!
# The state of capabilities

The actors of an installed package handle messages against snapshots, and commit what
they prepared against whatever the store has become: what they drew from counters and
generators goes into the patch as rows that must hold, are retracted and asserted anew.

* `FrameSound`: what a behavior has drawn, `execOps_sound`.
* `ActorWorld`, `ActorWorld.step`: the actors, the store and the entities handed out.
* `CapabilityLaw`: the state of the capabilities.
* `capabilities_kept`: where no committed message drew from two generators over one row,
  the law holds.
-/

open OrdMap Runs

namespace Grmpl

/-! ## Generators -/

/-- A shifted copy of a state that is not zero is not the state. -/
theorem xor_shiftRight_ne {x : UInt64} (h : x ≠ 0) {k : UInt64} (hk : k.toNat % 64 ≠ 0) : x ^^^ (x >>> k) ≠ 0 := by
  intro hz
  have hnat := congrArg UInt64.toNat (UInt64.xor_eq_zero_iff.1 hz)
  rw [UInt64.toNat_shiftRight, Nat.shiftRight_eq_div_pow] at hnat
  have hpos : 0 < x.toNat := Nat.pos_of_ne_zero fun h0 => h (UInt64.toNat_inj.1 h0)
  exact absurd hnat.symm (Nat.div_lt_self hpos (Nat.one_lt_two_pow hk)).ne

theorem xor_shiftLeft_ne {x : UInt64} (h : x ≠ 0) : x ^^^ (x <<< 25) ≠ 0 := by
  intro hz
  have hnat := congrArg UInt64.toNat (UInt64.xor_eq_zero_iff.1 hz)
  rw [UInt64.toNat_shiftLeft, Nat.shiftLeft_eq, show (25 : UInt64).toNat % 64 = 25 from rfl] at hnat
  -- twenty-five ones and a power of two have no common divisor
  have hmod : x.toNat ≡ x.toNat * 2 ^ 25 [MOD 2 ^ 64] := by
    rw [Nat.ModEq, ← hnat, Nat.mod_eq_of_lt x.toNat_lt]
  have hdvd : 2 ^ 64 ∣ x.toNat * (2 ^ 25 - 1) := by
    rw [Nat.mul_sub, Nat.mul_one]
    exact (Nat.modEq_iff_dvd' (Nat.le_mul_of_pos_right _ (Nat.two_pow_pos 25))).1 hmod
  have hcop : Nat.Coprime (2 ^ 64) (2 ^ 25 - 1) := Nat.Coprime.pow_left 64 (by decide)
  have hzero := Nat.eq_zero_of_dvd_of_lt (hcop.dvd_of_dvd_mul_right hdvd) x.toNat_lt
  exact h (UInt64.toNat_inj.1 hzero)

/-- A generator whose state is not zero stays so. -/
theorem xorshift64star_ne {state : UInt64} (h : state ≠ 0) : (xorshift64star state).1 ≠ 0 :=
  xor_shiftRight_ne (k := 27) (xor_shiftLeft_ne (xor_shiftRight_ne (k := 12) h (by decide))) (by decide)

theorem drawAtLeast_ne {threshold : UInt64} : ∀ {tries : Nat} {state : UInt64} {out : UInt64 × UInt64}, state ≠ 0 →
    drawAtLeast threshold tries state = some out → out.1 ≠ 0 := by
  intro tries
  induction tries with
  | zero => exact fun _ h => by cases h
  | succ tries ih =>
    intro state out hne h
    unfold drawAtLeast at h
    dsimp only at h
    split_ifs at h
    · cases h
      exact xorshift64star_ne hne
    · exact ih (xorshift64star_ne hne) h

/-! ## Allocators -/

theorem toInt_add_of {a b : Int64} (ha : 0 ≤ a.toInt) (hb : 0 ≤ b.toInt) (h : a.toInt + b.toInt < 2 ^ 63) :
    (a + b).toInt = a.toInt + b.toInt := by
  rw [Int64.toInt_add]
  exact Int.bmod_eq_of_le (by omega) (by omega)

/-- Integers that are not negative are the same without their sign. -/
theorem toNat_toUInt64 {a : Int64} (h : 0 ≤ a.toInt) : (a.toUInt64.toNat : Int) = a.toInt := by
  have hcond := BitVec.toInt_eq_toNat_cond a.toBitVec
  have hlt : a.toBitVec.toNat < 2 ^ 64 := a.toBitVec.isLt
  change 0 ≤ a.toBitVec.toInt at h
  change (a.toBitVec.toNat : Int) = a.toBitVec.toInt
  split_ifs at hcond <;> omega

/-- The entities an allocator has handed out. -/
def Alloc.handed (a : Alloc) : List Entity :=
  (List.range a.n.toInt.toNat).map fun i => ⟨(a.start + Int64.ofNat i).toUInt64⟩

/-- An allocator in its range, that has handed out an entity. -/
structure AllocSound (grants : ResolvedGrantSet) (name : String) (e : Alloc × Int64) : Prop where
  grant : ∃ first, grants.get name = some (.allocate e.1.rel first e.2) ∧ first.toInt ≤ e.1.start.toInt
  present : e.1.present = true
  drawn : 0 < e.1.n.toInt
  room : e.1.start.toInt + e.1.n.toInt ≤ e.2.toInt + 1

/-- A generator that has been drawn from. -/
structure StreamSound (grants : ResolvedGrantSet) (name : String) (s : RngStream) : Prop where
  grant : ∃ algorithm, grants.get name = some (.random s.rel s.owner algorithm)
  used : s.used = true
  original : s.original ≠ 0
  state : s.state ≠ 0

/-- What a behavior has drawn, from capabilities it was granted. -/
structure FrameSound (grants : ResolvedGrantSet) (frame : CapabilityFrame) : Prop where
  sortedAllocators : Sorted frame.allocators
  allocators : ∀ e ∈ frame.allocators, AllocSound grants e.1 e.2
  sortedRandom : Sorted frame.random
  random : ∀ e ∈ frame.random, StreamSound grants e.1 e.2
  scheduled : ∀ s ∈ frame.scheduled, ∃ n clock sequences targets,
    grants.get n = some (.schedule clock s.timers sequences targets)

theorem frameSound_new (grants : ResolvedGrantSet) : FrameSound grants .new :=
  ⟨.nil, fun _ h => absurd h List.not_mem_nil, .nil, fun _ h => absurd h List.not_mem_nil,
    fun _ h => absurd h List.not_mem_nil⟩

section Drawing

variable {grants : ResolvedGrantSet} {snap : Snapshot} {frame frame' : CapabilityFrame} {tries : Nat}
  {capability : String}

/-- Rows of a snapshot have weight. -/
theorem filter_read {rel : RelId} {rows : Rows} (h : snap.read rel = .ok rows) :
    rows.filter (fun e => e.2 ≠ 0) = rows := by
  unfold Snapshot.read TraceStore.readAt at h
  split_ifs at h
  cases h
  exact filter_eq_self_of fun e he => by simpa using snap.store.weighted_rowsAt rel snap.edition e he

/-- An integer that is not the last has a successor. -/
theorem checked_succ {last : Int64} (h : last ≠ Int64.maxValue) :
    ∃ stop : Int64, checked (last.toInt + 1) = some stop ∧ stop.toInt = last.toInt + 1 := by
  have hroom : last.toInt + 1 < 2 ^ 63 := by
    have hle : last.toInt ≤ 2 ^ 63 - 1 := last.toInt_le
    have hne : last.toInt ≠ 2 ^ 63 - 1 := fun heq => h (Int64.toInt_inj.1 heq)
    omega
  have hlow : -(2 : Int) ^ 63 ≤ last.toInt + 1 := by
    have := last.le_toInt
    omega
  exact ⟨_, if_pos ⟨hlow, hroom⟩, Int64.toInt_ofInt_of_le hlow hroom⟩

/-- A counter that is valid is one row, in the range or just past it. -/
theorem validateCounter_ok {rel : RelId} {first last : Int64} (h : validateCounter snap rel first last = .ok ())
    (hlast : last ≠ Int64.maxValue) : ∃ next : Int64, snap.read rel = .ok [(⟨[.int next]⟩, 1)] ∧
      first.toInt ≤ next.toInt ∧ next.toInt ≤ last.toInt + 1 := by
  unfold validateCounter at h
  split at h
  · cases h
  · rename_i rows hrows
    rw [filter_read hrows] at h
    split at h
    · rename_i t
      split at h
      · rename_i next hcells
        obtain ⟨cells⟩ := t
        obtain rfl : cells = [.int next] := hcells
        dsimp only at h
        split_ifs at h with hrange
        rw [not_or] at hrange
        refine ⟨next, hrows, by simpa [Int64.lt_iff_toInt_lt] using hrange.1, ?_⟩
        obtain ⟨stop, hchecked, hstop⟩ := checked_succ hlast
        have hpast := hrange.2
        rw [hchecked] at hpast
        dsimp only at hpast
        rw [decide_eq_true_eq, Int64.lt_iff_toInt_lt, hstop] at hpast
        exact not_lt.1 hpast
      · cases h
    · cases h

/-- A generator's row that is valid is not zero. -/
theorem readRngState_ok {rel : RelId} {owner : Entity} {state : Int64}
    (h : readRngState snap rel owner capability = .ok state) : state ≠ 0 := by
  unfold readRngState at h
  split at h
  · cases h
  · split at h
    · split at h
      · split_ifs at h with hzero
        cases h
        exact hzero
      · cases h
    · cases h

/-- The allocator of a capability: as it was drawn from before, or at its counter. -/
theorem allocator_ok {counter : RelId} {first last : Int64} {e : Alloc × Int64} (hlast : last ≠ Int64.maxValue)
    (h : frame.allocator snap capability counter first last = .ok e) :
    lookup capability frame.allocators = some e ∨
      ∃ next : Int64, e = (⟨counter, next, true, 0⟩, last) ∧ first.toInt ≤ next.toInt ∧
        next.toInt ≤ last.toInt + 1 := by
  unfold CapabilityFrame.allocator at h
  split at h
  · cases h
    exact .inl ‹_›
  · obtain ⟨_, hvalid, h⟩ := except_bind_ok h
    obtain ⟨next, hread, hfirst, hpast⟩ := validateCounter_ok hvalid hlast
    rw [hread] at h
    dsimp only at h
    rw [show Alloc.fromRows counter [(⟨[.int next]⟩, 1)] first = ⟨counter, next, true, 0⟩ from rfl] at h
    cases h
    exact .inr ⟨next, rfl, hfirst, hpast⟩

/-- The generator of a capability: as it was drawn from before, or at its row. -/
theorem stream_ok {rel : RelId} {owner : Entity} {s : RngStream}
    (h : frame.stream snap capability rel owner = .ok s) : lookup capability frame.random = some s ∨
      ∃ original : Int64, original ≠ 0 ∧ s = ⟨rel, owner, original, original.toUInt64, false⟩ := by
  unfold CapabilityFrame.stream at h
  split at h
  · cases h
    exact .inl ‹_›
  · obtain ⟨original, hread, h⟩ := except_bind_ok h
    cases h
    exact .inr ⟨original, readRngState_ok hread, rfl⟩

/-- An entity handed out within the range leaves the allocator in it. -/
theorem AllocSound.fresh {a : Alloc} {first last : Int64} (hrange : 0 ≤ first ∧ first ≤ last ∧ last ≠ Int64.maxValue)
    (hgrant : grants.get capability = some (.allocate a.rel first last)) (hpresent : a.present = true)
    (hfirst : first.toInt ≤ a.start.toInt) (hn : 0 ≤ a.n.toInt)
    (hroom : a.start.toInt + a.n.toInt ≤ last.toInt + 1) (hfits : ¬ last.toUInt64 < a.fresh.1.id) :
    AllocSound grants capability (a.fresh.2, last) ∧ a.fresh.2.handed = a.handed ++ [a.fresh.1] := by
  have hzero : 0 ≤ first.toInt := Int64.le_iff_toInt_le.1 hrange.1
  have hordered : first.toInt ≤ last.toInt := Int64.le_iff_toInt_le.1 hrange.2.1
  have hle : last.toInt ≤ 2 ^ 63 - 1 := last.toInt_le
  have hne : last.toInt ≠ 2 ^ 63 - 1 := fun heq => hrange.2.2 (Int64.toInt_inj.1 heq)
  have hsum : (a.start + a.n).toInt = a.start.toInt + a.n.toInt := toInt_add_of (by omega) hn (by omega)
  have hlast : (last.toUInt64.toNat : Int) = last.toInt := toNat_toUInt64 (by omega)
  have hid : ((a.start + a.n).toUInt64.toNat : Int) = a.start.toInt + a.n.toInt := by
    rw [toNat_toUInt64 (by omega), hsum]
  have hin : a.start.toInt + a.n.toInt ≤ last.toInt := by
    rw [UInt64.lt_iff_toNat_lt] at hfits
    change ¬ last.toUInt64.toNat < (a.start + a.n).toUInt64.toNat at hfits
    omega
  have hone : (1 : Int64).toInt = 1 := rfl
  have hnext : (a.n + 1).toInt = a.n.toInt + 1 := by
    rw [toInt_add_of hn (by omega) (by omega), hone]
  refine ⟨⟨⟨first, hgrant, hfirst⟩, hpresent, ?_, ?_⟩, ?_⟩
  · show 0 < (a.n + 1).toInt
    omega
  · show a.start.toInt + (a.n + 1).toInt ≤ last.toInt + 1
    omega
  · show (List.range (a.n + 1).toInt.toNat).map _ = _
    have hsucc : (a.n + 1).toInt.toNat = a.n.toInt.toNat + 1 := by omega
    rw [hsucc, List.range_succ, List.map_append]
    congr 2
    have hback : Int64.ofNat a.n.toInt.toNat = a.n := by
      refine Int64.toInt_inj.1 ?_
      rw [Int64.toInt_ofNat_of_lt (by omega)]
      omega
    rw [List.map_singleton, hback]
    rfl

/-- **What is drawn from a grant stays sound.** -/
theorem draw_sound (hg : GrantsSound grants) {grant : ResolvedCapabilityGrant} {arguments values : List Value}
    (hget : grants.get capability = some grant) (hframe : FrameSound grants frame)
    (h : frame.draw snap tries capability grant arguments = .ok (values, frame')) : FrameSound grants frame' := by
  cases grant with
  | allocate counter first last =>
    unfold CapabilityFrame.draw at h
    dsimp only at h
    split_ifs at h
    obtain ⟨e, he, h⟩ := except_bind_ok h
    split_ifs at h with hfits
    cases h
    have hrange := hg.range hget
    have hsound : AllocSound grants capability (e.1.fresh.2, e.2) := by
      rcases allocator_ok hrange.2.2 he with hold | ⟨next, rfl, hfirst, hpast⟩
      · have hmem := hframe.allocators _ (mem_of_lookup hold)
        obtain ⟨first', hgrant, hfirst⟩ := hmem.grant
        exact (AllocSound.fresh (hg.range hgrant) hgrant hmem.present hfirst hmem.drawn.le hmem.room hfits).1
      · exact (AllocSound.fresh hrange hget rfl hfirst le_rfl (by simpa using hpast) hfits).1
    refine ⟨sorted_put hframe.sortedAllocators, fun x hx => ?_, hframe.sortedRandom, hframe.random,
      hframe.scheduled⟩
    rcases mem_put hx with rfl | hx
    · exact hsound
    · exact hframe.allocators x hx
  | random rel owner algorithm =>
    unfold CapabilityFrame.draw at h
    dsimp only at h
    split_ifs at h
    split at h
    · split_ifs at h
      obtain ⟨s, hs, h⟩ := except_bind_ok h
      split at h
      · cases h
      · rename_i state output hdraw
        cases h
        have hsound : StreamSound grants capability { s with state, used := true } := by
          rcases stream_ok hs with hold | ⟨original, hne, rfl⟩
          · have hmem := hframe.random _ (mem_of_lookup hold)
            exact ⟨hmem.grant, rfl, hmem.original, drawAtLeast_ne hmem.state hdraw⟩
          · refine ⟨⟨algorithm, hget⟩, rfl, hne, drawAtLeast_ne (fun hz => hne ?_) hdraw⟩
            simpa using congrArg UInt64.toInt64 hz
        refine ⟨hframe.sortedAllocators, hframe.allocators, sorted_put hframe.sortedRandom, fun x hx => ?_,
          hframe.scheduled⟩
        rcases mem_put hx with rfl | hx
        · exact hsound
        · exact hframe.random x hx
    · cases h
  | schedule clock timers sequences targets =>
    unfold CapabilityFrame.draw at h
    dsimp only at h
    split at h
    · split_ifs at h
      split at h
      · cases h
      · cases h
        refine ⟨hframe.sortedAllocators, hframe.allocators, hframe.sortedRandom, hframe.random, fun s hs => ?_⟩
        rcases List.mem_append.1 hs with hs | hs
        · exact hframe.scheduled s hs
        · obtain rfl := List.mem_singleton.1 hs
          exact ⟨capability, clock, sequences, targets, hget⟩
    · cases h

theorem invoke_sound (hg : GrantsSound grants) {arguments values : List Value} (hframe : FrameSound grants frame)
    (h : frame.invoke snap tries capability (some grants) arguments = .ok (values, frame')) :
    FrameSound grants frame' := by
  unfold CapabilityFrame.invoke at h
  split at h
  · cases h
  · exact draw_sound hg ‹_› hframe h

end Drawing

/-! ## Behaviors -/

/-- An operation that writes no relation a capability keeps its state in. -/
def BehaviorOp.Spares (prog : Program) (grants : ResolvedGrantSet) : BehaviorOp → Prop
  | .assert relation _ | .retract relation _ | .emit relation _ =>
      ∀ rel, prog.relId relation = some rel → ¬ grants.Holds rel
  | _ => True

/-- Operations that write no relation a capability keeps its state in. -/
def SparesAll (prog : Program) (grants : ResolvedGrantSet) (ops : List BehaviorOp) : Prop :=
  ∀ op, Occurs op ops → op.Spares prog grants

/-- A patch of rows of other relations, that moves no cursor and sets no timer. -/
structure PatchSpares (grants : ResolvedGrantSet) (patch : Patch) : Prop where
  asserts : ∀ f ∈ patch.asserts, ¬ grants.Holds f.rel
  retracts : ∀ f ∈ patch.retracts, ¬ grants.Holds f.rel
  emits : ∀ m ∈ patch.emits, ¬ grants.Holds m.inbox
  scheduled : patch.scheduled = []
  cursor : patch.cursorAdvance = none

theorem patchSpares_new (grants : ResolvedGrantSet) : PatchSpares grants Patch.new :=
  ⟨fun _ h => absurd h List.not_mem_nil, fun _ h => absurd h List.not_mem_nil,
    fun _ h => absurd h List.not_mem_nil, rfl, rfl⟩

/-- Where a behavior stands that has written what it may. -/
structure RunningSound (grants : ResolvedGrantSet) (r : Running) : Prop where
  patch : PatchSpares grants r.patch
  frame : FrameSound grants r.frame

section Behaviors

variable {fl : FloatOps} {prog : Program} {grants : ResolvedGrantSet} {tries : Nat} {snap : Snapshot}

/-- Such operations keep a patch that writes no such relation, and a sound frame. -/
theorem SparesAll.kept (hg : GrantsSound grants) {ops : List BehaviorOp} (h : SparesAll prog grants ops) :
    KeptBy prog (some grants) tries snap (fun p fr => PatchSpares grants p ∧ FrameSound grants fr) ops := by
  rintro o ho p fr p' fr' hdoes ⟨hp, hfr⟩
  have hspares := h o ho
  cases hdoes with
  | expect => exact ⟨⟨hp.asserts, hp.retracts, hp.emits, hp.scheduled, hp.cursor⟩, hfr⟩
  | assert hrel =>
    refine ⟨⟨fun g hg => ?_, hp.retracts, hp.emits, hp.scheduled, hp.cursor⟩, hfr⟩
    rcases List.mem_append.1 hg with hg | hg
    · exact hp.asserts g hg
    · rw [List.mem_singleton.1 hg]
      exact hspares _ hrel
  | retract hrel =>
    refine ⟨⟨hp.asserts, fun g hg => ?_, hp.emits, hp.scheduled, hp.cursor⟩, hfr⟩
    rcases List.mem_append.1 hg with hg | hg
    · exact hp.retracts g hg
    · rw [List.mem_singleton.1 hg]
      exact hspares _ hrel
  | emit hrel =>
    refine ⟨⟨hp.asserts, hp.retracts, fun m hm => ?_, hp.scheduled, hp.cursor⟩, hfr⟩
    rcases List.mem_append.1 hm with hm | hm
    · exact hp.emits m hm
    · rw [List.mem_singleton.1 hm]
      exact hspares _ hrel
  | invoke hinvoke => exact ⟨hp, invoke_sound hg hfr hinvoke⟩

/-- **What operations leave is sound if what they found was.** -/
theorem execOps_sound (hg : GrantsSound grants) (ops : List BehaviorOp) {r r' : Running}
    (hops : SparesAll prog grants ops) (hr : RunningSound grants r)
    (h : execOps fl prog (some grants) tries snap r ops = .ok (some r')) : RunningSound grants r' := by
  obtain ⟨hp, hfr⟩ := execOps_keeps ops (hops.kept hg) ⟨hr.patch, hr.frame⟩ h
  exact ⟨hp, hfr⟩

end Behaviors

/-! ## What a frame adds to a patch -/

/-- A row that must hold, replaced by another. -/
def Patch.replace (p : Patch) (m : Fact × Fact) : Patch := ((p.expect m.1).retract m.1).assert m.2

namespace CapabilityFrame

/-- The rows a frame replaces. -/
def moves (frame : CapabilityFrame) : List (Fact × Fact) :=
  (frame.allocators.map fun e => (e.2.1.row e.2.1.start, e.2.1.row (e.2.1.start + e.2.1.n))) ++
    frame.random.map fun e => (e.2.row e.2.original, e.2.row e.2.state.toInt64)

/-- The entities a frame has handed out. -/
def handed (frame : CapabilityFrame) : List Entity := frame.allocators.flatMap fun e => e.2.1.handed

/-- No two generators that were drawn from keep their state in one row. -/
def Apart (frame : CapabilityFrame) : Prop := (frame.random.map fun e => (e.2.rel, e.2.owner)).Nodup

instance (frame : CapabilityFrame) : Decidable frame.Apart :=
  inferInstanceAs (Decidable (List.Nodup _))

end CapabilityFrame

theorem foldl_replace : ∀ (moves : List (Fact × Fact)) (p : Patch), moves.foldl Patch.replace p
    = { p with
        preconditions := p.preconditions ++ moves.map Prod.fst
        asserts := p.asserts ++ moves.map Prod.snd
        retracts := p.retracts ++ moves.map Prod.fst } := by
  intro moves
  induction moves with
  | nil =>
    intro p
    simp
  | cons m moves ih =>
    intro p
    rw [List.foldl_cons, ih]
    simp [Patch.replace, Patch.assert, Patch.retract, Patch.expect]

theorem foldl_schedule : ∀ (ss : List Scheduled) (p : Patch),
    ss.foldl (fun p s => p.schedule s) p = { p with scheduled := p.scheduled ++ ss } := by
  intro ss
  induction ss with
  | nil =>
    intro p
    simp
  | cons s ss ih =>
    intro p
    rw [List.foldl_cons, ih]
    simp [Patch.schedule]

section Sealing

variable {grants : ResolvedGrantSet} {frame : CapabilityFrame}

theorem AllocSound.sealPatch {name : String} {e : Alloc × Int64} (h : AllocSound grants name e) (p : Patch) :
    e.1.sealPatch p = p.replace (e.1.row e.1.start, e.1.row (e.1.start + e.1.n)) := by
  have hne : e.1.n ≠ 0 := fun hz => by
    have := h.drawn
    rw [hz] at this
    exact absurd this (by decide)
  rw [Alloc.sealPatch, if_neg hne, if_pos h.present]
  rfl

theorem StreamSound.sealPatch {name : String} {s : RngStream} (h : StreamSound grants name s) (p : Patch) :
    s.sealPatch p = p.replace (s.row s.original, s.row s.state.toInt64) := by
  rw [RngStream.sealPatch, if_pos h.used]
  rfl

/-- **What a sealed patch is**: the rows the frame replaces, and its timers. -/
theorem FrameSound.sealPatch_eq (h : FrameSound grants frame) (p : Patch) : frame.sealPatch p
    = { p with
        preconditions := p.preconditions ++ frame.moves.map Prod.fst
        asserts := p.asserts ++ frame.moves.map Prod.snd
        retracts := p.retracts ++ frame.moves.map Prod.fst
        scheduled := p.scheduled ++ frame.scheduled } := by
  have hallocators : ∀ p : Patch, frame.allocators.foldl (fun p e => e.2.1.sealPatch p) p
      = (frame.allocators.map fun e => (e.2.1.row e.2.1.start, e.2.1.row (e.2.1.start + e.2.1.n))).foldl
          Patch.replace p := fun p => by
    rw [List.foldl_map]
    exact List.foldl_ext _ _ _ fun p e he => (h.allocators e he).sealPatch p
  have hrandom : ∀ p : Patch, frame.random.foldl (fun p e => e.2.sealPatch p) p
      = (frame.random.map fun e => (e.2.row e.2.original, e.2.row e.2.state.toInt64)).foldl Patch.replace p :=
    fun p => by
      rw [List.foldl_map]
      exact List.foldl_ext _ _ _ fun p e he => (h.random e he).sealPatch p
  rw [CapabilityFrame.sealPatch, foldl_schedule, hrandom, hallocators, ← List.foldl_append]
  show { (frame.moves.foldl Patch.replace p) with
    scheduled := (frame.moves.foldl Patch.replace p).scheduled ++ frame.scheduled } = _
  rw [foldl_replace]

/-- A list whose entries that meet a condition have one key has one of them at most, if
keys are distinct. -/
theorem filter_le_one {α β : Type} {key : α → β} {q : α → Bool} {k : β} {l : List α} (h : (l.map key).Nodup)
    (hq : ∀ x ∈ l, q x = true → key x = k) : l.filter q = [] ∨ ∃ x, l.filter q = [x] := by
  have hsub : ((l.filter q).map key).Nodup := h.sublist (List.filter_sublist.map key)
  have hall : ∀ x ∈ l.filter q, key x = k := fun x hx =>
    hq x (List.mem_filter.1 hx).1 (List.mem_filter.1 hx).2
  match hf : l.filter q with
  | [] => exact .inl rfl
  | [x] => exact .inr ⟨x, rfl⟩
  | x :: y :: rest =>
    rw [hf] at hsub hall
    have hxy : key x = key y := (hall x List.mem_cons_self).trans
      (hall y (List.mem_cons_of_mem _ List.mem_cons_self)).symm
    rw [List.map_cons, List.map_cons, hxy] at hsub
    exact absurd List.mem_cons_self (List.nodup_cons.1 hsub).1

theorem netOn_map {α : Type} (l : List α) (f : α → Fact) (d : Diff) (g : Fact) :
    netOn g.rel g.tuple (l.map fun x => ((f x).rel, (f x).tuple, d)) = (l.map fun x => if f x = g then d else 0).sum := by
  induction l with
  | nil => rfl
  | cons x l ih =>
    have hiff : ((f x).rel = g.rel ∧ (f x).tuple = g.tuple) ↔ f x = g := by
      rw [Fact.mk.injEq]
    rw [List.map_cons, netOn_cons, ih, List.map_cons, List.sum_cons]
    simp only [hiff]

/-- What a sealed patch does to a relation that capabilities keep their state in: the
moves of its frame. -/
theorem netOn_sealed (hg : GrantsSound grants) (h : FrameSound grants frame) {p : Patch} (hp : PatchSpares grants p)
    {move : CursorMove} (hmove : ¬ grants.Holds move.rel) {g : Fact} (hheld : grants.Holds g.rel) :
    netOn g.rel g.tuple { frame.sealPatch p with cursorAdvance := some move }.updates
      = (frame.moves.map fun m => (if m.2 = g then 1 else 0) + if m.1 = g then -1 else 0).sum := by
  have hne : ∀ {rel : RelId}, ¬ grants.Holds rel → rel ≠ g.rel := fun hnot heq => hnot (heq ▸ hheld)
  have hasserts : netOn g.rel g.tuple (p.asserts.map fun f => (f.rel, f.tuple, 1)) = 0 := by
    refine netOn_eq_zero fun u hu hrow => ?_
    obtain ⟨f, hf, rfl⟩ := List.mem_map.1 hu
    exact hne (hp.asserts f hf) hrow.1
  have hretracts : netOn g.rel g.tuple (p.retracts.map fun f => (f.rel, f.tuple, -1)) = 0 := by
    refine netOn_eq_zero fun u hu hrow => ?_
    obtain ⟨f, hf, rfl⟩ := List.mem_map.1 hu
    exact hne (hp.retracts f hf) hrow.1
  have hemits : netOn g.rel g.tuple (p.emits.map fun m => (m.inbox, m.body, 1)) = 0 := by
    refine netOn_eq_zero fun u hu hrow => ?_
    obtain ⟨m, hm, rfl⟩ := List.mem_map.1 hu
    exact hne (hp.emits m hm) hrow.1
  have htimers : netOn g.rel g.tuple (frame.scheduled.map fun s => (s.timers, timerRow s, 1)) = 0 := by
    refine netOn_eq_zero fun u hu hrow => ?_
    obtain ⟨s, hs, rfl⟩ := List.mem_map.1 hu
    obtain ⟨n, clock, sequences, targets, hget⟩ := h.scheduled s hs
    rcases hheld with ⟨m, first, last, hcounter⟩ | ⟨m, owner, algorithm, hrandom⟩
    · exact hg.timers hget (hrow.1 ▸ hcounter)
    · exact hg.timersRandom hget (hrow.1 ▸ hrandom)
  have hcursor : netOn g.rel g.tuple move.updates = 0 := by
    refine netOn_eq_zero fun u hu hrow => hne hmove ?_
    rw [← hrow.1]
    rcases List.mem_append.1 hu with hu | hu
    · obtain ⟨old, -, rfl⟩ := List.mem_map.1 hu
      rfl
    · rw [List.mem_singleton.1 hu]
  have hnew := netOn_map frame.moves Prod.snd 1 g
  have hold := netOn_map frame.moves Prod.fst (-1) g
  rw [h.sealPatch_eq, Patch.updates, Patch.emitted]
  simp only [List.map_append, List.map_map, netOn_append, Option.toList_some, List.flatMap_cons, List.flatMap_nil,
    List.append_nil, hp.scheduled, List.nil_append, hasserts, hretracts, hemits, htimers, hcursor, zero_add,
    add_zero, List.sum_map_add]
  exact congrArg₂ (· + ·) hnew hold

end Sealing

/-! ## Rows that stand alone -/

/-- A row alone in a slot, with weight one. -/
def OneRow (slot : Fact → Bool) (store : TraceStore) (f : Fact) : Prop :=
  slot f = true ∧ ∀ g, slot g = true → store.weight g.rel g.tuple = if g = f then 1 else 0

/-- A row of the slot that has weight is the one. -/
theorem OneRow.eq_of_pos {slot : Fact → Bool} {store : TraceStore} {f g : Fact} (h : OneRow slot store f)
    (hg : slot g = true) (hpos : 0 < store.weight g.rel g.tuple) : g = f := by
  by_contra hne
  rw [h.2 g hg, if_neg hne] at hpos
  exact absurd hpos (lt_irrefl 0)

/-- **A row alone in its slot is replaced by the one move there is in it**, or stays. -/
theorem OneRow.commit {slot : Fact → Bool} {store : TraceStore} {f : Fact} {moves : List (Fact × Fact)}
    {updates : List (RelId × Tuple × Diff)} (h : OneRow slot store f)
    (hone : moves.filter (fun m => slot m.1) = [] ∨ ∃ m, moves.filter (fun m => slot m.1) = [m])
    (hslot : ∀ m ∈ moves, slot m.2 = slot m.1)
    (hnet : ∀ g, slot g = true → netOn g.rel g.tuple updates
      = (moves.map fun m => (if m.2 = g then 1 else 0) + if m.1 = g then -1 else 0).sum)
    (hpre : ∀ m ∈ moves, 0 < store.weight m.1.rel m.1.tuple) :
    OneRow slot (store.commit updates) f ∧ (∀ m ∈ moves, slot m.1 = false) ∨
      ∃ m ∈ moves, slot m.1 = true ∧ m.1 = f ∧ OneRow slot (store.commit updates) m.2 := by
  -- the moves in other slots do nothing here
  have hsum : ∀ g, slot g = true → netOn g.rel g.tuple updates
      = ((moves.filter fun m => slot m.1).map fun m => (if m.2 = g then 1 else 0) + if m.1 = g then -1 else 0).sum := by
    intro g hg
    rw [hnet g hg]
    clear hnet hpre hone
    induction moves with
    | nil => rfl
    | cons m moves ih =>
      have hrest := ih fun x hx => hslot x (List.mem_cons_of_mem _ hx)
      by_cases hm : slot m.1 = true
      · rw [List.filter_cons_of_pos (p := fun m : Fact × Fact => slot m.1) hm, List.map_cons, List.sum_cons, hrest,
          List.map_cons, List.sum_cons]
      · have hnew : m.2 ≠ g := fun heq => hm (by rw [← hslot m List.mem_cons_self, heq, hg])
        have hold : m.1 ≠ g := fun heq => hm (by rw [heq, hg])
        rw [List.filter_cons_of_neg (p := fun m : Fact × Fact => slot m.1) hm, List.map_cons, List.sum_cons, hrest,
          if_neg hnew, if_neg hold]
        simp
  rcases hone with hnil | ⟨m, hm⟩
  · refine .inl ⟨⟨h.1, fun g hg => ?_⟩, fun m hm => by simpa using List.filter_eq_nil_iff.1 hnil m hm⟩
    rw [TraceStore.weight_commit, hsum g hg, hnil, h.2 g hg]
    simp
  · obtain ⟨hmem, hin⟩ := List.mem_filter.1 (hm ▸ List.mem_singleton.2 rfl : m ∈ moves.filter fun m => slot m.1)
    have hcurrent : m.1 = f := h.eq_of_pos hin (hpre m hmem)
    refine .inr ⟨m, hmem, hin, hcurrent, hslot m hmem ▸ hin, fun g hg => ?_⟩
    rw [TraceStore.weight_commit, hsum g hg, hm, h.2 g hg, List.map_singleton, List.sum_singleton, hcurrent]
    simp only [eq_comm (a := g)]
    split_ifs <;> simp

/-! ## Actors -/

/-- Where an actor stands. -/
inductive Turn where
  | idle
  /-- It has a patch, what its behavior drew, and the move of its cursor. -/
  | prepared (patch : Patch) (frame : CapabilityFrame) (move : CursorMove)

/-- The actors of a package over its store, and the entities that committed messages
were handed. -/
structure ActorWorld where
  store : TraceStore
  turns : List Turn
  handed : List Entity

namespace ActorWorld

/-- What an actor does between two reads or commits, or somebody else's commit. -/
inductive Act where
  /-- An actor handles a message against the snapshot at an edition. -/
  | handle (k : Nat) (selfEntity : Entity) (ops : List BehaviorOp) (initial : Locals) (at' : Nat) (move : CursorMove)
  | commit (k : Nat) (authority : Authority)
  | crash (k : Nat)
  | other (updates : List (RelId × Tuple × Diff))

def setTurn (w : ActorWorld) (k : Nat) (x : Turn) : ActorWorld := { w with turns := w.turns.set k x }

section Step

variable (fl : FloatOps) (prog : Program) (grants : ResolvedGrantSet) (tries : Nat) (schemas : SchemaCatalog)
  (checker : BehaviorChecker)

/-- What the code does next, if it can. A message that fails, is refused or loses a race
is handled again. -/
def step (w : ActorWorld) : Act → Option ActorWorld
  | .handle k selfEntity ops initial at' move =>
      match w.turns[k]? with
      | some .idle =>
          match execOps fl prog (some grants) tries ⟨w.store, at'⟩
              ⟨startLocals selfEntity initial, Patch.new, .new⟩ ops with
          | .ok (some r) => some (w.setTurn k (.prepared r.patch r.frame move))
          | .ok none => some (w.setTurn k (.prepared Patch.new .new move))
          | .error _ => some w
      | _ => none
  | .commit k authority =>
      match w.turns[k]? with
      | some (.prepared patch frame move) =>
          match commitPatchChecked w.store schemas checker
              { frame.sealPatch patch with cursorAdvance := some move } authority with
          | .ok (store, .committed _) => some { w.setTurn k .idle with store, handed := w.handed ++ frame.handed }
          | .ok (_, .rejected) => some (w.setTurn k .idle)
          | .error _ => some (w.setTurn k .idle)
      | _ => none
  | .crash k => some (w.setTurn k .idle)
  | .other updates => some { w with store := w.store.commit updates }

end Step

/-- Nobody but the capabilities writes the relations they keep their state in. -/
def LeavesCapabilities (prog : Program) (grants : ResolvedGrantSet) : Act → Prop
  | .handle _ _ ops _ _ move => SparesAll prog grants ops ∧ ¬ grants.Holds move.rel
  | .other updates => ∀ u ∈ updates, ¬ grants.Holds u.1
  | _ => True

/-- No message is committed that drew from two generators over one row. -/
def DrawsApart (w : ActorWorld) : Act → Prop
  | .commit k _ => match w.turns[k]? with
      | some (.prepared _ frame _) => frame.Apart
      | _ => True
  | _ => True

/-- Actors of a store that have handled nothing. -/
def start (store : TraceStore) (n : Nat) : ActorWorld := ⟨store, List.replicate n .idle, []⟩

end ActorWorld

/-! ## The law -/

/-- A capability can be drawn from. -/
def Readable (snap : Snapshot) (name : String) : ResolvedCapabilityGrant → Prop
  | .allocate counter first last => validateCounter snap counter first last = .ok ()
  | .random rel owner _ => ∃ state, readRngState snap rel owner name = .ok state
  | .schedule .. => True

/-- **The state of the capabilities**: each counter is one row of weight one in its range
or just past it, each generator's owner has one row of weight one that is not zero, no
entity was handed out twice, and every capability can be drawn from. -/
structure CapabilityLaw (grants : ResolvedGrantSet) (w : ActorWorld) : Prop where
  counters : ∀ {n counter first last}, grants.get n = some (.allocate counter first last) →
    ∃ next : Int64, first.toInt ≤ next.toInt ∧ next.toInt ≤ last.toInt + 1 ∧
      w.store.rowsAt counter w.store.current = [(⟨[.int next]⟩, 1)]
  generators : ∀ {n rel owner algorithm}, grants.get n = some (.random rel owner algorithm) →
    ∃ state : Int64, state ≠ 0 ∧
      (w.store.rowsAt rel w.store.current).filter (fun e => e.1.cells.head? = some (.ent owner))
        = [(⟨[.ent owner, .int state]⟩, 1)]
  once : w.handed.Nodup
  readable : ∀ {n grant}, grants.get n = some grant → Readable ⟨w.store, w.store.current⟩ n grant

/-! ## The invariant -/

/-- The rows of a counter. -/
def counterSlot (counter : RelId) (f : Fact) : Bool := f.rel = counter

/-- The rows of a generator's owner. -/
def generatorSlot (rel : RelId) (owner : Entity) (f : Fact) : Bool :=
  f.rel = rel ∧ f.tuple.cells.head? = some (.ent owner)

/-- An entity's id as a counter's value. -/
def Entity.value (e : Entity) : Int := e.id.toInt64.toInt

/-- What a turn that is under way has prepared. -/
def Turn.Sound (grants : ResolvedGrantSet) : Turn → Prop
  | .idle => True
  | .prepared patch frame move => PatchSpares grants patch ∧ FrameSound grants frame ∧ ¬ grants.Holds move.rel

/-- Each counter stands alone past what was handed out in its range, and each generator's
row stands alone. -/
structure CapabilitiesKept (grants : ResolvedGrantSet) (w : ActorWorld) : Prop where
  counters : ∀ {n counter first last}, grants.get n = some (.allocate counter first last) →
    ∃ next : Int64, first.toInt ≤ next.toInt ∧ next.toInt ≤ last.toInt + 1 ∧
      OneRow (counterSlot counter) w.store ⟨counter, ⟨[.int next]⟩⟩ ∧
        ∀ e ∈ w.handed, first.toInt ≤ e.value → e.value ≤ last.toInt → e.value < next.toInt
  generators : ∀ {n rel owner algorithm}, grants.get n = some (.random rel owner algorithm) →
    ∃ state : Int64, state ≠ 0 ∧ OneRow (generatorSlot rel owner) w.store ⟨rel, ⟨[.ent owner, .int state]⟩⟩
  granted : ∀ e ∈ w.handed, ∃ n counter first last, grants.get n = some (.allocate counter first last) ∧
    first.toInt ≤ e.value ∧ e.value ≤ last.toInt
  once : w.handed.Nodup
  turns : ∀ x ∈ w.turns, x.Sound grants

section Handed

variable {grants : ResolvedGrantSet} {frame : CapabilityFrame}

/-- What a sound allocator has handed out, by value. -/
theorem AllocSound.value {name : String} {e : Alloc × Int64} (hg : GrantsSound grants) (h : AllocSound grants name e)
    {i : Nat} (hi : i < e.1.n.toInt.toNat) :
    (⟨(e.1.start + Int64.ofNat i).toUInt64⟩ : Entity).value = e.1.start.toInt + i := by
  obtain ⟨first, hgrant, hfirst⟩ := h.grant
  have hrange := hg.range hgrant
  have hzero : 0 ≤ first.toInt := Int64.le_iff_toInt_le.1 hrange.1
  have hroom := h.room
  have hle : e.2.toInt ≤ 2 ^ 63 - 1 := e.2.toInt_le
  have hne : e.2.toInt ≠ 2 ^ 63 - 1 := fun heq => hrange.2.2 (Int64.toInt_inj.1 heq)
  have hi' : (Int64.ofNat i).toInt = i := Int64.toInt_ofNat_of_lt (by omega)
  show (e.1.start + Int64.ofNat i).toUInt64.toInt64.toInt = _
  rw [Int64.toInt64_toUInt64, toInt_add_of (by omega) (by omega) (by omega), hi']

/-- The counter past what was handed out. -/
theorem AllocSound.stop {name : String} {e : Alloc × Int64} (hg : GrantsSound grants) (h : AllocSound grants name e) :
    (e.1.start + e.1.n).toInt = e.1.start.toInt + e.1.n.toInt := by
  obtain ⟨first, hgrant, hfirst⟩ := h.grant
  have hrange := hg.range hgrant
  have hzero : 0 ≤ first.toInt := Int64.le_iff_toInt_le.1 hrange.1
  have hroom := h.room
  have hdrawn := h.drawn
  have hle : e.2.toInt ≤ 2 ^ 63 - 1 := e.2.toInt_le
  have hne : e.2.toInt ≠ 2 ^ 63 - 1 := fun heq => hrange.2.2 (Int64.toInt_inj.1 heq)
  exact toInt_add_of (by omega) (by omega) (by omega)

theorem AllocSound.mem_handed {name : String} {e : Alloc × Int64} (hg : GrantsSound grants)
    (h : AllocSound grants name e) {x : Entity} (hx : x ∈ e.1.handed) :
    e.1.start.toInt ≤ x.value ∧ x.value < e.1.start.toInt + e.1.n.toInt := by
  obtain ⟨i, hi, rfl⟩ := List.mem_map.1 hx
  have hlt := List.mem_range.1 hi
  rw [h.value hg hlt]
  omega

theorem AllocSound.handed_nodup {name : String} {e : Alloc × Int64} (hg : GrantsSound grants)
    (h : AllocSound grants name e) : e.1.handed.Nodup := by
  refine List.Nodup.map_on (fun i hi j hj heq => ?_) List.nodup_range
  have hvalue := congrArg Entity.value heq
  rw [h.value hg (List.mem_range.1 hi), h.value hg (List.mem_range.1 hj)] at hvalue
  omega

/-- What was handed out in a frame, by whom. -/
theorem FrameSound.mem_handed {x : Entity} (hx : x ∈ frame.handed) :
    ∃ e ∈ frame.allocators, x ∈ e.2.1.handed := by
  obtain ⟨e, he, hx⟩ := List.mem_flatMap.1 hx
  exact ⟨e, he, hx⟩

theorem FrameSound.names_nodup {α : Type} {l : List (String × α)} (h : Sorted l) : (l.map Prod.fst).Nodup := by
  rw [List.Nodup, List.pairwise_map]
  exact h.imp fun hlt => ne_of_lt hlt

/-- **No entity is handed out twice in a frame.** -/
theorem FrameSound.handed_nodup (hg : GrantsSound grants) (h : FrameSound grants frame) : frame.handed.Nodup := by
  refine List.nodup_flatMap.2 ⟨fun e he => (h.allocators e he).handed_nodup hg, ?_⟩
  refine h.sortedAllocators.imp_of_mem fun {a b} ha hb hlt => ?_
  intro x hxa hxb
  have hsa := h.allocators a ha
  have hsb := h.allocators b hb
  obtain ⟨first, hga, hfa⟩ := hsa.grant
  obtain ⟨first', hgb, hfb⟩ := hsb.grant
  have hva := hsa.mem_handed hg hxa
  have hvb := hsb.mem_handed hg hxb
  have hra := hsa.room
  have hrb := hsb.room
  rcases hg.ranges hga hgb (ne_of_lt hlt) with hr | hr
  · rw [Int64.lt_iff_toInt_lt] at hr
    omega
  · rw [Int64.lt_iff_toInt_lt] at hr
    omega

/-- The moves of a frame in a counter: one at most, that of the counter's allocator. -/
theorem FrameSound.counter_moves (hg : GrantsSound grants) (h : FrameSound grants frame) {n : String} {counter : RelId}
    {first last : Int64} (hget : grants.get n = some (.allocate counter first last)) :
    frame.moves.filter (fun m => counterSlot counter m.1) = [] ∨
      ∃ m, frame.moves.filter (fun m => counterSlot counter m.1) = [m] := by
  have hrandom : (frame.random.map fun e => (e.2.row e.2.original, e.2.row e.2.state.toInt64)).filter
      (fun m => counterSlot counter m.1) = [] := by
    refine List.filter_eq_nil_iff.2 fun m hm hin => ?_
    obtain ⟨e, he, rfl⟩ := List.mem_map.1 hm
    obtain ⟨algorithm, hgrant⟩ := (h.random e he).grant
    have hrel : e.2.rel = counter := of_decide_eq_true hin
    exact hg.apart (hrel ▸ hgrant) hget
  rw [CapabilityFrame.moves, List.filter_append, hrandom, List.append_nil, List.filter_map]
  have hone := filter_le_one (q := fun e => counterSlot counter (e.2.1.row e.2.1.start)) (k := n)
    (FrameSound.names_nodup h.sortedAllocators) fun e he hin => by
      obtain ⟨first', hgrant, -⟩ := (h.allocators e he).grant
      have hrel : e.2.1.rel = counter := of_decide_eq_true hin
      exact hg.counters (hrel ▸ hgrant) hget
  rcases hone with hnil | ⟨e, he⟩
  · exact .inl (List.map_eq_nil_iff.2 hnil)
  · exact .inr ⟨_, congrArg (List.map _) he⟩

/-- The moves of a frame in a generator's row: one at most, if no two generators share
one. -/
theorem CapabilityFrame.Apart.generator_moves (hapart : frame.Apart) (rel : RelId) (owner : Entity) :
    frame.moves.filter (fun m => generatorSlot rel owner m.1) = [] ∨
      ∃ m, frame.moves.filter (fun m => generatorSlot rel owner m.1) = [m] := by
  have hallocators : (frame.allocators.map fun e => (e.2.1.row e.2.1.start, e.2.1.row (e.2.1.start + e.2.1.n))).filter
      (fun m => generatorSlot rel owner m.1) = [] := by
    refine List.filter_eq_nil_iff.2 fun m hm hin => ?_
    obtain ⟨e, he, rfl⟩ := List.mem_map.1 hm
    simp [generatorSlot, Alloc.row] at hin
  rw [CapabilityFrame.moves, List.filter_append, hallocators, List.nil_append, List.filter_map]
  have hone := filter_le_one (q := fun e => generatorSlot rel owner (e.2.row e.2.original)) (k := (rel, owner))
    hapart fun e he hin => by
      have hrow : e.2.rel = rel ∧ e.2.owner = owner := by simpa [generatorSlot, RngStream.row] using hin
      rw [hrow.1, hrow.2]
  rcases hone with hnil | ⟨e, he⟩
  · exact .inl (List.map_eq_nil_iff.2 hnil)
  · exact .inr ⟨_, congrArg (List.map _) he⟩

end Handed

/-! ## Steps keep the invariant -/

section Steps

variable {grants : ResolvedGrantSet} {w w' : ActorWorld}

theorem ActorWorld.turns_set {k : Nat} {x : Turn} (h : CapabilitiesKept grants w) (hx : x.Sound grants) :
    ∀ y ∈ (w.setTurn k x).turns, y.Sound grants := by
  intro y hy
  rcases List.mem_or_eq_of_mem_set hy with hy | rfl
  · exact h.turns y hy
  · exact hx

theorem CapabilitiesKept.setTurn (h : CapabilitiesKept grants w) {k : Nat} {x : Turn} (hx : x.Sound grants) : CapabilitiesKept grants (w.setTurn k x) :=
  ⟨h.counters, h.generators, h.granted, h.once, ActorWorld.turns_set h hx⟩

/-- Rows that updates leave alone stay alone. -/
theorem OneRow.spared {slot : Fact → Bool} {store : TraceStore} {f : Fact} {updates : List (RelId × Tuple × Diff)}
    (h : OneRow slot store f) (hspare : ∀ u ∈ updates, slot ⟨u.1, u.2.1⟩ = false) :
    OneRow slot (store.commit updates) f := by
  refine ⟨h.1, fun g hg => ?_⟩
  have hnet : netOn g.rel g.tuple updates = 0 := by
    refine netOn_eq_zero fun u hu hrow => ?_
    have := hspare u hu
    rw [hrow.1, hrow.2, hg] at this
    cases this
  rw [TraceStore.weight_commit, hnet, add_zero, h.2 g hg]

theorem CapabilitiesKept.other (h : CapabilitiesKept grants w) {updates : List (RelId × Tuple × Diff)}
    (hspare : ∀ u ∈ updates, ¬ grants.Holds u.1) : CapabilitiesKept grants { w with store := w.store.commit updates } := by
  refine ⟨fun {n counter first last} hget => ?_, fun {n rel owner algorithm} hget => ?_, h.granted, h.once, h.turns⟩
  · obtain ⟨next, hfirst, hlast, hrow, hhanded⟩ := h.counters hget
    refine ⟨next, hfirst, hlast, hrow.spared fun u hu => decide_eq_false fun heq => ?_, hhanded⟩
    rw [← show u.1 = counter from heq] at hget
    exact hspare u hu (.inl ⟨n, first, last, hget⟩)
  · obtain ⟨state, hne, hrow⟩ := h.generators hget
    refine ⟨state, hne, hrow.spared fun u hu => decide_eq_false fun heq => ?_⟩
    rw [← show u.1 = rel from heq.1] at hget
    exact hspare u hu (.inr ⟨n, owner, algorithm, hget⟩)

/-- **A committed message keeps the state of the capabilities.** -/
theorem CapabilitiesKept.commit (hg : GrantsSound grants) (h : CapabilitiesKept grants w) {patch : Patch} {frame : CapabilityFrame}
    {move : CursorMove} (hpatch : PatchSpares grants patch) (hframe : FrameSound grants frame)
    (hmove : ¬ grants.Holds move.rel) (hapart : frame.Apart)
    (hpre : ∀ f ∈ (frame.sealPatch patch).preconditions, 0 < w.store.weight f.rel f.tuple) :
    CapabilitiesKept grants { w with
      store := w.store.commit { frame.sealPatch patch with cursorAdvance := some move }.updates
      handed := w.handed ++ frame.handed } := by
  have hpre' : ∀ m ∈ frame.moves, 0 < w.store.weight m.1.rel m.1.tuple := by
    intro m hm
    refine hpre m.1 ?_
    rw [hframe.sealPatch_eq]
    exact List.mem_append_right _ (List.mem_map_of_mem hm)
  have hrels : ∀ m ∈ frame.moves, m.2.rel = m.1.rel := by
    intro m hm
    rcases List.mem_append.1 hm with hm | hm
    · obtain ⟨e, -, rfl⟩ := List.mem_map.1 hm
      rfl
    · obtain ⟨e, -, rfl⟩ := List.mem_map.1 hm
      rfl
  refine ⟨fun {n counter first last} hget => ?_, fun {n rel owner algorithm} hget => ?_, fun x hx => ?_, ?_, h.turns⟩
  · obtain ⟨next, hfirst, hlast, hrow, hhanded⟩ := h.counters hget
    have hslot : ∀ m ∈ frame.moves, counterSlot counter m.2 = counterSlot counter m.1 := fun m hm => by
      rw [counterSlot, counterSlot, hrels m hm]
    have hnet := fun g (hin : counterSlot counter g = true) =>
      netOn_sealed hg hframe hpatch hmove (g := g)
        (by rw [of_decide_eq_true hin]; exact .inl ⟨n, first, last, hget⟩)
    -- what others hand out is in other ranges
    have hothers : ∀ e ∈ frame.allocators, e.1 ≠ n → ∀ x ∈ e.2.1.handed, ¬ (first.toInt ≤ x.value ∧ x.value ≤ last.toInt) := by
      rintro e he hne x hx ⟨hlow, hhigh⟩
      have hsound := hframe.allocators e he
      obtain ⟨first', hgrant, hfirst'⟩ := hsound.grant
      have hvalue := hsound.mem_handed hg hx
      have hroom := hsound.room
      rcases hg.ranges hgrant hget hne with hr | hr
      · rw [Int64.lt_iff_toInt_lt] at hr
        omega
      · rw [Int64.lt_iff_toInt_lt] at hr
        omega
    rcases hrow.commit (hframe.counter_moves hg hget) hslot hnet hpre' with ⟨hsame, hnone⟩ | ⟨m, hm, hin, hold, hnew⟩
    · refine ⟨next, hfirst, hlast, hsame, fun x hx hlow hhigh => ?_⟩
      rcases List.mem_append.1 hx with hx | hx
      · exact hhanded x hx hlow hhigh
      · obtain ⟨e, he, hx⟩ := FrameSound.mem_handed hx
        by_cases hname : e.1 = n
        · obtain ⟨first', hgrant, -⟩ := (hframe.allocators e he).grant
          rw [hname, hget] at hgrant
          obtain ⟨hrel, -⟩ := ResolvedCapabilityGrant.allocate.inj (Option.some.inj hgrant)
          have hmove := hnone _ (List.mem_append_left _ (List.mem_map_of_mem he))
          exact absurd hrel.symm (of_decide_eq_false hmove)
        · exact absurd ⟨hlow, hhigh⟩ (hothers e he hname x hx)
    · obtain ⟨e, he, rfl⟩ : ∃ e ∈ frame.allocators,
          (e.2.1.row e.2.1.start, e.2.1.row (e.2.1.start + e.2.1.n)) = m := by
        rcases List.mem_append.1 hm with hm | hm
        · exact List.mem_map.1 hm
        · obtain ⟨e, he, rfl⟩ := List.mem_map.1 hm
          have := congrArg (fun f : Fact => f.tuple.cells.length) hold
          simp [RngStream.row] at this
      have hsound := hframe.allocators e he
      have hrel : e.2.1.rel = counter := of_decide_eq_true hin
      obtain ⟨first', hgrant, hfirst'⟩ := hsound.grant
      obtain rfl : e.1 = n := hg.counters (hrel ▸ hgrant) hget
      rw [hget] at hgrant
      obtain ⟨-, hf, hl⟩ := ResolvedCapabilityGrant.allocate.inj (Option.some.inj hgrant)
      have hstop := hsound.stop hg
      have hdrawn := hsound.drawn
      have hroom := hsound.room
      have hnext : e.2.1.start = next := by
        have := congrArg (fun f : Fact => f.tuple.cells) hold
        simpa [Alloc.row] using this
      rw [← hl] at hroom
      refine ⟨e.2.1.start + e.2.1.n, ?_, ?_, ?_, fun x hx hlow hhigh => ?_⟩
      · rw [hstop, hnext]
        omega
      · rw [hstop]
        exact hroom
      · have hfact : (⟨counter, ⟨[.int (e.2.1.start + e.2.1.n)]⟩⟩ : Fact) = e.2.1.row (e.2.1.start + e.2.1.n) := by
          rw [← hrel]
          rfl
        rw [hfact]
        exact hnew
      · rw [hstop]
        rcases List.mem_append.1 hx with hx | hx
        · have := hhanded x hx hlow hhigh
          rw [hnext]
          omega
        · obtain ⟨e', he', hx⟩ := FrameSound.mem_handed hx
          by_cases hname : e'.1 = e.1
          · have hl' := lookup_of_mem (k := e.1) (v := e'.2) hframe.sortedAllocators (hname ▸ he')
            rw [lookup_of_mem (k := e.1) (v := e.2) hframe.sortedAllocators he] at hl'
            rw [← Option.some.inj hl'] at hx
            exact (hsound.mem_handed hg hx).2
          · exact absurd ⟨hlow, hhigh⟩ (hothers e' he' hname x hx)
  · obtain ⟨state, hne, hrow⟩ := h.generators hget
    have hslot : ∀ m ∈ frame.moves, generatorSlot rel owner m.2 = generatorSlot rel owner m.1 := by
      intro m hm
      rcases List.mem_append.1 hm with hm | hm
      · obtain ⟨e, -, rfl⟩ := List.mem_map.1 hm
        simp [generatorSlot, Alloc.row]
      · obtain ⟨e, -, rfl⟩ := List.mem_map.1 hm
        simp [generatorSlot, RngStream.row]
    have hnet := fun g (hin : generatorSlot rel owner g = true) =>
      netOn_sealed hg hframe hpatch hmove (g := g)
        (by rw [(of_decide_eq_true hin).1]; exact .inr ⟨n, owner, algorithm, hget⟩)
    rcases hrow.commit (hapart.generator_moves rel owner) hslot hnet hpre' with ⟨hsame, -⟩ | ⟨m, hm, hin, hold, hnew⟩
    · exact ⟨state, hne, hsame⟩
    · obtain ⟨e, he, rfl⟩ : ∃ e ∈ frame.random, (e.2.row e.2.original, e.2.row e.2.state.toInt64) = m := by
        rcases List.mem_append.1 hm with hm | hm
        · obtain ⟨e, he, rfl⟩ := List.mem_map.1 hm
          simp [generatorSlot, Alloc.row] at hin
        · exact List.mem_map.1 hm
      have hsound := hframe.random e he
      have hrow' : e.2.rel = rel ∧ e.2.owner = owner := by simpa [generatorSlot, RngStream.row] using hin
      refine ⟨e.2.state.toInt64, fun hz => hsound.state ?_, ?_⟩
      · have hback := congrArg Int64.toUInt64 hz
        rw [UInt64.toUInt64_toInt64] at hback
        exact hback
      · rw [← hrow'.1, ← hrow'.2]
        rw [← hrow'.1, ← hrow'.2] at hnew
        exact hnew
  · rcases List.mem_append.1 hx with hx | hx
    · exact h.granted x hx
    · obtain ⟨e, he, hx⟩ := FrameSound.mem_handed hx
      have hsound := hframe.allocators e he
      obtain ⟨first, hgrant, hfirst⟩ := hsound.grant
      have hvalue := hsound.mem_handed hg hx
      have hroom := hsound.room
      exact ⟨e.1, _, first, e.2.2, hgrant, by omega, by omega⟩
  · rw [List.nodup_append]
    refine ⟨h.once, hframe.handed_nodup hg, fun x hx y hy hxy => ?_⟩
    obtain ⟨e, he, hy⟩ := FrameSound.mem_handed hy
    have hsound := hframe.allocators e he
    obtain ⟨first, hgrant, hfirst⟩ := hsound.grant
    obtain ⟨next, -, -, hrow, hhanded⟩ := h.counters hgrant
    -- the counter stands where the frame read it, past all that was handed out
    have hcurrent := hrow.eq_of_pos (g := e.2.1.row e.2.1.start) (by simp [counterSlot, Alloc.row])
      (hpre' _ (List.mem_append_left _ (List.mem_map_of_mem he)))
    have hnext : e.2.1.start = next := by
      have := congrArg (fun f : Fact => f.tuple.cells) hcurrent
      simpa [Alloc.row] using this
    have hvalue := hsound.mem_handed hg hy
    have hroom := hsound.room
    rw [hxy] at hx
    have := hhanded y hx (by omega) (by omega)
    rw [hnext] at hvalue
    omega

/-- **Every step keeps the invariant.** -/
theorem kept_step {fl : FloatOps} {prog : Program} {tries : Nat} {schemas : SchemaCatalog}
    {checker : BehaviorChecker} (hg : GrantsSound grants) {a : ActorWorld.Act} (h : CapabilitiesKept grants w)
    (hleaves : ActorWorld.LeavesCapabilities prog grants a) (hdraws : w.DrawsApart a)
    (hst : w.step fl prog grants tries schemas checker a = some w') : CapabilitiesKept grants w' := by
  cases a with
  | handle k selfEntity ops initial at' move =>
    simp only [ActorWorld.step] at hst
    split at hst
    · split at hst
      · rename_i r hrun
        cases hst
        have hr := execOps_sound hg ops hleaves.1 ⟨patchSpares_new grants, frameSound_new grants⟩ hrun
        exact h.setTurn ⟨hr.patch, hr.frame, hleaves.2⟩
      · cases hst
        exact h.setTurn ⟨patchSpares_new grants, frameSound_new grants, hleaves.2⟩
      · cases hst
        exact h
    · cases hst
  | commit k authority =>
    simp only [ActorWorld.step] at hst
    split at hst
    · rename_i patch frame move hturn
      obtain ⟨hpatch, hframe, hmove⟩ := h.turns _ (List.mem_of_getElem? hturn)
      have hapart : frame.Apart := by
        simp only [ActorWorld.DrawsApart, hturn] at hdraws
        exact hdraws
      split at hst
      · rename_i store edition hcommit
        cases hst
        rcases commitPatchChecked_ok hcommit with ⟨hno, -⟩ | ⟨-, hpre, rfl⟩
        · cases hno
        · exact (h.commit hg hpatch hframe hmove hapart hpre).setTurn (k := k) (x := .idle) trivial
      · cases hst
        exact h.setTurn trivial
      · cases hst
        exact h.setTurn trivial
    · cases hst
  | crash k =>
    cases hst
    exact h.setTurn trivial
  | other updates =>
    cases hst
    exact h.other hleaves

end Steps

/-! ## The law holds -/

section Law

variable {grants : ResolvedGrantSet} {w : ActorWorld}

/-- A row alone in its slot is what is read there. -/
theorem OneRow.rows {slot : Fact → Bool} {store : TraceStore} {rel : RelId} {t : Tuple} {q : Tuple × Diff → Bool}
    (h : OneRow slot store ⟨rel, t⟩) (hslot : ∀ e, slot ⟨rel, e.1⟩ = q e) :
    (store.rowsAt rel store.current).filter q = [(t, 1)] := by
  refine ((store.sorted_rowsAt rel store.current).filter q).ext (List.pairwise_singleton _ _) fun e => ?_
  rw [List.mem_filter, List.mem_singleton]
  constructor
  · rintro ⟨hmem, hq⟩
    obtain ⟨hne, hw⟩ := TraceStore.mem_rowsAt.1 hmem
    rw [← hslot] at hq
    have hweight := h.2 _ hq
    rw [hw] at hweight
    split_ifs at hweight with heq
    · exact Prod.ext (Fact.mk.inj heq).2 hweight
    · exact absurd hweight hne
  · rintro rfl
    have hweight := h.2 _ h.1
    rw [if_pos rfl] at hweight
    exact ⟨TraceStore.mem_rowsAt.2 ⟨one_ne_zero, hweight⟩, by rw [← hslot]; exact h.1⟩

theorem CapabilitiesKept.law (hg : GrantsSound grants) (h : CapabilitiesKept grants w) : CapabilityLaw grants w := by
  have hcounter : ∀ {n counter first last}, grants.get n = some (.allocate counter first last) →
      ∃ next : Int64, first.toInt ≤ next.toInt ∧ next.toInt ≤ last.toInt + 1 ∧
        w.store.rowsAt counter w.store.current = [(⟨[.int next]⟩, 1)] := by
    intro n counter first last hget
    obtain ⟨next, hfirst, hlast, hrow, -⟩ := h.counters hget
    have hrows := hrow.rows (q := fun _ => true) fun e => by simp [counterSlot]
    rw [filter_eq_self_of fun _ _ => rfl] at hrows
    exact ⟨next, hfirst, hlast, hrows⟩
  have hgenerator : ∀ {n rel owner algorithm}, grants.get n = some (.random rel owner algorithm) →
      ∃ state : Int64, state ≠ 0 ∧
        (w.store.rowsAt rel w.store.current).filter (fun e => e.1.cells.head? = some (.ent owner))
          = [(⟨[.ent owner, .int state]⟩, 1)] := by
    intro n rel owner algorithm hget
    obtain ⟨state, hne, hrow⟩ := h.generators hget
    exact ⟨state, hne, hrow.rows fun e => by simp [generatorSlot]⟩
  refine ⟨hcounter, hgenerator, h.once, fun {n grant} hget => ?_⟩
  cases grant with
  | allocate counter first last =>
    obtain ⟨next, hfirst, hlast, hrows⟩ := hcounter hget
    have hrange := hg.range hget
    obtain ⟨stop, hchecked, hstop⟩ := checked_succ hrange.2.2
    show validateCounter ⟨w.store, w.store.current⟩ counter first last = .ok ()
    rw [validateCounter, Snapshot.read, TraceStore.readAt_current, hrows]
    show (if _ then _ else _) = _
    rw [hchecked, if_neg]
    rw [not_or, decide_eq_true_eq, Int64.lt_iff_toInt_lt, Int64.lt_iff_toInt_lt, hstop]
    omega
  | random rel owner algorithm =>
    obtain ⟨state, hne, hrows⟩ := hgenerator hget
    refine ⟨state, ?_⟩
    have hfilter : (w.store.rowsAt rel w.store.current).filter
        (fun e => e.2 ≠ 0 ∧ e.1.cells.head? = some (.ent owner)) = [(⟨[.ent owner, .int state]⟩, 1)] := by
      rw [← hrows]
      refine List.filter_congr fun e he => ?_
      simp [w.store.weighted_rowsAt rel w.store.current e he]
    rw [readRngState, Snapshot.read, TraceStore.readAt_current]
    dsimp only
    rw [hfilter]
    exact if_neg hne
  | schedule => trivial

/-- The bootstrap of a package is the state of its capabilities. -/
theorem kept_start (hg : GrantsSound grants) {updates : List (RelId × Tuple × Diff)} (h : Seeds grants updates) (n : Nat) :
    CapabilitiesKept grants (.start (TraceStore.empty.commit updates) n) := by
  have hweight : ∀ rel t, (TraceStore.empty.commit updates).weight rel t = netOn rel t updates := fun rel t => by
    rw [TraceStore.weight_commit]
    exact zero_add _
  refine ⟨fun {m counter first last} hget => ⟨first, le_rfl, ?_, ⟨decide_eq_true rfl, fun g hin => ?_⟩,
    fun e he => absurd he List.not_mem_nil⟩, fun {m rel owner algorithm} hget => ?_,
    fun e he => absurd he List.not_mem_nil, List.nodup_nil, fun x hx => ?_⟩
  · have := Int64.le_iff_toInt_le.1 (hg.range hget).2.1
    omega
  · obtain ⟨rel, t⟩ := g
    obtain rfl : rel = counter := of_decide_eq_true hin
    refine (hweight rel t).trans ((h.counters hget t).trans ?_)
    simp
  · obtain ⟨seed, hne, hrow⟩ := h.generators hget
    refine ⟨seed, hne, by simp [generatorSlot], fun g hin => ?_⟩
    obtain ⟨r, t⟩ := g
    obtain ⟨hr, ht⟩ : r = rel ∧ t.cells.head? = some (.ent owner) := of_decide_eq_true hin
    subst hr
    refine (hweight r t).trans ((hrow t ht).trans ?_)
    simp
  · rw [List.eq_of_mem_replicate hx]
    trivial

end Law

/-- **Where no committed message drew from two generators over one row, the state of the
capabilities is kept**, whatever the actors of an installed package do and however they
race. -/
theorem capabilities_kept (d : CapabilityDecls) (base : Nat) (w w' : WorldStore) (p : Package)
    (requirements : List CapabilityRequirement) (hw : w.Apart) (hempty : w.trace = TraceStore.empty)
    (hload : loadPackage base d.source w = (w', .ok p)) (hreq : d.requirements = .ok requirements)
    (targets : String → String → Option (Entity × RelId)) (fl : FloatOps) (prog : Program) (tries : Nat)
    (schemas : SchemaCatalog) (checker : BehaviorChecker) (n : Nat) (v : ActorWorld)
    (hrun : Run (ActorWorld.step fl prog (resolveGrants p targets requirements) tries schemas checker)
      (fun v a => ActorWorld.LeavesCapabilities prog (resolveGrants p targets requirements) a ∧ v.DrawsApart a)
      (.start w'.trace n) v) : CapabilityLaw (resolveGrants p targets requirements) v := by
  obtain ⟨w₁, updates, hcompile, htrace, hperm⟩ := loadPackage_fresh hempty hload
  obtain ⟨requirements', facts, hok⟩ := accepted_of_compile hcompile
  obtain rfl : requirements = requirements' := Except.ok.inj (hreq.symm.trans hok.compiled)
  have hg : GrantsSound (resolveGrants p targets requirements) := accepted_grants hw hcompile hok
  have hseeds : Seeds (resolveGrants p targets requirements) updates := accepted_seeds hw hcompile hok hperm
  rw [htrace] at hrun
  exact (hrun.invariant (I := CapabilitiesKept _) (kept_start hg hseeds n) fun v a v' hv hok hst =>
    kept_step hg hv hok.1 hok.2 hst).law hg

/-! ## Two generators over one row -/

/-- A package with an allocator, and with two generators over one row. -/
def dicePackage : CapabilityDecls where
  entities := [("world", ⟨1⟩)]
  requires := [.allocate "thing" "next" 100 199, .random "dice" "rng" "world" "xorshift64star_v1",
    .random "coin" "rng" "world" "xorshift64star_v1"]
  bootstrap := [("next", [.int 100]), ("rng", [.entity "world", .int 7])]
  rest := {
    header := .ok ()
    rels := [("next", .ok counterSchema.columns), ("rng", .ok rngSchema.columns)]
    views := .ok ()
    stored := []
    words := .ok ()
    behaviors := .ok ()
    bootstrap := []
    checks := .ok ()
    maintainers := .ok ()
    marker := ⟨[.text "dice", .int 1, .bytes [1]]⟩ }
  stored_cursor := nofun

def emptyWorld : WorldStore := ⟨TraceStore.empty, [], SchemaRegistry.empty⟩

def diceWorld : WorldStore := (loadPackage 10 dicePackage.source emptyWorld).1

def diceLoaded : Package where
  rels := [⟨"next", 10, counterSchema.columns⟩, ⟨"rng", 11, rngSchema.columns⟩,
    ⟨installMarkerRelation, 12, markerColumns⟩]
  markerRelation := 12
  bootstrapRows := [(10, ⟨[.int 100]⟩, 1), (11, ⟨[.ent ⟨1⟩, .int 7]⟩, 1)]

def diceRequirements : List CapabilityRequirement :=
  [.allocate "thing" "next" 100 199, .random "dice" "rng" ⟨1⟩ "xorshift64star_v1",
    .random "coin" "rng" ⟨1⟩ "xorshift64star_v1"]

theorem dice_loads : loadPackage 10 dicePackage.source emptyWorld = (diceWorld, .ok diceLoaded) := rfl

theorem dice_requirements : dicePackage.requirements = .ok diceRequirements := rfl

def diceGrants : ResolvedGrantSet := resolveGrants diceLoaded (fun _ _ => none) diceRequirements

def diceProgram : Program := ⟨diceLoaded.rels, [], [], [], none⟩

def noFloats : FloatOps :=
  ⟨fun _ => none, fun _ => none, fun _ _ => none, fun _ _ => none, fun _ _ => none, fun _ _ => none, fun _ _ => none,
    fun _ _ => none, fun _ _ => none⟩

/-- Draws from both generators. -/
def rolls : List BehaviorOp :=
  [.invokeCapability "dice" [.value (.literal (.int 6))] ["a"],
    .invokeCapability "coin" [.value (.literal (.int 2))] ["b"]]

/-- Makes a thing, and draws from one generator. -/
def makes : List BehaviorOp :=
  [.invokeCapability "thing" [] ["x"], .invokeCapability "dice" [.value (.literal (.int 6))] ["a"]]

/-- An actor handles a message. -/
def handles (k : Nat) (ops : List BehaviorOp) (at' : Nat) : ActorWorld.Act :=
  .handle k ⟨1⟩ ops [] at' ⟨20, none, cursorTuple ⟨1⟩ 1⟩

def commits (k : Nat) : ActorWorld.Act := .commit k ⟨0, [⟨10, none⟩, ⟨11, none⟩]⟩

def diceStep : ActorWorld → ActorWorld.Act → Option ActorWorld :=
  ActorWorld.step noFloats diceProgram diceGrants 8 noSchemas noBehaviorCheck

theorem sparesAll_invokes {prog : Program} {grants : ResolvedGrantSet} : ∀ {ops : List BehaviorOp},
    (∀ op ∈ ops, ∃ c arguments destinations, op = .invokeCapability c arguments destinations) →
      SparesAll prog grants ops := by
  intro ops
  induction ops with
  | nil => exact fun _ op hop => absurd hop not_occurs_nil
  | cons o ops ih =>
    intro h op hop
    obtain ⟨c, arguments, destinations, rfl⟩ := h o List.mem_cons_self
    rcases occurs_cons.1 hop with hop | hop
    · rw [occurs_single hop fun _ _ _ heq => by cases heq]
      trivial
    · exact ih (fun x hx => h x (List.mem_cons_of_mem _ hx)) op hop

theorem dice_holds {rel : RelId} (h : diceGrants.Holds rel) : rel ∈ diceLoaded.rels.map (·.id) := by
  rcases h with ⟨n, first, last, hget⟩ | ⟨n, owner, algorithm, hget⟩
  · obtain ⟨name, -, hid⟩ := allocate_of_grant hget
    obtain ⟨r, hr, -, rfl⟩ := mem_of_packageRelId hid
    exact List.mem_map_of_mem hr
  · obtain ⟨name, -, hid⟩ := random_of_grant hget
    obtain ⟨r, hr, -, rfl⟩ := mem_of_packageRelId hid
    exact List.mem_map_of_mem hr

theorem handles_leaves (k at' : Nat) {ops : List BehaviorOp}
    (h : ∀ op ∈ ops, ∃ c arguments destinations, op = .invokeCapability c arguments destinations) :
    ActorWorld.LeavesCapabilities diceProgram diceGrants (handles k ops at') :=
  ⟨sparesAll_invokes h, fun hheld => absurd (dice_holds hheld) (by decide)⟩

theorem rolls_invokes : ∀ op ∈ rolls, ∃ c arguments destinations, op = .invokeCapability c arguments destinations := by
  simp [rolls]

theorem makes_invokes : ∀ op ∈ makes, ∃ c arguments destinations, op = .invokeCapability c arguments destinations := by
  simp [makes]

/-- Two actors make a thing each, and race; the one that lost handles its message again. -/
def racing : List ActorWorld.Act := [handles 0 makes 1, handles 1 makes 1, commits 0, commits 1, handles 1 makes 2, commits 1]

theorem racing_leaves : ∀ a ∈ racing, ActorWorld.LeavesCapabilities diceProgram diceGrants a := by
  intro a ha
  simp only [racing, List.mem_cons, List.not_mem_nil, or_false] at ha
  rcases ha with rfl | rfl | rfl | rfl | rfl | rfl
  · exact handles_leaves 0 1 makes_invokes
  · exact handles_leaves 1 1 makes_invokes
  · trivial
  · trivial
  · exact handles_leaves 1 2 makes_invokes
  · trivial

instance (w : ActorWorld) (a : ActorWorld.Act) : Decidable (w.DrawsApart a) := by
  unfold ActorWorld.DrawsApart
  split
  · split <;> infer_instance
  · infer_instance

/-- **Where two generators share a row, a message that draws from both leaves it
unreadable.** -/
theorem capabilities_shared : ¬ ∀ (d : CapabilityDecls) (base : Nat) (w w' : WorldStore) (p : Package)
    (requirements : List CapabilityRequirement), w.Apart → w.trace = TraceStore.empty →
      loadPackage base d.source w = (w', .ok p) → d.requirements = .ok requirements →
        ∀ (targets : String → String → Option (Entity × RelId)) (fl : FloatOps) (prog : Program) (tries : Nat)
          (schemas : SchemaCatalog) (checker : BehaviorChecker) (n : Nat) (v : ActorWorld),
          Run (ActorWorld.step fl prog (resolveGrants p targets requirements) tries schemas checker)
            (fun _ a => ActorWorld.LeavesCapabilities prog (resolveGrants p targets requirements) a)
            (.start w'.trace n) v → CapabilityLaw (resolveGrants p targets requirements) v := by
  intro h
  have hno : ((executeChecked diceStep (fun _ _ => true) (.start diceWorld.trace 1)
      [handles 0 rolls 1, commits 0]).map fun v =>
        (readRngState ⟨v.store, v.store.current⟩ 11 ⟨1⟩ "dice").toOption.isSome) = some false := by decide +kernel
  obtain ⟨v, hv, hread⟩ := Option.map_eq_some_iff.1 hno
  have hrun : Run diceStep (fun _ a => ActorWorld.LeavesCapabilities diceProgram diceGrants a)
      (.start diceWorld.trace 1) v := by
    refine Run.ofChecked _ (fun a ha s _ => ?_) _ hv
    simp only [List.mem_cons, List.not_mem_nil, or_false] at ha
    rcases ha with rfl | rfl
    · exact handles_leaves 0 1 rolls_invokes
    · trivial
  have hlaw := h dicePackage 10 emptyWorld diceWorld diceLoaded diceRequirements List.nodup_nil rfl dice_loads
    dice_requirements (fun _ _ => none) noFloats diceProgram 8 noSchemas noBehaviorCheck 1 v hrun
  have hget : diceGrants.get "dice" = some (.random 11 ⟨1⟩ "xorshift64star_v1") := rfl
  obtain ⟨state, hok⟩ := hlaw.readable hget
  rw [hok] at hread
  cases hread

theorem capabilities_kept_racing : ∃ v,
    Run diceStep (fun v a => ActorWorld.LeavesCapabilities diceProgram diceGrants a ∧ v.DrawsApart a)
      (.start diceWorld.trace 2) v ∧ v.handed = [⟨100⟩, ⟨101⟩] ∧ CapabilityLaw diceGrants v := by
  have hhanded : (executeChecked diceStep (fun w a => decide (w.DrawsApart a)) (.start diceWorld.trace 2) racing).map
      (·.handed) = some [⟨100⟩, ⟨101⟩] := by decide +kernel
  obtain ⟨v, hv, hv'⟩ := Option.map_eq_some_iff.1 hhanded
  have hrun : Run diceStep (fun v a => ActorWorld.LeavesCapabilities diceProgram diceGrants a ∧ v.DrawsApart a)
      (.start diceWorld.trace 2) v :=
    Run.ofChecked racing (fun a ha s hs => ⟨racing_leaves a ha, of_decide_eq_true hs⟩) _ hv
  exact ⟨v, hrun, hv', capabilities_kept dicePackage 10 emptyWorld diceWorld diceLoaded diceRequirements
    List.nodup_nil rfl dice_loads dice_requirements (fun _ _ => none) noFloats diceProgram 8 noSchemas
    noBehaviorCheck 2 v hrun⟩

end Grmpl

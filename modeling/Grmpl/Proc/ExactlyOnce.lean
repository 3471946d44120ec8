import Grmpl.Lib.Numbered
import Grmpl.Proc.Process

/-!
# Exactly-once processing

The patch of a message moves the cursor past it, but is not conditional on the
cursor it was computed from. Two drivers that read the same cursor both commit the
same message; one that finds the cursor where it was prepared cannot.

* `ExactlyOnce.position`: the cursor reads as the number of messages committed.
* `exactlyOnce_commit`: a commit that finds the cursor in place counts its message.
* `inbox_exactly_once`: the run.
* `inbox_processed_twice`: two drivers, one message.
-/

open OrdMap Runs Numbering

namespace Grmpl

variable {p : Process} {schemas : SchemaCatalog} {checker : BehaviorChecker} {w w' : Inbox}
  {a : Inbox.Act}

/-- A search where every hit is the same. -/
theorem findSome?_of_all {α β : Type} {f : α → Option β} {l : List α} {v : β}
    (hall : ∀ x ∈ l, ∀ y, f x = some y → y = v) (hex : ∃ x ∈ l, (f x).isSome = true) :
    l.findSome? f = some v := by
  cases h : l.findSome? f with
  | none =>
    obtain ⟨x, hx, hsome⟩ := hex
    rw [List.findSome?_eq_none_iff.1 h x hx] at hsome
    exact absurd hsome (by simp)
  | some y =>
    obtain ⟨x, hx, hy⟩ := List.exists_of_findSome?_eq_some h
    rw [hall x hx y hy]

/-- Only a row of the process's own cursor gives a position. -/
theorem Process.positionIn_eq_some {row : Tuple × Diff} {pos : Int64}
    (h : p.positionIn row = some pos) : 0 < row.2 ∧ p.Own p.cursorRel row.1 ∧
      row.1.cells[1]? = some (.int pos) := by
  unfold Process.positionIn at h
  split_ifs at h with hrow
  split at h
  · rename_i pos' hpos
    cases h
    exact ⟨hrow.1, ⟨rfl, hrow.2⟩, hpos⟩
  · cases h

/-- The cursor reads as the number of messages committed. -/
theorem ExactlyOnce.position (h : ExactlyOnce p w) :
    p.position w.store = .ok (Int64.ofNat w.committed.length) := by
  have hrow : ∀ row ∈ w.store.rowsAt p.cursorRel w.store.current, ∀ pos, p.positionIn row = some pos →
      w.committed ≠ [] ∧ pos = Int64.ofNat w.committed.length := by
    rintro ⟨t, d⟩ hmem pos hpos
    obtain ⟨hd, hown, hcell⟩ := Process.positionIn_eq_some hpos
    have hw := (TraceStore.mem_rowsAt.1 hmem).2
    rw [h.cursor t hown] at hw
    split_ifs at hw with hc
    · obtain ⟨hne, rfl⟩ := hc
      exact ⟨hne, (Value.int.inj (Option.some.inj hcell)).symm⟩
    · exact absurd hw hd.ne
  have hread : p.position w.store
      = .ok (((w.store.rowsAt p.cursorRel w.store.current).findSome? p.positionIn).getD 0) := by
    rw [Process.position, TraceStore.readAt_current]
    rfl
  rw [hread]
  congr 1
  by_cases hnil : w.committed = []
  · have hnone : (w.store.rowsAt p.cursorRel w.store.current).findSome? p.positionIn = none := by
      rw [List.findSome?_eq_none_iff]
      intro row hmem
      by_contra hne
      obtain ⟨pos, hpos⟩ := Option.ne_none_iff_exists'.1 hne
      exact (hrow row hmem pos hpos).1 hnil
    rw [hnone, hnil]
    rfl
  · have hmem : (cursorTuple p.entity (Int64.ofNat w.committed.length), (1 : Diff))
        ∈ w.store.rowsAt p.cursorRel w.store.current := by
      refine TraceStore.mem_rowsAt.2 ⟨by decide, ?_⟩
      rw [h.cursor _ ⟨rfl, rfl⟩, if_pos ⟨hnil, rfl⟩]
    have hsome := findSome?_of_all (fun row hrowmem pos hpos => (hrow row hrowmem pos hpos).2)
      ⟨_, hmem, by simp [Process.positionIn, cursorTuple]⟩
    rw [hsome]
    rfl

/-- A patch is its updates without the cursor's move, and the move. -/
theorem Patch.updates_eq (patch : Patch) : patch.updates
    = { patch with cursorAdvance := none }.updates
      ++ patch.cursorAdvance.toList.flatMap CursorMove.updates := by
  simp [Patch.updates, Patch.emitted]

/-- What a message's patch does to the cursor. -/
theorem netOn_patch {patch : Patch} {seq : Int64} (hmove : patch.cursorAdvance = some (p.cursorMove seq))
    (hspares : p.Spares { patch with cursorAdvance := none }.updates) {t : Tuple}
    (ht : p.Own p.cursorRel t) : netOn p.cursorRel t patch.updates
      = (if 0 < seq ∧ t = cursorTuple p.entity seq then -1 else 0)
        + if t = cursorTuple p.entity (seq + 1) then 1 else 0 := by
  have hnone : netOn p.cursorRel t { patch with cursorAdvance := none }.updates = 0 := by
    refine netOn_eq_zero fun u hu hut => hspares u hu ?_
    rw [hut.1, hut.2]
    exact ht
  rw [Patch.updates_eq, netOn_append, hnone, zero_add, hmove]
  have hflat : (some (p.cursorMove seq)).toList.flatMap CursorMove.updates
      = (p.cursorMove seq).updates := by simp
  rw [hflat]
  unfold CursorMove.updates Process.cursorMove
  by_cases hpos : 0 < seq
  · simp [hpos, eq_comm]
  · simp [hpos, eq_comm]

/-- A commit that finds the cursor in place counts its message. -/
theorem exactlyOnce_commit (h : ExactlyOnce p w) (hlt : w.committed.length + 1 < 2 ^ 63)
    {patch : Patch} (hmove : patch.cursorAdvance
      = some (p.cursorMove (Int64.ofNat w.committed.length)))
    (hspares : p.Spares { patch with cursorAdvance := none }.updates) (drivers : List Driver) :
    ExactlyOnce p ⟨w.store.commit patch.updates, drivers,
      w.committed ++ [Int64.ofNat w.committed.length]⟩ := by
  have hlen : (w.committed ++ [Int64.ofNat w.committed.length]).length = w.committed.length + 1 := by
    simp
  have hnext : Int64.ofNat (w.committed.length + 1) = Int64.ofNat w.committed.length + 1 := by
    rw [Int64.ofNat_add]
    rfl
  have hfresh : Int64.ofNat w.committed.length ∉ w.committed := by
    intro hmem
    rw [h.order] at hmem
    obtain ⟨m, hm, heq⟩ := List.mem_map.1 hmem
    rw [List.mem_range] at hm
    have := ofNat_inj (by omega) (by simp; omega) heq
    simp at this
    omega
  refine ⟨?_, ?_, fun t ht => ?_⟩
  · show w.committed ++ _ = (List.range (w.committed ++ _).length).map Int64.ofNat
    rw [hlen, List.range_succ, List.map_append, ← h.order]
    rfl
  · show (w.committed ++ _).Nodup
    rw [List.nodup_append]
    refine ⟨h.once, by simp, fun x hx y hy => ?_⟩
    rw [List.mem_singleton.1 hy]
    rintro rfl
    exact hfresh hx
  · have hpos : 0 < Int64.ofNat w.committed.length ↔ w.committed ≠ [] := by
      rw [Int64.lt_iff_toInt_lt, Int64.toInt_ofNat_of_lt (by omega)]
      simp [List.length_pos_iff]
    have hne : cursorTuple p.entity (Int64.ofNat w.committed.length)
        ≠ cursorTuple p.entity (Int64.ofNat w.committed.length + 1) := by
      intro heq
      have hcell : Int64.ofNat w.committed.length = Int64.ofNat w.committed.length + 1 := by
        simpa only [cursorTuple, Tuple.mk.injEq, List.cons.injEq, Value.int.injEq, and_true,
          true_and] using heq
      rw [← hnext] at hcell
      have := ofNat_inj (by omega) hlt hcell
      omega
    show (w.store.commit patch.updates).weight p.cursorRel t = _
    rw [TraceStore.weight_commit, h.cursor t ht, netOn_patch hmove hspares ht]
    show _ = if w.committed ++ _ ≠ [] ∧ t = cursorTuple p.entity
      (Int64.ofNat (w.committed ++ [Int64.ofNat w.committed.length]).length) then (1 : Diff) else 0
    rw [hlen, hnext]
    by_cases hold : t = cursorTuple p.entity (Int64.ofNat w.committed.length)
    · subst hold
      by_cases hnil : w.committed = [] <;> simp [hpos, hne, hnil]
    · simp [hold]

/-- Somebody else's commit leaves the cursor. -/
theorem exactlyOnce_other (h : ExactlyOnce p w) {updates : List (RelId × Tuple × Diff)}
    (hspares : p.Spares updates) :
    ExactlyOnce p { w with store := w.store.commit updates } := by
  refine ⟨h.order, h.once, fun t ht => ?_⟩
  show (w.store.commit updates).weight p.cursorRel t = _
  rw [TraceStore.weight_commit, netOn_eq_zero fun u hu hut => hspares u hu ?_, add_zero]
  · exact h.cursor t ht
  · rw [hut.1, hut.2]
    exact ht

theorem exactlyOnce_step (h : ExactlyOnce p w) (hp : PatchesMove p w) (hlt : w.committed.length < 2 ^ 63)
    (hok : CursorInPlace p w a) (hd : Inbox.Does p w a w') :
    ExactlyOnce p w' ∧ w'.committed.length < 2 ^ 63 := by
  cases hd with
  | stay => exact ⟨h, hlt⟩
  | rest _ d => exact ⟨⟨h.order, h.once, h.cursor⟩, hlt⟩
  | position d pos => exact ⟨⟨h.order, h.once, h.cursor⟩, hlt⟩
  | prepare d pos patch hpatch => exact ⟨⟨h.order, h.once, h.cursor⟩, hlt⟩
  | commit d x hx =>
    obtain ⟨hmove, hspares⟩ := hp d x hx
    simp only [CursorInPlace, hx] at hok
    obtain ⟨hplace, hroom⟩ := hok
    -- the cursor is where the patch was prepared, so the patch is the next message's
    have hseq : x.seq = Int64.ofNat w.committed.length := by
      rw [h.position] at hplace
      exact (Except.ok.inj hplace).symm
    rw [hseq, Int64.toInt_ofNat_of_lt hlt] at hroom
    rw [hseq] at hmove ⊢
    refine ⟨exactlyOnce_commit h (by exact_mod_cast hroom) hmove hspares _, ?_⟩
    show (w.committed ++ _).length < 2 ^ 63
    rw [List.length_append]
    exact_mod_cast hroom
  | other updates => exact ⟨exactlyOnce_other h hok, hlt⟩

/-- Before any driver has done anything. -/
theorem inbox_start {store : TraceStore}
    (hfresh : ∀ t, p.Own p.cursorRel t → store.weight p.cursorRel t = 0) (n : Nat) :
    (ExactlyOnce p ⟨store, .replicate n .idle, []⟩ ∧ ([] : List Int64).length < 2 ^ 63) ∧
      PatchesMove p ⟨store, .replicate n .idle, []⟩ := by
  refine ⟨⟨⟨rfl, List.nodup_nil, fun t ht => ?_⟩, by simp⟩, fun d x hx => ?_⟩
  · rw [if_neg fun hc => hc.1 rfl]
    exact hfresh t ht
  · have := List.mem_of_getElem? hx
    exact absurd (List.eq_of_mem_replicate this) (by simp)

/-- **A process commits its messages exactly once and in order**, in every run of any
number of drivers where each commit finds the cursor where its patch was prepared. -/
theorem inbox_exactly_once (hb : p.LeavesCursor) {store : TraceStore}
    (hfresh : ∀ t, p.Own p.cursorRel t → store.weight p.cursorRel t = 0) (n : Nat)
    (hrun : Run (Inbox.step p schemas checker) (CursorInPlace p) ⟨store, .replicate n .idle, []⟩ w) :
    ExactlyOnce p w := by
  have hinv : (ExactlyOnce p w ∧ w.committed.length < 2 ^ 63) ∧ PatchesMove p w := by
    refine hrun.invariant (I := fun v => (ExactlyOnce p v ∧ v.committed.length < 2 ^ 63) ∧
      PatchesMove p v) (inbox_start hfresh n) ?_
    rintro v b v' ⟨⟨hv, hlt⟩, hp⟩ hok hst
    have hd := Inbox.step_does hst
    exact ⟨exactlyOnce_step hv hp hlt hok hd, patchesMove_step hb hp hd⟩
  exact hinv.1.1

/-! ## One message, two drivers -/

/-- A process that records each message's body. -/
def recorder : Process where
  entity := ⟨1⟩
  authority := ⟨0, [⟨12, none⟩]⟩
  inbox := 10
  cursorRel := 11
  behavior := fun _ body => .ok (Patch.new.assert ⟨12, body⟩)

/-- A process whose behavior writes its own cursor relation. -/
def meddler : Process where
  entity := ⟨1⟩
  authority := ⟨0, [⟨11, none⟩]⟩
  inbox := 10
  cursorRel := 11
  behavior := fun _ _ => .ok (Patch.new.assert ⟨11, cursorTuple ⟨1⟩ 5⟩)

/-- A message of the process at position 0. -/
def firstMessage : List (RelId × Tuple × Diff) :=
  [(10, ⟨[.ent ⟨1⟩, .int 0, .tuple [.text "hi"]]⟩, 1)]

/-- Two drivers read the cursor before either has committed. -/
def racingDrivers : List Inbox.Act :=
  [.other firstMessage, .position 0, .position 1, .prepare 0, .prepare 1, .commit 0, .commit 1]

/-- One driver takes one message. -/
def loneDriver : List Inbox.Act := [.other firstMessage, .position 0, .prepare 0, .commit 0]

/-- A fresh process has no cursor row, a behavior may write a second one, and two
drivers that read the same cursor both commit the message there. -/
theorem inbox_processed_twice :
    recorder.position TraceStore.empty = .ok 0 ∧
      TraceStore.empty.weight 11 (cursorTuple ⟨1⟩ 0) = 0 ∧
      (∃ w, Run (Inbox.step meddler noSchemas noBehaviorCheck) Any ⟨TraceStore.empty, [.idle], []⟩ w ∧
        w.store.weight 11 (cursorTuple ⟨1⟩ 1) = 1 ∧ w.store.weight 11 (cursorTuple ⟨1⟩ 5) = 1) ∧
      ∃ w, Run (Inbox.step recorder noSchemas noBehaviorCheck) Any
          ⟨TraceStore.empty, [.idle, .idle], []⟩ w ∧
        w.committed = [0, 0] ∧ w.store.weight 11 (cursorTuple ⟨1⟩ 1) = 2 ∧
          w.store.weight 12 ⟨[.text "hi"]⟩ = 2 := by
  have hex : (execute (Inbox.step recorder noSchemas noBehaviorCheck)
      ⟨TraceStore.empty, [.idle, .idle], []⟩ racingDrivers).isSome = true := by decide +kernel
  have hlone : (execute (Inbox.step meddler noSchemas noBehaviorCheck) ⟨TraceStore.empty, [.idle], []⟩
      loneDriver).isSome = true := by decide +kernel
  exact ⟨rfl, rfl, ⟨_, .after hlone, by decide +kernel, by decide +kernel⟩, _, .after hex,
    by decide +kernel, by decide +kernel, by decide +kernel⟩

theorem recorder_leavesCursor : recorder.LeavesCursor := by
  intro snap body patch h u hu
  cases h
  obtain rfl : u = (12, body, 1) := by simpa [Patch.updates, Patch.emitted, Patch.new, Patch.assert] using hu
  exact fun hown => absurd (show (12 : Nat) = 11 from hown.1) (by decide)

/-- Two drivers take turns, one crashing between its prepare and its commit. -/
def takingTurns : List Inbox.Act :=
  [.other firstMessage, .position 0, .prepare 0, .crash 0, .position 1, .prepare 1, .commit 1,
    .position 0, .prepare 0]

theorem inbox_exactly_once_sample : ∃ w,
    Run (Inbox.step recorder noSchemas noBehaviorCheck) (CursorInPlace recorder)
        ⟨TraceStore.empty, .replicate 2 .idle, []⟩ w ∧
      w.committed = [0] ∧ ExactlyOnce recorder w := by
  have hex : (executeChecked (Inbox.step recorder noSchemas noBehaviorCheck)
      (fun w a => decide (CursorInPlace recorder w a)) ⟨TraceStore.empty, .replicate 2 .idle, []⟩
      takingTurns).isSome = true := by decide +kernel
  have hrun : Run (Inbox.step recorder noSchemas noBehaviorCheck) (CursorInPlace recorder)
      ⟨TraceStore.empty, .replicate 2 .idle, []⟩ _ := Run.afterChecked (by simp) hex
  exact ⟨_, hrun, by decide +kernel,
    inbox_exactly_once recorder_leavesCursor (fun _ _ => rfl) 2 hrun⟩

end Grmpl

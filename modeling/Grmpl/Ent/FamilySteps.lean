import Grmpl.Ent.Family
import Grmpl.Ent.StoreHistory

/-!
# What a step of a world does

Every step is one of a few things, each with its guard. `Does` lists them, so an
invariant is proved by cases on what happened and never unfolds `World.step`.

* `Does`, `step_does`: the list, and that a step is on it.
* `World.LiveHandle`: the handles that can be read.
* `mem_setCall`, `liveHandle_setHandle`: what the updates of a world leave.
-/

open OrdMap

namespace Grmpl

variable {F C : Type} [DecidableEq C] [Framed F C] [FactEnf F]

/-- What a step does, with its guard. -/
inductive Does (w : World F C) : Action → World F C → Prop
  | refused (h : Nat) (pre updates) : Does w (.commit h pre updates) w
  | commit (h : Nat) (pre updates) (k : Handle F) : w.freeHandle h = some k →
      Does w (.commit h pre updates)
        (((w.setHandle h (some { k with
          inner := k.inner.apply (k.inner.current + 1) pre updates none })).stageIn k.branch
            (k.inner.apply (k.inner.current + 1) pre updates none)).addCall
              ⟨.commit h k.branch (w.dur.staged + 1) updates
                (k.inner.apply (k.inner.current + 1) pre updates none),
                .waiting (some (w.dur.staged + 1))⟩)
  | flush : Does w .flush (w.addCall ⟨.flush, .waiting none⟩)
  | fork (h at' : Nat) (k : Handle F) : w.freeHandle h = some k → k.inner.watermark ≤ at' →
      Does w (.fork h at')
        ((w.setHandle h (some { k with held := true })).addCall ⟨.fork h at', .waiting none⟩)
  | forkFailed (c h at' : Nat) (k : Handle F) (e : Error) :
      w.calls[c]? = some ⟨.fork h at', .returned (.error e)⟩ → w.handles[h]? = some (some k) →
      Does w (.forkStage c)
        ((w.setHandle h (some { k with held := false })).setCall c ⟨.fork h at', .over⟩)
  | forkStage (c h at' : Nat) (k : Handle F) :
      w.calls[c]? = some ⟨.fork h at', .returned (.ok ())⟩ → w.handles[h]? = some (some k) →
      Does w (.forkStage c)
        (((w.setHandle h (some { k with held := false })).spawn (w.root.dag.fork k.branch at')
          (k.inner.forkAt at')).setCall c
            ⟨.spawn (w.root.dag.fork k.branch at').2 (w.dur.staged + 1) (k.inner.forkAt at'),
              .waiting (some (w.dur.staged + 1))⟩)
  | conflict (h h' : Nat) (todo) : Does w (.merge h h' todo) w
  | merge (h h' : Nat) (todo) (k : Handle F) (theirs merged : Inner F) (dag : Dag) :
      w.freeHandle h = some k → k.inner.merge theirs todo = some merged →
      (∃ parents, dag = ⟨put w.root.dag.next parents w.root.dag.branches, w.root.dag.next + 1⟩) →
      Does w (.merge h h' todo) ((w.spawn (dag, w.root.dag.next) merged).addCall
        ⟨.spawn w.root.dag.next (w.dur.staged + 1) merged, .waiting (some (w.dur.staged + 1))⟩)
  | branch (b : BranchId) (inner : Inner F) : w.root.state b = some inner →
      Does w (.branch b) (w.on b inner)
  | adopt (c : Nat) (b : BranchId) (seq : Nat) (state : Inner F) :
      w.calls[c]? = some ⟨.spawn b seq state, .returned (.ok ())⟩ →
      Does w (.adopt c) ((w.on b state).setCall c ⟨.spawn b seq state, .over⟩)
  | drop (h : Nat) (k : Handle F) : w.freeHandle h = some k →
      Does w (.drop h) (w.setHandle h none)
  | leadNothing (c : Nat) (op : Op F) (target : Option Nat) (msg : String) :
      w.calls[c]? = some ⟨op, .waiting target⟩ → w.dur.doom target = none →
      w.dur.done target = false → w.dur.writing = false → w.dur.pending = [] →
      Does w (.lead c) (w.setCall c ⟨op, .returned (.error (.store msg))⟩)
  | lead (c : Nat) (op : Op F) (target : Option Nat) :
      w.calls[c]? = some ⟨op, .waiting target⟩ → w.dur.doom target = none →
      w.dur.done target = false → w.dur.writing = false → w.dur.pending ≠ [] →
      Does w (.lead c) ({ w with
        group := w.dur.pending
        dur := { w.dur with pending := [], writing := true } }.setCall c ⟨op, .leading target⟩)
  | wrote (c : Nat) (op : Op F) (target : Option Nat) (outcome : Outcome) :
      w.calls[c]? = some ⟨op, .leading target⟩ →
      Does w (.wrote c outcome) (w.endWrite c op target outcome)
  | doomed (c : Nat) (op : Op F) (target : Option Nat) (msg : String) :
      w.calls[c]? = some ⟨op, .waiting target⟩ → w.dur.doom target = some msg →
      Does w (.finish c) (w.setCall c ⟨op, .returned (.error (.store msg))⟩)
  | finish (c : Nat) (op : Op F) (target : Option Nat) :
      w.calls[c]? = some ⟨op, .waiting target⟩ → w.dur.doom target = none →
      w.dur.done target = true → Does w (.finish c) (w.setCall c ⟨op, .returned (.ok ())⟩)

/-- A step does one of the things listed. -/
theorem step_does {w w' : World F C} {a : Action} (h : w.step a = some w') : Does w a w' := by
  cases a with
  | commit i pre updates =>
    obtain ⟨k, hk, h⟩ := Option.bind_eq_some_iff.1 h
    split_ifs at h <;> cases h
    · exact .commit i pre updates k hk
    · exact .refused i pre updates
  | flush =>
    cases h
    exact .flush
  | fork i at' =>
    obtain ⟨k, hk, h⟩ := Option.bind_eq_some_iff.1 h
    split_ifs at h with hw
    cases h
    exact .fork i at' k hk (by omega)
  | forkStage c =>
    simp only [World.step] at h
    split at h
    · rename_i i at' r hc
      obtain ⟨k, hk, h⟩ := Option.bind_eq_some_iff.1 h
      have hk' : w.handles[i]? = some (some k) := by
        cases hi : w.handles[i]? with
        | none => simp [hi] at hk
        | some o => simpa [hi] using hk
      cases r with
      | error e =>
        cases h
        exact .forkFailed c i at' k e hc hk'
      | ok _ =>
        cases h
        exact .forkStage c i at' k hc hk'
    · exact absurd h (by simp)
  | merge i j todo =>
    obtain ⟨k, hk, h⟩ := Option.bind_eq_some_iff.1 h
    obtain ⟨k', -, h⟩ := Option.bind_eq_some_iff.1 h
    dsimp only at h
    split_ifs at h with hheld
    all_goals
      split at h
      · cases h
        exact .conflict i j todo
      · rename_i merged hm
        cases h
        exact .merge i j todo k _ merged _ hk hm ⟨_, rfl⟩
  | branch b =>
    obtain ⟨inner, hb, rfl⟩ := Option.map_eq_some_iff.1 h
    exact .branch b inner hb
  | adopt c =>
    simp only [World.step] at h
    split at h
    · rename_i b seq state hc
      cases h
      exact .adopt c b seq state hc
    · exact absurd h (by simp)
  | drop i =>
    obtain ⟨k, hk, h⟩ := Option.bind_eq_some_iff.1 h
    cases h
    exact .drop i k hk
  | lead c =>
    simp only [World.step] at h
    split at h
    · rename_i op target hc
      split_ifs at h with hstop hempty
      · cases h
        simp only [Bool.or_eq_true, not_or, Bool.not_eq_true, Option.isSome_eq_false_iff,
          Option.isNone_iff_eq_none] at hstop
        exact .leadNothing c op target _ hc hstop.1.1 hstop.1.2 hstop.2 (by simpa using hempty)
      · cases h
        simp only [Bool.or_eq_true, not_or, Bool.not_eq_true, Option.isSome_eq_false_iff,
          Option.isNone_iff_eq_none] at hstop
        exact .lead c op target hc hstop.1.1 hstop.1.2 hstop.2 (by simpa using hempty)
    · exact absurd h (by simp)
  | wrote c outcome =>
    simp only [World.step] at h
    split at h
    · rename_i op target hc
      cases h
      exact .wrote c op target outcome hc
    · exact absurd h (by simp)
  | finish c =>
    simp only [World.step] at h
    split at h
    · rename_i op target hc
      split at h
      · rename_i msg hmsg
        cases h
        exact .doomed c op target msg hc hmsg
      · rename_i hnone
        split_ifs at h with hdone
        cases h
        exact .finish c op target hc hnone hdone
    · exact absurd h (by simp)

end Grmpl

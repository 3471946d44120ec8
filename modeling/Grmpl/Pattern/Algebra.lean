import Mathlib.Data.Finmap
import Grmpl.Core.TraceStore

/-!
# The pattern algebra

A pattern is a relation between an ordered input and what it captures of it. One engine
runs patterns over any cursor that can be moved forward and says how much is left; it
returns every way the input matches, with what each match leaves.

* `MatchInput`: cursors; `List Value`, `AstInput`, `BytesInput`, `DeltaInput`.
* `Pattern`, `runIn`: patterns and the engine.
* `Derives`: what a pattern means.
* `runIn_exact`: the engine ends, and finds what is derivable.
* `Presents`, `pattern_algebra`: and it finds the same in cursors over the same values.
-/

namespace Grmpl

/-! ## Cursors -/

/-- A cursor over an ordered input. What is left of it shrinks with every item read, and
nothing is left at the end only. -/
class MatchInput (I : Type) where
  next : I → Option (Value × I)
  measure : I → Nat
  measure_next {i rest : I} {v : Value} : next i = some (v, rest) → measure rest < measure i
  measure_end {i : I} : next i = none ↔ measure i = 0

section Kinds

variable {α : Type}

/-- A list as a cursor, each of its items surfaced as a value. -/
def nextOf (surface : α → Value) : List α → Option (Value × List α)
  | [] => none
  | a :: rest => some (surface a, rest)

theorem length_nextOf {surface : α → Value} {l rest : List α} {v : Value}
    (h : nextOf surface l = some (v, rest)) : rest.length < l.length := by
  cases l with
  | nil => cases h
  | cons a l =>
    cases h
    exact Nat.lt_succ_self _

theorem nextOf_eq_none {surface : α → Value} {l : List α} : nextOf surface l = none ↔ l.length = 0 := by
  cases l with
  | nil => exact ⟨fun _ => rfl, fun _ => rfl⟩
  | cons a l => exact ⟨nofun, nofun⟩

/-- What `nextOf` reads of a list wrapped up, wrapped up again. -/
theorem nextOf_wrap {I : Type} (wrap : List α → I) (hwrap : Function.Injective wrap) {surface : α → Value}
    {l rest : List α} {v : Value} (h : (nextOf surface l).map (fun n => (n.1, wrap n.2)) = some (v, wrap rest)) :
    rest.length < l.length := by
  obtain ⟨n, hn, heq⟩ := Option.map_eq_some_iff.1 h
  obtain ⟨rfl, hrest⟩ := Prod.mk.inj heq
  rw [← hwrap hrest]
  exact length_nextOf hn

end Kinds

/-- A row of values. -/
instance : MatchInput (List Value) where
  next := nextOf id
  measure := List.length
  measure_next := length_nextOf
  measure_end := nextOf_eq_none

/-- The children of a node. -/
structure AstInput where
  nodes : List Value

namespace AstInput

/-- A cursor over a node's children, none for a leaf. -/
def descend : Value → Option AstInput
  | .tuple children => some ⟨children⟩
  | _ => none

/-- A cursor over sibling nodes. -/
def forest (nodes : List Value) : AstInput := ⟨nodes⟩

instance : MatchInput AstInput where
  next i := (nextOf id i.nodes).map fun n => (n.1, ⟨n.2⟩)
  measure i := i.nodes.length
  measure_next := nextOf_wrap mk fun _ _ h => mk.inj h
  measure_end := Option.map_eq_none_iff.trans nextOf_eq_none

end AstInput

/-- A byte string, each byte surfaced as an integer. -/
structure BytesInput where
  bytes : List UInt8

namespace BytesInput

/-- A cursor over a value that is a byte string. -/
def of : Value → Option BytesInput
  | .bytes b => some ⟨b⟩
  | _ => none

def surface (b : UInt8) : Value := .int (Int64.ofNat b.toNat)

instance : MatchInput BytesInput where
  next i := (nextOf surface i.bytes).map fun n => (n.1, ⟨n.2⟩)
  measure i := i.bytes.length
  measure_next := nextOf_wrap mk fun _ _ h => mk.inj h
  measure_end := Option.map_eq_none_iff.trans nextOf_eq_none

end BytesInput

/-- An update as a value: its sign, its row, its edition. -/
def reifyDelta (u : Update) : Value :=
  .tuple [.int (Int64.ofInt u.diff.sign), .tuple u.tuple.cells, .int (Int64.ofNat u.edition)]

/-- A window of updates, in commit order. -/
structure DeltaInput where
  updates : List Update

namespace DeltaInput

def «over» (window : List Update) : DeltaInput := ⟨window⟩

instance : MatchInput DeltaInput where
  next i := (nextOf reifyDelta i.updates).map fun n => (n.1, ⟨n.2⟩)
  measure i := i.updates.length
  measure_next := nextOf_wrap mk fun _ _ h => mk.inj h
  measure_end := Option.map_eq_none_iff.trans nextOf_eq_none

end DeltaInput

/-! ## Patterns -/

/-- A capture variable. -/
abbrev VarId := UInt32

/-- What a match has captured. -/
abbrev Bindings := Finmap fun _ : VarId => Value

/-- A structural pattern over a sequence of values. -/
inductive Pattern where
  | lit (v : Value)
  | bind (var : VarId)
  | seq (ps : List Pattern)
  | choice (ps : List Pattern)
  | repeat_ (p : Pattern)
  | guard (p : Pattern) (pred : Bindings → Bool)

/-- Ways an input matches: what each captures, and what it leaves. -/
abbrev MatchList (I : Type) := List (Bindings × I)

section Engine

variable {I : Type} [MatchInput I]

open MatchInput

/-- Each match extended by what runs on what it leaves, as far as that is kept; a later
capture wins. -/
def extendAll (run : I → Option (MatchList I)) (keep : I → I → Bool) : MatchList I → Option (MatchList I)
  | [] => some []
  | (b, rest) :: states => do
      let found ← run rest
      let more ← extendAll run keep states
      return ((found.filter fun m => keep rest m.2).map fun m => (m.1 ∪ b, m.2)) ++ more

/-- One repetition after another, each of which makes progress, until there is none;
none where that takes more rounds than there are. -/
def repeatFrom (run : I → Option (MatchList I)) : Nat → MatchList I → MatchList I → Option (MatchList I)
  | 0, _, _ => none
  | rounds + 1, results, frontier => do
      let next ← extendAll run (fun rest rest' => measure rest' < measure rest) frontier
      if next.isEmpty then return results else repeatFrom run rounds (results ++ next) next

variable (rounds : Nat)

mutual

/-- Every way an input matches. -/
def runIn : Pattern → I → Option (MatchList I)
  | .lit v, input => match next input with
      | some (head, rest) => some (if head = v then [(∅, rest)] else [])
      | none => some []
  | .bind var, input => match next input with
      | some (head, rest) => some [(Finmap.singleton var head, rest)]
      | none => some []
  | .seq ps, input => runSeq ps [(∅, input)]
  | .choice ps, input => runChoice ps input
  | .repeat_ p, input => repeatFrom (runIn p) rounds [(∅, input)] [(∅, input)]
  | .guard p pred, input => (runIn p input).map fun ms => ms.filter fun m => pred m.1

def runSeq : List Pattern → MatchList I → Option (MatchList I)
  | [], states => some states
  | p :: ps, states => do runSeq ps (← extendAll (runIn p) (fun _ _ => true) states)

def runChoice : List Pattern → I → Option (MatchList I)
  | [], _ => some []
  | p :: ps, input => do
      let found ← runIn p input
      return found ++ (← runChoice ps input)

end

/-! ## What patterns mean -/

/-- A pattern matches a start of an input, captures something of it and leaves the rest. -/
inductive Derives : Pattern → I → Bindings → I → Prop where
  | lit {v : Value} {i rest : I} (h : next i = some (v, rest)) : Derives (.lit v) i ∅ rest
  | bind {var : VarId} {v : Value} {i rest : I} (h : next i = some (v, rest)) :
      Derives (.bind var) i (Finmap.singleton var v) rest
  | seqNil {i : I} : Derives (.seq []) i ∅ i
  | seqCons {p : Pattern} {ps : List Pattern} {i mid rest : I} {b b' : Bindings} (h : Derives p i b mid)
      (hs : Derives (.seq ps) mid b' rest) : Derives (.seq (p :: ps)) i (b' ∪ b) rest
  | choice {p : Pattern} {ps : List Pattern} {i rest : I} {b : Bindings} (hp : p ∈ ps)
      (h : Derives p i b rest) : Derives (.choice ps) i b rest
  | repeatNil {p : Pattern} {i : I} : Derives (.repeat_ p) i ∅ i
  | repeatMore {p : Pattern} {i mid rest : I} {b b' : Bindings} (h : Derives p i b mid)
      (hs : Derives (.repeat_ p) mid b' rest) : Derives (.repeat_ p) i (b' ∪ b) rest
  | guard {p : Pattern} {pred : Bindings → Bool} {i rest : I} {b : Bindings} (h : Derives p i b rest)
      (hb : pred b = true) : Derives (.guard p pred) i b rest

/-! ## The engine is exact -/

/-- A match that leaves as much as there was has moved nowhere, and captured nothing. -/
theorem Derives.progress {p : Pattern} {i rest : I} {b : Bindings} (h : Derives p i b rest) :
    measure rest < measure i ∨ rest = i ∧ b = ∅ := by
  induction h with
  | lit h => exact .inl (measure_next h)
  | bind h => exact .inl (measure_next h)
  | seqNil => exact .inr ⟨rfl, rfl⟩
  | repeatNil => exact .inr ⟨rfl, rfl⟩
  | choice _ _ ih => exact ih
  | guard _ _ ih => exact ih
  | seqCons _ _ ih ihs | repeatMore _ _ ih ihs =>
    rcases ih with hlt | ⟨rfl, rfl⟩
    · rcases ihs with hlt' | ⟨rfl, rfl⟩
      · exact .inl (hlt'.trans hlt)
      · exact .inl hlt
    · rw [Finmap.union_empty]
      exact ihs

/-- The matches are those a relation has. -/
def Exact (D : Bindings → I → Prop) (found : Option (MatchList I)) : Prop :=
  ∃ ms, found = some ms ∧ ∀ b rest, (b, rest) ∈ ms ↔ D b rest

omit [MatchInput I] in
theorem exact_extendAll {run : I → Option (MatchList I)} {D : I → Bindings → I → Prop} (keep : I → I → Bool) :
    ∀ {states : MatchList I}, (∀ s ∈ states, Exact (D s.2) (run s.2)) →
      Exact (fun b rest => ∃ s ∈ states, ∃ b', D s.2 b' rest ∧ keep s.2 rest = true ∧ b = b' ∪ s.1)
        (extendAll run keep states) := by
  intro states
  induction states with
  | nil => exact fun _ => ⟨[], rfl, fun b rest => by simp⟩
  | cons s states ih =>
    intro h
    obtain ⟨hs, hstates⟩ := List.forall_mem_cons.1 h
    obtain ⟨found, hfound, hmem⟩ := hs
    obtain ⟨more, hmore, hmem'⟩ := ih hstates
    refine ⟨_, by rw [extendAll, hfound, hmore]; rfl, fun b rest => ?_⟩
    rw [List.mem_append, List.mem_map]
    refine Iff.trans (or_congr ⟨?_, ?_⟩ (hmem' b rest)) (List.exists_mem_cons_iff _ _ _).symm
    · rintro ⟨m, hm, heq⟩
      obtain ⟨hm, hkeep⟩ := List.mem_filter.1 hm
      obtain ⟨rfl, rfl⟩ := Prod.mk.inj heq
      exact ⟨m.1, (hmem _ _).1 hm, hkeep, rfl⟩
    · rintro ⟨b', hD, hkeep, rfl⟩
      exact ⟨(b', rest), List.mem_filter.2 ⟨(hmem _ _).2 hD, hkeep⟩, rfl⟩

/-- One repetition that makes progress. -/
def Advances (D : I → Bindings → I → Prop) (s t : Bindings × I) : Prop :=
  ∃ b, D s.2 b t.2 ∧ measure t.2 < measure s.2 ∧ t.1 = b ∪ s.1

/-- The loop finds what one repetition or more lead to. -/
theorem exact_repeatFrom {run : I → Option (MatchList I)} {D : I → Bindings → I → Prop} :
    ∀ {rounds : Nat} (results frontier : MatchList I),
      (∀ s ∈ frontier, MatchInput.measure s.2 < rounds) →
      (∀ s ∈ frontier, ∀ i, MatchInput.measure i ≤ MatchInput.measure s.2 → Exact (D i) (run i)) →
        frontier ≠ [] →
        Exact (fun b rest => (b, rest) ∈ results ∨ ∃ s ∈ frontier, Relation.TransGen (Advances D) s (b, rest))
          (repeatFrom run rounds results frontier) := by
  intro rounds
  induction rounds with
  | zero =>
    intro results frontier h _ hne
    obtain ⟨s, hs⟩ := List.exists_mem_of_ne_nil _ hne
    exact absurd (h s hs) (Nat.not_lt_zero _)
  | succ rounds ih =>
    intro results frontier h hrun _
    obtain ⟨next, hnext, hmem⟩ := exact_extendAll (D := D)
      (fun rest rest' => decide (MatchInput.measure rest' < MatchInput.measure rest))
      fun s hs => hrun s hs s.2 le_rfl
    have hstep : ∀ t, t ∈ next ↔ ∃ s ∈ frontier, Advances D s t := fun t => by
      refine (hmem t.1 t.2).trans (exists_congr fun s => and_congr_right fun _ => ?_)
      exact exists_congr fun b => and_congr_right fun _ => and_congr_left fun _ => decide_eq_true_iff
    rw [repeatFrom, hnext]
    by_cases hempty : next = []
    · subst hempty
      refine ⟨results, rfl, fun b rest => ⟨.inl, fun h => h.resolve_right ?_⟩⟩
      rintro ⟨s, hs, htrans⟩
      obtain ⟨t, hst, -⟩ := Relation.TransGen.head'_iff.1 htrans
      exact absurd ((hstep t).2 ⟨s, hs, hst⟩) List.not_mem_nil
    · have hsmaller : ∀ t ∈ next, ∃ s ∈ frontier, MatchInput.measure t.2 < MatchInput.measure s.2 := by
        intro t ht
        obtain ⟨s, hs, _, _, hlt, _⟩ := (hstep t).1 ht
        exact ⟨s, hs, hlt⟩
      obtain ⟨out, hout, hmem'⟩ := ih (results ++ next) next
        (fun t ht => by
          obtain ⟨s, hs, hlt⟩ := hsmaller t ht
          have := h s hs
          omega)
        (fun t ht i hi => by
          obtain ⟨s, hs, hlt⟩ := hsmaller t ht
          exact hrun s hs i (hi.trans hlt.le)) hempty
      refine ⟨out, by simpa [hempty] using hout, fun b rest => (hmem' b rest).trans ?_⟩
      show ((b, rest) ∈ results ++ next ∨ _) ↔ _
      rw [List.mem_append, or_assoc]
      refine or_congr_right ⟨?_, ?_⟩
      · rintro (hx | ⟨t, ht, htrans⟩)
        · obtain ⟨s, hs, hst⟩ := (hstep _).1 hx
          exact ⟨s, hs, .single hst⟩
        · obtain ⟨s, hs, hst⟩ := (hstep _).1 ht
          exact ⟨s, hs, .head hst htrans⟩
      · rintro ⟨s, hs, htrans⟩
        obtain ⟨t, hst, hrest⟩ := Relation.TransGen.head'_iff.1 htrans
        rcases Relation.reflTransGen_iff_eq_or_transGen.1 hrest with rfl | htrans
        · exact .inl ((hstep _).2 ⟨s, hs, hst⟩)
        · exact .inr ⟨t, (hstep _).2 ⟨s, hs, hst⟩, htrans⟩

/-- Repetitions that make progress are all there is to a repetition: one that makes none
captures nothing. -/
theorem derives_repeat_iff {p : Pattern} {i rest : I} {b : Bindings} :
    Derives (.repeat_ p) i b rest ↔ Relation.ReflTransGen (Advances (Derives p)) (∅, i) (b, rest) := by
  constructor
  · intro h
    generalize hq : Pattern.repeat_ p = q at h
    have hall : ∀ b₀ : Bindings, Relation.ReflTransGen (Advances (Derives p)) (b₀, i) (b ∪ b₀, rest) := by
      induction h with
      | repeatNil =>
        intro b₀
        rw [Finmap.empty_union]
      | @repeatMore p' i mid rest b b' h _ _ ih =>
        cases hq
        intro b₀
        rw [Finmap.union_assoc]
        rcases h.progress with hlt | ⟨rfl, rfl⟩
        · exact .head ⟨b, h, hlt, rfl⟩ (ih rfl _)
        · rw [Finmap.empty_union]
          exact ih rfl _
      | _ => cases hq
    have := hall ∅
    rwa [Finmap.union_empty] at this
  · intro h
    have hall : ∀ s : Bindings × I, Relation.ReflTransGen (Advances (Derives p)) s (b, rest) →
        ∃ b', Derives (.repeat_ p) s.2 b' rest ∧ b = b' ∪ s.1 := by
      intro s hs
      induction hs using Relation.ReflTransGen.head_induction_on with
      | refl => exact ⟨∅, .repeatNil, Finmap.empty_union.symm⟩
      | head hst _ ih =>
        obtain ⟨b₁, hD, -, hb₁⟩ := hst
        obtain ⟨b', hrest, rfl⟩ := ih
        exact ⟨b' ∪ b₁, .repeatMore hD hrest, by rw [hb₁, Finmap.union_assoc]⟩
    obtain ⟨b', hD, rfl⟩ := hall _ h
    rwa [Finmap.union_empty]

mutual

/-- **The engine ends, and what it finds is what can be derived.** -/
theorem runIn_exact {rounds : Nat} : ∀ (p : Pattern) {input : I}, MatchInput.measure input < rounds →
    Exact (Derives p input) (runIn rounds p input)
  | .lit v, input, _ => by
      rw [runIn]
      cases hnext : next input with
      | none =>
        refine ⟨[], rfl, fun b rest => ⟨nofun, fun h => ?_⟩⟩
        cases h with
        | lit h => cases hnext.symm.trans h
      | some n =>
        refine ⟨_, rfl, fun b rest => ⟨fun h => ?_, fun h => ?_⟩⟩
        · split_ifs at h with hv
          · cases List.mem_singleton.1 h
            exact .lit (hv ▸ hnext)
          · cases h
        · cases h with
          | lit h =>
            cases hnext.symm.trans h
            rw [if_pos rfl]
            exact List.mem_singleton_self _
  | .bind var, input, _ => by
      rw [runIn]
      cases hnext : next input with
      | none =>
        refine ⟨[], rfl, fun b rest => ⟨nofun, fun h => ?_⟩⟩
        cases h with
        | bind h => cases hnext.symm.trans h
      | some n =>
        refine ⟨_, rfl, fun b rest => ⟨fun h => ?_, fun h => ?_⟩⟩
        · cases List.mem_singleton.1 h
          exact .bind hnext
        · cases h with
          | bind h =>
            cases hnext.symm.trans h
            exact List.mem_singleton_self _
  | .seq ps, input, h => by
      rw [runIn]
      obtain ⟨ms, hms, hmem⟩ := runSeq_exact ps [(∅, input)] (by simpa using h)
      refine ⟨ms, hms, fun b rest => (hmem b rest).trans ⟨?_, fun hD => ?_⟩⟩
      · rintro ⟨s, hs, b', hD, rfl⟩
        obtain rfl := List.mem_singleton.1 hs
        rwa [Finmap.union_empty]
      · exact ⟨_, List.mem_singleton_self _, b, hD, Finmap.union_empty.symm⟩
  | .choice ps, input, h => by
      rw [runIn]
      exact runChoice_exact ps h
  | .repeat_ p, input, h => by
      rw [runIn]
      obtain ⟨ms, hms, hmem⟩ := exact_repeatFrom (D := Derives p) [(∅, input)] [(∅, input)]
        (by simpa using h)
        (by
          intro s hs i hi
          obtain rfl := List.mem_singleton.1 hs
          exact runIn_exact p (hi.trans_lt h)) (List.cons_ne_nil _ _)
      refine ⟨ms, hms, fun b rest => (hmem b rest).trans ?_⟩
      rw [derives_repeat_iff, Relation.reflTransGen_iff_eq_or_transGen]
      simp
  | .guard p pred, input, h => by
      rw [runIn]
      obtain ⟨ms, hms, hmem⟩ := runIn_exact p h
      refine ⟨_, by rw [hms, Option.map_some], fun b rest => ?_⟩
      rw [List.mem_filter, hmem]
      refine ⟨fun hD => .guard hD.1 hD.2, fun hD => ?_⟩
      cases hD with
      | guard hD hb => exact ⟨hD, hb⟩

theorem runSeq_exact {rounds : Nat} : ∀ (ps : List Pattern) (states : MatchList I),
    (∀ s ∈ states, MatchInput.measure s.2 < rounds) →
      Exact (fun b rest => ∃ s ∈ states, ∃ b', Derives (.seq ps) s.2 b' rest ∧ b = b' ∪ s.1)
        (runSeq rounds ps states)
  | [], states, _ => by
      rw [runSeq]
      refine ⟨states, rfl, fun b rest => ⟨fun hs => ?_, ?_⟩⟩
      · exact ⟨_, hs, ∅, .seqNil, Finmap.empty_union.symm⟩
      · rintro ⟨s, hs, b', hD, rfl⟩
        cases hD
        rwa [Finmap.empty_union]
  | p :: ps, states, h => by
      rw [runSeq]
      obtain ⟨mids, hmids, hmid⟩ := exact_extendAll (D := Derives p) (fun _ _ => true)
        fun s hs => runIn_exact p (h s hs)
      obtain ⟨out, hout, hmem⟩ := runSeq_exact ps mids fun m hm => by
        obtain ⟨s, hs, b', hD, -, -⟩ := (hmid m.1 m.2).1 hm
        rcases hD.progress with hlt | ⟨heq, -⟩
        · exact hlt.trans (h s hs)
        · exact heq ▸ h s hs
      refine ⟨out, by rw [hmids]; exact hout, fun b rest => (hmem b rest).trans ⟨?_, ?_⟩⟩
      · rintro ⟨m, hm, b', hrest, rfl⟩
        obtain ⟨s, hs, b₁, hD, -, hb₁⟩ := (hmid m.1 m.2).1 hm
        exact ⟨s, hs, b' ∪ b₁, .seqCons hD hrest, by rw [hb₁, Finmap.union_assoc]⟩
      · rintro ⟨s, hs, b', hD, rfl⟩
        cases hD with
        | @seqCons _ _ _ mid _ b₁ b₂ hD hrest =>
          exact ⟨(b₁ ∪ s.1, mid), (hmid _ _).2 ⟨s, hs, b₁, hD, rfl, rfl⟩, b₂, hrest, Finmap.union_assoc⟩

theorem runChoice_exact {rounds : Nat} : ∀ (ps : List Pattern) {input : I}, MatchInput.measure input < rounds →
    Exact (Derives (.choice ps) input) (runChoice rounds ps input)
  | [], input, _ => by
      rw [runChoice]
      refine ⟨[], rfl, fun b rest => ⟨nofun, fun hD => ?_⟩⟩
      cases hD with
      | choice hp _ => exact absurd hp List.not_mem_nil
  | p :: ps, input, h => by
      rw [runChoice]
      obtain ⟨found, hfound, hmem⟩ := runIn_exact p h
      obtain ⟨more, hmore, hmem'⟩ := runChoice_exact ps h
      refine ⟨_, by rw [hfound, hmore]; rfl, fun b rest => ?_⟩
      rw [List.mem_append, hmem, hmem']
      refine ⟨?_, fun hD => ?_⟩
      · rintro (hD | hD)
        · exact .choice List.mem_cons_self hD
        · cases hD with
          | choice hp hD => exact .choice (List.mem_cons_of_mem _ hp) hD
      · cases hD with
        | choice hp hD =>
          rcases List.mem_cons.1 hp with rfl | hp
          · exact .inl hD
          · exact .inr (.choice hp hD)

end

end Engine

/-! ## The same values -/

/-- A cursor moves over these values to its end. -/
inductive Presents {I : Type} [MatchInput I] : I → List Value → Prop where
  | done {i : I} (h : MatchInput.next i = none) : Presents i []
  | more {i rest : I} {v : Value} {vs : List Value} (h : MatchInput.next i = some (v, rest))
      (hrest : Presents rest vs) : Presents i (v :: vs)

section Presents

variable {I J : Type} [MatchInput I] [MatchInput J]

theorem Presents.next {i rest : I} {v : Value} {vs : List Value} (h : Presents i vs)
    (hnext : MatchInput.next i = some (v, rest)) : ∃ vs', vs = v :: vs' ∧ Presents rest vs' := by
  cases h with
  | done h => cases h.symm.trans hnext
  | more h hrest =>
    cases h.symm.trans hnext
    exact ⟨_, rfl, hrest⟩

theorem Presents.unique {i : I} {vs ws : List Value} (h : Presents i vs) (h' : Presents i ws) : vs = ws := by
  induction h generalizing ws with
  | done h =>
    cases h' with
    | done _ => rfl
    | more h' _ => cases h.symm.trans h'
  | more h _ ih =>
    obtain ⟨ws', rfl, hrest⟩ := h'.next h
    rw [ih hrest]

/-- A list of items surfaced as values presents them. -/
theorem presents_list {α : Type} (surface : α → Value) (wrap : List α → I)
    (hnext : ∀ l, MatchInput.next (wrap l) = (nextOf surface l).map fun n => (n.1, wrap n.2)) :
    ∀ l : List α, Presents (wrap l) (l.map surface)
  | [] => .done (by rw [hnext]; rfl)
  | a :: l => .more (by rw [hnext]; rfl) (presents_list surface wrap hnext l)

theorem presents_row (vs : List Value) : Presents vs vs := by
  have h := presents_list id id (fun l : List Value => by cases l <;> rfl) vs
  rwa [List.map_id] at h

theorem presents_forest (vs : List Value) : Presents (AstInput.forest vs) vs := by
  have h := presents_list id AstInput.mk (fun _ => rfl) vs
  rwa [List.map_id] at h

theorem presents_bytes (bs : List UInt8) : Presents (BytesInput.mk bs) (bs.map BytesInput.surface) :=
  presents_list _ BytesInput.mk (fun _ => rfl) bs

theorem presents_window (us : List Update) : Presents (DeltaInput.over us) (us.map reifyDelta) :=
  presents_list _ DeltaInput.mk (fun _ => rfl) us

/-- What can be derived of a cursor can be derived of any other over the same values. -/
theorem Derives.transfer {p : Pattern} {i rest : I} {b : Bindings} (h : Derives p i b rest) :
    ∀ {j : J} {vs : List Value}, Presents i vs → Presents j vs →
      ∃ rest' vs', Derives p j b rest' ∧ Presents rest vs' ∧ Presents rest' vs' := by
  induction h with
  | lit h =>
    intro j vs hi hj
    obtain ⟨vs', rfl, hrest⟩ := hi.next h
    cases hj with
    | more hj hrest' => exact ⟨_, vs', .lit hj, hrest, hrest'⟩
  | bind h =>
    intro j vs hi hj
    obtain ⟨vs', rfl, hrest⟩ := hi.next h
    cases hj with
    | more hj hrest' => exact ⟨_, vs', .bind hj, hrest, hrest'⟩
  | seqNil => exact fun hi hj => ⟨_, _, .seqNil, hi, hj⟩
  | repeatNil => exact fun hi hj => ⟨_, _, .repeatNil, hi, hj⟩
  | seqCons _ _ ih ihs =>
    intro j vs hi hj
    obtain ⟨mid, vs', hD, hmid, hmid'⟩ := ih hi hj
    obtain ⟨rest', vs'', hDs, hrest, hrest'⟩ := ihs hmid hmid'
    exact ⟨rest', vs'', .seqCons hD hDs, hrest, hrest'⟩
  | repeatMore _ _ ih ihs =>
    intro j vs hi hj
    obtain ⟨mid, vs', hD, hmid, hmid'⟩ := ih hi hj
    obtain ⟨rest', vs'', hDs, hrest, hrest'⟩ := ihs hmid hmid'
    exact ⟨rest', vs'', .repeatMore hD hDs, hrest, hrest'⟩
  | choice hp _ ih =>
    intro j vs hi hj
    obtain ⟨rest', vs', hD, hrest, hrest'⟩ := ih hi hj
    exact ⟨rest', vs', .choice hp hD, hrest, hrest'⟩
  | guard _ hb ih =>
    intro j vs hi hj
    obtain ⟨rest', vs', hD, hrest, hrest'⟩ := ih hi hj
    exact ⟨rest', vs', .guard hD hb, hrest, hrest'⟩

/-- **Patterns.** The engine ends, with what is derivable; and over another cursor to the
same values it finds the same captures, and leaves the same values. -/
theorem pattern_algebra (p : Pattern) (i : I) (j : J) (rounds : Nat) (hi : MatchInput.measure i < rounds)
    (hj : MatchInput.measure j < rounds) :
    ∃ ms ns, runIn rounds p i = some ms ∧ runIn rounds p j = some ns ∧
      (∀ b rest, (b, rest) ∈ ms ↔ Derives p i b rest) ∧
      (∀ b rest, (b, rest) ∈ ns ↔ Derives p j b rest) ∧
      ∀ vs, Presents i vs → Presents j vs → ∀ b left,
        (∃ rest, (b, rest) ∈ ms ∧ Presents rest left) ↔ ∃ rest, (b, rest) ∈ ns ∧ Presents rest left := by
  obtain ⟨ms, hms, hmem⟩ := runIn_exact p hi
  obtain ⟨ns, hns, hmem'⟩ := runIn_exact p hj
  refine ⟨ms, ns, hms, hns, hmem, hmem', fun vs hvs hvs' b left => ⟨?_, ?_⟩⟩
  · rintro ⟨rest, hfound, hleft⟩
    obtain ⟨rest', left', hD, hrest, hrest'⟩ := ((hmem b rest).1 hfound).transfer hvs hvs'
    obtain rfl := hleft.unique hrest
    exact ⟨rest', (hmem' b rest').2 hD, hrest'⟩
  · rintro ⟨rest, hfound, hleft⟩
    obtain ⟨rest', left', hD, hrest, hrest'⟩ := ((hmem' b rest).1 hfound).transfer hvs' hvs
    obtain rfl := hleft.unique hrest
    exact ⟨rest', (hmem b rest').2 hD, hrest'⟩

end Presents

/-- As many items as may be, the last of them captured, or nothing at all. -/
def lastItem : Pattern := .repeat_ (.choice [.seq [], .bind 0])

theorem pattern_algebra_bytes : ∃ ms ns, runIn 3 lastItem ([.int 7, .int 9] : List Value) = some ms ∧
    runIn 3 lastItem (BytesInput.mk [7, 9]) = some ns ∧ ms.length = 3 ∧
      ∀ b left, (∃ rest, (b, rest) ∈ ms ∧ Presents rest left) ↔ ∃ rest, (b, rest) ∈ ns ∧ Presents rest left := by
  obtain ⟨ms, ns, hms, hns, -, -, hsame⟩ := pattern_algebra lastItem ([.int 7, .int 9] : List Value)
    (BytesInput.mk [7, 9]) 3 (by decide) (by decide)
  have hlen : (runIn 3 lastItem ([.int 7, .int 9] : List Value)).map List.length = some 3 := by decide +kernel
  rw [hms] at hlen
  exact ⟨ms, ns, hms, hns, Option.some.inj hlen, hsame _ (presents_row _) (presents_bytes [7, 9])⟩

end Grmpl

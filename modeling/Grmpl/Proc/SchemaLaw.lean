import Grmpl.Proc.Boundary

/-!
# The schema law over runs

A row put in through an assert or a timer conforms to its relation's schema: the commit
boundary has checked it, and no schema of a row that is on its way grows. The rows of
emits, cursor moves, outboxes, counters and other domains' messages are checked by
nobody, and conform if those that make them see to it.

* `SchemaLaw`: the property.
* `KeepsSchemas`: the condition on a step.
* `schema_law`: the run; `schema_law_broken`: an emit that no check sees.
-/

open Runs

namespace Grmpl

variable {checker : BehaviorChecker} {w w' : Ledger} {act : Ledger.Act}

/-- **The schema law**: a row present at some edition was put in by a commit, and
whatever commit put a row in, it conforms to the schema then in force. -/
structure SchemaLaw (w : Ledger) : Prop where
  present : ∀ rel at' t d, (t, d) ∈ w.store.rowsAt rel at' → 0 < d →
    ∃ x ∈ w.entered, x.rel = rel ∧ x.row = t
  conforms : ∀ x ∈ w.entered, ∀ s, x.schema = some s → s.Conforms x.row

/-- No schema grows while a patch that was checked against it is on its way, and a commit
puts in no row through an emit, a cursor move, an outbox, a counter or another domain's
message but one that conforms. -/
def KeepsSchemas (w : Ledger) : Ledger.Act → Prop
  | .putSchema rel s _ => w.registry.schema rel = some s ∨ ∀ x ∈ w.writers, ∀ f ∈ x.vetted, f.rel ≠ rel
  | .commit i => ∀ x, w.writers[i]? = some x → ∀ row ∈ x.unvetted,
      ∀ s, w.registry.schema row.1 = some s → s.Conforms row.2
  | _ => True

/-- What every writer's patch was checked against is still in force. -/
abbrev Ledger.UpToDate (checker : BehaviorChecker) (w : Ledger) : Prop :=
  w.EachVetted checker fun r facts => ∀ f ∈ facts, r.schema f.rel = w.registry.schema f.rel

theorem upToDate_step (h : w.UpToDate checker) (hkeeps : KeepsSchemas w act)
    (hd : Ledger.Does checker w act w') : w'.UpToDate checker := by
  cases hd with
  | stay => exact h
  | evolve rel s at' registry hput =>
    intro x hx
    obtain ⟨r, hv, hsame⟩ := h x hx
    refine ⟨r, hv, fun f hf => ?_⟩
    rw [hsame f hf]
    by_cases hrel : f.rel = rel
    · rcases hkeeps with hs | hfree
      · rw [hrel, hs]
        exact (SchemaRegistry.schema_putSchema hput).symm
      · exact absurd hrel (hfree x hx f hf)
    · exact (SchemaRegistry.schema_putSchema_other hput hrel).symm
  | turn _ i x hx => exact eachVetted_turn (fun _ _ _ => rfl) h i hx
  | commit i x p hx hp hpre =>
    exact eachVetted_turn (w := w) (fun _ _ _ => rfl) h i Ledger.becomes_idle

theorem conforms_step (hvetted : w.UpToDate checker)
    (h : ∀ x ∈ w.entered, ∀ s, x.schema = some s → s.Conforms x.row) (hkeeps : KeepsSchemas w act)
    (hd : Ledger.Does checker w act w') :
    ∀ x ∈ w'.entered, ∀ s, x.schema = some s → s.Conforms x.row := by
  cases hd with
  | stay => exact h
  | evolve => exact h
  | turn => exact h
  | commit i x p hx hp hpre =>
    intro e he s hs
    rcases List.mem_append.1 he with he | he
    · exact h e he s hs
    · obtain ⟨u, hu, hpos, rfl⟩ := mem_entries.1 he
      obtain ⟨r, hv, hsame⟩ := hvetted x (List.mem_of_getElem? hx)
      have hseen : (⟨u.1, u.2.1⟩ : Fact) ∈ x.vetted → s.Conforms u.2.1 := fun hf =>
        hv.conforms _ hf s ((hsame _ hf).trans hs)
      rcases pending_covered hv hp hu hpos with hf | hf | hf
      · exact hseen (Writer.mem_vetted_asserts hf)
      · exact hseen (Writer.mem_vetted_timers hf)
      · exact hkeeps x hx _ hf s hs

/-- **Every run whose emits, cursor moves, outboxes, counters and deliveries conform
keeps the schema law.** -/
theorem schema_law (checker : BehaviorChecker) (registry : SchemaRegistry) (n : Nat) (w : Ledger)
    (h : Run (Ledger.step checker) KeepsSchemas (Ledger.start registry n) w) : SchemaLaw w := by
  have hinv : w.UpToDate checker ∧ w.Logged ∧
      ∀ x ∈ w.entered, ∀ s, x.schema = some s → s.Conforms x.row := by
    refine h.invariant (I := fun w => w.UpToDate checker ∧ w.Logged ∧
      ∀ x ∈ w.entered, ∀ s, x.schema = some s → s.Conforms x.row) ⟨?_, ?_, ?_⟩ ?_
    · intro x hx
      obtain rfl := List.eq_of_mem_replicate hx
      exact ⟨registry, trivial, fun f hf => absurd hf (by simp [Writer.vetted])⟩
    · exact fun u hu => absurd hu (by simp [Ledger.start, TraceStore.empty])
    · exact fun x hx => absurd hx (by simp [Ledger.start])
    · rintro v a v' ⟨hv, hlog, hc⟩ hkeeps hstep
      have hd := ledger_does hstep
      exact ⟨upToDate_step hv hkeeps hd, logged_step hlog hd, conforms_step hv hc hkeeps hd⟩
  obtain ⟨-, hlog, hc⟩ := hinv
  exact ⟨fun _ _ _ _ hrow hpos => hlog.present hrow hpos, hc⟩

/-! ## An emit that no check sees -/

/-- Relation 5 is an inbox: a process, a number, a body. -/
def inboxSchema : Schema := ⟨[⟨"process", .ent⟩, ⟨"seq", .int⟩, ⟨"body", .tuple⟩]⟩

def inboxRegistry : SchemaRegistry := SchemaRegistry.empty.add 5 inboxSchema 1

def nobody : Authority := ⟨1, []⟩

/-- A message of one cell. -/
def shortMessage : Patch := Patch.new.emit ⟨5, ⟨[.int 7]⟩⟩

def emitted : Ledger := after (Ledger.step noBehaviorCheck) (Ledger.start inboxRegistry 1)
  [.submit 0 shortMessage nobody, .commit 0]

/-- **The law fails where a patch emits a message that is no row of its inbox.** -/
theorem schema_law_broken : ¬ ∀ (checker : BehaviorChecker) (registry : SchemaRegistry) (n : Nat)
    (w : Ledger), Run (Ledger.step checker) Any (Ledger.start registry n) w → SchemaLaw w := by
  intro h
  have hlaw := h noBehaviorCheck inboxRegistry 1 emitted (.after rfl)
  have hentered : emitted.entered = [⟨5, ⟨[.int 7]⟩, some inboxSchema, some nobody⟩] := rfl
  have hconf := hlaw.conforms _ (by rw [hentered]; exact List.mem_singleton_self _) inboxSchema rfl
  exact absurd hconf.arity (by decide)

/-- A commit of a row that conforms, beside an emit that does. -/
def wholeMessage : Patch :=
  (Patch.new.assert ⟨5, ⟨[.ent ⟨1⟩, .int 0, .tuple []]⟩⟩).emit ⟨5, ⟨[.ent ⟨1⟩, .int 1, .tuple []]⟩⟩

def inboxOwner : Authority := ⟨1, [⟨5, none⟩]⟩

theorem schema_law_whole : SchemaLaw (after (Ledger.step noBehaviorCheck) (Ledger.start inboxRegistry 1)
    [.submit 0 wholeMessage inboxOwner, .commit 0]) := by
  refine schema_law noBehaviorCheck inboxRegistry 1 _ (.snoc (a := .commit 0) (.snoc (a := .submit 0
    wholeMessage inboxOwner) .start trivial rfl) ?_ rfl)
  intro x hx row hrow s hs
  obtain rfl := Option.some.inj hx
  obtain rfl := List.mem_singleton.1 hrow
  obtain rfl := Option.some.inj hs
  exact Schema.check_eq_ok.1 rfl

end Grmpl

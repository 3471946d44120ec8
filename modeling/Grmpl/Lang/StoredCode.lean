import Grmpl.Lang.Effect
import Grmpl.Proc.Boundary

/-!
# The code in force

Code put in through an assert that goes through the effect checker is lawful: it decodes,
and does no more than the authority and the grants that were there allow. A timer's
second column is a number, so no timer puts code in. Emits, raw cursor moves, other
domains' messages and every row of a domain's commit go through no such check.

* `codeOf`: the code a row puts in force.
* `StoredCodeLaw`: the property.
* `KeepsCode`: the condition on a step.
* `stored_code_law`: the run; `stored_code_broken`: code nobody has looked at.
-/

open Runs

namespace Grmpl

/-- The code in the second column of a row. -/
def codeOf (row : Tuple) : Option (List UInt8) :=
  match row.cells[1]? with
  | some (Value.code bytes) => some bytes
  | _ => none

theorem codeOf_timerRow (s : Scheduled) : codeOf (timerRow s) = none := rfl

theorem mem_of_codeOf {row : Tuple} {bytes : List UInt8} (h : codeOf row = some bytes) :
    Value.code bytes ∈ row.cells := by
  unfold codeOf at h
  split at h
  · rename_i b hb
    cases h
    exact List.mem_of_getElem? hb
  · cases h

section Law

variable (prog : ProgramNames) (grants : ResolvedGrantSet) (directBehavior : RelId)

/-- **The stored-code law**: a row that puts code in force at some edition was put in by
a commit, and whatever commit put it in, the code is lawful under its authority. -/
structure StoredCodeLaw (w : Ledger) : Prop where
  present : ∀ at' t d, (t, d) ∈ w.store.rowsAt directBehavior at' → 0 < d →
    ∃ x ∈ w.entered, x.rel = directBehavior ∧ x.row = t
  lawful : ∀ x ∈ w.entered, x.rel = directBehavior → ∀ bytes, codeOf x.row = some bytes →
    ∃ authority, x.authority = some authority ∧ LawfulCode prog grants authority bytes

/-- The asserts of a patch went through the code checker. -/
def Writer.coded : Writer → Bool
  | .passed _ _ coded _ => coded
  | _ => false

/-- A commit puts no code in force through an emit, a cursor move or another domain's
message, nor through an assert that no code checker has seen. -/
def KeepsCode (w : Ledger) : Ledger.Act → Prop
  | .commit i => ∀ x, w.writers[i]? = some x →
      (∀ row ∈ x.unvetted, row.1 = directBehavior → codeOf row.2 = none) ∧
        (x.coded = false → ∀ f ∈ x.asserts, f.rel = directBehavior → codeOf f.tuple = none)
  | _ => True

end Law

section Steps

variable {prog : ProgramNames} {grants : ResolvedGrantSet} {directBehavior : RelId}
variable {w w' : Ledger} {act : Ledger.Act}

/-- The asserts of a writer's patch that went through the code checker are lawful under
the authority it commits on. -/
theorem Writer.Vetted.lawful {r : SchemaRegistry} {x : Writer}
    (hx : x.Vetted (EffectChecker.withGrants prog grants).checkFact r) (hcoded : x.coded = true)
    {p : Proposal} (hp : x.pending = some p) :
    ∀ f ∈ x.asserts, ∀ bytes, codeOf f.tuple = some bytes →
      ∃ authority, p.authority = some authority ∧ LawfulCode prog grants authority bytes := by
  cases x with
  | passed patch authority coded checked =>
    cases hp
    obtain rfl : coded = true := hcoded
    intro f hf bytes hcode
    have hpassed := checkCode_ok (checkPatch_laws hx).2.2 f hf
    exact ⟨authority, rfl, EffectChecker.checkFact_lawful hpassed (mem_of_codeOf hcode)⟩
  | _ => cases hcoded

theorem Writer.codeOf_timers {x : Writer} : ∀ f ∈ x.timers, codeOf f.tuple = none := by
  intro f hf
  cases x with
  | passed | routed | drawn | refused =>
    obtain ⟨s, -, rfl⟩ := List.mem_map.1 hf
    exact codeOf_timerRow s
  | _ => exact absurd hf (by simp [Writer.timers])

theorem lawful_step
    (hvetted : w.EachVetted (EffectChecker.withGrants prog grants).checkFact fun _ _ => True)
    (h : ∀ x ∈ w.entered, x.rel = directBehavior → ∀ bytes, codeOf x.row = some bytes →
      ∃ authority, x.authority = some authority ∧ LawfulCode prog grants authority bytes)
    (hkeeps : KeepsCode directBehavior w act) (hd : Ledger.Does (EffectChecker.withGrants prog grants).checkFact w act w') :
    ∀ x ∈ w'.entered, x.rel = directBehavior → ∀ bytes, codeOf x.row = some bytes →
      ∃ authority, x.authority = some authority ∧ LawfulCode prog grants authority bytes := by
  cases hd with
  | stay => exact h
  | evolve => exact h
  | turn => exact h
  | commit i x p hx hp hpre =>
    intro e he hrel bytes hcode
    rcases List.mem_append.1 he with he | he
    · exact h e he hrel bytes hcode
    · obtain ⟨u, hu, hpos, rfl⟩ := mem_entries.1 he
      obtain ⟨r, hv, -⟩ := hvetted x (List.mem_of_getElem? hx)
      obtain ⟨hrows, hasserts⟩ := hkeeps x hx
      rcases pending_covered hv hp hu hpos with hf | hf | hf
      · cases hcoded : x.coded with
        | true => exact hv.lawful hcoded hp _ hf bytes hcode
        | false => exact absurd (hasserts hcoded _ hf hrel) (by simp [hcode])
      · exact absurd (Writer.codeOf_timers _ hf) (by simp [hcode])
      · exact absurd (hrows _ hf hrel) (by simp [hcode])

end Steps

/-- **Every run that puts code in force through checked asserts only keeps the
stored-code law.** -/
theorem stored_code_law (prog : ProgramNames) (grants : ResolvedGrantSet) (directBehavior : RelId)
    (registry : SchemaRegistry) (n : Nat) (w : Ledger)
    (h : Run (Ledger.step (EffectChecker.withGrants prog grants).checkFact) (KeepsCode directBehavior)
      (Ledger.start registry n) w) : StoredCodeLaw prog grants directBehavior w := by
  have hinv : w.EachVetted (EffectChecker.withGrants prog grants).checkFact (fun _ _ => True) ∧ w.Logged ∧
      ∀ x ∈ w.entered, x.rel = directBehavior → ∀ bytes, codeOf x.row = some bytes →
        ∃ authority, x.authority = some authority ∧ LawfulCode prog grants authority bytes := by
    refine h.invariant (I := fun w =>
      w.EachVetted (EffectChecker.withGrants prog grants).checkFact (fun _ _ => True) ∧ w.Logged ∧
        ∀ x ∈ w.entered, x.rel = directBehavior → ∀ bytes, codeOf x.row = some bytes →
          ∃ authority, x.authority = some authority ∧ LawfulCode prog grants authority bytes)
      ⟨?_, ?_, ?_⟩ ?_
    · intro x hx
      obtain rfl := List.eq_of_mem_replicate hx
      exact ⟨registry, trivial, trivial⟩
    · exact fun u hu => absurd hu (by simp [Ledger.start, TraceStore.empty])
    · exact fun x hx => absurd hx (by simp [Ledger.start])
    · rintro v a v' ⟨hv, hlog, hc⟩ hkeeps hstep
      have hd := ledger_does hstep
      refine ⟨?_, logged_step hlog hd, lawful_step hv hc hkeeps hd⟩
      cases hd with
      | stay => exact hv
      | evolve => exact hv
      | turn _ i x hx => exact eachVetted_turn (fun _ => trivial) hv i hx
      | commit i x p hx hp hpre => exact eachVetted_turn (w := v) (fun _ => trivial) hv i Ledger.becomes_idle
  obtain ⟨-, hlog, hc⟩ := hinv
  exact ⟨fun _ _ _ hrow hpos => hlog.present hrow hpos, hc⟩

/-! ## Code that nobody has looked at -/

def vaultNames : ProgramNames :=
  ⟨fun name => if name = "vault" then some 8 else if name = "direct_behavior" then some 7 else none,
    fun _ => none⟩

def noGrants : ResolvedGrantSet := ⟨fun _ => none⟩

/-- A behavior that writes a relation. -/
def writer (relation : String) : StoredBehavior := ⟨.and [], [], [.assert relation []]⟩

/-- What the checker refuses in an assert goes through in an emit. -/
def smuggled : Patch := Patch.new.emit ⟨7, ⟨[.ent ⟨1⟩, .code (Wire.encodeBehavior (writer "vault"))]⟩⟩

def behaviorOwner : Authority := ⟨1, [⟨7, none⟩]⟩

def smuggledIn : Ledger :=
  after (Ledger.step (EffectChecker.withGrants vaultNames noGrants).checkFact)
    (Ledger.start SchemaRegistry.empty 1) [.submit 0 smuggled behaviorOwner, .commit 0]

/-- What is read back writes the vault. -/
theorem decode_writer_vault : ∃ b, Wire.decodeBehavior (Wire.encodeBehavior (writer "vault")) = .ok b ∧
    b.body.any (fun op => match op with
      | .assert relation _ => relation == "vault"
      | _ => false) = true := by
  have h : (match Wire.decodeBehavior (Wire.encodeBehavior (writer "vault")) with
    | .ok b => b.body.any fun op => match op with
      | .assert relation _ => relation == "vault"
      | _ => false
    | .error _ => false) = true := by decide +kernel
  cases hd : Wire.decodeBehavior (Wire.encodeBehavior (writer "vault")) with
  | error e =>
    rw [hd] at h
    cases h
  | ok b =>
    rw [hd] at h
    exact ⟨b, rfl, h⟩

/-- **The law fails where a patch emits a behavior into the relation of those in force.** -/
theorem stored_code_broken : ¬ ∀ (prog : ProgramNames) (grants : ResolvedGrantSet)
    (directBehavior : RelId) (registry : SchemaRegistry) (n : Nat) (w : Ledger),
    Run (Ledger.step (EffectChecker.withGrants prog grants).checkFact) Any (Ledger.start registry n) w →
      StoredCodeLaw prog grants directBehavior w := by
  intro h
  have hlaw := h vaultNames noGrants 7 SchemaRegistry.empty 1 smuggledIn (.after rfl)
  have hentered : smuggledIn.entered = [⟨7, ⟨[.ent ⟨1⟩,
    .code (Wire.encodeBehavior (writer "vault"))]⟩, none, some behaviorOwner⟩] := rfl
  obtain ⟨authority, hauth, b, hb, hlawful⟩ := hlaw.lawful _
    (by rw [hentered]; exact List.mem_singleton_self _) rfl _ rfl
  obtain rfl := Option.some.inj hauth
  obtain ⟨b', hb', hany⟩ := decode_writer_vault
  obtain rfl := Except.ok.inj (hb.symm.trans hb')
  obtain ⟨op, hop, hassert⟩ := List.any_eq_true.1 hany
  cases op with
  | assert relation arguments =>
      obtain rfl : relation = "vault" := by simpa using hassert
      obtain ⟨rel, hrel, howned⟩ := hlawful.asserts _ _ (occurs_of_mem hop)
      obtain rfl := Option.some.inj hrel
      exact absurd howned (by decide)
  | _ => cases hassert

/-- A behavior that writes its own relation goes through the checker. -/
def installed : Patch :=
  Patch.new.assert ⟨7, ⟨[.ent ⟨1⟩, .code (Wire.encodeBehavior (writer "direct_behavior"))]⟩⟩

def installedBy : List Ledger.Act := [.submit 0 installed behaviorOwner, .commit 0]

theorem stored_code_installed : StoredCodeLaw vaultNames noGrants 7
    (after (Ledger.step (EffectChecker.withGrants vaultNames noGrants).checkFact)
      (Ledger.start SchemaRegistry.empty 1) installedBy) := by
  refine stored_code_law vaultNames noGrants 7 SchemaRegistry.empty 1 _
    (.snoc (a := .commit 0) (.snoc (a := .submit 0 installed behaviorOwner) .start trivial rfl) ?_ rfl)
  intro x hx
  have hput : x = (Ledger.start SchemaRegistry.empty 1).put
      (EffectChecker.withGrants vaultNames noGrants).checkFact true installed behaviorOwner :=
    (Option.some.inj hx).symm
  rw [hput, Ledger.put]
  split
  · exact ⟨fun row hrow => absurd hrow List.not_mem_nil, nofun⟩
  · exact ⟨fun row hrow => absurd hrow List.not_mem_nil, fun _ f hf => absurd hf List.not_mem_nil⟩

end Grmpl

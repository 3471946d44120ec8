import Grmpl.Core.Value

/-!
# Facts, patches and authority

A patch is a guarded proposal for the next edition: rows that must hold, rows to
assert and retract, messages to emit, timers to record, and the move of an inbox
cursor. An authority domain says which rows a patch may assert or retract.

* `Fact`, `Message`, `Scheduled`, `CursorMove`, `Patch`.
* `KeyRange`, `Scope`, `Authority.permits`.
-/

namespace Grmpl

abbrev RelId := Nat
abbrev BranchId := Nat
abbrev Diff := Int

/-- What an operation answers with when it refuses. -/
inductive Error where
  | store (msg : String)
  | authority (msg : String)
  | schema (msg : String)
  | preconditionFailed
  | query (msg : String)
  | behavior (msg : String)
  | codec (msg : String)
  deriving DecidableEq

/-- The refusal as it is reported. -/
def Error.message : Error → String
  | .store s => "store error: " ++ s
  | .authority s => "authority violation: " ++ s
  | .schema s => "schema violation: " ++ s
  | .preconditionFailed => "precondition failed"
  | .query s => "invalid query: " ++ s
  | .behavior s => "behavior fault: " ++ s
  | .codec s => "codec error: " ++ s

abbrev Result := Except Error

/-- A computation that went through went through its first step. -/
theorem bind_ok {ε α β : Type} {x : Except ε α} {f : α → Except ε β} {b : β} (h : x >>= f = .ok b) :
    ∃ a, x = .ok a ∧ f a = .ok b := by
  cases x with
  | error e => cases h
  | ok a => exact ⟨a, rfl, h⟩

theorem ok_bind {ε α β : Type} {x : Except ε α} {a : α} (h : x = .ok a) (f : α → Except ε β) :
    x >>= f = f a := by
  rw [h]
  rfl

/-- Mapping what agrees on every element of a list. -/
theorem mapM_congr {α β : Type} {f g : α → Result β} : ∀ {l : List α}, (∀ x ∈ l, f x = g x) →
    l.mapM f = l.mapM g := by
  intro l
  induction l with
  | nil => intro _; rfl
  | cons x l ih =>
    intro h
    rw [List.mapM_cons, List.mapM_cons, h x List.mem_cons_self,
      ih fun y hy => h y (List.mem_cons_of_mem _ hy)]

/-- Mapping what never fails. -/
theorem mapM_ok {ε α β : Type} {f : α → Except ε β} {g : α → β} : ∀ {l : List α},
    (∀ x ∈ l, f x = .ok (g x)) → l.mapM f = .ok (l.map g) := by
  intro l
  induction l with
  | nil => intro _; rfl
  | cons x l ih =>
    intro h
    rw [List.mapM_cons, h x List.mem_cons_self, ih fun y hy => h y (List.mem_cons_of_mem _ hy)]
    rfl

/-- What a mapping went through is the images of the list's elements. -/
theorem mapM_mem {ε α β : Type} {f : α → Except ε β} : ∀ {l : List α} {bs : List β}, l.mapM f = .ok bs →
    (∀ a ∈ l, ∃ b ∈ bs, f a = .ok b) ∧ ∀ b ∈ bs, ∃ a ∈ l, f a = .ok b
  | [], bs, h => by
      cases h
      exact ⟨fun _ h => absurd h List.not_mem_nil, fun _ h => absurd h List.not_mem_nil⟩
  | a :: l, bs, h => by
      rw [List.mapM_cons] at h
      obtain ⟨b, hb, h⟩ := bind_ok h
      obtain ⟨rest, hrest, h⟩ := bind_ok h
      cases h
      obtain ⟨hall, hof⟩ := mapM_mem hrest
      refine ⟨List.forall_mem_cons.2 ⟨⟨b, .head rest, hb⟩, fun x hx => ?_⟩,
        List.forall_mem_cons.2 ⟨⟨a, .head l, hb⟩, fun y hy => ?_⟩⟩
      · obtain ⟨y, hy, hxy⟩ := hall x hx
        exact ⟨y, .tail b hy, hxy⟩
      · obtain ⟨x, hx, hxy⟩ := hof y hy
        exact ⟨x, .tail a hx, hxy⟩

/-- A fallible filter keeps what it kept of some element. -/
theorem mem_of_filterMapM {α β : Type} {f : α → Result (Option β)} : ∀ {l : List α} {found : List β},
    l.filterMapM f = .ok found → ∀ b ∈ found, ∃ a ∈ l, f a = .ok (some b) := by
  intro l
  induction l with
  | nil =>
    intro found h b hb
    cases h
    exact absurd hb List.not_mem_nil
  | cons a l ih =>
    intro found h b hb
    rw [List.filterMapM_cons] at h
    obtain ⟨o, ho, h⟩ := bind_ok h
    cases o with
    | none =>
      obtain ⟨a', ha', hf⟩ := ih h b hb
      exact ⟨a', List.mem_cons_of_mem a ha', hf⟩
    | some b' =>
      obtain ⟨rest, hrest, h⟩ := bind_ok h
      cases h
      rcases List.mem_cons.1 hb with rfl | hb
      · exact ⟨a, List.mem_cons_self, ho⟩
      · obtain ⟨a', ha', hf⟩ := ih hrest b hb
        exact ⟨a', List.mem_cons_of_mem a ha', hf⟩

/-- And keeps nothing when it keeps nothing of any. -/
theorem filterMapM_eq_nil {α β : Type} {f : α → Result (Option β)} : ∀ {l : List α},
    l.filterMapM f = .ok [] ↔ ∀ a ∈ l, f a = .ok none := by
  intro l
  induction l with
  | nil => exact ⟨fun _ a ha => absurd ha List.not_mem_nil, fun _ => rfl⟩
  | cons a l ih =>
    rw [List.forall_mem_cons, ← ih, List.filterMapM_cons]
    constructor
    · intro h
      obtain ⟨o, ho, h⟩ := bind_ok h
      cases o with
      | none => exact ⟨ho, h⟩
      | some b =>
        obtain ⟨rest, -, h⟩ := bind_ok h
        cases h
    · rintro ⟨ha, hl⟩
      rw [ha]
      exact hl

/-- A ground row of a relation. -/
structure Fact where
  rel : RelId
  tuple : Tuple
  deriving DecidableEq

/-- A row to append to an inbox relation. -/
structure Message where
  inbox : RelId
  body : Tuple
  deriving DecidableEq

/-- A message to deliver at a simulation time. -/
structure Scheduled where
  timers : RelId
  due : Int64
  inbox : RelId
  target : Entity
  body : Tuple
  deriving DecidableEq

/-- The move of a cursor: a row to retract, if there was one, and one to assert. -/
structure CursorMove where
  rel : RelId
  retract : Option Tuple
  assert : Tuple
  deriving DecidableEq

/-- A candidate next edition. -/
structure Patch where
  preconditions : List Fact
  asserts : List Fact
  retracts : List Fact
  emits : List Message
  scheduled : List Scheduled
  cursorAdvance : Option CursorMove
  deriving DecidableEq

namespace Patch

def new : Patch := ⟨[], [], [], [], [], none⟩

/-- Requires a row to hold in the edition the patch commits against. -/
def expect (p : Patch) (f : Fact) : Patch := { p with preconditions := p.preconditions ++ [f] }

def assert (p : Patch) (f : Fact) : Patch := { p with asserts := p.asserts ++ [f] }

def retract (p : Patch) (f : Fact) : Patch := { p with retracts := p.retracts ++ [f] }

def emit (p : Patch) (m : Message) : Patch := { p with emits := p.emits ++ [m] }

def schedule (p : Patch) (s : Scheduled) : Patch := { p with scheduled := p.scheduled ++ [s] }

def advanceCursor (p : Patch) (mv : CursorMove) : Patch := { p with cursorAdvance := some mv }

end Patch

abbrev DomainId := UInt64

/-- Inclusive bounds on one column of a relation. -/
structure KeyRange where
  col : Nat
  lo : Int64
  hi : Int64
  deriving DecidableEq

/-- Whether a row's column lies in a range; only entities and integers do. -/
def KeyRange.contains (r : KeyRange) (t : Tuple) : Bool :=
  match t.cells[r.col]? with
  | some (.ent e) => r.lo ≤ e.id.toInt64 && e.id.toInt64 ≤ r.hi
  | some (.int i) => r.lo ≤ i && i ≤ r.hi
  | _ => false

/-- A relation, or a slice of one. -/
structure Scope where
  rel : RelId
  range : Option KeyRange
  deriving DecidableEq

/-- What a domain may assert and retract. -/
structure Authority where
  domain : DomainId
  owns : List Scope
  deriving DecidableEq

/-- Whether an authority permits writing a row. -/
def Authority.permits (a : Authority) (f : Fact) : Bool :=
  a.owns.any fun s => s.rel = f.rel && s.range.all fun r => r.contains f.tuple

end Grmpl

import Mathlib.Data.List.Basic

/-!
# Precedence

A grammar of binary operators is a list of tables, the loosest level first: which tokens
are operators of a level, and of which operation. A level is read by a loop over its
operands, so every level groups to the left.

* `chain`, `climb`: the reading of one level, and of all of them.
* `Written`: what is written with the parentheses that the levels need.
* `Written.read`: what is written is read back, up to where it ends.
-/

namespace Precedence

variable {T O E ε : Type}

/-- What reads something from the front of the tokens. -/
abbrev Reader (T E ε : Type) := List T → Except ε (E × List T)

section Reading

variable (node : O → E → E → E)

/-- A level after its first operands, with so many more to come at most. -/
def loop (table : T → Option O) (operand : Reader T E ε) : Nat → E → Reader T E ε
  | n + 1, e, t :: ts =>
      match table t with
      | none => .ok (e, t :: ts)
      | some o => do
          let (right, rest) ← operand ts
          loop table operand n (node o e right) rest
  | _, e, ts => .ok (e, ts)

/-- A level: an operand, and as many more as operators follow. -/
def chain (table : T → Option O) (operand : Reader T E ε) : Reader T E ε := fun ts => do
  let (e, rest) ← operand ts
  loop node table operand rest.length e rest

/-- The levels, over what the tightest takes as its operands. -/
def climb (operand : Reader T E ε) (tables : List (T → Option O)) : Reader T E ε :=
  tables.foldr (chain node) operand

end Reading

/-- What is written reads back before everything it may stand before. -/
def Reads (reader : Reader T E ε) (stop : List T → Prop) (ts : List T) (e : E) : Prop :=
  ∀ rest, stop rest → reader (ts ++ rest) = .ok (e, rest)

/-- The tokens start with no operator of these levels. -/
def Past (tables : List (T → Option O)) (ts : List T) : Prop :=
  ∀ table ∈ tables, ∀ t ∈ ts.head?, table t = none

/-- A token is an operator of one level at most. -/
def Distinct (tables : List (T → Option O)) : Prop :=
  tables.Pairwise fun loose tight => ∀ t, (loose t).isSome → tight t = none

/-- What is written at a level: an operator has on its left what is written at its own
level, and on its right what is written at the next. -/
inductive Written (node : O → E → E → E) (atom : List T → E → Prop) :
    List (T → Option O) → List T → E → Prop
  | atom {ts : List T} {e : E} : atom ts e → Written node atom [] ts e
  | tighter {table : T → Option O} {tables : List (T → Option O)} {ts : List T} {e : E} :
      Written node atom tables ts e → Written node atom (table :: tables) ts e
  | binary {table : T → Option O} {tables : List (T → Option O)} {left right : List T} {t : T} {o : O}
      {l r : E} : table t = some o → Written node atom (table :: tables) left l →
      Written node atom tables right r → Written node atom (table :: tables) (left ++ t :: right) (node o l r)

/-- What is written at a level is written at every looser one. -/
theorem Written.drop {node : O → E → E → E} {atom : List T → E → Prop} {tables : List (T → Option O)} {ts : List T}
    {e : E} {j k : Nat} (hk : k ≤ j) (h : Written node atom (tables.drop j) ts e) :
    Written node atom (tables.drop k) ts e := by
  have hlooser : ∀ looser, Written node atom (looser ++ tables.drop j) ts e := by
    intro looser
    induction looser with
    | nil => exact h
    | cons table looser ih => exact .tighter ih
  have hsplit : tables.drop k = (tables.drop k).take (j - k) ++ tables.drop j := by
    have := List.take_append_drop (j - k) (tables.drop k)
    rw [List.drop_drop, Nat.add_sub_cancel' hk] at this
    exact this.symm
  rw [hsplit]
  exact hlooser _

section Written

variable {node : O → E → E → E} {operand : Reader T E ε} {stop : List T → Prop}
  {table : T → Option O} {tables : List (T → Option O)} {ts rest : List T} {e : E}

theorem loop_stops (h : ∀ t ∈ rest.head?, table t = none) (n : Nat) (e : E) :
    loop node table operand n e rest = .ok (e, rest) := by
  cases n with
  | zero => rfl
  | succ n =>
    cases rest with
    | nil => rfl
    | cons t rest => simp [loop, h t rfl]

/-- The loop of a level, come as far as an operand of it. -/
def Opens (node : O → E → E → E) (operand : Reader T E ε) (stop : List T → Prop)
    (table : T → Option O) (tables : List (T → Option O)) (ts : List T) (e : E) : Prop :=
  ∀ rest, stop rest → Past tables rest → ∃ n, rest.length ≤ n ∧
    climb node operand (table :: tables) (ts ++ rest) = loop node table (climb node operand tables) n e rest

theorem Opens.reads (h : Opens node operand stop table tables ts e) :
    Reads (climb node operand (table :: tables)) (fun ts => stop ts ∧ Past (table :: tables) ts) ts e := by
  rintro rest ⟨hstop, hpast⟩
  obtain ⟨n, -, hn⟩ := h rest hstop fun t ht => hpast t (List.mem_cons_of_mem _ ht)
  rw [hn]
  exact loop_stops (hpast table List.mem_cons_self) n e

theorem opens_tighter (h : Reads (climb node operand tables) (fun ts => stop ts ∧ Past tables ts) ts e) :
    Opens node operand stop table tables ts e := by
  intro rest hstop hpast
  refine ⟨rest.length, Nat.le_refl _, ?_⟩
  show (climb node operand tables (ts ++ rest) >>= _) = _
  rw [h rest ⟨hstop, hpast⟩]
  rfl

/-- An operator goes once more round the loop of its level. -/
theorem Opens.binary {left right : List T} {t : T} {o : O} {l r : E} (htable : table t = some o)
    (hstop : ∀ rest, stop (t :: rest)) (hpast : ∀ tight ∈ tables, tight t = none)
    (hl : Opens node operand stop table tables left l)
    (hr : Reads (climb node operand tables) (fun ts => stop ts ∧ Past tables ts) right r) :
    Opens node operand stop table tables (left ++ t :: right) (node o l r) := by
  intro rest hrest hends
  have hnext : Past tables (t :: (right ++ rest)) := by
    intro tight htight t' ht'
    cases ht'
    exact hpast tight htight
  obtain ⟨n, hle, hn⟩ := hl (t :: (right ++ rest)) (hstop _) hnext
  obtain ⟨m, rfl⟩ : ∃ m, n = m + 1 := ⟨n - 1, by simp at hle; omega⟩
  refine ⟨m, by simp at hle; omega, ?_⟩
  rw [List.append_assoc, List.cons_append, hn, loop]
  simp only [htable, hr rest ⟨hrest, hends⟩]
  rfl

/-- What is written is read back, and the loop of its loosest level comes as far as that. -/
theorem Written.opens (hdistinct : Distinct tables)
    (hstop : ∀ table ∈ tables, ∀ t, (table t).isSome → ∀ rest, stop (t :: rest))
    (h : Written node (Reads operand stop) tables ts e) :
    Reads (climb node operand tables) (fun ts => stop ts ∧ Past tables ts) ts e ∧
      ∀ table tighter, tables = table :: tighter → Opens node operand stop table tighter ts e := by
  induction h with
  | atom h => exact ⟨fun rest hrest => h rest hrest.1, by rintro table tighter ⟨⟩⟩
  | tighter _ ih =>
    have hread := (ih (List.pairwise_cons.1 hdistinct).2 fun table htable =>
      hstop table (List.mem_cons_of_mem _ htable)).1
    exact ⟨(opens_tighter hread).reads, by rintro table tighter ⟨⟩; exact opens_tighter hread⟩
  | @binary table tables left right t o l r htable _ _ ihl ihr =>
    obtain ⟨happart, htighter⟩ := List.pairwise_cons.1 hdistinct
    have hright := (ihr htighter fun tight htight => hstop tight (List.mem_cons_of_mem _ htight)).1
    have hsome : (table t).isSome := by simp [htable]
    have hopen := Opens.binary htable (hstop table List.mem_cons_self t hsome)
      (fun tight htight => happart tight htight t hsome) ((ihl hdistinct hstop).2 _ _ rfl) hright
    exact ⟨hopen.reads, by rintro table tighter ⟨⟩; exact hopen⟩

/-- **What is written is read back**, before all that no operator of its levels starts and
an operand may stand before. -/
theorem Written.read (hdistinct : Distinct tables)
    (hstop : ∀ table ∈ tables, ∀ t, (table t).isSome → ∀ rest, stop (t :: rest))
    (h : Written node (Reads operand stop) tables ts e) :
    Reads (climb node operand tables) (fun ts => stop ts ∧ Past tables ts) ts e :=
  (h.opens hdistinct hstop).1

end Written

end Precedence

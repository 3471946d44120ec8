import Grmpl.Core.Reads

/-!
# The operators of a query, on collections

Each operator of a plan as a function of its operands' rows. An index past the end of a
row stops the operator, and with it the evaluation: such a function has no answer.

* `Tuple.key`, `Tuple.project`, `Tuple.concat`: the columns of a row.
* `mapped`, `filtered`, `joinMultisets`: the row-wise operators and the join.
* `Agg`, `foldAgg`, `reduceSnapshot`: the aggregates.
* `distinctCells`, `inherit`: scoped context.
-/

open OrdMap

namespace Grmpl

/-! ## Rows -/

namespace Tuple

/-- The cells of some columns, none if a column is past the end. -/
def key (t : Tuple) (cols : List Nat) : Option (List Value) := cols.mapM (t.cells[·]?)

def project (t : Tuple) (cols : List Nat) : Option Tuple := (t.key cols).map Tuple.mk

def concat (l r : Tuple) : Tuple := ⟨l.cells ++ r.cells⟩

end Tuple

/-- Every row replaced by its image, equal images summed. -/
def mapped (f : Tuple → Option Tuple) (m : Multiset) : Option Multiset :=
  (m.rows.mapM fun e => (f e.1).map (·, e.2)).map ZSet.ofPairs

/-- The rows that pass a test. -/
def filtered (p : Tuple → Option Bool) (m : Multiset) : Option Multiset :=
  (m.rows.mapM fun e => p e.1).map fun _ => m.filter fun t => (p t).getD false

/-- Each row under its key. -/
def keyed (cols : List Nat) (rows : Rows) : Option (List (List Value × Tuple × Diff)) :=
  rows.mapM fun e => (e.1.key cols).map (·, e)

/-- Matching rows concatenated, their weights multiplied. -/
def joinMultisets (left : Multiset) (lk : List Nat) (right : Multiset) (rk : List Nat) :
    Option Multiset := do
  let idx ← keyed rk right.rows
  let ls ← keyed lk left.rows
  pure (ZSet.ofPairs (ls.flatMap fun l => (idx.filter fun r => r.1 = l.1).map fun r =>
    (l.2.1.concat r.2.1, l.2.2 * r.2.2)))

/-! ## Aggregates -/

/-- What a group is folded with; all but a count name the column they fold over. -/
inductive Agg where
  | count
  | sum (col : Nat)
  | min (col : Nat)
  | max (col : Nat)
  deriving DecidableEq

/-- A value as a summand; what is no integer adds nothing. -/
def Value.summand : Value → Int64
  | .int n => n
  | _ => 0

/-- A group that is not empty, folded to one value. -/
def foldAgg (members : List Tuple) : Agg → Option Value
  | .count => some (.int (Int64.ofNat members.length))
  | .sum c => (members.mapM (·.cells[c]?)).map fun vs => .int (vs.foldl (fun acc v => acc + v.summand) 0)
  | .min c => do (← members.mapM (·.cells[c]?)).min?
  | .max c => do (← members.mapM (·.cells[c]?)).max?

/-- The present rows by their keys. -/
def groups (rows : List (List Value × Tuple × Diff)) : List (Tuple × List Tuple) :=
  rows.foldl (fun gs r => put ⟨r.1⟩ ((lookup ⟨r.1⟩ gs).getD [] ++ [r.2.1]) gs) []

/-- One row of weight one for each group: its key, and what it folds to. -/
def reduceSnapshot (input : Multiset) (keyCols : List Nat) (agg : Agg) : Option Multiset := do
  let present ← keyed keyCols (input.rows.filter fun e => 0 < e.2)
  let out ← (groups present).mapM fun g => (foldAgg g.2 agg).map fun v => (⟨g.1.cells ++ [v]⟩, 1)
  pure (ZSet.empty.addAll out)

/-! ## Scoped context -/

/-- The distinct values of a column. -/
def distinctCells (rows : Multiset) (col : Nat) : List Value :=
  ((rows.rows.filterMap fun e => e.1.cells[col]?).insertionSort (· ≤ ·)).dedup

/-- A binding of the key asked for: the ends of its span, and the value. -/
structure Binding where
  first : Value
  last : Value
  value : Value

/-- The more specific is the greater: the latest start, then the earliest end, then the
least value. -/
def Binding.cmp (a b : Binding) : Ordering :=
  (compare a.first b.first).then ((compare b.last a.last).then (compare b.value a.value))

/-- The live bindings of a key. -/
def scopesOf (key : Value) (ctx : Rows) : List Binding :=
  (ctx.filter fun e => 0 < e.2).filterMap fun e => match e.1.cells with
    | [first, last, k, v] => if k = key then some ⟨first, last, v⟩ else none
    | _ => none

/-- The most specific of the scopes a value lies in. -/
def innermost (scopes : List Binding) (v : Value) : Option Binding :=
  (scopes.filter fun s => s.first ≤ v && v ≤ s.last).foldl
    (fun best s => match best with
      | none => some s
      | some b => if b.cmp s = .gt then some b else some s) none

/-- Each row extended with the value its entity inherits; a row that inherits nothing is
dropped. -/
def inherit (rows : Multiset) (col : Nat) (key : Value) (ctx : Rows) : Multiset :=
  let scopes := scopesOf key ctx
  ZSet.ofPairs (rows.rows.filterMap fun e => do
    let v ← e.1.cells[col]?
    let s ← innermost scopes v
    pure (⟨e.1.cells ++ [s.value]⟩, e.2))

/-! ## All or nothing -/

theorem mapM_cons_some {α β : Type} {f : α → Option β} {a : α} {as : List α} {l : List β} :
    (a :: as).mapM f = some l ↔ ∃ b bs, f a = some b ∧ as.mapM f = some bs ∧ l = b :: bs := by
  rw [List.mapM_cons]
  cases f a with
  | none => simp
  | some b =>
    cases as.mapM f with
    | none => simp
    | some bs => simp [eq_comm]

/-- A list of answers answers the questions one by one. -/
theorem mapM_some_iff {α β : Type} {f : α → Option β} : ∀ {as : List α} {bs : List β},
    as.mapM f = some bs ↔ List.Forall₂ (fun a b => f a = some b) as bs := by
  intro as
  induction as with
  | nil => simp [eq_comm]
  | cons a as ih =>
    intro bs
    rw [mapM_cons_some, List.forall₂_cons_left_iff]
    simp only [ih]

/-- Nothing is left out where every question has an answer. -/
theorem mapM_isSome {α β : Type} {f : α → Option β} : ∀ {l : List α}, (∀ a ∈ l, (f a).isSome) →
    ∃ bs, l.mapM f = some bs := by
  intro l
  induction l with
  | nil => exact fun _ => ⟨[], rfl⟩
  | cons a l ih =>
    intro h
    obtain ⟨b, hb⟩ := Option.isSome_iff_exists.1 (h a List.mem_cons_self)
    obtain ⟨bs, hbs⟩ := ih fun x hx => h x (List.mem_cons_of_mem a hx)
    exact ⟨b :: bs, mapM_cons_some.2 ⟨b, bs, hb, hbs, rfl⟩⟩

/-- Every answer is one to some question. -/
theorem mem_of_mapM {α β : Type} {f : α → Option β} {as : List α} {bs : List β}
    (h : as.mapM f = some bs) {b : β} (hb : b ∈ bs) : ∃ a ∈ as, f a = some b := by
  have hall := mapM_some_iff.1 h
  induction hall with
  | nil => exact absurd hb (by simp)
  | cons hab hrest ih =>
    rcases List.mem_cons.1 hb with rfl | hb
    · exact ⟨_, List.mem_cons_self, hab⟩
    · obtain ⟨a, ha, hf⟩ := ih (mapM_some_iff.2 hrest) hb
      exact ⟨a, List.mem_cons_of_mem _ ha, hf⟩

end Grmpl

import Grmpl.Core.TraceStore
import Grmpl.Lib.ZSet

/-!
# The reads of a store, and the contract they keep

What the query engine asks of a store: the rows of a relation as of an edition,
whole or restricted, the updates of an interval, the difference of two editions,
and whether anything moved in between. A store answers each in its own way; the
contract says what the answers are, in terms of the patches committed.

* `EditionReader`, `DynTraceStore`: the two traits, as records of their methods.
* `TraceStore.dyn`: the default methods, over a store that keeps its patches.
* `Keeps`: the contract; `TraceStore.dyn_keeps`: the defaults keep it.
* `TraceStore.contents`: a relation as of an edition, as a signed collection.
-/

open OrdMap

namespace Grmpl

abbrev Rows := List (Tuple × Diff)

/-- A relation's rows, or any query's answer: tuples with their weights. -/
abbrev Multiset := ZSet Tuple

/-! ## Restrictions -/

/-- The least value above one, where that is a plain next value. -/
def Value.successor : Value → Option Value
  | .ent e => if e.id.toNat + 1 < 2 ^ 64 then some (.ent ⟨e.id + 1⟩) else none
  | .int n => if n.toInt + 1 < 2 ^ 63 then some (.int (n + 1)) else none
  | _ => none

/-- Between a value and the next plain value there is only the value. -/
theorem Value.successor_spec {k s : Value} (h : k.successor = some s) (c : Value) :
    k ≤ c ∧ c < s ↔ c = k := by
  have hcmp : ∀ a b : Value, a < b ↔ Value.cmp a b = .lt := fun a b => by
    rw [← Value.compare_def, compare_lt_iff_lt]
  rw [← not_lt, hcmp, hcmp]
  cases k with
  | ent e =>
    simp only [successor] at h
    split_ifs at h with hlt
    cases h
    have hnext : (e.id + 1).toNat = e.id.toNat + 1 := by
      rw [UInt64.toNat_add]
      exact Nat.mod_eq_of_lt hlt
    cases c with
    | ent f =>
      simp only [cmp, cmpEntity, hnext, compare_lt_iff_lt, ent.injEq]
      refine ⟨fun hf => ?_, fun hf => by rw [hf]; omega⟩
      have hid : f.id = e.id := UInt64.toNat_inj.1 (by omega)
      cases e
      cases f
      simpa using hid
    | _ => simp [cmp, rank, compare_lt_iff_lt]
  | int n =>
    simp only [successor] at h
    split_ifs at h with hlt
    cases h
    have hnext : (n + 1).toInt = n.toInt + 1 := by
      rw [Int64.toInt_add]
      have := n.le_toInt
      exact Int.bmod_eq_of_le (by simp at *; omega) (by simp at *; omega)
    cases c with
    | int m =>
      simp only [cmp, cmpInt, hnext, compare_lt_iff_lt, int.injEq]
      refine ⟨fun hm => Int64.toInt_inj.1 (by omega), fun hm => by rw [hm]; omega⟩
    | _ => simp [cmp, rank, compare_lt_iff_lt]
  | _ => simp [successor] at h

/-- A row in the half-open range of tuples. -/
def inRange (lo hi t : Tuple) : Bool := lo ≤ t && t < hi

/-- Rows between a row and that row with its last cell raised start with it. -/
theorem take_of_inRange {pre : Tuple} {last next : Value} (hlast : pre.cells.getLast? = some last)
    (hnext : last.successor = some next) {t : Tuple}
    (h : inRange pre ⟨pre.cells.dropLast ++ [next]⟩ t = true) : t.cells.take pre.arity = pre.cells := by
  have hcmp : ∀ a b : Value, a < b ↔ Value.cmp a b = .lt := fun a b => by
    rw [← Value.compare_def, compare_lt_iff_lt]
  have hpre : pre.cells = pre.cells.dropLast ++ [last] :=
    (List.dropLast_append_getLast? last hlast).symm
  simp only [inRange, Bool.and_eq_true, decide_eq_true_eq] at h
  obtain ⟨hlo, hhi⟩ := h
  rw [← not_lt, ← compare_lt_iff_lt, Tuple.compare_def, hpre] at hlo
  rw [← compare_lt_iff_lt, Tuple.compare_def] at hhi
  obtain ⟨c, rest, ht, hclo, hchi⟩ := Value.cmp_lawful.lex_between hlo hhi
  rw [Ne, ← hcmp, not_lt] at hclo
  obtain rfl := (Value.successor_spec hnext c).1 ⟨hclo, (hcmp _ _).2 hchi⟩
  rw [Tuple.arity, ht, List.append_cons, ← hpre, List.take_left]

/-- A row whose column lies in the half-open range of values. -/
def inColumn (col : Nat) (lo hi : Value) (t : Tuple) : Bool :=
  match t.cells[col]? with
  | some v => lo ≤ v && v < hi
  | none => false

/-- A row whose column holds one of the keys. -/
def hasKey (col : Nat) (keys : List Value) (t : Tuple) : Bool :=
  match t.cells[col]? with
  | some v => keys.contains v
  | none => false

/-- Whether a row's inclusive span contains one of the points. -/
def containsAny (t : Tuple) (first last : Nat) (points : List Value) : Bool :=
  match t.cells[first]?, t.cells[last]? with
  | some lo, some hi => points.any fun p => lo ≤ p && p ≤ hi
  | _, _ => false

/-! ## The traits -/

/-- An immutable view of the world at one edition. -/
structure EditionReader where
  edition : Nat
  read : RelId → Result Rows
  readRange : RelId → Tuple → Tuple → Result Rows
  readRangeOn : RelId → Nat → Value → Value → Result Rows
  readContaining : RelId → Nat → Nat → List Value → Result Rows
  touchedSince : Nat → List RelId → Result Bool

/-- What the engine asks of a store. -/
structure DynTraceStore where
  current : Nat
  readAt : RelId → Nat → Result Rows
  scanUpdates : RelId → Nat → Nat → Result (List Update)
  lookup : RelId → Nat → Nat → List Value → Result Rows
  readContaining : RelId → Nat → Nat → Nat → List Value → Result Rows
  touchedSince : Nat → Nat → List RelId → Result Bool
  touchedRangeSince : Nat → Nat → RelId → Tuple → Tuple → Result Bool
  compare : RelId → Nat → Nat → Result (List (Tuple × Diff × Diff))
  readerAt : Nat → EditionReader

/-- The rows that pass a test. -/
def keepRows (p : Tuple → Bool) (rows : Rows) : Rows := rows.filter fun e => p e.1

/-- Both ends of a comparison, in tuple order: every row of either, with the
weight it has at each. -/
def bothSides (a b : Rows) : List (Tuple × Diff × Diff) :=
  b.foldl (fun sides e => put e.1 (((lookup e.1 sides).getD (0, 0)).1, e.2) sides)
    (a.foldl (fun sides e => put e.1 (e.2, ((lookup e.1 sides).getD (0, 0)).2) sides) [])

namespace TraceStore

/-- The default reader: every read re-enters the store at the pinned edition. -/
def forwardingReader (s : TraceStore) (at' : Nat) : EditionReader where
  edition := at'
  read rel := s.readAt rel at'
  readRange rel lo hi := do pure (keepRows (inRange lo hi) (← s.readAt rel at'))
  readRangeOn rel col lo hi := do pure (keepRows (inColumn col lo hi) (← s.readAt rel at'))
  readContaining rel first last points := do
    pure (keepRows (fun t => containsAny t first last points) (← s.readAt rel at'))
  touchedSince start _ := if at' ≤ start then .ok false else .ok true

/-- The trait's default methods over the store's own reads and scans. -/
def dyn (s : TraceStore) : DynTraceStore where
  current := s.current
  readAt := s.readAt
  scanUpdates := s.scanUpdates
  lookup rel at' col keys := do pure (keepRows (hasKey col keys) (← s.readAt rel at'))
  readContaining rel at' first last points := do
    pure (keepRows (fun t => containsAny t first last points) (← s.readAt rel at'))
  touchedSince _ _ _ := .ok true
  touchedRangeSince _ _ _ _ _ := .ok true
  compare rel a b := do
    let sides := bothSides (← s.readAt rel a) (← s.readAt rel b)
    pure (sides.filter fun e => e.2.1 ≠ e.2.2)
  readerAt := s.forwardingReader

/-- A relation as of an edition. -/
def contents (s : TraceStore) (at' : Nat) (rel : RelId) : Multiset :=
  ⟨s.rowsAt rel at', s.sorted_rowsAt rel at'⟩

/-- No commit of the interval updates the relation. -/
def Still (s : TraceStore) (rel : RelId) (start upTo : Nat) : Prop :=
  s.updatesBetween rel start upTo = []

end TraceStore

/-! ## The contract -/

/-- An answer that is these rows, in some order. -/
def Answers (answer : Result Rows) (rows : Rows) : Prop :=
  ∃ got, answer = .ok got ∧ got.Perm rows

/-- A reader keeps the contract over a history: its reads are the relation as of
its edition, and what it calls untouched was not. -/
structure ReaderKeeps (r : EditionReader) (h : TraceStore) : Prop where
  read (rel : RelId) : Answers (r.read rel) (h.rowsAt rel r.edition)
  readRange (rel : RelId) (lo hi : Tuple) :
    Answers (r.readRange rel lo hi) (keepRows (inRange lo hi) (h.rowsAt rel r.edition))
  readRangeOn (rel : RelId) (col : Nat) (lo hi : Value) :
    Answers (r.readRangeOn rel col lo hi) (keepRows (inColumn col lo hi) (h.rowsAt rel r.edition))
  readContaining (rel : RelId) (first last : Nat) (points : List Value) :
    Answers (r.readContaining rel first last points)
      (keepRows (fun t => containsAny t first last points) (h.rowsAt rel r.edition))
  touchedSince (start : Nat) (rels : List RelId) : ∃ b, r.touchedSince start rels = .ok b ∧
    (b = false → ∀ rel ∈ rels, h.Still rel start r.edition)

/-- A store keeps the contract over a history: at the editions from the watermark
on, each read is the relation as of its edition, a scan sums to the difference of
its two ends, a comparison is that difference, and what it calls untouched was
not. -/
structure Keeps (s : DynTraceStore) (h : TraceStore) : Prop where
  current : s.current = h.current
  readAt {at' : Nat} (hat : h.watermark ≤ at') (rel : RelId) :
    Answers (s.readAt rel at') (h.rowsAt rel at')
  scanUpdates {start upTo : Nat} (hstart : h.watermark ≤ start) (hle : start ≤ upTo) (rel : RelId) :
    ∃ us, s.scanUpdates rel start upTo = .ok us ∧
      ZSet.total (us.map fun u => (u.tuple, u.diff))
        = (h.contents upTo rel).den - (h.contents start rel).den
  lookup {at' : Nat} (hat : h.watermark ≤ at') (rel : RelId) (col : Nat) (keys : List Value) :
    Answers (s.lookup rel at' col keys) (keepRows (hasKey col keys) (h.rowsAt rel at'))
  readContaining {at' : Nat} (hat : h.watermark ≤ at') (rel : RelId) (first last : Nat)
      (points : List Value) : Answers (s.readContaining rel at' first last points)
    (keepRows (fun t => containsAny t first last points) (h.rowsAt rel at'))
  touchedSince (start upTo : Nat) (rels : List RelId) : ∃ b,
    s.touchedSince start upTo rels = .ok b ∧ (b = false → ∀ rel ∈ rels, h.Still rel start upTo)
  touchedRangeSince (start upTo : Nat) (rel : RelId) (lo hi : Tuple) : ∃ b,
    s.touchedRangeSince start upTo rel lo hi = .ok b ∧
      (b = false → ∀ u ∈ h.updatesBetween rel start upTo, inRange lo hi u.tuple = false)
  compare {a b : Nat} (ha : h.watermark ≤ a) (hb : h.watermark ≤ b) (rel : RelId) :
    ∃ cs, s.compare rel a b = .ok cs ∧ (cs.Pairwise fun x y => x.1 < y.1) ∧
      ∀ t wa wb, (t, wa, wb) ∈ cs ↔
        (h.contents a rel).weight t = wa ∧ (h.contents b rel).weight t = wb ∧ wa ≠ wb
  readerAt {at' : Nat} (hat : h.watermark ≤ at') :
    (s.readerAt at').edition = at' ∧ ReaderKeeps (s.readerAt at') h

/-! ## Histories -/

namespace TraceStore

variable {h : TraceStore} {rel : RelId}

theorem clean_contents (h : TraceStore) (at' : Nat) (rel : RelId) : (h.contents at' rel).Clean :=
  h.weighted_rowsAt rel at'

@[simp] theorem contents_rows (h : TraceStore) (at' : Nat) (rel : RelId) :
    (h.contents at' rel).rows = h.rowsAt rel at' := rfl

/-- A relation's weights are what its updates sum to. -/
theorem weight_contents (h : TraceStore) (at' : Nat) (rel : RelId) (t : Tuple) :
    (h.contents at' rel).weight t = netOn rel t (h.patches.take at').flatten := by
  show (OrdMap.lookup t (addRows rel [] _)).getD 0 = _
  rw [lookup_addRows]
  exact zero_add _

/-- The patches of an interval, as they stand in the log. -/
theorem filter_zipIdx {α : Type} (a b : Nat) : ∀ (l : List α) (n : Nat),
    (((l.zipIdx (n + 1)).filter fun p => a < p.2 ∧ p.2 ≤ b).map Prod.fst)
      = (l.drop (a - n)).take (b - max a n) := by
  intro l
  induction l with
  | nil => simp
  | cons x l ih =>
    intro n
    rw [List.zipIdx_cons]
    by_cases ha : a ≤ n
    · have htail := ih (n + 1)
      rw [Nat.sub_eq_zero_of_le (by omega : a ≤ n + 1), max_eq_right (by omega : a ≤ n + 1),
        List.drop_zero] at htail
      rw [Nat.sub_eq_zero_of_le ha, max_eq_right ha, List.drop_zero]
      by_cases hb : n + 1 ≤ b
      · rw [List.filter_cons_of_pos (by simp; omega), List.map_cons, htail,
          show b - n = (b - (n + 1)) + 1 by omega, List.take_succ_cons]
      · rw [List.filter_cons_of_neg (by simp; omega), htail,
          show b - n = 0 by omega, show b - (n + 1) = 0 by omega]
        rfl
    · rw [List.filter_cons_of_neg (by simp; omega), ih, max_eq_left (by omega : n + 1 ≤ a),
        max_eq_left (by omega : n ≤ a), show a - n = (a - (n + 1)) + 1 by omega,
        List.drop_succ_cons]

/-- The updates of an interval are its patches', in order. -/
theorem updatesBetween_pairs (h : TraceStore) (rel : RelId) (start upTo : Nat) :
    (h.updatesBetween rel start upTo).map (fun u => (u.tuple, u.diff))
      = ((((h.patches.drop start).take (upTo - start)).flatten).filter
          fun u => u.1 = rel).map fun u => u.2 := by
  have hfst := filter_zipIdx start upTo h.patches 0
  rw [Nat.sub_zero, max_eq_left (Nat.zero_le start)] at hfst
  rw [← hfst, updatesBetween]
  generalize (h.patches.zipIdx (0 + 1)).filter _ = ps
  induction ps with
  | nil => rfl
  | cons p ps ih =>
    rw [List.flatMap_cons, List.map_append, ih, List.map_cons, List.flatten_cons,
      List.filter_append, List.map_append, List.map_map]
    rfl

theorem total_filter_rel (rel : RelId) (t : Tuple) (us : List (RelId × Tuple × Diff)) :
    ZSet.total ((us.filter fun u => u.1 = rel).map fun u => u.2) t = netOn rel t us := by
  induction us with
  | nil => rfl
  | cons u us ih =>
    rw [netOn_cons, ← ih]
    by_cases hrel : u.1 = rel
    · rw [List.filter_cons_of_pos (by simpa using hrel), List.map_cons, ZSet.total_cons,
        Finsupp.add_apply, Finsupp.single_apply]
      simp [hrel]
    · rw [List.filter_cons_of_neg (by simpa using hrel), if_neg fun h => hrel h.1, zero_add]

/-- **The updates of an interval sum to the difference of its ends.** -/
theorem total_updatesBetween (h : TraceStore) (rel : RelId) {start upTo : Nat} (hle : start ≤ upTo) :
    ZSet.total ((h.updatesBetween rel start upTo).map fun u => (u.tuple, u.diff))
      = (h.contents upTo rel).den - (h.contents start rel).den := by
  rw [updatesBetween_pairs]
  ext t
  have hsplit : h.patches.take upTo
      = h.patches.take start ++ (h.patches.drop start).take (upTo - start) := by
    rw [← List.take_add, Nat.add_sub_cancel' hle]
  rw [total_filter_rel, Finsupp.sub_apply, ZSet.den_apply, ZSet.den_apply, weight_contents,
    weight_contents, hsplit, List.flatten_append, netOn_append, add_sub_cancel_left]

/-- A relation no commit of an interval updates is the same at both ends. -/
theorem Still.contents_eq {start upTo : Nat} (hs : h.Still rel start upTo) (hle : start ≤ upTo) :
    h.contents start rel = h.contents upTo rel := by
  refine ZSet.ext_of_den (h.clean_contents start rel) (h.clean_contents upTo rel) ?_
  have hsum := h.total_updatesBetween rel hle
  rw [Still] at hs
  rw [hs, List.map_nil, ZSet.total_nil] at hsum
  exact (sub_eq_zero.1 hsum.symm).symm

/-- Nothing had been committed at the first edition. -/
@[simp] theorem contents_zero (h : TraceStore) (rel : RelId) : h.contents 0 rel = ZSet.empty :=
  ZSet.ext (by simp [rowsAt, addRows, ZSet.empty])

/-! ## The defaults keep the contract -/

theorem lookup_bothSides (t : Tuple) : ∀ {a b : Rows}, Sorted a → Sorted b →
    (OrdMap.lookup t (bothSides a b)).getD (0, 0)
      = ((OrdMap.lookup t a).getD 0, (OrdMap.lookup t b).getD 0) := by
  have left : ∀ (a : Rows) (sides : List (Tuple × Diff × Diff)), Sorted a →
      (OrdMap.lookup t (a.foldl (fun sides e =>
        put e.1 (e.2, ((OrdMap.lookup e.1 sides).getD (0, 0)).2) sides) sides)).getD (0, 0)
        = ((OrdMap.lookup t a).getD ((OrdMap.lookup t sides).getD (0, 0)).1,
            ((OrdMap.lookup t sides).getD (0, 0)).2) := by
    intro a
    induction a with
    | nil => exact fun _ _ => rfl
    | cons e a ih =>
      intro sides hs
      rw [List.foldl_cons, ih _ (List.pairwise_cons.1 hs).2, lookup_put]
      by_cases ht : t = e.1
      · subst ht
        rw [if_pos rfl, lookup_absent fun x hx => ((List.pairwise_cons.1 hs).1 x hx).ne',
          lookup_of_mem (v := e.2) hs (by simp)]
        rfl
      · rw [if_neg ht, ← List.singleton_append, lookup_append (by simpa using Ne.symm ht)]
  have right : ∀ (b : Rows) (sides : List (Tuple × Diff × Diff)), Sorted b →
      (OrdMap.lookup t (b.foldl (fun sides e =>
        put e.1 (((OrdMap.lookup e.1 sides).getD (0, 0)).1, e.2) sides) sides)).getD (0, 0)
        = (((OrdMap.lookup t sides).getD (0, 0)).1,
            (OrdMap.lookup t b).getD ((OrdMap.lookup t sides).getD (0, 0)).2) := by
    intro b
    induction b with
    | nil => exact fun _ _ => rfl
    | cons e b ih =>
      intro sides hs
      rw [List.foldl_cons, ih _ (List.pairwise_cons.1 hs).2, lookup_put]
      by_cases ht : t = e.1
      · subst ht
        rw [if_pos rfl, lookup_absent fun x hx => ((List.pairwise_cons.1 hs).1 x hx).ne',
          lookup_of_mem (v := e.2) hs (by simp)]
        rfl
      · rw [if_neg ht, ← List.singleton_append, lookup_append (by simpa using Ne.symm ht)]
  intro a b ha hb
  rw [bothSides, right b _ hb, left a [] ha]
  rfl

theorem sorted_bothSides (a b : Rows) : Sorted (bothSides a b) := by
  have fold : ∀ (f : List (Tuple × Diff × Diff) → Tuple × Diff → Diff × Diff) (l : Rows)
      (sides : List (Tuple × Diff × Diff)), Sorted sides →
      Sorted (l.foldl (fun sides e => put e.1 (f sides e) sides) sides) := by
    intro f l
    induction l with
    | nil => exact fun _ h => h
    | cons e l ih => exact fun sides h => ih _ (sorted_put h)
  exact fold _ b _ (fold _ a [] List.Pairwise.nil)

theorem answers_self (rows : Rows) : Answers (.ok rows) rows := ⟨rows, rfl, List.Perm.refl _⟩

theorem readAt_of_le {at' : Nat} (hat : h.watermark ≤ at') (rel : RelId) :
    h.readAt rel at' = .ok (h.rowsAt rel at') := if_neg hat.not_gt

/-- Reading a relation whole and keeping the rows that pass a test. -/
theorem answers_keepRows {at' : Nat} (hat : h.watermark ≤ at') (rel : RelId) (p : Tuple → Bool) :
    Answers (do pure (keepRows p (← h.readAt rel at'))) (keepRows p (h.rowsAt rel at')) := by
  rw [readAt_of_le hat]
  exact answers_self _

theorem answers_readAt {at' : Nat} (hat : h.watermark ≤ at') (rel : RelId) :
    Answers (h.readAt rel at') (h.rowsAt rel at') := by
  rw [readAt_of_le hat]
  exact answers_self _

theorem forwardingReader_keeps {at' : Nat} (hat : h.watermark ≤ at') :
    ReaderKeeps (h.forwardingReader at') h where
  read rel := answers_readAt hat rel
  readRange rel lo hi := answers_keepRows hat rel _
  readRangeOn rel col lo hi := answers_keepRows hat rel _
  readContaining rel first last points := answers_keepRows hat rel _
  touchedSince start rels := by
    show ∃ b, (if at' ≤ start then Except.ok false else .ok true) = .ok b ∧ _
    split_ifs with hle
    · refine ⟨false, rfl, fun _ rel _ => ?_⟩
      have hnil := updatesBetween_pairs h rel start at'
      rw [Nat.sub_eq_zero_of_le hle, List.take_zero] at hnil
      exact List.map_eq_nil_iff.1 hnil
    · exact ⟨true, rfl, fun hb => nomatch hb⟩

/-- **The trait's default methods keep its contract.** -/
theorem dyn_keeps (h : TraceStore) : Keeps h.dyn h where
  current := rfl
  readAt hat rel := answers_readAt hat rel
  scanUpdates hstart hle rel :=
    ⟨_, if_neg hstart.not_gt, h.total_updatesBetween rel hle⟩
  lookup hat rel col keys := answers_keepRows hat rel _
  readContaining hat rel first last points := answers_keepRows hat rel _
  touchedSince start upTo rels := ⟨true, rfl, fun hb => nomatch hb⟩
  touchedRangeSince start upTo rel lo hi := ⟨true, rfl, fun hb => nomatch hb⟩
  compare {a b} ha hb rel := by
    refine ⟨(bothSides (h.rowsAt rel a) (h.rowsAt rel b)).filter fun e => e.2.1 ≠ e.2.2, ?_,
      (sorted_bothSides _ _).filter _, fun t wa wb => ?_⟩
    · show (h.readAt rel a >>= fun ra => h.readAt rel b >>= fun rb =>
        (pure ((bothSides ra rb).filter fun e => e.2.1 ≠ e.2.2) : Result _)) = _
      rw [readAt_of_le ha, readAt_of_le hb]
      rfl
    · have hlook := lookup_bothSides t (h.sorted_rowsAt rel a) (h.sorted_rowsAt rel b)
      rw [List.mem_filter]
      constructor
      · rintro ⟨hmem, hne⟩
        rw [lookup_of_mem (sorted_bothSides _ _) hmem] at hlook
        obtain ⟨rfl, rfl⟩ := Prod.mk.inj hlook
        exact ⟨rfl, rfl, by simpa using hne⟩
      · rintro ⟨rfl, rfl, hne⟩
        refine ⟨?_, by simpa using hne⟩
        cases hl : OrdMap.lookup t (bothSides (h.rowsAt rel a) (h.rowsAt rel b)) with
        | none =>
          rw [hl] at hlook
          obtain ⟨ha0, hb0⟩ := Prod.mk.inj hlook
          exact absurd (ha0.symm.trans hb0) hne
        | some w =>
          rw [hl] at hlook
          obtain rfl : w = _ := hlook
          exact mem_of_lookup hl
  readerAt hat := ⟨rfl, forwardingReader_keeps hat⟩

end TraceStore

end Grmpl

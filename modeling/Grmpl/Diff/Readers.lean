import Grmpl.Diff.Query

/-!
# A plan over two readers

What a plan answers depends on its reader through the answers it is given, and of the rows
of a span of a column not on their order.

* `Alike`: two answers with the same rows.
* `Query.Asks`: what a plan asks of a reader past the rows of its relations.
* `evalInner_agrees`, `evalSnapshotOn_agrees`: a plan over two readers that agree.
-/

open OrdMap

namespace Grmpl

/-- The same error, or the same rows in some order. -/
def Alike : Result Rows → Result Rows → Prop
  | .ok rows, .ok rows' => rows.Perm rows'
  | .error e, .error e' => e = e'
  | _, _ => False

theorem Alike.refl : ∀ x : Result Rows, Alike x x
  | .ok rows => List.Perm.refl rows
  | .error _ => rfl

theorem Alike.of_eq {x y : Result Rows} (h : x = y) : Alike x y := h ▸ .refl x

/-- Alike answers are both rows or both errors. -/
theorem Alike.isSome {x y : Result Rows} (h : Alike x y) : x.toOption.isSome = y.toOption.isSome :=
  match x, y, h with
  | .ok _, .ok _, _ => rfl
  | .error _, .error _, _ => rfl

theorem ofPairs_perm {l l' : List (Tuple × ℤ)} (h : l.Perm l') : ZSet.ofPairs l = ZSet.ofPairs l' :=
  ZSet.ext_of_den (ZSet.clean_ofPairs l) (ZSet.clean_ofPairs l') (by rw [ZSet.den_ofPairs, ZSet.den_ofPairs, ZSet.total_perm h])

/-- Two readers answer a plan's reads alike. -/
structure EditionReader.Agrees (r r' : EditionReader) : Prop where
  edition : r'.edition = r.edition
  read : r'.read = r.read
  readRange : r'.readRange = r.readRange
  readContaining : r'.readContaining = r.readContaining

namespace Query

/-- Every span of a column a plan reads, and every edition it asks after, meets a condition. -/
def Asks (on : RelId → Nat → Value → Value → Prop) (since : Nat → List RelId → Prop) (reader : EditionReader) : Query → Prop
  | .rangeRelOn r col lo hi => on r col lo hi
  | .map input _ | .filter input _ | .project input _ | .negate input | .distinct input | .reduce input .. | .shared _ input
  | .inherit input .. => input.Asks on since reader
  | .join left right .. | .union left right | .iterate left right => left.Asks on since reader ∧ right.Asks on since reader
  | .materialized plan _ _ cursorRel key _ =>
      (∀ cursor, cursorAt reader cursorRel key = .ok (some cursor) → since cursor plan.baseRelations) ∧ plan.Asks on since reader
  | _ => True

end Query

section Agree

variable {r r' : EditionReader} {on : RelId → Nat → Value → Value → Prop} {since : Nat → List RelId → Prop}

theorem EditionReader.Agrees.storedView (h : r.Agrees r') {rels : List RelId} {cursorRel : RelId} {key : Entity}
    (hsince : ∀ cursor, cursorAt r cursorRel key = .ok (some cursor) → r'.touchedSince cursor rels = r.touchedSince cursor rels)
    (into : RelId) (pre : Tuple) :
    Grmpl.storedView r' rels into pre cursorRel key = Grmpl.storedView r rels into pre cursorRel key := by
  have hcursor : cursorAt r' cursorRel key = cursorAt r cursorRel key := by
    unfold cursorAt
    rw [h.readRange]
  have hrows : storedRows r' into pre = storedRows r into pre := by
    unfold storedRows
    rw [h.readRange, h.read]
  unfold Grmpl.storedView
  rw [hcursor, hrows]
  cases hc : cursorAt r cursorRel key with
  | error e => rfl
  | ok c => cases c with
      | none => rfl
      | some cursor =>
        show (do if ← ask (r'.touchedSince cursor rels) then _ else _) = _
        rw [hsince cursor hc]
        rfl

/-- **A plan is evaluated alike over two readers that answer alike what it asks.** -/
theorem evalInner_agrees (h : r.Agrees r') (hon : ∀ rel col lo hi, on rel col lo hi →
      Alike (r.readRangeOn rel col lo hi) (r'.readRangeOn rel col lo hi))
    (hsince : ∀ start rels, since start rels → r'.touchedSince start rels = r.touchedSince start rels) (fuel : Nat) :
    ∀ (q : Query) (recur : Option Multiset), q.Asks on since r →
      evalInner fuel r' none recur q = evalInner fuel r none recur q := by
  intro q
  induction q with
  | rel rel => 
      intro recur _
      simp only [evalInner, h.read]
  | rangeRel rel lo hi =>
    intro recur _
    simp only [evalInner, h.readRange]
  | rangeRelOn rel col lo hi =>
    intro recur hq
    have halike := hon rel col lo hi hq
    simp only [evalInner, overlay, Option.bind_none]
    match hx : r.readRangeOn rel col lo hi, hy : r'.readRangeOn rel col lo hi, halike with
    | .ok rows, .ok rows', halike =>
      show (pure (ZSet.ofPairs rows') : Eval Multiset) = pure (ZSet.ofPairs rows)
      rw [ofPairs_perm halike]
    | .error e, .error e', halike => rw [show e = e' from halike]
  | map input f ih =>
    intro recur hq
    simp only [evalInner, ih recur hq]
  | filter input pred ih =>
    intro recur hq
    simp only [evalInner, ih recur hq]
  | project input cols ih =>
    intro recur hq
    simp only [evalInner, ih recur hq]
  | join left right leftKey rightKey ihl ihr =>
    intro recur hq
    simp only [evalInner, ihl recur hq.1, ihr recur hq.2]
  | union a b iha ihb =>
    intro recur hq
    simp only [evalInner, iha recur hq.1, ihb recur hq.2]
  | negate a ih =>
    intro recur hq
    simp only [evalInner, ih recur hq]
  | distinct a ih =>
    intro recur hq
    simp only [evalInner, ih recur hq]
  | reduce input key agg ih =>
    intro recur hq
    simp only [evalInner, ih recur hq]
  | recur => exact fun _ _ => rfl
  | iterate init step ihi ihs =>
    intro recur hq
    simp only [evalInner, ihi none hq.1, fun r => ihs (some r) hq.2]
  | inherit input col key ctx ih =>
    intro recur hq
    simp only [evalInner, ih recur hq, h.readContaining]
  | materialized plan into pre cursorRel key reduce ih =>
    intro recur hq
    simp only [evalInner, ih recur hq.2, h.storedView fun c hc => hsince c _ (hq.1 c hc)]
  | shared arc inner ih =>
    intro recur hq
    simp only [evalInner, ih none hq, ih recur hq, h.edition]

/-- And so is the whole plan. -/
theorem evalSnapshotOn_agrees (h : r.Agrees r') (hon : ∀ rel col lo hi, on rel col lo hi →
      Alike (r.readRangeOn rel col lo hi) (r'.readRangeOn rel col lo hi))
    (hsince : ∀ start rels, since start rels → r'.touchedSince start rels = r.touchedSince start rels) (fuel : Nat) {q : Query}
    (hq : q.Asks on since r) : evalSnapshotOn fuel q r' = evalSnapshotOn fuel q r := by
  rw [evalSnapshotOn, evalSnapshotOn, evalInner_agrees h hon hsince fuel q none hq]

end Agree

end Grmpl

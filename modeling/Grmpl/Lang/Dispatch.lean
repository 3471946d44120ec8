import Grmpl.Diff.Fixpoint
import Grmpl.Lang.BehaviorCodec
import Grmpl.Lang.QueryIr
import Mathlib.Data.Finite.Prod

/-!
# Dispatch

A behavior is chosen by a query: what an entity implements is what it or some prototype of
it, however far, owns; of these the least whose guard accepts the message answers it.

* `StoredBehavior.matches`: a guard tested within the message.
* `implementsIr`, `implementedBehaviors`, `selectBehavior`: the query and the choice.
* `Implements`: a chain of prototypes to an owner.
* `implements_rows`: the query's rows.
* `select_behavior_least`: the choice.
-/

namespace Grmpl

/-! ## Guards -/

def RowExpr.column : RowExpr → Option Nat
  | .col i => some i
  | .lit _ => none

mutual

/-- The greatest column a guard names, if it names one. -/
def predMaxCol : PredExpr → Option Nat
  | .eq a b => (a.column.toList ++ b.column.toList).max?
  | .and ps => (predMaxCols ps).max?

def predMaxCols : List PredExpr → List Nat
  | [] => []
  | p :: ps => (predMaxCol p).toList ++ predMaxCols ps

end

/-- Whether a guard accepts a message; one that names a column past the message's end does
not, and is not tested. -/
def StoredBehavior.matches (b : StoredBehavior) (message : Tuple) : Option Bool :=
  if (predMaxCol b.guard).all (· < message.arity) then b.guard.test message else some false

theorem lt_of_max? {l : List Nat} {n : Nat} (h : l.max?.all (· < n) = true) : ∀ c ∈ l, c < n := by
  intro c hc
  cases hm : l.max? with
  | none => rw [List.max?_eq_none_iff.1 hm] at hc; exact absurd hc (by simp)
  | some m =>
    rw [hm, Option.all_some, decide_eq_true_eq] at h
    exact lt_of_le_of_lt ((List.max?_eq_some_iff.1 hm).2 c hc) h

theorem RowExpr.eval_isSome {row : Tuple} : ∀ {e : RowExpr}, (∀ c ∈ e.column, c < row.arity) →
    (e.eval row).isSome
  | .col i, h => by
      rw [RowExpr.eval, List.getElem?_eq_getElem (h i rfl)]
      rfl
  | .lit _, _ => rfl

mutual

/-- A guard that names only columns of the row has an answer on it. -/
theorem PredExpr.test_isSome {row : Tuple} : ∀ {p : PredExpr},
    (predMaxCol p).all (· < row.arity) = true → (p.test row).isSome
  | .eq a b, h => by
      rw [predMaxCol] at h
      have hall := lt_of_max? h
      have ha : (a.eval row).isSome := RowExpr.eval_isSome fun c hc =>
        hall c (List.mem_append_left _ (Option.mem_toList.2 hc))
      have hb : (b.eval row).isSome := RowExpr.eval_isSome fun c hc =>
        hall c (List.mem_append_right _ (Option.mem_toList.2 hc))
      obtain ⟨x, hx⟩ := Option.isSome_iff_exists.1 ha
      obtain ⟨y, hy⟩ := Option.isSome_iff_exists.1 hb
      rw [PredExpr.test, hx, hy]
      rfl
  | .and ps, h => by
      rw [predMaxCol] at h
      rw [PredExpr.test]
      exact PredExpr.testAll_isSome (lt_of_max? h)

theorem PredExpr.testAll_isSome {row : Tuple} : ∀ {ps : List PredExpr},
    (∀ c ∈ predMaxCols ps, c < row.arity) → (PredExpr.testAll row ps).isSome
  | [], _ => rfl
  | p :: ps, h => by
      have hp : (predMaxCol p).all (· < row.arity) = true := by
        cases hm : predMaxCol p with
        | none => rfl
        | some m =>
          have hlt := h m (List.mem_append_left _ (by rw [hm]; exact List.mem_singleton_self m))
          simpa using hlt
      obtain ⟨x, hx⟩ := Option.isSome_iff_exists.1 (PredExpr.test_isSome hp)
      rw [PredExpr.testAll, hx]
      cases x with
      | false => rfl
      | true => exact PredExpr.testAll_isSome fun c hc => h c (List.mem_append_right _ hc)

end

/-- **Matching never fails**, however short the message. -/
theorem StoredBehavior.matches_isSome (b : StoredBehavior) (message : Tuple) : (b.matches message).isSome := by
  unfold StoredBehavior.matches
  split_ifs with h
  · exact PredExpr.test_isSome h
  · rfl

/-! ## The choice -/

/-- What an entity owns, and what it has from its prototypes. -/
def implementsIr (directBehavior proto : RelId) : QueryIr :=
  .iterate (.rel directBehavior) (.project (.join (.rel proto) .recur [1] [0]) [0, 3])

/-- The code in a row of an entity's; what is no code is skipped. -/
def implementedCode (entity : Entity) (e : Tuple × Diff) : Option (List UInt8) :=
  if e.2 ≤ 0 then none
  else match e.1.cells with
    | .ent x :: .code bytes :: _ => if x = entity then some bytes else none
    | _ => none

section Select

variable (fuel : Nat) (directBehavior proto : RelId) (entity : Entity) (store : DynTraceStore) (at' : Nat)

/-- The behaviors an entity implements, in the order of their bytes. -/
def implementedBehaviors : Except Fault (List StoredBehavior) := do
  let rows ← evalSnapshot fuel (implementsIr directBehavior proto).lower store at'
  (rows.rows.filterMap (implementedCode entity)).mapM fun bytes => ask (Wire.decodeBehavior bytes)

/-- The first of the behaviors whose guard accepts the message. -/
def firstMatch (message : Tuple) : List StoredBehavior → Option (Option StoredBehavior)
  | [] => some none
  | b :: bs => do if ← b.matches message then pure (some b) else firstMatch message bs

/-- The behavior an entity answers a message with, if any. -/
def selectBehavior (message : Tuple) : Except Fault (Option StoredBehavior) := do
  inBounds (firstMatch message (← implementedBehaviors fuel directBehavior proto entity store at'))

end Select

/-! ## Chains of prototypes -/

section Chains

variable (direct protos : Multiset)

/-- One entity's prototype is another. -/
def Inherits (e p : Value) : Prop := 0 < protos.weight ⟨[e, p]⟩

/-- An entity owns a behavior. -/
def Owns (e b : Value) : Prop := 0 < direct.weight ⟨[e, b]⟩

/-- Some chain of prototypes leads to an owner. -/
def Implements (e b : Value) : Prop := ∃ o, Relation.ReflTransGen (Inherits protos) e o ∧ Owns direct o b

variable {direct protos}

theorem Owns.implements {e b : Value} (h : Owns direct e b) : Implements direct protos e b := ⟨e, .refl, h⟩

theorem Inherits.implements {e p b : Value} (h : Inherits protos e p) (hp : Implements direct protos p b) :
    Implements direct protos e b := by
  obtain ⟨o, hchain, hown⟩ := hp
  exact ⟨o, .head h hchain, hown⟩

end Chains

/-- Pairs, none at less than nothing. -/
def Paired (rows : Rows) : Prop := ∀ e ∈ rows, ∃ a b, e.1 = ⟨[a, b]⟩ ∧ 0 < e.2

/-- The view of what is implemented, as an iteration. -/
def implementsOf (directBehavior proto : RelId) (store : DynTraceStore) (at' : Nat) : Recursion :=
  ⟨.rel directBehavior, .project (.join (.rel proto) .recur [1] [0]) [0, 3], store, at'⟩

section Rows

variable {store : DynTraceStore} {hist : TraceStore} {at' : Nat} {directBehavior proto : RelId}

theorem implementsOf_addressed :
    (Query.iterate (implementsOf directBehavior proto store at').init
      (implementsOf directBehavior proto store at').step).Addressed := by
  rintro a p p' (h | h | h)
  · exact h.elim
  · exact h.elim
  · exact h.elim

theorem ofPairs_contents {rows : Rows} (h : rows.Perm (hist.rowsAt proto at')) :
    ZSet.ofPairs rows = hist.contents at' proto := by
  refine ZSet.ext_of_den (ZSet.clean_ofPairs _) (hist.clean_contents at' proto) ?_
  rw [ZSet.den_ofPairs, ZSet.total_perm h]
  rfl

/-- A relation of pairs, as the evaluator reads it. -/
theorem answer_rel (hk : Keeps store hist) (hat : hist.watermark ≤ at') (rel : RelId) (fuel : Nat)
    (recur : Option Multiset) :
    answerOf fuel (store.readerAt at') recur (.rel rel) = .ok (hist.contents at' rel) := by
  obtain ⟨hed, hr⟩ := hk.readerAt hat
  obtain ⟨rows, hrows, hperm⟩ := hr.read rel
  rw [hed] at hperm
  show (do let rows ← ask ((store.readerAt at').read rel); pure (ZSet.ofPairs rows)) = _
  rw [hrows, ← ofPairs_contents hperm]
  rfl

/-- A row of the view: an entity and what it implements. -/
def Implemented (direct protos : Multiset) (t : Tuple) : Prop :=
  ∃ e b, t = ⟨[e, b]⟩ ∧ Implements direct protos e b

/-- The view's step keeps to what is implemented. -/
theorem step_implemented (hp : Paired (hist.rowsAt proto at')) {s : Multiset}
    (hs : Shaped (Implemented (hist.contents at' directBehavior) (hist.contents at' proto)) s.rows) :
    ∃ m out, joinMultisets (hist.contents at' proto) [1] s [0] = some m ∧
      mapped (·.project [0, 3]) m = some out ∧
      Shaped (Implemented (hist.contents at' directBehavior) (hist.contents at' proto)) out.rows := by
  have hpairs : Shaped (fun t => ∃ e p, t = ⟨[e, p]⟩ ∧ Inherits (hist.contents at' proto) e p)
      (hist.contents at' proto).rows := by
    intro x hx
    obtain ⟨e, p, ht, hw⟩ := hp x hx
    refine ⟨e, p, ht, ?_⟩
    rw [Inherits, ← ht, ZSet.weight_of_mem hx]
    exact hw
  have hjoined : ∃ m, joinMultisets (hist.contents at' proto) [1] s [0] = some m ∧
      Shaped (fun t => ∃ e p b, t = ⟨[e, p, p, b]⟩ ∧
        Implements (hist.contents at' directBehavior) (hist.contents at' proto) e b) m.rows := by
    refine join_shaped hpairs hs ?_ ?_ ?_
    · rintro _ ⟨e, p, rfl, -⟩
      rfl
    · rintro _ ⟨e, b, rfl, -⟩
      rfl
    · rintro _ _ ⟨e, p, rfl, hep⟩ ⟨p', b, rfl, hpb⟩ hkey
      have hsame : p = p' := by simpa [Tuple.key] using hkey
      subst hsame
      exact ⟨e, p, b, rfl, hep.implements hpb⟩
  obtain ⟨m, hm, hmP⟩ := hjoined
  obtain ⟨out, hout, houtP⟩ := mapped_shaped (f := (·.project [0, 3]))
    (Q := Implemented (hist.contents at' directBehavior) (hist.contents at' proto)) hmP (by
    rintro _ ⟨e, p, b, rfl, himp⟩
    exact ⟨⟨[e, b]⟩, rfl, e, b, rfl, himp⟩)
  exact ⟨m, out, hm, hout, houtP⟩

/-- There are finitely many such rows. -/
theorem finite_implemented (direct protos : Multiset) : {t | Implemented direct protos t}.Finite := by
  let cells : List Value := (direct.rows ++ protos.rows).flatMap (·.1.cells)
  have hfin : {v | v ∈ cells}.Finite := List.finite_toSet cells
  refine (Set.Finite.image2 (fun e b => (⟨[e, b]⟩ : Tuple)) hfin hfin).subset ?_
  rintro _ ⟨e, b, rfl, o, hchain, hown⟩
  have hmem : ∀ {m : Multiset} {a b c : Value}, m.rows ⊆ direct.rows ++ protos.rows →
      0 < m.weight ⟨[a, b]⟩ → c ∈ [a, b] → c ∈ cells :=
    fun hsub hw hc => List.mem_flatMap.2 ⟨_, hsub (ZSet.mem_of_weight hw.ne'), hc⟩
  have howned : b ∈ cells := hmem (List.subset_append_left _ _) hown (by simp)
  refine ⟨e, ?_, b, howned, rfl⟩
  rcases hchain.cases_head with rfl | ⟨p, hep, -⟩
  · exact hmem (List.subset_append_left _ _) hown (by simp)
  · exact hmem (List.subset_append_right _ _) hep (by simp)

theorem implementsOf_accepted (hk : Keeps store hist) (hat : hist.watermark ≤ at')
    (hd : Paired (hist.rowsAt directBehavior at')) (hp : Paired (hist.rowsAt proto at')) :
    (implementsOf directBehavior proto store at').Accepted
      (Implemented (hist.contents at' directBehavior) (hist.contents at' proto)) := by
  refine ⟨rfl, ⟨hist.contents at' directBehavior, ?_, fun x hx => ?_⟩, fun s _ hs => ?_⟩
  · exact (Recursion.starts_iff implementsOf_addressed).2
      ⟨0, fun fuel _ => answer_rel hk hat directBehavior fuel none⟩
  · obtain ⟨e, b, ht, hw⟩ := hd x hx
    refine ⟨e, b, ht, Owns.implements ?_⟩
    rw [Owns, ← ht, ZSet.weight_of_mem hx]
    exact hw
  · obtain ⟨m, out, hm, hout, hP⟩ := @step_implemented hist at' directBehavior proto hp s hs
    refine ⟨out, (Recursion.steps_iff implementsOf_addressed).2 ⟨0, fun fuel _ => ?_⟩, hP⟩
    show (do
      let joined ← (do
        let l ← answerOf fuel (store.readerAt at') (some s) (.rel proto)
        let r ← Except.ok s
        inBounds (joinMultisets l [1] r [0]))
      inBounds (mapped (·.project [0, 3]) joined)) = Except.ok out
    rw [answer_rel hk hat proto fuel (some s)]
    show (do
      let joined ← inBounds (joinMultisets (hist.contents at' proto) [1] s [0])
      inBounds (mapped (·.project [0, 3]) joined)) = Except.ok out
    rw [hm]
    show inBounds (mapped (·.project [0, 3]) m) = Except.ok out
    rw [hout]
    rfl

/-- No row of a relation of pairs weighs less than nothing. -/
theorem contents_nonneg {rel : RelId} (hp : Paired (hist.rowsAt rel at')) :
    0 ≤ (hist.contents at' rel).den := by
  intro k
  rw [ZSet.den_apply]
  by_contra hneg
  have hmem := ZSet.mem_of_weight (m := hist.contents at' rel) (k := k) (by
    intro h
    exact hneg h.ge)
  obtain ⟨a, b, -, hw⟩ := hp _ hmem
  exact hneg hw.le

theorem le_single {m : Multiset} {t : Tuple} (hm : 0 ≤ m.den) (h : 0 < m.weight t) :
    Finsupp.single t (1 : ℤ) ≤ m.den := by
  intro k
  rw [Finsupp.single_apply]
  split_ifs with hk
  · subst hk
    rw [ZSet.den_apply]
    exact h
  · exact hm k

/-- **The view holds what is implemented**, and nothing else. -/
theorem implements_rows (hk : Keeps store hist) (hat : hist.watermark ≤ at')
    (hd : Paired (hist.rowsAt directBehavior at')) (hp : Paired (hist.rowsAt proto at')) :
    ∃ r, Comes (fun fuel => evalSnapshot fuel (implementsIr directBehavior proto).lower store at') r ∧
      IsSet r ∧ ∀ t, (∃ w, (t, w) ∈ r.rows) ↔
        Implemented (hist.contents at' directBehavior) (hist.contents at' proto) t := by
  have haddr := @implementsOf_addressed store at' directBehavior proto
  have hacc := implementsOf_accepted hk hat hd hp
  have hr : ReaderKeeps (store.readerAt at') hist := (hk.readerAt hat).2
  obtain ⟨hleast, hgrow, hkeep, hbounded⟩ := iterate_least hr haddr hacc
  have hsolid : ∀ rows, (store.readerAt at').read proto = .ok rows → 0 ≤ ZSet.total rows := by
    intro rows hrows
    obtain ⟨got, hgot, hperm⟩ := hr.read proto
    rw [(hk.readerAt hat).1] at hperm
    rw [Except.ok.inj (hrows.symm.trans hgot), ZSet.total_perm hperm]
    exact contents_nonneg hp
  have hends := (hleast (hgrow ⟨trivial, rfl, nofun, fun _ => hsolid⟩) (hkeep ⟨hsolid, trivial⟩)).2
    (hbounded (finite_implemented _ _))
  obtain ⟨r, hcomes, ⟨i, m, hi, hm, hfix⟩, hset, -⟩ := hends
  have hshape := Recursion.shaped_of_comes haddr hacc hcomes
  refine ⟨r, hcomes, hset, fun t => ⟨fun ⟨w, hw⟩ => hshape _ hw, ?_⟩⟩
  -- what the rows of a round denote
  obtain ⟨N, hN⟩ := (Recursion.steps_iff haddr).1 hm
  have hstep : answerOf N (store.readerAt at') (some r)
      (.project (.join (.rel proto) .recur [1] [0]) [0, 3]) = .ok m := hN N le_rfl
  obtain ⟨joined, hjoined, hmapped⟩ := bind_ok hstep
  obtain ⟨l, hl, hjoin⟩ := bind_ok hjoined
  obtain rfl : hist.contents at' proto = l := Except.ok.inj ((answer_rel hk hat proto N _).symm.trans hl)
  obtain ⟨r', hr', hjoin⟩ := bind_ok hjoin
  obtain rfl : r = r' := Except.ok.inj hr'
  have hmden := mapped_den (inBounds_ok hmapped)
  rw [join_den (inBounds_ok hjoin)] at hmden
  have hiden : i = hist.contents at' directBehavior :=
    hi.unique ((Recursion.starts_iff haddr).2 ⟨0, fun fuel _ => answer_rel hk hat directBehavior fuel none⟩)
  have hpos : ∀ t, 0 < i.den t + m.den t → 0 < r.weight t := by
    intro t ht
    rw [← hfix, ZSet.positive_pos, ← ZSet.den_apply, ZSet.den_merge]
    exact ht
  have hm0 : 0 ≤ m.den := by
    rw [hmden]
    exact ZSet.spread_nonneg _ (ZSet.cross_nonneg _ (contents_nonneg hp) hset.nonneg)
  have hin : ∀ e b, Implements (hist.contents at' directBehavior) (hist.contents at' proto) e b →
      0 < r.weight ⟨[e, b]⟩ := by
    rintro e b ⟨o, hchain, hown⟩
    induction hchain using Relation.ReflTransGen.head_induction_on with
    | refl =>
      refine hpos _ (add_pos_of_pos_of_nonneg ?_ (hm0 _))
      rw [hiden, ZSet.den_apply]
      exact hown
    | @head e p hep _ ih =>
      have hsingle : Finsupp.single ⟨[e, b]⟩ (1 : ℤ) ≤ m.den := by
        have hone := ZSet.spread_mono (·.project [0, 3])
          ((ZSet.cross_mono_left (meets [1] [0]) (le_single (contents_nonneg hp) hep)
            (Finsupp.single_nonneg.2 zero_le_one)).trans
            (ZSet.cross_mono_right (meets [1] [0]) (contents_nonneg hp) (le_single hset.nonneg ih)))
        rw [hmden]
        refine le_trans (le_of_eq ?_) hone
        rw [ZSet.cross_single, ZSet.spread_single, one_smul]
        have hmeet : meets [1] [0] ⟨[e, p]⟩ ⟨[p, b]⟩ = some ⟨[e, p, p, b]⟩ := by
          have hkey : (⟨[p, b]⟩ : Tuple).key [0] = (⟨[e, p]⟩ : Tuple).key [1] := rfl
          rw [meets, if_pos hkey]
          rfl
        rw [hmeet]
        dsimp only
        rw [ZSet.spread_single]
        rfl
      have hat := hsingle ⟨[e, b]⟩
      rw [Finsupp.single_eq_same] at hat
      refine hpos _ (add_pos_of_nonneg_of_pos ?_ hat)
      rw [hiden]
      exact contents_nonneg hd _
  rintro ⟨e, b, rfl, himp⟩
  exact ⟨_, ZSet.mem_of_weight (hin e b himp).ne'⟩

end Rows

/-! ## The least that accepts -/

/-- A behavior that the entity implements and whose guard accepts the message. -/
structure Offers (direct protos : Multiset) (entity : Entity) (message : Tuple) (bytes : List UInt8)
    (b : StoredBehavior) : Prop where
  implements : Implements direct protos (.ent entity) (.code bytes)
  decodes : Wire.decodeBehavior bytes = .ok b
  accepts : b.matches message = some true

/-- The offer of the least bytes, or none where there is none. -/
def LeastOffer (offers : List UInt8 → StoredBehavior → Prop) : Option StoredBehavior → Prop
  | none => ∀ bytes b, ¬ offers bytes b
  | some b => ∃ bytes, offers bytes b ∧ ∀ bytes' b', offers bytes' b' → Value.code bytes ≤ Value.code bytes'

section Choice

variable {message : Tuple} {codes : List (List UInt8)}

/-- Of codes in order that all decode, the first that accepts is the least that does. -/
theorem firstMatch_least (hsorted : codes.Pairwise fun c c' => Value.code c ≤ Value.code c')
    (hall : ∀ c ∈ codes, ∃ b, Wire.decodeBehavior c = .ok b) :
    ∃ bs found, (codes.mapM fun bytes => ask (Wire.decodeBehavior bytes)) = .ok bs ∧
      firstMatch message bs = some found ∧ LeastOffer (fun c b => c ∈ codes ∧
        Wire.decodeBehavior c = .ok b ∧ b.matches message = some true) found := by
  induction codes with
  | nil => exact ⟨[], none, rfl, rfl, fun _ _ h => absurd h.1 (by simp)⟩
  | cons c codes ih =>
    obtain ⟨hc, hrest⟩ := List.pairwise_cons.1 hsorted
    obtain ⟨b, hb⟩ := hall c List.mem_cons_self
    obtain ⟨bs, found, hbs, hfound, hleast⟩ := ih hrest fun x hx => hall x (List.mem_cons_of_mem c hx)
    have hmap : ((c :: codes).mapM fun bytes => ask (Wire.decodeBehavior bytes)) = .ok (b :: bs) := by
      rw [List.mapM_cons, hb, hbs]
      rfl
    obtain ⟨accepts, ha⟩ := Option.isSome_iff_exists.1 (b.matches_isSome message)
    cases accepts with
    | true =>
      refine ⟨b :: bs, some b, hmap, by rw [firstMatch, ha]; rfl, c, ⟨List.mem_cons_self, hb, ha⟩, ?_⟩
      rintro c' b' ⟨hc', -⟩
      rcases List.mem_cons.1 hc' with rfl | hc'
      · exact le_rfl
      · exact hc c' hc'
    | false =>
      have hskip : ∀ b', Wire.decodeBehavior c = .ok b' → b'.matches message ≠ some true := by
        intro b' hb' h
        obtain rfl := Except.ok.inj (hb.symm.trans hb')
        rw [ha] at h
        cases h
      refine ⟨b :: bs, found, hmap, by rw [firstMatch, ha]; exact hfound, ?_⟩
      cases found with
      | none =>
        rintro c' b' ⟨hc', hb', hm'⟩
        rcases List.mem_cons.1 hc' with rfl | hc'
        · exact hskip b' hb' hm'
        · exact hleast c' b' ⟨hc', hb', hm'⟩
      | some found =>
        obtain ⟨x, ⟨hx, hxb, hxm⟩, hmin⟩ := hleast
        refine ⟨x, ⟨List.mem_cons_of_mem c hx, hxb, hxm⟩, ?_⟩
        rintro c' b' ⟨hc', hb', hm'⟩
        rcases List.mem_cons.1 hc' with rfl | hc'
        · exact absurd hm' (hskip b' hb')
        · exact hmin c' b' ⟨hc', hb', hm'⟩

/-- A code that does not decode is a codec error for all. -/
theorem decodes_refuse (h : ∃ c ∈ codes, ∀ b, Wire.decodeBehavior c ≠ .ok b) :
    ∃ msg, (codes.mapM fun bytes => ask (Wire.decodeBehavior bytes)) = .error (.error (.codec msg)) := by
  induction codes with
  | nil => exact absurd h (by simp)
  | cons c codes ih =>
    rw [List.mapM_cons]
    cases hc : Wire.decodeBehavior c with
    | error e =>
      obtain ⟨msg, rfl⟩ := Wire.decodeBehavior_refuse hc
      exact ⟨msg, rfl⟩
    | ok b =>
      obtain ⟨c', hc', hbad⟩ := h
      have hin : c' ∈ codes := by
        rcases List.mem_cons.1 hc' with rfl | hin
        · exact absurd hc (hbad b)
        · exact hin
      obtain ⟨msg, hmsg⟩ := ih ⟨c', hin, hbad⟩
      exact ⟨msg, by rw [hmsg]; rfl⟩

theorem implementedCode_eq_some {entity : Entity} {e : Tuple × Diff} {bytes : List UInt8} :
    implementedCode entity e = some bytes ↔
      0 < e.2 ∧ ∃ rest, e.1.cells = .ent entity :: .code bytes :: rest := by
  unfold implementedCode
  split_ifs with hw
  · simp [not_lt.2 hw]
  · constructor
    · intro h
      split at h
      · rename_i x bs rest hcells
        split_ifs at h with hx
        cases h
        exact ⟨not_le.1 hw, rest, by rw [hcells, hx]⟩
      · cases h
    · rintro ⟨-, rest, hcells⟩
      rw [hcells]
      exact if_pos rfl

end Choice


section Select

variable {store : DynTraceStore} {hist : TraceStore} {at' : Nat} {directBehavior proto : RelId}

/-- What an entity implements, in the order of its bytes, is what is decoded. -/
theorem implementedBehaviors_eq (hk : Keeps store hist) (hat : hist.watermark ≤ at')
    (hd : Paired (hist.rowsAt directBehavior at')) (hp : Paired (hist.rowsAt proto at')) (entity : Entity) :
    ∃ codes : List (List UInt8), (codes.Pairwise fun c c' => Value.code c ≤ Value.code c') ∧
      (∀ c, c ∈ codes ↔ Implements (hist.contents at' directBehavior) (hist.contents at' proto)
        (.ent entity) (.code c)) ∧
      ∃ rounds, ∀ fuel, rounds ≤ fuel → implementedBehaviors fuel directBehavior proto entity store at' =
        codes.mapM fun bytes => ask (Wire.decodeBehavior bytes) := by
  obtain ⟨r, ⟨N, hN⟩, hset, hrows⟩ := implements_rows hk hat hd hp
  refine ⟨r.rows.filterMap (implementedCode entity), ?_, fun c => ?_, N, fun fuel hfuel => ?_⟩
  · refine List.pairwise_filterMap.2 (r.sorted.imp_of_mem ?_)
    intro x y hx hy hlt c hc c' hc'
    obtain ⟨-, rest, hxc⟩ := implementedCode_eq_some.1 hc
    obtain ⟨-, rest', hyc⟩ := implementedCode_eq_some.1 hc'
    have hxt : x.1 = ⟨.ent entity :: .code c :: rest⟩ := by rw [← hxc]
    have hyt : y.1 = ⟨.ent entity :: .code c' :: rest'⟩ := by rw [← hyc]
    rw [hxt, hyt, Tuple.cells_lt_cons, Tuple.cells_lt_cons] at hlt
    rcases hlt with hlt | ⟨-, hlt | ⟨heq, -⟩⟩
    · exact absurd hlt (lt_irrefl _)
    · exact hlt.le
    · exact heq.le
  · rw [List.mem_filterMap]
    constructor
    · rintro ⟨x, hx, hc⟩
      obtain ⟨-, rest, hxc⟩ := implementedCode_eq_some.1 hc
      obtain ⟨e, b, ht, himp⟩ := (hrows x.1).1 ⟨x.2, hx⟩
      rw [ht] at hxc
      cases hxc
      exact himp
    · intro himp
      obtain ⟨w, hw⟩ := (hrows ⟨[.ent entity, .code c]⟩).2 ⟨_, _, rfl, himp⟩
      refine ⟨_, hw, implementedCode_eq_some.2 ⟨?_, [], rfl⟩⟩
      rw [hset _ hw]
      exact one_pos
  · have heval : evalSnapshot fuel (implementsIr directBehavior proto).lower store at' = .ok r := hN fuel hfuel
    rw [implementedBehaviors, heval]
    rfl

/-- **Dispatch.** Over relations of pairs, none at less than nothing, as any history of
patches left them: if all that an entity implements decodes, it answers a message with the
least, by its bytes, of the behaviors that some chain of prototypes leads to an owner of
and whose guard accepts the message, or with none if there is none. If something does not
decode, it comes to a codec error. -/
theorem select_behavior_least (hk : Keeps store hist) (hat : hist.watermark ≤ at')
    (hd : Paired (hist.rowsAt directBehavior at')) (hp : Paired (hist.rowsAt proto at')) (entity : Entity)
    (message : Tuple) :
    ∃ outcome, (∃ rounds, ∀ fuel, rounds ≤ fuel →
        selectBehavior fuel directBehavior proto entity store at' message = outcome) ∧
      ((∀ c, Implements (hist.contents at' directBehavior) (hist.contents at' proto) (.ent entity) (.code c) →
          ∃ b, Wire.decodeBehavior c = .ok b) →
        ∃ found, outcome = .ok found ∧ LeastOffer (Offers (hist.contents at' directBehavior)
          (hist.contents at' proto) entity message) found) ∧
      ((∃ c, Implements (hist.contents at' directBehavior) (hist.contents at' proto) (.ent entity) (.code c) ∧
          ∀ b, Wire.decodeBehavior c ≠ .ok b) →
        ∃ msg, outcome = .error (.error (.codec msg))) := by
  obtain ⟨codes, hsorted, hmem, N, hN⟩ := implementedBehaviors_eq hk hat hd hp entity
  refine ⟨_, ⟨N, fun fuel hfuel => by rw [selectBehavior, hN fuel hfuel]⟩, fun hall => ?_, ?_⟩
  · obtain ⟨bs, found, hbs, hfound, hleast⟩ := @firstMatch_least message codes hsorted
      fun c hc => hall c ((hmem c).1 hc)
    have hoffers : (fun c b => c ∈ codes ∧ Wire.decodeBehavior c = .ok b ∧ b.matches message = some true) =
        Offers (hist.contents at' directBehavior) (hist.contents at' proto) entity message := by
      ext c b
      exact ⟨fun h => ⟨(hmem c).1 h.1, h.2.1, h.2.2⟩, fun h => ⟨(hmem c).2 h.implements, h.decodes, h.accepts⟩⟩
    rw [hoffers] at hleast
    refine ⟨found, ?_, hleast⟩
    rw [hbs]
    show inBounds (firstMatch message bs) = _
    rw [hfound]
    rfl
  · rintro ⟨c, hc, hbad⟩
    obtain ⟨msg, hmsg⟩ := decodes_refuse ⟨c, (hmem c).2 hc, hbad⟩
    exact ⟨msg, by rw [hmsg]; rfl⟩

end Select

/-- A behavior that accepts any message and does nothing. -/
def idle : List UInt8 := Wire.encodeBehavior ⟨.and [], [], []⟩

/-- Two entities, each the other's prototype; the second owns a behavior. -/
def looped : TraceStore := TraceStore.empty.commit
  [(1, ⟨[.ent ⟨2⟩, .code idle]⟩, 1), (2, ⟨[.ent ⟨1⟩, .ent ⟨2⟩]⟩, 2), (2, ⟨[.ent ⟨2⟩, .ent ⟨1⟩]⟩, 1)]

theorem select_behavior_least_looped : ∃ b rounds, ∀ fuel, rounds ≤ fuel →
    selectBehavior fuel 1 2 ⟨1⟩ looped.dyn 1 ⟨[]⟩ = .ok (some b) := by
  have hrows1 : looped.rowsAt 1 1 = [(⟨[.ent ⟨2⟩, .code idle]⟩, 1)] := by decide +kernel
  have hrows2 : looped.rowsAt 2 1 = [(⟨[.ent ⟨1⟩, .ent ⟨2⟩]⟩, 2), (⟨[.ent ⟨2⟩, .ent ⟨1⟩]⟩, 1)] := by
    decide +kernel
  have hd : Paired (looped.rowsAt 1 1) := by
    rw [hrows1]
    intro e he
    rw [List.mem_singleton.1 he]
    exact ⟨_, _, rfl, by decide⟩
  have hp : Paired (looped.rowsAt 2 1) := by
    rw [hrows2]
    intro e he
    rcases List.mem_pair.1 he with rfl | rfl
    · exact ⟨_, _, rfl, by decide⟩
    · exact ⟨_, _, rfl, by decide⟩
  have hidle : Wire.decodeBehavior idle = .ok ⟨.and [], [], []⟩ := Wire.decodeBehavior_encode
    ⟨⟨by decide, trivial⟩, ⟨by decide, by simp⟩, by decide, by simp⟩
  obtain ⟨outcome, ⟨N, hN⟩, hall, -⟩ := select_behavior_least looped.dyn_keeps (Nat.zero_le 1) hd hp ⟨1⟩ ⟨[]⟩
  have howned : ∀ c o, Owns (looped.contents 1 1) o (.code c) → c = idle := by
    intro c o h
    have hmem := ZSet.mem_of_weight h.ne'
    rw [TraceStore.contents_rows, hrows1, List.mem_singleton] at hmem
    cases congrArg (fun e => e.1.cells) hmem
    rfl
  obtain ⟨found, hfound, hleast⟩ := hall fun c hc => by
    obtain ⟨o, -, hown⟩ := hc
    rw [howned c o hown]
    exact ⟨_, hidle⟩
  have himp : Implements (looped.contents 1 1) (looped.contents 1 2) (.ent ⟨1⟩) (.code idle) := by
    have hchain : Inherits (looped.contents 1 2) (.ent ⟨1⟩) (.ent ⟨2⟩) := by
      show 0 < (looped.contents 1 2).weight _
      decide +kernel
    refine hchain.implements (Owns.implements ?_)
    show 0 < (looped.contents 1 1).weight _
    decide +kernel
  cases found with
  | none => exact absurd ⟨himp, hidle, rfl⟩ (hleast idle _)
  | some b => exact ⟨b, N, fun fuel hfuel => (hN fuel hfuel).trans hfound⟩

/-- An entity that owns a behavior, and bytes that are none. -/
def spoilt : TraceStore := TraceStore.empty.commit
  [(1, ⟨[.ent ⟨1⟩, .code idle]⟩, 1), (1, ⟨[.ent ⟨1⟩, .code [255]]⟩, 1)]

/-- An entity with one prototype, and another taken from it that it never had. -/
def owing : TraceStore := TraceStore.empty.commit
  [(1, ⟨[.ent ⟨2⟩, .code idle]⟩, 1), (1, ⟨[.ent ⟨3⟩, .code idle]⟩, 1), (2, ⟨[.ent ⟨1⟩, .ent ⟨2⟩]⟩, 1),
    (2, ⟨[.ent ⟨1⟩, .ent ⟨3⟩]⟩, -1)]

/-- What a plan has come to it comes to with more rounds. -/
theorem evalSnapshot_mono {q : Query} (hq : q.Addressed) {fuel fuel' : Nat} (hle : fuel ≤ fuel')
    {store : DynTraceStore} {at' : Nat} {m : Multiset} (h : evalSnapshot fuel q store at' = .ok m) :
    evalSnapshot fuel' q store at' = .ok m := by
  rw [evalSnapshot, evalSnapshotOn_eq hq] at h ⊢
  exact answer_mono hle h

/-- **Bytes that do not decode stop all dispatch**, though another behavior accepts the
message; and a row at less than nothing hides a chain. -/
theorem select_behavior_spoilt :
    (¬ ∀ (hist : TraceStore) (at' : Nat) (entity : Entity) (message : Tuple),
      hist.watermark ≤ at' → Paired (hist.rowsAt 1 at') → Paired (hist.rowsAt 2 at') →
        ∃ found, (∃ rounds, ∀ fuel, rounds ≤ fuel →
          selectBehavior fuel 1 2 entity hist.dyn at' message = .ok found) ∧
          LeastOffer (Offers (hist.contents at' 1) (hist.contents at' 2) entity message) found) ∧
    ∃ fuel, (∀ fuel', fuel ≤ fuel' → selectBehavior fuel' 1 2 ⟨1⟩ owing.dyn 1 ⟨[]⟩ = .ok none) ∧
      ∃ b, Offers (owing.contents 1 1) (owing.contents 1 2) ⟨1⟩ ⟨[]⟩ idle b := by
  refine ⟨fun h => ?_, 3, fun fuel hfuel => ?_, ⟨.and [], [], []⟩, ?_, ?_, rfl⟩
  · have hrows1 : spoilt.rowsAt 1 1 = [(⟨[.ent ⟨1⟩, .code idle]⟩, 1), (⟨[.ent ⟨1⟩, .code [255]]⟩, 1)] := by
      decide +kernel
    have hrows2 : spoilt.rowsAt 2 1 = [] := by decide +kernel
    have hd : Paired (spoilt.rowsAt 1 1) := by
      rw [hrows1]
      intro e he
      rcases List.mem_pair.1 he with rfl | rfl
      · exact ⟨_, _, rfl, by decide⟩
      · exact ⟨_, _, rfl, by decide⟩
    have hp : Paired (spoilt.rowsAt 2 1) := by
      rw [hrows2]
      exact fun e he => absurd he (by simp)
    obtain ⟨found, ⟨N, hN⟩, -⟩ := h spoilt 1 ⟨1⟩ ⟨[]⟩ (Nat.zero_le 1) hd hp
    obtain ⟨codes, -, hmem, M, hM⟩ := implementedBehaviors_eq spoilt.dyn_keeps (Nat.zero_le 1) hd hp ⟨1⟩
    have hbad : ∃ c ∈ codes, ∀ b, Wire.decodeBehavior c ≠ .ok b := by
      refine ⟨[255], (hmem _).2 (Owns.implements ?_), fun b hb => ?_⟩
      · show 0 < (spoilt.contents 1 1).weight _
        decide +kernel
      · cases hb
    obtain ⟨msg, hmsg⟩ := decodes_refuse hbad
    have hselect := hN (max N M) (le_max_left N M)
    rw [selectBehavior, hM _ (le_max_right N M), hmsg] at hselect
    cases hselect
  · have hrows : evalSnapshot 3 (implementsIr 1 2).lower owing.dyn 1 = .ok (owing.contents 1 1) := by
      decide +kernel
    have hmore : evalSnapshot fuel (implementsIr 1 2).lower owing.dyn 1 = .ok (owing.contents 1 1) :=
      evalSnapshot_mono (@implementsOf_addressed owing.dyn 1 1 2) hfuel hrows
    have hnone : (owing.contents 1 1).rows.filterMap (implementedCode ⟨1⟩) = [] := by decide +kernel
    have himpl : implementedBehaviors fuel 1 2 ⟨1⟩ owing.dyn 1 = .ok [] := by
      rw [implementedBehaviors, hmore]
      show ((owing.contents 1 1).rows.filterMap (implementedCode ⟨1⟩)).mapM
        (fun bytes => ask (Wire.decodeBehavior bytes)) = .ok []
      rw [hnone]
      rfl
    rw [selectBehavior, himpl]
    rfl
  · have hchain : Inherits (owing.contents 1 2) (.ent ⟨1⟩) (.ent ⟨2⟩) := by
      show 0 < (owing.contents 1 2).weight _
      decide +kernel
    refine hchain.implements (Owns.implements ?_)
    show 0 < (owing.contents 1 1).weight _
    decide +kernel
  · exact Wire.decodeBehavior_encode ⟨⟨by decide, trivial⟩, ⟨by decide, by simp⟩, by decide, by simp⟩

end Grmpl

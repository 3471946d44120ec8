import Grmpl.Ent.Dated
import Grmpl.Ent.ForkIsolation
import Grmpl.Ent.Indexing

/-!
# Backfollow is exact, while no fork's past is folded away unindexed

A version a branch inherited is indexed only through the branch it came from, lazily. Each
retained version stays findable: the index names it, or names one it was folded from, or
has yet to reach it where it was written. A consolidation breaks this when it takes a
version away that a fork has still, before the index reached it.

* `Findable`: every retained version is named by the index or yet to be reached by it.
* `Findable.goesOn`, `Findable.folds`, `Findable.spawn`, `Findable.reindexed`: the steps.
* `Spares`: a consolidation that folds away nothing inherited and not indexed yet.
* `backfollow_exact`: while every one does, a backfollow finds what a walk over every
  version finds; `backfollow_misses`: and not otherwise.
-/

open OrdMap Runs Contents

namespace Grmpl

/-! ## Inheritance -/

namespace Dag

variable {g : Dag} {e o b : Nat}

/-- What a branch inherited came through the branch it was forked from. -/
theorem Inherits.last (h : Inherits g e o b) : o = b ∨ ∃ c ∈ g.branches, c.1 = b ∧
    ∃ p, c.2.parent = some p ∧ e ≤ p.2 ∧ Inherits g e o p.1 := by
  induction h with
  | self => exact .inl rfl
  | @child o b at' c hc hp hle _ ih =>
    refine .inr ?_
    rcases ih with rfl | ⟨c', hc', rfl, p, hp', hle', ih⟩
    · exact ⟨c, hc, rfl, _, hp, hle, .self _⟩
    · exact ⟨c', hc', rfl, p, hp', hle', .child hc hp hle ih⟩

theorem Inherits.trans {c : Nat} (h : Inherits g e o b) (h' : Inherits g e b c) : Inherits g e o c := by
  induction h with
  | self => exact h'
  | child hc hp hle _ ih => exact .child hc hp hle (ih h')

/-- A new branch inherits through the branch it was forked from. -/
theorem inherits_added (hg : g.Numbered) {r : Branch} {p at' : Nat} (hr : r.parent = some (p, at'))
    (hp : p < g.next) {b : Nat} (h : Inherits ⟨put g.next r g.branches, g.next + 1⟩ e o b) :
    Inherits g e o b ∨ (b = g.next ∧ e ≤ at' ∧ Inherits g e o p) := by
  obtain ⟨hg', hext⟩ := hg.add (r := r) (by rintro q hq; rw [hr] at hq; cases hq; exact hp)
  rcases h.last with rfl | ⟨c, hc, rfl, q, hq, hle, hi⟩
  · exact .inl (.self _)
  · rcases mem_put hc with rfl | hc'
    · cases hr.symm.trans hq
      exact .inr ⟨rfl, hle, (hext.inherits hg hg' hp).1 hi⟩
    · exact .inl ((hext.inherits hg hg' (hg c hc').1).1 h)

end Dag

/-! ## What the index can find -/

section Findable

variable {F N : Type} [Parts N Dsp] [DecidableEq N] [ContentTree F N]
  {g : Dag} {S : BranchId → Inner F} {h : History N} {b : BranchId} {i j : Inner F}

omit [DecidableEq N] in
/-- A version the index names, or is yet to reach where it was written. -/
def Reachable (g : Dag) (S : BranchId → Inner F) (h : History N) (r : N) (x : Holder) : Prop :=
  (r, x) ∈ h.holders ∨ (h.startOf g x.branch < x.edition ∧
    ∃ t, (x.edition, t) ∈ ((S x.branch).rootsOr x.rel).versions ∧ ContentTree.root t = some r)

omit [DecidableEq N] in
/-- A version of a branch found where it was written, or where the one it was folded from
was. -/
def Covered (g : Dag) (S : BranchId → Inner F) (h : History N) (b : BranchId) (rel : RelId) (e : Nat)
    (r : N) : Prop :=
  ∃ o e', g.Inherits e' o b ∧ (e' = e ∨ (e' < e ∧ e = (S b).watermark)) ∧
    Reachable g S h r ⟨o, rel, e'⟩

omit [DecidableEq N] in
/-- Every version is named by the index or yet to be reached, and nothing else is named. -/
structure Findable (g : Dag) (S : BranchId → Inner F) (h : History N) : Prop where
  dated : ∀ b, (S b).Dated
  start : ∀ b, h.startOf g b ≤ (S b).current
  forks : ∀ c ∈ g.branches, ∀ p ∈ c.2.parent, p.2 ≤ (S p.1).current ∧ p.2 ≤ (S c.1).current
  alike : ∀ o b e, g.Inherits e o b → (S o).watermark ≤ e → (S b).watermark ≤ e →
    ∀ rel, (S b).factAt rel e = (S o).factAt rel e
  held : ∀ x ∈ h.holders, x.2.branch < g.next ∧ x.2.edition ≤ (S x.2.branch).current ∧
    ∀ b, g.Inherits x.2.edition x.2.branch b → (S b).watermark ≤ x.2.edition →
      ((S b).factAt x.2.rel x.2.edition).bind ContentTree.root = some x.1
  covered : ∀ b rel, ∀ v ∈ ((S b).rootsOr rel).versions, ∀ r, ContentTree.root v.2 = some r →
    Covered g S h b rel v.1 r
  unborn : ∀ b, g.next ≤ b → (∀ rel, ((S b).rootsOr rel).versions = []) ∧ lookup b h.cursor = none

omit [DecidableEq N] in
/-- What is inherited was written by then on both branches. -/
theorem Findable.inherited (hf : Findable g S h) {o b e : Nat} (hi : g.Inherits e o b) :
    o = b ∨ (e ≤ (S o).current ∧ e ≤ (S b).current) := by
  rcases hi.last with rfl | ⟨c, hc, rfl, p, hp, hle, -⟩
  · exact .inl rfl
  · refine (eq_or_ne o c.1).imp_right fun hne => ?_
    cases hi with
    | self => exact absurd rfl hne
    | child hc' hp' hle' _ => exact ⟨hle'.trans (hf.forks _ hc' _ hp').1, hle.trans (hf.forks _ hc _ hp).2⟩

variable {S' : BranchId → Inner F}

omit [DecidableEq N] in
theorem Reachable.mono {r : N} {x : Holder} (hx : Reachable g S h r x)
    (hkept : ∀ v ∈ ((S x.branch).rootsOr x.rel).versions, v.1 = x.edition →
      v ∈ ((S' x.branch).rootsOr x.rel).versions) : Reachable g S' h r x :=
  hx.imp_right fun ⟨hlt, t, ht, hroot⟩ => ⟨hlt, t, hkept _ ht rfl, hroot⟩

omit [DecidableEq N] in
/-- **Branches that go on** leave every version findable. -/
theorem Findable.goesOn (hf : Findable g S h) (hS : ∀ b, (S b).GoesOn (S' b))
    (hnew : ∀ b, g.next ≤ b → S' b = S b) : Findable g S' h where
  dated b := (hS b).dated
  start b := (hf.start b).trans (hS b).current
  forks c hc p hp :=
    have hold := hf.forks c hc p hp
    ⟨hold.1.trans (hS _).current, hold.2.trans (hS _).current⟩
  alike o b e hi ho hb rel := by
    rcases hf.inherited hi with rfl | ⟨hoc, hbc⟩
    · rfl
    · rw [(hS o).same.1] at ho
      rw [(hS b).same.1] at hb
      rw [(hS b).same.factAt (Nat.lt_succ_of_le hbc), (hS o).same.factAt (Nat.lt_succ_of_le hoc)]
      exact hf.alike o b e hi ho hb rel
  held x hx := by
    obtain ⟨hlt, hcur, hfact⟩ := hf.held x hx
    refine ⟨hlt, hcur.trans (hS _).current, fun b hi hb => ?_⟩
    have hbc : x.2.edition ≤ (S b).current := by
      rcases hf.inherited hi with heq | ⟨-, hbc⟩
      · exact heq ▸ hcur
      · exact hbc
    rw [(hS b).same.factAt (Nat.lt_succ_of_le hbc)]
    exact hfact b hi ((hS b).same.1 ▸ hb)
  covered b rel v hv r hroot := by
    rcases le_or_gt v.1 (S b).current with hle | hlt
    · obtain ⟨o, e', hi, hdate, hreach⟩ :=
        hf.covered b rel v (((hS b).same.mem_versions (Nat.lt_succ_of_le hle)).1 hv) r hroot
      refine ⟨o, e', hi, hdate.imp_right (·.imp_right (·.trans (hS b).same.1.symm)),
        hreach.mono fun w hw _ => ?_⟩
      exact ((hS o).same.mem_versions (Nat.lt_succ_of_le ((hf.dated o).dates rel w hw).2.2)).2 hw
    · -- written since, so not indexed yet
      exact ⟨b, v.1, .self _, .inl rfl, .inr ⟨(hf.start b).trans_lt hlt, v.2, hv, hroot⟩⟩
  unborn b hb := by
    rw [hnew b hb]
    exact hf.unborn b hb

omit [DecidableEq N] in
/-- What a consolidation at an edition spares: whatever a fork inherited of what it folds
away, the index has reached. -/
def SparesForks (g : Dag) (h : History N) (b : BranchId) (i : Inner F) (wm : Nat) : Prop :=
  ∀ c ∈ g.branches, ∀ p ∈ c.2.parent, p.1 = b → ∀ rel, ∀ v ∈ (i.rootsOr rel).versions,
    v.1 ≤ p.2 → v.1 < wm → v.1 ≤ h.startOf g b

omit [DecidableEq N] in
/-- **A consolidation that spares what forks inherited** leaves every version findable. -/
theorem Findable.folds (hf : Findable g S h) (wm : Nat) (hb : (S b).Folds wm (S' b))
    (hothers : ∀ c, c ≠ b → S' c = S c) (hok : SparesForks g h b (S b) wm) (hlt : b < g.next) :
    Findable g S' h := by
  have hcur : ∀ c, (S' c).current = (S c).current := by
    intro c
    rcases eq_or_ne c b with rfl | hc
    · exact hb.current
    · rw [hothers c hc]
  have hwm : ∀ c, (S c).watermark ≤ (S' c).watermark := by
    intro c
    rcases eq_or_ne c b with rfl | hc
    · exact hb.onward.trans_eq hb.watermark.symm
    · rw [hothers c hc]
  have hfact : ∀ c rel e, (S' c).watermark ≤ e → (S' c).factAt rel e = (S c).factAt rel e := by
    intro c rel e he
    rcases eq_or_ne c b with rfl | hc
    · exact hb.fact rel e (hb.watermark ▸ he)
    · rw [hothers c hc]
  -- what is yet to be reached is there still, unless it was the branch's own and folded away
  have hreach : ∀ {r : N} {x : Holder}, Reachable g S h r x →
      (x.branch = b → h.startOf g b < x.edition →
        ∀ t, (x.edition, t) ∈ ((S b).rootsOr x.rel).versions → wm ≤ x.edition) → Reachable g S' h r x := by
    intro r x hx hlow
    refine hx.imp_right fun ⟨hlt, t, ht, hroot⟩ => ⟨hlt, t, ?_, hroot⟩
    rcases eq_or_ne x.branch b with hc | hc
    · rw [hc] at ht hlt ⊢
      exact hb.kept x.rel _ ht (hlow hc hlt t ht)
    · rwa [hothers _ hc]
  refine ⟨fun c => ?_, fun c => (hf.start c).trans_eq (hcur c).symm, fun c hc p hp => ?_,
    fun o c e hi ho hc rel => ?_, fun x hx => ?_, fun c rel v hv r hroot => ?_, fun c hc => ?_⟩
  · rcases eq_or_ne c b with rfl | hc
    · exact hb.dated
    · exact hothers c hc ▸ hf.dated c
  · rw [hcur, hcur]
    exact hf.forks c hc p hp
  · rw [hfact c rel e hc, hfact o rel e ho]
    exact hf.alike o c e hi ((hwm o).trans ho) ((hwm c).trans hc) rel
  · obtain ⟨hxlt, hxcur, hxfact⟩ := hf.held x hx
    refine ⟨hxlt, hxcur.trans_eq (hcur _).symm, fun c hi hc => ?_⟩
    rw [hfact c _ _ hc]
    exact hxfact c hi ((hwm c).trans hc)
  · rcases eq_or_ne c b with rfl | hc
    · rcases hb.folded rel v hv with hold | ⟨hv1, e, he, hold⟩
      · obtain ⟨o, e', hi, hdate, hr⟩ := hf.covered c rel v hold r hroot
        have hdates := hb.dated.dates rel v hv
        have honward := hb.onward
        rw [hb.watermark] at hdates
        refine ⟨o, e', hi, hdate.imp_right fun hd => ⟨hd.1, ?_⟩, hreach hr fun ho _ t ht => ?_⟩
        · rw [hb.watermark]
          omega
        · dsimp only at ho ht ⊢
          have := (hf.dated c).dates rel _ ht
          dsimp only at this
          omega
      · obtain ⟨o, e', hi, hdate, hr⟩ := hf.covered c rel (e, v.2) hold r hroot
        have he' : e' < v.1 := by dsimp only at hdate; omega
        rcases hr with hr | ⟨hstart, t, ht, hroot'⟩
        · exact ⟨o, e', hi, .inr ⟨he', hv1.trans hb.watermark.symm⟩, .inl hr⟩
        · rcases eq_or_ne o c with rfl | ho
          · -- the checkpoint itself is yet to be indexed
            exact ⟨o, v.1, .self _, .inl rfl, .inr ⟨hstart.trans he', v.2, hv, hroot⟩⟩
          · refine ⟨o, e', hi, .inr ⟨he', hv1.trans hb.watermark.symm⟩,
              .inr ⟨hstart, t, ?_, hroot'⟩⟩
            rwa [hothers o ho]
    · rw [hothers c hc] at hv
      obtain ⟨o, e', hi, hdate, hr⟩ := hf.covered c rel v hv r hroot
      refine ⟨o, e', hi, by rwa [hothers c hc], hreach hr fun ho hstart t ht => ?_⟩
      dsimp only at ho hstart ht ⊢
      subst ho
      cases hi with
      | self => exact absurd rfl hc
      | child hc' hp hle _ =>
        by_contra hlow
        have := hok _ hc' _ hp rfl rel _ ht hle (not_le.1 hlow)
        dsimp only at this
        omega
  · rw [hothers c]
    · exact hf.unborn c hc
    · rintro rfl
      exact absurd hlt (not_lt.2 hc)

omit [DecidableEq N] in
theorem Findable.lt_next (hf : Findable g S h) (rel : RelId) {v : Nat × F}
    (hv : v ∈ ((S b).rootsOr rel).versions) : b < g.next := by
  by_contra hle
  rw [(hf.unborn b (not_lt.1 hle)).1 rel] at hv
  exact absurd hv List.not_mem_nil

omit [DecidableEq N] in
/-- **A new branch** has every version of its parent's findable, and its own to come. -/
theorem Findable.spawn (hf : Findable g S h) (hg : g.Numbered) {r : Branch} {p at' : Nat}
    (hr : r.parent = some (p, at')) (hp : p < g.next) (hat : at' ≤ (S p).current)
    (hnew : (S' g.next).Dated) (hcur : at' ≤ (S' g.next).current)
    (hsame : (S p).SameBelow (at' + 1) (S' g.next)) (hothers : ∀ c, c ≠ g.next → S' c = S c) :
    Findable ⟨put g.next r g.branches, g.next + 1⟩ S' h := by
  set g' : Dag := ⟨put g.next r g.branches, g.next + 1⟩ with hg'
  obtain ⟨hnum, hext⟩ := hg.add (r := r) (by rintro q hq; rw [hr] at hq; cases hq; exact hp)
  have hold : ∀ c < g.next, S' c = S c := fun c hc => hothers c hc.ne
  have hstart : ∀ c < g.next, h.startOf g' c = h.startOf g c := by
    intro c hc
    rw [History.startOf, History.startOf, hext.parent hc]
  have hstartNew : h.startOf g' g.next = at' := by
    rw [History.startOf, (hf.unborn _ le_rfl).2, Dag.parent, Dag.get, hg', lookup_put_self]
    simp [hr]
  have hinherit : ∀ {e o b : Nat}, Dag.Inherits g e o b → Dag.Inherits g' e o b := by
    intro e o b hi
    rcases hi.last with rfl | ⟨c, hc, rfl, -⟩
    · exact .self _
    · exact (hext.inherits hg hnum (hg c hc).1).2 hi
  have hbelow : ∀ {e o b : Nat}, Dag.Inherits g e o b → o = b ∨ (o < g.next ∧ b < g.next) := by
    intro e o b hi
    rcases hi.last with rfl | ⟨c, hc, rfl, -⟩
    · exact .inl rfl
    · exact .inr ⟨(hi.le hg).trans_lt (hg c hc).1, (hg c hc).1⟩
  have hreach : ∀ {r : N} {x : Holder}, Reachable g S h r x → x.branch < g.next →
      Reachable g' S' h r x := by
    intro r x hx hlt
    rw [Reachable, hstart _ hlt, hold _ hlt]
    exact hx
  refine ⟨fun c => ?_, fun c => ?_, fun c hc q hq => ?_, fun o c e hi ho hc rel => ?_, fun x hx => ?_,
    fun c rel v hv n hroot => ?_, fun c hc => ?_⟩
  · rcases eq_or_ne c g.next with rfl | hc
    · exact hnew
    · exact hothers c hc ▸ hf.dated c
  · rcases eq_or_ne c g.next with rfl | hc
    · rw [hstartNew]
      exact hcur
    · rw [hothers c hc, History.startOf, Dag.parent, Dag.get, hg', lookup_put_ne hc]
      exact hf.start c
  · rcases mem_put hc with rfl | hc
    · cases hr.symm.trans hq
      exact ⟨(hold p hp).symm ▸ hat, hcur⟩
    · have hlt := hg c hc
      rw [hold _ hlt.1, hold _ ((hlt.2 q hq).trans hlt.1)]
      exact hf.forks c hc q hq
  · rcases Dag.inherits_added hg hr hp hi with hi | ⟨rfl, hle, hi⟩
    · rcases hbelow hi with rfl | ⟨ho', hc'⟩
      · rfl
      · rw [hold o ho'] at ho ⊢
        rw [hold c hc'] at hc ⊢
        exact hf.alike o c e hi ho hc rel
    · have ho' := (hi.le hg).trans_lt hp
      rw [hold o ho'] at ho ⊢
      rw [hsame.1] at hc
      rw [hsame.factAt (Nat.lt_succ_of_le hle)]
      exact hf.alike o p e hi ho hc rel
  · obtain ⟨hxlt, hxcur, hxfact⟩ := hf.held x hx
    refine ⟨Nat.lt_succ_of_lt hxlt, (hold _ hxlt).symm ▸ hxcur, fun c hi hc => ?_⟩
    rcases Dag.inherits_added hg hr hp hi with hi | ⟨rfl, hle, hi⟩
    · have hc' : c < g.next := (hbelow hi).elim (fun heq => heq ▸ hxlt) And.right
      rw [hold c hc'] at hc ⊢
      exact hxfact c hi hc
    · rw [hsame.1] at hc
      rw [hsame.factAt (Nat.lt_succ_of_le hle)]
      exact hxfact p hi hc
  · rcases eq_or_ne c g.next with rfl | hc
    · rcases le_or_gt v.1 at' with hle | hlt
      · -- inherited from the parent
        have hv' := (hsame.mem_versions (Nat.lt_succ_of_le hle)).1 hv
        obtain ⟨o, e', hi, hdate, hx⟩ := hf.covered p rel v hv' n hroot
        have he' : e' ≤ at' := by omega
        refine ⟨o, e', ?_, hdate.imp_right (·.imp_right (·.trans hsame.1.symm)),
          hreach hx ((hi.le hg).trans_lt hp)⟩
        exact (hinherit hi).trans (.child (mem_of_lookup (lookup_put_self _ r _)) hr he' (.self _))
      · exact ⟨g.next, v.1, .self _, .inl rfl, .inr ⟨hstartNew.trans_lt hlt, v.2, hv, hroot⟩⟩
    · rw [hothers c hc] at hv
      obtain ⟨o, e', hi, hdate, hx⟩ := hf.covered c rel v hv n hroot
      have hclt := hf.lt_next rel hv
      refine ⟨o, e', hinherit hi, by rwa [hothers c hc], hreach hx ((hi.le hg).trans_lt hclt)⟩
  · have hc' : g.next < c := hc
    rw [hothers c hc'.ne']
    exact hf.unborn c hc'.le

omit [DecidableEq N] in
/-- **Indexing further** leaves every version findable. -/
theorem Findable.reindexed {h' : History N} (hf : Findable g S h) {states : BranchId → Option (Inner F)}
    (hS : ∀ b, S b = (states b).getD Inner.empty) (hknown : ∀ b i, states b = some i → b < g.next)
    (hr : History.Reindexed g states h h') : Findable g S h' := by
  have hstate : ∀ b rel, ∀ v ∈ ((S b).rootsOr rel).versions, states b = some (S b) := by
    intro b rel v hv
    rw [hS] at hv ⊢
    cases hb : states b with
    | none =>
      rw [hb] at hv
      exact absurd hv List.not_mem_nil
    | some i => rfl
  refine ⟨hf.dated, fun b => ?_, hf.forks, hf.alike, fun x hx => ?_, fun b rel v hv r hroot => ?_,
    fun b hb => ⟨(hf.unborn b hb).1, ?_⟩⟩
  · cases hb : states b with
    | none =>
      rw [History.startOf, hr.others b hb]
      exact hf.start b
    | some i =>
      have hi : S b = i := by rw [hS, hb]; rfl
      exact (hr.reached b i hb).trans (max_le (hf.start b) (hi ▸ le_rfl))
  · rcases hr.fresh x hx with hx | ⟨-, i, hi, hcur, t, ht, hroot⟩
    · exact hf.held x hx
    · obtain rfl : S x.2.branch = i := by rw [hS, hi]; rfl
      refine ⟨hknown _ _ hi, hcur, fun b hin hb => ?_⟩
      have hdate := ((hf.dated _).dates _ _ ht).2.1
      rw [hf.alike _ b _ hin hdate hb, (hf.dated _).factAt ht]
      exact hroot
  · obtain ⟨o, e', hi, hdate, hx⟩ := hf.covered b rel v hv r hroot
    refine ⟨o, e', hi, hdate, ?_⟩
    rcases hx with hx | ⟨hlt, t, ht, hroot'⟩
    · exact .inl (hr.kept _ hx)
    · rcases lt_or_ge (h'.startOf g o) e' with hlt' | hle
      · exact .inr ⟨hlt', t, ht, hroot'⟩
      · have hcur := ((hf.dated o).dates rel _ ht).2.2
        exact .inl (hr.found (r, ⟨o, rel, e'⟩) ⟨_, hstate o rel _ ht, hcur, t, ht, hroot'⟩ hlt hle)
  · rw [hr.others b]
    · exact (hf.unborn b hb).2
    · cases hi : states b with
      | none => rfl
      | some i => exact absurd (hknown b i hi) (not_lt.2 hb)

end Findable

/-! ## What a walk over every version finds -/

section Walk

variable {F N : Type} [Parts N Dsp] [DecidableEq N] [ContentTree F N] {g : Dag} {S : BranchId → Inner F}
  {h : History N} {states : BranchId → Option (Inner F)}

omit [DecidableEq N] in
/-- A retained version, of any branch, holds a node; and the shift of its place there from
another. -/
def HeldAt (states : BranchId → Option (Inner F)) (n : N) (at' : Dsp) (p : Place) : Prop :=
  ∃ b i rel e t r off, states b = some i ∧ (e, t) ∈ (i.rootsOr rel).versions ∧
    ContentTree.root t = some r ∧ Within n off r ∧ Version.place ⟨b, rel, e⟩ (off - at') = p

/-- **An index that has reached every version finds what a walk over all of them does.** -/
theorem Findable.mem_holdersOf (hf : Findable g S h) (hg : g.Numbered) (hs : h.Sound)
    (hS : ∀ b, S b = (states b).getD Inner.empty) (hall : ∀ b, (S b).current ≤ h.startOf g b)
    {n : N} {at' : Dsp} {p : Place} :
    (p, ()) ∈ holdersOf h g states n at' ↔ HeldAt states n at' p := by
  have hstate : ∀ {b : BranchId} {i : Inner F}, states b = some i → S b = i := fun {b i} hb => by
    rw [hS, hb]
    rfl
  have hroots : ∀ {i : Inner F} {rel : RelId} {roots : RelRoots F}, i.roots rel = some roots →
      roots = i.rootsOr rel := fun {i rel roots} hr => by
    rw [Inner.rootsOr, hr]
    rfl
  rw [Grmpl.mem_holdersOf hs]
  constructor
  · rintro ⟨x, off, r, hw, hx, v, hv, rfl⟩
    obtain ⟨hin, i, hi, hret⟩ := mem_versionsOf.1 ⟨hv, rfl⟩
    obtain ⟨-, -, hfact⟩ := hf.held _ hx
    have hd := hf.dated v.branch
    rw [hstate hi] at hd
    unfold retained at hret
    split at hret
    · cases hret
    · rename_i roots hr
      obtain rfl := hroots hr
      split_ifs at hret with hown hcheck
      · obtain ⟨t, ht⟩ := Option.isSome_iff_exists.1 hown
        have hmem := mem_of_lookup ht
        have hb : v.branch < g.next := hf.lt_next x.rel (by rw [hstate hi]; exact hmem)
        have hroot := hfact v.branch ((Dag.mem_inheritors hg hb).1 hin)
          (by rw [hstate hi]; exact (hd.dates _ _ hmem).2.1)
        dsimp only at hroot
        rw [hstate hi, hd.factAt hmem] at hroot
        exact ⟨_, i, x.rel, x.edition, t, r, off, hi, hmem, hroot, hw,
          congrArg (Version.place · _) (Option.some.inj hret)⟩
      · obtain ⟨t, ht, hroot⟩ := Option.any_eq_true .. |>.1 hcheck.2
        exact ⟨_, i, x.rel, i.watermark, t, r, off, hi, mem_of_lookup ht, of_decide_eq_true hroot, hw,
          congrArg (Version.place · _) (Option.some.inj hret)⟩
  · rintro ⟨b, i, rel, e, t, r, off, hi, hmem, hroot, hw, rfl⟩
    have hd := hf.dated b
    obtain ⟨o, e', hin, hdate, hreach⟩ := hf.covered b rel (e, t) (by rw [hstate hi]; exact hmem) r hroot
    have hb : b < g.next := hf.lt_next rel (by rw [hstate hi]; exact hmem)
    have hx : (r, ⟨o, rel, e'⟩) ∈ h.holders := by
      rcases hreach with hx | ⟨hlt, t', ht', -⟩
      · exact hx
      · have := ((hf.dated o).dates rel _ ht').2.2
        have := hall o
        dsimp only at *
        omega
    refine ⟨_, off, r, hw, hx, ⟨b, rel, e⟩, ?_, rfl⟩
    refine (mem_versionsOf.2 ⟨(Dag.mem_inheritors hg hb).2 hin, i, hi, ?_⟩).1
    rw [hstate hi] at hd
    have hr : i.roots rel = some (i.rootsOr rel) := by
      cases hr : i.roots rel with
      | none =>
        rw [Inner.rootsOr, hr] at hmem
        exact absurd hmem List.not_mem_nil
      | some roots => rw [hroots hr]
    unfold retained
    rw [hr]
    dsimp only
    rcases hdate with rfl | ⟨hlt, he⟩
    · rw [if_pos]
      rw [lookup_of_mem (hd.sorted rel) hmem]
      rfl
    · -- the version it was folded from is there no longer
      rw [hstate hi] at he
      dsimp only at he hlt
      rw [if_neg, if_pos]
      · rw [he]
      · refine ⟨he ▸ hlt, ?_⟩
        rw [← he, lookup_of_mem (hd.sorted rel) hmem]
        exact decide_eq_true hroot
      · rw [lookup_absent]
        · simp
        · intro v hv hve
          have := (hd.dates rel v hv).2.1
          omega

open Classical in
/-- The rows of some leaves counted at each place that holds them. -/
noncomputable def rowsHeld (held : N → Dsp → Prop) (leaves : List (N × Dsp × Nat)) : Nat :=
  ((leaves.filter fun x => held x.1 x.2.1).map fun x => x.2.2).sum

/-- What was found is what a walk over every version of every branch finds: each place some
leaf is held at, once, and the rows in the leaves held there. -/
structure AsWalked (states : BranchId → Option (Inner F)) (leaves : List (N × Dsp × Nat))
    (found : List (Place × Nat)) : Prop where
  once : Sorted found
  rows : ∀ p n, (p, n) ∈ found ↔ (∃ x ∈ leaves, HeldAt states x.1 x.2.1 p) ∧
    n = rowsHeld (fun m at' => HeldAt states m at' p) leaves

omit [Parts N Dsp] [DecidableEq N] [ContentTree F N] in
theorem lookup_countRows (rows : Nat) (p : Place) : ∀ {here : List (Place × Unit)}, Sorted here →
    ∀ found : List (Place × Nat), lookup p (countRows found here rows) =
      if (p, ()) ∈ here then some ((lookup p found).getD 0 + rows) else lookup p found := by
  intro here
  induction here with
  | nil => exact fun _ _ => rfl
  | cons x here ih =>
    intro hs found
    obtain ⟨hx, hs⟩ := List.pairwise_cons.1 hs
    rw [countRows, List.foldl_cons, ← countRows, ih hs, lookup_put]
    by_cases hp : p = x.1
    · subst hp
      rw [if_neg fun hmem => lt_irrefl _ (hx _ hmem), if_pos rfl, if_pos List.mem_cons_self]
    · rw [if_neg hp]
      have hne : (p, ()) ≠ x := fun heq => hp (congrArg Prod.fst heq)
      simp only [List.mem_cons, hne, false_or]

open Classical in
/-- Every place is counted for each leaf held there. -/
theorem lookup_backfollow (held : N → Dsp → Place → Prop)
    (hheld : ∀ n at' p, (p, ()) ∈ holdersOf h g states n at' ↔ held n at' p) (p : Place) :
    ∀ (leaves : List (N × Dsp × Nat)) (found : List (Place × Nat)),
      lookup p (leaves.foldl (fun found x => countRows found (holdersOf h g states x.1 x.2.1) x.2.2) found) =
        if ∃ x ∈ leaves, held x.1 x.2.1 p then
          some ((lookup p found).getD 0 + rowsHeld (fun n at' => held n at' p) leaves)
        else lookup p found := by
  intro leaves
  induction leaves with
  | nil => simp
  | cons x leaves ih =>
    intro found
    have hhere : Sorted (holdersOf h g states x.1 x.2.1) := sorted_placeSet _
    rw [List.foldl_cons, ih, lookup_countRows x.2.2 p hhere found]
    simp only [hheld, List.exists_mem_cons_iff, rowsHeld]
    by_cases hx : held x.1 x.2.1 p
    · rw [List.filter_cons_of_pos (by simpa using hx)]
      by_cases hrest : ∃ x ∈ leaves, held x.1 x.2.1 p
      · simp [hx, hrest, Nat.add_assoc]
      · have hnil : leaves.filter (fun x => decide (held x.1 x.2.1 p)) = [] :=
          filter_eq_nil_of fun y hy => decide_eq_false fun hh => hrest ⟨y, hy, hh⟩
        simp [hx, hrest, hnil]
    · rw [List.filter_cons_of_neg (by simpa using hx)]
      simp [hx]

/-- A backfollow by an index that has reached every version is exact. -/
theorem Findable.exact (hf : Findable g S h) (hg : g.Numbered) (hs : h.Sound)
    (hS : ∀ b, S b = (states b).getD Inner.empty) (hall : ∀ b, (S b).current ≤ h.startOf g b)
    (t : F) (lo hi : Tuple) :
    AsWalked states (ContentTree.pieces t lo hi) (backfollow h g states t lo hi) := by
  have hsorted : Sorted (backfollow h g states t lo hi) := by
    unfold backfollow
    suffices ∀ (leaves : List (N × Dsp × Nat)) (found : List (Place × Nat)), Sorted found →
        Sorted (leaves.foldl (fun found x => countRows found (holdersOf h g states x.1 x.2.1) x.2.2) found) from
      this _ [] .nil
    intro leaves
    induction leaves with
    | nil => exact fun _ h => h
    | cons x leaves ih => exact fun found hfound => ih _ (sorted_countRows hfound _ _)
  refine ⟨hsorted, fun p n => ?_⟩
  have hheld : ∀ n at' (p : Place), (p, ()) ∈ holdersOf h g states n at' ↔ HeldAt states n at' p :=
    fun _ _ _ => hf.mem_holdersOf hg hs hS hall
  have hlook := lookup_backfollow (HeldAt states) hheld p (ContentTree.pieces t lo hi) []
  rw [← backfollow] at hlook
  constructor
  · intro hmem
    rw [lookup_of_mem hsorted hmem] at hlook
    split_ifs at hlook with hex
    · exact ⟨hex, by simpa [lookup] using hlook⟩
    · cases hlook
  · rintro ⟨hex, rfl⟩
    rw [if_pos hex] at hlook
    exact mem_of_lookup (hlook.trans (by simp [lookup]))

end Walk

/-! ## Worlds -/

section World

variable {F N : Type} [FactReads F] [Parts N Dsp] [DecidableEq N] [ContentTree F N]
  {w w' : Family F N} {a : FamilyAct} {b : BranchId}

/-- Each branch's state as last staged, empty before it ever was. -/
def Family.stateOf (w : Family F N) (b : BranchId) : Inner F := (w.states b).getD Inner.empty

omit [FactReads F] [Parts N Dsp] [DecidableEq N] [ContentTree F N] in
theorem stateOf_put (w : Family F N) (b : BranchId) (s : BranchState F)
    (stores : List (BranchId × BranchState F)) (g : Dag) (h : History N) (c : BranchId) :
    Family.stateOf ⟨g, put b s w.branches, h, stores⟩ c = if c = b then s.inner else w.stateOf c := by
  unfold Family.stateOf Family.states
  dsimp only
  rw [lookup_put]
  split_ifs <;> rfl

/-- A step of a world with one store a branch, no fork taken past its parent, and no
consolidation that takes away a version some fork inherited before it was indexed. -/
def Spares (w : Family F N) : FamilyAct → Prop
  | .on k (.consolidate upTo) => ∀ x ∈ w.stores[k]?,
      SparesForks w.dag w.history x.1 x.2.inner (min upTo x.2.inner.current)
  | a => Live w a

omit [FactReads F] [Parts N Dsp] [DecidableEq N] [ContentTree F N] in
theorem Spares.live (h : Spares w a) : Live w a := by
  cases a with
  | index budget => trivial
  | on k a => cases a <;> first | exact h | trivial

/-- Every retained version of a world is findable, and every store is at its branch's
state. -/
structure Indexed (w : Family F N) : Prop where
  findable : Findable w.dag w.stateOf w.history
  synced : ∀ x ∈ w.stores, (w.stateOf x.1).SameRoots x.2.inner

omit [FactReads F] [DecidableEq N] in
/-- A branch numbered next, with a store open on it. -/
theorem Indexed.spawn (h : Indexed w) (hk : Kept w) {r : Branch} {p at' : Nat} (hr : r.parent = some (p, at'))
    (hp : p < w.dag.next) (hat : at' ≤ (w.stateOf p).current) {s : BranchState F} (hd : s.inner.Dated)
    (hcur : at' ≤ s.inner.current) (hsame : (w.stateOf p).SameBelow (at' + 1) s.inner) :
    Indexed (w.spawn (⟨put w.dag.next r w.dag.branches, w.dag.next + 1⟩, w.dag.next) s) := by
  have hstate : ∀ c, (w.spawn (⟨put w.dag.next r w.dag.branches, w.dag.next + 1⟩,
      w.dag.next) s).stateOf c = if c = w.dag.next then s.inner else w.stateOf c := stateOf_put w _ s _ _ _
  have hnew := (hstate w.dag.next).trans (if_pos rfl)
  refine ⟨h.findable.spawn hk.dag hr hp hat ?_ ?_ ?_ fun c hc => ?_, fun x hx => ?_⟩
  · rw [hnew]
    exact hd
  · rw [hnew]
    exact hcur
  · rw [hnew]
    exact hsame
  · rw [hstate, if_neg hc]
  · rw [hstate]
    rcases List.mem_append.1 hx with hx | hx
    · rw [if_neg (hk.stores x hx).1.ne]
      exact h.synced x hx
    · obtain rfl := List.mem_singleton.1 hx
      rw [if_pos rfl]
      exact .refl _

theorem Indexed.step (h : Indexed w) (hk : Kept w) (hsolo : Solo w) (hok : Spares w a)
    (hst : w.step a = some w') : Indexed w' := by
  have hstore : ∀ {k : Nat} {b : BranchId} {s : BranchState F}, w.stores[k]? = some (b, s) →
      b < w.dag.next ∧ Sorted s.inner.rels ∧ (w.stateOf b).SameRoots s.inner ∧ s.inner.Dated := by
    intro k b s hks
    have hmem := List.mem_of_getElem? hks
    have hsame := h.synced _ hmem
    exact ⟨(hk.stores _ hmem).1, (hk.stores _ hmem).2, hsame, (h.findable.dated b).same hsame⟩
  -- the store acted through, or one of another branch
  have hset : ∀ {k : Nat} {b : BranchId} {s s' : BranchState F}, w.stores[k]? = some (b, s) →
      ∀ x ∈ w.stores.set k (b, s'), x = (b, s') ∨ (x.1 ≠ b ∧ x ∈ w.stores) := by
    intro k b s s' hks x hx
    obtain ⟨j, hj⟩ := List.mem_iff_getElem?.1 hx
    rw [List.getElem?_set] at hj
    split_ifs at hj with hkj
    · exact .inl (Option.some.inj hj).symm
    · exact .inr ⟨fun hb => hkj (hsolo.one _ _ _ _ hj hks hb).symm, List.mem_of_getElem? hj⟩
  cases happens_of_step hst with
  | index budget =>
    refine ⟨h.findable.reindexed (fun _ => rfl) (fun b i hi => ?_)
      (History.reindexed_catchUp (fun b i hi => ?_) budget _), h.synced⟩
    all_goals
      obtain ⟨s, hs, rfl⟩ := Option.map_eq_some_iff.1 hi
      have hb := hk.branches _ (mem_of_lookup hs)
    · exact hb.1
    · exact hb.2
  | @read k a b s s' hks hr =>
    refine ⟨h.findable, fun x hx => ?_⟩
    rcases hset hks x hx with rfl | ⟨-, hx⟩
    · exact (hstore hks).2.2.1.trans (BranchState.read_sameRoots hr)
    · exact h.synced x hx
  | @write k a b s s' hks hr =>
    obtain ⟨hb, -, hsame, hd⟩ := hstore hks
    have hstate : ∀ c, (w.stage k b s').stateOf c = if c = b then s'.inner else w.stateOf c :=
      stateOf_put w b s' _ _ _
    refine ⟨?_, fun x hx => ?_⟩
    · rcases BranchState.write_dated hr hd with hon | ⟨upTo, rfl, hfold⟩
      · refine h.findable.goesOn (fun c => ?_) fun c hc => ?_
        · rw [hstate]
          split_ifs with hcb
          · rw [hcb]
            exact .of_same hsame hon
          · exact .refl (h.findable.dated c)
        · rw [hstate, if_neg]
          rintro rfl
          exact absurd hb (not_lt.2 hc)
      · refine h.findable.folds (b := b) (min upTo s.inner.current) ?_ (fun c hc => ?_)
          (fun c hc p hp hpb rel v hv => ?_) hb
        · rw [hstate, if_pos rfl]
          exact hfold.of_same hsame
        · rw [hstate, if_neg hc]
        · rw [← (hsame.roots rel).1] at hv
          exact hok _ hks c hc p hp hpb rel v hv
    · rw [hstate]
      rcases hset hks x hx with rfl | ⟨hxb, hx⟩
      · rw [if_pos rfl]
        exact .refl _
      · rw [if_neg hxb]
        exact h.synced x hx
  | @fork k at' b s hks hw =>
    obtain ⟨hb, hs, hsame, hd⟩ := hstore hks
    have hat : at' ≤ s.inner.current := hok _ hks
    exact h.spawn hk rfl hb (hsame.current ▸ hat) (hd.forkAt hs hw) le_rfl
      ((hsame.sameBelow _).trans (Inner.forkAt_sameBelow hs at'))
  | conflict => exact h
  | merge hks _ hm =>
    obtain ⟨hb, -, hsame, hd⟩ := hstore hks
    have hon := BranchState.merge_goesOn hm hd
    exact h.spawn hk rfl hb hsame.current.le hon.dated hon.current ((hsame.sameBelow _).trans hon.same)
  | branch _ => exact hok.elim

end World

end Grmpl

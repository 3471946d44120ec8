import Grmpl.Ent.FactRows
import Grmpl.Lib.Contents

/-!
# The history index

Beside the versions of a world lies its content inverted: which node is a part of
which, which versions each root is the Fact root of, and where each node was first
indexed. The index is brought up to date when it is asked, a branch's versions in
edition order.

* `ContentTree`: a Fact enfilade's root node, and the leaves holding a range.
* `Dag.lineage`: the branches whose history flows into a point.
* `History`, `History.indexVersion`, `History.catchUp`: the index.
* `History.Sound`: edges are true, and complete below every indexed node.
* `Sound.catchUp`: what bringing the index up to date adds to it.
-/

open OrdMap Contents

namespace Grmpl

/-- A Fact enfilade as content: the node at its root, and the leaves that hold rows of
a range, each at its displacement and with the number of those rows. -/
class ContentTree (F : Type) (N : outParam Type) [Parts N Dsp] where
  root : F → Option N
  pieces : F → Tuple → Tuple → List (N × Dsp × Nat)

/-- Rows in one leaf. -/
instance FactRows.instParts : Parts FactRows Dsp := ⟨fun _ => [], fun _ => 0, by simp⟩

instance FactRows.instContentTree : ContentTree FactRows FactRows where
  root m := if m.isEmpty then none else some m
  pieces m lo hi :=
    let n := (between lo hi m).length
    if n = 0 then [] else [(m, 0, n)]

/-! ## Lineages -/

namespace Dag

def get (g : Dag) (b : BranchId) : Option Branch := lookup b g.branches

/-- The point a branch was forked from. -/
def parent (g : Dag) (b : BranchId) : Option (BranchId × Nat) := (g.get b).bind Branch.parent

/-- The branches walked back to from a point, in the order first reached, and the
highest edition of each. -/
def walkBack (g : Dag) : Nat → BranchId × Nat → List BranchId × List (BranchId × Nat) →
    List BranchId × List (BranchId × Nat)
  | 0, _, acc => acc
  | fuel + 1, (b, e), (order, best) =>
      if (lookup b best).any (e ≤ ·) then (order, best)
      else
        let acc := (if (lookup b best).isSome then order else order ++ [b], put b e best)
        match g.get b with
        | none => acc
        | some br =>
            let acc := match br.parent with
              | some p => walkBack g fuel p acc
              | none => acc
            match br.merged with
            | some (m, at', since) => if since ≤ e then walkBack g fuel (m, at') acc else acc
            | none => acc

/-- Every branch whose history flows into a point, with the highest edition that does. -/
def lineage (g : Dag) (b : BranchId) (at' : Nat) : List (BranchId × Nat) :=
  -- a branch's parents are numbered before it, so no walk back is longer than the ids
  let acc := g.walkBack g.next (b, at') ([], [])
  acc.1.map fun b => (b, (lookup b acc.2).getD 0)

end Dag

/-! ## The index -/

/-- One version a root is the Fact root of. -/
structure Holder where
  branch : BranchId
  rel : RelId
  edition : Nat
  deriving DecidableEq

/-- The content of a world's versions, inverted. -/
structure History (N : Type) where
  /-- Each part's place in each whole. -/
  parents : List (N × N × Dsp)
  holders : List (N × Holder)
  /-- The first edition of each branch a node was indexed at. -/
  born : List ((N × BranchId) × Nat)
  /-- The edition each branch is indexed through. -/
  cursor : List (BranchId × Nat)

namespace History

variable {F N : Type} [Parts N Dsp] [DecidableEq N] [ContentTree F N]

omit [Parts N Dsp] [DecidableEq N] in
def empty : History N := ⟨[], [], [], []⟩

omit [Parts N Dsp] in
def bornAt (h : History N) (n : N) (b : BranchId) : Option Nat :=
  (h.born.find? fun x => x.1 = (n, b)).map Prod.snd

omit [Parts N Dsp] in
/-- Whether a node was born on a lineage. -/
def visible (h : History N) (n : N) (lineage : List (BranchId × Nat)) : Bool :=
  lineage.any fun l => (h.bornAt n l.1).any (· ≤ l.2)

omit [Parts N Dsp] in
def bear (h : History N) (n : N) (b : BranchId) (e : Nat) : History N :=
  { h with born := ((n, b), e) :: h.born.filter fun x => x.1 ≠ (n, b) }

omit [Parts N Dsp] in
def addParent (h : History N) (child whole : N) (d : Dsp) : History N :=
  { h with parents := h.parents.insert (child, whole, d) }

/-- A node indexed with everything beneath it, down to what its lineage has already. -/
def visit (lineage : List (BranchId × Nat)) (b : BranchId) (e : Nat) :
    Nat → N → History N → History N
  | 0, _, h => h
  | fuel + 1, n, h =>
      if h.visible n lineage then h
      else (parts n).foldl (fun h p => visit lineage b e fuel p.1 (h.addParent p.1 n p.2)) (h.bear n b e)

/-- A relation's Fact root at an edition of a branch indexed. -/
def indexVersion (g : Dag) (at' : Holder) (t : F) (h : History N) : History N :=
  match ContentTree.root t with
  | none => h
  | some r =>
      visit (g.lineage at'.branch at'.edition) at'.branch at'.edition (height r + 1) r
        { h with holders := h.holders.insert (r, at') }

omit [Parts N Dsp] [DecidableEq N] in
def setCursor (h : History N) (b : BranchId) (e : Nat) : History N :=
  { h with cursor := put b e h.cursor }

omit [Parts N Dsp] [DecidableEq N] in
/-- The edition a branch is indexed through: its fork point before it has been at all. -/
def startOf (h : History N) (g : Dag) (b : BranchId) : Nat :=
  (lookup b h.cursor).getD (((g.parent b).map Prod.snd).getD 0)

/-- The versions of a branch past an edition, by edition and relation. -/
def toIndex (i : Inner F) (start : Nat) : List (Nat × RelId × F) :=
  (i.rels.flatMap fun r =>
    (between (start + 1) (i.current + 1) r.2.versions).map fun v => (v.1, r.1, v.2)).insertionSort
      fun a b => a.1 < b.1 ∨ (a.1 = b.1 ∧ a.2.1 ≤ b.2.1)

/-- Versions indexed a whole edition at a time while the budget lasts: the index, how
many it holds by now, and whether the budget ran out. -/
def indexEditions (g : Dag) (b : BranchId) (budget : Option Nat) (current : Nat)
    (versions : List (Nat × RelId × F)) : List Nat → Nat → History N → Nat → History N × Nat × Bool
  | [], _, h, done => (h.setCursor b current, done, false)
  | e :: es, through, h, done =>
      if budget.any (· ≤ done) then (h.setCursor b through, done, true)
      else
        let now := versions.filter fun v => v.1 = e
        indexEditions g b budget current versions es e
          (now.foldl (fun h v => h.indexVersion g ⟨b, v.2.1, v.1⟩ v.2.2) h) (done + now.length)

/-- One branch brought up to date while the budget lasts. -/
def catchUpBranch (g : Dag) (budget : Option Nat) (b : BranchId) (i : Inner F)
    (h : History N) (done : Nat) : History N × Nat × Bool :=
  let start := h.startOf g b
  if i.current ≤ start then (h, done, false)
  else
    let versions := toIndex i start
    indexEditions g b budget i.current versions ((versions.map Prod.fst).dedup) start h done

/-- Branches brought up to date in turn, an ancestor before its descendants. -/
def catchUpAll (g : Dag) (budget : Option Nat) (states : BranchId → Option (Inner F)) :
    List BranchId → History N → Nat → History N
  | [], h, _ => h
  | b :: bs, h, done =>
      match states b with
      | none => catchUpAll g budget states bs h done
      | some i =>
          match catchUpBranch g budget b i h done with
          | (h, done, false) => catchUpAll g budget states bs h done
          | (h, _, true) => h

/-- The index brought up to date, at most a budget of versions. -/
def catchUp (g : Dag) (states : BranchId → Option (Inner F)) (budget : Option Nat)
    (h : History N) : History N :=
  catchUpAll g budget states (g.branches.map Prod.fst) h 0

end History

/-! ## What the index holds -/

namespace History

section Sound

variable {F N : Type} [Parts N Dsp] [DecidableEq N]

omit [Parts N Dsp] [DecidableEq N] in
/-- A node indexed on some branch. -/
def Known (h : History N) (n : N) : Prop := ∃ x ∈ h.born, x.1.1 = n

/-- Edges say what is part of what, all do that lead to a known node from its whole,
and every holder's root is known. -/
structure Sound (h : History N) : Prop where
  edges : ∀ e ∈ h.parents, (e.1, e.2.2) ∈ parts e.2.1
  recorded : Recorded h.parents h.Known
  held : ∀ x ∈ h.holders, h.Known x.1

omit [DecidableEq N] in
theorem sound_empty : (empty : History N).Sound :=
  ⟨by simp [empty], fun n hn => by simp [Known, empty] at hn, by simp [empty]⟩

/-- What indexing content adds to. -/
structure Grown (h h' : History N) : Prop where
  parents : ∀ e ∈ h.parents, e ∈ h'.parents
  known : ∀ n, h.Known n → h'.Known n
  holders : h'.holders = h.holders
  cursor : h'.cursor = h.cursor

omit [Parts N Dsp] [DecidableEq N] in
theorem Grown.refl (h : History N) : Grown h h := ⟨fun _ he => he, fun _ hn => hn, rfl, rfl⟩

omit [Parts N Dsp] [DecidableEq N] in
theorem Grown.trans {h h' h'' : History N} (h₁ : Grown h h') (h₂ : Grown h' h'') : Grown h h'' :=
  ⟨fun e he => h₂.parents e (h₁.parents e he), fun n hn => h₂.known n (h₁.known n hn),
    h₂.holders.trans h₁.holders, h₂.cursor.trans h₁.cursor⟩

omit [Parts N Dsp] in
theorem grown_bear (h : History N) (n : N) (b : BranchId) (e : Nat) :
    Grown h (h.bear n b e) ∧ (h.bear n b e).Known n := by
  refine ⟨⟨fun _ he => he, fun m ⟨x, hx, hxm⟩ => ?_, rfl, rfl⟩, _, List.mem_cons_self, rfl⟩
  by_cases hk : x.1 = (n, b)
  · refine ⟨_, List.mem_cons_self, ?_⟩
    rw [← hxm, hk]
  · exact ⟨x, List.mem_cons_of_mem _ (List.mem_filter.2 ⟨hx, by simpa using hk⟩), hxm⟩

omit [Parts N Dsp] in
theorem known_bear {h : History N} {n m : N} {b : BranchId} {e : Nat} (hm : (h.bear n b e).Known m) :
    m = n ∨ h.Known m := by
  obtain ⟨x, hx, rfl⟩ := hm
  rcases List.mem_cons.1 hx with rfl | hx
  · exact .inl rfl
  · exact .inr ⟨x, (List.mem_filter.1 hx).1, rfl⟩

omit [Parts N Dsp] in
theorem grown_addParent (h : History N) (c n : N) (d : Dsp) : Grown h (h.addParent c n d) :=
  ⟨fun _ he => List.mem_insert_of_mem he, fun _ hn => hn, rfl, rfl⟩

omit [Parts N Dsp] in
theorem known_of_visible {h : History N} {n : N} {lineage : List (BranchId × Nat)}
    (hv : h.visible n lineage = true) : h.Known n := by
  obtain ⟨l, -, hl⟩ := List.any_eq_true.1 hv
  rw [bornAt, Option.any_map] at hl
  cases hf : h.born.find? fun x => x.1 = (n, l.1) with
  | none => rw [hf] at hl; cases hl
  | some x =>
    have hx := List.find?_some hf
    refine ⟨x, List.mem_of_find?_eq_some hf, ?_⟩
    rw [of_decide_eq_true hx]

/-- Edges are true, and complete from every known node but those still being visited. -/
structure Visiting (h : History N) (open' : N → Prop) : Prop where
  edges : ∀ e ∈ h.parents, (e.1, e.2.2) ∈ parts e.2.1
  recorded : ∀ n, ¬ open' n → h.Known n → ∀ p ∈ parts n, (p.1, n, p.2) ∈ h.parents ∧ h.Known p.1

/-- A visit closes its node and everything beneath it, while those above stay open. -/
theorem visit_visiting (lineage : List (BranchId × Nat)) (b : BranchId) (e : Nat) :
    ∀ (fuel : Nat) (n : N) (h : History N) (open' : N → Prop), height n < fuel →
      (∀ m, open' m → height n < height m) → h.Visiting open' →
      (visit lineage b e fuel n h).Visiting open' ∧ (visit lineage b e fuel n h).Known n ∧
        Grown h (visit lineage b e fuel n h) := by
  intro fuel
  induction fuel with
  | zero => exact fun n h open' hf => absurd hf (by simp)
  | succ fuel ih =>
    intro n h open' hfuel hopen hv
    unfold visit
    split_ifs with hvis
    · exact ⟨hv, known_of_visible hvis, Grown.refl h⟩
    · have hbear := grown_bear h n b e
      -- the node itself is open while its parts are visited
      have hloop : ∀ (ps : List (N × Dsp)) (g : History N), (∀ p ∈ ps, p ∈ parts n) →
          g.Visiting (fun m => open' m ∨ m = n) → g.Known n →
          let g' := ps.foldl (fun h p => visit lineage b e fuel p.1 (h.addParent p.1 n p.2)) g
          g'.Visiting (fun m => open' m ∨ m = n) ∧ Grown g g' ∧
            ∀ p ∈ ps, (p.1, n, p.2) ∈ g'.parents ∧ g'.Known p.1 := by
        intro ps
        induction ps with
        | nil => exact fun g _ hg _ => ⟨hg, Grown.refl g, by simp⟩
        | cons p ps ihps =>
          intro g hps hg hn
          have hp := hps p List.mem_cons_self
          have hlt := Parts.height_lt n p hp
          have hadd := grown_addParent g p.1 n p.2
          have hg1 : (g.addParent p.1 n p.2).Visiting (fun m => open' m ∨ m = n) := by
            refine ⟨fun x hx => ?_, fun m hm hk q hq => ?_⟩
            · rcases List.mem_insert_iff.1 hx with rfl | hx
              · exact hp
              · exact hg.edges x hx
            · obtain ⟨hedge, hknown⟩ := hg.recorded m hm hk q hq
              exact ⟨hadd.parents _ hedge, hknown⟩
          have habove : ∀ m, open' m ∨ m = n → height p.1 < height m := by
            rintro m (hm | rfl)
            · exact hlt.trans (hopen m hm)
            · exact hlt
          obtain ⟨hg2, hknown, hgrown⟩ := ih p.1 _ _ (by omega) habove hg1
          obtain ⟨h1, h2, h3⟩ := ihps _ (fun q hq => hps q (List.mem_cons_of_mem p hq)) hg2
            (hgrown.known n hn)
          refine ⟨h1, (hadd.trans hgrown).trans h2, fun q hq => ?_⟩
          rcases List.mem_cons.1 hq with rfl | hq
          · exact ⟨h2.parents _ (hgrown.parents _ List.mem_insert_self), h2.known _ hknown⟩
          · exact h3 q hq
      have hstart : (h.bear n b e).Visiting (fun m => open' m ∨ m = n) := by
        refine ⟨hv.edges, fun m hm hk q hq => ?_⟩
        rw [not_or] at hm
        rcases known_bear hk with rfl | hk
        · exact absurd rfl hm.2
        · obtain ⟨hedge, hknown⟩ := hv.recorded m hm.1 hk q hq
          exact ⟨hedge, hbear.1.known _ hknown⟩
      obtain ⟨h1, h2, h3⟩ := hloop (parts n) _ (fun p hp => hp) hstart hbear.2
      refine ⟨⟨h1.edges, fun m hm hk q hq => ?_⟩, h2.known _ hbear.2, hbear.1.trans h2⟩
      by_cases hmn : m = n
      · subst hmn
        exact h3 q hq
      · exact h1.recorded m (by simp [hm, hmn]) hk q hq

variable [ContentTree F N]

/-- A sound index that another has become by adding holders that meet a condition. -/
structure Adds (P : Holder → Prop) (h h' : History N) : Prop where
  sound : h'.Sound
  kept : ∀ x ∈ h.holders, x ∈ h'.holders
  fresh : ∀ x ∈ h'.holders, x ∈ h.holders ∨ P x.2

omit [DecidableEq N] [ContentTree F N] in
theorem Sound.adds {h : History N} (hs : h.Sound) (P : Holder → Prop) : Adds P h h :=
  ⟨hs, fun _ hx => hx, fun _ hx => .inl hx⟩

omit [DecidableEq N] in
theorem Adds.trans {P : Holder → Prop} {h h' h'' : History N} (h₁ : Adds P h h') (h₂ : Adds P h' h'') :
    Adds P h h'' := by
  refine ⟨h₂.sound, fun x hx => h₂.kept x (h₁.kept x hx), fun x hx => ?_⟩
  rcases h₂.fresh x hx with hx | hp
  · exact h₁.fresh x hx
  · exact .inr hp

omit [DecidableEq N] in
theorem Adds.mono {P Q : Holder → Prop} {h h' : History N} (ha : Adds P h h') (hPQ : ∀ x, P x → Q x) :
    Adds Q h h' :=
  ⟨ha.sound, ha.kept, fun x hx => (ha.fresh x hx).imp id (hPQ _)⟩

omit [DecidableEq N] in
theorem Adds.setCursor {P : Holder → Prop} {h h' : History N} (ha : Adds P h h') (b : BranchId)
    (e : Nat) : Adds P h (h'.setCursor b e) :=
  ⟨⟨ha.sound.edges, ha.sound.recorded, ha.sound.held⟩, ha.kept, ha.fresh⟩

/-- **Indexing a version keeps the index sound**, and adds no holder but the version. -/
theorem Sound.indexVersion {h : History N} (hs : h.Sound) (g : Dag) (at' : Holder) (t : F) :
    Adds (· = at') h (h.indexVersion g at' t) ∧ (h.indexVersion g at' t).cursor = h.cursor := by
  unfold History.indexVersion
  cases ht : ContentTree.root t with
  | none => exact ⟨hs.adds _, rfl⟩
  | some r =>
    dsimp only
    have hv : ({ h with holders := h.holders.insert (r, at') } : History N).Visiting fun _ => False :=
      ⟨hs.edges, fun n _ hk => hs.recorded n hk⟩
    obtain ⟨h1, h2, h3⟩ := visit_visiting (g.lineage at'.branch at'.edition) at'.branch at'.edition
      (height r + 1) r _ _ (by omega) (fun _ hm => hm.elim) hv
    refine ⟨⟨⟨h1.edges, fun n hk => h1.recorded n id hk, fun x hx => ?_⟩, fun x hx => ?_,
      fun x hx => ?_⟩, h3.cursor⟩
    · rw [h3.holders] at hx
      rcases List.mem_insert_iff.1 hx with rfl | hx
      · exact h2
      · exact h3.known _ (hs.held x hx)
    · rw [h3.holders]
      exact List.mem_insert_of_mem hx
    · rw [h3.holders] at hx
      rcases List.mem_insert_iff.1 hx with rfl | hx
      · exact .inr rfl
      · exact .inl hx

/-- A holder of a version of a branch past one edition, up to another. -/
def Past (b : BranchId) (start current : Nat) (x : Holder) : Prop :=
  x.branch = b ∧ start < x.edition ∧ x.edition ≤ current

theorem Sound.indexAll (g : Dag) (b : BranchId) {start current : Nat} :
    ∀ (now : List (Nat × RelId × F)) {h : History N}, h.Sound →
      (∀ v ∈ now, start < v.1 ∧ v.1 ≤ current) →
      let h' := now.foldl (fun h v => h.indexVersion g ⟨b, v.2.1, v.1⟩ v.2.2) h
      Adds (Past b start current) h h' ∧ h'.cursor = h.cursor
  | [], _, hs, _ => ⟨hs.adds _, rfl⟩
  | v :: now, h, hs, hnow => by
      obtain ⟨h1, hc1⟩ := hs.indexVersion g ⟨b, v.2.1, v.1⟩ v.2.2
      obtain ⟨h2, hc2⟩ := Sound.indexAll g b now h1.sound fun x hx =>
        hnow x (List.mem_cons_of_mem v hx)
      refine ⟨(h1.mono ?_).trans h2, hc2.trans hc1⟩
      rintro x rfl
      exact ⟨rfl, hnow v List.mem_cons_self⟩

/-- What indexing some editions of a branch adds, and where it leaves the cursor. -/
theorem Sound.indexEditions (g : Dag) (b : BranchId) (budget : Option Nat) {current start : Nat}
    {versions : List (Nat × RelId × F)} (hver : ∀ v ∈ versions, start < v.1 ∧ v.1 ≤ current)
    (hcur : start ≤ current) :
    ∀ (es : List Nat) (through : Nat) (h : History N) (done : Nat), h.Sound → start ≤ through →
      (∀ e ∈ es, start < e) →
      let r := History.indexEditions g b budget current versions es through h done
      Adds (Past b start current) h r.1 ∧ (∃ e, start ≤ e ∧ r.1.cursor = put b e h.cursor) ∧
        (budget = none → r.2.2 = false ∧ r.1.cursor = put b current h.cursor)
  | [], through, h, done, hs, hth, hes => by
      refine ⟨(hs.adds _).setCursor b current, ⟨current, hcur, rfl⟩, fun _ => ⟨rfl, rfl⟩⟩
  | e :: es, through, h, done, hs, hth, hes => by
      unfold History.indexEditions
      split_ifs with hb
      · refine ⟨(hs.adds _).setCursor b through, ⟨through, hth, rfl⟩, fun hnone => ?_⟩
        rw [hnone] at hb
        cases hb
      · dsimp only
        obtain ⟨h1, hc1⟩ := hs.indexAll g b (versions.filter fun v => v.1 = e)
          fun v hv => hver v (List.mem_filter.1 hv).1
        have hrest := Sound.indexEditions g b budget hver hcur es e _
          (done + (versions.filter fun v => v.1 = e).length) h1.sound (hes e List.mem_cons_self).le
          fun x hx => hes x (List.mem_cons_of_mem e hx)
        rw [hc1] at hrest
        exact ⟨h1.trans hrest.1, hrest.2⟩

omit [DecidableEq N] in
theorem mem_toIndex {i : Inner F} {start : Nat} {v : Nat × RelId × F} (hv : v ∈ toIndex i start) :
    start < v.1 ∧ v.1 ≤ i.current := by
  obtain ⟨r, -, hr⟩ := List.mem_flatMap.1 ((List.mem_insertionSort _).1 hv)
  obtain ⟨x, hx, rfl⟩ := List.mem_map.1 hr
  have hbetween := (List.mem_filter.1 hx).2
  simp only [decide_eq_true_eq] at hbetween
  exact ⟨hbetween.1, Nat.lt_succ_iff.1 hbetween.2⟩

/-- A version past where its branch was indexed through, that the branch has. -/
def Unindexed (h : History N) (g : Dag) (states : BranchId → Option (Inner F)) (x : Holder) : Prop :=
  h.startOf g x.branch < x.edition ∧ ∃ i, states x.branch = some i ∧ x.edition ≤ i.current

/-- What bringing branches up to date makes of the index: holders of versions not
indexed yet, and no branch indexed less far. -/
structure Onward (g : Dag) (states : BranchId → Option (Inner F)) (h h' : History N) : Prop where
  adds : Adds (h.Unindexed g states) h h'
  start : ∀ b, h.startOf g b ≤ h'.startOf g b

variable {g : Dag} {states : BranchId → Option (Inner F)}

omit [DecidableEq N] [ContentTree F N] in
theorem Sound.onward {h : History N} (hs : h.Sound) (g : Dag) (states : BranchId → Option (Inner F)) :
    Onward g states h h :=
  ⟨hs.adds _, fun _ => le_rfl⟩

omit [DecidableEq N] [ContentTree F N] in
theorem Onward.trans {h h' h'' : History N} (h₁ : Onward g states h h')
    (h₂ : Onward g states h' h'') : Onward g states h h'' :=
  ⟨h₁.adds.trans (h₂.adds.mono fun _ hx => ⟨(h₁.start _).trans_lt hx.1, hx.2⟩),
    fun b => (h₁.start b).trans (h₂.start b)⟩

omit [Parts N Dsp] [DecidableEq N] [ContentTree F N] in
theorem startOf_put {h h' : History N} {b : BranchId} {e : Nat} (hc : h'.cursor = put b e h.cursor)
    (g : Dag) (b' : BranchId) : h'.startOf g b' = if b' = b then e else h.startOf g b' := by
  unfold startOf
  rw [hc, lookup_put]
  split_ifs <;> rfl

theorem Sound.catchUpBranch {h : History N} (hs : h.Sound) (budget : Option Nat)
    {b : BranchId} {i : Inner F} (hi : states b = some i) (done : Nat) :
    let r := History.catchUpBranch g budget b i h done
    Onward g states h r.1 ∧ (budget = none → r.2.2 = false ∧ i.current ≤ r.1.startOf g b) := by
  unfold History.catchUpBranch
  dsimp only
  split_ifs with hcur
  · exact ⟨hs.onward g states, fun _ => ⟨rfl, hcur⟩⟩
  · have hver : ∀ v ∈ toIndex i (h.startOf g b), h.startOf g b < v.1 ∧ v.1 ≤ i.current :=
      fun v hv => mem_toIndex hv
    have hes : ∀ e ∈ ((toIndex i (h.startOf g b)).map Prod.fst).dedup, h.startOf g b < e := by
      intro e he
      obtain ⟨v, hv, rfl⟩ := List.mem_map.1 (List.mem_dedup.1 he)
      exact (mem_toIndex hv).1
    obtain ⟨hadds, ⟨e, he, hc⟩, hfull⟩ := Sound.indexEditions g b budget hver
      (not_le.1 hcur).le _ _ h done hs le_rfl hes
    refine ⟨⟨hadds.mono ?_, fun b' => ?_⟩, fun hb => ?_⟩
    · rintro x ⟨rfl, hstart, hcurrent⟩
      exact ⟨hstart, i, hi, hcurrent⟩
    · rw [startOf_put hc]
      split_ifs with hbb
      · exact hbb ▸ he
      · exact le_rfl
    · obtain ⟨hstop, hc'⟩ := hfull hb
      refine ⟨hstop, ?_⟩
      rw [startOf_put hc', if_pos rfl]

theorem Sound.catchUpAll {budget : Option Nat} :
    ∀ (bs : List BranchId) {h : History N} (done : Nat), h.Sound →
      let h' := History.catchUpAll g budget states bs h done
      Onward g states h h' ∧
        (budget = none → ∀ b ∈ bs, ∀ i, states b = some i → i.current ≤ h'.startOf g b)
  | [], h, done, hs => ⟨hs.onward g states, fun _ _ hb => absurd hb (by simp)⟩
  | b :: bs, h, done, hs => by
      unfold History.catchUpAll
      cases hb : states b with
      | none =>
        obtain ⟨h1, h2⟩ := Sound.catchUpAll bs done hs
        refine ⟨h1, fun hn b' hb' i hi => ?_⟩
        rcases List.mem_cons.1 hb' with rfl | hb'
        · rw [hb] at hi
          cases hi
        · exact h2 hn b' hb' i hi
      | some i =>
        obtain ⟨h1, h2⟩ := hs.catchUpBranch budget hb done
        dsimp only
        split
        · rename_i h' done' heq
          rw [heq] at h1 h2
          obtain ⟨h3, h4⟩ := Sound.catchUpAll bs done' h1.adds.sound
          refine ⟨h1.trans h3, fun hn b' hb' i' hi' => ?_⟩
          rcases List.mem_cons.1 hb' with rfl | hb'
          · obtain rfl := Option.some.inj (hb.symm.trans hi')
            exact (h2 hn).2.trans (h3.start _)
          · exact h4 hn b' hb' i' hi'
        · rename_i h' done' heq
          rw [heq] at h1 h2
          exact ⟨h1, fun hn => absurd (h2 hn).1 (by simp)⟩

/-- **Bringing the index up to date** keeps it sound and adds only versions not indexed
yet. -/
theorem Sound.catchUp {h : History N} (hs : h.Sound) (g : Dag)
    (states : BranchId → Option (Inner F)) (budget : Option Nat) :
    Onward g states h (h.catchUp g states budget) := (Sound.catchUpAll _ 0 hs).1

/-- Without a budget it leaves no version of a branch behind. -/
theorem Sound.catchUp_all {h : History N} (hs : h.Sound) {b : BranchId} {i : Inner F}
    (hb : b ∈ g.branches.map Prod.fst) (hi : states b = some i) :
    i.current ≤ (h.catchUp g states none).startOf g b := (Sound.catchUpAll _ 0 hs).2 rfl b hb i hi

end Sound

end History

end Grmpl

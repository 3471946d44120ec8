import Grmpl.Ent.History

/-!
# Backfollow

Which versions of a world hold some rows of one: the walk goes down to the leaves that
hold the rows, climbs from each to the roots above it, and from each root to the
versions it is the Fact root of, on its own branch and on every one that inherited it.

* `versionsOf`, `holdersOf`, `backfollow`: the code.
* `Inherits`, `mem_inheritors`: the branches that inherited an edition.
* `History.Sound.onBranch_backfollow`: what decides the holdings on one branch.
-/

open OrdMap Contents

namespace Grmpl

namespace Dag

/-- The branches that inherited an edition of a branch, the branch itself first. -/
def inheritors (g : Dag) (e : Nat) : Nat → BranchId → List BranchId
  | 0, _ => []
  | fuel + 1, b =>
      b :: (g.branches.filter fun c => c.2.parent.any fun p => p.1 = b ∧ e ≤ p.2).flatMap
        fun c => inheritors g e fuel c.1

/-- A branch inherited an edition of another, through forks taken at or after it. -/
inductive Inherits (g : Dag) (e : Nat) : BranchId → BranchId → Prop where
  | self (b : BranchId) : Inherits g e b b
  | child {o b at' : Nat} {c : BranchId × Branch} : c ∈ g.branches → c.2.parent = some (o, at') →
      e ≤ at' → Inherits g e c.1 b → Inherits g e o b

/-- Every branch is numbered below the next, after the branch it was forked from. -/
def Numbered (g : Dag) : Prop :=
  ∀ c ∈ g.branches, c.1 < g.next ∧ ∀ p ∈ c.2.parent, p.1 < c.1

variable {g : Dag} {e o b : Nat}

theorem Inherits.le (hg : g.Numbered) (h : Inherits g e o b) : o ≤ b := by
  induction h with
  | self => exact le_rfl
  | child hc hp _ _ ih => exact ((hg _ hc).2 _ hp).le.trans ih

/-- The walk over forks finds every branch that inherited an edition. -/
theorem mem_inheritors (hg : g.Numbered) (hb : b < g.next) :
    b ∈ g.inheritors e g.next o ↔ Inherits g e o b := by
  have hstep : ∀ fuel o : Nat, b < fuel + o →
      (b ∈ g.inheritors e fuel o ↔ Inherits g e o b) := by
    intro fuel
    induction fuel with
    | zero =>
      intro o hfuel
      refine iff_of_false (by simp [inheritors]) fun h => ?_
      have := h.le hg
      omega
    | succ fuel ih =>
      intro o hfuel
      rw [inheritors, List.mem_cons, List.mem_flatMap]
      constructor
      · rintro (rfl | ⟨c, hc, hmem⟩)
        · exact .self _
        · obtain ⟨hin, hfork⟩ := List.mem_filter.1 hc
          obtain ⟨p, hp, hpe⟩ := Option.any_eq_true .. |>.1 hfork
          obtain ⟨rfl, hle⟩ : p.1 = o ∧ e ≤ p.2 := by simpa using hpe
          have hlt : @LT.lt Nat _ p.1 c.1 := (hg c hin).2 p hp
          exact .child hin hp hle ((ih c.1 (by omega)).1 hmem)
      · intro h
        cases h with
        | self => exact .inl rfl
        | @child _ _ at' c hc hp hle h =>
          have hlt : o < c.1 := (hg c hc).2 _ hp
          refine .inr ⟨c, List.mem_filter.2 ⟨hc, ?_⟩, (ih c.1 (by omega)).2 h⟩
          simp [hp, hle]
  exact hstep g.next o (by omega)

/-- A graph of branches with new ones added. -/
structure Extends (g g' : Dag) : Prop where
  next : g.next ≤ g'.next
  branches : ∃ new, g'.branches = g.branches ++ new ∧ ∀ c ∈ new, g.next ≤ c.1

theorem Extends.refl (g : Dag) : Extends g g := ⟨le_rfl, [], by simp, by simp⟩

theorem Extends.trans {g g' g'' : Dag} (h : Extends g g') (h' : Extends g' g'') : Extends g g'' := by
  obtain ⟨new, hb, hnew⟩ := h.branches
  obtain ⟨new', hb', hnew'⟩ := h'.branches
  refine ⟨h.next.trans h'.next, new ++ new', by rw [hb', hb, List.append_assoc], fun c hc => ?_⟩
  rcases List.mem_append.1 hc with hc | hc
  · exact hnew c hc
  · exact h.next.trans (hnew' c hc)

theorem Extends.mem_branches {g' : Dag} (h : Extends g g') {c : BranchId × Branch}
    (hc : c.1 < g.next) : c ∈ g'.branches ↔ c ∈ g.branches := by
  obtain ⟨new, hb, hnew⟩ := h.branches
  rw [hb, List.mem_append]
  exact or_iff_left fun hin => absurd (hnew c hin) (not_le.2 hc)

theorem Extends.parent {g' : Dag} (h : Extends g g') (hb : b < g.next) : g'.parent b = g.parent b := by
  obtain ⟨new, hbr, hnew⟩ := h.branches
  rw [Dag.parent, Dag.parent, get, get, hbr, lookup_append_right]
  exact fun c hc heq => absurd (hnew c hc) (not_le.2 (heq ▸ hb))

/-- A new branch, forked or merged from a known one, extends the graph. -/
theorem Numbered.add (hg : g.Numbered) {r : Branch} (hr : ∀ p ∈ r.parent, p.1 < g.next) :
    Numbered ⟨put g.next r g.branches, g.next + 1⟩ ∧
      Extends g ⟨put g.next r g.branches, g.next + 1⟩ := by
  have hput : put g.next r g.branches = g.branches ++ [(g.next, r)] :=
    put_last fun c hc => (hg c hc).1
  refine ⟨fun c hc => ?_, Nat.le_succ _, [(g.next, r)], hput, by simp⟩
  rw [hput] at hc
  rcases List.mem_append.1 hc with hc | hc
  · exact ⟨Nat.lt_succ_of_lt (hg c hc).1, (hg c hc).2⟩
  · obtain rfl := List.mem_singleton.1 hc
    exact ⟨Nat.lt_succ_self _, hr⟩

/-- **New branches inherit for nobody but themselves.** -/
theorem Extends.inherits {g' : Dag} (h : Extends g g') (hg : g.Numbered) (hg' : g'.Numbered)
    (hb : b < g.next) : Inherits g' e o b ↔ Inherits g e o b := by
  constructor
  · intro hi
    induction hi with
    | self => exact .self _
    | child hc hp hle hi ih =>
      have hlt := (hi.le hg').trans_lt hb
      exact .child ((h.mem_branches hlt).1 hc) hp hle (ih hb)
  · intro hi
    induction hi with
    | self => exact .self _
    | child hc hp hle hi ih =>
      have hlt := (hi.le hg).trans_lt hb
      exact .child ((h.mem_branches hlt).2 hc) hp hle (ih hb)

end Dag

/-- One version of a world. -/
structure Version where
  branch : BranchId
  rel : RelId
  edition : Nat
  deriving DecidableEq

section Backfollow

variable {F N : Type} [Parts N Dsp] [DecidableEq N] [ContentTree F N]

/-- The version a branch retains for a holder: the holder's own, or the checkpoint it
was folded into. -/
def retained (i : Inner F) (b : BranchId) (h : Holder) (r : N) : Option Version :=
  match i.roots h.rel with
  | none => none
  | some roots =>
      if (lookup h.edition roots.versions).isSome then some ⟨b, h.rel, h.edition⟩
      else if h.edition < i.watermark ∧
          (lookup i.watermark roots.versions).any fun t => ContentTree.root t = some r then
        some ⟨b, h.rel, i.watermark⟩
      else none

/-- The versions a holder stands for: its own, and the same one on every branch that
inherited it. -/
def versionsOf (g : Dag) (states : BranchId → Option (Inner F)) (h : Holder) (r : N) : List Version :=
  (g.inheritors h.edition g.next h.branch).filterMap fun b =>
    (states b).bind fun i => retained i b h r

/-- A version and a shift, in the order holdings are listed. -/
abbrev Place := BranchId ×ₗ RelId ×ₗ Nat ×ₗ Int

def Version.place (v : Version) (shift : Dsp) : Place :=
  toLex (v.branch, toLex (v.rel, toLex (v.edition, shift.toInt)))

/-- The branch of a place. -/
def Place.branch (p : Place) : BranchId := (ofLex p).1

/-- A set of places. -/
def placeSet (l : List Place) : List (Place × Unit) := l.foldl (fun s p => put p () s) []

/-- The versions holding a leaf, each with its shift. -/
def holdersOf (history : History N) (g : Dag) (states : BranchId → Option (Inner F)) (n : N)
    (at' : Dsp) : List (Place × Unit) :=
  placeSet ((climb history.parents history.holders (top history.holders) n).flatMap fun x =>
    (versionsOf g states x.1 x.2.2).map fun v => v.place (x.2.1 - at'))

omit [Parts N Dsp] [DecidableEq N] [ContentTree F N] in
/-- Rows counted in each of some places. -/
def countRows (found : List (Place × Nat)) (here : List (Place × Unit)) (rows : Nat) :
    List (Place × Nat) :=
  here.foldl (fun found x => put x.1 ((lookup x.1 found).getD 0 + rows) found) found

/-- Every version that holds some of a tree's rows in a range, by an index up to date:
at each shift, how many of those rows. -/
def backfollow (history : History N) (g : Dag) (states : BranchId → Option (Inner F)) (t : F)
    (lo hi : Tuple) : List (Place × Nat) :=
  (ContentTree.pieces t lo hi).foldl
    (fun found p => countRows found (holdersOf history g states p.1 p.2.1) p.2.2) []

/-! ## A branch's own holdings -/

/-- The holdings on one branch. -/
def onBranch (b : BranchId) (found : List (Place × Nat)) : List (Place × Nat) :=
  found.filter fun x => x.1.branch = b

theorem sorted_placeSet (l : List Place) : Sorted (placeSet l) := by
  unfold placeSet
  suffices ∀ s : List (Place × Unit), Sorted s → Sorted (l.foldl (fun s p => put p () s) s) from
    this [] .nil
  induction l with
  | nil => exact fun s hs => hs
  | cons p l ih => exact fun s hs => ih _ (sorted_put hs)

theorem mem_placeSet {l : List Place} {x : Place × Unit} : x ∈ placeSet l ↔ x.1 ∈ l := by
  unfold placeSet
  suffices ∀ s : List (Place × Unit), x ∈ l.foldl (fun s p => put p () s) s ↔ x.1 ∈ l ∨ x ∈ s by
    simpa using this []
  induction l with
  | nil => simp
  | cons p l ih =>
    intro s
    rw [List.foldl_cons, ih, List.mem_cons]
    constructor
    · rintro (h | h)
      · exact .inl (.inr h)
      · rcases mem_put h with rfl | h
        · exact .inl (.inl rfl)
        · exact .inr h
    · rintro ((h | h) | h)
      · subst h
        exact .inr (mem_of_lookup (lookup_put_self x.1 () s))
      · exact .inl h
      · by_cases hp : x.1 = p
        · subst hp
          exact .inr (mem_of_lookup (lookup_put_self x.1 () s))
        · exact .inr (mem_put_of_ne h hp)

theorem sorted_countRows {found : List (Place × Nat)} (hf : Sorted found) (rows : Nat) :
    ∀ here : List (Place × Unit), Sorted (countRows found here rows) := by
  intro here
  unfold countRows
  induction here generalizing found with
  | nil => exact hf
  | cons x here ih => exact ih (sorted_put hf)

/-- The holdings on a branch are counted from its own places alone. -/
theorem onBranch_countRows (b : BranchId) (rows : Nat) {found : List (Place × Nat)}
    (hf : Sorted found) (here : List (Place × Unit)) :
    onBranch b (countRows found here rows) =
      countRows (onBranch b found) (here.filter fun x => x.1.branch = b) rows := by
  unfold countRows
  induction here generalizing found with
  | nil => rfl
  | cons x here ih =>
    rw [List.foldl_cons, ih (sorted_put hf)]
    by_cases hx : x.1.branch = b
    · rw [List.filter_cons_of_pos (by simpa using hx), List.foldl_cons]
      have hkeep : onBranch b (put x.1 ((lookup x.1 found).getD 0 + rows) found) =
          put x.1 ((lookup x.1 (onBranch b found)).getD 0 + rows) (onBranch b found) := by
        unfold onBranch
        rw [filter_put_keep (by simpa using hx), lookup_filter_keep fun _ => by simpa using hx]
      rw [hkeep]
    · rw [List.filter_cons_of_neg (by simpa using hx)]
      have hskip : onBranch b (put x.1 ((lookup x.1 found).getD 0 + rows) found) = onBranch b found :=
        filter_put_skip hf fun _ => by simpa using hx
      rw [hskip]

variable {history history' : History N} {g g' : Dag} {states states' : BranchId → Option (Inner F)}
  {b : BranchId}

/-- What a backfollow finds on a branch depends on the places each leaf has there and
no other. -/
theorem onBranch_backfollow
    (h : ∀ n at' (p : Place), p.branch = b →
      ((p, ()) ∈ holdersOf history' g' states' n at' ↔ (p, ()) ∈ holdersOf history g states n at'))
    (t : F) (lo hi : Tuple) :
    onBranch b (backfollow history' g' states' t lo hi) =
      onBranch b (backfollow history g states t lo hi) := by
  have hhere : ∀ n at', (holdersOf history' g' states' n at').filter (fun x => x.1.branch = b) =
      (holdersOf history g states n at').filter fun x => x.1.branch = b := by
    intro n at'
    refine ((sorted_placeSet _).filter _).ext ((sorted_placeSet _).filter _) fun x => ?_
    rw [List.mem_filter, List.mem_filter]
    exact and_congr_left fun hx => h n at' x.1 (by simpa using hx)
  unfold backfollow
  suffices ∀ found found' : List (Place × Nat), Sorted found → Sorted found' →
      onBranch b found' = onBranch b found →
      onBranch b ((ContentTree.pieces t lo hi).foldl
        (fun found p => countRows found (holdersOf history' g' states' p.1 p.2.1) p.2.2) found') =
      onBranch b ((ContentTree.pieces t lo hi).foldl
        (fun found p => countRows found (holdersOf history g states p.1 p.2.1) p.2.2) found) from
    this [] [] .nil .nil rfl
  induction ContentTree.pieces t lo hi with
  | nil => exact fun _ _ _ _ heq => heq
  | cons p ps ih =>
    intro found found' hf hf' heq
    refine ih _ _ (sorted_countRows hf _ _) (sorted_countRows hf' _ _) ?_
    rw [onBranch_countRows b _ hf, onBranch_countRows b _ hf', heq, hhere]

theorem retained_branch {i : Inner F} {x : Holder} {r : N} {v : Version}
    (h : retained i b x r = some v) : v.branch = b := by
  unfold retained at h
  split at h
  · cases h
  · split_ifs at h <;> cases h <;> rfl

/-- The versions a holder stands for on one branch. -/
theorem mem_versionsOf {x : Holder} {r : N} {v : Version} :
    v ∈ versionsOf g states x r ∧ v.branch = b ↔ b ∈ g.inheritors x.edition g.next x.branch ∧
      ∃ i, states b = some i ∧ retained i b x r = some v := by
  unfold versionsOf
  rw [List.mem_filterMap]
  constructor
  · rintro ⟨⟨b', hb', hv⟩, rfl⟩
    obtain ⟨i, hi, hr⟩ := Option.bind_eq_some_iff.1 hv
    obtain rfl := retained_branch hr
    exact ⟨hb', i, hi, hr⟩
  · rintro ⟨hb, i, hi, hr⟩
    exact ⟨⟨b, hb, Option.bind_eq_some_iff.2 ⟨i, hi, hr⟩⟩, retained_branch hr⟩

/-- The places a sound index finds a leaf at. -/
theorem mem_holdersOf (hs : history.Sound) {n : N} {at' : Dsp} {p : Place} :
    (p, ()) ∈ holdersOf history g states n at' ↔ ∃ x off r, Within n off r ∧ (r, x) ∈ history.holders ∧
      ∃ v ∈ versionsOf g states x r, v.place (off - at') = p := by
  unfold holdersOf
  rw [mem_placeSet, List.mem_flatMap]
  constructor
  · rintro ⟨⟨x, off, r⟩, hx, hv⟩
    obtain ⟨hw, hh⟩ := (mem_climb hs.edges hs.recorded hs.held).1 hx
    exact ⟨x, off, r, hw, hh, List.mem_map.1 hv⟩
  · rintro ⟨x, off, r, hw, hh, hv⟩
    exact ⟨(x, off, r), (mem_climb hs.edges hs.recorded hs.held).2 ⟨hw, hh⟩, List.mem_map.2 hv⟩

/-- **Two sound indexes find the same on a branch** if they differ only in versions the
branch did not inherit. -/
theorem History.Sound.onBranch_backfollow (hs : history.Sound) (hs' : history'.Sound)
    (hstate : states' b = states b)
    (hinherit : ∀ e o, b ∈ g'.inheritors e g'.next o ↔ b ∈ g.inheritors e g.next o)
    (hholders : ∀ x r, b ∈ g.inheritors x.edition g.next x.branch →
      ((r, x) ∈ history'.holders ↔ (r, x) ∈ history.holders)) (t : F) (lo hi : Tuple) :
    onBranch b (backfollow history' g' states' t lo hi) =
      onBranch b (backfollow history g states t lo hi) := by
  refine Grmpl.onBranch_backfollow (fun n at' p hp => ?_) t lo hi
  have hown : ∀ (v : Version) (shift : Dsp), v.place shift = p → v.branch = b := by
    rintro v shift rfl
    exact hp
  rw [mem_holdersOf hs, mem_holdersOf hs']
  constructor
  · rintro ⟨x, off, r, hw, hh, v, hv, hplace⟩
    obtain ⟨hb, i, hi, hr⟩ := mem_versionsOf.1 ⟨hv, hown v _ hplace⟩
    rw [hinherit] at hb
    rw [hstate] at hi
    exact ⟨x, off, r, hw, (hholders x r hb).1 hh, v, (mem_versionsOf.2 ⟨hb, i, hi, hr⟩).1, hplace⟩
  · rintro ⟨x, off, r, hw, hh, v, hv, hplace⟩
    obtain ⟨hb, i, hi, hr⟩ := mem_versionsOf.1 ⟨hv, hown v _ hplace⟩
    have hh' := (hholders x r hb).2 hh
    rw [← hinherit] at hb
    rw [← hstate] at hi
    exact ⟨x, off, r, hw, hh', v, (mem_versionsOf.2 ⟨hb, i, hi, hr⟩).1, hplace⟩

end Backfollow

end Grmpl

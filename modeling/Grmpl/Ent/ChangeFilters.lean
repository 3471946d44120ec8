import Grmpl.Ent.CanopyRoutes
import Grmpl.Ent.FactRows
import Grmpl.Ent.StoreHistory

/-!
# The change filters

A watch asks whether anything may have changed before it reads. The relation-wide
answer measures the Edition log; the range answer measures what was routed to the
range's interest, and falls back on the log for editions before its registration.

The invariant that carries the range answer is about the log: every record after a
registration that touches the registered range was routed to it.

* `BranchAct`, `Branches.step`: what is done to a store's branches.
* `Hits`, `Heard`: the invariant.
* `Adds`: what every write path leaves in the logs.
* `change_filters_conservative`: the filters miss nothing.
-/

open OrdMap Runs

namespace Grmpl

/-- What a branch's state is promised of a Fact enfilade's range read: it keeps to
its range. -/
class RangeWithin (F : Type) [FactEnf F] : Prop where
  mem_rangeCollect : ∀ (root : F) (lo hi : Tuple), ∀ r ∈ FactEnf.rangeCollect root lo hi,
    lo ≤ r.1 ∧ r.1 < hi

instance FactRows.instRangeWithin : RangeWithin FactRows where
  mem_rangeCollect m lo hi r hr := by
    by_cases hlt : lo < hi
    · have hr' : r ∈ between lo hi m := by simpa [FactEnf.rangeCollect, hlt] using hr
      simpa using (List.mem_filter.1 hr').2
    · exact absurd hr (by simp [FactEnf.rangeCollect, hlt])

/-- One thing done to a store's branches, each named by its place among them. -/
inductive BranchAct where
  | commit (b : Nat) (pre : List (RelId × Tuple)) (updates : List (RelId × Tuple × Diff))
  | instantiate (b : Nat) (rels : List RelId) (blockLo blockHi : UInt64) (shift : Dsp)
  /-- A range filter asked, which registers the range. -/
  | ask (b : Nat) (start upTo : Nat) (rel : RelId) (lo hi : Tuple)
  | fork (b at' : Nat)
  /-- A merge that found the patches `todo` missing. -/
  | merge (b other : Nat) (todo : List Replay)
  /-- Another handle on a branch. -/
  | branch (b : Nat)
  | consolidate (b upTo : Nat)

/-- The states of a store's branches. -/
abbrev Branches (F : Type) := List (Inner F)

namespace Branches

variable {F : Type} [FactEnf F]

/-- What an action makes of the branches, if the code takes it. -/
def step (s : Branches F) : BranchAct → Option (Branches F)
  | .commit b pre updates => do
      let i ← s[b]?
      if pre.all fun p => i.holdsNow p.1 p.2 then
        some (s.set b (i.apply (i.current + 1) pre updates none))
      else some s
  | .instantiate b rels blockLo blockHi shift => do
      let i ← s[b]?
      match i.graft rels blockLo blockHi shift none with
      | .ok j => some (s.set b j)
      | .error _ => some s
  | .ask b start upTo rel lo hi => do
      let i ← s[b]?
      some (s.set b (i.touchedRangeSince start upTo rel lo hi).1)
  | .fork b at' => do
      let i ← s[b]?
      if at' < i.watermark then none else some (s ++ [i.forkAt at'])
  | .merge b other todo => do
      let i ← s[b]?
      let theirs ← s[other]?
      match i.merge theirs todo with
      | some m => some (s ++ [m])
      | none => some s
  | .branch b => do
      let i ← s[b]?
      some (s ++ [i])
  | .consolidate b upTo => do
      let i ← s[b]?
      some (s.set b (i.consolidate upTo))

/-- A store just made: one empty branch. -/
def new : Branches F := [Inner.empty]

end Branches

/-! ## The invariant -/

/-- Whether a log record touches the rows between two tuples. -/
def Hits (lo hi : Tuple) : LogEntry → Prop
  | .update tuple _ => lo ≤ tuple ∧ tuple < hi
  | .graft glo ghi => glo < ghi ∧ lo < ghi ∧ glo < hi

section Invariant

variable {F : Type}

/-- Every graft a log records has its Fact root. -/
def RelRoots.Rooted (r : RelRoots F) : Prop :=
  ∀ l ∈ r.log, ∀ lo hi, l.2 = .graft lo hi → (lookup (ofLex l.1).1 r.versions).isSome = true

/-- The id of a registered range. -/
def Inner.interestOf (i : Inner F) (rel : RelId) (lo hi : Tuple) : Option Nat :=
  lookup (toLex (rel, toLex (lo, hi))) i.interests

/-- The edition an interest was registered at. -/
def Inner.since (i : Inner F) (id : Nat) : Nat := (lookup id i.registered).getD 0

/-- The canopy holds every registered range, and every log record after a range's
registration that touches it was routed to it. -/
structure Heard (i : Inner F) : Prop where
  canopy : i.canopy.Wellformed
  held : ∀ rel lo hi id, i.interestOf rel lo hi = some id →
    (⟨rel, lo, id⟩, (hi, Endorsement.all)) ∈ i.canopy.interests
  fired : ∀ x ∈ i.rels, ∀ l ∈ x.2.log, ∀ lo hi id, i.interestOf x.1 lo hi = some id →
    i.since id < (ofLex l.1).1 → Hits lo hi l.2 → (toLex (id, (ofLex l.1).1), ()) ∈ i.fired
  rooted : ∀ x ∈ i.rels, x.2.Rooted
  past : ∀ x ∈ i.rels, ∀ l ∈ x.2.log, (ofLex l.1).1 ≤ i.current

theorem heard_empty : Heard (Inner.empty : Inner F) := by
  refine ⟨Canopy.wellformed_new, fun _ _ _ _ h => ?_, fun _ h => ?_, fun _ h => ?_, fun _ h => ?_⟩
  · cases h
  all_goals exact absurd h (by simp [Inner.empty])

/-- The logs of `j` are those of `i`, and at edition `e` records that meet `N`. -/
structure Adds (e : Nat) (N : RelId → LogEntry → Prop) (i j : Inner F) : Prop where
  log : ∀ x ∈ j.rels, ∀ l ∈ x.2.log,
    (∃ y ∈ i.rels, y.1 = x.1 ∧ l ∈ y.2.log) ∨ ((ofLex l.1).1 = e ∧ N x.1 l.2)
  rooted : (∀ x ∈ i.rels, x.2.Rooted) → ∀ x ∈ j.rels, x.2.Rooted

variable {e : Nat} {N N' : RelId → LogEntry → Prop} {i j k : Inner F}

theorem Adds.refl (e : Nat) (N : RelId → LogEntry → Prop) (i : Inner F) : Adds e N i i :=
  ⟨fun x hx _ hl => .inl ⟨x, hx, rfl, hl⟩, id⟩

theorem Adds.trans (h : Adds e N i j) (h' : Adds e N j k) : Adds e N i k := by
  refine ⟨fun x hx l hl => ?_, fun hi => h'.rooted (h.rooted hi)⟩
  rcases h'.log x hx l hl with ⟨y, hy, hyx, hly⟩ | hnew
  · rcases h.log y hy l hly with ⟨z, hz, hzy, hlz⟩ | ⟨he, hN⟩
    · exact .inl ⟨z, hz, hzy.trans hyx, hlz⟩
    · exact .inr ⟨he, hyx ▸ hN⟩
  · exact .inr hnew

/-- Writes that add only records of the next edition, and record what those hit,
keep the invariant. -/
theorem Heard.adds (h : Heard i) (ha : Adds e N i j) (hcanopy : j.canopy = i.canopy)
    (hint : j.interests = i.interests) (hreg : j.registered = i.registered)
    (hi : i.current ≤ e) (hj : j.current = e) (hfired : ∀ x ∈ i.fired, x ∈ j.fired)
    (hnew : ∀ rel l, N rel l → ∀ c ∈ i.canopy.interests, c.1.rel = rel → Hits c.1.lo c.2.1 l →
      (toLex (c.1.id, e), ()) ∈ j.fired) : Heard j := by
  have hof : ∀ rel lo hi, j.interestOf rel lo hi = i.interestOf rel lo hi := fun rel lo hi => by
    rw [Inner.interestOf, hint]
    rfl
  have hsince : ∀ id, j.since id = i.since id := fun id => by
    rw [Inner.since, hreg]
    rfl
  refine ⟨hcanopy ▸ h.canopy, fun rel lo hi id hid => ?_, fun x hx l hl lo hi id hid hs hh => ?_,
    ha.rooted h.rooted, fun x hx l hl => ?_⟩
  · rw [hcanopy]
    exact h.held rel lo hi id (hof rel lo hi ▸ hid)
  · rw [hof] at hid
    rw [hsince] at hs
    rcases ha.log x hx l hl with ⟨y, hy, hyx, hly⟩ | ⟨he, hN⟩
    · rw [← hyx] at hid
      exact hfired _ (h.fired y hy l hly lo hi id hid hs hh)
    · have hheld := h.held x.1 lo hi id hid
      rw [he]
      exact hnew x.1 l.2 hN _ hheld rfl hh
  · rw [hj]
    rcases ha.log x hx l hl with ⟨y, hy, -, hly⟩ | ⟨he, -⟩
    · exact (h.past y hy l hly).trans hi
    · exact he.le

/-! ## Writes -/

theorem RelRoots.Rooted.version {r : RelRoots F} (h : r.Rooted) (e : Nat) (root : F)
    (orders : List (Nat × F)) : RelRoots.Rooted ⟨put e root r.versions, r.log, orders⟩ := by
  intro l hl lo hi hg
  rw [lookup_put]
  split_ifs
  · rfl
  · exact h l hl lo hi hg

theorem rooted_rootsOr (h : ∀ x ∈ i.rels, x.2.Rooted) (rel : RelId) : (i.rootsOr rel).Rooted := by
  intro l hl
  obtain ⟨r, hr, hlr⟩ := Inner.mem_rootsOr hl
  rw [Inner.rootsOr, Inner.roots] at hl ⊢
  cases hlook : lookup rel i.rels with
  | none =>
    rw [hlook] at hl
    exact absurd hl (by simp [RelRoots.empty])
  | some r' =>
    rw [hlook] at hl
    exact h _ (mem_of_lookup hlook) l hl

/-- New roots for one relation. -/
theorem adds_put {rel : RelId} {r : RelRoots F}
    (hlog : ∀ l ∈ r.log, l ∈ (i.rootsOr rel).log ∨ ((ofLex l.1).1 = e ∧ N rel l.2))
    (hrooted : (i.rootsOr rel).Rooted → r.Rooted) : Adds e N i (i.put rel r) := by
  refine ⟨fun x hx l hl => ?_, fun hi x hx => ?_⟩
  · rcases mem_put hx with rfl | hx
    · refine (hlog l hl).imp (fun hold => ?_) id
      obtain ⟨s, hs, hls⟩ := Inner.mem_rootsOr hold
      exact ⟨_, hs, rfl, hls⟩
    · exact .inl ⟨x, hx, rfl, hl⟩
  · rcases mem_put hx with rfl | hx
    · exact hrooted (rooted_rootsOr hi rel)
    · exact hi x hx

theorem mem_fire (i : Inner F) (e : Nat) (ids : List Nat) : ∀ x,
    x ∈ i.fired ∨ (∃ id ∈ ids, x = (toLex (id, e), ())) → x ∈ (i.fire e ids).fired := by
  -- a binding of an id only ever adds its pair, the values being all alike
  have hput : ∀ (k : Nat ×ₗ Nat) (f : List ((Nat ×ₗ Nat) × Unit)), ∀ x, x ∈ f ∨ x = (k, ()) →
      x ∈ put k () f := by
    rintro k f ⟨k', ⟨⟩⟩ hx
    by_cases hk : k' = k
    · subst hk
      exact mem_of_lookup (lookup_put_self k' () f)
    · rcases hx with hx | hx
      · simp only [put, List.mem_append, List.mem_cons, List.mem_filter]
        rcases lt_or_gt_of_ne hk with hlt | hlt
        · exact .inl ⟨hx, by simpa using hlt⟩
        · exact .inr (.inr ⟨hx, by simpa using hlt⟩)
      · exact absurd (Prod.mk.inj hx).1 hk
  show ∀ x, _ → x ∈ ids.foldl (fun f id => put (toLex (id, e)) () f) i.fired
  generalize i.fired = f
  induction ids generalizing f with
  | nil => simp
  | cons a ids ih =>
    intro x hx
    refine ih _ x ?_
    rcases hx with hx | ⟨id, hid, rfl⟩
    · exact .inl (hput _ f x (.inl hx))
    · rcases List.mem_cons.1 hid with rfl | hid
      · exact .inl (hput _ f _ (.inr rfl))
      · exact .inr ⟨id, hid, rfl⟩

/-- An empty canopy holds no interest. -/
theorem interests_of_isEmpty {c : Canopy} (h : c.isEmpty = true) : c.interests = [] := by
  obtain ⟨next, enf⟩ := c
  cases enf with
  | nil => rfl
  | _ => cases h

/-! ## A commit -/

/-- The records a patch leaves. -/
def Updates (updates : List (RelId × Tuple × Diff)) (rel : RelId) (l : LogEntry) : Prop :=
  ∃ u ∈ updates, u.1 = rel ∧ l = .update u.2.1 u.2.2

variable [FactEnf F]

theorem adds_applyOne {updates : List (RelId × Tuple × Diff)} {u : (RelId × Tuple × Diff) × Nat}
    (hu : u.1 ∈ updates) : Adds e (Updates updates) i (Inner.applyOne e i u) := by
  have hlogged : Adds e (Updates updates) i (i.put u.1.1 { i.rootsOr u.1.1 with
      log := put (toLex (e, u.2)) (.update u.1.2.1 u.1.2.2) (i.rootsOr u.1.1).log }) := by
    refine adds_put (fun l hl => ?_) fun hr l hl lo hi hg => ?_
    · rcases mem_put hl with rfl | hl
      · exact .inr ⟨rfl, u.1, hu, rfl, rfl⟩
      · exact .inl hl
    · rcases mem_put hl with rfl | hl
      · cases hg
      · exact hr l hl lo hi hg
  refine hlogged.trans ?_
  exact adds_put (fun l hl => .inl hl) fun hr => hr.version e _ _

theorem adds_foldl_applyOne {updates : List (RelId × Tuple × Diff)} :
    ∀ {us : List ((RelId × Tuple × Diff) × Nat)} {i : Inner F}, (∀ u ∈ us, u.1 ∈ updates) →
      Adds e (Updates updates) i (us.foldl (Inner.applyOne e) i) := by
  intro us
  induction us with
  | nil => exact fun _ => .refl _ _ _
  | cons u us ih =>
    exact fun hus => (adds_applyOne (hus u (by simp))).trans (ih fun v hv => hus v (by simp [hv]))

/-- Folding updates in touches no interest. -/
theorem foldl_applyOne_frame : ∀ (us : List ((RelId × Tuple × Diff) × Nat)) (i : Inner F),
    let j := us.foldl (Inner.applyOne e) i
    j.canopy = i.canopy ∧ j.interests = i.interests ∧ j.registered = i.registered ∧
      j.fired = i.fired := by
  intro us
  induction us with
  | nil => exact fun i => ⟨rfl, rfl, rfl, rfl⟩
  | cons u us ih => exact fun i => ih (Inner.applyOne e i u)

/-- **A commit is routed to every interest it touches.** -/
theorem Heard.apply (h : Heard i) (pre : List (RelId × Tuple))
    (updates : List (RelId × Tuple × Diff)) (origin : Origin) :
    Heard (i.apply (i.current + 1) pre updates origin) := by
  let rels := ((updates.map Prod.fst).mergeSort (· ≤ ·)).dedup
  let noted : Inner F :=
    { i with patches := put (i.current + 1) (.commit pre rels origin) i.patches }
  let k : Inner F := updates.zipIdx.foldl (Inner.applyOne (i.current + 1)) noted
  have hfold : k.canopy = noted.canopy ∧ k.interests = noted.interests ∧
      k.registered = noted.registered ∧ k.fired = noted.fired := foldl_applyOne_frame _ noted
  obtain ⟨hcanopy, hint, hreg, hfired⟩ := hfold
  have hadds : Adds (i.current + 1) (Updates updates) noted k :=
    adds_foldl_applyOne fun u hu => List.fst_mem_of_mem_zipIdx hu
  have hrels : (k.route (i.current + 1) updates).rels = k.rels := (Inner.route_rels k _ updates).1
  have hframe : (k.route (i.current + 1) updates).canopy = i.canopy ∧
      (k.route (i.current + 1) updates).interests = i.interests ∧
      (k.route (i.current + 1) updates).registered = i.registered := by
    unfold Inner.route
    split_ifs <;> exact ⟨hcanopy, hint, hreg⟩
  have hroute : ∀ x, x ∈ i.fired ∨ (∃ id ∈ i.canopy.route updates, x = (toLex (id, i.current + 1), ())) →
      x ∈ (k.route (i.current + 1) updates).fired := by
    intro x hx
    rw [← hfired, ← hcanopy] at hx
    unfold Inner.route
    split_ifs with hempty
    · rcases hx with hx | ⟨id, hid, -⟩
      · exact hx
      · obtain ⟨u, -, c, hc, -⟩ := (Canopy.mem_route (hcanopy ▸ h.canopy)).1 hid
        rw [interests_of_isEmpty hempty] at hc
        exact absurd hc (by simp)
    · exact mem_fire k _ _ x hx
  refine h.adds (N := Updates updates) ⟨fun x hx => ?_, fun hi x hx => ?_⟩ hframe.1 hframe.2.1
    hframe.2.2 (Nat.le_succ _) rfl (fun x hx => hroute x (.inl hx)) ?_
  · exact hadds.log x (hrels ▸ hx)
  · exact hadds.rooted hi x (hrels ▸ hx)
  · rintro rel l ⟨u, hu, rfl, rfl⟩ c hc hrel hhits
    exact hroute _ (.inr ⟨c.1.id, (Canopy.mem_route h.canopy).2 ⟨u, hu, c, hc, hrel, hhits, rfl⟩, rfl⟩)

/-! ## A graft -/

omit [FactEnf F] in
/-- One relation's graft, at an edition no log has passed. -/
theorem Heard.applyGraft {lo hi : Tuple} {g : RelId × F} (h : Heard { i with current := e }) :
    Heard { Inner.applyGraft e lo hi i g with current := e } := by
  let k : Inner F := i.put g.1 ⟨put e g.2 (i.rootsOr g.1).versions,
    put (toLex (e, 0)) (.graft lo hi) (i.rootsOr g.1).log, []⟩
  have hadds : Adds e (fun rel l => rel = g.1 ∧ l = .graft lo hi) i k := by
    refine adds_put (fun l hl => ?_) fun hr l hl lo' hi' hg => ?_
    · rcases mem_put hl with rfl | hl
      · exact .inr ⟨rfl, rfl, rfl⟩
      · exact .inl hl
    · rcases mem_put hl with rfl | hl
      · show (lookup e (put e g.2 _)).isSome = true
        rw [lookup_put_self]
        rfl
      · exact (hr.version e g.2 []) l hl lo' hi' hg
  have happly : Inner.applyGraft e lo hi i g
      = if k.canopy.isEmpty then k else k.fire e (k.canopy.routeSpan g.1 lo hi) := rfl
  have hframe : (Inner.applyGraft e lo hi i g).rels = k.rels ∧
      (Inner.applyGraft e lo hi i g).canopy = i.canopy ∧
      (Inner.applyGraft e lo hi i g).interests = i.interests ∧
      (Inner.applyGraft e lo hi i g).registered = i.registered := by
    rw [happly]
    split_ifs <;> exact ⟨rfl, rfl, rfl, rfl⟩
  have hroute : ∀ x, x ∈ i.fired ∨ (∃ id ∈ i.canopy.routeSpan g.1 lo hi, x = (toLex (id, e), ())) →
      x ∈ (Inner.applyGraft e lo hi i g).fired := by
    intro x hx
    rw [happly]
    split_ifs with hempty
    · rcases hx with hx | ⟨id, hid, -⟩
      · exact hx
      · obtain ⟨-, c, hc, -⟩ := (Canopy.mem_routeSpan h.canopy).1 hid
        rw [interests_of_isEmpty (show i.canopy.isEmpty = true from hempty)] at hc
        exact absurd hc (by simp)
    · exact mem_fire k _ _ x hx
  refine h.adds (N := fun rel l => rel = g.1 ∧ l = .graft lo hi) ⟨fun x hx => ?_, fun hr x hx => ?_⟩
    hframe.2.1 hframe.2.2.1 hframe.2.2.2 le_rfl rfl (fun x hx => hroute x (.inl hx)) ?_
  · exact hadds.log x (hframe.1 ▸ hx)
  · exact hadds.rooted hr x (hframe.1 ▸ hx)
  · rintro rel l ⟨rfl, rfl⟩ c hc hrel ⟨hlt, hlo, hhi⟩
    exact hroute _ (.inr ⟨c.1.id, (Canopy.mem_routeSpan h.canopy).2 ⟨hlt, c, hc, hrel, ⟨hlo, hhi⟩, rfl⟩, rfl⟩)

omit [FactEnf F] in
/-- Nothing of the invariant minds a later edition. -/
theorem Heard.later (h : Heard i) (hcur : i.current ≤ e) : Heard { i with current := e } :=
  ⟨h.canopy, h.held, h.fired, h.rooted, fun x hx l hl => (h.past x hx l hl).trans hcur⟩

/-- **A graft is routed to every interest its span overlaps.** -/
theorem Heard.graft {rels : List RelId} {lo hi : UInt64} {shift : Dsp} {origin : Origin}
    (h : Heard i) (hg : i.graft rels lo hi shift origin = .ok j) : Heard j := by
  obtain ⟨grafts, -, hg⟩ := bind_ok hg
  cases hg
  have hfold : ∀ (gs : List (RelId × F)) (k : Inner F), Heard { k with current := i.current + 1 } →
      Heard { gs.foldl (Inner.applyGraft (i.current + 1) (displace (Inner.entKey lo) shift)
        (displace (Inner.entKey hi) shift)) k with current := i.current + 1 } := by
    intro gs
    induction gs with
    | nil => exact fun k hk => hk
    | cons g gs ih => exact fun k hk => ih _ hk.applyGraft
  have hall := hfold grafts i (h.later (Nat.le_succ _))
  exact ⟨hall.canopy, hall.held, hall.fired, hall.rooted, hall.past⟩

/-! ## Merges, forks and consolidation -/

omit [FactEnf F] in
/-- With no interests there is nothing to route to. -/
theorem routed_of_new (hc : i.canopy = Canopy.new) (hint : i.interests = [])
    (hrooted : ∀ x ∈ i.rels, x.2.Rooted)
    (hpast : ∀ x ∈ i.rels, ∀ l ∈ x.2.log, (ofLex l.1).1 ≤ i.current) : Heard i := by
  have hnone : ∀ rel lo hi, i.interestOf rel lo hi = none := fun rel lo hi => by
    rw [Inner.interestOf, hint]
    rfl
  refine ⟨hc ▸ Canopy.wellformed_new, fun rel lo hi id hid => ?_,
    fun x _ l _ lo hi id hid => ?_, hrooted, hpast⟩ <;>
    exact absurd ((hnone _ lo hi).symm.trans hid) (by simp)

theorem Heard.merge {theirs : Inner F} {todo : List Replay} (h : Heard i)
    (hm : i.merge theirs todo = some j) : Heard j := by
  have hfresh : Heard { i with canopy := Canopy.new, fired := [], interests := [], registered := [] } :=
    routed_of_new rfl rfl h.rooted h.past
  exact Inner.merge_keeps (fun _ _ h => ⟨h.canopy, h.held, h.fired, h.rooted, h.past⟩)
    (fun _ _ _ _ h => h.apply _ _ _) (fun _ _ _ _ _ _ _ h hg => h.graft hg) hfresh hm

omit [FactEnf F] in
theorem Heard.forkAt (h : Heard i) (at' : Nat) : Heard (i.forkAt at') := by
  by_cases hc : at' = i.current
  · refine routed_of_new rfl rfl ?_ ?_
    · rw [Inner.forkAt, if_pos hc]
      exact h.rooted
    · rw [Inner.forkAt, if_pos hc]
      exact hc ▸ h.past
  · have hkept : ∀ x ∈ (i.forkAt at').rels, ∃ y ∈ i.rels,
        x.2.versions = (y.2.versions.filter fun v => v.1 ≤ at') ∧
          x.2.log = y.2.log.filter fun l => (ofLex l.1).1 ≤ at' := by
      intro x hx
      rw [Inner.forkAt, if_neg hc] at hx
      obtain ⟨y, hy, hyx⟩ := List.mem_filterMap.1 hx
      simp only at hyx
      split_ifs at hyx
      cases hyx
      exact ⟨y, hy, rfl, rfl⟩
    refine routed_of_new rfl rfl (fun x hx l hl lo hi hg => ?_) fun x hx l hl => ?_
    · obtain ⟨y, hy, hv, hlog⟩ := hkept x hx
      rw [hlog, List.mem_filter] at hl
      rw [hv, lookup_filter_keep fun _ => hl.2]
      exact h.rooted y hy l hl.1 lo hi hg
    · obtain ⟨y, -, -, hlog⟩ := hkept x hx
      rw [hlog, List.mem_filter] at hl
      exact of_decide_eq_true hl.2

omit [FactEnf F] in
theorem Heard.consolidate (h : Heard i) (upTo : Nat) : Heard (i.consolidate upTo) := by
  unfold Inner.consolidate
  dsimp only
  split_ifs with hwm
  · exact h
  · generalize min upTo i.current = wm
    refine ⟨h.canopy, h.held, fun x hx l hl lo hi id hid hs hh => ?_, fun x hx l hl lo hi hg => ?_,
      fun x hx l hl => ?_⟩ <;>
      obtain ⟨y, hy, rfl⟩ := List.mem_map.1 hx <;> obtain ⟨hl, hlt⟩ := List.mem_filter.1 hl
    · exact h.fired y hy l hl lo hi id hid hs hh
    · -- a graft past the watermark keeps its root
      have hlt' : wm < (ofLex l.1).1 := of_decide_eq_true hlt
      have hkept : lookup (ofLex l.1).1 (y.2.versions.filter fun v => wm < v.1)
          = lookup (ofLex l.1).1 y.2.versions := lookup_filter_keep fun _ => by simpa using hlt'
      have hroot := h.rooted y hy l hl lo hi hg
      dsimp only
      split
      · rw [lookup_put_ne hlt'.ne', hkept]
        exact hroot
      · rw [hkept]
        exact hroot
    · exact h.past y hy l hl

omit [FactEnf F] in
/-- **A registration answers for what comes after it.** -/
theorem Heard.interest (h : Heard i) (rel : RelId) (lo hi : Tuple) :
    Heard (i.interest rel lo hi).1 := by
  unfold Inner.interest
  dsimp only
  split
  · exact h
  · let c := i.canopy
    have hkeeps : ∀ x ∈ c.interests, x ∈ (c.register rel lo hi).1.interests := by
      intro x hx
      rw [Canopy.register, Canopy.rows_registerEndorsed h.canopy]
      exact mem_put_of_ne hx fun hkey => (h.canopy.given x hx).ne (congrArg InterestKey.id hkey)
    have hgiven : ∀ rel' lo' hi' id, i.interestOf rel' lo' hi' = some id → id ≠ c.next := by
      intro rel' lo' hi' id hid
      exact (h.canopy.given _ (h.held rel' lo' hi' id hid)).ne
    -- an interest of the new state is the new one, or one of before
    have hcases : ∀ rel' lo' hi' id,
        lookup (toLex (rel', toLex (lo', hi'))) (put (toLex (rel, toLex (lo, hi))) c.next i.interests)
          = some id → (rel' = rel ∧ lo' = lo ∧ hi' = hi ∧ id = c.next) ∨
            i.interestOf rel' lo' hi' = some id := by
      intro rel' lo' hi' id hid
      rw [lookup_put] at hid
      split_ifs at hid with hkey
      · have h1 := Prod.mk.inj (toLex.injective hkey)
        have h2 := Prod.mk.inj (toLex.injective h1.2)
        exact .inl ⟨h1.1, h2.1, h2.2, (Option.some.inj hid).symm⟩
      · exact .inr hid
    refine ⟨h.canopy.register rel lo hi Endorsement.all, fun rel' lo' hi' id hid => ?_,
      fun x hx l hl lo' hi' id hid hs hh => ?_, h.rooted, h.past⟩
    · rcases hcases rel' lo' hi' id hid with ⟨rfl, rfl, rfl, rfl⟩ | hold
      · show _ ∈ (c.register rel' lo' hi').1.interests
        rw [Canopy.register, Canopy.rows_registerEndorsed h.canopy]
        exact mem_of_lookup (lookup_put_self _ _ _)
      · exact hkeeps _ (h.held rel' lo' hi' id hold)
    · have hs' : (lookup id (put c.next i.current i.registered)).getD 0 < (ofLex l.1).1 := hs
      rcases hcases x.1 lo' hi' id hid with ⟨-, -, -, rfl⟩ | hold
      · rw [lookup_put_self] at hs'
        exact absurd (h.past x hx l hl) (not_le.2 hs')
      · rw [lookup_put_ne (hgiven _ _ _ _ hold)] at hs'
        exact h.fired x hx l hl lo' hi' id hold hs' hh

omit [FactEnf F] in
theorem Heard.touchedRangeSince (h : Heard i) (start upTo : Nat) (rel : RelId) (lo hi : Tuple) :
    Heard (i.touchedRangeSince start upTo rel lo hi).1 := by
  have hask := h.interest rel lo hi
  unfold Inner.touchedRangeSince
  dsimp only
  split_ifs <;> assumption

/-! ## Runs -/

theorem heard_step {s s' : Branches F} {a : BranchAct} (h : ∀ i ∈ s, Heard i)
    (hst : s.step a = some s') : ∀ i ∈ s', Heard i := by
  have hset : ∀ {b : Nat} {j : Inner F}, Heard j → ∀ k ∈ s.set b j, Heard k := by
    intro b j hj k hk
    rcases List.mem_or_eq_of_mem_set hk with hk | rfl
    · exact h k hk
    · exact hj
  have hsnoc : ∀ {j : Inner F}, Heard j → ∀ k ∈ s ++ [j], Heard k := by
    intro j hj k hk
    rcases List.mem_append.1 hk with hk | hk
    · exact h k hk
    · rwa [List.mem_singleton.1 hk]
  cases a with
  | commit b pre updates =>
    obtain ⟨i, hb, hst⟩ := Option.bind_eq_some_iff.1 hst
    have hi := h i (List.mem_of_getElem? hb)
    split_ifs at hst <;> cases hst
    · exact hset (hi.apply _ _ _)
    · exact h
  | instantiate b rels lo hi shift =>
    obtain ⟨i, hb, hst⟩ := Option.bind_eq_some_iff.1 hst
    have hi := h i (List.mem_of_getElem? hb)
    split at hst <;> cases hst
    · exact hset (hi.graft (by assumption))
    · exact h
  | ask b start upTo rel lo hi =>
    obtain ⟨i, hb, hst⟩ := Option.bind_eq_some_iff.1 hst
    have hi := h i (List.mem_of_getElem? hb)
    cases hst
    exact hset (hi.touchedRangeSince _ _ _ _ _)
  | fork b at' =>
    obtain ⟨i, hb, hst⟩ := Option.bind_eq_some_iff.1 hst
    have hi := h i (List.mem_of_getElem? hb)
    split_ifs at hst
    cases hst
    exact hsnoc (hi.forkAt _)
  | merge b other todo =>
    obtain ⟨i, hb, hst⟩ := Option.bind_eq_some_iff.1 hst
    obtain ⟨j, -, hst⟩ := Option.bind_eq_some_iff.1 hst
    have hi := h i (List.mem_of_getElem? hb)
    split at hst <;> cases hst
    · exact hsnoc (hi.merge (by assumption))
    · exact h
  | branch b =>
    obtain ⟨i, hb, hst⟩ := Option.bind_eq_some_iff.1 hst
    cases hst
    exact hsnoc (h i (List.mem_of_getElem? hb))
  | consolidate b upTo =>
    obtain ⟨i, hb, hst⟩ := Option.bind_eq_some_iff.1 hst
    cases hst
    exact hset ((h i (List.mem_of_getElem? hb)).consolidate _)

theorem heard_run {s : Branches F} (h : Run Branches.step Any Branches.new s) : ∀ i ∈ s, Heard i := by
  refine h.invariant (fun i hi => ?_) fun _ _ _ hs _ hst => heard_step hs hst
  rw [List.mem_singleton.1 hi]
  exact heard_empty

/-! ## The answers -/

/-- A log record expands to updates that it says touch their rows. -/
theorem RelRoots.Rooted.expand [RangeWithin F] {r : RelRoots F} (hr : r.Rooted)
    {l : LogKey × LogEntry} (hl : l ∈ r.log) : ∃ us, Inner.expand r.versions l = .ok us ∧
      ∀ u ∈ us, ∀ lo hi, lo ≤ u.tuple → u.tuple < hi → Hits lo hi l.2 := by
  unfold Inner.expand
  split
  · rename_i tuple diff hupd
    refine ⟨_, rfl, fun u hu lo hi hlo hhi => ?_⟩
    obtain rfl := List.mem_singleton.1 hu
    rw [hupd]
    exact ⟨hlo, hhi⟩
  · rename_i glo ghi hg
    obtain ⟨root, hroot⟩ := Option.isSome_iff_exists.1 (hr l hl glo ghi hg)
    simp only [hroot]
    refine ⟨_, rfl, fun u hu lo hi hlo hhi => ?_⟩
    obtain ⟨row, hrow, rfl⟩ := List.mem_map.1 hu
    obtain ⟨h1, h2⟩ := RangeWithin.mem_rangeCollect _ _ _ row hrow
    rw [hg]
    exact ⟨h1.trans_lt h2, hlo.trans_lt h2, h1.trans_lt hhi⟩

/-- A scan above the watermark lists what its log records say, no more. -/
theorem Heard.scan [RangeWithin F] (h : Heard i) {start upTo : Nat} (hw : ¬ start < i.watermark)
    (rel : RelId) : ∃ us, i.scanUpdates rel start upTo = .ok us ∧ ∀ u ∈ us,
      ∃ l ∈ Inner.logBetween start upTo (i.rootsOr rel).log, ∀ lo hi, lo ≤ u.tuple → u.tuple < hi →
        Hits lo hi l.2 := by
  have hexpand : ∀ l ∈ Inner.logBetween start upTo (i.rootsOr rel).log, _ := fun l hl =>
    (rooted_rootsOr h.rooted rel).expand (List.mem_filter.1 hl).1
  let expanded : LogKey × LogEntry → List Update := fun l =>
    ((Inner.expand (i.rootsOr rel).versions l).toOption).getD []
  have hok : ∀ l ∈ Inner.logBetween start upTo (i.rootsOr rel).log,
      Inner.expand (i.rootsOr rel).versions l = .ok (expanded l) := by
    intro l hl
    obtain ⟨us, hus, -⟩ := hexpand l hl
    simp only [expanded, hus]
    rfl
  refine ⟨((Inner.logBetween start upTo (i.rootsOr rel).log).map expanded).flatten, ?_, fun u hu => ?_⟩
  · rw [Inner.scanUpdates_eq, if_neg hw, mapM_ok hok]
    rfl
  · obtain ⟨us, hus, hu⟩ := List.mem_flatten.1 hu
    obtain ⟨l, hl, rfl⟩ := List.mem_map.1 hus
    obtain ⟨us, hus, hhits⟩ := hexpand l hl
    obtain rfl := Except.ok.inj ((hok l hl).symm.trans hus)
    exact ⟨l, hl, hhits u hu⟩

omit [FactEnf F] in
/-- What a registration leaves: the same logs, and the same state if there was one
before. -/
theorem interest_spec (i : Inner F) (rel : RelId) (lo hi : Tuple) : ∃ k id fresh,
    i.interest rel lo hi = (k, id, fresh) ∧
      (∀ start upTo rels, k.touchedSince start upTo rels = i.touchedSince start upTo rels) ∧
      (fresh = false → k = i ∧ i.interestOf rel lo hi = some id) := by
  unfold Inner.interest
  dsimp only
  split
  · rename_i id hid
    exact ⟨i, id, false, rfl, fun _ _ _ => rfl, fun _ => ⟨rfl, hid⟩⟩
  · exact ⟨_, _, true, rfl, fun _ _ _ => rfl, fun h => absurd h (by simp)⟩

/-- **Where nothing was logged a scan lists nothing.** -/
theorem scan_of_untouched {start upTo : Nat} {rels : List RelId}
    (ht : i.touchedSince start upTo rels = false) : ∀ rel ∈ rels, i.scanUpdates rel start upTo = .ok [] := by
  intro rel hrel
  unfold Inner.touchedSince at ht
  split_ifs at ht with hw
  rw [Inner.scanUpdates, if_neg hw]
  have hnone := List.any_eq_false.1 ht rel hrel
  cases hr : i.roots rel with
  | none => rfl
  | some r =>
    rw [hr] at hnone
    have hlen : Inner.logBetween start upTo r.log = [] := by simpa using hnone
    simp only [hlen]
    rfl

/-- **The change filters are conservative.** Whatever was done to a store's branches
in whatever order, a relation the relation-wide filter calls untouched has no update
in the interval, and one the range filter calls untouched has none in the range. -/
theorem change_filters_conservative [RangeWithin F] {s : Branches F}
    (h : Run Branches.step Any Branches.new s) {i : Inner F} (hmem : i ∈ s) (start upTo : Nat) :
    (∀ rels, i.touchedSince start upTo rels = false →
      ∀ rel ∈ rels, i.scanUpdates rel start upTo = .ok []) ∧
    (∀ rel lo hi, (i.touchedRangeSince start upTo rel lo hi).2 = false →
      ∃ us, i.scanUpdates rel start upTo = .ok us ∧ ∀ u ∈ us, ¬ (lo ≤ u.tuple ∧ u.tuple < hi)) := by
  refine ⟨fun rels ht => scan_of_untouched ht, fun rel lo hi ht => ?_⟩
  have hr := heard_run h i hmem
  have hw : ¬ start < i.watermark := fun hw => by simp [Inner.touchedRangeSince, hw] at ht
  obtain ⟨us, hus, hlog⟩ := hr.scan hw rel
  refine ⟨us, hus, fun u hu hin => ?_⟩
  obtain ⟨l, hl, hhits⟩ := hlog u hu
  have hhit := hhits lo hi hin.1 hin.2
  obtain ⟨hstart, hup⟩ := Inner.edition_le_of_mem hl
  obtain ⟨k, id, fresh, hask, htouched, hold⟩ := interest_spec i rel lo hi
  unfold Inner.touchedRangeSince at ht
  rw [if_neg hw, hask] at ht
  simp only at ht
  split_ifs at ht with hempty hfall
  · omega
  · -- the interval predates the interest: the log itself says no
    rw [htouched] at ht
    rw [scan_of_untouched ht rel (List.mem_singleton_self rel)] at hus
    rw [← Except.ok.inj hus] at hu
    exact absurd hu (by simp)
  · -- what touched the range was routed to its interest
    simp only [Bool.or_eq_true, decide_eq_true_eq, not_or, Bool.not_eq_true, not_lt] at hfall
    obtain ⟨hk, hid⟩ := hold hfall.1
    rw [hk] at ht hfall
    obtain ⟨r, hrel, hlr⟩ := Inner.mem_rootsOr (List.mem_filter.1 hl).1
    have hfired := hr.fired _ hrel l hlr lo hi id hid (hfall.2.trans_lt hstart) hhit
    have hbetween : (toLex (id, (ofLex l.1).1), ()) ∈
        between (toLex (id, start + 1)) (toLex (id, upTo + 1)) i.fired := by
      refine List.mem_filter.2 ⟨hfired, ?_⟩
      simp only [decide_eq_true_eq, Prod.Lex.toLex_le_toLex, Prod.Lex.toLex_lt_toLex]
      exact ⟨.inr ⟨trivial, hstart⟩, .inr ⟨trivial, Nat.lt_succ_of_le hup⟩⟩
    have hpos := List.length_pos_of_mem hbetween
    exact absurd hpos (by simpa using ht)

end Invariant

/-- A range registered, a row put in it, one past it, and a copy of the range made. -/
def watchedRange : List BranchAct :=
  [.ask 0 0 0 1 (Inner.entKey 10) (Inner.entKey 20), .commit 0 [] [(1, Inner.entKey 15, 1)],
    .commit 0 [] [(1, Inner.entKey 30, 1)], .instantiate 0 [1] 10 20 100, .fork 0 2, .consolidate 0 1]

theorem change_filters_conservative_sample : ∃ (s : Branches FactRows) (i : Inner FactRows),
    Run Branches.step Any Branches.new s ∧ i ∈ s ∧ i.touchedSince 1 3 [1] = true ∧
      ∃ us, i.scanUpdates 1 1 3 = .ok us ∧
        ∀ u ∈ us, ¬ (Inner.entKey 10 ≤ u.tuple ∧ u.tuple < Inner.entKey 20) := by
  have hex : (execute Branches.step (Branches.new : Branches FactRows) watchedRange).isSome = true := by
    decide +kernel
  have hrun : Run Branches.step Any Branches.new _ := .after hex
  have hquiet : ∃ i ∈ after Branches.step (Branches.new : Branches FactRows) watchedRange,
      i.touchedSince 1 3 [1] = true ∧
        (i.touchedRangeSince 1 3 1 (Inner.entKey 10) (Inner.entKey 20)).2 = false := by
    decide +kernel
  obtain ⟨i, hi, htouched, hasked⟩ := hquiet
  exact ⟨_, i, hrun, hi, htouched, (change_filters_conservative hrun hi 1 3).2 _ _ _ hasked⟩

end Grmpl

import Grmpl.Ent.TreeGraft

/-!
# Runs of a pool of versions

Trees are persistent: every operation reads versions obtained earlier and adds
new ones. A run is a list of operations on a pool that starts with the empty
tree; beside it runs the same list on plain sorted maps.

* `TreeOp`, `runTrees`, `runMaps`: the two runs.
* `LegalRun`: joins come in order and displacements keep the order of what they
  move, as `Tree.join` and `Displace` ask.
* `versions_denote`: every version denotes its plain map and is well formed.
* `versions_read`: every read of every version agrees with its plain map.
-/

open OrdMap

namespace Grmpl

open Grmpl.Tree

/-! ## Plain maps as slots -/

section Maps

variable {K V : Type}

/-- A plain map's rows as slots. -/
def asSlots (m : List (K × V)) : List (K × Option V) := m.map fun e => (e.1, some e.2)

theorem asSlots_filter (q : K → Bool) (m : List (K × V)) :
    (asSlots m).filter (fun e => q e.1) = asSlots (m.filter fun e => q e.1) := by
  rw [asSlots, List.filter_map]
  rfl

theorem rowsOf_asSlots (m : List (K × V)) : Leaf.rowsOf (asSlots m) = m := by
  induction m with
  | nil => rfl
  | cons e m ih =>
    simp only [asSlots, List.map_cons, Leaf.rowsOf, List.filterMap_cons, Option.map_some] at ih ⊢
    rw [ih]

variable [Displace K]

theorem asSlots_put (k : K) (v : V) (m : List (K × V)) :
    put k (some v) (asSlots m) = asSlots (put k v m) := by
  rw [put, asSlots_filter (fun x => decide (x < k)), asSlots_filter (fun x => decide (k < x)), put]
  simp [asSlots]

theorem asSlots_drop (k : K) (m : List (K × V)) : dropRow k (asSlots m) = asSlots (drop k m) := by
  rw [drop, ← asSlots_filter (fun x => decide (x ≠ k))]
  refine List.filter_congr fun e he => ?_
  obtain ⟨x, -, rfl⟩ := List.mem_map.1 he
  simp

theorem asSlots_moved (d : Dsp) (m : List (K × V)) : moved d (asSlots m) = asSlots (moved d m) := by
  simp [moved, asSlots, Function.comp_def]

theorem asSlots_below (k : K) (m : List (K × V)) : below k (asSlots m) = asSlots (below k m) :=
  asSlots_filter (fun x => decide (x < k)) m

theorem asSlots_atLeast (k : K) (m : List (K × V)) :
    atLeast k (asSlots m) = asSlots (atLeast k m) := asSlots_filter (fun x => decide (k ≤ x)) m

theorem asSlots_between (lo hi : K) (m : List (K × V)) :
    between lo hi (asSlots m) = asSlots (between lo hi m) :=
  asSlots_filter (fun x => decide (lo ≤ x ∧ x < hi)) m

theorem asSlots_graft (lo hi : K) (d : Dsp) (m : List (K × V)) :
    graftMap lo hi d (asSlots m) = (graftMap lo hi d m).map asSlots := by
  have hempty : ∀ l : List (K × V), (asSlots l).isEmpty = l.isEmpty := by
    intro l
    cases l <;> rfl
  have hall : ∀ l : List (K × V),
      ((asSlots l).all fun e => displace lo d ≤ e.1 ∧ e.1 < displace hi d)
        = l.all fun e => displace lo d ≤ e.1 ∧ e.1 < displace hi d := by
    intro l
    simp [asSlots, Function.comp_def]
  unfold graftMap
  simp only [asSlots_between, asSlots_moved, hempty, asSlots_below, asSlots_atLeast, hall]
  split_ifs <;> simp [asSlots]

end Maps

/-! ## Operations and runs -/

/-- An operation on earlier versions, named by their places in the pool. -/
inductive TreeOp (K V : Type) where
  | insertWith (i : Nat) (key : K) (val : V) (runs : Bool)
  | remove (i : Nat) (key : K)
  | split (i : Nat) (key : K)
  | join (i j : Nat)
  | graft (i : Nat) (lo hi : K) (d : Dsp)
  | relocate (i : Nat) (d : Dsp)

namespace TreeOp

variable {K V M : Type} [Displace K]

/-- Whether the operation folds rows into runs. -/
def folds : TreeOp K V → Bool
  | insertWith _ _ _ runs => runs
  | _ => false

/-- The versions an operation adds to a pool of plain maps. -/
def onMaps (op : TreeOp K V) (ms : List (List (K × V))) : List (List (K × V)) :=
  match op with
  | insertWith i key val _ => (ms[i]?).toList.map (put key val)
  | remove i key => (ms[i]?).toList.map (drop key)
  | split i key => (ms[i]?).toList.flatMap fun m => [below key m, atLeast key m]
  | join i j => (ms[i]?).toList.flatMap fun l => (ms[j]?).toList.map fun r => l ++ r
  | graft i lo hi d => ((ms[i]?).bind (graftMap lo hi d)).toList
  | relocate i d => (ms[i]?).toList.map (moved d)

variable [Measure K V M]

/-- What an operation asks of the versions it reads: a join that its trees come
in order, a displacement that it keeps the order of what it moves. -/
def Legal (op : TreeOp K V) (ts : List (Tree K V M)) : Prop :=
  match op with
  | join i j => ∀ l ∈ ts[i]?, ∀ r ∈ ts[j]?, Before l r
  | graft i lo hi d => ∀ t ∈ ts[i]?, OrderKept d (graftSpan t lo hi)
  | relocate i d => ∀ t ∈ ts[i]?, OrderKept d t
  | _ => True

instance (op : TreeOp K V) (ts : List (Tree K V M)) : Decidable (op.Legal ts) :=
  match op with
  | join i j => inferInstanceAs (Decidable (∀ l ∈ ts[i]?, ∀ r ∈ ts[j]?, Before l r))
  | graft i lo hi d => inferInstanceAs (Decidable (∀ t ∈ ts[i]?, OrderKept d (graftSpan t lo hi)))
  | relocate i d => inferInstanceAs (Decidable (∀ t ∈ ts[i]?, OrderKept d t))
  | insertWith _ _ _ _ | remove _ _ | split _ _ => isTrue trivial

variable [RunValue V]

/-- The versions an operation adds to a pool of trees. -/
def onTrees (op : TreeOp K V) (ts : List (Tree K V M)) : List (Tree K V M) :=
  match op with
  | insertWith i key val runs => (ts[i]?).toList.map (Tree.insertWith · key val runs)
  | remove i key => (ts[i]?).toList.map (Tree.remove · key)
  | split i key => (ts[i]?).toList.flatMap fun t => [(Tree.split t key).1, (Tree.split t key).2]
  | join i j => (ts[i]?).toList.flatMap fun l => (ts[j]?).toList.map fun r => Tree.join l r
  | graft i lo hi d => ((ts[i]?).bind (Tree.graft · lo hi d)).toList
  | relocate i d => (ts[i]?).toList.map (Tree.relocate · d)

end TreeOp

variable {K V M : Type} [Displace K]

def runMaps (ops : List (TreeOp K V)) (ms : List (List (K × V))) : List (List (K × V)) :=
  ops.foldl (fun ms op => ms ++ op.onMaps ms) ms

variable [Measure K V M] [RunValue V]

def runTrees (ops : List (TreeOp K V)) (ts : List (Tree K V M)) : List (Tree K V M) :=
  ops.foldl (fun ts op => ts ++ op.onTrees ts) ts

/-- Every operation of the run is legal on the pool it meets. -/
def LegalRun : List (TreeOp K V) → List (Tree K V M) → Prop
  | [], _ => True
  | op :: ops, ts => op.Legal ts ∧ LegalRun ops (ts ++ op.onTrees ts)

/-- Whether a run is legal can be checked by running it. -/
def LegalRun.decide : (ops : List (TreeOp K V)) → (ts : List (Tree K V M)) →
    Decidable (LegalRun ops ts)
  | [], _ => isTrue trivial
  | op :: ops, ts =>
      have := LegalRun.decide ops (ts ++ op.onTrees ts)
      inferInstanceAs (Decidable (op.Legal ts ∧ LegalRun ops (ts ++ op.onTrees ts)))

instance (ops : List (TreeOp K V)) (ts : List (Tree K V M)) : Decidable (LegalRun ops ts) :=
  LegalRun.decide ops ts

/-! ## Denotation -/

/-- A version denotes a plain map: it is well formed, with plain leaves if `p`,
and holds exactly the map's rows. -/
structure Denotes (p : Bool) (t : Tree K V M) (m : List (K × V)) : Prop where
  sound : Sound p anyKey t
  slots_eq : slots t = asSlots m

variable {p : Bool} {ts : List (Tree K V M)} {ms : List (List (K × V))}

omit [RunValue V] in
/-- The versions two pools hold at one place. -/
theorem forall₂_get (h : List.Forall₂ (Denotes p) ts ms) (i : Nat) :
    (ts[i]? = none ∧ ms[i]? = none) ∨
      ∃ t m, ts[i]? = some t ∧ ms[i]? = some m ∧ Denotes p t m := by
  have hlen := h.length_eq
  by_cases hi : i < ts.length
  · have hi' : i < ms.length := by omega
    refine Or.inr ⟨ts[i], ms[i], List.getElem?_eq_getElem hi, List.getElem?_eq_getElem hi', ?_⟩
    exact h.get hi hi'
  · exact Or.inl ⟨List.getElem?_eq_none (by omega), List.getElem?_eq_none (by omega)⟩

/-- One operation adds the same versions to both pools. -/
theorem onTrees_denotes (h : List.Forall₂ (Denotes p) ts ms) {op : TreeOp K V} (hop : op.Legal ts)
    (hp : p = true → op.folds = false) :
    List.Forall₂ (Denotes p) (op.onTrees ts) (op.onMaps ms) := by
  cases op with
  | insertWith i key val runs =>
    rcases forall₂_get h i with ⟨ht, hm⟩ | ⟨t, m, ht, hm, hd⟩
    · simp [TreeOp.onTrees, TreeOp.onMaps, ht, hm]
    · obtain ⟨hs, hslots⟩ := insertWith_spec hd.sound runs hp key trivial val
      have : Denotes p (t.insertWith key val runs) (put key val m) :=
        ⟨hs, by rw [hslots, hd.slots_eq, asSlots_put]⟩
      simpa [TreeOp.onTrees, TreeOp.onMaps, ht, hm] using this
  | remove i key =>
    rcases forall₂_get h i with ⟨ht, hm⟩ | ⟨t, m, ht, hm, hd⟩
    · simp [TreeOp.onTrees, TreeOp.onMaps, ht, hm]
    · obtain ⟨hs, hslots⟩ := remove_spec hd.sound key
      have : Denotes p (t.remove key) (drop key m) :=
        ⟨hs, by rw [hslots, hd.slots_eq, asSlots_drop]⟩
      simpa [TreeOp.onTrees, TreeOp.onMaps, ht, hm] using this
  | split i key =>
    rcases forall₂_get h i with ⟨ht, hm⟩ | ⟨t, m, ht, hm, hd⟩
    · simp [TreeOp.onTrees, TreeOp.onMaps, ht, hm]
    · obtain ⟨⟨hl, hlslots⟩, hr, hrslots⟩ := split_spec hd.sound key
      have hlow : Denotes p (t.split key).1 (below key m) :=
        ⟨hl, by rw [hlslots, hd.slots_eq, asSlots_below]⟩
      have hhigh : Denotes p (t.split key).2 (atLeast key m) :=
        ⟨hr, by rw [hrslots, hd.slots_eq, asSlots_atLeast]⟩
      simpa [TreeOp.onTrees, TreeOp.onMaps, ht, hm] using And.intro hlow hhigh
  | join i j =>
    rcases forall₂_get h i with ⟨ht, hm⟩ | ⟨l, m, ht, hm, hd⟩
    · simp [TreeOp.onTrees, TreeOp.onMaps, ht, hm]
    rcases forall₂_get h j with ⟨ht', hm'⟩ | ⟨r, m', ht', hm', hd'⟩
    · simp [TreeOp.onTrees, TreeOp.onMaps, ht, hm, ht', hm']
    · obtain ⟨hs, hslots⟩ := join_spec hd.sound hd'.sound (hop l ht r ht')
      have : Denotes p (Tree.join l r) (m ++ m') :=
        ⟨hs, by rw [hslots, hd.slots_eq, hd'.slots_eq, asSlots, asSlots, asSlots, List.map_append]⟩
      simpa [TreeOp.onTrees, TreeOp.onMaps, ht, hm, ht', hm'] using this
  | graft i lo hi d =>
    rcases forall₂_get h i with ⟨ht, hm⟩ | ⟨t, m, ht, hm, hd⟩
    · simp [TreeOp.onTrees, TreeOp.onMaps, ht, hm]
    · obtain ⟨hslots, hs⟩ := graft_spec hd.sound (hop t ht)
      rw [hd.slots_eq, asSlots_graft] at hslots
      simp only [TreeOp.onTrees, TreeOp.onMaps, ht, hm, Option.bind_some]
      cases hg : t.graft lo hi d with
      | none =>
        rw [hg] at hslots
        rw [Option.map_eq_none_iff.1 hslots.symm]
        exact .nil
      | some t' =>
        rw [hg] at hslots
        obtain ⟨m', hm', heq⟩ := Option.map_eq_some_iff.1 hslots.symm
        rw [hm']
        exact .cons ⟨hs t' hg, heq.symm⟩ .nil
  | relocate i d =>
    rcases forall₂_get h i with ⟨ht, hm⟩ | ⟨t, m, ht, hm, hd⟩
    · simp [TreeOp.onTrees, TreeOp.onMaps, ht, hm]
    · obtain ⟨hs, hslots⟩ := relocate_spec hd.sound (hop t ht)
      have : Denotes p (t.relocate d) (moved d m) :=
        ⟨hs, by rw [hslots, hd.slots_eq, asSlots_moved]⟩
      simpa [TreeOp.onTrees, TreeOp.onMaps, ht, hm] using this

/-- A legal run keeps the two pools in step. -/
theorem run_denotes : ∀ (ops : List (TreeOp K V)) (ts : List (Tree K V M)) (ms : List (List (K × V))),
    List.Forall₂ (Denotes p) ts ms → LegalRun ops ts → (p = true → ∀ op ∈ ops, op.folds = false) →
      List.Forall₂ (Denotes p) (runTrees ops ts) (runMaps ops ms) := by
  intro ops
  induction ops with
  | nil => exact fun ts ms h _ _ => h
  | cons op ops ih =>
    intro ts ms h hrun hp
    refine ih _ _ ?_ hrun.2 fun hpt op' hop' => hp hpt op' (by simp [hop'])
    exact List.rel_append h (onTrees_denotes h hrun.1 fun hpt => hp hpt op (by simp))

/-- Versions obtained earlier stay in the pool as they are. -/
theorem runTrees_prefix (ops : List (TreeOp K V)) (ts : List (Tree K V M)) :
    ts <+: runTrees ops ts := by
  induction ops generalizing ts with
  | nil => exact List.prefix_refl ts
  | cons op ops ih => exact (List.prefix_append ts _).trans (ih _)

/-- **Every version denotes its plain map.** In a legal run from the empty tree
each version is well formed, its leaves within the arity if no operation folds
rows, and holds exactly the rows the plain run gives it; and a version obtained
earlier is never changed. -/
theorem versions_denote (ops : List (TreeOp K V)) (hrun : LegalRun ops [(nil : Tree K V M)]) :
    List.Forall₂ (Denotes (ops.all fun op => !op.folds)) (runTrees ops [(nil : Tree K V M)])
        (runMaps ops [[]]) ∧
      ∀ n, runTrees (ops.take n) [(nil : Tree K V M)] <+: runTrees ops [nil] := by
  refine ⟨run_denotes ops _ _ ?_ hrun fun hall op hop => ?_, fun n => ?_⟩
  · exact .cons ⟨Sound.nil, rfl⟩ .nil
  · simpa using List.all_eq_true.1 hall op hop
  · have hsplit : runTrees ops [(nil : Tree K V M)]
        = runTrees (ops.drop n) (runTrees (ops.take n) [nil]) := by
      rw [runTrees, runTrees, runTrees, ← List.foldl_append, List.take_append_drop]
    exact hsplit ▸ runTrees_prefix _ _

/-- A one-column row of an entity. -/
def entRow (n : Nat) : Tuple := ⟨[.ent ⟨UInt64.ofNat n⟩]⟩

/-- A run that folds three rows, moves them and puts them after others. -/
def sampleRun : List (TreeOp Tuple Int) :=
  [.insertWith 0 (entRow 1) 1 true, .insertWith 1 (entRow 2) 1 true, .insertWith 2 (entRow 3) 1 true,
    .relocate 3 100, .join 3 4, .graft 5 (entRow 2) (entRow 4) 50, .split 6 (entRow 53)]

theorem versions_denote_sample :
    List.Forall₂ (Denotes (sampleRun.all fun op => !op.folds))
        (runTrees sampleRun [(nil : Tree Tuple Int Count)]) (runMaps sampleRun [[]]) ∧
      ∀ n, runTrees (sampleRun.take n) [(nil : Tree Tuple Int Count)]
        <+: runTrees sampleRun [nil] :=
  versions_denote sampleRun (by decide +kernel)

/-- Two rows at the two ends of the entity ids, moved so that one wraps. -/
def wrapRun : List (TreeOp Tuple Int) :=
  [.insertWith 0 (entRow 0) 1 false, .insertWith 1 (entRow (2 ^ 64 - 1)) 1 false, .relocate 2 1]

/-- Rows inserted one after another, the first into the empty tree. -/
def insertAll (base : Nat) (runs : Bool) (rows : List Nat) : List (TreeOp Tuple Int) :=
  rows.zipIdx.map fun x => .insertWith (if x.2 = 0 then 0 else base + x.2 - 1) (entRow x.1) 1 runs

/-- A full leaf whose first item is a run, cut inside it and hung off a taller
tree. -/
def cutRun : List (TreeOp Tuple Int) :=
  insertAll 1 false (List.range 66)
    ++ insertAll 67 true ([1000, 1001, 1002] ++ (List.range 63).map fun i => 2000 + i * i)
    ++ [.split 132 (entRow 1001), .join 66 134]

/-- The sizes of a root's leaves. -/
def leafSizes : Tree Tuple Int Count → List Nat
  | .nodeInternal _ _ _ children => children.map fun c => match c with
    | .nodeLeaf _ _ items => items.length
    | _ => 0
  | _ => []

set_option maxRecDepth 10000 in
/-- A displacement that wraps a row puts a version's rows out of order, and a cut
inside a run can leave a leaf below the root with more items than the arity. -/
theorem versions_disordered :
    ((runTrees wrapRun [(nil : Tree Tuple Int Count)])[3]?.map fun t =>
        decide (t.iter.Pairwise fun a b => a.1 < b.1)) = some false ∧
      (runTrees cutRun [(nil : Tree Tuple Int Count)])[135]?.map leafSizes = some [32, 34, 65] ∧
      arityB < 65 := by
  refine ⟨?_, ?_, ?_⟩
  · decide +kernel
  · decide +kernel
  · decide

/-! ## Reads -/

/-- Every read of a version answers as filtering a plain map's rows does. -/
structure ReadsAs (t : Tree K V M) (m : List (K × V)) : Prop where
  get : ∀ key, t.get key = lookup key m
  iter : t.iter = m
  rangeCollect : ∀ lo hi, t.rangeCollect lo hi = between lo hi m
  countRange : ∀ lo hi, t.countRange lo hi = (between lo hi m).length
  measureRange : LawfulMeasure K V M →
    ∀ lo hi, t.measureRange lo hi = Measure.ofEntries M (between lo hi m)
  anyIn : ∀ lo hi, t.anyIn lo hi = !(between lo hi m).isEmpty
  lastLe : ∀ key, t.lastLe key = Leaf.lastAtMost key m
  search : ∀ (admits : M → Bool) (keep : K → V → Bool), TestSound admits keep t.depth t 0 →
    t.search admits keep = m.filter fun e => keep e.1 e.2

omit [RunValue V] in
theorem Denotes.reads {t : Tree K V M} {m : List (K × V)} (h : Denotes p t m) : ReadsAs t m := by
  have hrows : rows t = m := by rw [rows, h.slots_eq, rowsOf_asSlots]
  constructor
  · exact fun key => by rw [get_spec h.sound, hrows]
  · rw [iter_spec h.sound, hrows]
  · exact fun lo hi => by rw [rangeCollect_spec h.sound, hrows]
  · exact fun lo hi => by rw [countRange_spec h.sound, hrows]
  · exact fun _ lo hi => by rw [measureRange_spec h.sound, hrows]
  · intro lo hi
    rw [anyIn_spec h.sound, anySlot, h.slots_eq, asSlots_between]
    cases between lo hi m <;> rfl
  · exact fun key => by rw [lastLe_spec h.sound, hrows]
  · exact fun admits keep hs => by rw [search_spec h.sound hs, hrows]

/-- **Every fast read agrees with the plain one**, in every version of every legal
run. -/
theorem versions_read (ops : List (TreeOp K V)) (hrun : LegalRun ops [(nil : Tree K V M)]) :
    List.Forall₂ ReadsAs (runTrees ops [(nil : Tree K V M)]) (runMaps ops [[]]) := by
  have hnil : List.Forall₂ (Denotes false) [(nil : Tree K V M)] [[]] :=
    .cons ⟨Sound.nil, rfl⟩ .nil
  exact (run_denotes ops _ _ hnil hrun (by simp)).imp fun _ _ h => h.reads

theorem versions_read_sample :
    List.Forall₂ ReadsAs (runTrees sampleRun [(nil : Tree Tuple Int Count)]) (runMaps sampleRun [[]]) :=
  versions_read sampleRun (by decide +kernel)

/-- After a displacement that wraps a row, a lookup misses a row the iterator
yields. -/
theorem wrapped_read_misses :
    (runTrees wrapRun [(nil : Tree Tuple Int Count)])[3]?.map
        (fun t => (t.get (entRow 1), t.iter.map Prod.fst))
      = some (none, [entRow 1, entRow 0]) := by
  decide +kernel

end Grmpl

import Grmpl.Ent.Granfilade
import Mathlib.Tactic

/-!
# Collection keeps what can still be read

What a collection may not take is what the root record reaches and what a node in
memory can still page in. A write may skip a node because it is counted as stored,
so the count has to be right as well: that is the invariant every action keeps,
with one exception. A collection that swept and then failed to sync goes home
before it takes the swept keys off the count.

* `Granfilade.Safe`: what the store promises of a state.
* `Granfilade.Inv`: what every action keeps.
* `Granfilade.Spares`: the branch that breaks it is not taken.
* `collection_safe`: every state of a run that takes no such branch is safe.
-/

namespace Grmpl

namespace Granfilade

variable {C : Type}

section Memory

variable {g : Granfilade C}

theorem node_add (n : MemNode C) (j : Nat) :
    (g.add n).1.node j = if j = g.memory.length then some n else g.node j := by
  simp only [node, add]
  split
  · rename_i h
    subst h
    simp
  · rename_i h
    by_cases hlt : j < g.memory.length
    · rw [List.getElem?_append_left hlt]
    · rw [List.getElem?_eq_none (by simp; omega), List.getElem?_eq_none (by omega)]

theorem node_lt {i : Nat} {n : MemNode C} (h : g.node i = some n) : i < g.memory.length := by
  by_contra hlt
  rw [node, List.getElem?_eq_none (by omega)] at h
  cases h

theorem node_setNode {i : Nat} (h : i < g.memory.length) (n : Option (MemNode C)) (j : Nat) :
    (g.setNode i n).node j = if j = i then n else g.node j := by
  simp only [node, setNode, List.getElem?_set]
  split
  · rename_i hij
    simp [← hij]
  · rename_i hij
    rw [if_neg (Ne.symm hij)]

/-- Memoizing keys changes no node but for that. -/
theorem node_memoize (is : List Nat) (j : Nat) :
    (g.memoize is).node j = (g.node j).map fun n => { n with memo := n.memo || decide (j ∈ is) } := by
  induction is generalizing g with
  | nil => cases h : g.node j <;> simp [memoize, h]
  | cons i is ih =>
    rw [memoize, List.foldl_cons, ← memoize, ih]
    by_cases hi : i < g.memory.length
    · rw [node_setNode hi]
      by_cases hji : j = i
      · subst hji
        cases g.node j <;> simp
      · cases g.node j <;> simp [hji]
    · have hnone : g.node i = none := by
        rw [node, List.getElem?_eq_none (by omega)]
        rfl
      have hsame : g.setNode i ((g.node i).map fun n => { n with memo := true }) = g := by
        rw [setNode, List.set_eq_of_length_le (by omega)]
      rw [hsame]
      by_cases hji : j = i
      · subst hji
        simp [hnone]
      · cases g.node j <;> simp [hji]

theorem unread_iff {i : Nat} : g.unread i = true ↔ ∃ n, g.node i = some n ∧ n.resident = false := by
  unfold unread
  cases g.node i <;> simp

theorem mem_keysOf {is : List Nat} {k : C} :
    k ∈ g.keysOf is ↔ ∃ i ∈ is, ∃ n, g.node i = some n ∧ n.key = k := by
  simp [keysOf, List.mem_filterMap, Option.map_eq_some_iff]

/-- Children found before are found wherever their nodes still are. -/
theorem childKeys_of_nodes {g' : Granfilade C} {is : List Nat} {keys : List C}
    (hsub : ∀ j m, g.node j = some m → g'.node j = some m) (h : g.childKeys is = keys.map some) :
    g'.childKeys is = keys.map some := by
  rw [← h]
  refine List.map_congr_left fun j hj => ?_
  have hmem : (g.node j).map MemNode.key ∈ keys.map some :=
    h ▸ List.mem_map.2 ⟨j, hj, rfl⟩
  obtain ⟨k, -, hk⟩ := List.mem_map.1 hmem
  obtain ⟨m, hm, -⟩ := Option.map_eq_some_iff.1 hk.symm
  rw [hm, hsub j m hm]

end Memory

/-- What a state promises: the root record and whatever a crash would recover have
all they reach in store, so has every node still on disk, and no read has met a
missing node. -/
structure Safe (N : Nodes C) (g : Granfilade C) : Prop where
  root : N.Closed g.nodes g.root
  disks : ∀ d ∈ g.disks, N.Closed d.1 d.2
  unread : ∀ i n, g.node i = some n → n.resident = false → N.Closed g.nodes [n.key]
  missing : g.missing = false

/-- The keys swept by a collection that has not settled. -/
def sweptKeys (g : Granfilade C) : List C :=
  match g.collection with
  | some (.swept keys) => keys
  | _ => []

/-- What a group's write has in hand is closed once it is in store. -/
def WritingOk (N : Nodes C) (nodes : List C) : Option (GroupWrite C) → Prop
  | none => True
  | some (.taken group) => ∀ p ∈ group, N.Closed (nodes ++ p.nodes) (p.nodes ++ p.root)
  | some (.batched written) => N.Closed nodes written

/-- A collection's roots cover the root record and every node still on disk; what
it swept is gone. -/
def CollectionOk (N : Nodes C) (g : Granfilade C) : Option (Collection C) → Prop
  | none => True
  | some (.marking roots) => N.Closed g.nodes roots ∧ (∀ r ∈ g.root, r ∈ roots) ∧
      ∀ i n, g.node i = some n → n.resident = false → ∃ r ∈ roots, N.Reaches r n.key
  | some (.swept keys) => ∀ k ∈ keys, k ∉ g.nodes

/-- What every action keeps. -/
structure Inv (N : Nodes C) (g : Granfilade C) : Prop extends Safe N g where
  children : ∀ i n, g.node i = some n → n.resident = true →
    g.childKeys n.children = (N.refs n.key).map some
  stubbed : ∀ i n, g.node i = some n → n.resident = false →
    n.memo = true ∧ n.key ∈ g.present ∧ i ∈ g.remembered
  backed : ∀ k ∈ g.present, k ∉ g.sweptKeys → N.Closed g.nodes [k]
  pending : ∀ p ∈ g.pending, N.Closed (g.nodes ++ p.nodes) (p.nodes ++ p.root)
  writing : WritingOk N g.nodes g.writing
  quiet : g.collection ≠ none → g.pending = [] ∧ g.writing = none
  collection : CollectionOk N g g.collection
  paging : ∀ i ∈ g.paging, g.unread i = true

/-- Whether an action stays off the branch that breaks the count: a failed sync of a
sweep that took a key counted as stored. -/
def Spares (g : Granfilade C) : GranAction C → Prop
  | .settle false => ∀ k ∈ g.sweptKeys, k ∉ g.present
  | _ => True

section Steps

variable {N : Nodes C} {g : Granfilade C}

theorem Inv.hold (h : Inv N g) (held : List Nat) : Inv N { g with held } :=
  ⟨⟨h.root, h.disks, h.unread, h.missing⟩, h.children, h.stubbed, h.backed, h.pending, h.writing,
    h.quiet, h.collection, h.paging⟩

theorem Inv.read (h : Inv N g) {i : Nat} {n : MemNode C} (hn : g.node i = some n)
    (hres : n.resident = false) : Inv N { g with paging := i :: g.paging } :=
  ⟨⟨h.root, h.disks, h.unread, h.missing⟩, h.children, h.stubbed, h.backed, h.pending, h.writing,
    h.quiet, h.collection, List.forall_mem_cons.2 ⟨unread_iff.2 ⟨n, hn, hres⟩, h.paging⟩⟩

/-- A node freshly built over others is resident and unknown to the store. -/
theorem Inv.build (h : Inv N g) {key : C} (memo : Bool) {children : List Nat}
    (hch : g.childKeys children = (N.refs key).map some) :
    Inv N (g.add ⟨key, memo, true, children⟩).1 := by
  have hold : ∀ {j m}, g.node j = some m → (g.add ⟨key, memo, true, children⟩).1.node j = some m := by
    intro j m hj
    rw [node_add, if_neg (Nat.ne_of_lt (node_lt hj)), hj]
  -- the new node is not one still on disk
  have hunread : ∀ {j m}, (g.add ⟨key, memo, true, children⟩).1.node j = some m →
      m.resident = false → g.node j = some m := by
    intro j m hj hm
    rw [node_add] at hj
    split at hj
    · cases hj
      cases hm
    · exact hj
  refine ⟨⟨h.root, h.disks, fun j m hj hm => h.unread j m (hunread hj hm) hm, h.missing⟩, ?_,
    fun j m hj hm => h.stubbed j m (hunread hj hm) hm, h.backed, h.pending, h.writing, h.quiet, ?_, ?_⟩
  · intro j m hj hm
    rw [node_add] at hj
    split at hj
    · cases hj
      exact childKeys_of_nodes (fun _ _ hj => hold hj) hch
    · exact childKeys_of_nodes (fun _ _ hj => hold hj) (h.children j m hj hm)
  · have hc := h.collection
    show CollectionOk N _ g.collection
    cases hcol : g.collection with
    | none => trivial
    | some c =>
      rw [hcol] at hc
      cases c with
      | marking roots => exact ⟨hc.1, hc.2.1, fun j m hj hm => hc.2.2 j m (hunread hj hm) hm⟩
      | swept keys => exact hc
  · intro j hj
    obtain ⟨m, hm, hres⟩ := unread_iff.1 (h.paging j hj)
    exact unread_iff.2 ⟨m, hold hm, hres⟩

/-- A memory whose nodes are old ones, but for memoized keys. -/
theorem Inv.withMemory (h : Inv N g) {memory : List (Option (MemNode C))}
    (hold : ∀ j m, ({ g with memory } : Granfilade C).node j = some m →
      ∃ m₀, g.node j = some m₀ ∧ m.key = m₀.key ∧ m.resident = m₀.resident ∧
        m.children = m₀.children ∧ (m₀.memo = true → m.memo = true))
    (hkeys : ∀ j m, ({ g with memory } : Granfilade C).node j = some m → m.resident = true →
      ({ g with memory } : Granfilade C).childKeys m.children = g.childKeys m.children)
    (hpaging : ∀ i ∈ g.paging, ({ g with memory } : Granfilade C).unread i = true) :
    Inv N { g with memory } := by
  refine ⟨⟨h.root, h.disks, ?_, h.missing⟩, ?_, ?_, h.backed, h.pending, h.writing, h.quiet, ?_,
    hpaging⟩
  · intro j m hj hm
    obtain ⟨m₀, hm₀, hk, hr, -⟩ := hold j m hj
    exact hk ▸ h.unread j m₀ hm₀ (hr ▸ hm)
  · intro j m hj hm
    obtain ⟨m₀, hm₀, hk, hr, hc, -⟩ := hold j m hj
    rw [hkeys j m hj hm, hc, hk]
    exact h.children j m₀ hm₀ (hr ▸ hm)
  · intro j m hj hm
    obtain ⟨m₀, hm₀, hk, hr, -, hmemo⟩ := hold j m hj
    obtain ⟨h₁, h₂, h₃⟩ := h.stubbed j m₀ hm₀ (hr ▸ hm)
    exact ⟨hmemo h₁, hk ▸ h₂, h₃⟩
  · have hc := h.collection
    show CollectionOk N _ g.collection
    cases hcol : g.collection with
    | none => trivial
    | some c =>
      rw [hcol] at hc
      cases c with
      | marking roots =>
        refine ⟨hc.1, hc.2.1, fun j m hj hm => ?_⟩
        obtain ⟨m₀, hm₀, hk, hr, -⟩ := hold j m hj
        exact hk ▸ hc.2.2 j m₀ hm₀ (hr ▸ hm)
      | swept keys => exact hc

theorem Inv.free (h : Inv N g) {i : Nat} (hi : g.unreferenced i = true) :
    Inv N (g.setNode i none) := by
  simp only [unreferenced, Bool.and_eq_true, Bool.not_eq_true', List.all_eq_true,
    Option.all_eq_true] at hi
  by_cases hlt : i < g.memory.length
  swap
  · have hsame : g.setNode i none = g := by
      rw [setNode, List.set_eq_of_length_le (by omega)]
    rw [hsame]
    exact h
  have hold : ∀ j m, (g.setNode i none).node j = some m → g.node j = some m := by
    intro j m hj
    rw [node_setNode hlt] at hj
    split at hj
    · cases hj
    · exact hj
  refine h.withMemory (fun j m hj => ⟨m, hold j m hj, rfl, rfl, rfl, id⟩) (fun j m hj hm => ?_)
    fun j hj => ?_
  · have hmem : some m ∈ g.memory := by
      have hj' := hold j m hj
      rw [node, Option.join_eq_some_iff] at hj'
      exact List.mem_of_getElem? hj'
    have hnot : i ∉ m.children := by simpa using hi.2 _ hmem m rfl
    refine List.map_congr_left fun j' hj' => ?_
    rw [← setNode, node_setNode hlt, if_neg fun hij : j' = i => hnot (hij ▸ hj')]
  · obtain ⟨m, hm, hres⟩ := unread_iff.1 (h.paging j hj)
    refine unread_iff.2 ⟨m, ?_, hres⟩
    have hne : j ≠ i := by
      rintro rfl
      have hnot : j ∉ g.paging := by simpa using hi.1.2
      exact hnot hj
    rw [← setNode, node_setNode hlt, if_neg hne, hm]

theorem memoize_same (is : List Nat) :
    g.memoize is = { g with memory := (g.memoize is).memory } := by
  induction is generalizing g with
  | nil => rfl
  | cons i is ih =>
    rw [memoize, List.foldl_cons, ← memoize, ih]
    rfl

theorem Inv.memoize (h : Inv N g) (is : List Nat) : Inv N (g.memoize is) := by
  have hnode : ∀ j, ({ g with memory := (g.memoize is).memory } : Granfilade C).node j
      = (g.node j).map fun n => { n with memo := n.memo || decide (j ∈ is) } := node_memoize is
  rw [memoize_same]
  refine h.withMemory (fun j m hj => ?_) (fun j m _ _ => ?_) fun j hj => ?_
  · rw [hnode, Option.map_eq_some_iff] at hj
    obtain ⟨m₀, hm₀, rfl⟩ := hj
    exact ⟨m₀, hm₀, rfl, rfl, rfl, fun hmemo => by simp [hmemo]⟩
  · refine List.map_congr_left fun j _ => ?_
    rw [hnode]
    cases g.node j <;> rfl
  · obtain ⟨m, hm, hres⟩ := unread_iff.1 (h.paging j hj)
    exact unread_iff.2 ⟨{ m with memo := m.memo || decide (j ∈ is) }, by rw [hnode, hm]; rfl, hres⟩

/-- What `g'` is when some keys were paged: new nodes at the end of memory, counted
as stored and remembered. -/
structure Stubbed (g : Granfilade C) (keys : List C) (g' : Granfilade C) (is : List Nat) : Prop where
  memory : g'.memory = g.memory ++ keys.map fun k => some ⟨k, true, false, []⟩
  places : is = List.range' g.memory.length keys.length
  present : ∀ k, k ∈ g'.present ↔ k ∈ keys ∨ k ∈ g.present
  remembered : ∀ i, g'.unread i = true → i ∈ g.remembered ∨ g.memory.length ≤ i → i ∈ g'.remembered
  same : ∃ memory present remembered pruneAt,
    g' = { g with memory, present, remembered, pruneAt }

/-- Thinning forgets no node still on disk. -/
theorem mem_prune {i : Nat} (hi : g.unread i = true) (hmem : i ∈ g.remembered) :
    i ∈ g.prune.remembered := by
  unfold prune
  split
  · exact List.mem_filter.2 ⟨hmem, hi⟩
  · exact hmem

theorem prune_same : g.prune =
    { g with remembered := g.prune.remembered, pruneAt := g.prune.pruneAt } := by
  unfold prune
  split <;> rfl

theorem stub_stubbed (key : C) : Stubbed g [key] (g.stub key).1 [(g.stub key).2] := by
  simp only [stub, add]
  generalize hg : ({ g with
    present := key :: g.present
    remembered := g.remembered ++ [g.memory.length]
    memory := g.memory ++ [some ⟨key, true, false, []⟩] } : Granfilade C) = g₁
  have hmem : g₁.prune.memory = g₁.memory := by
    rw [prune_same]
  have hpres : g₁.prune.present = g₁.present := by
    rw [prune_same]
  refine ⟨by rw [hmem, ← hg]; rfl, rfl, by rw [hpres, ← hg]; simp, fun i hi hi' => ?_,
    ⟨g₁.memory, g₁.present, g₁.prune.remembered, g₁.prune.pruneAt, ?_⟩⟩
  · have hun : g₁.unread i = true := by
      rw [prune_same] at hi
      exact hi
    refine mem_prune hun ?_
    rw [← hg]
    rcases hi' with hi' | hle
    · exact List.mem_append_left _ hi'
    · obtain ⟨n, hn, -⟩ := unread_iff.1 hun
      have hlt := node_lt hn
      rw [← hg] at hlt
      simp only [List.length_append, List.length_singleton] at hlt
      exact List.mem_append_right _ (List.mem_singleton.2 (by omega))
  · rw [prune_same, ← hg]

theorem stubs_stubbed : ∀ (keys : List C) (g : Granfilade C),
    Stubbed g keys (g.stubs keys).1 (g.stubs keys).2 := by
  intro keys
  induction keys with
  | nil =>
    intro g
    refine ⟨by simp [stubs], rfl, by simp [stubs], fun i hi hmem => ?_, _, _, _, _, rfl⟩
    rcases hmem with hmem | hle
    · exact hmem
    · obtain ⟨n, hn, -⟩ := unread_iff.1 hi
      exact absurd (node_lt hn) (by simp only [stubs]; omega)
  | cons key keys ih =>
    intro g
    have hone := stub_stubbed (g := g) key
    have hrest := ih (g.stub key).1
    have hlen : (g.stub key).1.memory.length = g.memory.length + 1 := by simp [hone.memory]
    refine ⟨?_, ?_, fun k => ?_, fun i hi hmem => ?_, ?_⟩
    · show ((g.stub key).1.stubs keys).1.memory = _
      rw [hrest.memory, hone.memory]
      simp
    · show (g.stub key).2 :: ((g.stub key).1.stubs keys).2 = _
      rw [hrest.places, hlen, (List.singleton_inj.1 hone.places : (g.stub key).2 = _)]
      rfl
    · show k ∈ ((g.stub key).1.stubs keys).1.present ↔ _
      rw [hrest.present, hone.present, List.mem_singleton, List.mem_cons]
      tauto
    · refine hrest.remembered i hi ?_
      by_cases hle : (g.stub key).1.memory.length ≤ i
      · exact .inr hle
      · refine .inl (hone.remembered i ?_ hmem)
        -- a node made before the rest is as unread as it is in the end
        obtain ⟨n, hn, hres⟩ := unread_iff.1 hi
        refine unread_iff.2 ⟨n, ?_, hres⟩
        have hn' : (((g.stub key).1.stubs keys).1.memory[i]?).join = some n := hn
        rwa [hrest.memory, List.getElem?_append_left (by omega)] at hn'
    · obtain ⟨_, _, _, _, hone⟩ := hone.same
      obtain ⟨memory, present, remembered, pruneAt, hrest⟩ := hrest.same
      refine ⟨memory, present, remembered, pruneAt, hrest.trans ?_⟩
      rw [hone]

section Stubs

variable {keys : List C} {g' : Granfilade C} {is : List Nat}

theorem Stubbed.node_old (hst : Stubbed g keys g' is) {j : Nat} {m : MemNode C}
    (hj : g.node j = some m) : g'.node j = some m := by
  have hlt := node_lt hj
  rw [node, hst.memory, List.getElem?_append_left hlt]
  exact hj

theorem Stubbed.node_new (hst : Stubbed g keys g' is) {j : Nat} {m : MemNode C}
    (hj : g'.node j = some m) :
    g.node j = some m ∨ g.memory.length ≤ j ∧ ∃ k ∈ keys, m = ⟨k, true, false, []⟩ := by
  rw [node, hst.memory] at hj
  by_cases hlt : j < g.memory.length
  · rw [List.getElem?_append_left hlt] at hj
    exact .inl hj
  · rw [List.getElem?_append_right (by omega), List.getElem?_map, Option.join_eq_some_iff,
      Option.map_eq_some_iff] at hj
    obtain ⟨k, hk, hm⟩ := hj
    exact .inr ⟨by omega, k, List.mem_of_getElem? hk, (Option.some.inj hm).symm⟩

theorem Stubbed.childKeys_eq (hst : Stubbed g keys g' is) : g'.childKeys is = keys.map some := by
  rw [hst.places]
  refine List.ext_getElem? fun n => ?_
  rw [childKeys, List.getElem?_map, List.getElem?_map]
  by_cases hn : n < keys.length
  · rw [List.getElem?_range' hn]
    have hnode : g'.node (g.memory.length + n) = some ⟨keys[n], true, false, []⟩ := by
      rw [node, hst.memory, List.getElem?_append_right (by omega)]
      simp [hn]
    simp [hnode, hn]
  · rw [List.getElem?_eq_none (by simp; omega), List.getElem?_eq_none (by omega)]
    rfl

/-- Paging stored keys that a collection in progress will mark is harmless. -/
theorem Inv.stubs (h : Inv N g) (hst : Stubbed g keys g' is) (hkeys : ∀ k ∈ keys, N.Closed g.nodes [k])
    (hmark : ∀ roots, g.collection = some (.marking roots) → ∀ k ∈ keys, ∃ r ∈ roots, N.Reaches r k) :
    Inv N g' := by
  have hnew := @Stubbed.node_new _ _ _ _ _ hst
  have hold := @Stubbed.node_old _ _ _ _ _ hst
  have hpres := hst.present
  have hrem := hst.remembered
  obtain ⟨memory, present, remembered, pruneAt, rfl⟩ := hst.same
  refine ⟨⟨h.root, h.disks, fun j m hj hm => ?_, h.missing⟩, fun j m hj hm => ?_, fun j m hj hm => ?_,
    fun k hk hsw => ?_, h.pending, h.writing, h.quiet, ?_, fun j hj => ?_⟩
  · rcases hnew hj with hj | ⟨-, k, hk, rfl⟩
    · exact h.unread j m hj hm
    · exact hkeys k hk
  · rcases hnew hj with hj | ⟨-, k, hk, rfl⟩
    · exact childKeys_of_nodes (fun _ _ => hold) (h.children j m hj hm)
    · cases hm
  · have hun := unread_iff.2 ⟨m, hj, hm⟩
    rcases hnew hj with hj | ⟨hle, k, hk, rfl⟩
    · obtain ⟨h₁, h₂, h₃⟩ := h.stubbed j m hj hm
      exact ⟨h₁, (hpres _).2 (.inr h₂), hrem j hun (.inl h₃)⟩
    · exact ⟨rfl, (hpres _).2 (.inl hk), hrem j hun (.inr hle)⟩
  · rcases (hpres k).1 hk with hk | hk
    · exact hkeys k hk
    · exact h.backed k hk hsw
  · have hc := h.collection
    show CollectionOk N _ g.collection
    cases hcol : g.collection with
    | none => trivial
    | some c =>
      rw [hcol] at hc
      cases c with
      | marking roots =>
        refine ⟨hc.1, hc.2.1, fun j m hj hm => ?_⟩
        rcases hnew hj with hj | ⟨-, k, hk, rfl⟩
        · exact hc.2.2 j m hj hm
        · exact hmark roots hcol k hk
      | swept keys => exact hc
  · obtain ⟨m, hm, hres⟩ := unread_iff.1 (h.paging j hj)
    exact unread_iff.2 ⟨m, hold hm, hres⟩

end Stubs

/-- A node still on disk is paged in: its references are paged in turn. -/
theorem Inv.decode (h : Inv N g) {i : Nat} {n : MemNode C} (hn : g.node i = some n)
    (hres : n.resident = false) : Inv N (g.decode N i n) := by
  obtain ⟨g₁, is, hp⟩ : ∃ g₁ is, g.stubs (N.refs n.key) = (g₁, is) := ⟨_, _, rfl⟩
  have hst : Stubbed g (N.refs n.key) g₁ is := by
    have hst := stubs_stubbed (N.refs n.key) g
    rwa [hp] at hst
  have hclosed : ∀ k ∈ N.refs n.key, N.Closed g.nodes [k] := fun k hk =>
    (h.unread i n hn hres).of_reaches List.mem_cons_self (.single hk)
  have hinv := h.stubs hst hclosed fun roots hcol k hk => by
    have hc := h.collection
    rw [hcol] at hc
    obtain ⟨r, hr, hrn⟩ := hc.2.2 i n hn hres
    exact ⟨r, hr, hrn.tail hk⟩
  have hi := hst.node_old hn
  have hkeys := hst.childKeys_eq
  unfold Granfilade.decode
  rw [hp]
  show Inv N { g₁.setNode i (some { n with resident := true, children := is }) with
    paging := g₁.paging.filter (· ≠ i) }
  have hset := node_setNode (node_lt hi) (some { n with resident := true, children := is })
  -- but for this node, now resident, nothing in memory has changed
  have hold : ∀ {j m}, (g₁.setNode i (some { n with resident := true, children := is })).node j
      = some m → m.resident = false → g₁.node j = some m := by
    intro j m hj hm
    rw [hset] at hj
    split at hj
    · cases hj
      cases hm
    · exact hj
  have hsame : ∀ js, (g₁.setNode i (some { n with resident := true, children := is })).childKeys js
      = g₁.childKeys js := by
    intro js
    refine List.map_congr_left fun j _ => ?_
    rw [hset]
    split
    · rename_i hji
      rw [hji, hi]
      rfl
    · rfl
  refine ⟨⟨hinv.root, hinv.disks, fun j m hj hm => hinv.unread j m (hold hj hm) hm, hinv.missing⟩,
    fun j m hj hm => ?_, fun j m hj hm => hinv.stubbed j m (hold hj hm) hm, hinv.backed,
    hinv.pending, hinv.writing, hinv.quiet, ?_, fun j hj => ?_⟩
  · refine (hsame m.children).trans ?_
    have hj' := (hset j).symm.trans hj
    split at hj'
    · cases hj'
      exact hkeys
    · exact hinv.children j m hj' hm
  · have hc := hinv.collection
    show CollectionOk N _ g₁.collection
    cases hcol : g₁.collection with
    | none => trivial
    | some c =>
      rw [hcol] at hc
      cases c with
      | marking roots => exact ⟨hc.1, hc.2.1, fun j m hj hm => hc.2.2 j m (hold hj hm) hm⟩
      | swept keys => exact hc
  · obtain ⟨hj, hji⟩ := List.mem_filter.1 hj
    obtain ⟨m, hm, hr⟩ := unread_iff.1 (hinv.paging j hj)
    refine unread_iff.2 ⟨m, ?_, hr⟩
    exact (hset j).trans (by rw [if_neg (by simpa using hji), hm])

/-- More keys may count as stored if all they reach is. -/
theorem Inv.know (h : Inv N g) {present : List C} (hsub : ∀ k ∈ g.present, k ∈ present)
    (hnew : ∀ k ∈ present, k ∉ g.sweptKeys → N.Closed g.nodes [k]) : Inv N { g with present } :=
  ⟨⟨h.root, h.disks, h.unread, h.missing⟩, h.children,
    fun i n hn hr => let ⟨h₁, h₂, h₃⟩ := h.stubbed i n hn hr; ⟨h₁, hsub _ h₂, h₃⟩,
    hnew, h.pending, h.writing, h.quiet, h.collection, h.paging⟩

/-- Some roots of a record are loaded. -/
theorem Inv.load [DecidableEq C] (h : Inv N g) (hcol : g.collection = none) {key : C}
    (hk : N.Closed g.nodes [key]) :
    Inv N (g.load N key) ∧ (g.load N key).collection = none ∧ (g.load N key).nodes = g.nodes := by
  have hmem : key ∈ g.nodes := hk key List.mem_cons_self key .refl
  obtain ⟨g₁, is, hp⟩ : ∃ g₁ is, g.stubs (N.refs key) = (g₁, is) := ⟨_, _, rfl⟩
  have hst : Stubbed g (N.refs key) g₁ is := by
    have hst := stubs_stubbed (N.refs key) g
    rwa [hp] at hst
  have hinv := h.stubs hst (fun k hk' => hk.of_reaches List.mem_cons_self (.single hk'))
    fun roots hroots => by rw [hcol] at hroots; cases hroots
  have hbuilt := hinv.build true hst.childKeys_eq
  have hnodes : g₁.nodes = g.nodes := by
    obtain ⟨_, _, _, _, hs⟩ := hst.same
    rw [hs]
  have hcol₁ : g₁.collection = none := by
    obtain ⟨_, _, _, _, hs⟩ := hst.same
    rw [hs, hcol]
  unfold Granfilade.load
  rw [if_pos hmem, hp]
  refine ⟨(hbuilt.know (fun k hk => List.mem_cons_of_mem _ hk) fun k hk' hsw => ?_).hold _, hcol₁, hnodes⟩
  rcases List.mem_cons.1 hk' with rfl | hk'
  · show N.Closed g₁.nodes [k]
    rw [hnodes]
    exact hk
  · exact hbuilt.backed k hk' hsw

/-- What is on disk opens if its root record is closed. -/
theorem inv_opened [DecidableEq C] {nodes root : List C} (h : N.Closed nodes root) :
    Inv N (opened N nodes root) := by
  have hstart : Inv N { (empty : Granfilade C) with nodes, root, disks := [(nodes, root)] } := by
    have hnone : ∀ i n, ({ (empty : Granfilade C) with
        nodes, root, disks := [(nodes, root)] } : Granfilade C).node i ≠ some n := by
      simp [node, empty]
    refine ⟨⟨h, fun d hd => ?_, fun i n hn => absurd hn (hnone i n), rfl⟩,
      fun i n hn => absurd hn (hnone i n), fun i n hn => absurd hn (hnone i n),
      fun k hk => absurd hk List.not_mem_nil, fun p hp => absurd hp List.not_mem_nil, trivial,
      fun hc => absurd rfl hc, trivial, fun i hi => absurd hi List.not_mem_nil⟩
    obtain rfl := List.mem_singleton.1 hd
    exact h
  -- every root is loaded from a store that does not change
  have hfold : ∀ (roots : List C) (g : Granfilade C), Inv N g → g.collection = none →
      N.Closed g.nodes roots → Inv N (roots.foldl (Granfilade.load N) g) := by
    intro roots
    induction roots with
    | nil => intro g hg _ _; exact hg
    | cons key roots ih =>
      intro g hg hcol hroots
      obtain ⟨hinv, hcol', hnodes⟩ := hg.load hcol
        (hroots.of_reaches List.mem_cons_self .refl)
      refine ih _ hinv hcol' ?_
      rw [hnodes]
      exact fun r hr => hroots r (List.mem_cons_of_mem _ hr)
  exact hfold root _ hstart rfl h

end Steps

/-! ## Writes -/

section Writes

variable {N : Nodes C} {g : Granfilade C}

/-- The nodes a walk visits refer to one another and to skipped nodes. -/
theorem collect_covers (h : Inv N g) {skip : MemNode C → Bool}
    (hskip : ∀ i n, g.node i = some n → skip n = true → n.key ∈ g.present) :
    ∀ (fuel i : Nat) (n : MemNode C), g.node i = some n → N.depth n.key < fuel →
      (∀ j ∈ g.collect skip fuel i, g.unread j = false) →
      (n.key ∈ g.keysOf (g.collect skip fuel i) ∨ n.key ∈ g.present) ∧
        ∀ x ∈ g.keysOf (g.collect skip fuel i), ∀ d ∈ N.refs x,
          d ∈ g.keysOf (g.collect skip fuel i) ∨ d ∈ g.present := by
  intro fuel
  induction fuel with
  | zero => intro i n hn hd; omega
  | succ fuel ih =>
    intro i n hn hd hread
    have hcollect : g.collect skip (fuel + 1) i
        = if skip n then [] else n.children.flatMap (g.collect skip fuel) ++ [i] := by
      simp only [Granfilade.collect, hn]
    by_cases hs : skip n = true
    · rw [hcollect, if_pos hs]
      exact ⟨.inr (hskip i n hn hs), fun x hx => by simp [keysOf] at hx⟩
    rw [hcollect, if_neg hs] at hread ⊢
    have hres : n.resident = true := by
      have := hread i (List.mem_append_right _ List.mem_cons_self)
      simpa [Granfilade.unread, hn] using this
    have hself : n.key ∈ g.keysOf (n.children.flatMap (g.collect skip fuel) ++ [i]) :=
      mem_keysOf.2 ⟨i, List.mem_append_right _ List.mem_cons_self, n, hn, rfl⟩
    have hsub : ∀ j ∈ n.children, ∀ x, x ∈ g.keysOf (g.collect skip fuel j) →
        x ∈ g.keysOf (n.children.flatMap (g.collect skip fuel) ++ [i]) := by
      intro j hj x hx
      obtain ⟨y, hy, hxy⟩ := mem_keysOf.1 hx
      exact mem_keysOf.2 ⟨y, List.mem_append_left _ (List.mem_flatMap.2 ⟨j, hj, hy⟩), hxy⟩
    -- a child is itself visited or skipped, and so is whatever its visited nodes refer to
    have hchild : ∀ j ∈ n.children, ∃ m, g.node j = some m ∧ m.key ∈ N.refs n.key ∧
        (m.key ∈ g.keysOf (g.collect skip fuel j) ∨ m.key ∈ g.present) ∧
          ∀ x ∈ g.keysOf (g.collect skip fuel j), ∀ d ∈ N.refs x,
            d ∈ g.keysOf (g.collect skip fuel j) ∨ d ∈ g.present := by
      intro j hj
      have hmem : (g.node j).map MemNode.key ∈ (N.refs n.key).map some :=
        h.children i n hn hres ▸ List.mem_map.2 ⟨j, hj, rfl⟩
      obtain ⟨k, hk, hkj⟩ := List.mem_map.1 hmem
      obtain ⟨m, hm, rfl⟩ := Option.map_eq_some_iff.1 hkj.symm
      have hdepth := N.depth_lt n.key m.key hk
      exact ⟨m, hm, hk, ih j m hm (by omega) fun y hy =>
        hread y (List.mem_append_left _ (List.mem_flatMap.2 ⟨j, hj, hy⟩))⟩
    refine ⟨.inl hself, fun x hx d hd => ?_⟩
    obtain ⟨y, hy, m, hm, rfl⟩ := mem_keysOf.1 hx
    rcases List.mem_append.1 hy with hy | hy
    · obtain ⟨j, hj, hy⟩ := List.mem_flatMap.1 hy
      obtain ⟨-, -, -, -, hcov⟩ := hchild j hj
      exact (hcov _ (mem_keysOf.2 ⟨y, hy, m, hm, rfl⟩) d hd).imp (hsub j hj d) id
    · obtain rfl := List.mem_singleton.1 hy
      obtain rfl := Option.some.inj (hn.symm.trans hm)
      have hmem : some d ∈ g.childKeys n.children := by
        rw [h.children y n hn hres]
        exact List.mem_map.2 ⟨d, hd, rfl⟩
      obtain ⟨j, hj, hdj⟩ := List.mem_map.1 hmem
      obtain ⟨m, hm, hk, hcov, -⟩ := hchild j hj
      rw [hm] at hdj
      obtain rfl := Option.some.inj hdj
      exact hcov.imp (hsub j hj _) id

/-- No collection is in progress while something waits to be written. -/
theorem Inv.collection_none (h : Inv N g) (hw : g.pending ≠ [] ∨ g.writing ≠ none) :
    g.collection = none := by
  by_contra hcol
  obtain ⟨hp, hwr⟩ := h.quiet hcol
  exact hw.elim (absurd hp) (absurd hwr)

theorem sweptKeys_none (h : g.collection = none) : g.sweptKeys = [] := by
  rw [sweptKeys, h]

variable [DecidableEq C]

omit [DecidableEq C] in
/-- With nothing swept, every key counted as stored has all it reaches in store. -/
theorem Inv.backed_all (h : Inv N g) (hcol : g.collection = none) : N.Backed g.nodes g.present :=
  fun k hk d hd => h.backed k hk (by simp [sweptKeys_none hcol]) k List.mem_cons_self d hd

/-- A node still on disk needs no new frame, so staging never pages anything in. -/
theorem Inv.toStage_resident (h : Inv N g) (roots : List Nat) :
    ∀ j ∈ g.toStage N roots, g.unread j = false := by
  have hwalk : ∀ (fuel i : Nat), ∀ j ∈ g.collect (fun n => n.memo && decide (n.key ∈ g.present)) fuel i,
      g.unread j = false := by
    intro fuel
    induction fuel with
    | zero => intro i j hj; simp [Granfilade.collect] at hj
    | succ fuel ih =>
      intro i j hj
      rw [Granfilade.collect] at hj
      cases hn : g.node i with
      | none => simp [hn] at hj
      | some n =>
        simp only [hn] at hj
        split at hj
        · cases hj
        · rename_i hskip
          rcases List.mem_append.1 hj with hj | hj
          · obtain ⟨c, -, hj⟩ := List.mem_flatMap.1 hj
            exact ih c j hj
          · obtain rfl := List.mem_singleton.1 hj
            cases hr : n.resident with
            | true => simp [Granfilade.unread, hn, hr]
            | false =>
              obtain ⟨hmemo, hpres, -⟩ := h.stubbed j n hn hr
              simp [hmemo, hpres] at hskip
  intro j hj
  obtain ⟨i, -, hj⟩ := List.mem_flatMap.1 hj
  exact hwalk _ i j hj

/-- A staged write is closed once it is in store. -/
theorem Inv.stage (h : Inv N g) (hcol : g.collection = none) {roots : List Nat} :
    Inv N (g.stage (g.toStage N roots) roots) := by
  set visited := g.toStage N roots with hvis
  have hread := h.toStage_resident roots
  have hskip : ∀ i n, g.node i = some n → (n.memo && decide (n.key ∈ g.present)) = true →
      n.key ∈ g.present := by
    intro i n _ hs
    simpa using (Bool.and_eq_true_iff.1 hs).2
  -- each root's walk covers itself, hence so do all of them together
  have hcov : ∀ i ∈ roots, ∀ n, g.node i = some n →
      (n.key ∈ g.keysOf visited ∨ n.key ∈ g.present) ∧
        ∀ x ∈ g.keysOf (g.collect (fun n => n.memo && decide (n.key ∈ g.present))
            (N.depth n.key + 1) i), ∀ d ∈ N.refs x, d ∈ g.keysOf visited ∨ d ∈ g.present := by
    intro i hi n hn
    have hsub : ∀ j ∈ g.collect (fun n => n.memo && decide (n.key ∈ g.present))
        (N.depth n.key + 1) i, j ∈ visited := by
      intro j hj
      rw [hvis]
      exact List.mem_flatMap.2 ⟨i, hi, by simpa [hn] using hj⟩
    have hkeys : ∀ x, x ∈ g.keysOf (g.collect (fun n => n.memo && decide (n.key ∈ g.present))
        (N.depth n.key + 1) i) → x ∈ g.keysOf visited := by
      intro x hx
      obtain ⟨y, hy, hxy⟩ := mem_keysOf.1 hx
      exact mem_keysOf.2 ⟨y, hsub y hy, hxy⟩
    obtain ⟨hroot, hall⟩ := collect_covers h hskip (N.depth n.key + 1) i n hn (Nat.lt_succ_self _)
      fun j hj => hread j (hsub j hj)
    exact ⟨hroot.imp (hkeys _) id, fun x hx d hd => (hall x hx d hd).imp (hkeys _) id⟩
  have hclosed : N.Closed (g.nodes ++ g.keysOf visited) (g.keysOf visited) := by
    refine Nodes.closed_of_covered (h.backed_all hcol) fun x hx d hd => ?_
    obtain ⟨y, hy, m, hm, rfl⟩ := mem_keysOf.1 hx
    rw [hvis] at hy
    obtain ⟨i, hi, hy⟩ := List.mem_flatMap.1 hy
    cases hn : g.node i with
    | none => simp [hn, Granfilade.collect] at hy
    | some n =>
      exact (hcov i hi n hn).2 _ (mem_keysOf.2 ⟨y, by simpa [hn] using hy, m, hm, rfl⟩) d hd
  have hinv := h.memoize visited
  have hsame := memoize_same (g := g) visited
  refine ⟨⟨hinv.root, hinv.disks, hinv.unread, hinv.missing⟩, hinv.children, hinv.stubbed,
    hinv.backed, fun p hp => ?_, hinv.writing, fun hc => ?_, hinv.collection, hinv.paging⟩
  · have hnodes : (g.memoize visited).nodes = g.nodes := by rw [hsame]
    show N.Closed ((g.memoize visited).nodes ++ p.nodes) _
    rw [hnodes]
    rcases List.mem_append.1 hp with hp | hp
    · exact h.pending p hp
    · obtain rfl := List.mem_singleton.1 hp
      intro r hr d hd
      rcases List.mem_append.1 hr with hr | hr
      · exact hclosed r hr d hd
      · obtain ⟨i, hi, n, hn, rfl⟩ := mem_keysOf.1 hr
        rcases (hcov i hi n hn).1 with hk | hk
        · exact hclosed _ hk d hd
        · exact List.mem_append_left _ (h.backed_all hcol _ hk d hd)
  · have hcol' : (g.memoize visited).collection = none := by rw [hsame, hcol]
    exact absurd hcol' hc

omit [DecidableEq C] in
theorem Inv.lead (h : Inv N g) (hp : g.pending ≠ []) :
    Inv N { g with pending := [], writing := some (.taken g.pending) } :=
  ⟨⟨h.root, h.disks, h.unread, h.missing⟩, h.children, h.stubbed, h.backed,
    fun _ hp => absurd hp List.not_mem_nil, h.pending,
    fun hc => absurd (h.collection_none (.inl hp)) hc, h.collection, h.paging⟩

omit [DecidableEq C] in
/-- A write that ends without its batch going in changes nothing. -/
theorem Inv.failWrite (h : Inv N g) (failed : Bool) (hw : g.writing ≠ none) :
    Inv N { g with writing := none, failed } :=
  ⟨⟨h.root, h.disks, h.unread, h.missing⟩, h.children, h.stubbed, h.backed, h.pending, trivial,
    fun hc => absurd (h.collection_none (.inr hw)) hc, h.collection, h.paging⟩

omit [DecidableEq C] in
/-- A group's batch goes in with the root its last stage left. -/
theorem Inv.batch (h : Inv N g) {group : List (StagedWrite C)}
    (hw : g.writing = some (.taken group)) :
    Inv N { g with
      nodes := g.nodes ++ group.flatMap StagedWrite.nodes
      root := (group.getLast?.map StagedWrite.root).getD g.root
      disks := g.disks ++ [(g.nodes ++ group.flatMap StagedWrite.nodes,
        (group.getLast?.map StagedWrite.root).getD g.root)]
      writing := some (.batched (group.flatMap StagedWrite.nodes)) } := by
  have hcol := h.collection_none (.inr (by rw [hw]; simp))
  have hgrow : ∀ k ∈ g.nodes, k ∈ g.nodes ++ group.flatMap StagedWrite.nodes :=
    fun k hk => List.mem_append_left _ hk
  have hwrite := h.writing
  rw [hw] at hwrite
  have hmember : ∀ p ∈ group,
      N.Closed (g.nodes ++ group.flatMap StagedWrite.nodes) (p.nodes ++ p.root) := by
    intro p hp
    refine (hwrite p hp).mono fun k hk => ?_
    rcases List.mem_append.1 hk with hk | hk
    · exact hgrow k hk
    · exact List.mem_append_right _ (List.mem_flatMap.2 ⟨p, hp, hk⟩)
  have hroot : N.Closed (g.nodes ++ group.flatMap StagedWrite.nodes)
      ((group.getLast?.map StagedWrite.root).getD g.root) := by
    cases hlast : group.getLast? with
    | none => exact h.root.mono hgrow
    | some p =>
      exact fun r hr => hmember p (List.mem_of_getLast? hlast) r (List.mem_append_right _ hr)
  refine ⟨⟨hroot, fun d hd => ?_, fun i n hn hr => (h.unread i n hn hr).mono hgrow, h.missing⟩,
    h.children, h.stubbed, fun k hk hsw => (h.backed k hk hsw).mono hgrow, fun p hp => ?_, ?_,
    fun hc => absurd hcol hc, ?_, h.paging⟩
  · rcases List.mem_append.1 hd with hd | hd
    · exact h.disks d hd
    · obtain rfl := List.mem_singleton.1 hd
      exact hroot
  · refine (h.pending p hp).mono fun k hk => ?_
    rcases List.mem_append.1 hk with hk | hk
    · exact List.mem_append_left _ (hgrow k hk)
    · exact List.mem_append_right _ hk
  · intro k hk
    obtain ⟨p, hp, hk⟩ := List.mem_flatMap.1 hk
    exact hmember p hp k (List.mem_append_left _ hk)
  · show CollectionOk N _ g.collection
    rw [hcol]
    trivial

omit [DecidableEq C] in
/-- What reached the disk is all a crash can recover. -/
theorem Inv.settled (h : Inv N g) : Inv N { g with disks := [(g.nodes, g.root)] } := by
  refine ⟨⟨h.root, fun d hd => ?_, h.unread, h.missing⟩, h.children, h.stubbed, h.backed, h.pending,
    h.writing, h.quiet, h.collection, h.paging⟩
  obtain rfl := List.mem_singleton.1 hd
  exact h.root

end Writes

/-! ## Collection -/

section Collect

variable {N : Nodes C} {g : Granfilade C}

/-- A collection's roots are closed, and nothing still on disk is left out. -/
theorem Inv.gc (h : Inv N g) (hcol : g.collection = none) (hp : g.pending = [])
    (hw : g.writing = none) :
    Inv N { g with
      remembered := g.remembered.filter g.unread
      collection := some (.marking (g.root ++ g.keysOf (g.remembered.filter g.unread))) } := by
  have hmem : ∀ i n, g.node i = some n → n.resident = false → i ∈ g.remembered.filter g.unread :=
    fun i n hn hr => List.mem_filter.2 ⟨(h.stubbed i n hn hr).2.2, unread_iff.2 ⟨n, hn, hr⟩⟩
  refine ⟨⟨h.root, h.disks, h.unread, h.missing⟩, h.children, fun i n hn hr => ?_, fun k hk _ => ?_,
    h.pending, h.writing, fun _ => ⟨hp, hw⟩, ⟨fun r hr => ?_, fun r hr => List.mem_append_left _ hr,
      fun i n hn hr => ⟨n.key, ?_, .refl⟩⟩, h.paging⟩
  · obtain ⟨h₁, h₂, -⟩ := h.stubbed i n hn hr
    exact ⟨h₁, h₂, hmem i n hn hr⟩
  · exact h.backed k hk (by simp [sweptKeys_none hcol])
  · rcases List.mem_append.1 hr with hr | hr
    · exact h.root r hr
    · obtain ⟨i, hi, n, hn, rfl⟩ := mem_keysOf.1 hr
      obtain ⟨m, hm, hres⟩ := unread_iff.1 (List.mem_filter.1 hi).2
      obtain rfl := Option.some.inj (hm.symm.trans hn)
      exact h.unread i m hn hres m.key List.mem_cons_self
  · exact List.mem_append_right _ (mem_keysOf.2 ⟨i, hmem i n hn hr, n, hn, rfl⟩)

variable [DecidableEq C]

/-- A sweep takes what neither the root record nor a node still on disk reaches. -/
theorem Inv.sweep (h : Inv N g) {roots : List C} (hcol : g.collection = some (.marking roots)) :
    Inv N { g with
      nodes := g.nodes.filter (· ∈ N.mark g.nodes roots)
      disks := g.disks ++ [(g.nodes.filter (· ∈ N.mark g.nodes roots), g.root)]
      collection := some (.swept (g.nodes.filter (· ∉ N.mark g.nodes roots))) } := by
  have hc := h.collection
  rw [hcol] at hc
  obtain ⟨hclosed, hroot, hunread⟩ := hc
  have hquiet := h.quiet (by rw [hcol]; simp)
  have hkept := Nodes.closed_sweep hclosed
  have hroot' : N.Closed (g.nodes.filter (· ∈ N.mark g.nodes roots)) g.root :=
    fun r hr => hkept r (hroot r hr)
  refine ⟨⟨hroot', fun d hd => ?_, fun i n hn hr => ?_, h.missing⟩, h.children, h.stubbed,
    fun k hk hsw => ?_, ?_, ?_, fun _ => hquiet, ?_, h.paging⟩
  · rcases List.mem_append.1 hd with hd | hd
    · exact h.disks d hd
    · obtain rfl := List.mem_singleton.1 hd
      exact hroot'
  · obtain ⟨r, hr', hrn⟩ := hunread i n hn hr
    exact hkept.of_reaches hr' hrn
  · -- a key still counted as stored and not swept was marked, so all it reaches was
    have hback := h.backed k hk (by rw [sweptKeys, hcol]; simp)
    have hmem : k ∈ g.nodes := hback k List.mem_cons_self k .refl
    have hmark : k ∈ N.mark g.nodes roots := by
      by_contra hnot
      exact hsw (List.mem_filter.2 ⟨hmem, decide_eq_true hnot⟩)
    obtain ⟨r, hr, hrk⟩ := (Nodes.mem_mark hclosed).1 hmark
    exact hkept.of_reaches hr hrk
  · intro p hp
    exact absurd hp (by rw [show g.pending = [] from hquiet.1]; simp)
  · show WritingOk N _ g.writing
    rw [hquiet.2]
    trivial
  · intro k hk hk'
    exact of_decide_eq_true (List.mem_filter.1 hk).2 (of_decide_eq_true (List.mem_filter.1 hk').2)

omit [DecidableEq C] in
/-- A collection that ends as it found the count. -/
theorem Inv.endCollection (h : Inv N g) (hsw : ∀ k ∈ g.sweptKeys, k ∉ g.present) :
    Inv N { g with collection := none } :=
  ⟨⟨h.root, h.disks, h.unread, h.missing⟩, h.children, h.stubbed,
    fun k hk _ => h.backed k hk fun hk' => hsw k hk' hk, h.pending, h.writing,
    fun hc => absurd rfl hc, trivial, h.paging⟩

/-- A settled collection takes what it swept off the count. -/
theorem Inv.settle (h : Inv N g) {keys : List C} (hcol : g.collection = some (.swept keys)) :
    Inv N { g with present := g.present.filter (· ∉ keys), collection := none } := by
  have hgone := h.collection
  rw [hcol] at hgone
  have hsw : g.sweptKeys = keys := by rw [sweptKeys, hcol]
  refine ⟨⟨h.root, h.disks, h.unread, h.missing⟩, h.children, fun i n hn hr => ?_,
    fun k hk _ => ?_, h.pending, h.writing, fun hc => absurd rfl hc, trivial, h.paging⟩
  · obtain ⟨h₁, h₂, h₃⟩ := h.stubbed i n hn hr
    have hmem := h.unread i n hn hr n.key List.mem_cons_self n.key .refl
    exact ⟨h₁, List.mem_filter.2 ⟨h₂, decide_eq_true fun hk => hgone _ hk hmem⟩, h₃⟩
  · obtain ⟨hk, hnot⟩ := List.mem_filter.1 hk
    exact h.backed k hk (hsw ▸ of_decide_eq_true hnot)

/-- **Every action keeps the count right**, unless a collection goes home early. -/
theorem step_inv {g' : Granfilade C} {a : GranAction C} (h : Inv N g) (hs : g.Spares a)
    (hstep : g.step N a = some g') : Inv N g' := by
  cases a with
  | build key children =>
    simp only [step, Option.ite_none_right_eq_some, Option.some.injEq] at hstep
    obtain ⟨hch, rfl⟩ := hstep
    exact (h.build false hch).hold _
  | hold i =>
    obtain ⟨n, -, rfl⟩ := Option.map_eq_some_iff.1 hstep
    exact h.hold _
  | drop i =>
    simp only [step, Option.ite_none_right_eq_some, Option.some.injEq] at hstep
    obtain ⟨-, rfl⟩ := hstep
    exact h.hold _
  | free i =>
    simp only [step, Option.ite_none_right_eq_some, Option.some.injEq] at hstep
    obtain ⟨hi, rfl⟩ := hstep
    exact h.free hi
  | contentKey i =>
    obtain rfl := Option.some.inj hstep
    exact h.memoize _
  | read i =>
    obtain ⟨n, hn, hstep⟩ := Option.bind_eq_some_iff.1 hstep
    split at hstep
    · cases hstep
    · rename_i hcond
      have hres : n.resident = false := by
        simp only [Bool.or_eq_true, not_or, Bool.not_eq_true] at hcond
        exact hcond.1
      -- what is still on disk is there to be read
      have hmem := h.unread i n hn hres n.key List.mem_cons_self n.key .refl
      rw [if_pos hmem] at hstep
      obtain rfl := Option.some.inj hstep
      exact h.read hn hres
  | decode i =>
    obtain ⟨n, hn, hstep⟩ := Option.bind_eq_some_iff.1 hstep
    simp only [Option.ite_none_right_eq_some, Option.some.injEq] at hstep
    obtain ⟨hi, rfl⟩ := hstep
    obtain ⟨m, hm, hres⟩ := unread_iff.1 (h.paging i hi)
    obtain rfl := Option.some.inj (hm.symm.trans hn)
    exact h.decode hn hres
  | stage roots =>
    simp only [step, Bool.and_eq_true, Option.isNone_iff_eq_none, Option.ite_none_right_eq_some,
      Option.some.injEq] at hstep
    obtain ⟨⟨⟨hcol, -⟩, -⟩, rfl⟩ := hstep
    exact h.stage hcol
  | lead =>
    simp only [step, Bool.and_eq_true, Option.ite_none_right_eq_some, Option.some.injEq] at hstep
    obtain ⟨⟨-, hp⟩, rfl⟩ := hstep
    exact h.lead (by simpa using hp)
  | batch ok =>
    simp only [step] at hstep
    split at hstep
    · rename_i group hw
      split at hstep
      · obtain rfl := Option.some.inj hstep
        exact h.batch hw
      · obtain rfl := Option.some.inj hstep
        exact h.failWrite true (by rw [hw]; simp)
    · cases hstep
  | sync ok =>
    simp only [step] at hstep
    split at hstep
    · rename_i written hw
      have hwrite := h.writing
      rw [hw] at hwrite
      split at hstep
      · obtain rfl := Option.some.inj hstep
        have hknown : Inv N { g with present := g.present ++ written } :=
          h.know (fun k hk => List.mem_append_left _ hk) fun k hk hsw =>
            (List.mem_append.1 hk).elim (h.backed k · hsw) fun hk => hwrite.of_reaches hk .refl
        exact hknown.settled.failWrite g.failed (by simp [hw])
      · obtain rfl := Option.some.inj hstep
        exact h.failWrite true (by rw [hw]; simp)
    · cases hstep
  | gc =>
    simp only [step, Bool.and_eq_true, Option.isNone_iff_eq_none, List.isEmpty_iff,
      Option.ite_none_right_eq_some, Option.some.injEq] at hstep
    obtain ⟨⟨⟨⟨hcol, hp⟩, hw⟩, -⟩, rfl⟩ := hstep
    exact h.gc hcol hp hw
  | sweep ok =>
    simp only [step] at hstep
    split at hstep
    · rename_i roots hcol
      split at hstep
      · obtain rfl := Option.some.inj hstep
        exact h.sweep hcol
      · obtain rfl := Option.some.inj hstep
        exact h.endCollection (by rw [sweptKeys, hcol]; simp)
    · cases hstep
  | settle ok =>
    simp only [step] at hstep
    split at hstep
    · rename_i keys hcol
      cases ok with
      | true =>
        obtain rfl := Option.some.inj hstep
        exact (h.settle hcol).settled
      | false =>
        obtain rfl := Option.some.inj hstep
        exact h.endCollection hs
    · cases hstep
  | reopen d =>
    obtain ⟨disk, hd, rfl⟩ := Option.map_eq_some_iff.1 hstep
    exact inv_opened (h.disks disk (List.mem_of_getElem? hd))

end Collect

/-! ## Runs -/

section Runs

variable [DecidableEq C] (N : Nodes C)

instance (g : Granfilade C) : (a : GranAction C) → Decidable (g.Spares a)
  | .settle false => inferInstanceAs (Decidable (∀ k ∈ g.sweptKeys, k ∉ g.present))
  | .settle true | .build .. | .hold _ | .drop _ | .free _ | .contentKey _ | .read _ | .decode _
  | .stage _ | .lead | .batch _ | .sync _ | .gc | .sweep _ | .reopen _ => isTrue trivial

/-- A run none of whose actions breaks the count. -/
def SparingRun : Granfilade C → List (GranAction C) → Prop
  | _, [] => True
  | g, a :: as => g.Spares a ∧ ∀ g' ∈ g.step N a, SparingRun g' as

instance SparingRun.decide : (g : Granfilade C) → (as : List (GranAction C)) →
    Decidable (SparingRun N g as)
  | _, [] => isTrue trivial
  | g, a :: as =>
      match h : g.step N a with
      | none => decidable_of_iff (g.Spares a) (by simp [SparingRun, h])
      | some g' =>
          have := SparingRun.decide g' as
          decidable_of_iff (g.Spares a ∧ SparingRun N g' as) (by simp [SparingRun, h])

variable {N}

theorem run_inv {as : List (GranAction C)} {g g' : Granfilade C} (h : Inv N g)
    (hs : SparingRun N g as) (hrun : g.run N as = some g') : Inv N g' := by
  induction as generalizing g with
  | nil =>
    obtain rfl := Option.some.inj hrun
    exact h
  | cons a as ih =>
    obtain ⟨g₁, hstep, hrun⟩ := Option.bind_eq_some_iff.1 hrun
    exact ih (step_inv h hs.1 hstep) (hs.2 g₁ hstep) hrun

end Runs

end Granfilade

open Granfilade

/-- **Collection is safe.** In every interleaving of building, paging, staging,
writing, collecting and reopening, as long as no sweep of a key counted as stored
fails to sync, the root record and whatever a crash would recover have all they
reach in store, so has every node in memory still on disk, and no read meets a
missing node. -/
theorem collection_safe {C : Type} [DecidableEq C] {N : Nodes C} {as : List (GranAction C)}
    {g : Granfilade C} (hs : SparingRun N empty as) (hrun : empty.run N as = some g) :
    Safe N g := by
  have hstart : Inv N (opened N [] []) := inv_opened fun r hr => by cases hr
  exact (run_inv hstart hs hrun).toSafe

/-- Two leaves and a node over the first. -/
def threeNodes : Nodes Nat where
  refs c := if c = 3 then [1] else []
  depth c := if c = 3 then 1 else 0
  depth_lt := by
    intro c d hd
    split at hd
    · rename_i hc
      obtain rfl := List.mem_singleton.1 hd
      simp [hc]
    · cases hd

/-- A tree written, reopened, and paged in while a collection runs. -/
def pagedRun : List (GranAction Nat) :=
  [.build 1 [], .build 3 [0], .stage [1], .lead, .batch true, .sync true, .reopen 0, .gc, .read 0,
    .sweep true, .decode 0, .settle false]

theorem collection_safe_paged :
    ∃ g, empty.run threeNodes pagedRun = some g ∧ Safe threeNodes g :=
  ⟨_, rfl, @collection_safe Nat _ threeNodes pagedRun _ (by decide) rfl⟩

/-- A sweep takes a node a handle still holds, its sync fails, and the handle's next
write skips the node: the root record names a missing node. -/
theorem collection_unsafe :
    ¬ ∀ (as : List (GranAction Nat)) (g : Granfilade Nat), empty.run threeNodes as = some g →
      Safe threeNodes g := by
  intro h
  have hsafe := h [.build 1 [], .stage [0], .lead, .batch true, .sync true, .build 2 [],
    .stage [1], .lead, .batch true, .sync true, .gc, .sweep true, .settle false, .stage [0], .lead,
    .batch true] _ rfl
  exact absurd (hsafe.root 1 List.mem_cons_self 1 .refl) (by decide)

end Grmpl

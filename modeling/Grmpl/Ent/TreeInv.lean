import Grmpl.Ent.LeafWrites
import Grmpl.Ent.Tree
import Grmpl.Lib.Forest

/-!
# What a tree holds, and when it is well formed

The meaning of a tree is its *slots*: every key under it in its handle's frame,
with the value of a row and nothing for a key a hole reserves. `Node p h U t`
says that `t` is a well-formed subtree of height `h` whose keys and separators
all satisfy `U`; it is about every frame on the way down, so a displacement that
keeps the order of `U` carries a well-formed tree to a well-formed tree.

* `Tree.slotsAt`, `Tree.slots`, `Tree.stored`: the meaning.
* `Shift`: a displacement that keeps the order of a set of keys.
* `Tree.Node`: well-formedness; `p` asks for leaves of plain rows.
* `Tree.Node.opened`: a well-formed node seen in its parent's frame.
-/

open OrdMap Separated

namespace Grmpl

namespace Tree

section Handles

variable {K V M : Type}

@[simp] theorem relocate_zero (t : Tree K V M) : t.relocate 0 = t := by
  cases t <;> simp [relocate]

@[simp] theorem relocate_relocate (t : Tree K V M) (a b : Dsp) :
    (t.relocate a).relocate b = t.relocate (a + b) := by
  cases t <;> simp [relocate, Int64.add_assoc]

@[simp] theorem underflows_relocate (t : Tree K V M) (d : Dsp) :
    (t.relocate d).underflows = t.underflows := by
  cases t <;> rfl

@[simp] theorem depth_relocate (t : Tree K V M) (d : Dsp) : (t.relocate d).depth = t.depth := by
  cases t <;> simp [relocate, depth]

@[simp] theorem height_relocate (t : Tree K V M) (d : Dsp) :
    (t.relocate d).height = t.height := by
  cases t <;> simp [relocate, height]

@[simp] theorem isEmpty_relocate (t : Tree K V M) (d : Dsp) :
    (t.relocate d).isEmpty = t.isEmpty := by
  cases t <;> rfl

@[simp] theorem sum_relocate (t : Tree K V M) (d : Dsp) : (t.relocate d).sum = t.sum := by
  cases t <;> rfl

end Handles

section Slots

variable {K V M : Type} [Displace K]

mutual

/-- The slots under `t`, in the frame `off` carries its parent to. -/
def slotsAt : Tree K V M → Dsp → List (K × Option V)
  | nil, _ => []
  | nodeLeaf d _ items, off => Leaf.slots (items.map (·.displaced (off + d)))
  | nodeInternal d _ _ children, off => slotsList children (off + d)
  | nodeSplit d _ _ _ lo hi, off => slotsAt lo (off + d) ++ slotsAt hi (off + d)

def slotsList : List (Tree K V M) → Dsp → List (K × Option V)
  | [], _ => []
  | c :: cs, off => slotsAt c off ++ slotsList cs off

end

/-- The slots of a tree, in its handle's frame. -/
def slots (t : Tree K V M) : List (K × Option V) := slotsAt t 0

/-- The keys of a tree, rows and holes alike. -/
def keysOf (t : Tree K V M) : List K := (slots t).map Prod.fst

mutual

/-- Every key stored under `t`, separators included, in the frame `off` carries
its parent to. -/
def storedAt : Tree K V M → Dsp → List K
  | nil, _ => []
  | nodeLeaf d _ items, off => (Leaf.slots (items.map (·.displaced (off + d)))).map Prod.fst
  | nodeInternal d _ keys children, off =>
      keys.map (displace · (off + d)) ++ storedList children (off + d)
  | nodeSplit d _ _ pivot lo hi, off =>
      displace pivot (off + d) :: (storedAt lo (off + d) ++ storedAt hi (off + d))

def storedList : List (Tree K V M) → Dsp → List K
  | [], _ => []
  | c :: cs, off => storedAt c off ++ storedList cs off

end

/-- Every key stored in a tree, separators included, in its handle's frame. -/
def stored (t : Tree K V M) : List K := storedAt t 0

theorem slotsList_eq (cs : List (Tree K V M)) (off : Dsp) :
    slotsList cs off = cs.flatMap (slotsAt · off) := by
  induction cs with
  | nil => rfl
  | cons c cs ih => simp [slotsList, ih]

theorem storedList_eq (cs : List (Tree K V M)) (off : Dsp) :
    storedList cs off = cs.flatMap (storedAt · off) := by
  induction cs with
  | nil => rfl
  | cons c cs ih => simp [storedList, ih]

theorem dsp_off (off d e : Dsp) : off + (e + d) = off + d + e := by
  rw [Int64.add_assoc, Int64.add_comm e]

/-- A relocated tree read at an offset is the tree read at the sum. -/
theorem slotsAt_relocate (t : Tree K V M) (d off : Dsp) :
    slotsAt (t.relocate d) off = slotsAt t (off + d) := by
  cases t <;> simp only [relocate, slotsAt, dsp_off]

theorem slots_relocate (t : Tree K V M) (d : Dsp) : slots (t.relocate d) = slotsAt t d := by
  rw [slots, slotsAt_relocate, Int64.zero_add]

end Slots

/-! ## Displacements that keep order -/

section Shift

variable {K : Type} [Displace K]

/-- Moving by `d` takes the keys in `U` into `U'` and keeps their order. -/
structure Shift (d : Dsp) (U U' : K → Prop) : Prop where
  maps : ∀ k, U k → U' (displace k d)
  lt : ∀ a b, U a → U b → a < b → displace a d < displace b d

variable {d e : Dsp} {U U' U'' : K → Prop}

theorem Shift.zero (h : ∀ k, U k → U' k) : Shift 0 U U' :=
  ⟨by simpa using h, by simp⟩

theorem Shift.comp (h : Shift d U U') (h' : Shift e U' U'') : Shift (d + e) U U'' where
  maps k hk := by simpa using h'.maps _ (h.maps k hk)
  lt a b ha hb hab := by simpa using h'.lt _ _ (h.maps a ha) (h.maps b hb) (h.lt a b ha hb hab)

theorem Shift.mono {V V' : K → Prop} (h : Shift d U U') (hV : ∀ k, V k → U k)
    (hV' : ∀ k, V k → V' (displace k d)) : Shift d V V' :=
  ⟨hV', fun a b ha hb => h.lt a b (hV a ha) (hV b hb)⟩

end Shift

/-! ## Well-formed trees -/

variable {K V M : Type} [Displace K] [Measure K V M]

/-- A leaf's items are well formed and some; plain ones fit the arity. -/
structure LeafOk (p : Bool) (items : List (Item K V)) : Prop where
  ne_nil : items ≠ []
  ok : Leaf.Ok items
  plain : p = true → Leaf.Plain items ∧ items.length ≤ arityB

/-- `t` is a well-formed subtree of height `h`, its keys and separators all in
`U`: the caches are those of its contents, its displacement keeps the order of
what lies under it, and every node below the root is full enough. -/
def Node (p : Bool) : Nat → (K → Prop) → Tree K V M → Prop
  | h + 1, U, nodeLeaf d s items =>
      h = 0 ∧ LeafOk p items ∧ s = leafSummary items ∧
        ∃ U', Shift d U' U ∧ ∀ e ∈ Leaf.slots items, U' e.1
  | h + 1, U, nodeInternal d s keys children =>
      2 ≤ children.length ∧ children.length ≤ arityB ∧ s = childSummary children ∧
        ∃ U', Shift d U' U ∧ (∀ k ∈ keys, U' k) ∧
          Forest (Fits (fun c => Node p h U' c ∧ c.underflows = false) keysOf) none none keys children
  | _, _, _ => False

/-- A child of a node of height `h + 1` with keys in `U`. -/
abbrev Child (p : Bool) (h : Nat) (U : K → Prop) :
    Option K → Option K → Tree K V M → Prop :=
  Fits (fun c => Node p h U c ∧ c.underflows = false) keysOf

variable {p : Bool} {h : Nat} {U U' : K → Prop} {t : Tree K V M}

/-- A displacement that keeps the order of a tree's keys keeps it well formed. -/
theorem Node.relocate {d : Dsp} (ht : Node p h U t) (hd : Shift d U U') :
    Node p h U' (t.relocate d) := by
  cases h with
  | zero => cases t <;> exact ht
  | succ h =>
    cases t with
    | nil => exact ht
    | nodeLeaf e s items =>
      obtain ⟨rfl, hok, hs, W, hW, hkeys⟩ := ht
      exact ⟨rfl, hok, hs, W, hW.comp hd, hkeys⟩
    | nodeInternal e s keys children =>
      obtain ⟨h2, hB, hs, W, hW, hkeys, hch⟩ := ht
      exact ⟨h2, hB, hs, W, hW.comp hd, hkeys, hch⟩
    | nodeSplit e s col pivot lo hi => exact ht

theorem Node.mono (ht : Node p h U t) (hU : ∀ k, U k → U' k) : Node p h U' t := by
  simpa using ht.relocate (Shift.zero hU)

theorem Node.leaf {items : List (Item K V)} (hok : LeafOk p items)
    (hU : ∀ e ∈ Leaf.slots items, U e.1) : Node p 1 U (leaf items : Tree K V M) :=
  ⟨rfl, hok, rfl, U, Shift.zero fun _ hk => hk, hU⟩

theorem Node.internal {keys : List K} {children : List (Tree K V M)} (h2 : 2 ≤ children.length)
    (hB : children.length ≤ arityB) (hU : ∀ k ∈ keys, U k)
    (hch : Forest (Child p h U) none none keys children) :
    Node p (h + 1) U (internal keys children) :=
  ⟨h2, hB, rfl, U, Shift.zero fun _ hk => hk, hU, hch⟩

/-- A tree that is empty, or well formed at some height. -/
def Sound (p : Bool) (U : K → Prop) (t : Tree K V M) : Prop :=
  t = Tree.nil ∨ ∃ h, Node p h U t

theorem Sound.nil : Sound p U (Tree.nil : Tree K V M) := Or.inl rfl

theorem Node.sound (ht : Node p h U t) : Sound p U t := Or.inr ⟨h, ht⟩

omit [Measure K V M] in
@[simp] theorem slots_nil : slots (Tree.nil : Tree K V M) = [] := rfl

theorem Node.isEmpty (ht : Node p h U t) : t.isEmpty = false := by
  cases h <;> cases t <;> first | rfl | exact ht.elim

/-- A well-formed tree's slots move with it. -/
theorem Node.slotsAt_add (ht : Node p h U t) (off d : Dsp) :
    slotsAt t (off + d) = (slotsAt t off).map fun e => (displace e.1 d, e.2) := by
  induction h generalizing U t off d with
  | zero => cases t <;> exact ht.elim
  | succ h ih =>
    cases t with
    | nil => exact ht.elim
    | nodeLeaf e s items =>
      obtain ⟨-, hok, -⟩ := ht
      simp only [slotsAt, Leaf.slots_displaced hok.ok.items_ok, List.map_map]
      refine List.map_congr_left fun x _ => ?_
      simp only [Function.comp_apply, Displace.displace_displace]
      rw [Int64.add_assoc, Int64.add_comm d, ← Int64.add_assoc]
    | nodeInternal e s keys children =>
      obtain ⟨-, -, -, W, -, -, hch⟩ := ht
      simp only [slotsAt, slotsList_eq, List.map_flatMap]
      refine List.flatMap_congr fun c hc => ?_
      obtain ⟨_, _, ⟨hcN, -⟩, -⟩ := hch.of_mem c hc
      rw [← ih hcN, Int64.add_assoc, Int64.add_comm d, ← Int64.add_assoc]
    | nodeSplit e s col pivot lo hi => exact ht.elim

theorem Node.slots_relocate (ht : Node p h U t) (d : Dsp) :
    slots (t.relocate d) = (slots t).map fun e => (displace e.1 d, e.2) := by
  rw [Tree.slots_relocate, slots, ← ht.slotsAt_add, Int64.zero_add]

theorem Node.keysOf_relocate (ht : Node p h U t) (d : Dsp) :
    keysOf (t.relocate d) = (keysOf t).map (displace · d) := by
  rw [keysOf, ht.slots_relocate, keysOf, List.map_map, List.map_map]
  rfl



/-- Every key of a well-formed tree is in the set it is about. -/
theorem Node.keys (ht : Node p h U t) : ∀ k ∈ keysOf t, U k := by
  induction h generalizing U t with
  | zero => cases t <;> exact ht.elim
  | succ h ih =>
    cases t with
    | nil => exact ht.elim
    | nodeLeaf e s items =>
      obtain ⟨-, hok, -, W, hW, hkeys⟩ := ht
      intro k hk
      rw [keysOf, slots, slotsAt, Leaf.slots_displaced hok.ok.items_ok, Int64.zero_add] at hk
      simp only [List.map_map, List.mem_map, Function.comp_apply] at hk
      obtain ⟨x, hx, rfl⟩ := hk
      exact hW.maps _ (hkeys x hx)
    | nodeInternal e s keys children =>
      obtain ⟨-, -, -, W, hW, -, hch⟩ := ht
      intro k hk
      simp only [keysOf, slots, slotsAt, slotsList_eq, List.map_flatMap, List.mem_flatMap] at hk
      obtain ⟨c, hc, hk⟩ := hk
      obtain ⟨_, _, ⟨hcN, -⟩, -⟩ := hch.of_mem c hc
      refine ih (hcN.relocate hW) k ?_
      rwa [keysOf, Tree.slots_relocate, ← Int64.zero_add e]
    | nodeSplit e s col pivot lo hi => exact ht.elim

/-- A well-formed node seen in its parent's frame: a leaf of well-formed items,
or children between separators. -/
inductive Shape (p : Bool) (U : K → Prop) : Nat → Tree K V M → Prop where
  | leaf {t items} : t.opened = .leaf items → LeafOk p items → slots t = Leaf.slots items →
      (∀ e ∈ Leaf.slots items, U e.1) → t.underflows = decide (items.length < minB) →
      Shape p U 1 t
  | internal {t h ks ch} : t.opened = .internal ks ch → 2 ≤ ch.length → ch.length ≤ arityB →
      (∀ k ∈ ks, U k) → Forest (Child p h U) none none ks ch → slots t = ch.flatMap slots →
      t.underflows = decide (ch.length < minB) → Shape p U (h + 1) t

theorem Node.shape (ht : Node p h U t) : Shape p U h t := by
  cases h with
  | zero => cases t <;> exact ht.elim
  | succ h =>
    cases t with
    | nil => exact ht.elim
    | nodeLeaf e s items =>
      obtain ⟨rfl, hok, -, W, hW, hkeys⟩ := ht
      have hslots := Leaf.slots_displaced hok.ok.items_ok e
      refine .leaf rfl ⟨by simpa using hok.ne_nil, ⟨?_, ?_⟩, fun hp => ?_⟩ ?_ ?_ ?_
      · intro it hit
        obtain ⟨x, hx, rfl⟩ := List.mem_map.1 hit
        exact (hok.ok.items_ok x hx).displaced e
      · rw [hslots, Sorted, List.pairwise_map]
        exact hok.ok.sorted.imp_of_mem fun ha hb hab => hW.lt _ _ (hkeys _ ha) (hkeys _ hb) hab
      · exact ⟨(hok.plain hp).1.displaced e, by simpa using (hok.plain hp).2⟩
      · rw [slots, slotsAt, Int64.zero_add]
      · rw [hslots]
        intro x hx
        obtain ⟨y, hy, rfl⟩ := List.mem_map.1 hx
        exact hW.maps _ (hkeys y hy)
      · simp [underflows]
    | nodeInternal e s keys children =>
      obtain ⟨h2, hB, -, W, hW, hkeys, hch⟩ := ht
      have hcN : ∀ c ∈ children, Node p h W c ∧ c.underflows = false := fun c hc => by
        obtain ⟨_, _, hQ, _⟩ := hch.of_mem c hc
        exact hQ
      refine .internal rfl (by simpa using h2) (by simpa using hB) ?_ ?_ ?_ ?_
      · intro k hk
        obtain ⟨x, hx, rfl⟩ := List.mem_map.1 hk
        exact hW.maps x (hkeys x hx)
      · exact hch.map hW.lt (by simp) (by simp) hkeys (fun c hc => (hcN c hc).1.keys)
          (fun c _ hQ => ⟨hQ.1.relocate hW, by simpa using hQ.2⟩)
          fun c _ hQ => hQ.1.keysOf_relocate e
      · simp [slots, slotsAt, slotsList_eq, List.flatMap_map, slotsAt_relocate]
      · simp [underflows]
    | nodeSplit e s col pivot lo hi => exact ht.elim

theorem Node.slots_ne_nil (ht : Node p h U t) : slots t ≠ [] := by
  cases ht.shape with
  | @leaf _ items _ hok hs _ _ =>
    obtain ⟨it, hit⟩ := List.exists_mem_of_ne_nil _ hok.ne_nil
    obtain ⟨w, hw⟩ := Item.loKey_mem_slots (hok.ok.items_ok it hit)
    rw [hs]
    exact List.ne_nil_of_mem (Leaf.mem_slots.2 ⟨it, hit, hw⟩)
  | @internal _ h ks ch _ h2 _ _ hch hs _ =>
    obtain ⟨c, hc⟩ := List.exists_mem_of_length_pos (show 0 < ch.length by omega)
    obtain ⟨_, _, -, hne, -⟩ := hch.of_mem c hc
    obtain ⟨k, hk⟩ := List.exists_mem_of_ne_nil _ hne
    obtain ⟨e, he, -⟩ := List.mem_map.1 hk
    rw [hs]
    exact List.ne_nil_of_mem (List.mem_flatMap.2 ⟨c, hc, he⟩)

/-- Slots ascend strictly, in the handle's frame. -/
theorem Node.sorted (ht : Node p h U t) : Sorted (slots t) := by
  induction h generalizing t with
  | zero => cases t <;> exact ht.elim
  | succ h ih =>
    cases ht.shape with
    | leaf _ hok hs _ _ => exact hs ▸ hok.ok.sorted
    | @internal _ _ ks ch _ _ _ _ hch hs _ =>
      have hall : (ch.flatMap keysOf).Pairwise (· < ·) := hch.sorted fun c hc => by
        obtain ⟨_, _, ⟨hcN, -⟩, -⟩ := hch.of_mem c hc
        exact List.pairwise_map.2 (ih hcN)
      rw [hs, Sorted]
      have : (ch.flatMap slots).map Prod.fst = ch.flatMap keysOf := by
        rw [List.map_flatMap]
        rfl
      exact List.pairwise_map.1 (this ▸ hall)

/-! ## Levels -/

omit [Displace K] [Measure K V M] in
theorem depthList_eq {n : Nat} {cs : List (Tree K V M)} (hne : cs ≠ [])
    (hd : ∀ c ∈ cs, c.depth = n) : depthList cs = n := by
  induction cs with
  | nil => exact absurd rfl hne
  | cons c cs ih =>
    have hc := hd c (by simp)
    cases cs with
    | nil => simp [depthList, hc]
    | cons d ds =>
      have htl := ih (by simp) fun x hx => hd x (by simp [hx])
      rw [depthList, htl, hc, Nat.max_self]

/-- Every leaf of a well-formed tree is at the same depth. -/
theorem Node.depth_eq (ht : Node p h U t) : t.depth = h ∧ t.height = h := by
  induction h generalizing U t with
  | zero => cases t <;> exact ht.elim
  | succ h ih =>
    cases t with
    | nil => exact ht.elim
    | nodeLeaf e s items =>
      obtain ⟨rfl, -⟩ := ht
      exact ⟨rfl, rfl⟩
    | nodeInternal e s keys children =>
      obtain ⟨h2, -, -, W, -, -, hch⟩ := ht
      have hall : ∀ c ∈ children, c.depth = h ∧ c.height = h := fun c hc =>
        let ⟨_, _, ⟨hcN, _⟩, _⟩ := hch.of_mem c hc
        ih hcN
      obtain ⟨c, cs, rfl⟩ := List.exists_cons_of_length_pos (show 0 < children.length by omega)
      refine ⟨?_, ?_⟩
      · rw [depth, depthList_eq (by simp) fun x hx => (hall x hx).1]
      · rw [height, heightFirst, (hall c (by simp)).2]
    | nodeSplit e s col pivot lo hi => exact ht.elim

/-! ## Stored keys -/

theorem Node.storedAt_add (ht : Node p h U t) (off d : Dsp) :
    storedAt t (off + d) = (storedAt t off).map (displace · d) := by
  induction h generalizing U t off d with
  | zero => cases t <;> exact ht.elim
  | succ h ih =>
    cases t with
    | nil => exact ht.elim
    | nodeLeaf e s items =>
      have hslots := ht.slotsAt_add off d
      simp only [slotsAt] at hslots
      simp only [storedAt, hslots, List.map_map]
      rfl
    | nodeInternal e s keys children =>
      obtain ⟨-, -, -, W, -, -, hch⟩ := ht
      have hoff : off + d + e = off + e + d := by
        rw [Int64.add_assoc, Int64.add_comm d, ← Int64.add_assoc]
      simp only [storedAt, storedList_eq, List.map_append, List.map_map, List.map_flatMap, hoff]
      congr 1
      · exact List.map_congr_left fun k _ => by simp
      · refine List.flatMap_congr fun c hc => ?_
        obtain ⟨_, _, ⟨hcN, -⟩, -⟩ := hch.of_mem c hc
        exact ih hcN _ _
    | nodeSplit e s col pivot lo hi => exact ht.elim

/-- The set a well-formed tree is about can be cut down to what it stores. -/
theorem Node.of_stored (ht : Node p h U t) :
    Node p h (· ∈ stored t) t ∧ ∀ k ∈ stored t, U k := by
  induction h generalizing U t with
  | zero => cases t <;> exact ht.elim
  | succ h ih =>
    cases t with
    | nil => exact ht.elim
    | nodeLeaf e s items =>
      obtain ⟨rfl, hok, hs, W, hW, hkeys⟩ := ht
      have hstored : ∀ k, k ∈ stored (nodeLeaf e s items) ↔
          ∃ x ∈ Leaf.slots items, displace x.1 e = k := by
        intro k
        rw [stored, storedAt, Leaf.slots_displaced hok.ok.items_ok, Int64.zero_add]
        simp
      refine ⟨⟨rfl, hok, hs, fun k => ∃ x ∈ Leaf.slots items, x.1 = k, hW.mono ?_ ?_, ?_⟩, ?_⟩
      · rintro k ⟨x, hx, rfl⟩
        exact hkeys x hx
      · rintro k ⟨x, hx, rfl⟩
        exact (hstored _).2 ⟨x, hx, rfl⟩
      · exact fun x hx => ⟨x, hx, rfl⟩
      · intro k hk
        obtain ⟨x, hx, rfl⟩ := (hstored k).1 hk
        exact hW.maps _ (hkeys x hx)
    | nodeInternal e s keys children =>
      obtain ⟨h2, hB, hs, W, hW, hkeys, hch⟩ := ht
      have hcN : ∀ c ∈ children, Node p h W c := fun c hc =>
        let ⟨_, _, ⟨hcN, _⟩, _⟩ := hch.of_mem c hc
        hcN
      -- what the node stores in its own frame
      have hstored : stored (nodeInternal e s keys children)
          = (keys ++ children.flatMap stored).map (displace · e) := by
        rw [stored, storedAt, storedList_eq, Int64.zero_add, List.map_append, List.map_flatMap]
        congr 1
        refine List.flatMap_congr fun c hc => ?_
        rw [stored, ← (hcN c hc).storedAt_add, Int64.zero_add]
      have hall : ∀ c ∈ children, ∀ k ∈ stored c, k ∈ keys ++ children.flatMap stored :=
        fun c hc k hk => List.mem_append_right _ (List.mem_flatMap.2 ⟨c, hc, hk⟩)
      have hW' : ∀ k ∈ keys ++ children.flatMap stored, W k := by
        intro k hk
        rcases List.mem_append.1 hk with hk | hk
        · exact hkeys k hk
        · obtain ⟨c, hc, hk⟩ := List.mem_flatMap.1 hk
          exact (ih (hcN c hc)).2 k hk
      refine ⟨⟨h2, hB, hs, (· ∈ keys ++ children.flatMap stored), hW.mono hW' ?_, ?_, ?_⟩, ?_⟩
      · exact fun k hk => hstored ▸ List.mem_map_of_mem hk
      · exact fun k hk => List.mem_append_left _ hk
      · exact hch.mono fun lo hi c hc hfit =>
          ⟨⟨(ih (hcN c hc)).1.mono (hall c hc), hfit.1.2⟩, hfit.2⟩
      · intro k hk
        rw [hstored] at hk
        obtain ⟨x, hx, rfl⟩ := List.mem_map.1 hk
        exact hW.maps x (hW' x hx)
    | nodeSplit e s col pivot lo hi => exact ht.elim

/-! ## Caches -/

/-- A child's measure in its parent's frame is its measure: not displacing by `0`
is only a shortcut. -/
theorem childMeasure_eq [LawfulMeasure K V M] (c : Tree K V M) : c.childMeasure = c.measure := by
  unfold childMeasure measure
  split
  · rename_i m hd hm
    rw [hm, beq_iff_eq.1 hd]
    exact (LawfulMeasure.displace_zero m).symm
  · rfl

/-- The cached counts are the numbers of rows and of reserved keys. -/
theorem Node.len_eq (ht : Node p h U t) :
    t.len = (Leaf.rowsOf (slots t)).length ∧ t.len + t.reserved = (slots t).length := by
  suffices hoff : ∀ off, t.len = (Leaf.rowsOf (slotsAt t off)).length ∧
      t.len + t.reserved = (slotsAt t off).length from hoff 0
  induction h generalizing U t with
  | zero => cases t <;> exact ht.elim
  | succ h ih =>
    cases t with
    | nil => exact ht.elim
    | nodeLeaf e s items =>
      obtain ⟨-, hok, rfl, -⟩ := ht
      intro off
      obtain ⟨hrows, hall⟩ := Leaf.summary_counts M items
      rw [slotsAt, Leaf.slots_displaced hok.ok.items_ok, Leaf.rowsOf_displaced, List.length_map,
        List.length_map]
      exact ⟨hrows, hall⟩
    | nodeInternal e s keys children =>
      obtain ⟨-, -, rfl, W, -, -, hch⟩ := ht
      have hall : ∀ c ∈ children, ∀ off, c.len = (Leaf.rowsOf (slotsAt c off)).length ∧
          c.len + c.reserved = (slotsAt c off).length := fun c hc =>
        let ⟨_, _, ⟨hcN, _⟩, _⟩ := hch.of_mem c hc
        ih hcN
      intro off
      have hlen : len (nodeInternal e (childSummary children) keys children)
          = (children.map len).sum := rfl
      have hres : reserved (nodeInternal e (childSummary children) keys children)
          = (children.map reserved).sum := rfl
      rw [hlen, hres, slotsAt, slotsList_eq]
      clear hch hlen hres
      induction children with
      | nil => exact ⟨rfl, rfl⟩
      | cons c cs ihcs =>
        have hc := hall c (by simp) (off + e)
        have htl := ihcs fun d hd => hall d (by simp [hd])
        simp only [List.map_cons, List.sum_cons, List.flatMap_cons, Leaf.rowsOf_append,
          List.length_append]
        omega
    | nodeSplit e s col pivot lo hi => exact ht.elim

/-- The cached measure is that of the rows. -/
theorem Node.measure_eq [LawfulMeasure K V M] (ht : Node p h U t) :
    t.measure = Measure.ofEntries M (Leaf.rowsOf (slots t)) := by
  induction h generalizing U t with
  | zero => cases t <;> exact ht.elim
  | succ h ih =>
    cases t with
    | nil => exact ht.elim
    | nodeLeaf e s items =>
      obtain ⟨-, hok, rfl, -⟩ := ht
      rw [slots, slotsAt, Leaf.slots_displaced hok.ok.items_ok, Leaf.rowsOf_displaced,
        Measure.ofEntries_displace, ← Leaf.summary_measure hok.ok.items_ok, Int64.zero_add]
      rfl
    | nodeInternal e s keys children =>
      obtain ⟨-, -, rfl, W, -, -, hch⟩ := ht
      have hall : ∀ c ∈ children, c.childMeasure = Measure.ofEntries M (Leaf.rowsOf (slots c)) :=
        fun c hc => by
          obtain ⟨_, _, ⟨hcN, -⟩, -⟩ := hch.of_mem c hc
          exact (childMeasure_eq c).trans (ih hcN)
      have fold : ∀ (l : List (Tree K V M)) (acc : M),
          (∀ c ∈ l, c.childMeasure = Measure.ofEntries M (Leaf.rowsOf (slots c))) →
          l.foldl (fun m c => Measure.combine K V m c.childMeasure) acc
            = Measure.combine K V acc (Measure.ofEntries M (Leaf.rowsOf (l.flatMap slots))) := by
        intro l
        induction l with
        | nil => exact fun acc _ => (LawfulMeasure.combine_empty acc).symm
        | cons c l ihl =>
          intro acc hl
          rw [List.foldl_cons, ihl _ fun x hx => hl x (by simp [hx]), List.flatMap_cons,
            Leaf.rowsOf_append, Measure.ofEntries_append, hl c (by simp),
            LawfulMeasure.combine_assoc]
      have hown : slots (nodeInternal e (childSummary children) keys children)
          = (children.flatMap slots).map fun x => (displace x.1 e, x.2) := by
        rw [slots, slotsAt, slotsList_eq, List.map_flatMap]
        refine List.flatMap_congr fun c hc => ?_
        obtain ⟨_, _, ⟨hcN, -⟩, -⟩ := hch.of_mem c hc
        rw [slots, ← hcN.slotsAt_add]
      have hown' := fold children (Measure.empty K V) hall
      rw [LawfulMeasure.empty_combine] at hown'
      rw [hown, Leaf.rowsOf_displaced, Measure.ofEntries_displace, ← hown']
      rfl
    | nodeSplit e s col pivot lo hi => exact ht.elim

end Tree

end Grmpl

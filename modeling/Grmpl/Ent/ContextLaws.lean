import Grmpl.Ent.MergedContext

/-!
# Merged contexts are lawful

* `Context.Held`: what every context of a world keeps, one union of bindings after another.
* `contexts_lawful`: the laws hold on every branch of every run whose merges agree.
* `merged_apart`: a merge that does not, and the context it makes.
-/

open OrdMap Runs

namespace Grmpl

/-! ## Keys -/

namespace Context

theorem int_lt {a b : Int64} : (Value.int a : Value) < .int b ↔ a.toInt < b.toInt := by
  show Value.cmp _ _ = .lt ↔ _
  rw [Value.cmp, cmpInt, compare_lt_iff_lt]

theorem toInt_ofNat {n : Nat} (h : n < 2 ^ 63) : (Int64.ofNat n).toInt = n := by
  rw [Int64.toInt_ofNat', Int.bmod_eq_of_le] <;> (have : (Int64.size : Int) = 2 ^ 64 := rfl; omega)

variable {rel rel' : UInt32} {e e' : Nat}

theorem toInt_rel (rel : UInt32) : (Int64.ofNat rel.toNat).toInt = rel.toNat :=
  toInt_ofNat (by have := rel.toNat_lt; omega)

theorem toInt_edition (e : Nat) : (Int64.ofNat (min e (2 ^ 63 - 1))).toInt = (min e (2 ^ 63 - 1) : Nat) :=
  toInt_ofNat (by omega)

theorem ns_lt : ¬ nsSchema.toInt < nsSchema.toInt ∧ nsCatalog.toInt < nsSchema.toInt ∧ ¬ nsSchema.toInt < nsCatalog.toInt ∧
    ¬ nsSchema.toInt < (nsCatalog + 1).toInt ∧ nsCatalog.toInt < (nsCatalog + 1).toInt := by decide

theorem schemaKey_lt : schemaKey rel.toNat e < schemaKey rel'.toNat e' ↔
    rel.toNat < rel'.toNat ∨ rel.toNat = rel'.toNat ∧ min e (2 ^ 63 - 1) < min e' (2 ^ 63 - 1) := by
  have hinj : Int64.ofNat rel.toNat = Int64.ofNat rel'.toNat ↔ rel.toNat = rel'.toNat :=
    ⟨fun h => by have := congrArg Int64.toInt h; rw [toInt_rel, toInt_rel] at this; exact_mod_cast this, fun h => by rw [h]⟩
  simp only [schemaKey, editionValue, Tuple.cells_lt_cons, int_lt, toInt_rel, toInt_edition, lt_irrefl, and_false,
    or_false, false_or, true_and, Value.int.injEq, hinj, Nat.cast_lt]

theorem schemaKey_lt_next : schemaKey rel'.toNat e < (schemaAllSpan rel.toNat).2 ↔ rel'.toNat ≤ rel.toNat := by
  have hnext : (Int64.ofNat rel.toNat + 1).toInt = rel.toNat + 1 := by
    have h := toInt_ofNat (n := rel.toNat + 1) (by have := rel.toNat_lt; omega)
    rw [Int64.ofNat_add] at h
    exact_mod_cast h
  simp only [schemaKey, schemaAllSpan, Tuple.cells_lt_cons, int_lt, toInt_rel, Tuple.not_lt_nil, lt_irrefl, and_false, or_false, false_or,
    true_and, hnext]
  omega

theorem schemaKey_inj (he' : e' < 2 ^ 63 - 1) (h : schemaKey rel.toNat e = schemaKey rel'.toNat e') : rel = rel' ∧ e = e' := by
  have hlt := schemaKey_lt.not.1 (h.not_lt)
  have hgt := schemaKey_lt.not.1 (h.not_gt)
  have hrel : rel.toNat = rel'.toNat := by omega
  exact ⟨UInt32.toNat_inj.1 hrel, by omega⟩

/-- What a binding of a catalog or of a schema looks like. -/
inductive Formed : Tuple × Value → Prop
  | name (name : String) (id : UInt32) : Formed (catalogKey name, .int (Int64.ofNat id.toNat))
  | schema (rel : UInt32) (edition : Nat) (s : Schema) (he : edition < 2 ^ 63 - 1) (hs : Wire.schemaFits s = true) :
      Formed (schemaKey rel.toNat edition, .bytes (Wire.encodeSchema s))

theorem catalogKey_lt (name : String) (rel : UInt32) (e : Nat) : catalogKey name < schemaKey rel.toNat e := by
  simp only [catalogKey, schemaKey, Tuple.cells_lt_cons, int_lt, ns_lt, lt_irrefl, false_or, true_or, and_self]

theorem name_in_catalog (name : String) : catalogSpan.1 ≤ catalogKey name ∧ catalogKey name < catalogSpan.2 := by
  constructor
  · rw [← not_lt]
    simp only [catalogKey, catalogSpan, Tuple.cells_lt_cons, Tuple.not_lt_nil, lt_irrefl, and_false, or_self, not_false_iff]
  · simp only [catalogKey, catalogSpan, Tuple.cells_lt_cons, int_lt, ns_lt, lt_irrefl, false_or, true_or, and_self]

theorem schema_not_in_catalog (rel : UInt32) (e : Nat) : ¬ schemaKey rel.toNat e < catalogSpan.2 := by
  simp only [schemaKey, catalogSpan, Tuple.cells_lt_cons, int_lt, ns_lt, Tuple.not_lt_nil, lt_irrefl, and_false, or_self, not_false_iff]

theorem nameOf_name (name : String) (id : UInt32) : nameOf (catalogKey name, .int (Int64.ofNat id.toNat)) = some (name, id) := by
  have hid : (Int64.ofNat id.toNat).toUInt64.toUInt32 = id := by
    have hlt := id.toNat_lt
    apply UInt32.toNat_inj.1
    show (BitVec.ofNat 64 id.toNat).toNat % 2 ^ 32 = id.toNat
    rw [BitVec.toNat_ofNat]
    omega
  rw [nameOf, catalogKey]
  simp only [asRel, hid]
  rfl

theorem edition_toNat {e : Nat} (he : e < 2 ^ 63 - 1) : (Int64.ofNat (min e (2 ^ 63 - 1))).toUInt64.toNat = e := by
  show (BitVec.ofNat 64 (min e (2 ^ 63 - 1))).toNat = e
  rw [BitVec.toNat_ofNat]
  omega

theorem versionOf_schema {edition : Nat} {s : Schema} (he : edition < 2 ^ 63 - 1) (hs : Wire.schemaFits s = true) :
    versionOf (schemaKey rel.toNat edition, .bytes (Wire.encodeSchema s)) = some (edition, s) := by
  simp only [versionOf, schemaKey, editionValue, List.getElem?_cons_succ, List.getElem?_cons_zero, decodeSchemaValue,
    Wire.decodeSchema_encode hs, edition_toNat he]

section Formed

variable {ctx : Context}

theorem mem_between {lo hi : Tuple} {b : Tuple × Value} : b ∈ between lo hi ctx ↔ b ∈ ctx ∧ lo ≤ b.1 ∧ b.1 < hi := by
  simp [between]

theorem schema_in_all (rel rel' : UInt32) (e : Nat) : (schemaAllSpan rel.toNat).1 ≤ schemaKey rel'.toNat e ∧
    schemaKey rel'.toNat e < (schemaAllSpan rel.toNat).2 ↔ rel' = rel := by
  rw [schemaKey_lt_next, ← not_lt, show (schemaAllSpan rel.toNat).1 = schemaKey rel.toNat 0 from rfl, schemaKey_lt,
    ← UInt32.toNat_inj]
  omega

/-- The names a context holds are those it binds. -/
theorem mem_names (h : ∀ b ∈ ctx, Formed b) {x : String × UInt32} :
    x ∈ ctx.names ↔ (catalogKey x.1, .int (Int64.ofNat x.2.toNat)) ∈ ctx := by
  rw [names, List.mem_filterMap]
  constructor
  · rintro ⟨b, hb, hx⟩
    obtain ⟨hmem, -, hlt⟩ := mem_between.1 hb
    cases h b hmem with
    | name name id =>
      rw [nameOf_name] at hx
      cases hx
      exact hmem
    | schema rel edition s he hs => exact absurd hlt (schema_not_in_catalog rel edition)
  · intro hmem
    exact ⟨_, mem_between.2 ⟨hmem, name_in_catalog x.1⟩, nameOf_name x.1 x.2⟩

/-- The versions of a relation are those bound under it. -/
theorem mem_versions (h : ∀ b ∈ ctx, Formed b) {rel : UInt32} {v : Nat × Schema} : v ∈ ctx.versions rel.toNat ↔
    v.1 < 2 ^ 63 - 1 ∧ Wire.schemaFits v.2 = true ∧ (schemaKey rel.toNat v.1, .bytes (Wire.encodeSchema v.2)) ∈ ctx := by
  rw [versions, List.mem_filterMap]
  constructor
  · rintro ⟨b, hb, hv⟩
    obtain ⟨hmem, hle, hlt⟩ := mem_between.1 hb
    cases h b hmem with
    | name name id => exact absurd hle (not_le.2 (catalogKey_lt name rel 0))
    | schema rel' edition s he hs =>
      obtain rfl := (schema_in_all rel rel' edition).1 ⟨hle, hlt⟩
      rw [versionOf_schema he hs] at hv
      cases hv
      exact ⟨he, hs, hmem⟩
  · rintro ⟨he, hs, hmem⟩
    exact ⟨_, mem_between.2 ⟨hmem, (schema_in_all rel rel v.1).2 rfl⟩, versionOf_schema he hs⟩

/-- The bindings of a relation, one for each of its versions. -/
theorem between_versions (h : ∀ b ∈ ctx, Formed b) (rel : UInt32) :
    between (schemaAllSpan rel.toNat).1 (schemaAllSpan rel.toNat).2 ctx
      = (ctx.versions rel.toNat).map fun v => (schemaKey rel.toNat v.1, .bytes (Wire.encodeSchema v.2)) := by
  have hread : ∀ l : List (Tuple × Value), (∀ b ∈ l, ∃ v, versionOf b = some v ∧
      b = (schemaKey rel.toNat v.1, .bytes (Wire.encodeSchema v.2))) →
        l = (l.filterMap versionOf).map fun v => (schemaKey rel.toNat v.1, .bytes (Wire.encodeSchema v.2)) := by
    intro l
    induction l with
    | nil => exact fun _ => rfl
    | cons b l ih =>
      intro hl
      obtain ⟨v, hv, hb⟩ := hl b List.mem_cons_self
      rw [List.filterMap_cons_some hv, List.map_cons, ← hb, ← ih fun b' hb' => hl b' (List.mem_cons_of_mem b hb')]
  refine hread _ fun b hb => ?_
  obtain ⟨hmem, hle, hlt⟩ := mem_between.1 hb
  cases h b hmem with
  | name name id => exact absurd hle (not_le.2 (catalogKey_lt name rel 0))
  | schema rel' edition s he hs =>
    obtain rfl := (schema_in_all rel rel' edition).1 ⟨hle, hlt⟩
    exact ⟨(edition, s), versionOf_schema he hs, rfl⟩

end Formed

/-! ## What a context keeps -/

/-- What holds of every context: its bindings are a catalog's and a registry's, and it agrees
with itself. -/
structure Held (ctx : Context) : Prop where
  sorted : Sorted ctx
  formed : ∀ b ∈ ctx, Formed b
  agrees : ctx.Agrees ctx

section Held

variable {ctx theirs ctx' : Context}

theorem nameOf_key {b : Tuple × Value} (hb : Formed b) (hmem : b.1 < catalogSpan.2) {x : String × UInt32}
    (hx : nameOf b = some x) : b.1 = catalogKey x.1 := by
  cases hb with
  | name name id =>
    rw [nameOf_name] at hx
    cases hx
    rfl
  | schema rel edition s he hs => exact absurd hmem (schema_not_in_catalog rel edition)

theorem Held.versions_sorted (h : ctx.Held) (rel : UInt32) : (ctx.versions rel.toNat).Pairwise fun v v' => v.1 < v'.1 := by
  have hkeys : Sorted (between (schemaAllSpan rel.toNat).1 (schemaAllSpan rel.toNat).2 ctx) := h.sorted.filter _
  rw [between_versions h.formed rel] at hkeys
  refine (List.pairwise_map.1 hkeys).imp fun {v v'} hlt => ?_
  have hmin := schemaKey_lt.1 hlt
  omega

/-- The bindings of a relation up to an edition. -/
theorem Held.upTo (h : ctx.Held) (rel : UInt32) (at' : Nat) :
    between (schemaSpan rel.toNat 0 (at' + 1)).1 (schemaSpan rel.toNat 0 (at' + 1)).2 ctx
      = ((ctx.versions rel.toNat).filter fun v => v.1 ≤ at').map
        fun v => (schemaKey rel.toNat v.1, .bytes (Wire.encodeSchema v.2)) := by
  have hnext : schemaKey rel.toNat (at' + 1) < (schemaAllSpan rel.toNat).2 := schemaKey_lt_next.2 le_rfl
  have hsplit : between (schemaSpan rel.toNat 0 (at' + 1)).1 (schemaSpan rel.toNat 0 (at' + 1)).2 ctx
      = (between (schemaAllSpan rel.toNat).1 (schemaAllSpan rel.toNat).2 ctx).filter
        fun b => b.1 < schemaKey rel.toNat (at' + 1) := by
    rw [between, between, List.filter_filter]
    refine List.filter_congr fun b _ => ?_
    rw [Bool.eq_iff_iff]
    simp only [decide_eq_true_iff, Bool.and_eq_true]
    exact ⟨fun hb => ⟨hb.2, hb.1, hb.2.trans hnext⟩, fun hb => ⟨hb.2.1, hb.1⟩⟩
  rw [hsplit, between_versions h.formed rel, List.filter_map]
  refine congrArg _ (List.filter_congr fun v hv => ?_)
  have he := ((mem_versions h.formed).1 hv).1
  rw [Function.comp, decide_eq_decide, schemaKey_lt]
  omega

/-- **What holds of a context makes it lawful.** -/
theorem Held.lawful (h : ctx.Held) : ctx.Lawful := by
  refine ⟨fun rel => (h.versions_sorted rel).imp_of_mem fun {v v'} hv hv' hlt =>
    ⟨hlt, (h.agrees.versions rel v hv v' hv').1 hlt⟩, fun rel at' => ?_, ?_⟩
  · rw [schemaAt, lastIn, h.upTo rel at', List.getLast?_map]
    cases hlast : ((ctx.versions rel.toNat).filter fun v => v.1 ≤ at').getLast? with
    | none => rfl
    | some v =>
      have hv := (List.mem_filter.1 (List.mem_of_getLast? hlast)).1
      show some <$> Wire.decodeSchema (Wire.encodeSchema v.2) = _
      rw [Wire.decodeSchema_encode ((mem_versions h.formed).1 hv).2.1]
      rfl
  · refine List.pairwise_map.2 (List.pairwise_filterMap.2 ?_)
    refine (h.sorted.filter _).imp_of_mem fun {b b'} hb hb' hlt x hx y hy heq => ?_
    obtain ⟨hmem, -, hin⟩ := mem_between.1 hb
    obtain ⟨hmem', -, hin'⟩ := mem_between.1 hb'
    have hkey := nameOf_key (h.formed b hmem) hin hx
    have hkey' := nameOf_key (h.formed b' hmem') hin' hy
    have hname := h.agrees.names x (List.mem_filterMap.2 ⟨b, hb, hx⟩) y (List.mem_filterMap.2 ⟨b', hb', hy⟩) heq
    rw [hkey, hkey', hname] at hlt
    exact lt_irrefl _ hlt

/-- The latest version is the last. -/
theorem Held.latest (h : ctx.Held) (rel : UInt32) : ctx.latestSchema rel.toNat = .ok (ctx.versions rel.toNat).getLast? := by
  rw [latestSchema, lastIn, between_versions h.formed rel, List.getLast?_map]
  cases hlast : (ctx.versions rel.toNat).getLast? with
  | none => rfl
  | some v =>
    obtain ⟨he, hs, -⟩ := (mem_versions h.formed).1 (List.mem_of_getLast? hlast)
    simp only [Option.map_some, schemaKey, editionValue, List.getElem?_cons_succ, List.getElem?_cons_zero,
      decodeSchemaValue, Wire.decodeSchema_encode hs, edition_toNat he]
    rfl

theorem held_nil : Held [] :=
  ⟨.nil, fun _ hb => absurd hb List.not_mem_nil, fun _ _ hv => absurd hv List.not_mem_nil, fun _ hx => absurd hx List.not_mem_nil⟩

/-- A context whose bindings are those of two that agree. -/
theorem Held.of_mem (h : ctx.Held) (ht : theirs.Held) (hagrees : ctx.Agrees theirs) (hsorted : Sorted ctx')
    (hmem : ∀ b ∈ ctx', b ∈ ctx ∨ b ∈ theirs) : ctx'.Held := by
  have hformed : ∀ b ∈ ctx', Formed b := fun b hb => (hmem b hb).elim (h.formed b) (ht.formed b)
  have hversions : ∀ rel : UInt32, ∀ v ∈ ctx'.versions rel.toNat, v ∈ ctx.versions rel.toNat ∨ v ∈ theirs.versions rel.toNat := by
    intro rel v hv
    obtain ⟨he, hs, hv⟩ := (mem_versions hformed).1 hv
    exact (hmem _ hv).imp (fun hv => (mem_versions h.formed).2 ⟨he, hs, hv⟩) fun hv => (mem_versions ht.formed).2 ⟨he, hs, hv⟩
  have hnames : ∀ x ∈ ctx'.names, x ∈ ctx.names ∨ x ∈ theirs.names := by
    intro x hx
    exact (hmem _ ((mem_names hformed).1 hx)).imp (mem_names h.formed).2 (mem_names ht.formed).2
  refine ⟨hsorted, hformed, fun rel v hv v' hv' => ?_, fun x hx y hy heq => ?_⟩
  · rcases hversions rel v hv with hv | hv <;> rcases hversions rel v' hv' with hv' | hv'
    · exact h.agrees.versions rel v hv v' hv'
    · exact hagrees.versions rel v hv v' hv'
    · exact (hagrees.versions rel v' hv' v hv).symm
    · exact ht.agrees.versions rel v hv v' hv'
  · rcases hnames x hx with hx | hx <;> rcases hnames y hy with hy | hy
    · exact h.agrees.names x hx y hy heq
    · exact hagrees.names x hx y hy heq
    · exact (hagrees.names y hy x hx heq.symm).symm
    · exact ht.agrees.names x hx y hy heq

theorem mem_names_one {b : Tuple × Value} {x : String × UInt32} (hx : x ∈ names [b]) : nameOf b = some x := by
  obtain ⟨b', hb, hx⟩ := List.mem_filterMap.1 hx
  rwa [← List.mem_singleton.1 (mem_between.1 hb).1]

theorem mem_versions_one {b : Tuple × Value} {rel : RelId} {v : Nat × Schema} (hv : v ∈ versions [b] rel) :
    versionOf b = some v ∧ (schemaAllSpan rel).1 ≤ b.1 ∧ b.1 < (schemaAllSpan rel).2 := by
  obtain ⟨b', hb, hread⟩ := List.mem_filterMap.1 hv
  obtain ⟨hmem, hspan⟩ := mem_between.1 hb
  obtain rfl := List.mem_singleton.1 hmem
  exact ⟨hread, hspan⟩

theorem held_one {b : Tuple × Value} (hb : Formed b) : Held [b] := by
  refine ⟨List.pairwise_singleton _ _, fun b' hb' => List.mem_singleton.1 hb' ▸ hb, fun rel v hv v' hv' => ?_,
    fun x hx y hy _ => ?_⟩
  · cases (mem_versions_one hv).1.symm.trans (mem_versions_one hv').1
    exact ⟨fun hlt => absurd hlt (lt_irrefl _), fun hlt => absurd hlt (lt_irrefl _)⟩
  · cases (mem_names_one hx).symm.trans (mem_names_one hy)
    rfl

/-- A binding more, which agrees with what there is. -/
theorem Held.put (h : ctx.Held) {b : Tuple × Value} (hb : Formed b) (hagrees : ctx.Agrees [b]) :
    Held (OrdMap.put b.1 b.2 ctx) :=
  h.of_mem (held_one hb) hagrees (sorted_put h.sorted) fun _ hmem =>
    (mem_put hmem).symm.imp_right fun heq => by rw [heq]; exact List.mem_cons_self

/-- A name bound to an id that no other name has. -/
theorem Held.register (h : ctx.Held) {name : String} {id : UInt32} (hid : ctx.relId name = none → ∀ y ∈ ctx.names, y.2 ≠ id)
    (hok : ctx.register name id = .ok ctx') : ctx'.Held := by
  unfold Context.register at hok
  split at hok
  · split_ifs at hok
    · cases hok
      exact h
  · rename_i hnone
    cases hok
    refine h.put (.name name id) ⟨fun rel v _ v' hv' => ?_, fun x hx y hy heq => ?_⟩
    · exact absurd (mem_versions_one hv').2.1 (not_le.2 (catalogKey_lt name rel 0))
    · cases (mem_names_one hy).symm.trans (nameOf_name name id)
      exact absurd heq (hid hnone x hx)

/-- A version that is put is one more, additive over all there were. -/
theorem Held.putSchema (h : ctx.Held) {rel : UInt32} {schema : Schema} {at' : Nat} (he : at' < 2 ^ 63 - 1)
    (hs : Wire.schemaFits schema = true) (hok : ctx.putSchema rel.toNat schema at' = .ok ctx') : ctx'.Held := by
  have hput : ctx' = ctx ∨ ctx' = OrdMap.put (schemaKey rel.toNat at') (.bytes (Wire.encodeSchema schema)) ctx ∧
      ∀ v ∈ ctx.versions rel.toNat, v.1 < at' ∧ schema.isAdditiveOver v.2 = true := by
    unfold Context.putSchema at hok
    rw [h.latest rel] at hok
    cases hlast : (ctx.versions rel.toNat).getLast? with
    | none =>
      rw [hlast] at hok
      cases hok
      rw [List.getLast?_eq_none_iff.1 hlast]
      exact .inr ⟨rfl, fun v hv => absurd hv List.not_mem_nil⟩
    | some last =>
      rw [hlast] at hok
      obtain ⟨edition, current⟩ := last
      change (if current = schema then _ else _) = _ at hok
      split_ifs at hok with hsame hadd hlate
      · cases hok
        exact .inl rfl
      · cases hok
        refine .inr ⟨rfl, fun v hv => ?_⟩
        have hcurrent := List.mem_of_getLast? hlast
        have hadd : schema.isAdditiveOver current = true := by simpa using hadd
        -- every version is the last one or before it
        obtain ⟨earlier, hsplit⟩ := List.getLast?_eq_some_iff.1 hlast
        rw [hsplit, List.mem_append] at hv
        rcases hv with hv | hv
        · have hlt : v.1 < edition := by
            have hpairs := h.versions_sorted rel
            rw [hsplit] at hpairs
            exact (List.pairwise_append.1 hpairs).2.2 v hv _ List.mem_cons_self
          refine ⟨hlt.trans (not_le.1 hlate), Schema.isAdditiveOver_trans ?_ hadd⟩
          exact (h.agrees.versions rel v (by rw [hsplit]; exact List.mem_append_left _ hv) _ hcurrent).1 hlt
        · cases List.mem_singleton.1 hv
          exact ⟨not_le.1 hlate, hadd⟩
  rcases hput with rfl | ⟨rfl, hover⟩
  · exact h
  refine h.put (.schema rel at' schema he hs) ⟨fun rel' v hv v' hv' => ?_, fun x _ y hy _ => ?_⟩
  · obtain ⟨hread, hspan⟩ := mem_versions_one hv'
    obtain rfl := (schema_in_all rel' rel at').1 hspan
    cases hread.symm.trans (versionOf_schema he hs)
    obtain ⟨hlt, hadd⟩ := hover v hv
    exact ⟨fun _ => hadd, fun hgt => absurd hgt (lt_asymm hlt)⟩
  · obtain ⟨b, hb, hy⟩ := List.mem_filterMap.1 hy
    obtain ⟨hmem, -, hin⟩ := mem_between.1 hb
    rw [List.mem_singleton.1 hmem] at hin
    exact absurd hin (schema_not_in_catalog rel at')

/-- What is taken in of another context. -/
theorem unite_mem : ∀ {theirs ctx ctx' : Context}, Sorted ctx → ctx.unite theirs = some ctx' →
    Sorted ctx' ∧ ∀ b ∈ ctx', b ∈ ctx ∨ b ∈ theirs
  | [], ctx, ctx', hsorted, h => by
      cases h
      exact ⟨hsorted, fun b hb => .inl hb⟩
  | b :: theirs, ctx, ctx', hsorted, h => by
      rw [unite, List.foldlM_cons] at h
      obtain ⟨ctx₁, hfirst, h⟩ := Option.bind_eq_some_iff.1 h
      have hone : Sorted ctx₁ ∧ ∀ b' ∈ ctx₁, b' ∈ ctx ∨ b' = b := by
        split at hfirst
        · split_ifs at hfirst
          cases hfirst
          exact ⟨hsorted, fun b' hb' => .inl hb'⟩
        · cases hfirst
          exact ⟨sorted_put hsorted, fun b' hb' => (mem_put hb').symm⟩
      obtain ⟨hsorted', hmem⟩ := unite_mem hone.1 h
      refine ⟨hsorted', fun b' hb' => ?_⟩
      rcases hmem b' hb' with hb' | hb'
      · exact (hone.2 b' hb').imp_right fun heq => by rw [heq]; exact List.mem_cons_self
      · exact .inr (List.mem_cons_of_mem b hb')

/-- Two contexts that agree are taken together. -/
theorem Held.unite (h : ctx.Held) (ht : theirs.Held) (hagrees : ctx.Agrees theirs) (hok : ctx.unite theirs = some ctx') :
    ctx'.Held :=
  h.of_mem ht hagrees (unite_mem h.sorted hok).1 (unite_mem h.sorted hok).2

end Held

end Context
namespace Contexts

variable {w w' : Contexts} {act : Act}

/-- What holds of a world's contexts. -/
structure Held (w : Contexts) : Prop where
  branches : ∀ ctx ∈ w.branches, ctx.Held
  stores : ∀ s ∈ w.stores, s.2.Held

theorem Held.stage (h : w.Held) {k b : Nat} {old ctx : Context} (hctx : ctx.Held) : (w.stage k b old ctx).Held := by
  unfold Contexts.stage
  split_ifs
  · exact h
  · exact ⟨fun c hc => (List.mem_or_eq_of_mem_set hc).elim (h.branches c) fun heq => heq ▸ hctx,
      fun s hs => (List.mem_or_eq_of_mem_set hs).elim (h.stores s) fun heq => by rw [heq]; exact hctx⟩

theorem Held.spawn (h : w.Held) {ctx : Context} (hctx : ctx.Held) : (w.spawn ctx).Held := by
  refine ⟨fun c hc => ?_, fun s hs => ?_⟩
  · rcases List.mem_append.1 hc with hc | hc
    · exact h.branches c hc
    · rw [List.mem_singleton.1 hc]
      exact hctx
  · rcases List.mem_append.1 hs with hs | hs
    · exact h.stores s hs
    · rw [List.mem_singleton.1 hs]
      exact hctx

/-- **A step keeps what holds of every context.** -/
theorem held_step (h : w.Held) (hok : w.KeepsLaws act) (hstep : w.step act = some w') : w'.Held := by
  obtain ⟨hfresh, hkeeps⟩ := hok
  cases act with
  | register k name id =>
    simp only [step] at hstep
    split at hstep
    · rename_i b ctx hk
      have hctx := h.stores _ (List.mem_of_getElem? hk)
      split at hstep
      · rename_i ctx' hregister
        cases hstep
        exact h.stage (hctx.register (hfresh _ hk) hregister)
      · cases hstep
        exact h
    · cases hstep
  | putSchema k rel schema at' =>
    simp only [step] at hstep
    split at hstep
    · rename_i b ctx hk
      have hctx := h.stores _ (List.mem_of_getElem? hk)
      split at hstep
      · rename_i ctx' hput
        cases hstep
        exact h.stage (hctx.putSchema hkeeps.1 hkeeps.2 hput)
      · cases hstep
        exact h
    · cases hstep
  | fork k lands =>
    simp only [step] at hstep
    split at hstep
    · rename_i b ctx hk
      cases hstep
      split_ifs
      · exact h.spawn (h.stores _ (List.mem_of_getElem? hk))
      · exact h
    · cases hstep
  | merge k other lands =>
    simp only [step] at hstep
    split at hstep
    · rename_i b ctx b' theirs hk hother
      split at hstep
      · rename_i ctx' hunite
        cases hstep
        have hagrees := hkeeps _ hk _ hother (by rw [hunite]; rfl)
        split_ifs
        · exact h.spawn ((h.stores _ (List.mem_of_getElem? hk)).unite (h.stores _ (List.mem_of_getElem? hother)) hagrees hunite)
        · exact h
      · cases hstep
        exact h
    · cases hstep
  | branch b =>
    simp only [step] at hstep
    split at hstep
    · rename_i ctx hb
      cases hstep
      refine ⟨h.branches, fun s hs => ?_⟩
      rcases List.mem_append.1 hs with hs | hs
      · exact h.stores s hs
      · rw [List.mem_singleton.1 hs]
        exact h.branches ctx (List.mem_of_getElem? hb)
    · cases hstep

theorem held_new : new.Held :=
  ⟨fun _ hc => List.mem_singleton.1 hc ▸ Context.held_nil, fun _ hs => by rw [List.mem_singleton.1 hs]; exact Context.held_nil⟩

instance (w : Contexts) (act : Act) : Decidable (w.FreshIds act) := by
  cases act <;> unfold FreshIds <;> infer_instance

end Contexts

/-- **The laws of merged contexts**: on every branch, and in every store open on one, each
relation's versions are a chain, the one in effect at an edition is the last up to it, and no
id has two names, if the sides of every merge agree. -/
theorem contexts_lawful {w : Contexts} (h : Run Contexts.step Contexts.KeepsLaws .new w) :
    (∀ ctx ∈ w.branches, ctx.Lawful) ∧ ∀ s ∈ w.stores, s.2.Lawful := by
  have hw : w.Held := h.invariant Contexts.held_new fun _ _ _ hs hok hstep => Contexts.held_step hs hok hstep
  exact ⟨fun ctx hctx => (hw.branches ctx hctx).lawful, fun s hs => (hw.stores s hs).lawful⟩

/-! ## Two branches of one relation -/

def doorSchema : Schema := ⟨[⟨"room", .ent⟩]⟩

def lockedDoorSchema : Schema := ⟨[⟨"room", .ent⟩, ⟨"locked", .bool⟩]⟩

def keySchema : Schema := ⟨[⟨"opens", .text⟩]⟩

/-- Both branches give relation 1 its first schema, each its own, and name relation 5. -/
def apart : List Contexts.Act :=
  [.fork 0 true, .putSchema 0 1 doorSchema 5, .putSchema 1 1 keySchema 7, .register 0 "door" 5, .register 1 "key" 5,
    .merge 0 1 true]

/-- **Two branches that never meet under one key** are merged into a context that breaks the
laws. -/
theorem merged_apart : ¬ ∀ w, Run Contexts.step Contexts.FreshIds .new w → ∀ s ∈ w.stores, s.2.Lawful := by
  intro hall
  have hran : (executeChecked Contexts.step (fun w act => decide (w.FreshIds act)) .new apart).map
      (fun w => w.stores.map fun s => (s.2.versions 1, s.2.names)) = some [([(5, doorSchema)], [("door", 5)]),
        ([(7, keySchema)], [("key", 5)]), ([(5, doorSchema), (7, keySchema)], [("door", 5), ("key", 5)])] := by
    decide +kernel
  obtain ⟨w, hw, hstores⟩ := Option.map_eq_some_iff.1 hran
  have hmem : ([(5, doorSchema), (7, keySchema)], [("door", 5), ("key", 5)])
      ∈ w.stores.map fun s => (s.2.versions 1, s.2.names) := by
    rw [hstores]
    exact .tail _ (.tail _ (.head _))
  obtain ⟨s, hs, heq⟩ := List.mem_map.1 hmem
  have hchain := (hall w (.ofChecked apart (fun _ _ _ h => of_decide_eq_true h) _ hw) s hs).chain 1
  rw [show s.2.versions (1 : UInt32).toNat = [(5, doorSchema), (7, keySchema)] from congrArg Prod.fst heq] at hchain
  exact absurd hchain (by decide)

/-- One branch evolves the relation and names it after the fork, the other does neither. -/
def oneSided : List Contexts.Act :=
  [.putSchema 0 1 doorSchema 5, .fork 0 true, .putSchema 0 1 lockedDoorSchema 7, .register 0 "door" 1]

/-- The two sides agree. -/
theorem one_sided_agrees {ctx : Context} (hversions : ctx.versions 1 = [(5, doorSchema), (7, lockedDoorSchema)]) :
    ctx.Agrees [(Context.schemaKey 1 5, .bytes (Wire.encodeSchema doorSchema))] := by
  have hformed : Context.Formed (Context.schemaKey 1 5, .bytes (Wire.encodeSchema doorSchema)) :=
    .schema 1 5 doorSchema (by decide) (by decide)
  refine ⟨fun rel v hv v' hv' => ?_, fun x _ y hy => ?_⟩
  · obtain ⟨he, -, hmem⟩ := (Context.mem_versions fun b hb => List.mem_singleton.1 hb ▸ hformed).1 hv'
    have hkey : Context.schemaKey rel.toNat v'.1 = Context.schemaKey (1 : UInt32).toNat 5 := (Prod.mk.inj (List.mem_singleton.1 hmem)).1
    obtain ⟨rfl, -⟩ := Context.schemaKey_inj (by decide) hkey
    rw [show ctx.versions (1 : UInt32).toNat = _ from hversions] at hv
    have hlater : ∀ v ∈ [(5, doorSchema), (7, lockedDoorSchema)],
        ∀ v' ∈ Context.versions [(Context.schemaKey 1 5, .bytes (Wire.encodeSchema doorSchema))] 1,
          (v.1 < v'.1 → v'.2.isAdditiveOver v.2 = true) ∧ (v'.1 < v.1 → v.2.isAdditiveOver v'.2 = true) := by
      decide +kernel
    exact hlater v hv v' hv'
  · have hnone : Context.names [(Context.schemaKey 1 5, .bytes (Wire.encodeSchema doorSchema))] = [] := by decide +kernel
    rw [hnone] at hy
    exact absurd hy List.not_mem_nil

/-- What a step has to keep to, where it merges nothing. -/
def keepsUnmerged (w : Contexts) (act : Contexts.Act) : Bool :=
  decide (w.FreshIds act) && match act with
    | .putSchema _ _ schema at' => decide (at'.toNat < 2 ^ 63 - 1) && Wire.schemaFits schema
    | .merge _ _ _ => false
    | _ => true

theorem keepsLaws_of_unmerged {w : Contexts} {act : Contexts.Act} (h : keepsUnmerged w act = true) : w.KeepsLaws act := by
  obtain ⟨hfresh, hrest⟩ := Bool.and_eq_true_iff.1 h
  refine ⟨of_decide_eq_true hfresh, ?_⟩
  cases act with
  | putSchema k rel schema at' =>
    obtain ⟨he, hs⟩ := Bool.and_eq_true_iff.1 hrest
    exact ⟨of_decide_eq_true he, hs⟩
  | merge k other lands => cases hrest
  | register k name id => trivial
  | fork k lands => trivial
  | branch b => trivial

theorem merged_one_sided : ∃ w : Contexts, (w.stores.map fun s => s.2.versions 1)
      = [[(5, doorSchema), (7, lockedDoorSchema)], [(5, doorSchema)], [(5, doorSchema), (7, lockedDoorSchema)]] ∧
    ∀ s ∈ w.stores, s.2.Lawful := by
  have hw : Run Contexts.step Contexts.KeepsLaws .new ((executeChecked Contexts.step keepsUnmerged .new oneSided).getD .new) :=
    .afterChecked (fun _ _ => keepsLaws_of_unmerged) (by decide +kernel)
  have hours : ((((executeChecked Contexts.step keepsUnmerged .new oneSided).getD .new).stores[0]?).map fun s => s.2.versions 1)
      = some [(5, doorSchema), (7, lockedDoorSchema)] := by decide +kernel
  have htheirs : ((executeChecked Contexts.step keepsUnmerged .new oneSided).getD .new).stores[1]?
      = some (1, [(Context.schemaKey 1 5, .bytes (Wire.encodeSchema doorSchema))]) := by decide +kernel
  have hmerged : (((executeChecked Contexts.step keepsUnmerged .new oneSided).getD .new).step (.merge 0 1 true)).map
      (fun w => w.stores.map fun s => s.2.versions 1) = some [[(5, doorSchema), (7, lockedDoorSchema)], [(5, doorSchema)],
        [(5, doorSchema), (7, lockedDoorSchema)]] := by decide +kernel
  obtain ⟨w', hw', hversions⟩ := Option.map_eq_some_iff.1 hmerged
  refine ⟨w', hversions, (contexts_lawful (hw.snoc (a := .merge 0 1 true) ⟨trivial, ?_⟩ hw')).2⟩
  intro x hx y hy _
  cases htheirs.symm.trans hy
  rw [hx] at hours
  exact one_sided_agrees (Option.some.inj hours)

end Grmpl

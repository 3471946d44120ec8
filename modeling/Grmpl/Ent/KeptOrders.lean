import Grmpl.Ent.Forks

/-!
# Arrangements kept in step

An arrangement is written with every row of its relation, turned by its column, from the
moment it is first asked for; so a span of a column is read from it as a filter would read it.

* `Inner.turned_put`, `Inner.turned_drop`: rows turned, as one of them changes.
* `OrdersRows`: what the enfilades of B+ relations are promised.
* `RelRoots.InOrder`, `Inner.InOrder`: a relation whose arrangements are in step.
* `InOrder.foldFact` and its like: what keeps it.
* `InOrder.readRangeOn`: a span of a column, read from its arrangement.
* `FactRows.instOrdersRows`: rows themselves keep what is promised.
-/

open OrdMap Runs

namespace Grmpl

namespace Inner

variable {col : Nat} {t t' k : Tuple} {m : Rows}

/-! ## Rows turned by a column -/

theorem rotate_inj (h : rotate t col = some k) (h' : rotate t' col = some k) : t = t' :=
  (rotate_eq_some h).1.symm.trans (rotate_eq_some h').1

/-- The rows turned by a column are those that have it, each turned. -/
theorem mem_turned_iff (h : Sorted m) {e : Tuple × Diff} :
    e ∈ turned col m ↔ ∃ t, rotate t col = some e.1 ∧ (t, e.2) ∈ m := by
  unfold turned
  suffices ∀ (f : Rows → Tuple × Diff → Rows), (∀ m x, rotate x.1 col = none → f m x = m) →
      (∀ m x key, rotate x.1 col = some key → f m x = OrdMap.put key x.2 m) →
      ∀ l acc : Rows, Sorted l → (e ∈ l.foldl f acc ↔
        (∃ t, rotate t col = some e.1 ∧ (t, e.2) ∈ l) ∨ (e ∈ acc ∧ ∀ x ∈ l, rotate x.1 col ≠ some e.1)) from
    (this _ (fun m x hx => by simp only [hx]) (fun m x key hx => by simp only [hx]) m [] h).trans (by simp)
  intro f hkeep hput l
  induction l with
  | nil => simp
  | cons x l ih =>
    intro acc hs
    obtain ⟨hx, hs⟩ := List.pairwise_cons.1 hs
    rw [List.foldl_cons, ih _ hs]
    cases hrot : rotate x.1 col with
    | none =>
      rw [hkeep _ _ hrot]
      constructor
      · rintro (⟨t, ht, hmem⟩ | ⟨hmem, hnone⟩)
        · exact .inl ⟨t, ht, .tail _ hmem⟩
        · refine .inr ⟨hmem, fun y hy => ?_⟩
          rcases List.mem_cons.1 hy with rfl | hy
          · rw [hrot]
            exact Option.some_ne_none _ |>.symm
          · exact hnone y hy
      · rintro (⟨t, ht, hmem⟩ | ⟨hmem, hnone⟩)
        · rcases List.mem_cons.1 hmem with rfl | hmem
          · rw [hrot] at ht
            cases ht
          · exact .inl ⟨t, ht, hmem⟩
        · exact .inr ⟨hmem, fun y hy => hnone y (.tail _ hy)⟩
    | some key =>
      rw [hput _ _ _ hrot, mem_put_iff]
      constructor
      · rintro (⟨t, ht, hmem⟩ | ⟨rfl | ⟨hmem, hne⟩, hnone⟩)
        · exact .inl ⟨t, ht, .tail _ hmem⟩
        · exact .inl ⟨x.1, hrot, .head _⟩
        · refine .inr ⟨hmem, fun y hy => ?_⟩
          rcases List.mem_cons.1 hy with rfl | hy
          · rw [hrot]
            exact fun h => hne (Option.some.inj h).symm
          · exact hnone y hy
      · rintro (⟨t, ht, hmem⟩ | ⟨hmem, hnone⟩)
        · rcases List.mem_cons.1 hmem with heq | hmem
          · obtain ⟨rfl, hd⟩ := Prod.mk.inj heq
            rw [ht] at hrot
            refine .inr ⟨.inl (Prod.ext (Option.some.inj hrot) hd), fun y hy hrot' => ?_⟩
            exact (hx y hy).ne (rotate_inj ht hrot')
          · exact .inl ⟨t, ht, hmem⟩
        · refine .inr ⟨.inr ⟨hmem, fun heq => ?_⟩, fun y hy => hnone y (.tail _ hy)⟩
          exact hnone x (.head _) (heq ▸ hrot)

/-- **A row bound among rows is bound among them turned.** -/
theorem turned_put (h : Sorted m) (t : Tuple) (d : Diff) : turned col (OrdMap.put t d m) = match rotate t col with
    | none => turned col m
    | some key => OrdMap.put key d (turned col m) := by
  have hput : Sorted (OrdMap.put t d m) := OrdMap.sorted_put h
  cases hrot : rotate t col with
  | none =>
    refine Sorted.ext (sorted_turned _ _) (sorted_turned _ _) fun e => ?_
    rw [mem_turned_iff hput, mem_turned_iff h]
    refine exists_congr fun u => and_congr_right fun hu => ?_
    rw [mem_put_iff]
    constructor
    · rintro (heq | ⟨hmem, -⟩)
      · rw [(Prod.mk.inj heq).1, hrot] at hu
        cases hu
      · exact hmem
    · refine fun hmem => .inr ⟨hmem, ?_⟩
      rintro rfl
      rw [hrot] at hu
      cases hu
  | some key =>
    refine Sorted.ext (sorted_turned _ _) (OrdMap.sorted_put (sorted_turned _ _)) fun e => ?_
    rw [mem_turned_iff hput, mem_put_iff, mem_turned_iff h]
    constructor
    · rintro ⟨u, hu, hmem⟩
      rcases mem_put_iff.1 hmem with heq | ⟨hmem, hne⟩
      · obtain ⟨rfl, hd⟩ := Prod.mk.inj heq
        rw [hrot] at hu
        exact .inl (Prod.ext (Option.some.inj hu).symm hd)
      · refine .inr ⟨⟨u, hu, hmem⟩, fun heq => hne ?_⟩
        exact rotate_inj (heq ▸ hu) hrot
    · rintro (rfl | ⟨⟨u, hu, hmem⟩, hne⟩)
      · exact ⟨t, hrot, mem_put_iff.2 (.inl rfl)⟩
      · refine ⟨u, hu, mem_put_iff.2 (.inr ⟨hmem, ?_⟩)⟩
        rintro rfl
        exact hne (Option.some.inj (hu.symm.trans hrot))

/-- And one dropped is dropped. -/
theorem turned_drop (h : Sorted m) (t : Tuple) : turned col (drop t m) = match rotate t col with
    | none => turned col m
    | some key => drop key (turned col m) := by
  have hdrop : Sorted (drop t m) := h.filter _
  cases hrot : rotate t col with
  | none =>
    refine Sorted.ext (sorted_turned _ _) (sorted_turned _ _) fun e => ?_
    rw [mem_turned_iff hdrop, mem_turned_iff h]
    refine exists_congr fun u => and_congr_right fun hu => ?_
    rw [mem_drop]
    refine ⟨And.left, fun hmem => ⟨hmem, ?_⟩⟩
    rintro rfl
    rw [hrot] at hu
    cases hu
  | some key =>
    refine Sorted.ext (sorted_turned _ _) ((sorted_turned _ _).filter _) fun e => ?_
    rw [mem_turned_iff hdrop, mem_drop, mem_turned_iff h]
    constructor
    · rintro ⟨u, hu, hmem⟩
      obtain ⟨hmem, hne⟩ := mem_drop.1 hmem
      exact ⟨⟨u, hu, hmem⟩, fun heq => hne (rotate_inj (heq ▸ hu) hrot)⟩
    · rintro ⟨⟨u, hu, hmem⟩, hne⟩
      refine ⟨u, hu, mem_drop.2 ⟨hmem, ?_⟩⟩
      rintro rfl
      exact hne (Option.some.inj (hu.symm.trans hrot))

/-- **A span of a column read in the column's order** has the rows that a filter keeps. -/
theorem keepRows_byColumn_perm (h : Sorted m) (col : Nat) (lo hi : Value) :
    (keepRows (inColumn col lo hi) (byColumn col m)).Perm (keepRows (inColumn col lo hi) m) := by
  have hnodup : ∀ {l : Rows}, Sorted l → l.Nodup := fun hl => hl.imp fun hlt heq => hlt.ne (congrArg Prod.fst heq)
  have hby : (byColumn col m).Nodup := by
    refine (List.nodup_map_iff_inj_on (hnodup (sorted_turned col m))).2 fun a ha b hb heq => ?_
    obtain ⟨t, ht⟩ := mem_turned ha
    obtain ⟨t', ht'⟩ := mem_turned hb
    obtain ⟨hkey, hd⟩ := Prod.mk.inj heq
    rw [(rotate_eq_some ht).1, (rotate_eq_some ht').1] at hkey
    rw [hkey, ht'] at ht
    exact Prod.ext (Option.some.inj ht).symm hd
  refine (List.perm_ext_iff_of_nodup (hby.filter _) ((hnodup h).filter _)).2 fun e => ?_
  simp only [List.mem_filter]
  refine and_congr_left fun hin => ?_
  constructor
  · intro he
    obtain ⟨x, hx, rfl⟩ := List.mem_map.1 he
    obtain ⟨t, ht, hmem⟩ := (mem_turned_iff h).1 hx
    rw [(rotate_eq_some ht).1]
    exact hmem
  · intro he
    have hcol : ∃ c, e.1.cells[col]? = some c := by
      unfold inColumn at hin
      cases hc : e.1.cells[col]? with
      | none => simp [hc] at hin
      | some c => exact ⟨c, rfl⟩
    obtain ⟨c, hc⟩ := hcol
    obtain ⟨key, hkey⟩ : ∃ key, rotate e.1 col = some key := ⟨_, by rw [rotate, hc]; rfl⟩
    refine List.mem_map.2 ⟨(key, e.2), (mem_turned_iff h).2 ⟨e.1, hkey, he⟩, ?_⟩
    exact Prod.ext (rotate_eq_some hkey).1 rfl

end Inner

/-! ## The enfilades of B+ relations -/

/-- An extent holds the entity cells of a row. -/
def Extent.Holds (x : Extent) (t : Tuple) : Prop :=
  ∀ col e, t.cells[col]? = some (.ent e) → ∃ b, x.column col = some b ∧ b.1 ≤ e.id ∧ e.id ≤ b.2

/-- What the enfilades of a B+ relation are promised: they denote the rows written, and where each
extent holds the rows beneath it, a search finds what its test admits. -/
class OrdersRows (F : Type) [FactReads F] where
  /-- A B+ tree that denotes some rows. -/
  Holds : F → Rows → Prop
  sorted {t : F} {m : Rows} : Holds t m → Sorted m
  new : Holds FactEnf.new []
  get {t : F} {m : Rows} (k : Tuple) : Holds t m → FactEnf.get t k = lookup k m
  insertWith {t : F} {m : Rows} (k : Tuple) (d : Diff) (runs : Bool) : Holds t m →
    Holds (FactEnf.insertWith .ordered t k d runs) (put k d m)
  remove {t : F} {m : Rows} (k : Tuple) : Holds t m → Holds (FactEnf.remove .ordered t k) (drop k m)
  iter {t : F} {m : Rows} : Holds t m → FactEnf.iter t = m
  rangeCollect {t : F} {m : Rows} (lo hi : Tuple) : Holds t m → FactEnf.rangeCollect t lo hi = keepRows (inRange lo hi) m
  /-- Rows whose entities all lie in a block, copied. -/
  graft {t t' : F} {m : Rows} {lo hi : UInt64} {d : Dsp} : Holds t m →
    FactEnf.spanWithin t (Inner.entKey lo) (Inner.entKey hi) lo hi = true →
      FactEnf.graft .ordered t (Inner.entKey lo) (Inner.entKey hi) d = some t' → ∃ m', Holds t' m'
  /-- Each extent holds the rows it summarises. -/
  Covered : F → Prop
  search {t : F} {m : Rows} {admits : Extent → Bool} {keep : Tuple → Diff → Bool} : Holds t m → Covered t →
    (∀ x, ∀ e ∈ m, keep e.1 e.2 = true → x.Holds e.1 → admits x = true) →
      FactReads.search t admits keep = m.filter fun e => keep e.1 e.2

/-- An arrangement just built holds the rows turned by its column. -/
theorem Inner.arrangement_holds {F : Type} [FactReads F] [OrdersRows F] (col : Nat) (rows : Rows) :
    OrdersRows.Holds (Inner.arrangement col rows : F) (Inner.turned col rows) := by
  unfold Inner.arrangement Inner.turned
  suffices ∀ (t : F) (m : Rows), OrdersRows.Holds t m →
      OrdersRows.Holds (rows.foldl (fun arr e => match Inner.rotate e.1 col with
          | none => arr
          | some key => FactEnf.insertWith .ordered arr key e.2 false) t)
        (rows.foldl (fun m e => match Inner.rotate e.1 col with
          | none => m
          | some key => OrdMap.put key e.2 m) m) from this _ _ OrdersRows.new
  induction rows with
  | nil => exact fun _ _ h => h
  | cons e rows ih =>
    intro t m h
    rw [List.foldl_cons, List.foldl_cons]
    refine ih _ _ ?_
    split
    · exact h
    · exact OrdersRows.insertWith _ _ false h

/-- A relation's latest version. -/
def RelRoots.latest {F : Type} (r : RelRoots F) : Option F := r.versions.getLast?.map Prod.snd

/-- What a consolidation leaves of a relation. -/
def RelRoots.folded {F : Type} (wm : Nat) (r : RelRoots F) : RelRoots F :=
  ⟨match Inner.lastLe wm r.versions with
    | some t => put wm t (r.versions.filter fun v => wm < v.1)
    | none => r.versions.filter fun v => wm < v.1,
    r.log.filter fun l => wm < (ofLex l.1).1, []⟩

theorem Inner.consolidate_rootsOr {F : Type} (i : Inner F) (upTo : Nat) (rel : RelId) : (i.consolidate upTo).rootsOr rel =
    if min upTo i.current ≤ i.watermark then i.rootsOr rel else (i.rootsOr rel).folded (min upTo i.current) := by
  unfold Inner.consolidate
  dsimp only
  split_ifs with hw
  · rfl
  · have hmap : ∀ rels : List (RelId × RelRoots F), (lookup rel (rels.map fun r => (r.1, r.2.folded (min upTo i.current)))).getD
        RelRoots.empty = ((lookup rel rels).getD RelRoots.empty).folded (min upTo i.current) := by
      intro rels
      have hlookup : lookup rel (rels.map fun r => (r.1, r.2.folded (min upTo i.current))) =
          (lookup rel rels).map (RelRoots.folded (min upTo i.current)) := by
        unfold lookup
        rw [List.find?_map, Option.map_map, Option.map_map]
        rfl
      rw [hlookup]
      cases lookup rel rels <;> rfl
    exact hmap i.rels

section InOrder

variable {F : Type} [FactReads F] [OrdersRows F]

/-- What rows a relation holds now. -/
def RelRoots.Denotes (r : RelRoots F) (m : Rows) : Prop :=
  match r.latest with
  | none => m = []
  | some t => OrdersRows.Holds t m

/-- **A relation in order**: its versions are up to an edition, and where it is laid out as a B+
tree each of them denotes rows, and each arrangement the latest one's rows turned. -/
structure RelRoots.InOrder (layout : Layout) (cur : Nat) (r : RelRoots F) : Prop where
  sorted : Sorted r.versions
  upTo : ∀ v ∈ r.versions, v.1 ≤ cur
  arranged : layout = .ordered → ∀ v ∈ r.versions, ∃ m, OrdersRows.Holds v.2 m
  orders : layout = .ordered ∨ r.versions = [] → ∃ m, r.Denotes m ∧
    ∀ o ∈ r.orders, OrdersRows.Holds o.2 (Inner.turned o.1 m)

/-- Every relation of a branch is in order. -/
def Inner.InOrder (i : Inner F) (cur : Nat) : Prop := ∀ rel, (i.rootsOr rel).InOrder (i.layoutOf rel) cur

namespace RelRoots

variable {r : RelRoots F} {layout : Layout} {cur e : Nat}

omit [FactReads F] [OrdersRows F] in
theorem lastLe_eq_latest (h : ∀ v ∈ r.versions, v.1 ≤ cur) : Inner.lastLe cur r.versions = r.latest := by
  rw [Inner.lastLe, latest, filter_eq_self_of fun v hv => decide_eq_true (h v hv)]

omit [FactReads F] [OrdersRows F] in
theorem getLast_put (h : ∀ v ∈ r.versions, v.1 ≤ e) (root : F) : (put e root r.versions).getLast? = some (e, root) := by
  rw [put, filter_eq_nil_of fun v hv => decide_eq_false (not_lt.2 (h v hv))]
  simp

theorem InOrder.mono (h : r.InOrder layout cur) (hle : cur ≤ e) : r.InOrder layout e :=
  ⟨h.sorted, fun v hv => (h.upTo v hv).trans hle, h.arranged, h.orders⟩

theorem InOrder.empty (layout : Layout) (cur : Nat) : (RelRoots.empty : RelRoots F).InOrder layout cur :=
  ⟨.nil, fun _ hv => absurd hv List.not_mem_nil, fun _ _ hv => absurd hv List.not_mem_nil,
    fun _ => ⟨[], rfl, fun _ ho => absurd ho List.not_mem_nil⟩⟩

theorem InOrder.log (h : r.InOrder layout cur) (log : List (LogKey × LogEntry)) : ({ r with log := log } : RelRoots F).InOrder layout cur :=
  ⟨h.sorted, h.upTo, h.arranged, h.orders⟩

/-- Some rows are what an ordered relation denotes. -/
theorem InOrder.denotes (h : r.InOrder .ordered cur) : ∃ m, r.Denotes m ∧ Sorted m ∧ OrdersRows.Holds (r.latest.getD FactEnf.new) m ∧
    ∀ o ∈ r.orders, OrdersRows.Holds o.2 (Inner.turned o.1 m) := by
  obtain ⟨m, hm, ho⟩ := h.orders (.inl rfl)
  have harr : OrdersRows.Holds (r.latest.getD FactEnf.new) m := by
    unfold Denotes at hm
    cases hl : r.latest with
    | none =>
      rw [hl] at hm
      exact hm ▸ OrdersRows.new
    | some t =>
      rw [hl] at hm
      exact hm
  exact ⟨m, hm, OrdersRows.sorted harr, harr, ho⟩

/-- The rows a relation denotes are those read now. -/
theorem Denotes.rows {m : Rows} (h : r.Denotes m) (hup : ∀ v ∈ r.versions, v.1 ≤ cur) :
    ((Inner.lastLe cur r.versions).map FactEnf.iter).getD [] = m := by
  rw [lastLe_eq_latest hup]
  unfold Denotes at h
  cases hlast : r.latest with
  | none =>
    rw [hlast] at h
    exact h.symm
  | some t =>
    rw [hlast] at h
    exact OrdersRows.iter h

/-- A new version takes the arrangements with it. -/
theorem InOrder.put (h : r.InOrder layout e) {root : F} {log : List (LogKey × LogEntry)} {orders : List (Nat × F)}
    (hroot : layout = .ordered → ∃ m, OrdersRows.Holds root m ∧ ∀ o ∈ orders, OrdersRows.Holds o.2 (Inner.turned o.1 m)) :
    (⟨OrdMap.put e root r.versions, log, orders⟩ : RelRoots F).InOrder layout e := by
  refine ⟨sorted_put h.sorted, fun v hv => ?_, fun hl v hv => ?_, fun hl => ?_⟩
  · rcases mem_put hv with rfl | hv
    · exact le_rfl
    · exact h.upTo v hv
  · rcases mem_put hv with rfl | hv
    · exact (hroot hl).imp fun _ hm => hm.1
    · exact h.arranged hl v hv
  · have hlast := getLast_put h.upTo root
    have hl : layout = .ordered := by
      refine hl.resolve_right fun hnil => ?_
      rw [show OrdMap.put e root r.versions = [] from hnil] at hlast
      cases hlast
    obtain ⟨m, hm, ho⟩ := hroot hl
    refine ⟨m, ?_, ho⟩
    show match (OrdMap.put e root r.versions).getLast?.map Prod.snd with
      | none => m = []
      | some t => OrdersRows.Holds t m
    rw [hlast]
    exact hm

/-- Without arrangements a relation is in order if its versions are. -/
theorem inOrder_of_unordered (hs : Sorted r.versions) (hup : ∀ v ∈ r.versions, v.1 ≤ cur)
    (harr : layout = .ordered → ∀ v ∈ r.versions, ∃ m, OrdersRows.Holds v.2 m) (ho : r.orders = []) : r.InOrder layout cur := by
  refine ⟨hs, hup, harr, fun hl => ?_⟩
  have hdenotes : ∃ m, r.Denotes m := by
    unfold Denotes latest
    cases hlast : r.versions.getLast? with
    | none => exact ⟨[], rfl⟩
    | some v =>
      have hv := List.mem_of_getLast? hlast
      exact harr (hl.resolve_right (List.ne_nil_of_mem hv)) v hv
  exact hdenotes.imp fun m hm => ⟨hm, fun o ho' => absurd (ho ▸ ho') List.not_mem_nil⟩

omit [FactReads F] [OrdersRows F] in
theorem mem_folded {wm : Nat} {v : Nat × F} (hv : v ∈ (r.folded wm).versions) :
    (wm < v.1 ∧ v ∈ r.versions) ∨ (v.1 = wm ∧ ∃ e, (e, v.2) ∈ r.versions) := by
  have hkept : v ∈ r.versions.filter (fun v => wm < v.1) → wm < v.1 ∧ v ∈ r.versions := fun h =>
    ⟨of_decide_eq_true (List.mem_filter.1 h).2, (List.mem_filter.1 h).1⟩
  unfold folded at hv
  dsimp only at hv
  cases hl : Inner.lastLe wm r.versions with
  | none =>
    rw [hl] at hv
    exact .inl (hkept hv)
  | some t =>
    rw [hl] at hv
    rcases mem_put hv with rfl | hv
    · obtain ⟨x, hx, rfl⟩ := Option.map_eq_some_iff.1 hl
      exact .inr ⟨rfl, x.1, (List.mem_filter.1 (List.mem_of_getLast? hx)).1⟩
    · exact .inl (hkept hv)

/-- **A consolidated relation is in order**: its latest version is the one it was. -/
theorem InOrder.folded (h : r.InOrder layout cur) {wm : Nat} (hwm : wm ≤ cur) : (r.folded wm).InOrder layout cur := by
  refine inOrder_of_unordered ?_ (fun v hv => ?_) (fun hl v hv => ?_) rfl
  · unfold RelRoots.folded
    dsimp only
    split
    · exact sorted_put (h.sorted.filter _)
    · exact h.sorted.filter _
  · rcases mem_folded hv with ⟨-, hv⟩ | ⟨heq, -⟩
    · exact h.upTo v hv
    · exact heq ▸ hwm
  · rcases mem_folded hv with ⟨-, hv⟩ | ⟨-, e, hv⟩
    · exact h.arranged hl v hv
    · exact h.arranged hl (e, v.2) hv

end RelRoots

namespace Inner

variable {i j : Inner F} {e cur : Nat} {rel : RelId}

theorem inOrder_empty : (Inner.empty : Inner F).InOrder cur := fun _ => .empty _ _

theorem InOrder.put (h : i.InOrder cur) {r : RelRoots F} (hr : r.InOrder (i.layoutOf rel) cur) : (i.put rel r).InOrder cur := by
  intro rel'
  show ((i.put rel r).rootsOr rel').InOrder (i.layoutOf rel') cur
  rw [rootsOr_put]
  split_ifs with heq
  · rw [heq]
    exact hr
  · exact h rel'

/-- An arrangement kept in step with a row. -/
theorem arrange_arranged {arr : F} {m : Rows} (hm : Sorted m) {col : Nat} (h : OrdersRows.Holds arr (turned col m))
    (tuple : Tuple) (net : Diff) : OrdersRows.Holds (arrange col arr tuple net)
      (turned col (if net = 0 then drop tuple m else OrdMap.put tuple net m)) := by
  unfold arrange
  split_ifs with hnet
  · rw [turned_drop hm]
    cases rotate tuple col with
    | none => exact h
    | some key => exact OrdersRows.remove key h
  · rw [turned_put hm]
    cases rotate tuple col with
    | none => exact h
    | some key => exact OrdersRows.insertWith key net false h

/-- **One update leaves a branch in order.** -/
theorem InOrder.foldFact (h : i.InOrder e) (rel : RelId) (tuple : Tuple) (diff : Diff) : (i.foldFact e rel tuple diff).InOrder e := by
  unfold Inner.foldFact
  dsimp only
  rw [RelRoots.lastLe_eq_latest (h rel).upTo]
  refine h.put ((h rel).put fun hl => ?_)
  have hshape : (i.shapeOf rel).layout = .ordered := hl
  have hrel := h rel
  rw [hl] at hrel
  obtain ⟨m, -, hsorted, harr, ho⟩ := hrel.denotes
  rw [hshape]
  refine ⟨if (FactEnf.get ((i.rootsOr rel).latest.getD FactEnf.new) tuple).getD 0 + diff = 0 then drop tuple m
    else OrdMap.put tuple ((FactEnf.get ((i.rootsOr rel).latest.getD FactEnf.new) tuple).getD 0 + diff) m, ?_, fun o ho' => ?_⟩
  · split_ifs
    · exact OrdersRows.remove tuple harr
    · exact OrdersRows.insertWith tuple _ _ harr
  · obtain ⟨o, hmem, rfl⟩ := List.mem_map.1 ho'
    exact arrange_arranged hsorted (ho o hmem) tuple _

/-- Only the roots and the shapes count. -/
theorem InOrder.of_rels (h : i.InOrder cur) (hr : j.rels = i.rels) (hl : ∀ rel, j.layoutOf rel = i.layoutOf rel) : j.InOrder cur := by
  intro rel
  rw [hl rel, rootsOr, roots, hr]
  exact h rel

theorem InOrder.apply (h : i.InOrder i.current) (pre : List (RelId × Tuple)) (updates : List (RelId × Tuple × Diff))
    (origin : Origin) : (i.apply (i.current + 1) pre updates origin).InOrder (i.current + 1) := by
  have hfold : ∀ (us : List ((RelId × Tuple × Diff) × Nat)) (j : Inner F), j.InOrder (i.current + 1) →
      (us.foldl (applyOne (i.current + 1)) j).InOrder (i.current + 1) := by
    intro us
    induction us with
    | nil => exact fun _ hj => hj
    | cons u us ih => exact fun j hj => ih _ ((hj.put ((hj u.1.1).log _)).foldFact _ _ _)
  unfold Inner.apply
  refine InOrder.of_rels (hfold updates.zipIdx _ fun rel => ?_) (route_rels _ _ _).1 fun rel => ?_
  · exact (h rel).mono (Nat.le_succ _)
  · unfold layoutOf shapeOf route
    dsimp only
    split_ifs <;> rfl

omit [OrdersRows F] in
/-- A graft's roots are the ones grafted under their layouts. -/
theorem mem_graftRoots {lo hi : UInt64} {shift : Dsp} : ∀ {rels : List RelId} {gs : List (RelId × F)},
    i.graftRoots lo hi shift rels = .ok gs → ∀ g ∈ gs, ∃ t, i.factAt g.1 i.current = some t ∧
      FactEnf.spanWithin t (entKey lo) (entKey hi) lo hi = true ∧
        FactEnf.graft (i.layoutOf g.1) t (entKey lo) (entKey hi) shift = some g.2
  | [], gs, h, g, hg => by
      cases h
      exact absurd hg List.not_mem_nil
  | rel :: rels, gs, h, g, hg => by
      obtain ⟨o, ho, h⟩ := bind_ok h
      obtain ⟨rest, hrest, h⟩ := bind_ok h
      cases h
      rcases List.mem_append.1 hg with hg | hg
      · unfold graftOne at ho
        cases hf : i.factAt rel i.current with
        | none =>
          rw [hf] at ho
          cases ho
          exact absurd hg List.not_mem_nil
        | some t =>
          rw [hf] at ho
          dsimp only at ho
          split_ifs at ho with hany hwithin
          · cases ho
            exact absurd hg List.not_mem_nil
          · split at ho
            · cases ho
            · rename_i grafted hgraft
              cases ho
              obtain rfl := List.mem_singleton.1 hg
              exact ⟨t, hf, by simpa using hwithin, hgraft⟩
      · exact mem_graftRoots hrest g hg

omit [FactReads F] [OrdersRows F] in
theorem applyGraft_layoutOf (e : Nat) (lo hi : Tuple) (k : Inner F) (g : RelId × F) (rel : RelId) :
    (applyGraft e lo hi k g).layoutOf rel = k.layoutOf rel := by
  unfold applyGraft
  dsimp only
  split_ifs <;> rfl

theorem InOrder.applyGraft (h : i.InOrder e) {g : RelId × F} (hg : i.layoutOf g.1 = .ordered → ∃ m, OrdersRows.Holds g.2 m)
    (lo hi : Tuple) : (Inner.applyGraft e lo hi i g).InOrder e := by
  have hroot : (⟨OrdMap.put e g.2 (i.rootsOr g.1).versions, OrdMap.put (toLex (e, 0)) (.graft lo hi) (i.rootsOr g.1).log, []⟩
      : RelRoots F).InOrder (i.layoutOf g.1) e :=
    (h g.1).put fun hl => (hg hl).imp fun m hm => ⟨hm, fun _ ho => absurd ho List.not_mem_nil⟩
  unfold Inner.applyGraft
  dsimp only
  split_ifs
  · exact h.put hroot
  · exact (h.put hroot).of_rels rfl fun _ => rfl

theorem InOrder.graft (h : i.InOrder i.current) {rels : List RelId} {lo hi : UInt64} {shift : Dsp} {origin : Origin}
    (hg : i.graft rels lo hi shift origin = .ok j) : j.InOrder (i.current + 1) := by
  obtain ⟨grafts, hgrafts, hg⟩ := bind_ok hg
  cases hg
  have hroots : ∀ g ∈ grafts, i.layoutOf g.1 = .ordered → ∃ m, OrdersRows.Holds g.2 m := by
    intro g hmem hl
    obtain ⟨t, ht, hwithin, hgraft⟩ := mem_graftRoots hgrafts g hmem
    rw [hl] at hgraft
    rw [factAt_eq] at ht
    obtain ⟨v, hv, rfl⟩ := Option.map_eq_some_iff.1 ht
    obtain ⟨m, hm⟩ := (h g.1).arranged hl v (List.mem_filter.1 (List.mem_of_getLast? hv)).1
    exact OrdersRows.graft hm hwithin hgraft
  have hfold : ∀ (gs : List (RelId × F)) (k : Inner F), (∀ g ∈ gs, k.layoutOf g.1 = .ordered → ∃ m, OrdersRows.Holds g.2 m) →
      k.InOrder (i.current + 1) → (gs.foldl (Inner.applyGraft (i.current + 1) (displace (entKey lo) shift)
        (displace (entKey hi) shift)) k).InOrder (i.current + 1) := by
    intro gs
    induction gs with
    | nil => exact fun _ _ hk => hk
    | cons g gs ih =>
      refine fun k hgs hk => ih _ (fun g' hg' hl => ?_) (hk.applyGraft (hgs g (.head _)) _ _)
      rw [applyGraft_layoutOf] at hl
      exact hgs g' (.tail _ hg') hl
  exact (hfold grafts i hroots fun rel => (h rel).mono (Nat.le_succ _)).of_rels rfl fun _ => rfl

theorem InOrder.consolidate (h : i.InOrder i.current) (upTo : Nat) : (i.consolidate upTo).InOrder (i.consolidate upTo).current := by
  have hcur := Inner.consolidate_current i upTo
  have hlay : ∀ rel, (i.consolidate upTo).layoutOf rel = i.layoutOf rel := fun rel => by
    unfold Inner.consolidate
    dsimp only
    split_ifs <;> rfl
  intro rel
  rw [hcur, hlay, consolidate_rootsOr]
  split_ifs with hw
  · exact h rel
  · exact (h rel).folded (min_le_right _ _)

/-- A fork's relations are in order as its parent's are. -/
theorem InOrder.forkAt (h : i.InOrder i.current) (hs : Sorted i.rels) (at' : Nat) : (i.forkAt at').InOrder at' := by
  by_cases hne : at' = i.current
  · intro rel
    have hroots : (i.forkAt at').rootsOr rel = i.rootsOr rel := by
      rw [rootsOr, roots, Inner.forkAt, if_pos hne]
      rfl
    rw [hroots, hne]
    exact h rel
  · intro rel
    rw [forkAt_rootsOr hs hne]
    exact RelRoots.inOrder_of_unordered ((h rel).sorted.filter _) (fun v hv => of_decide_eq_true (List.mem_filter.1 hv).2)
      (fun hl v hv => (h rel).arranged hl v (List.mem_filter.1 hv).1) rfl

/-- A relation given another layout before it was written. -/
theorem InOrder.reshape (h : i.InOrder cur) (hl : ∀ rel, j.layoutOf rel = i.layoutOf rel ∨ (i.rootsOr rel).versions = [])
    (hr : j.rels = i.rels) : j.InOrder cur := by
  intro rel
  have hrel := h rel
  rw [rootsOr, roots, hr, ← roots, ← rootsOr]
  rcases hl rel with heq | hnil
  · rw [heq]
    exact hrel
  · exact ⟨hrel.sorted, hrel.upTo, fun _ v hv => absurd (hnil ▸ hv) List.not_mem_nil, fun _ => hrel.orders (.inr hnil)⟩

/-- An arrangement built holds the latest rows turned by its column. -/
theorem InOrder.ensureOrder (h : i.InOrder i.current) (rel : RelId) {col : Nat} (hcol : col < 2 ^ 32) :
    (i.ensureOrder rel col).InOrder i.current := by
  unfold Inner.ensureOrder
  cases hr : i.roots rel with
  | none => exact h
  | some r =>
    dsimp only
    split_ifs
    · exact h
    · have hrel := h rel
      rw [rootsOr, hr, Option.getD_some] at hrel
      refine h.put ⟨hrel.sorted, hrel.upTo, hrel.arranged, fun hl => ?_⟩
      obtain ⟨m, hm, ho⟩ := hrel.orders hl
      refine ⟨m, hm, fun o ho' => ?_⟩
      rcases mem_put ho' with rfl | ho'
      · dsimp only
        rw [Nat.mod_eq_of_lt hcol, hm.rows hrel.upTo]
        exact arrangement_holds col m
      · exact ho o ho'

omit [OrdersRows F] in
/-- What is found under a column once it was asked for. -/
theorem ensureOrder_found {r : RelRoots F} (hr : i.roots rel = some r) (col : Nat) :
    ∃ orders arr, (i.ensureOrder rel col).roots rel = some { r with orders } ∧ lookup (col % 2 ^ 32) orders = some arr := by
  unfold Inner.ensureOrder
  rw [hr]
  dsimp only
  split_ifs with hsome
  · obtain ⟨arr, harr⟩ := Option.isSome_iff_exists.1 hsome
    exact ⟨r.orders, arr, hr, harr⟩
  · exact ⟨_, _, lookup_put_self _ _ _, lookup_put_self _ _ _⟩

/-- **A column's arrangement answers as a filter does**, at the current edition of a relation in
order. -/
theorem InOrder.readRangeOn (h : i.InOrder i.current) (hw : ¬ i.current < i.watermark) {rel : RelId} {col : Nat}
    (hcol : col ≠ 0) (hfit : col < 2 ^ 32) (hl : i.layoutOf rel = .ordered) (lo hi : Value) :
    ∃ rows, (i.readRangeOn rel i.current col lo hi).2 = .ok rows ∧ rows.Perm (keepRows (inColumn col lo hi) (i.rowsAt rel i.current)) := by
  have hin : inColumn col lo hi = fun t : Tuple => (t.cells[col]?).any fun c => lo ≤ c && c < hi := by
    funext t
    unfold inColumn
    cases t.cells[col]? <;> rfl
  unfold Inner.readRangeOn
  rw [if_neg hw, if_neg hcol, if_neg (by rw [hl]; decide), if_neg (by simp)]
  dsimp only
  cases hr : i.roots rel with
  | none =>
    rw [ensureOrder_none hr]
    refine ⟨[], rfl, ?_⟩
    rw [rowsAt, factAt, hr]
    exact .refl _
  | some r =>
    obtain ⟨orders, arr, hr', harr⟩ := ensureOrder_found hr col
    have hrel := h.ensureOrder rel hfit rel
    rw [rootsOr, hr', Option.getD_some] at hrel
    have hlay : (i.ensureOrder rel col).layoutOf rel = .ordered := by
      rw [← hl]
      unfold Inner.ensureOrder
      rw [hr]
      dsimp only
      split_ifs <;> rfl
    obtain ⟨m, hm, ho⟩ := hrel.orders (.inl hlay)
    have hrows : i.rowsAt rel i.current = m := by
      rw [rowsAt, factAt, hr]
      exact hm.rows hrel.upTo
    have harranged := ho _ (mem_of_lookup harr)
    dsimp only at harranged
    rw [Nat.mod_eq_of_lt hfit] at harranged
    have hsorted : Sorted m := by
      rw [hlay] at hrel
      obtain ⟨m', hm', hs, -⟩ := hrel.denotes
      rw [← hm.rows hrel.upTo, hm'.rows hrel.upTo]
      exact hs
    rw [hr', Option.bind_some]
    dsimp only
    rw [harr]
    refine ⟨_, rfl, ?_⟩
    rw [hrows, OrdersRows.rangeCollect _ _ harranged]
    refine .trans (.of_eq ?_) (keepRows_byColumn_perm hsorted col lo hi)
    rw [hin, keepRows_byColumn]
    exact congrArg (List.map _) (List.filter_congr fun e _ => inRange_bound lo hi e.1)

end Inner

end InOrder

/-! ## Rows themselves -/

namespace FactRows

/-- Within a block that a displacement does not wrap, entities keep their distance. -/
theorem add_toNat {lo hi a d : UInt64} (h : (lo + d).toNat < (hi + d).toNat) (hlo : lo ≤ a) (hhi : a < hi) :
    (a + d).toNat = (lo + d).toNat + (a.toNat - lo.toNat) := by
  rw [UInt64.le_iff_toNat_le] at hlo
  rw [UInt64.lt_iff_toNat_lt] at hhi
  rw [UInt64.toNat_add, UInt64.toNat_add] at *
  have := d.toNat_lt
  have := hi.toNat_lt
  omega

/-- Rows whose entities lie in the block keep their order. -/
theorem displace_lt {lo hi : UInt64} {d : Dsp} (h : (lo + d.toUInt64).toNat < (hi + d.toUInt64).toNat) : ∀ {as bs : List Value},
    cellsWithin ⟨as⟩ lo hi = true → cellsWithin ⟨bs⟩ lo hi = true → (⟨as⟩ : Tuple) < ⟨bs⟩ →
      (⟨as.map (Value.displace d)⟩ : Tuple) < ⟨bs.map (Value.displace d)⟩
  | [], [], _, _, hlt => hlt
  | [], _ :: _, _, _, _ => Tuple.nil_lt
  | _ :: _, [], _, _, hlt => absurd hlt Tuple.not_lt_nil
  | a :: as, b :: bs, ha, hb, hlt => by
      simp only [cellsWithin, List.all_cons, Bool.and_eq_true] at ha hb
      rw [List.map_cons, List.map_cons, Tuple.cells_lt_cons]
      rcases Tuple.cells_lt_cons.1 hlt with hlt | ⟨heq, hlt⟩
      · refine .inl ?_
        rw [← compare_lt_iff_lt, Value.compare_def] at hlt ⊢
        cases a with
        | ent x => cases b with
          | ent y =>
            simp only [Bool.and_eq_true, decide_eq_true_eq] at ha hb
            simp only [Value.cmp, cmpEntity, compare_lt_iff_lt, Value.displace] at hlt ⊢
            rw [add_toNat h ha.1.1 ha.1.2, add_toNat h hb.1.1 hb.1.2]
            have hx := UInt64.le_iff_toNat_le.1 ha.1.1
            omega
          | _ => exact hlt
        | _ => cases b <;> exact hlt
      · exact .inr ⟨congrArg _ heq, displace_lt h ha.2 hb.2 hlt⟩

/-- **A block copied past where its rows are** leaves the rows in order. -/
theorem sorted_graft {m m' : Rows} (hm : Sorted m) {lo hi : UInt64} {d : Dsp}
    (hin : (between (Inner.entKey lo) (Inner.entKey hi) m).all (fun e => cellsWithin e.1 lo hi) = true)
    (hg : Tree.graftMap (Inner.entKey lo) (Inner.entKey hi) d m = some m') : Sorted m' := by
  have hkey : ∀ id : UInt64, displace (Inner.entKey id) d = Inner.entKey (id + d.toUInt64) := fun id => Tuple.displace_eq _ d
  have hkey_lt : ∀ a b : UInt64, Inner.entKey a < Inner.entKey b ↔ a.toNat < b.toNat := by
    intro a b
    rw [Inner.entKey, Inner.entKey, Tuple.cells_lt_cons, ← compare_lt_iff_lt, Value.compare_def]
    simp only [Value.cmp, cmpEntity, compare_lt_iff_lt, lt_irrefl, and_false, or_false]
  unfold Tree.graftMap at hg
  dsimp only at hg
  split_ifs at hg with hle hempty hfull hall
  · cases hg
    exact hm
  · cases hg
    exact hm
  · cases hg
    push Not at hfull
    obtain ⟨hlt, hfree⟩ := hfull
    have hblock : (lo + d.toUInt64).toNat < (hi + d.toUInt64).toNat := by
      rw [hkey, hkey, hkey_lt] at hlt
      exact hlt
    have hcopy : ∀ e ∈ Tree.moved d (between (Inner.entKey lo) (Inner.entKey hi) m),
        displace (Inner.entKey lo) d ≤ e.1 ∧ e.1 < displace (Inner.entKey hi) d := fun e he => by
      simpa using List.all_eq_true.1 hall e he
    have hpast : ∀ e ∈ atLeast (displace (Inner.entKey lo) d) m, displace (Inner.entKey hi) d ≤ e.1 := by
      intro e he
      obtain ⟨hmem, hle⟩ := List.mem_filter.1 he
      refine not_lt.1 fun hlt => ?_
      have hbetween : e ∈ between (displace (Inner.entKey lo) d) (displace (Inner.entKey hi) d) m :=
        List.mem_filter.2 ⟨hmem, by simpa using And.intro (of_decide_eq_true hle) hlt⟩
      have hnil : between (displace (Inner.entKey lo) d) (displace (Inner.entKey hi) d) m = [] := by simpa using hfree
      rw [hnil] at hbetween
      exact absurd hbetween List.not_mem_nil
    have hbefore : ∀ e ∈ below (displace (Inner.entKey lo) d) m, e.1 < displace (Inner.entKey lo) d := fun e he => by
      simpa using (List.mem_filter.1 he).2
    refine sorted_append.2 ⟨sorted_append.2 ⟨hm.filter _, ?_, ?_⟩, hm.filter _, ?_⟩
    · refine List.pairwise_map.2 ((hm.filter _).imp_of_mem fun {a b} ha hb hab => ?_)
      rw [show displace a.1 d = ⟨a.1.cells.map (Value.displace d)⟩ from Tuple.displace_eq _ d,
        show displace b.1 d = ⟨b.1.cells.map (Value.displace d)⟩ from Tuple.displace_eq _ d]
      exact displace_lt hblock (List.all_eq_true.1 hin a ha) (List.all_eq_true.1 hin b hb) hab
    · exact fun x hx y hy => (hbefore x hx).trans_le (hcopy y hy).1
    · intro x hx y hy
      rcases List.mem_append.1 hx with hx | hx
      · exact (hbefore x hx).trans_le (by simpa using (List.mem_filter.1 hy).2)
      · exact (hcopy x hx).2.trans_le (hpast y hy)

instance instOrdersRows : OrdersRows FactRows where
  Holds t m := t = m ∧ Sorted m
  sorted h := h.2
  new := ⟨rfl, .nil⟩
  get _ h := by
    rw [← h.1]
    rfl
  insertWith _ _ _ h := ⟨by rw [← h.1]; rfl, OrdMap.sorted_put h.2⟩
  remove _ h := ⟨by rw [← h.1]; rfl, h.2.filter _⟩
  iter h := h.1
  rangeCollect {t m} lo hi h := by
    rw [← h.1]
    exact Arranges.rangeCollect lo hi (show Arranges.Arranged t t from rfl)
  graft h hin hg := ⟨_, rfl, sorted_graft (h.1 ▸ h.2) hin hg⟩
  Covered _ := True
  search h _ _ := by
    rw [← h.1]
    rfl

end FactRows

end Grmpl

import Grmpl.Ent.Dsp

/-!
# Rows moved, and rows stepped

Moving a row shifts its entities, stepping it goes on by a stride of its own in each column.
Both wrap; where nothing does, both keep the order of rows.

* `Tuple.Stays`, `Tuple.StepsIn`: no cell is taken past its range.
* `Tuple.compare_displace`: rows that stay keep their order.
* `Tuple.strideTo_displace`, `Tuple.step_lt`: the stride of moved rows, and rows along a stride.
* `rows_displace`: the laws the tree, its diff and its runs rest on.
-/

open Compare

namespace Grmpl

/-! ## Words moved by an integer -/

/-- A word moved by an integer that leaves it in range is moved by just that. -/
theorem toNat_add_ofInt {x : UInt64} {z : Int} (hlo : 0 ≤ x.toNat + z) (hhi : x.toNat + z < 2 ^ 64) :
    ((x + (Int64.ofInt z).toUInt64).toNat : Int) = x.toNat + z := by
  have hz : ((Int64.ofInt z).toUInt64.toNat : Int) = z % 2 ^ 64 := by
    rw [← UInt64.toNat_toBitVec, Int64.toBitVec_toUInt64, Int64.toBitVec_ofInt, BitVec.toNat_ofInt]
    exact Int.toNat_of_nonneg (Int.emod_nonneg _ (by norm_num))
  rw [UInt64.toNat_add, Int.natCast_emod, Nat.cast_add, hz]
  show (x.toNat + z % 2 ^ 64 : Int) % 2 ^ 64 = x.toNat + z
  rw [Int.add_emod_emod, Int.emod_eq_of_lt hlo hhi]

theorem toInt_add_ofInt {x : Int64} {z : Int} (hlo : -2 ^ 63 ≤ x.toInt + z) (hhi : x.toInt + z < 2 ^ 63) :
    (x + Int64.ofInt z).toInt = x.toInt + z := by
  have hsize : (Int64.size : Int) = 2 ^ 64 := rfl
  rw [Int64.toInt_add, Int64.toInt_ofInt, Int.add_bmod_bmod, Int.bmod_eq_of_le] <;> omega

/-- A comparison is decided by which is the lesser. -/
theorem compare_congr {α β : Type*} [LinearOrder α] [LinearOrder β] {a b : α} {c d : β}
    (h : a < b ↔ c < d) (h' : b < a ↔ d < c) : compare a b = compare c d := by
  rcases lt_trichotomy a b with hab | hab | hab
  · rw [compare_lt_iff_lt.2 hab, compare_lt_iff_lt.2 (h.1 hab)]
  · have hdc : ¬ d < c := fun hlt => hab.not_gt (h'.2 hlt)
    have hcd : ¬ c < d := fun hlt => hab.not_lt (h.2 hlt)
    have hcd : c = d := le_antisymm (not_lt.1 hdc) (not_lt.1 hcd)
    rw [compare_eq_iff_eq.2 hab, compare_eq_iff_eq.2 hcd]
  · rw [compare_gt_iff_gt.2 hab, compare_gt_iff_gt.2 (h'.1 hab)]

/-! ## Rows that stay in range -/

/-- An entity moved without wrapping. Other cells do not move. -/
def Value.Stays (d : Dsp) : Value → Prop
  | .ent e => 0 ≤ (e.id.toNat : Int) + d.toInt ∧ (e.id.toNat : Int) + d.toInt < 2 ^ 64
  | _ => True

/-- None of a row's entities wraps. -/
def Tuple.Stays (d : Dsp) (t : Tuple) : Prop := ∀ c ∈ t.cells, c.Stays d

variable {d : Dsp} {x y s : Value} {i j : Int}

theorem toNat_displace {e : Entity} (h : (Value.ent e).Stays d) :
    ((e.id + d.toUInt64).toNat : Int) = e.id.toNat + d.toInt := by
  have hmoved := toNat_add_ofInt h.1 h.2
  rwa [Int64.ofInt_toInt] at hmoved

/-- **Cells that stay in range keep their order.** -/
theorem Value.compare_displace (hx : x.Stays d) (hy : y.Stays d) :
    compare (x.displace d) (y.displace d) = compare x y := by
  cases x with
  | ent a => cases y with
    | ent b =>
      have ha := toNat_displace hx
      have hb := toNat_displace hy
      simp only [Value.compare_def, Value.displace, Value.cmp, cmpEntity]
      exact compare_congr (by omega) (by omega)
    | _ => rfl
  | _ => cases y <;> rfl

theorem Value.displace_eq_iff (hx : x.Stays d) (hy : y.Stays d) : x.displace d = y.displace d ↔ x = y := by
  rw [← compare_eq_iff_eq, Value.compare_displace hx hy, compare_eq_iff_eq]

/-- **Rows that stay in range keep their order.** -/
theorem Tuple.compare_displace {t u : Tuple} (ht : t.Stays d) (hu : u.Stays d) :
    compare (t.displace d) (u.displace d) = compare t u := by
  rw [Tuple.compare_def, Tuple.compare_def, Tuple.displace_eq, Tuple.displace_eq]
  refine lexCmp_map fun a ha b hb => ?_
  rw [← Value.compare_def, ← Value.compare_def]
  exact Value.compare_displace (ht a ha) (hu b hb)

/-! ## Strides -/

/-- A cell stepped `i` times without wrapping. Cells without a stride do not step. -/
def Value.StepsIn (cell s : Value) (i : Int) : Prop :=
  match cell, s with
  | .ent e, .int s => 0 ≤ (e.id.toNat : Int) + s.toInt * i ∧ (e.id.toNat : Int) + s.toInt * i < 2 ^ 64
  | .int x, .int s => -2 ^ 63 ≤ x.toInt + s.toInt * i ∧ x.toInt + s.toInt * i < 2 ^ 63
  | _, _ => True

/-- No cell of a row wraps on the way to its `i`-th step. -/
def Tuple.StepsIn (t stride : Tuple) (i : Int) : Prop := ∀ p ∈ t.cells.zip stride.cells, p.1.StepsIn p.2 i

instance (i : Int) : (cell s : Value) → Decidable (cell.StepsIn s i)
  | .ent _, .int _ => inferInstanceAs (Decidable (_ ∧ _))
  | .int _, .int _ => inferInstanceAs (Decidable (_ ∧ _))
  | .ent _, .ent _ | .ent _, .float _ | .ent _, .text _ | .ent _, .bool _ | .ent _, .tuple _
  | .ent _, .bytes _ | .ent _, .code _ | .int _, .ent _ | .int _, .float _ | .int _, .text _
  | .int _, .bool _ | .int _, .tuple _ | .int _, .bytes _ | .int _, .code _ => .isTrue trivial
  | .float _, _ | .text _, _ | .bool _, _ | .tuple _, _ | .bytes _, _ | .code _, _ => .isTrue trivial

instance (t s : Tuple) (i : Int) : Decidable (t.StepsIn s i) := inferInstanceAs (Decidable (∀ p ∈ _, _))

/-- The stride between cells that stay is the stride between them moved. -/
theorem Value.strideTo_displace (hx : x.Stays d) (hy : y.Stays d) :
    Value.strideTo (x.displace d) (y.displace d) = Value.strideTo x y := by
  unfold Value.strideTo
  rw [if_congr (Value.displace_eq_iff hx hy) rfl rfl]
  cases x with
  | ent a => cases y with
    | ent b =>
      have ha := toNat_displace hx
      have hb := toNat_displace hy
      simp only [Value.displace]
      rw [ha, hb, add_sub_add_right_eq_sub]
    | _ => rfl
  | _ => cases y <;> rfl

theorem mapM_strideTo_displace {as bs : List Value} (has : ∀ c ∈ as, c.Stays d) (hbs : ∀ c ∈ bs, c.Stays d) :
    ((as.map (Value.displace d)).zip (bs.map (Value.displace d))).mapM (fun (x, y) => Value.strideTo x y)
      = (as.zip bs).mapM (fun (x, y) => Value.strideTo x y) := by
  induction as generalizing bs with
  | nil => rfl
  | cons a as ih => cases bs with
    | nil => rfl
    | cons b bs =>
      rw [List.forall_mem_cons] at has hbs
      simp only [List.map_cons, List.zip_cons_cons, List.mapM_cons, Value.strideTo_displace has.1 hbs.1,
        ih has.2 hbs.2]

/-- **The stride between rows that stay is the stride between them moved.** -/
theorem Tuple.strideTo_displace {t u : Tuple} (ht : t.Stays d) (hu : u.Stays d) :
    (t.displace d).strideTo (u.displace d) = t.strideTo u := by
  have hle : u.displace d ≤ t.displace d ↔ u ≤ t := by
    rw [← compare_le_iff_le, ← compare_le_iff_le, Tuple.compare_displace hu ht]
  unfold Tuple.strideTo
  rw [if_congr (or_congr Iff.rfl hle) rfl rfl, Tuple.displace_eq, Tuple.displace_eq]
  simp only [List.length_map, mapM_strideTo_displace ht hu]

theorem ofInt_mul_toInt (s : Int64) (i : Int) : s * Int64.ofInt i = Int64.ofInt (s.toInt * i) := by
  rw [Int64.ofInt_mul, Int64.ofInt_toInt]

theorem Value.step_ent {e : Entity} {s : Int64} (h : (Value.ent e).StepsIn (.int s) i) :
    ∃ e' : Entity, Value.step (.ent e) (.int s) i = .ent e' ∧ (e'.id.toNat : Int) = e.id.toNat + s.toInt * i := by
  refine ⟨⟨e.id + (s * Int64.ofInt i).toUInt64⟩, ?_, ?_⟩
  · rw [Value.step, ite_eq_right_iff]
    intro hs
    rw [Value.int.injEq] at hs
    rw [hs, Int64.zero_mul, toUInt64_zero, UInt64.add_zero]
  · rw [ofInt_mul_toInt]
    exact toNat_add_ofInt h.1 h.2

theorem Value.step_int {x s : Int64} (h : (Value.int x).StepsIn (.int s) i) :
    ∃ x' : Int64, Value.step (.int x) (.int s) i = .int x' ∧ x'.toInt = x.toInt + s.toInt * i := by
  refine ⟨x + s * Int64.ofInt i, ?_, ?_⟩
  · rw [Value.step, ite_eq_right_iff]
    intro hs
    rw [Value.int.injEq] at hs
    rw [hs, Int64.zero_mul, Int64.add_zero]
  · rw [ofInt_mul_toInt]
    exact toInt_add_ofInt h.1 h.2

/-- A stride up takes a cell up with every step. -/
theorem Value.step_lt (hs : Value.strideTo x y = some s) (hlt : x < y) (hij : i < j)
    (hi : x.StepsIn s i) (hj : x.StepsIn s j) : Value.step x s i < Value.step x s j := by
  unfold Value.strideTo at hs
  rw [if_neg hlt.ne] at hs
  cases x with
  | ent a => cases y with
    | ent b =>
      have hab : a.id.toNat < b.id.toNat := compare_lt_iff_lt.1 hlt
      simp only [Option.ite_none_right_eq_some, Option.some.injEq] at hs
      obtain ⟨hrange, rfl⟩ := hs
      have hup : 0 < (Int64.ofInt ((b.id.toNat : Int) - a.id.toNat)).toInt := by
        rw [Int64.toInt_ofInt_of_le hrange.1 hrange.2]
        omega
      obtain ⟨p, hp, hpn⟩ := Value.step_ent hi
      obtain ⟨q, hq, hqn⟩ := Value.step_ent hj
      have hmul := mul_lt_mul_of_pos_left hij hup
      have hpq : p.id.toNat < q.id.toNat := by omega
      rw [hp, hq]
      exact compare_lt_iff_lt.2 hpq
    | _ => cases hs
  | int a => cases y with
    | int b =>
      have hab : a.toInt < b.toInt := compare_lt_iff_lt.1 hlt
      simp only [Option.ite_none_right_eq_some, Option.some.injEq] at hs
      obtain ⟨hrange, rfl⟩ := hs
      have hup : 0 < (Int64.ofInt (b.toInt - a.toInt)).toInt := by
        rw [Int64.toInt_ofInt_of_le hrange.1 hrange.2]
        omega
      obtain ⟨p, hp, hpn⟩ := Value.step_int hi
      obtain ⟨q, hq, hqn⟩ := Value.step_int hj
      have hmul := mul_lt_mul_of_pos_left hij hup
      have hpq : p.toInt < q.toInt := by omega
      rw [hp, hq]
      exact compare_lt_iff_lt.2 hpq
    | _ => cases hs
  | _ => cases y <;> cases hs

/-- The columns' strides take rows up: the first that steps steps up. -/
theorem step_cells_lt {as bs ss : List Value} (hss : (as.zip bs).mapM (fun (x, y) => Value.strideTo x y) = some ss)
    (hlen : as.length = bs.length) (hlt : (⟨as⟩ : Tuple) < ⟨bs⟩) (hij : i < j)
    (hi : (⟨as⟩ : Tuple).StepsIn ⟨ss⟩ i) (hj : (⟨as⟩ : Tuple).StepsIn ⟨ss⟩ j) :
    (⟨as⟩ : Tuple).step ⟨ss⟩ i < (⟨as⟩ : Tuple).step ⟨ss⟩ j := by
  induction as generalizing bs ss with
  | nil =>
    rw [List.eq_nil_of_length_eq_zero hlen.symm] at hlt
    exact absurd hlt (lt_irrefl _)
  | cons a as ih => cases bs with
    | nil => exact absurd hlen (Nat.succ_ne_zero _)
    | cons b bs =>
      simp only [List.zip_cons_cons, List.mapM_cons, Option.bind_eq_bind, Option.bind_eq_some_iff] at hss
      obtain ⟨s, hs, ss, hss, hcons⟩ := hss
      cases hcons
      unfold Tuple.StepsIn at hi hj
      rw [List.zip_cons_cons, List.forall_mem_cons] at hi hj
      show (⟨_ :: _⟩ : Tuple) < ⟨_ :: _⟩
      rw [Tuple.cells_lt_cons]
      rcases Tuple.cells_lt_cons.1 hlt with hab | ⟨rfl, hrest⟩
      · exact .inl (Value.step_lt hs hab hij hi.1 hj.1)
      · unfold Value.strideTo at hs
        rw [if_pos rfl, Option.some.injEq] at hs
        subst hs
        exact .inr ⟨rfl, ih hss (Nat.succ.inj hlen) hrest hi.2 hj.2⟩

/-- **Rows along a stride ascend while no cell wraps.** -/
theorem Tuple.step_lt {t u s : Tuple} (hs : t.strideTo u = some s) (hij : i < j)
    (hi : t.StepsIn s i) (hj : t.StepsIn s j) : t.step s i < t.step s j := by
  have hlt := (Tuple.strideTo_spec hs).2.1
  rw [Tuple.strideTo, Option.ite_none_left_eq_some, Option.map_eq_some_iff] at hs
  obtain ⟨hcond, ss, hss, rfl⟩ := hs
  exact step_cells_lt hss (not_not.1 fun hne => hcond (.inl hne)) hlt hij hi hj

/-! ## The laws -/

/-- **The algebra of displacements on rows.** Moving twice is moving by the sum and moving by
nothing is nothing; a row compares moved as it does when built; rows none of whose entities
wraps keep their order and their strides; and the steps along a stride start with the row it
was taken to, move with the row, and ascend while no cell wraps. -/
theorem rows_displace (t u : Tuple) (a b : Dsp) :
    (t.displace a).displace b = t.displace (a + b) ∧ t.displace 0 = t ∧
      t.cmpDisplaced a u = compare (t.displace a) u ∧
      (t.Stays a → u.Stays a → compare (t.displace a) (u.displace a) = compare t u) ∧
      ∀ s, t.strideTo u = some s →
        t.step s 1 = u ∧
          (∀ i, (t.step s i).displace a = (t.displace a).step s i) ∧
          (t.Stays a → u.Stays a → (t.displace a).strideTo (u.displace a) = some s) ∧
          ∀ i j, i < j → t.StepsIn s i → t.StepsIn s j → t.step s i < t.step s j := by
  refine ⟨Tuple.displace_displace t a b, if_pos rfl, Tuple.cmpDisplaced_eq t a u, Tuple.compare_displace,
    fun s hs => ⟨(Tuple.strideTo_spec hs).2.2, fun i => Tuple.displace_step t s i a, ?_, ?_⟩⟩
  · intro ht hu
    rw [Tuple.strideTo_displace ht hu, hs]
  · exact fun i j hij hi hj => Tuple.step_lt hs hij hi hj

theorem rows_displace_sample :
    let t : Tuple := ⟨[.ent ⟨10⟩, .int 5, .bool true]⟩
    let s : Tuple := ⟨[.int 2, .int (-1), .int 0]⟩
    t.step s 1 = ⟨[.ent ⟨12⟩, .int 4, .bool true]⟩ ∧ t.step s (-3) < t.step s 4 := by
  intro t s
  have hlaws := rows_displace t ⟨[.ent ⟨12⟩, .int 4, .bool true]⟩ 1000 (-2)
  obtain ⟨hone, -, -, hlt⟩ := hlaws.2.2.2.2 s (by decide)
  exact ⟨hone, hlt (-3) 4 (by decide) (by decide) (by decide)⟩

end Grmpl

import Mathlib.Data.List.Dedup
import Mathlib.Data.List.Basic
import Mathlib.Order.Nat

/-!
# Contents, and what contains them

A node has parts, each at a place in it, and every part is lower than its whole. What
a whole contains is read downwards, what contains a node upwards, through edges that
were recorded from part to whole. The climb finds every holder of every whole whose
own edges were all recorded, however many others were.

* `Parts`: nodes, their parts and heights.
* `Within`: a node lies in a whole at a place.
* `Recorded`: every part of a recorded node has its edge and is recorded.
* `climb`: the holders of the wholes a node lies in; `mem_climb`: it finds those.
-/

namespace Contents

/-- Nodes and their parts, each at a place, and lower than the whole. -/
class Parts (N : Type*) (D : outParam Type*) where
  parts : N → List (N × D)
  height : N → Nat
  height_lt : ∀ n, ∀ p ∈ parts n, height p.1 < height n

export Parts (parts height)

variable {N D H : Type*} [Parts N D] [Zero D] [Add D]

/-- A node lies in a whole at a place. -/
inductive Within : N → D → N → Prop where
  | whole (r : N) : Within r 0 r
  | part {n p r : N} {d o : D} : Within p o r → (n, d) ∈ parts p → Within n (o + d) r

theorem Within.height_le {n r : N} {o : D} (h : Within n o r) : height n ≤ height r := by
  induction h with
  | whole => exact Nat.le_refl _
  | part _ hd ih => exact Nat.le_trans (Nat.le_of_lt (Parts.height_lt _ _ hd)) ih

/-- Every part of a recorded node has an edge to it, and is recorded. -/
def Recorded (edges : List (N × N × D)) (known : N → Prop) : Prop :=
  ∀ n, known n → ∀ p ∈ parts n, (p.1, n, p.2) ∈ edges ∧ known p.1

theorem Recorded.within {edges : List (N × N × D)} {known : N → Prop} (h : Recorded edges known)
    {n r : N} {o : D} (hn : Within n o r) (hr : known r) : known n := by
  induction hn with
  | whole => exact hr
  | part _ hd ih => exact (h _ (ih hr) _ hd).2

variable [DecidableEq N] [DecidableEq D] [DecidableEq H]

/-- The holders of the wholes a node lies in, with its place in each, found through the
edges above it. -/
def climb (edges : List (N × N × D)) (holders : List (N × H)) : Nat → N → List (H × D × N)
  | 0, _ => []
  | fuel + 1, n =>
      (((holders.filter fun h => h.1 = n).map fun h => (h.2, (0 : D), n)) ++
        (edges.filter fun e => e.1 = n).flatMap fun e =>
          (climb edges holders fuel e.2.1).map fun x => (x.1, x.2.1 + e.2.2, x.2.2)).dedup

/-- As far up as a climb can find a holder. -/
def top (holders : List (N × H)) : Nat := (holders.map fun h => height h.1).foldr max 0 + 1

omit [Zero D] [Add D] [DecidableEq N] [DecidableEq D] [DecidableEq H] in
theorem height_lt_top {holders : List (N × H)} {h : N × H} (hh : h ∈ holders) :
    height h.1 < top holders := by
  unfold top
  induction holders with
  | nil => exact absurd hh (by simp)
  | cons x xs ih =>
    simp only [List.map_cons, List.foldr_cons]
    rcases List.mem_cons.1 hh with rfl | hh
    · omega
    · have := ih hh
      omega

variable {edges : List (N × N × D)} {holders : List (N × H)}

theorem within_of_climb (hedges : ∀ e ∈ edges, (e.1, e.2.2) ∈ parts e.2.1) {h : H} {o : D} {r : N} :
    ∀ {fuel : Nat} {n : N}, (h, o, r) ∈ climb edges holders fuel n → Within n o r ∧ (r, h) ∈ holders := by
  intro fuel
  induction fuel generalizing h o r with
  | zero => exact fun hx => absurd hx (by simp [climb])
  | succ fuel ih =>
    intro n hx
    rw [climb, List.mem_dedup, List.mem_append] at hx
    rcases hx with hx | hx
    · obtain ⟨x, hxn, heq⟩ := List.mem_map.1 hx
      obtain ⟨hheld, hn⟩ := List.mem_filter.1 hxn
      obtain rfl : x.1 = n := by simpa using hn
      cases heq
      exact ⟨.whole _, hheld⟩
    · obtain ⟨e, hen, hup⟩ := List.mem_flatMap.1 hx
      obtain ⟨he, hn⟩ := List.mem_filter.1 hen
      obtain rfl : e.1 = n := by simpa using hn
      obtain ⟨x, hxp, heq⟩ := List.mem_map.1 hup
      cases heq
      obtain ⟨hw, hh⟩ := ih hxp
      exact ⟨.part hw (hedges e he), hh⟩

theorem climb_of_within {known : N → Prop} (hrec : Recorded edges known) {h : H} {o : D} {n r : N}
    (hw : Within n o r) (hh : (r, h) ∈ holders) (hr : known r) :
    ∀ {fuel : Nat}, height r < fuel + height n → (h, o, r) ∈ climb edges holders fuel n := by
  induction hw with
  | whole r =>
    intro fuel hfuel
    obtain ⟨fuel, rfl⟩ : ∃ f, fuel = f + 1 := ⟨fuel - 1, by omega⟩
    rw [climb, List.mem_dedup, List.mem_append]
    exact .inl (List.mem_map.2 ⟨(r, h), List.mem_filter.2 ⟨hh, by simp⟩, rfl⟩)
  | @part n p r d o hw hd ih =>
    intro fuel hfuel
    have hlt := Parts.height_lt _ _ hd
    have hle := hw.height_le
    obtain ⟨fuel, rfl⟩ : ∃ f, fuel = f + 1 := ⟨fuel - 1, by dsimp only at hlt; omega⟩
    rw [climb, List.mem_dedup, List.mem_append]
    have hedge := (hrec p (hrec.within hw hr) _ hd).1
    refine .inr (List.mem_flatMap.2 ⟨_, List.mem_filter.2 ⟨hedge, by simp⟩, List.mem_map.2
      ⟨(h, o, r), ih hh hr ?_, rfl⟩⟩)
    dsimp only at hlt
    omega

/-- **A climb finds exactly the holders of the wholes a node lies in**, where edges
are true and every holder's whole was recorded. -/
theorem mem_climb {known : N → Prop} (hedges : ∀ e ∈ edges, (e.1, e.2.2) ∈ parts e.2.1)
    (hrec : Recorded edges known) (hheld : ∀ h ∈ holders, known h.1) {h : H} {o : D} {n r : N} :
    (h, o, r) ∈ climb edges holders (top holders) n ↔ Within n o r ∧ (r, h) ∈ holders := by
  refine ⟨within_of_climb hedges, fun ⟨hw, hh⟩ => climb_of_within hrec hw hh (hheld _ hh) ?_⟩
  exact Nat.lt_of_lt_of_le (height_lt_top hh) (Nat.le_add_right _ _)

end Contents

import Mathlib.Data.List.Basic
import Mathlib.Data.List.Nodup
import Mathlib.Data.Set.Function
import Mathlib.Data.Nat.Cast.Order.Ring

/-!
# Streams numbered as they grow

A log whose entries each belong to a stream. It is numbered when the entries of
every stream, oldest first, carry the first numbers there are.

* `ofStream`, `Numbered`: the entries of a stream, and the invariant.
* `numbers n k`: the `k` numbers from the `n`-th on.
* `Numbered.append`: a batch of one stream that takes the next numbers keeps it.
* `Numbered.nodup`, `Numbered.eq_of_number`, `Numbered.getElem_number`: no number twice, none skipped.
-/

namespace Numbering

variable {G S N : Type} [DecidableEq S] {stream : G → S} {number : G → N} {enc : Nat → N}

/-- The entries of one stream, oldest first. -/
def ofStream (stream : G → S) (s : S) (log : List G) : List G := log.filter fun g => stream g = s

/-- The numbers from one on. -/
def numbers (enc : Nat → N) (start k : Nat) : List N := (List.range' start k).map enc

/-- Every stream's entries carry the first numbers there are, in order. -/
def Numbered (stream : G → S) (number : G → N) (enc : Nat → N) (log : List G) : Prop :=
  ∀ s, (ofStream stream s log).map number = numbers enc 0 (ofStream stream s log).length

theorem mem_ofStream {s : S} {log : List G} {g : G} :
    g ∈ ofStream stream s log ↔ g ∈ log ∧ stream g = s := by
  simp [ofStream]

theorem ofStream_append (s : S) (log batch : List G) :
    ofStream stream s (log ++ batch) = ofStream stream s log ++ ofStream stream s batch :=
  List.filter_append ..

theorem ofStream_self {s : S} {batch : List G} (h : ∀ g ∈ batch, stream g = s) :
    ofStream stream s batch = batch := List.filter_eq_self.2 fun g hg => by simpa using h g hg

theorem ofStream_other {s s' : S} {batch : List G} (h : ∀ g ∈ batch, stream g = s) (hne : s' ≠ s) :
    ofStream stream s' batch = [] := List.filter_eq_nil_iff.2 fun g hg => by
  simpa [h g hg] using hne.symm

theorem numbers_append (start j k : Nat) :
    numbers enc start j ++ numbers enc (start + j) k = numbers enc start (j + k) := by
  rw [numbers, numbers, numbers, ← List.map_append, List.range'_append_1]

theorem numbered_nil : Numbered stream number enc [] := fun _ => rfl

/-- **A batch of one stream that takes the stream's next numbers keeps the log
numbered.** -/
theorem Numbered.append {log batch : List G} (h : Numbered stream number enc log) {s : S}
    (hs : ∀ g ∈ batch, stream g = s)
    (hb : batch.map number = numbers enc (ofStream stream s log).length batch.length) :
    Numbered stream number enc (log ++ batch) := by
  intro s'
  rw [ofStream_append]
  by_cases heq : s' = s
  · subst heq
    rw [ofStream_self hs, List.map_append, h s', hb, List.length_append]
    have happ : numbers enc 0 _ ++ numbers enc _ _ = _ :=
      numbers_append 0 (ofStream stream s' log).length batch.length
    rw [Nat.zero_add] at happ
    exact happ
  · rw [ofStream_other hs heq, List.append_nil]
    exact h s'

/-- The entry at a place of its stream has that place's number. -/
theorem Numbered.getElem_number {log : List G} (h : Numbered stream number enc log) {s : S} {i : Nat}
    (hi : i < (ofStream stream s log).length) : number (ofStream stream s log)[i] = enc i := by
  have hmap := congrArg (fun l => l[i]?) (h s)
  simpa [numbers, hi] using hmap

/-- Two entries of a stream with one number are in the same place. -/
theorem Numbered.eq_of_number {log : List G} (h : Numbered stream number enc log) {s : S}
    (hinj : Set.InjOn enc {i | i < (ofStream stream s log).length}) {g : G} {i : Nat}
    (hi : i < (ofStream stream s log).length) (hg : g ∈ ofStream stream s log)
    (hn : number g = enc i) : g = (ofStream stream s log)[i] := by
  obtain ⟨j, hj, rfl⟩ := List.getElem_of_mem hg
  rw [h.getElem_number hj] at hn
  have heq : j = i := hinj hj hi hn
  subst heq
  rfl

/-- Two entries of a stream with one number are one entry. -/
theorem Numbered.eq_of_number_eq {log : List G} (h : Numbered stream number enc log) {s : S}
    (hinj : Set.InjOn enc {i | i < (ofStream stream s log).length}) {g g' : G}
    (hg : g ∈ ofStream stream s log) (hg' : g' ∈ ofStream stream s log)
    (hn : number g = number g') : g = g' := by
  obtain ⟨i, hi, rfl⟩ := List.getElem_of_mem hg
  rw [h.getElem_number hi] at hn
  exact (h.eq_of_number hinj hi hg' hn.symm).symm

/-- No number is given twice. -/
theorem Numbered.nodup {log : List G} (h : Numbered stream number enc log) {s : S}
    (hinj : Set.InjOn enc {i | i < (ofStream stream s log).length}) :
    ((ofStream stream s log).map number).Nodup := by
  rw [h s, numbers]
  refine List.Nodup.map_on (fun i hi j hj heq => ?_) List.nodup_range'
  rw [List.mem_range'_1, Nat.zero_add] at hi hj
  exact hinj hi.2 hj.2 heq

/-- No entry is logged twice. -/
theorem Numbered.nodup_log [DecidableEq G] {log : List G} (h : Numbered stream number enc log)
    (hinj : ∀ s, Set.InjOn enc {i | i < (ofStream stream s log).length}) : log.Nodup := by
  rw [List.nodup_iff_count_le_one]
  intro g
  have hcount : log.count g = (ofStream stream (stream g) log).count g := by
    rw [ofStream, List.count_filter (by simp)]
  rw [hcount]
  exact List.nodup_iff_count_le_one.1 (List.Nodup.of_map number (h.nodup (hinj _))) g

/-! ## Numbers of 64 bits -/

/-- The numbers below the largest of 64 bits are told apart. -/
theorem ofNat_inj {m n : Nat} (hm : m < 2 ^ 63) (hn : n < 2 ^ 63)
    (h : Int64.ofNat m = Int64.ofNat n) : m = n := by
  have := congrArg Int64.toInt h
  rw [Int64.toInt_ofNat_of_lt hm, Int64.toInt_ofNat_of_lt hn] at this
  exact_mod_cast this

theorem injOn_ofNat {k : Nat} (hk : k < 2 ^ 63) : Set.InjOn Int64.ofNat {i | i < k} :=
  fun _ hi _ hj h => ofNat_inj (Nat.lt_trans hi hk) (Nat.lt_trans hj hk) h

end Numbering

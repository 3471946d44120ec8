import Grmpl.Ent.NodeFrames
import Grmpl.Lib.Marking
import Mathlib.Data.List.Nodup

/-!
# Checking a store

The frames of a store may be anything: damaged, missing, referring to one another in a circle.
A collection marks what the root record reaches through the headers of frames and removes the
rest. A verification walks from the same roots and lists what it finds wrong, but goes on only
through frames whose tag, count and references agree.

* `Frames`, `gc`, `verify`: the store, and the two walks over it.
* `Written`: what a store has written.
* `Paging`: a reader that pages frames in, and what it may page.
* `verify_exact`: a verification ends, and lists what is wrong with what the root record
  reaches just where nothing wrong is hidden behind a frame that does not agree.
-/

open Bytes Compare

namespace Grmpl

/-- The frames of a store, each under a key of its own. -/
structure Frames where
  stored : List (List UInt8 × List UInt8)
  nodup : (stored.map Prod.fst).Nodup

namespace Frames

def keys (c : Frames) : List (List UInt8) := c.stored.map Prod.fst

def get (c : Frames) (k : Sha256Digest) : Option (List UInt8) := c.stored.lookup k

def remove (c : Frames) (ks : List (List UInt8)) : Frames where
  stored := c.stored.filter (·.1 ∉ ks)
  nodup := c.nodup.sublist (List.filter_sublist.map Prod.fst)

def put (c : Frames) (k frame : List UInt8) : Frames where
  stored := (k, frame) :: (c.remove [k]).stored
  nodup := by
    refine List.nodup_cons.2 ⟨fun hk => ?_, (c.remove [k]).nodup⟩
    obtain ⟨p, hp, rfl⟩ := List.mem_map.1 hk
    simp [remove] at hp

/-! ## The collection -/

/-- What the frame under a key refers to, nothing where there is none. -/
def referred (c : Frames) (k : Sha256Digest) : Result (List Sha256Digest) :=
  match c.get k with
  | none => .ok []
  | some frame => refsOf frame

/-- The keys the root record names. -/
def rootRecord : Option (List UInt8) → Result (List (Option Sha256Digest))
  | none => .ok []
  | some bytes => decodeRoot bytes

def nodeKey (k : List UInt8) : Result Sha256Digest := if k.length = ckLen then .ok k else .error (trunc "node key")

def sweepable (c : Frames) (marked : List Sha256Digest) : Result (List Sha256Digest) := do
  let keys ← c.keys.mapM nodeKey
  return keys.filter (· ∉ marked)

/-- Everything removed that neither the root record nor the nodes still paged reach, and how much
that was; nothing where the walk is not over. -/
def gc (c : Frames) (record : Option (List UInt8)) (paged : List Sha256Digest) (fuel : Nat) :
    Option (Result (Frames × Nat)) :=
  match rootRecord record with
  | .error e => some (.error e)
  | .ok slots =>
      match Marking.mark (fun ck _ => (c.referred ck).map fun refs => (refs, ())) fuel (slots.filterMap id ++ paged) ()
        with
      | .inl _ => none
      | .inr walk => some do
          let m ← walk
          let swept ← c.sweepable m.marked
          return (c.remove swept, swept.length)

/-! ## The verification -/

/-- What a verification found. -/
structure Verification where
  reachable : Nat
  missing : List Sha256Digest
  mismatched : List Sha256Digest
  undecodable : List (Sha256Digest × String)
  frames : Nat
  bytes : Nat
  unreachable : Nat

def Verification.new : Verification := ⟨0, [], [], [], 0, 0, 0⟩

def Verification.isSound (v : Verification) : Bool := v.missing.isEmpty && v.mismatched.isEmpty && v.undecodable.isEmpty

variable (hash : List UInt8 → Sha256Digest)

/-- A reachable key looked at: what is wrong with it, and where to go on. -/
def visitFrame (c : Frames) (ck : Sha256Digest) (v : Verification) : Result (List Sha256Digest × Verification) :=
  match c.get ck with
  | none => .ok ([], { v with missing := v.missing ++ [ck] })
  | some frame =>
      let v := if hash frame = ck then v else { v with mismatched := v.mismatched ++ [ck] }
      match checkFrame frame with
      | .ok refs => .ok (refs, v)
      | .error e => .ok ([], { v with undecodable := v.undecodable ++ [(ck, e.message)] })

def sortKeys (ks : List Sha256Digest) : List Sha256Digest := ks.mergeSort fun a b => (cmpBytes a b).isLE

def sortFaults (fs : List (Sha256Digest × String)) : List (Sha256Digest × String) :=
  fs.mergeSort fun a b => ((cmpBytes a.1 b.1).then (cmpText a.2 b.2)).isLE

/-- The stored frames counted, and the lists sorted. -/
def tally (c : Frames) (marked : List Sha256Digest) (v : Verification) : Verification where
  reachable := marked.length
  missing := sortKeys v.missing
  mismatched := sortKeys v.mismatched
  undecodable := sortFaults v.undecodable
  frames := c.stored.length
  bytes := (c.stored.map fun p => p.2.length).sum
  unreachable := (c.keys.filter fun k => ¬(k.length = ckLen ∧ k ∈ marked)).length

def verify (c : Frames) (record : Option (List UInt8)) (fuel : Nat) : Option (Result Verification) :=
  match rootRecord record with
  | .error e => some (.error e)
  | .ok slots =>
      match Marking.mark (c.visitFrame hash) fuel (slots.filterMap id) .new with
      | .inl _ => none
      | .inr walk => some do
          let m ← walk
          return c.tally m.marked m.notes

/-! ## What a verification is about -/

/-- Where a verification goes on: through frames whose tag, count and references agree. -/
def checked (c : Frames) (k : Sha256Digest) : Result (List Sha256Digest) :=
  match c.get k with
  | none => .ok []
  | some frame => .ok ((checkFrame frame).toOption.getD [])

/-- Reached from the root record through the headers of frames. -/
def Reached (c : Frames) (slots : List (Option Sha256Digest)) : Sha256Digest → Prop :=
  Marking.Reached c.referred (slots.filterMap id)

/-- Reached from the root record through frames that agree. -/
def Followed (c : Frames) (slots : List (Option Sha256Digest)) : Sha256Digest → Prop :=
  Marking.Reached c.checked (slots.filterMap id)

/-- A key with a frame that hashes to it and agrees. -/
def Intact (c : Frames) (k : Sha256Digest) : Prop :=
  ∃ frame refs, c.get k = some frame ∧ hash frame = k ∧ checkFrame frame = .ok refs

/-- The lists are of exactly the keys reached that are wrong, each once and in order. -/
structure Lists (c : Frames) (slots : List (Option Sha256Digest)) (v : Verification) : Prop where
  missing : ∀ k, k ∈ v.missing ↔ c.Reached slots k ∧ c.get k = none
  mismatched : ∀ k, k ∈ v.mismatched ↔ c.Reached slots k ∧ ∃ frame, c.get k = some frame ∧ hash frame ≠ k
  undecodable : ∀ k, k ∈ v.undecodable.map Prod.fst ↔
    c.Reached slots k ∧ ∃ frame e, c.get k = some frame ∧ checkFrame frame = .error e
  sorted : v.missing.Pairwise (cmpBytes · · = .lt) ∧ v.mismatched.Pairwise (cmpBytes · · = .lt) ∧
    v.undecodable.Pairwise fun a b => cmpBytes a.1 b.1 = .lt

/-- A collection stops at a frame it reaches and cannot follow, and at a stored key that is none. -/
def Uncollected (c : Frames) (slots : List (Option Sha256Digest)) : Prop :=
  (∃ k e, c.Reached slots k ∧ c.referred k = .error e) ∨ ∃ k ∈ c.keys, k.length ≠ ckLen

/-! ## What a store has written -/

/-- The frames and the root record of a store: frames put under their hash once all they refer
to is stored, root records that name what is stored, and collections. -/
inductive Written : Frames → List (Option Sha256Digest) → Prop
  | new : Written ⟨[], .nil⟩ []
  | frame {c : Frames} {slots : List (Option Sha256Digest)} (tag : UInt8) (refs : List Sha256Digest) (count : Nat)
      (rest : List UInt8) : Written c slots → (∀ r ∈ refs, r ∈ c.keys) → refs.length < 256 ^ 4 → count < 256 ^ 4 →
      TagAgrees tag refs count →
      Written (c.put (hash (encodeFrame tag refs (toBE 4 count ++ rest))) (encodeFrame tag refs (toBE 4 count ++ rest)))
        slots
  | root {c : Frames} {slots slots' : List (Option Sha256Digest)} : Written c slots →
      (∀ k, some k ∈ slots' → k ∈ c.keys) → slots'.length < 256 → Written c slots'
  | gc {c c' : Frames} {slots : List (Option Sha256Digest)} {paged : List Sha256Digest} {fuel n : Nat} : Written c slots →
      c.gc (some (encodeRoot slots)) paged fuel = some (.ok (c', n)) → Written c' slots

/-- No two frames of the stores have one hash. -/
def Apart (c₀ c : Frames) : Prop :=
  ∀ k k' f g, c₀.get k = some f → c.get k' = some g → hash f = hash g → f = g

end Frames

/-- A reader of a store: what it comes to, or the frame it needs and how it goes on from there. -/
inductive Paging (α : Type) where
  | done (a : α)
  | page (ck : Sha256Digest) (next : List UInt8 → Paging α)

namespace Paging

variable {α : Type}

/-- What a reader comes to over a store, if every frame it needs is there. -/
def run (c : Frames) : Paging α → Option α
  | .done a => some a
  | .page ck next =>
      match c.get ck with
      | none => none
      | some frame => (next frame).run c

/-- A reader pages what it knows of, and gets to know what a frame refers to. -/
def Within : List Sha256Digest → Paging α → Prop
  | _, .done _ => True
  | known, .page ck next =>
      ck ∈ known ∧ ∀ frame, (next frame).Within (known ++ ((refsOf frame).toOption.getD []))

end Paging

namespace Frames

variable {c c₀ : Frames} {slots : List (Option Sha256Digest)} {k : Sha256Digest} {frame : List UInt8}
  {refs : List Sha256Digest}

/-! ## Frames -/

theorem mem_keys : k ∈ c.keys ↔ ∃ frame, c.get k = some frame := by
  rw [← Option.isSome_iff_exists, get, List.lookup_isSome_iff, keys, List.mem_map]
  simp only [beq_iff_eq]
  exact ⟨fun ⟨p, hp, hk⟩ => ⟨p, hp, hk.symm⟩, fun ⟨p, hp, hk⟩ => ⟨p, hp, hk.symm⟩⟩

theorem get_remove {ks : List Sha256Digest} (h : k ∉ ks) : (c.remove ks).get k = c.get k := by
  have hlist : ∀ l : List (List UInt8 × List UInt8), (l.filter (·.1 ∉ ks)).lookup k = l.lookup k := by
    intro l
    induction l with
    | nil => rfl
    | cons p l ih =>
      obtain ⟨k', frame⟩ := p
      by_cases hp : k' ∈ ks
      · have hne : (k == k') = false := by
          rw [beq_eq_false_iff_ne]
          rintro rfl
          exact h hp
        simpa [hp, List.lookup_cons, hne] using ih
      · simp only [List.filter_cons, hp, not_false_eq_true, decide_true, if_true, List.lookup_cons]
        cases k == k' with
        | true => rfl
        | false => exact ih
  exact hlist c.stored

theorem get_put (k' : Sha256Digest) : (c.put k frame).get k' = if k' = k then some frame else c.get k' := by
  show ((k, frame) :: (c.remove [k]).stored).lookup k' = _
  rw [List.lookup_cons]
  by_cases hk : k' = k
  · simp [hk]
  · rw [show (k' == k) = false by simpa using hk, if_neg hk]
    exact get_remove (by simpa using hk)

theorem get_of_remove {ks : List Sha256Digest} (h : (c.remove ks).get k = some frame) : k ∉ ks ∧ c.get k = some frame := by
  have hmem : k ∈ (c.remove ks).keys := mem_keys.2 ⟨frame, h⟩
  have hk : k ∉ ks := by
    obtain ⟨p, hp, rfl⟩ := List.mem_map.1 hmem
    simpa using (List.mem_filter.1 hp).2
  exact ⟨hk, get_remove hk ▸ h⟩

/-! ## The walks -/

variable (hash : List UInt8 → Sha256Digest)

/-- What a frame whose tag, count or references do not agree is listed with. -/
def fault (c : Frames) (k : Sha256Digest) : Option (Sha256Digest × String) :=
  match c.get k with
  | none => none
  | some frame =>
      match checkFrame frame with
      | .ok _ => none
      | .error e => some (k, e.message)

/-- A frame does not hash to its key. -/
def mismatches (c : Frames) (k : Sha256Digest) : Bool := (c.get k).any fun frame => hash frame ≠ k

/-- What a verification writes down of a key. -/
def note (c : Frames) (k : Sha256Digest) (v : Verification) : Verification :=
  { v with
    missing := v.missing ++ if (c.get k).isNone then [k] else []
    mismatched := v.mismatched ++ if c.mismatches hash k then [k] else []
    undecodable := v.undecodable ++ (c.fault k).toList }

variable {hash}

theorem visits_verify : Marking.Visits (c.visitFrame hash) c.checked (c.note hash) := by
  intro k v
  unfold visitFrame checked note mismatches fault
  cases c.get k with
  | none => simp [Except.map]
  | some frame =>
    by_cases hhash : hash frame = k <;> cases hcheck : checkFrame frame <;>
      simp [Except.map, Except.toOption, hhash, hcheck]

theorem visits_gc : Marking.Visits (fun ck _ => (c.referred ck).map fun refs => (refs, ())) c.referred fun _ _ => () :=
  fun _ _ => rfl

/-- The notes of a walk: of the keys marked, those that are wrong. -/
theorem foldr_note (marked : List Sha256Digest) : marked.foldr (c.note hash) .new =
    { Verification.new with
      missing := marked.reverse.filter fun k => (c.get k).isNone
      mismatched := marked.reverse.filter (c.mismatches hash)
      undecodable := marked.reverse.filterMap c.fault } := by
  induction marked with
  | nil => rfl
  | cons k marked ih =>
    rw [List.foldr_cons, ih]
    simp only [note, List.reverse_cons, List.filter_append, List.filterMap_append, List.filter_cons, List.filter_nil,
      List.filterMap_cons, List.filterMap_nil]
    cases c.fault k <;> rfl

/-- Only stored keys refer to anything. -/
theorem listed_checked : Marking.listed c.checked k ≠ [] → k ∈ c.keys := by
  intro h
  rw [mem_keys]
  cases hget : c.get k with
  | none => simp [Marking.listed, checked, hget, Except.toOption] at h
  | some frame => exact ⟨frame, rfl⟩

theorem listed_referred : Marking.listed c.referred k ≠ [] → k ∈ c.keys := by
  intro h
  rw [mem_keys]
  cases hget : c.get k with
  | none => simp [Marking.listed, referred, hget, Except.toOption] at h
  | some frame => exact ⟨frame, rfl⟩

theorem sweepable_eq (marked : List Sha256Digest) :
    ((∀ k ∈ c.keys, k.length = ckLen) ∧ c.sweepable marked = .ok (c.keys.filter (· ∉ marked))) ∨
      ((∃ k ∈ c.keys, k.length ≠ ckLen) ∧ ∃ e, c.sweepable marked = .error e) := by
  unfold sweepable
  by_cases hall : ∀ k ∈ c.keys, k.length = ckLen
  · left
    have hkeys : c.keys.mapM nodeKey = .ok c.keys := by
      have := mapM_ok (f := nodeKey) (g := id) fun k hk => if_pos (hall k hk)
      rwa [List.map_id] at this
    rw [hkeys]
    exact ⟨hall, rfl⟩
  · right
    push Not at hall
    refine ⟨hall, ?_⟩
    obtain ⟨k, hk, hlen⟩ := hall
    cases hkeys : c.keys.mapM nodeKey with
    | error e => exact ⟨e, rfl⟩
    | ok ks =>
      obtain ⟨k', -, hk'⟩ := (mapM_mem hkeys).1 k hk
      rw [nodeKey, if_neg hlen] at hk'
      cases hk'

/-- **A verification ends**, with what it follows marked. -/
theorem verify_ends (hash : List UInt8 → Sha256Digest) (c : Frames) {record : Option (List UInt8)} (h : rootRecord record = .ok slots) :
    ∃ marked bound, marked.Nodup ∧ (∀ k, k ∈ marked ↔ c.Followed slots k) ∧
      ∀ fuel, bound < fuel → c.verify hash record fuel = some (.ok (c.tally marked (marked.foldr (c.note hash) .new))) := by
  have hv : Marking.Visits (c.visitFrame hash) c.checked (c.note hash) := visits_verify
  obtain ⟨r, hr⟩ := Marking.mark_ends (fun k => listed_checked) hv (slots.filterMap id) Verification.new
  have hwalk := hr _ (Nat.lt_succ_self _)
  cases r with
  | error e =>
    obtain ⟨k, -, hk⟩ := Marking.mark_error hv hwalk
    unfold checked at hk
    split at hk <;> cases hk
  | ok m =>
    obtain ⟨hnodup, hmarked, -, hnotes⟩ := Marking.mark_ok hv hwalk
    refine ⟨m.marked, Marking.work c.checked c.keys ⟨(slots.filterMap id).reverse, [], Verification.new⟩, hnodup, hmarked,
      fun fuel hfuel => ?_⟩
    unfold verify
    rw [h]
    simp only [hr fuel hfuel, ← hnotes]
    rfl

/-- **A collection ends**: with what is reached marked, or refused at a frame it reached. -/
theorem gc_ends {record : Option (List UInt8)} (h : rootRecord record = .ok slots) :
    ∃ bound, (∃ marked : List Sha256Digest, (∀ k, k ∈ marked ↔ c.Reached slots k) ∧
        (∀ k ∈ marked, ∃ ks, c.referred k = .ok ks) ∧ ∀ fuel, bound < fuel →
          c.gc record [] fuel = some ((c.sweepable marked).map fun swept => (c.remove swept, swept.length))) ∨
      ∃ k e, c.Reached slots k ∧ c.referred k = .error e ∧ ∀ fuel, bound < fuel → c.gc record [] fuel = some (.error e) := by
  obtain ⟨r, hr⟩ := Marking.mark_ends (fun k => listed_referred (c := c)) visits_gc (slots.filterMap id ++ []) ()
  have hwalk := hr _ (Nat.lt_succ_self _)
  refine ⟨Marking.work c.referred c.keys ⟨(slots.filterMap id ++ []).reverse, [], ()⟩, ?_⟩
  cases r with
  | error e =>
    right
    obtain ⟨k, hreach, hk⟩ := Marking.mark_error visits_gc hwalk
    rw [List.append_nil] at hreach
    refine ⟨k, e, hreach, hk, fun fuel hfuel => ?_⟩
    unfold gc
    rw [h]
    simp only [hr fuel hfuel]
    rfl
  | ok m =>
    left
    obtain ⟨-, hmarked, hok, -⟩ := Marking.mark_ok visits_gc hwalk
    simp only [List.append_nil] at hmarked
    refine ⟨m.marked, hmarked, hok, fun fuel hfuel => ?_⟩
    unfold gc
    rw [h]
    simp only [hr fuel hfuel]
    rfl

/-- What a collection that went through kept: everything that was marked. -/
theorem gc_ok {record : Option (List UInt8)} {paged : List Sha256Digest} {fuel n : Nat} {c' : Frames}
    (h : rootRecord record = .ok slots) (hgc : c.gc record paged fuel = some (.ok (c', n))) :
    ∃ marked : List Sha256Digest, (∀ k, k ∈ marked ↔ Marking.Reached c.referred (slots.filterMap id ++ paged) k) ∧
      c' = c.remove (c.keys.filter (· ∉ marked)) := by
  unfold gc at hgc
  rw [h] at hgc
  simp only at hgc
  split at hgc
  · cases hgc
  · rename_i walk hwalk
    obtain ⟨m, hm, hrun⟩ := bind_ok (Option.some.inj hgc)
    obtain ⟨swept, hswept, hrun⟩ := bind_ok hrun
    rw [hm] at hwalk
    obtain ⟨-, hmarked, -, -⟩ := Marking.mark_ok visits_gc hwalk
    refine ⟨m.marked, hmarked, ?_⟩
    rcases c.sweepable_eq m.marked with ⟨-, hs⟩ | ⟨-, e, hs⟩
    · rw [hs] at hswept
      cases hswept
      cases hrun
      rfl
    · rw [hs] at hswept
      cases hswept

/-! ## Lists and counts -/

theorem mem_sortKeys {ks : List Sha256Digest} : k ∈ sortKeys ks ↔ k ∈ ks := List.mem_mergeSort

theorem pairwise_sortKeys {ks : List Sha256Digest} (h : ks.Nodup) : (sortKeys ks).Pairwise (cmpBytes · · = .lt) :=
  cmpBytes_lawful.pairwise_mergeSort h

theorem pairwise_sortFaults {fs : List (Sha256Digest × String)} (h : (fs.map Prod.fst).Nodup) :
    (sortFaults fs).Pairwise fun a b => cmpBytes a.1 b.1 = .lt := by
  have hasc : (sortFaults fs).Pairwise fun a b => ((cmpBytes a.1 b.1).then (cmpText a.2 b.2)) = .lt :=
    (cmpBytes_lawful.prod cmpText_lawful).pairwise_mergeSort (List.Nodup.of_map _ h)
  have hkeys : ((sortFaults fs).map Prod.fst).Nodup := ((List.mergeSort_perm fs _).map Prod.fst).nodup_iff.2 h
  rw [List.nodup_iff_pairwise_ne, List.pairwise_map] at hkeys
  refine (hasc.and hkeys).imp fun ⟨hlt, hne⟩ => ?_
  rcases Ordering.then_eq_lt.1 hlt with hlt | ⟨heq, -⟩
  · exact hlt
  · exact absurd ((cmpBytes_lawful.eq_iff _ _).1 heq) hne

/-- A key listed, of those some walk marked: the frame is missing, or does not hash to the key, or
does not agree. -/
theorem listed_tally {marked : List Sha256Digest} (hnodup : marked.Nodup) {v : Verification}
    (hv : v = c.tally marked (marked.foldr (c.note hash) .new)) :
    (∀ k, k ∈ v.missing ↔ k ∈ marked ∧ c.get k = none) ∧
      (∀ k, k ∈ v.mismatched ↔ k ∈ marked ∧ ∃ frame, c.get k = some frame ∧ hash frame ≠ k) ∧
      (∀ k, k ∈ v.undecodable.map Prod.fst ↔
        k ∈ marked ∧ ∃ frame e, c.get k = some frame ∧ checkFrame frame = .error e) ∧
      v.missing.Pairwise (cmpBytes · · = .lt) ∧ v.mismatched.Pairwise (cmpBytes · · = .lt) ∧
      v.undecodable.Pairwise fun a b => cmpBytes a.1 b.1 = .lt := by
  have hfault : ∀ k p, c.fault k = some p ↔
      ∃ frame e, c.get k = some frame ∧ checkFrame frame = .error e ∧ p = (k, e.message) := by
    intro k p
    unfold fault
    cases c.get k with
    | none => simp
    | some frame =>
      cases hcheck : checkFrame frame with
      | ok refs => simp [hcheck]
      | error e => simp [hcheck, eq_comm]
  have hfirst : ∀ ms : List Sha256Digest, (ms.filterMap c.fault).map Prod.fst = ms.filter fun k => (c.fault k).isSome := by
    intro ms
    induction ms with
    | nil => rfl
    | cons k ms ih =>
      cases hk : c.fault k with
      | none => simp [hk, ih]
      | some p =>
        obtain ⟨_, _, -, -, rfl⟩ := (hfault k p).1 hk
        simp [hk, ih]
  rw [foldr_note] at hv
  subst hv
  have hrev : marked.reverse.Nodup := List.nodup_reverse.2 hnodup
  refine ⟨fun k => ?_, fun k => ?_, fun k => ?_, pairwise_sortKeys (hrev.filter _), pairwise_sortKeys (hrev.filter _),
    pairwise_sortFaults (by rw [hfirst]; exact hrev.filter _)⟩
  · simp [tally, mem_sortKeys]
  · simp [tally, mem_sortKeys, mismatches, Option.any_eq_true]
  · have hperm := (List.mergeSort_perm (marked.reverse.filterMap c.fault) fun a b =>
      ((cmpBytes a.1 b.1).then (cmpText a.2 b.2)).isLE).map Prod.fst
    show k ∈ (sortFaults _).map Prod.fst ↔ _
    rw [sortFaults, hperm.mem_iff, hfirst, List.mem_filter, List.mem_reverse, Option.isSome_iff_exists]
    refine and_congr_right fun _ => ?_
    simp only [hfault]
    exact ⟨fun ⟨_, frame, e, hget, he, _⟩ => ⟨frame, e, hget, he⟩, fun ⟨frame, e, hget, he⟩ => ⟨_, frame, e, hget, he, rfl⟩⟩

/-- What a verification follows is reached. -/
theorem Followed.reached (h : c.Followed slots k) : c.Reached slots k := by
  obtain ⟨r, hr, hrk⟩ := h
  refine ⟨r, hr, Relation.ReflTransGen.mono ?_ _ _ hrk⟩
  rintro a b ⟨ks, hks, hb⟩
  unfold checked at hks
  cases hget : c.get a with
  | none =>
    rw [hget] at hks
    cases hks
    cases hb
  | some frame =>
    rw [hget] at hks
    obtain rfl := Except.ok.inj hks
    cases hcheck : checkFrame frame with
    | error e =>
      rw [hcheck] at hb
      cases hb
    | ok refs =>
      rw [hcheck] at hb
      refine ⟨refs, ?_, hb⟩
      unfold referred
      rw [hget]
      exact refsOf_of_checkFrame hcheck

/-- A key is wrong in one of three ways, or intact. -/
theorem intact_or (hash : List UInt8 → Sha256Digest) (c : Frames) (k : Sha256Digest) : Intact hash c k ∨ c.get k = none ∨ (∃ frame, c.get k = some frame ∧ hash frame ≠ k) ∨
    ∃ frame e, c.get k = some frame ∧ checkFrame frame = .error e := by
  cases hget : c.get k with
  | none => exact .inr (.inl rfl)
  | some frame =>
    by_cases hhash : hash frame = k
    · cases hcheck : checkFrame frame with
      | ok refs => exact .inl ⟨frame, refs, hget, hhash, hcheck⟩
      | error e => exact .inr (.inr (.inr ⟨frame, e, rfl, hcheck⟩))
    · exact .inr (.inr (.inl ⟨frame, rfl, hhash⟩))

theorem Intact.not_wrong (h : Intact hash c k) : c.get k ≠ none ∧ (¬∃ frame, c.get k = some frame ∧ hash frame ≠ k) ∧
    ¬∃ frame e, c.get k = some frame ∧ checkFrame frame = .error e := by
  obtain ⟨frame, refs, hget, hhash, hcheck⟩ := h
  refine ⟨by rw [hget]; exact Option.some_ne_none _, ?_, ?_⟩
  · rintro ⟨frame', hget', hne⟩
    obtain rfl := Option.some.inj (hget.symm.trans hget')
    exact hne hhash
  · rintro ⟨frame', e, hget', he⟩
    obtain rfl := Option.some.inj (hget.symm.trans hget')
    rw [hcheck] at he
    cases he

/-- **The lists are exact** where whatever is wrong and reached is followed to. -/
theorem lists_iff (hash : List UInt8 → Sha256Digest) {marked : List Sha256Digest} (hnodup : marked.Nodup) (hmarked : ∀ k, k ∈ marked ↔ c.Followed slots k)
    {v : Verification} (hv : v = c.tally marked (marked.foldr (c.note hash) .new)) :
    Lists hash c slots v ↔ ∀ k, c.Reached slots k → ¬Intact hash c k → c.Followed slots k := by
  obtain ⟨hmissing, hmismatched, hundecodable, hsorted⟩ := listed_tally hnodup hv
  simp only [hmarked] at hmissing hmismatched hundecodable
  constructor
  · intro h k hreach hwrong
    rcases intact_or hash c k with hk | hk | hk | hk
    · exact absurd hk hwrong
    · exact ((hmissing k).1 ((h.missing k).2 ⟨hreach, hk⟩)).1
    · exact ((hmismatched k).1 ((h.mismatched k).2 ⟨hreach, hk⟩)).1
    · exact ((hundecodable k).1 ((h.undecodable k).2 ⟨hreach, hk⟩)).1
  · intro h
    have hto : ∀ {k : Sha256Digest} {wrong : Prop}, (Intact hash c k → ¬wrong) →
        (c.Followed slots k ∧ wrong ↔ c.Reached slots k ∧ wrong) := fun hwrong =>
      ⟨fun ⟨hk, hw⟩ => ⟨hk.reached, hw⟩, fun ⟨hk, hw⟩ => ⟨h _ hk fun hi => hwrong hi hw, hw⟩⟩
    exact ⟨fun k => (hmissing k).trans (hto fun hi => hi.not_wrong.1),
      fun k => (hmismatched k).trans (hto fun hi => hi.not_wrong.2.1),
      fun k => (hundecodable k).trans (hto fun hi => hi.not_wrong.2.2), hsorted⟩

/-- **The count is a collection's** where whatever is stored and reached is followed to. -/
theorem count_iff {marked kept : List Sha256Digest} (hmarked : ∀ k, k ∈ marked ↔ c.Followed slots k)
    (hkept : ∀ k, k ∈ kept ↔ c.Reached slots k) (hlen : ∀ k ∈ c.keys, k.length = ckLen) {v : Verification} :
    (c.tally marked v).unreachable = (c.keys.filter (· ∉ kept)).length ↔
      ∀ k ∈ c.keys, c.Reached slots k → c.Followed slots k := by
  have hcount : (c.tally marked v).unreachable = (c.keys.filter (· ∉ marked)).length :=
    congrArg List.length (List.filter_congr fun k hk => by simp [hlen k hk])
  have hsub : (c.keys.filter (· ∉ kept)).Sublist (c.keys.filter (· ∉ marked)) := by
    refine List.monotone_filter_right _ fun k hk => ?_
    rw [decide_eq_true_eq] at hk ⊢
    exact fun hm => hk ((hkept k).2 ((hmarked k).1 hm).reached)
  rw [hcount]
  constructor
  · intro h k hk hreach
    have heq := hsub.eq_of_length h.symm
    by_contra hnot
    have hmem : k ∈ c.keys.filter (· ∉ kept) := by
      rw [heq, List.mem_filter, decide_eq_true_eq]
      exact ⟨hk, fun hm => hnot ((hmarked k).1 hm)⟩
    exact of_decide_eq_true (List.mem_filter.1 hmem).2 ((hkept k).2 hreach)
  · intro h
    refine congrArg List.length (List.filter_congr fun k hk => decide_eq_decide.2 (not_congr ?_))
    rw [hmarked, hkept]
    exact ⟨Followed.reached, h k hk⟩

/-! ## Reading a sound store -/

/-- What a store has written: frames under their hash, which agree and refer to what is stored,
and a root record that names what is stored. -/
structure Whole (hash : List UInt8 → Sha256Digest) (c : Frames) (slots : List (Option Sha256Digest)) : Prop where
  hashed : ∀ {k frame}, c.get k = some frame → hash frame = k
  closed : ∀ {k frame}, c.get k = some frame → ∃ refs, checkFrame frame = .ok refs ∧ ∀ r ∈ refs, r ∈ c.keys
  rooted : ∀ {k}, some k ∈ slots → k ∈ c.keys
  few : slots.length < 256

theorem Whole.width (h : Whole hash c slots) (hhash : ∀ frame, (hash frame).length = ckLen) (hk : k ∈ c.keys) :
    k.length = ckLen := by
  obtain ⟨frame, hget⟩ := mem_keys.1 hk
  exact h.hashed hget ▸ hhash frame

theorem mem_keys_put {k' : Sha256Digest} : k' ∈ (c.put k frame).keys ↔ k' = k ∨ k' ∈ c.keys := by
  simp only [mem_keys, get_put]
  by_cases hk : k' = k <;> simp [hk]

theorem Whole.write {tag : UInt8} {count : Nat} {rest : List UInt8} (h : Whole hash c slots)
    (hhash : ∀ frame, (hash frame).length = ckLen) (hrefs : ∀ r ∈ refs, r ∈ c.keys) (hmany : refs.length < 256 ^ 4)
    (hcount : count < 256 ^ 4) (hagrees : TagAgrees tag refs count)
    (hframe : frame = encodeFrame tag refs (toBE 4 count ++ rest)) : Whole hash (c.put (hash frame) frame) slots where
  hashed {k frame'} hget := by
    rw [get_put] at hget
    split_ifs at hget with hk
    · rw [← Option.some.inj hget, hk]
    · exact h.hashed hget
  closed {k frame'} hget := by
    rw [get_put] at hget
    split_ifs at hget with hk
    · obtain rfl := Option.some.inj hget
      refine ⟨refs, ?_, fun r hr => mem_keys_put.2 (.inr (hrefs r hr))⟩
      rw [hframe]
      exact checkFrame_encode (fun r hr => h.width hhash (hrefs r hr)) hmany hcount hagrees
    · obtain ⟨refs', hcheck, hall⟩ := h.closed hget
      exact ⟨refs', hcheck, fun r hr => mem_keys_put.2 (.inr (hall r hr))⟩
  rooted hk := mem_keys_put.2 (.inr (h.rooted hk))
  few := h.few

/-- A collection keeps whatever the root record reaches, and what that refers to. -/
theorem Whole.gc {c' : Frames} {paged : List Sha256Digest} {fuel n : Nat} (h : Whole hash c slots)
    (hhash : ∀ frame, (hash frame).length = ckLen) (hgc : c.gc (some (encodeRoot slots)) paged fuel = some (.ok (c', n))) :
    Whole hash c' slots := by
  have hroot : rootRecord (some (encodeRoot slots)) = .ok slots :=
    decodeRoot_encode (fun ck hck => h.width hhash (h.rooted hck)) h.few
  obtain ⟨marked, hmarked, rfl⟩ := gc_ok hroot hgc
  have hkept : ∀ {k}, k ∈ c.keys → k ∈ marked → k ∈ (c.remove (c.keys.filter (· ∉ marked))).keys := by
    intro k hk hm
    obtain ⟨frame, hget⟩ := mem_keys.1 hk
    exact mem_keys.2 ⟨frame, by rw [get_remove (by simp [hm])]; exact hget⟩
  have hof : ∀ {k frame}, (c.remove (c.keys.filter (· ∉ marked))).get k = some frame →
      c.get k = some frame ∧ k ∈ marked := by
    intro k frame hget
    obtain ⟨hnot, hget⟩ := get_of_remove hget
    refine ⟨hget, ?_⟩
    by_contra hm
    exact hnot (List.mem_filter.2 ⟨mem_keys.2 ⟨frame, hget⟩, decide_eq_true hm⟩)
  refine ⟨fun hget => h.hashed (hof hget).1, fun {k _} hget => ?_, fun hk => ?_, h.few⟩
  · obtain ⟨hget, hm⟩ := hof hget
    obtain ⟨refs, hcheck, hall⟩ := h.closed hget
    have hrefs : c.referred k = .ok refs := by
      unfold referred
      rw [hget]
      exact refsOf_of_checkFrame hcheck
    exact ⟨refs, hcheck, fun r hr => hkept (hall r hr) ((hmarked r).2 (((hmarked _).1 hm).tail hrefs hr))⟩
  · exact hkept (h.rooted hk) ((hmarked _).2 (.root (List.mem_append_left _ (List.mem_filterMap.2 ⟨_, hk, rfl⟩))))

/-- **What a store has written is whole.** -/
theorem Written.whole (hhash : ∀ frame, (hash frame).length = ckLen) (h : Written hash c slots) :
    Whole hash c slots := by
  induction h with
  | new => exact ⟨fun hget => (nomatch hget), fun hget => (nomatch hget), fun hk => (nomatch hk), by decide⟩
  | frame tag refs count rest _ hrefs hmany hcount hagrees ih => exact ih.write hhash hrefs hmany hcount hagrees rfl
  | root _ hrooted hfew ih => exact ⟨ih.hashed, ih.closed, hrooted _, hfew⟩
  | gc _ hgc ih => exact ih.gc hhash hgc

/-- **Readers of an intact store** come to what they came to before, every frame they need in place. -/
theorem paging_intact {α : Type} (hw : Whole hash c₀ slots) (hap : Apart hash c₀ c)
    (hintact : ∀ k, c.Followed slots k → Intact hash c k) (read : Paging α) : ∀ known : List Sha256Digest,
    (∀ k ∈ known, c.Followed slots k ∧ k ∈ c₀.keys) → read.Within known →
    ∃ a, read.run c₀ = some a ∧ read.run c = some a := by
  induction read with
  | done a => exact fun _ _ _ => ⟨a, rfl, rfl⟩
  | page ck next ih =>
    intro known hknown hwithin
    obtain ⟨hck, hnext⟩ := hwithin
    obtain ⟨hfollowed, hstored⟩ := hknown ck hck
    obtain ⟨frame, refs, hget, hhash, hcheck⟩ := hintact ck hfollowed
    obtain ⟨frame₀, hget₀⟩ := mem_keys.1 hstored
    -- one hash, one frame
    obtain rfl : frame₀ = frame := hap ck ck _ _ hget₀ hget ((hw.hashed hget₀).trans hhash.symm)
    obtain ⟨refs₀, hcheck₀, hall⟩ := hw.closed hget₀
    obtain rfl := Except.ok.inj (hcheck.symm.trans hcheck₀)
    have hchecked : c.checked ck = .ok refs := by
      unfold checked
      rw [hget]
      exact congrArg (fun r => Except.ok (Except.toOption r |>.getD [])) hcheck
    have hmore : ∀ k ∈ known ++ refs, c.Followed slots k ∧ k ∈ c₀.keys := by
      intro k hk
      rcases List.mem_append.1 hk with hk | hk
      · exact hknown k hk
      · exact ⟨hfollowed.tail hchecked hk, hall k hk⟩
    have hthen : (next frame₀).Within (known ++ refs) := by
      have := hnext frame₀
      rwa [refsOf_of_checkFrame hcheck] at this
    obtain ⟨a, ha₀, ha⟩ := ih frame₀ (known ++ refs) hmore hthen
    refine ⟨a, ?_, ?_⟩
    · unfold Paging.run
      rw [hget₀]
      exact ha₀
    · unfold Paging.run
      rw [hget]
      exact ha

/-- What a collection comes to: it stops, or removes what is not reached. -/
theorem gc_outcome {record : Option (List UInt8)} (h : rootRecord record = .ok slots) :
    ∃ g bound, (∀ fuel, bound < fuel → c.gc record [] fuel = some g) ∧
      ((c.Uncollected slots ∧ ∃ e, g = .error e) ∨
        (¬c.Uncollected slots ∧ (∀ k ∈ c.keys, k.length = ckLen) ∧ ∃ (kept : List Sha256Digest) (c' : Frames),
          (∀ k, k ∈ kept ↔ c.Reached slots k) ∧ g = .ok (c', (c.keys.filter (· ∉ kept)).length))) := by
  obtain ⟨bound, ⟨marked, hmarked, hok, hgc⟩ | ⟨k, e, hreach, hk, hgc⟩⟩ := gc_ends (c := c) h
  · refine ⟨_, bound, hgc, ?_⟩
    rcases c.sweepable_eq marked with ⟨hlen, hs⟩ | ⟨hlen, e, hs⟩
    · right
      refine ⟨?_, hlen, marked, c.remove (c.keys.filter (· ∉ marked)), hmarked, by rw [hs]; rfl⟩
      rintro (⟨k, e, hreach, hk⟩ | ⟨k, hk, hne⟩)
      · obtain ⟨ks, hks⟩ := hok k ((hmarked k).2 hreach)
        rw [hk] at hks
        cases hks
      · exact hne (hlen k hk)
    · left
      exact ⟨.inr hlen, e, by rw [hs]; rfl⟩
  · exact ⟨_, bound, hgc, .inl ⟨.inl ⟨k, e, hreach, hk⟩, e, rfl⟩⟩

/-- What a verification that found nothing followed is intact. -/
theorem intact_of_isSound {marked : List Sha256Digest} (hnodup : marked.Nodup)
    (hmarked : ∀ k, k ∈ marked ↔ c.Followed slots k) {v : Verification}
    (hv : v = c.tally marked (marked.foldr (c.note hash) .new)) (hsound : v.isSound = true)
    (hk : c.Followed slots k) : Intact hash c k := by
  obtain ⟨hmissing, hmismatched, hundecodable, -⟩ := listed_tally hnodup hv
  simp only [Verification.isSound, Bool.and_eq_true, List.isEmpty_iff] at hsound
  obtain ⟨⟨hm, hmm⟩, hu⟩ := hsound
  rcases intact_or hash c k with h | h | h | h
  · exact h
  · have := (hmissing k).2 ⟨(hmarked k).2 hk, h⟩
    simp [hm] at this
  · have := (hmismatched k).2 ⟨(hmarked k).2 hk, h⟩
    simp [hmm] at this
  · have := (hundecodable k).2 ⟨(hmarked k).2 hk, h⟩
    simp [hu] at this

/-- **A verification ends, and is exact** just where nothing wrong is hidden: everything reached
is followed to, or else a collection stops and all that is not followed to is intact. A store
damaged after it was written, and found sound, reads as before the damage. -/
theorem verify_exact (hash : List UInt8 → Sha256Digest) (hhash : ∀ frame, (hash frame).length = ckLen) (c : Frames)
    (record : Option (List UInt8)) (slots : List (Option Sha256Digest)) (hrecord : rootRecord record = .ok slots) :
    ∃ v g bound, (∀ fuel, bound < fuel → c.verify hash record fuel = some (.ok v) ∧ c.gc record [] fuel = some g) ∧
      ((Lists hash c slots v ∧ ∀ c' n, g = .ok (c', n) → v.unreachable = n) ↔
        (∀ k, c.Reached slots k → c.Followed slots k) ∨
          (c.Uncollected slots ∧ ∀ k, c.Reached slots k → c.Followed slots k ∨ Intact hash c k)) ∧
      ∀ c₀, Written hash c₀ slots → Apart hash c₀ c → v.isSound = true →
        ∀ (α : Type) (read : Paging α), read.Within (slots.filterMap id) →
          ∃ a, read.run c₀ = some a ∧ read.run c = some a := by
  obtain ⟨marked, bound, hnodup, hmarked, hverify⟩ := verify_ends hash c hrecord
  obtain ⟨g, bound', hgc, hg⟩ := gc_outcome (c := c) hrecord
  have hlists := lists_iff hash hnodup hmarked rfl
  refine ⟨_, g, max bound bound', fun fuel hfuel => ⟨hverify fuel (by omega), hgc fuel (by omega)⟩, ?_, ?_⟩
  · rw [hlists]
    constructor
    · rintro ⟨hwrong, hcount⟩
      rcases hg with ⟨hun, -⟩ | ⟨-, hlen, kept, c', hkept, rfl⟩
      · refine .inr ⟨hun, fun k hk => ?_⟩
        by_cases hi : Intact hash c k
        · exact .inr hi
        · exact .inl (hwrong k hk hi)
      · -- what is reached and stored is followed to by the count, and what is not stored is wrong
        refine .inl fun k hk => ?_
        by_cases hstored : k ∈ c.keys
        · exact (count_iff hmarked hkept hlen).1 (hcount c' _ rfl) k hstored hk
        · refine hwrong k hk fun hi => hstored ?_
          obtain ⟨frame, _, hget, -⟩ := hi
          exact mem_keys.2 ⟨frame, hget⟩
    · rintro (hall | ⟨hun, hall⟩)
      · refine ⟨fun k hk _ => hall k hk, fun c' n hok => ?_⟩
        rcases hg with ⟨-, e, rfl⟩ | ⟨-, hlen, kept, c'', hkept, rfl⟩
        · cases hok
        · cases hok
          exact (count_iff hmarked hkept hlen).2 fun k _ hk => hall k hk
      · refine ⟨fun k hk hwrong => (hall k hk).resolve_right hwrong, fun c' n hok => ?_⟩
        rcases hg with ⟨-, e, rfl⟩ | ⟨hnot, -⟩
        · cases hok
        · exact absurd hun hnot
  · intro c₀ hwritten hapart hsound α read hwithin
    have hwhole := hwritten.whole hhash
    refine paging_intact hwhole hapart (fun k hk => intact_of_isSound hnodup hmarked rfl hsound hk) read _ ?_ hwithin
    intro k hk
    obtain ⟨slot, hslot, rfl⟩ := List.mem_filterMap.1 hk
    exact ⟨.root hk, hwhole.rooted hslot⟩

/-- Where nothing that is followed to refers to anything, only the roots are. -/
theorem mem_of_reached {refs : Sha256Digest → Result (List Sha256Digest)} {roots : List Sha256Digest}
    (hnone : ∀ r ∈ roots, refs r = .ok []) (h : Marking.Reached refs roots k) : k ∈ roots := by
  obtain ⟨r, hr, hrk⟩ := h
  rcases Relation.ReflTransGen.cases_head hrk with rfl | ⟨d, ⟨ks, hks, hd⟩, -⟩
  · exact hr
  · rw [hnone r hr] at hks
    cases hks
    cases hd

/-- A hash of the right width. -/
def widthHash (frame : List UInt8) : Sha256Digest := List.replicate ckLen (UInt8.ofNat frame.length)

/-- An empty leaf under its hash. -/
def oneLeaf : Frames := ⟨[(List.replicate ckLen 10, encodeFrame tagLeaf [] [0, 0, 0, 0])], by decide⟩

theorem oneLeaf_verified : ∃ v g bound,
    (∀ fuel, bound < fuel →
      oneLeaf.verify widthHash (some (encodeRoot [some (List.replicate ckLen 10)])) fuel = some (.ok v) ∧
        oneLeaf.gc (some (encodeRoot [some (List.replicate ckLen 10)])) [] fuel = some g) ∧
      Lists widthHash oneLeaf [some (List.replicate ckLen 10)] v := by
  obtain ⟨v, g, bound, hends, hexact, -⟩ := verify_exact widthHash (fun _ => List.length_replicate) oneLeaf
    (some (encodeRoot [some (List.replicate ckLen 10)])) [some (List.replicate ckLen 10)] rfl
  refine ⟨v, g, bound, hends, (hexact.2 (.inl fun k hk => .root (mem_of_reached ?_ hk))).1⟩
  intro r hr
  obtain rfl := List.mem_singleton.1 hr
  rfl

/-- An internal frame that counts five separators for its one child, which is missing. -/
def unfollowed : Frames :=
  ⟨[(List.replicate ckLen 1, encodeFrame tagInternal [List.replicate ckLen 2] [0, 0, 0, 5])], by decide⟩

/-- **What is missing behind a frame that does not agree is not listed**, though every frame is
stored under the hash of its bytes. -/
theorem missing_unseen : ∃ (hash : List UInt8 → Sha256Digest) (v : Verification) (bound : Nat),
    (∀ e ∈ unfollowed.stored, hash e.2 = e.1) ∧
      (∀ fuel, bound < fuel →
        unfollowed.verify hash (some (encodeRoot [some (List.replicate ckLen 1)])) fuel = some (.ok v)) ∧
      unfollowed.Reached [some (List.replicate ckLen 1)] (List.replicate ckLen 2) ∧
      unfollowed.get (List.replicate ckLen 2) = none ∧ List.replicate ckLen 2 ∉ v.missing := by
  let hash : List UInt8 → Sha256Digest := fun _ => List.replicate ckLen 1
  have hrecord : rootRecord (some (encodeRoot [some (List.replicate ckLen 1)])) = .ok [some (List.replicate ckLen 1)] := rfl
  obtain ⟨marked, bound, hnodup, hmarked, hverify⟩ := verify_ends hash unfollowed hrecord
  refine ⟨hash, _, bound, fun e he => ?_, hverify, ?_, rfl, fun hmissing => ?_⟩
  · obtain rfl := List.mem_singleton.1 he
    rfl
  · have hrefs : unfollowed.referred (List.replicate ckLen 1) = .ok [List.replicate ckLen 2] := rfl
    exact (Marking.Reached.root (List.mem_singleton.2 rfl)).tail hrefs (List.mem_singleton.2 rfl)
  · have hfollowed := (hmarked _).1 (((listed_tally hnodup rfl).1 _).1 hmissing).1
    refine absurd (mem_of_reached (fun r hr => ?_) hfollowed) (by decide)
    obtain rfl := List.mem_singleton.1 hr
    rfl

end Frames

end Grmpl

import Grmpl.Proc.Allocators
import Grmpl.Proc.Process

/-!
# Logging in

A login looks its name up in the roster. For a new name it spawns a player: one commit draws an
entity, seeds its inbox counter, and binds its name and its place, all read from one snapshot and
guarded by the entity counter. An attempt that is rejected looks again.

* `MooRelations.lookupIdentity`, `MooRelations.attempt`: the code.
* `Logins`, `Logins.step`: a world's store, the logins under way in it, and the other
  allocations on its entity counter.
* `MooRelations.Roster`: each name is one entity's and each entity's is one name, with its rows.
* `login_linearizable`: **so it is in every run that does not overrun the counter.**
* `login_overrun`: one that does.
-/

open OrdMap Runs

namespace Grmpl

/-- The relations a player's commands and its login are about. Their names are distinct, so they
are. -/
structure MooRelations where
  located : RelId
  named : RelId
  held : RelId
  exits : RelId
  players : RelId
  knows : RelId
  tell : RelId
  cursor : RelId
  inboxSeq : RelId
  entitySeq : RelId
  distinct : [located, named, players, knows, inboxSeq, entitySeq].Nodup

def foyer : Entity := ⟨10⟩

/-- Players and what builders create are kept above every fixed entity. -/
def idBase : Int64 := 1000000

def Snapshot.atCurrent (store : TraceStore) : Snapshot := ⟨store, store.current⟩

def Alloc.fromSnapshot (snap : Snapshot) (rel : RelId) (base : Int64) : Result Alloc := do
  let rows ← snap.read rel
  return Alloc.fromRows rel rows base

def SeqAlloc.fromSnapshot (snap : Snapshot) (rel : RelId) (key : List Value) : Result SeqAlloc := do
  let rows ← snap.read rel
  return SeqAlloc.fromRows rel key rows

/-- An entity and a text, as the roster and the names hold them. -/
def nameTuple (e : Entity) (name : String) : Tuple := ⟨[.ent e, .text name]⟩

def placeTuple (e room : Entity) : Tuple := ⟨[.ent e, .ent room]⟩

/-- The entity a row of the roster binds a name to. -/
def identityIn (name : String) (row : Tuple × Diff) : Option Entity :=
  if 0 < row.2 ∧ row.1.cells[1]? = some (.text name) then
    match row.1.cells[0]? with
    | some (Value.ent e) => some e
    | _ => none
  else none

/-- A player ready to be committed. -/
structure Spawn where
  player : Entity
  patch : Patch

namespace MooRelations

variable (r : MooRelations)

def playerAuthority : Authority :=
  ⟨1, [⟨r.located, none⟩, ⟨r.named, none⟩, ⟨r.held, none⟩, ⟨r.exits, none⟩, ⟨r.players, none⟩, ⟨r.knows, none⟩,
    ⟨r.tell, none⟩, ⟨r.cursor, none⟩, ⟨r.inboxSeq, none⟩, ⟨r.entitySeq, none⟩]⟩

def lookupIdentity (snap : Snapshot) (name : String) : Result (Option Entity) := do
  let rows ← snap.read r.players
  return rows.findSome? (identityIn name)

/-- A player's name, roster, place and acquaintance rows. -/
def introduce (player : Entity) (name : String) (p : Patch) : Patch :=
  (((p.assert ⟨r.named, nameTuple player name⟩).assert ⟨r.players, nameTuple player name⟩).assert
    ⟨r.located, placeTuple player foyer⟩).assert ⟨r.knows, placeTuple player player⟩

/-- One attempt to spawn a player, on one snapshot: the entity the name has got by then, or a new
player's. -/
def attempt (snap : Snapshot) (name : String) : Result (Entity ⊕ Spawn) := do
  match ← r.lookupIdentity snap name with
  | some existing => return .inl existing
  | none =>
      let alloc ← Alloc.fromSnapshot snap r.entitySeq idBase
      let (player, alloc) := alloc.fresh
      let seqs ← SeqAlloc.fromSnapshot snap r.inboxSeq [.ent player]
      return .inr ⟨player, alloc.sealPatch (r.introduce player name (seqs.seed Patch.new))⟩

end MooRelations

/-- A login under way. A spawn has so many attempts left, this one included. -/
inductive Login where
  | looking (name : String) (snap : Snapshot)
  | spawning (name : String) (left : Nat)
  | attempting (name : String) (left : Nat) (snap : Snapshot)
  | committing (name : String) (left : Nat) (spawn : Spawn)

/-- A world's store with the other allocations on its entity counter, the logins under way, and
the entity each login found or spawned for its name. -/
structure Logins where
  world : Allocators
  calls : List (Option Login)
  returned : List (String × Entity)

namespace Logins

/-- What happens next: a login begins, goes on, or is lost, or another allocation goes on. -/
inductive Act where
  | login (i : Nat) (name : String)
  | next (i : Nat)
  | crash (i : Nat)
  | other (a : Allocators.Act)

abbrev store (w : Logins) : TraceStore := w.world.store

def setCall (w : Logins) (i : Nat) (x : Option Login) : Logins := { w with calls := w.calls.set i x }

/-- A login ends with an entity. -/
def answer (w : Logins) (i : Nat) (name : String) (e : Entity) : Logins :=
  { w.setCall i none with returned := w.returned ++ [(name, e)] }

section Step

variable (r : MooRelations) (schemas : SchemaCatalog) (checker : BehaviorChecker) (attempts : Nat)

/-- What a login does next. -/
def advance (w : Logins) (i : Nat) : Login → Logins
  | .looking name snap => match r.lookupIdentity snap name with
      | .ok (some e) => w.answer i name e
      | .ok none => w.setCall i (some (.spawning name attempts))
      | .error _ => w.setCall i none
  | .spawning name left => w.setCall i (some (.attempting name left (.atCurrent w.store)))
  | .attempting name left snap => match r.attempt snap name with
      | .ok (.inl existing) => w.answer i name existing
      | .ok (.inr spawn) => w.setCall i (some (.committing name left spawn))
      | .error _ => w.setCall i none
  | .committing name left spawn =>
      match commitPatchChecked w.store schemas checker spawn.patch r.playerAuthority with
      | .ok (store, .committed _) =>
          { w.answer i name spawn.player with
            world := { w.world with store, committed := w.world.committed ++ [spawn.player.id.toInt64] } }
      | .ok (_, .rejected) => w.setCall i (if left ≤ 1 then none else some (.spawning name (left - 1)))
      | .error _ => w.setCall i none

def step (w : Logins) : Act → Option Logins
  | .login i name => match w.calls[i]? with
      | some none => some (w.setCall i (some (.looking name (.atCurrent w.store))))
      | _ => none
  | .next i => match w.calls[i]? with
      | some (some call) => some (w.advance r schemas checker attempts i call)
      | _ => none
  | .crash i => some (w.setCall i none)
  | .other a => (w.world.step r.entitySeq [] schemas a).map fun world => { w with world }

end Step

/-- Logins and other allocations at rest over a store. -/
def start (store : TraceStore) (calls others : Nat) : Logins := ⟨.start store others, List.replicate calls none, []⟩

end Logins

/-! ## What a roster is -/

namespace MooRelations

variable (r : MooRelations)

/-- The roster binds a name to an entity. -/
def Binds (store : TraceStore) (e : Entity) (name : String) : Prop := 0 < store.weight r.players (nameTuple e name)

/-- A player's rows, each once: its line of the roster, its inbox counter, its name and its place. -/
structure Provisioned (store : TraceStore) (e : Entity) (name : String) : Prop where
  line : store.weight r.players (nameTuple e name) = 1
  inbox : ∃ n, CounterAt store r.inboxSeq [.ent e] n
  name : ∀ n, store.weight r.named (nameTuple e n) = if n = name then 1 else 0
  place : ∃ room, ∀ p, store.weight r.located (placeTuple e p) = if p = room then 1 else 0

/-- An entity no row of a player's is about. -/
structure Untouched (store : TraceStore) (e : Entity) : Prop where
  line : ∀ n, store.weight r.players (nameTuple e n) = 0
  inbox : Uncounted store r.inboxSeq [.ent e]
  name : ∀ n, store.weight r.named (nameTuple e n) = 0
  place : ∀ p, store.weight r.located (placeTuple e p) = 0

/-- **A roster in order**: each name is one entity's, each entity bound has one name and its rows,
and the entity counter is at a number from which on no entity is in use. -/
structure Roster (store : TraceStore) (next : Int64) : Prop where
  counter : CounterAt store r.entitySeq [] next
  counters : ∀ t, 0 < store.weight r.entitySeq t → ∃ v, t = SeqAlloc.counterTuple [] v
  lines : ∀ t, 0 < store.weight r.players t → ∃ e name, t = nameTuple e name
  one_entity : ∀ e e' name, r.Binds store e name → r.Binds store e' name → e = e'
  one_name : ∀ e name name', r.Binds store e name → r.Binds store e name' → name = name'
  provisioned : ∀ e name, r.Binds store e name → r.Provisioned store e name
  unborn : ∀ v : Int64, next.toInt ≤ v.toInt → r.Untouched store ⟨v.toUInt64⟩

/-- Updates that leave the rows of an entity as they are. -/
structure SparesEntity (e : Entity) (updates : List (RelId × Tuple × Diff)) : Prop where
  inbox : ∀ n, netOn r.inboxSeq (SeqAlloc.counterTuple [.ent e] n) updates = 0
  name : ∀ n, netOn r.named (nameTuple e n) updates = 0
  place : ∀ p, netOn r.located (placeTuple e p) updates = 0

/-- Updates that leave the counter and the roster to the code, and the rows of players and of
entities still to be drawn, besides those drawn with them. -/
structure Minds (store : TraceStore) (own : List Int64) (updates : List (RelId × Tuple × Diff)) : Prop where
  counter : ∀ t, netOn r.entitySeq t updates = 0
  roster : ∀ t, netOn r.players t updates = 0
  players : ∀ e name, r.Binds store e name → r.SparesEntity e updates
  unborn : ∀ next v : Int64, CounterAt store r.entitySeq [] next → next.toInt ≤ v.toInt → v ∉ own →
    r.SparesEntity ⟨v.toUInt64⟩ updates

end MooRelations

namespace Logins

variable (r : MooRelations)

/-- Logins are linearizable: each name is one entity's, each entity is one name's, every entity
bound has its rows, and every login that ended did with the entity its name is bound to. -/
structure Linear (w : Logins) : Prop where
  one_entity : ∀ e e' name, r.Binds w.store e name → r.Binds w.store e' name → e = e'
  one_name : ∀ e name name', r.Binds w.store e name → r.Binds w.store e name' → name = name'
  provisioned : ∀ e name, r.Binds w.store e name → r.Provisioned w.store e name
  returned : ∀ x ∈ w.returned, r.Binds w.store x.2 x.1

/-- The other commits mind the players. -/
def LeavesPlayers (w : Logins) : Act → Prop
  | .other (.commit i patch authority) => (authority = none → patch.Bare) ∧
      ∀ x, w.world.attempts[i]? = some (some x) → r.Minds w.store x.numbers patch.updates
  | .other (.other updates) => r.Minds w.store [] updates
  | _ => True

/-- And no allocation, a login's or another, takes the counter past its type, unless the counter
has moved since it read it. -/
def KeepsCounter (w : Logins) (act : Act) : Prop :=
  w.LeavesPlayers r act ∧ match act with
    | .next i => ∀ name left spawn, w.calls[i]? = some (some (.committing name left spawn)) →
        0 < w.store.weight r.entitySeq (SeqAlloc.counterTuple [] spawn.player.id.toInt64) →
          spawn.player.id.toInt64.toInt + 1 < 2 ^ 63
    | .other (.commit i _ _) => ∀ x, w.world.attempts[i]? = some (some x) →
        x.drawing.alloc.n = 0 ∨ 0 < w.store.weight r.entitySeq (SeqAlloc.counterTuple [] x.drawing.alloc.start) →
          x.drawing.alloc.start.toInt + (x.numbers.length : Int) < 2 ^ 63
    | _ => True

end Logins

/-! ## What an attempt reads -/

theorem nameTuple_inj {e e' : Entity} {n n' : String} : nameTuple e n = nameTuple e' n' ↔ e = e' ∧ n = n' := by
  simp [nameTuple]

theorem placeTuple_inj {e e' p p' : Entity} : placeTuple e p = placeTuple e' p' ↔ e = e' ∧ p = p' := by
  simp [placeTuple]

/-- Over rows of one number each, an allocator of entities reads what one of numbers does. -/
theorem Alloc.toSeq_foldl_meet : ∀ (rows : List (Tuple × Diff)) (a : Alloc),
    (∀ row ∈ rows, 0 < row.2 → ∃ v, row.1 = SeqAlloc.counterTuple [] v) →
      (rows.foldl Alloc.meet a).toSeq = rows.foldl SeqAlloc.meet a.toSeq := by
  intro rows
  induction rows with
  | nil => exact fun a _ => rfl
  | cons row rows ih =>
    intro a h
    rw [List.forall_mem_cons] at h
    have hmeet : (a.meet row).toSeq = a.toSeq.meet row := by
      by_cases hpos : 0 < row.2
      · obtain ⟨v, hv⟩ := h.1 hpos
        have hnumber : SeqAlloc.numberIn a.toSeq.key row = some v := SeqAlloc.numberIn_eq_some.2 ⟨hpos, hv⟩
        rw [SeqAlloc.meet, hnumber, Alloc.meet, if_pos hpos, hv]
        rfl
      · rw [SeqAlloc.meet, SeqAlloc.numberIn, if_neg fun hrow => hpos hrow.1, Alloc.meet, if_neg hpos]
    rw [List.foldl_cons, List.foldl_cons, ← hmeet]
    exact ih _ h.2

/-- What `identityIn` finds is a row of a name. -/
theorem identityIn_eq_some {name : String} {row : Tuple × Diff} {e : Entity} (h : identityIn name row = some e) :
    0 < row.2 ∧ row.1.cells[0]? = some (.ent e) ∧ row.1.cells[1]? = some (.text name) := by
  unfold identityIn at h
  split_ifs at h with hrow
  split at h
  · rename_i e' he
    cases h
    exact ⟨hrow.1, he, hrow.2⟩
  · cases h

namespace MooRelations

variable {r : MooRelations} {store store' store'' : TraceStore} {next next' : Int64} {name : String}

/-- A lookup finds the entity a name is bound to. -/
theorem Roster.lookupIdentity (h : r.Roster store next) (name : String) :
    ∃ found, r.lookupIdentity (.atCurrent store) name = .ok found ∧
      (∀ e, found = some e → r.Binds store e name) ∧ (found = none → ∀ e, ¬ r.Binds store e name) := by
  refine ⟨(store.rowsAt r.players store.current).findSome? (identityIn name), ?_, fun e he => ?_, fun hnone e hbound => ?_⟩
  · show (store.readAt r.players store.current >>= fun rows => _) = _
    rw [TraceStore.readAt_current]
    rfl
  · obtain ⟨row, hrow, hfound⟩ := List.exists_of_findSome?_eq_some he
    obtain ⟨hpos, hentity, hname⟩ := identityIn_eq_some hfound
    have hweight : store.weight r.players row.1 = row.2 := (TraceStore.mem_rowsAt.1 hrow).2
    obtain ⟨e', name', hline⟩ := h.lines row.1 (hweight ▸ hpos)
    rw [hline] at hentity hname hweight
    cases hentity
    cases hname
    rw [Binds, hweight]
    exact hpos
  · have hmem : (nameTuple e name, store.weight r.players (nameTuple e name)) ∈ store.rowsAt r.players store.current :=
      TraceStore.mem_rowsAt.2 ⟨hbound.ne', rfl⟩
    have hmissed := List.findSome?_eq_none_iff.1 hnone _ hmem
    have hbound : 0 < store.weight r.players (nameTuple e name) := hbound
    have hfound : identityIn name (nameTuple e name, store.weight r.players (nameTuple e name)) = some e := by
      rw [identityIn, if_pos ⟨hbound, rfl⟩]
      rfl
    rw [hfound] at hmissed
    cases hmissed

/-- An allocator reads the number the counter is at. -/
theorem Roster.alloc (h : r.Roster store next) (base : Int64) :
    Alloc.fromSnapshot (.atCurrent store) r.entitySeq base = .ok ⟨r.entitySeq, next, true, 0⟩ := by
  have hpositive : ∀ row ∈ store.rowsAt r.entitySeq store.current, 0 < row.2 → row.1 = SeqAlloc.counterTuple [] next := by
    intro row hrow hpos
    have hweight := (TraceStore.mem_rowsAt.1 hrow).2
    obtain ⟨v, hv⟩ := h.counters row.1 (hweight ▸ hpos)
    rw [hv, h.counter v] at hweight
    by_cases heq : v = next
    · rw [hv, heq]
    · rw [if_neg heq] at hweight
      exact absurd hpos (hweight ▸ lt_irrefl 0)
  have hseq := Alloc.toSeq_foldl_meet (store.rowsAt r.entitySeq store.current) ⟨r.entitySeq, base, false, 0⟩
    fun row hrow hpos => ⟨next, hpositive row hrow hpos⟩
  obtain ⟨hstart, hpresent⟩ := SeqAlloc.foldl_meet_of_some (v := next) (store.rowsAt r.entitySeq store.current)
    (Alloc.toSeq ⟨r.entitySeq, base, false, 0⟩) (fun row hrow u hu => by
      obtain ⟨hpos, hrow'⟩ := SeqAlloc.numberIn_eq_some.1 hu
      exact (SeqAlloc.counterTuple_inj (hrow'.symm.trans (hpositive row hrow hpos))).2)
    (.inr ⟨(SeqAlloc.counterTuple [] next, 1), TraceStore.mem_rowsAt.2 ⟨Int.one_ne_zero, by rw [h.counter next, if_pos rfl]⟩,
      SeqAlloc.numberIn_eq_some.2 ⟨Int.one_pos, rfl⟩⟩)
  obtain ⟨hrel, -, hn⟩ := SeqAlloc.foldl_meet (store.rowsAt r.entitySeq store.current)
    (Alloc.toSeq ⟨r.entitySeq, base, false, 0⟩)
  rw [← hseq] at hstart hpresent hrel hn
  show (store.readAt r.entitySeq store.current >>= fun rows => _) = _
  rw [TraceStore.readAt_current]
  show Except.ok ((store.rowsAt r.entitySeq store.current).foldl Alloc.meet ⟨r.entitySeq, base, false, 0⟩) = _
  generalize (store.rowsAt r.entitySeq store.current).foldl Alloc.meet ⟨r.entitySeq, base, false, 0⟩ = a at *
  obtain ⟨rel, start, present, n⟩ := a
  cases hstart
  cases hpresent
  cases hrel
  cases hn
  rfl

/-- An entity not in use has no inbox counter. -/
theorem Untouched.seqs {e : Entity} (h : r.Untouched store e) :
    SeqAlloc.fromSnapshot (.atCurrent store) r.inboxSeq [.ent e] = .ok ⟨r.inboxSeq, [.ent e], 0, false, 0⟩ := by
  refine SeqAlloc.read_of_absent fun row hrow => ?_
  rw [Option.eq_none_iff_forall_ne_some]
  intro v hv
  obtain ⟨hpos, hcounter⟩ := SeqAlloc.numberIn_eq_some.1 hv
  have hweight : store.weight r.inboxSeq row.1 = row.2 := (TraceStore.mem_rowsAt.1 hrow).2
  rw [hcounter, h.inbox v] at hweight
  exact absurd hpos (hweight ▸ lt_irrefl 0)

variable (r)

/-- A player's rows besides the counter's advance. -/
def spawnRows (player : Entity) (name : String) : Patch :=
  r.introduce player name (Patch.new.assert ⟨r.inboxSeq, SeqAlloc.counterTuple [.ent player] 0⟩)

/-- The allocator a spawn draws its player from, once it is drawn. -/
def drawnAt (start : Int64) : Alloc := ⟨r.entitySeq, start, true, 1⟩

/-- The patch of a new player, drawn at a number. -/
def spawnAt (start : Int64) (name : String) : Spawn :=
  ⟨⟨start.toUInt64⟩, (r.drawnAt start).sealPatch (r.spawnRows ⟨start.toUInt64⟩ name)⟩

variable {r}

/-- **An attempt** on a roster in order finds the name's entity, or drafts a player drawn where the
counter is. -/
theorem Roster.attempt (h : r.Roster store next) (name : String) :
    (∃ e, r.Binds store e name ∧ r.attempt (.atCurrent store) name = .ok (.inl e)) ∨
      (∀ e, ¬ r.Binds store e name) ∧ r.attempt (.atCurrent store) name = .ok (.inr (r.spawnAt next name)) := by
  obtain ⟨found, hfound, hsome, hnone⟩ := h.lookupIdentity name
  cases found with
  | some e =>
    refine .inl ⟨e, hsome e rfl, ?_⟩
    rw [MooRelations.attempt, hfound]
    rfl
  | none =>
    refine .inr ⟨hnone rfl, ?_⟩
    have hplayer : (Alloc.fresh ⟨r.entitySeq, next, true, 0⟩) = (⟨next.toUInt64⟩, r.drawnAt next) := by
      rw [Alloc.fresh, Int64.add_zero]
      rfl
    rw [MooRelations.attempt, hfound]
    show (Alloc.fromSnapshot (.atCurrent store) r.entitySeq idBase >>= fun alloc => _) = _
    rw [h.alloc idBase]
    show ((SeqAlloc.fromSnapshot (.atCurrent store) r.inboxSeq [.ent (Alloc.fresh ⟨r.entitySeq, next, true, 0⟩).1]) >>=
      fun seqs => _) = _
    rw [hplayer, (h.unborn next le_rfl).seqs]
    simp only [Int64.add_zero, Int64.zero_add]
    rfl

/-! ## What a commit does to a roster -/

/-- The rows of an entity are as they were. -/
structure Same (r : MooRelations) (store store' : TraceStore) (e : Entity) : Prop where
  inbox : ∀ n, store'.weight r.inboxSeq (SeqAlloc.counterTuple [.ent e] n) =
    store.weight r.inboxSeq (SeqAlloc.counterTuple [.ent e] n)
  name : ∀ n, store'.weight r.named (nameTuple e n) = store.weight r.named (nameTuple e n)
  place : ∀ p, store'.weight r.located (placeTuple e p) = store.weight r.located (placeTuple e p)

theorem Provisioned.same {e : Entity} (h : r.Provisioned store e name) (hsame : r.Same store store' e)
    (hline : store'.weight r.players (nameTuple e name) = store.weight r.players (nameTuple e name)) :
    r.Provisioned store' e name := by
  obtain ⟨n, hn⟩ := h.inbox
  obtain ⟨room, hroom⟩ := h.place
  exact ⟨hline.trans h.line, ⟨n, fun u => (hsame.inbox u).trans (hn u)⟩, fun u => (hsame.name u).trans (h.name u),
    room, fun p => (hsame.place p).trans (hroom p)⟩

theorem Untouched.same {e : Entity} (h : r.Untouched store e) (hsame : r.Same store store' e)
    (hline : ∀ n, store'.weight r.players (nameTuple e n) = store.weight r.players (nameTuple e n)) :
    r.Untouched store' e :=
  ⟨fun n => (hline n).trans (h.line n), fun u => (hsame.inbox u).trans (h.inbox u),
    fun n => (hsame.name n).trans (h.name n), fun p => (hsame.place p).trans (h.place p)⟩

/-- From one roster in order to a later one: nobody is unbound, and nobody is bound unless the
counter rises. -/
structure Onward (r : MooRelations) (store : TraceStore) (next : Int64) (store' : TraceStore) (next' : Int64) : Prop where
  before : r.Roster store next
  after : r.Roster store' next'
  rises : next.toInt ≤ next'.toInt
  binds : ∀ e name, r.Binds store e name → r.Binds store' e name
  only : next = next' → ∀ e name, r.Binds store' e name → r.Binds store e name

theorem Roster.onward (h : r.Roster store next) : r.Onward store next store next :=
  ⟨h, h, le_rfl, fun _ _ hbound => hbound, fun _ _ _ hbound => hbound⟩

theorem Onward.trans {next'' : Int64} (h : r.Onward store next store' next') (h' : r.Onward store' next' store'' next'') :
    r.Onward store next store'' next'' := by
  refine ⟨h.before, h'.after, h.rises.trans h'.rises, fun e name hbound => h'.binds e name (h.binds e name hbound), ?_⟩
  rintro rfl e name hbound
  have hmid : next = next' := Int64.toInt_inj.1 (le_antisymm h.rises h'.rises)
  exact h.only hmid e name (h'.only hmid.symm e name hbound)

/-- A commit that leaves the roster alone, and the rows of players and of entities still to be
drawn after it, keeps it in order. -/
theorem Roster.spared (h : r.Roster store next) (hcounter : CounterAt store' r.entitySeq [] next')
    (hrises : next.toInt ≤ next'.toInt)
    (hcounters : ∀ t, 0 < store'.weight r.entitySeq t → ∃ v, t = SeqAlloc.counterTuple [] v)
    (hlines : ∀ t, store'.weight r.players t = store.weight r.players t)
    (hplayers : ∀ e name, r.Binds store e name → r.Same store store' e)
    (hunborn : ∀ v : Int64, next'.toInt ≤ v.toInt → r.Same store store' ⟨v.toUInt64⟩) :
    r.Onward store next store' next' := by
  have hbinds : ∀ e name, r.Binds store' e name ↔ r.Binds store e name := fun e name => by rw [Binds, Binds, hlines]
  refine ⟨h, ⟨hcounter, hcounters, ?_, ?_, ?_, ?_, ?_⟩, hrises, fun e name => (hbinds e name).2,
    fun _ e name => (hbinds e name).1⟩
  · intro t ht
    rw [hlines] at ht
    exact h.lines t ht
  · intro e e' name he he'
    exact h.one_entity e e' name ((hbinds e name).1 he) ((hbinds e' name).1 he')
  · intro e name name' hn hn'
    exact h.one_name e name name' ((hbinds e name).1 hn) ((hbinds e name').1 hn')
  · intro e name hbound
    rw [hbinds] at hbound
    exact (h.provisioned e name hbound).same (hplayers e name hbound) (hlines _)
  · intro v hv
    exact (h.unborn v (hrises.trans hv)).same (hunborn v hv) fun n => hlines _

/-- **Another allocation's commit** keeps a roster in order. -/
theorem Roster.commit_other (h : r.Roster store next) {own : List Int64} {updates sealed : List (RelId × Tuple × Diff)}
    (hminds : r.Minds store own updates)
    (hsealed : ∀ rel t, ¬ (rel = r.entitySeq ∧ ∃ v, t = SeqAlloc.counterTuple [] v) →
      netOn rel t sealed = netOn rel t updates)
    (hcounter : CounterAt (store.commit sealed) r.entitySeq [] next') (hrises : next.toInt ≤ next'.toInt)
    (hown : ∀ v ∈ own, v.toInt < next'.toInt) : r.Onward store next (store.commit sealed) next' := by
  obtain ⟨hplayers, hnamed, hlocated, hinbox⟩ : r.players ≠ r.entitySeq ∧ r.named ≠ r.entitySeq ∧
      r.located ≠ r.entitySeq ∧ r.inboxSeq ≠ r.entitySeq := by
    have hdistinct := r.distinct
    simp only [List.nodup_cons, List.mem_cons, List.not_mem_nil, or_false, not_or] at hdistinct
    exact ⟨hdistinct.2.2.1.2.2, hdistinct.2.1.2.2.2, hdistinct.1.2.2.2.2, hdistinct.2.2.2.2.1⟩
  have hother : ∀ rel t, rel ≠ r.entitySeq → netOn rel t updates = 0 →
      (store.commit sealed).weight rel t = store.weight rel t := fun rel t hrel hzero => by
    rw [TraceStore.weight_commit, hsealed rel t fun hrow => hrel hrow.1, hzero, add_zero]
  have hsame : ∀ e, r.SparesEntity e updates → r.Same store (store.commit sealed) e := fun e hspared =>
    ⟨fun n => hother _ _ hinbox (hspared.inbox n), fun n => hother _ _ hnamed (hspared.name n),
      fun p => hother _ _ hlocated (hspared.place p)⟩
  refine h.spared hcounter hrises (fun t ht => ?_) (fun t => hother _ _ hplayers (hminds.roster t))
    (fun e name hbound => hsame e (hminds.players e name hbound)) fun v hv => hsame _ ?_
  · by_cases hrow : ∃ v, t = SeqAlloc.counterTuple [] v
    · exact hrow
    · rw [TraceStore.weight_commit, hsealed _ _ fun hboth => hrow hboth.2, hminds.counter, add_zero] at ht
      exact h.counters t ht
  · exact hminds.unborn next v h.counter (hrises.trans hv) fun hmem => absurd (hown v hmem) (not_lt.2 hv)

/-! ## What a spawn does to a roster -/

/-- What a spawn adds to a row: one of each of its player's, and the counter's advance. -/
theorem netOn_spawnAt (start : Int64) (name : String) (rel : RelId) (t : Tuple) :
    netOn rel t (r.spawnAt start name).patch.updates =
      (if r.inboxSeq = rel ∧ SeqAlloc.counterTuple [.ent ⟨start.toUInt64⟩] 0 = t then 1 else 0) +
      (if r.named = rel ∧ nameTuple ⟨start.toUInt64⟩ name = t then 1 else 0) +
      (if r.players = rel ∧ nameTuple ⟨start.toUInt64⟩ name = t then 1 else 0) +
      (if r.located = rel ∧ placeTuple ⟨start.toUInt64⟩ foyer = t then 1 else 0) +
      (if r.knows = rel ∧ placeTuple ⟨start.toUInt64⟩ ⟨start.toUInt64⟩ = t then 1 else 0) +
      (if r.entitySeq = rel ∧ SeqAlloc.counterTuple [] start = t then -1 else 0) +
      (if r.entitySeq = rel ∧ SeqAlloc.counterTuple [] (start + 1) = t then 1 else 0) := by
  have hone : (1 : Int64) ≠ 0 := by decide
  have hnew : netOn rel t Patch.new.updates = 0 := rfl
  rw [spawnAt, drawnAt, Alloc.sealPatch, if_neg hone, if_pos rfl, netOn_assert, netOn_retract, updates_expect,
    spawnRows, introduce, netOn_assert, netOn_assert, netOn_assert, netOn_assert, netOn_assert, hnew, zero_add]
  rfl

/-- Besides the counter's advance it spares the counter. -/
theorem netOn_spawnRows (player : Entity) (name : String) (t : Tuple) :
    netOn r.entitySeq t (r.spawnRows player name).updates = 0 := by
  have hdistinct := r.distinct
  simp only [List.nodup_cons, List.mem_cons, List.not_mem_nil, or_false, not_or] at hdistinct
  obtain ⟨⟨-, -, -, -, hle⟩, ⟨-, -, -, hne⟩, ⟨-, -, hpe⟩, ⟨-, hke⟩, hie, -⟩ := hdistinct
  have hnew : netOn r.entitySeq t Patch.new.updates = 0 := rfl
  rw [spawnRows, introduce, netOn_assert, netOn_assert, netOn_assert, netOn_assert, netOn_assert, hnew]
  simp [hie, hne, hpe, hle, hke]

/-- And so to each relation. -/
theorem netOn_spawnAt_each (start : Int64) (name : String) (t : Tuple) :
    netOn r.players t (r.spawnAt start name).patch.updates = (if nameTuple ⟨start.toUInt64⟩ name = t then 1 else 0) ∧
      netOn r.named t (r.spawnAt start name).patch.updates = (if nameTuple ⟨start.toUInt64⟩ name = t then 1 else 0) ∧
      netOn r.located t (r.spawnAt start name).patch.updates = (if placeTuple ⟨start.toUInt64⟩ foyer = t then 1 else 0) ∧
      netOn r.inboxSeq t (r.spawnAt start name).patch.updates =
        (if SeqAlloc.counterTuple [.ent ⟨start.toUInt64⟩] 0 = t then 1 else 0) ∧
      netOn r.entitySeq t (r.spawnAt start name).patch.updates = (if SeqAlloc.counterTuple [] start = t then -1 else 0) +
        (if SeqAlloc.counterTuple [] (start + 1) = t then 1 else 0) := by
  have hdistinct := r.distinct
  have hreverse := List.nodup_reverse.2 hdistinct
  simp at hdistinct hreverse
  refine ⟨?_, ?_, ?_, ?_, ?_⟩ <;> simp [netOn_spawnAt, hdistinct, hreverse]

/-- A spawn leaves every other entity's rows. -/
theorem same_spawnAt (store : TraceStore) (name : String) {start : Int64} {e : Entity} (hne : (⟨start.toUInt64⟩ : Entity) ≠ e) :
    r.Same store (store.commit (r.spawnAt start name).patch.updates) e ∧
      ∀ n, (store.commit (r.spawnAt start name).patch.updates).weight r.players (nameTuple e n) =
        store.weight r.players (nameTuple e n) := by
  have hname : ∀ n, nameTuple ⟨start.toUInt64⟩ name ≠ nameTuple e n := fun n heq => hne (nameTuple_inj.1 heq).1
  have hplace : ∀ p, placeTuple ⟨start.toUInt64⟩ foyer ≠ placeTuple e p := fun p heq => hne (placeTuple_inj.1 heq).1
  have hinbox : ∀ n, SeqAlloc.counterTuple [.ent ⟨start.toUInt64⟩] 0 ≠ SeqAlloc.counterTuple [.ent e] n := by
    intro n heq
    have hkey := (SeqAlloc.counterTuple_inj heq).1
    cases hkey
    exact hne rfl
  refine ⟨⟨fun n => ?_, fun n => ?_, fun p => ?_⟩, fun n => ?_⟩
  · rw [TraceStore.weight_commit, (netOn_spawnAt_each start name _).2.2.2.1, if_neg (hinbox n), add_zero]
  · rw [TraceStore.weight_commit, (netOn_spawnAt_each start name _).2.1, if_neg (hname n), add_zero]
  · rw [TraceStore.weight_commit, (netOn_spawnAt_each start name _).2.2.1, if_neg (hplace p), add_zero]
  · rw [TraceStore.weight_commit, (netOn_spawnAt_each start name _).1, if_neg (hname n), add_zero]

/-- A player spawned has each of its rows once. -/
theorem Untouched.spawned {start : Int64} (h : r.Untouched store ⟨start.toUInt64⟩) (name : String) :
    r.Provisioned (store.commit (r.spawnAt start name).patch.updates) ⟨start.toUInt64⟩ name := by
  refine ⟨?_, ⟨0, fun u => ?_⟩, fun n => ?_, foyer, fun p => ?_⟩
  · rw [TraceStore.weight_commit, (netOn_spawnAt_each start name _).1, if_pos rfl, h.line, zero_add]
  · rw [TraceStore.weight_commit, (netOn_spawnAt_each start name _).2.2.2.1, h.inbox u, zero_add]
    exact if_congr ⟨fun heq => (SeqAlloc.counterTuple_inj heq).2.symm, fun heq => by rw [heq]⟩ rfl rfl
  · rw [TraceStore.weight_commit, (netOn_spawnAt_each start name _).2.1, h.name n, zero_add]
    exact if_congr ⟨fun heq => (nameTuple_inj.1 heq).2.symm, fun heq => by rw [heq]⟩ rfl rfl
  · rw [TraceStore.weight_commit, (netOn_spawnAt_each start name _).2.2.1, h.place p, zero_add]
    exact if_congr ⟨fun heq => (placeTuple_inj.1 heq).2.symm, fun heq => by rw [heq]⟩ rfl rfl

/-- **A spawn binds its name and nothing else**, and moves the counter on by one. -/
theorem Roster.commit_spawn (h : r.Roster store next) (name : String) (hfree : ∀ e, ¬ r.Binds store e name)
    (hroom : next.toInt + 1 < 2 ^ 63) :
    r.Onward store next (store.commit (r.spawnAt next name).patch.updates) (next + 1) ∧
      r.Binds (store.commit (r.spawnAt next name).patch.updates) ⟨next.toUInt64⟩ name := by
  have hnext : (next + 1).toInt = next.toInt + 1 := toInt_add_ofNat (k := 1) hroom
  have hnew := h.unborn next le_rfl
  have hspawned := hnew.spawned name
  have hbinds : r.Binds (store.commit (r.spawnAt next name).patch.updates) ⟨next.toUInt64⟩ name := by
    rw [Binds, hspawned.line]
    exact Int.one_pos
  -- whoever is bound was bound, or is the new player under its name
  have hcases : ∀ e n, r.Binds (store.commit (r.spawnAt next name).patch.updates) e n →
      (r.Binds store e n ∧ (⟨next.toUInt64⟩ : Entity) ≠ e) ∨ e = ⟨next.toUInt64⟩ ∧ n = name := by
    intro e n hbound
    by_cases he : (⟨next.toUInt64⟩ : Entity) = e
    · subst he
      refine .inr ⟨rfl, ?_⟩
      by_contra hn
      rw [Binds, TraceStore.weight_commit, (netOn_spawnAt_each next name _).1,
        if_neg fun heq => hn (nameTuple_inj.1 heq).2.symm, hnew.line] at hbound
      exact lt_irrefl _ hbound
    · rw [Binds, (same_spawnAt store name he).2] at hbound
      exact .inl ⟨hbound, he⟩
  have hkept : ∀ e n, r.Binds store e n → (⟨next.toUInt64⟩ : Entity) ≠ e := by
    rintro e n hbound rfl
    rw [Binds, hnew.line] at hbound
    exact lt_irrefl _ hbound
  refine ⟨⟨h, ⟨?_, ?_, ?_, ?_, ?_, ?_, ?_⟩, by omega, fun e n hbound => ?_, fun heq => ?_⟩, hbinds⟩
  · intro u
    rw [TraceStore.weight_commit, (netOn_spawnAt_each next name _).2.2.2.2, h.counter u]
    have hstart : SeqAlloc.counterTuple [] next = SeqAlloc.counterTuple [] u ↔ u = next :=
      ⟨fun heq => (SeqAlloc.counterTuple_inj heq).2.symm, fun heq => by rw [heq]⟩
    have hmoved : SeqAlloc.counterTuple [] (next + 1) = SeqAlloc.counterTuple [] u ↔ u = next + 1 :=
      ⟨fun heq => (SeqAlloc.counterTuple_inj heq).2.symm, fun heq => by rw [heq]⟩
    simp only [hstart, hmoved]
    by_cases hu : u = next
    · have hne : u ≠ next + 1 := fun heq => by
        rw [heq] at hu
        rw [hu] at hnext
        omega
      rw [if_pos hu, if_pos hu, if_neg hne]
      rfl
    · rw [if_neg hu, if_neg hu, zero_add, zero_add]
  · intro t ht
    by_cases hrow : ∃ v, t = SeqAlloc.counterTuple [] v
    · exact hrow
    · rw [TraceStore.weight_commit, (netOn_spawnAt_each next name _).2.2.2.2, if_neg fun heq => hrow ⟨_, heq.symm⟩,
        if_neg fun heq => hrow ⟨_, heq.symm⟩, add_zero, add_zero] at ht
      exact h.counters t ht
  · intro t ht
    by_cases hrow : nameTuple ⟨next.toUInt64⟩ name = t
    · exact ⟨_, _, hrow.symm⟩
    · rw [TraceStore.weight_commit, (netOn_spawnAt_each next name _).1, if_neg hrow, add_zero] at ht
      exact h.lines t ht
  · intro e e' n he he'
    rcases hcases e n he with ⟨hold, -⟩ | ⟨rfl, rfl⟩
    · rcases hcases e' n he' with ⟨hold', -⟩ | ⟨-, rfl⟩
      · exact h.one_entity e e' n hold hold'
      · exact absurd hold (hfree e)
    · rcases hcases e' n he' with ⟨hold', -⟩ | ⟨rfl, -⟩
      · exact absurd hold' (hfree e')
      · rfl
  · intro e n n' hn hn'
    rcases hcases e n hn with ⟨hold, hne⟩ | ⟨rfl, rfl⟩
    · rcases hcases e n' hn' with ⟨hold', -⟩ | ⟨rfl, -⟩
      · exact h.one_name e n n' hold hold'
      · exact absurd rfl hne
    · rcases hcases _ n' hn' with ⟨-, hne⟩ | ⟨-, rfl⟩
      · exact absurd rfl hne
      · rfl
  · intro e n hbound
    rcases hcases e n hbound with ⟨hold, hne⟩ | ⟨rfl, rfl⟩
    · obtain ⟨hsame, hline⟩ := same_spawnAt store name hne
      exact (h.provisioned e n hold).same hsame (hline n)
    · exact hspawned
  · intro v hv
    have hne : (⟨next.toUInt64⟩ : Entity) ≠ ⟨v.toUInt64⟩ := by
      intro heq
      have hid : next.toUInt64 = v.toUInt64 := congrArg Entity.id heq
      have hsame : next = v := by rw [← Int64.toInt64_toUInt64 next, hid, Int64.toInt64_toUInt64]
      rw [hsame] at hnext hv
      omega
    obtain ⟨hsame, hline⟩ := same_spawnAt store name hne
    exact (h.unborn v (by omega)).same hsame hline
  · rw [Binds, (same_spawnAt store name (hkept e n hbound)).2]
    exact hbound
  · rw [← heq] at hnext
    omega

end MooRelations

/-! ## What a step keeps -/

/-- A login under way goes by a snapshot of an earlier roster, and a player to be committed was
drafted where nobody had its name. -/
def Login.Sound (r : MooRelations) (store : TraceStore) (next : Int64) : Login → Prop
  | .looking _ snap | .attempting _ _ snap => ∃ earlier start, snap = .atCurrent earlier ∧ r.Onward earlier start store next
  | .spawning _ _ => True
  | .committing name _ spawn => ∃ earlier start, spawn = r.spawnAt start name ∧ r.Onward earlier start store next ∧
      ∀ e, ¬ r.Binds earlier e name

theorem Login.Sound.onward {r : MooRelations} {store store' : TraceStore} {next next' : Int64} {call : Login}
    (h : call.Sound r store next) (hon : r.Onward store next store' next') : call.Sound r store' next' := by
  cases call with
  | looking name snap =>
    obtain ⟨earlier, start, hsnap, hfrom⟩ := h
    exact ⟨earlier, start, hsnap, hfrom.trans hon⟩
  | spawning name left => trivial
  | attempting name left snap =>
    obtain ⟨earlier, start, hsnap, hfrom⟩ := h
    exact ⟨earlier, start, hsnap, hfrom.trans hon⟩
  | committing name left spawn =>
    obtain ⟨earlier, start, hspawn, hfrom, hfree⟩ := h
    exact ⟨earlier, start, hspawn, hfrom.trans hon, hfree⟩

namespace Logins

variable {r : MooRelations} {schemas : SchemaCatalog} {checker : BehaviorChecker} {attempts : Nat} {first : Int64}
  {w w' : Logins} {act : Act}

/-- What holds throughout a run. -/
structure Kept (r : MooRelations) (first : Int64) (w : Logins) (next : Int64) : Prop where
  counted : w.world.Counted r.entitySeq [] first
  roster : r.Roster w.store next
  calls : ∀ call, some call ∈ w.calls → call.Sound r w.store next
  returned : ∀ x ∈ w.returned, r.Binds w.store x.2 x.1

theorem Kept.linear {next : Int64} (h : w.Kept r first next) : w.Linear r :=
  ⟨h.roster.one_entity, h.roster.one_name, h.roster.provisioned, h.returned⟩

theorem Kept.setCall {next : Int64} (h : w.Kept r first next) {i : Nat} {x : Option Login}
    (hx : ∀ call, x = some call → call.Sound r w.store next) : (w.setCall i x).Kept r first next := by
  refine ⟨h.counted, h.roster, fun call hmem => ?_, h.returned⟩
  rcases List.mem_or_eq_of_mem_set hmem with hmem | heq
  · exact h.calls call hmem
  · exact hx call heq.symm

theorem Kept.drop {next : Int64} (h : w.Kept r first next) (i : Nat) : (w.setCall i none).Kept r first next :=
  h.setCall fun call hcall => by cases hcall

theorem Kept.answer {next : Int64} (h : w.Kept r first next) {i : Nat} {name : String} {e : Entity}
    (hbound : r.Binds w.store e name) : (w.answer i name e).Kept r first next := by
  refine ⟨h.counted, h.roster, (h.drop i).calls, fun x hx => ?_⟩
  rcases List.mem_append.1 hx with hx | hx
  · exact h.returned x hx
  · obtain rfl := List.mem_singleton.1 hx
    exact hbound

/-- A later roster keeps what is under way and what has ended. -/
theorem Kept.onward {next next' : Int64} {world : Allocators} (h : w.Kept r first next)
    (hcounted : world.Counted r.entitySeq [] first) (hon : r.Onward w.store next world.store next') :
    Kept r first { w with world } next' :=
  ⟨hcounted, hon.after, fun call hcall => (h.calls call hcall).onward hon,
    fun x hx => hon.binds x.2 x.1 (h.returned x hx)⟩

theorem KeepsCounter.other {a : Allocators.Act} {world : Allocators} (hok : w.KeepsCounter r (.other a))
    (hstep : w.world.step r.entitySeq [] schemas a = some world) : w.world.KeepsCounter r.entitySeq [] a := by
  cases a with
  | commit i patch authority =>
    obtain ⟨x, hx⟩ := Allocators.attempt_of_commit hstep
    exact ⟨⟨fun u => (hok.1.2 x hx).counter _, hok.1.1⟩, hok.2⟩
  | other updates => exact ⟨fun u => hok.1.counter _, trivial⟩
  | _ => exact ⟨trivial, trivial⟩

/-- **Another allocation's step** leads onward. -/
theorem Kept.other {next : Int64} {a : Allocators.Act} {world : Allocators} (h : w.Kept r first next)
    (hok : w.KeepsCounter r (.other a)) (hstep : w.world.step r.entitySeq [] schemas a = some world) :
    ∃ next', Kept r first { w with world } next' ∧ r.Onward w.store next world.store next' := by
  have hcounted := Allocators.counted_step h.counted (hok.other hstep) hstep
  suffices hon : ∃ next', r.Onward w.store next world.store next' by
    obtain ⟨next', hon⟩ := hon
    exact ⟨next', h.onward hcounted hon, hon⟩
  obtain ⟨next', hnext', hnum'⟩ := hcounted.counter
  have hnum := h.counted.next_eq h.roster.counter
  rcases Allocators.step_store hstep with hstore | ⟨i, patch, authority, x, e, rfl, hx, hcommit, hcommitted⟩ |
    ⟨updates, rfl, hstore, hcommitted⟩
  · refine ⟨next, ?_⟩
    rw [hstore]
    exact h.roster.onward
  · have hsound := h.counted.attempts x (List.mem_of_getElem? hx)
    obtain ⟨-, hstore⟩ := Allocators.commitAs_committed (fun hnone => by
      cases x.drawing with
      | seq a => exact (hok.1.1 hnone).sealPatch a
      | ent a => exact (hok.1.1 hnone).sealPatch a.toSeq) hcommit
    have hseal : x.drawing.sealPatch patch = x.drawing.alloc.sealPatch patch := by cases x.drawing <;> rfl
    have hown : ∀ v ∈ x.numbers, v.toInt < next'.toInt := fun v hv =>
      hcounted.lt_next hnext' (by rw [hcommitted]; exact List.mem_append_right _ hv)
    have hrises : next.toInt ≤ next'.toInt := by
      rw [hnum, hnum', hcommitted, List.length_append]
      omega
    refine ⟨next', ?_⟩
    rw [hstore, hseal] at hnext' ⊢
    refine h.roster.commit_other (hok.1.2 x hx) (fun rel t hrow => ?_) hnext' hrises hown
    refine SeqAlloc.netOn_sealPatch_other _ _ ?_
    rw [hsound.rel_eq, hsound.key_eq]
    exact hrow
  · have hrises : next.toInt ≤ next'.toInt := by rw [hnum, hnum', hcommitted]
    refine ⟨next', ?_⟩
    rw [hstore] at hnext' ⊢
    exact h.roster.commit_other hok.1 (fun rel t _ => rfl) hnext' hrises fun v hv => absurd hv List.not_mem_nil

/-- **A login's commit** leads onward, to a roster that binds its name. -/
theorem Kept.spawned {next start : Int64} {i : Nat} {name : String} {earlier : TraceStore} (h : w.Kept r first next)
    (hfrom : r.Onward earlier start w.store next) (hfree : ∀ e, ¬ r.Binds earlier e name)
    (hpre : ∀ f ∈ (r.spawnAt start name).patch.preconditions, 0 < w.store.weight f.rel f.tuple)
    (hroom : 0 < w.store.weight r.entitySeq (SeqAlloc.counterTuple [] start) → start.toInt + 1 < 2 ^ 63) :
    Kept r first { w.answer i name ⟨start.toUInt64⟩ with
      world := { w.world with store := w.store.commit (r.spawnAt start name).patch.updates,
                              committed := w.world.committed ++ [start] } } (next + 1) ∧
      r.Onward w.store next (w.store.commit (r.spawnAt start name).patch.updates) (next + 1) := by
  have hone : (1 : Int64) ≠ 0 := by decide
  -- the row that was read is still there, so nobody was bound since
  have hguard : 0 < w.store.weight r.entitySeq (SeqAlloc.counterTuple [] start) :=
    hpre _ (SeqAlloc.mem_preconditions_sealPatch (a := (r.drawnAt start).toSeq) hone rfl)
  have hstart : start = next := by
    by_contra hne
    rw [h.roster.counter, if_neg hne] at hguard
    exact lt_irrefl _ hguard
  subst hstart
  obtain ⟨hon, hbinds⟩ := h.roster.commit_spawn name (fun e hbound => hfree e (hfrom.only rfl e name hbound))
    (hroom hguard)
  have hx : (Attempt.mk (.ent (r.drawnAt start)) [start]).Sound r.entitySeq [] := by
    refine ⟨rfl, rfl, rfl, rfl, ?_⟩
    have hzero : start + Int64.ofNat 0 = start := Int64.add_zero start
    show [start] = [start + Int64.ofNat 0]
    rw [hzero]
  have hcounted := h.counted.commit (i := w.world.attempts.length) hx
    (fun u => MooRelations.netOn_spawnRows ⟨start.toUInt64⟩ name (SeqAlloc.counterTuple [] u)) hpre fun _ => hroom hguard
  rw [Allocators.setAttempt, List.set_eq_of_length_le le_rfl] at hcounted
  have honward : Kept r first { w with world := { w.world with
      store := w.store.commit (r.spawnAt start name).patch.updates, committed := w.world.committed ++ [start] } }
      (start + 1) := h.onward hcounted hon
  exact ⟨honward.answer (i := i) hbinds, hon⟩

/-- **A step keeps a roster in order**, and leads onward. -/
theorem kept_step {next : Int64} (h : w.Kept r first next) (hok : w.KeepsCounter r act)
    (hstep : step r schemas checker attempts w act = some w') :
    ∃ next', w'.Kept r first next' ∧ r.Onward w.store next w'.store next' := by
  have hstay : ∀ {v : Logins}, v.Kept r first next → v.store = w.store →
      ∃ next', v.Kept r first next' ∧ r.Onward w.store next v.store next' := fun hv hstore =>
    ⟨next, hv, hstore ▸ h.roster.onward⟩
  cases act with
  | login i name =>
    simp only [step] at hstep
    split at hstep
    · cases hstep
      refine hstay (h.setCall fun call hcall => ?_) rfl
      cases hcall
      exact ⟨w.store, next, rfl, h.roster.onward⟩
    · cases hstep
  | crash i =>
    cases hstep
    exact hstay (h.drop i) rfl
  | other a =>
    obtain ⟨world, hworld, rfl⟩ := Option.map_eq_some_iff.1 hstep
    exact h.other hok hworld
  | next i =>
    simp only [step] at hstep
    split at hstep
    · rename_i call hcall
      cases hstep
      have hsound := h.calls call (List.mem_of_getElem? hcall)
      cases call with
      | looking name snap =>
        obtain ⟨earlier, start, rfl, hfrom⟩ := hsound
        obtain ⟨found, hfound, hsome, -⟩ := hfrom.before.lookupIdentity name
        rw [advance, hfound]
        cases found with
        | some e => exact hstay (h.answer (hfrom.binds e name (hsome e rfl))) rfl
        | none =>
          refine hstay (h.setCall fun call hcall => ?_) rfl
          cases hcall
          trivial
      | spawning name left =>
        refine hstay (h.setCall fun call hcall => ?_) rfl
        cases hcall
        exact ⟨w.store, next, rfl, h.roster.onward⟩
      | attempting name left snap =>
        obtain ⟨earlier, start, rfl, hfrom⟩ := hsound
        rw [advance]
        rcases hfrom.before.attempt name with ⟨e, hbound, hattempt⟩ | ⟨hfree, hattempt⟩
        · rw [hattempt]
          exact hstay (h.answer (hfrom.binds e name hbound)) rfl
        · rw [hattempt]
          refine hstay (h.setCall fun call hcall => ?_) rfl
          cases hcall
          exact ⟨earlier, start, rfl, hfrom, hfree⟩
      | committing name left spawn =>
        obtain ⟨earlier, start, rfl, hfrom, hfree⟩ := hsound
        have hnumber : (r.spawnAt start name).player.id.toInt64 = start := Int64.toInt64_toUInt64 start
        have hroom := hok.2 name left _ hcall
        rw [hnumber] at hroom
        rw [advance]
        split
        · rename_i store e hcommit
          rcases commitPatchChecked_ok hcommit with ⟨hrejected, -⟩ | ⟨-, hpre, rfl⟩
          · cases hrejected
          · rw [hnumber]
            exact ⟨next + 1, h.spawned hfrom hfree hpre hroom⟩
        · refine hstay (h.setCall fun call hcall => ?_) rfl
          split_ifs at hcall
          cases hcall
          trivial
        · exact hstay (h.drop i) rfl
    · cases hstep

theorem kept_start {store : TraceStore} (hseed : r.Roster store first) (calls others : Nat) :
    (start store calls others).Kept r first first := by
  refine ⟨Allocators.counted_start hseed.counter others, hseed, fun call hcall => ?_, fun x hx => absurd hx List.not_mem_nil⟩
  cases (List.eq_of_mem_replicate hcall)

/-- **A run keeps a roster in order.** -/
theorem kept_run {next : Int64} (hrun : Run (step r schemas checker attempts) (KeepsCounter r) w w')
    (h : w.Kept r first next) : ∃ next', w'.Kept r first next' ∧ r.Onward w.store next w'.store next' := by
  induction hrun with
  | start => exact ⟨next, h, h.roster.onward⟩
  | snoc _ hok hstep ih =>
    obtain ⟨mid, hmid, hon⟩ := ih
    obtain ⟨next', hkept, honward⟩ := kept_step hmid hok hstep
    exact ⟨next', hkept, hon.trans honward⟩

end Logins

namespace MooRelations

variable (r : MooRelations) (you : Entity) (name : String) (next : Int64)

variable {r you name next}

end MooRelations

namespace Logins

/-- A test for minding the players: nothing is written in a relation of theirs at all. -/
def checkLeaves (r : MooRelations) : Act → Bool
  | .other (.commit _ patch authority) =>
      patch.updates.all (fun u => u.1 ∉ [r.players, r.named, r.located, r.inboxSeq, r.entitySeq]) &&
        (authority.isSome || (patch.emits.isEmpty && patch.scheduled.isEmpty && patch.cursorAdvance.isNone))
  | .other (.other updates) => updates.all fun u => u.1 ∉ [r.players, r.named, r.located, r.inboxSeq, r.entitySeq]
  | _ => true

/-- A test for room in the counter, whether an allocation is turned away or not. -/
def checkRoom (w : Logins) : Act → Bool
  | .next i => (w.calls[i]?.join).all fun call => match call with
      | .committing _ _ spawn => decide (spawn.player.id.toInt64.toInt + 1 < 2 ^ 63)
      | _ => true
  | .other (.commit i _ _) =>
      (w.world.attempts[i]?.join).all fun x => x.drawing.alloc.start.toInt + (x.numbers.length : Int) < 2 ^ 63
  | _ => true

theorem minds_of_check {r : MooRelations} {store : TraceStore} {own : List Int64} {updates : List (RelId × Tuple × Diff)}
    (h : updates.all (fun u => u.1 ∉ [r.players, r.named, r.located, r.inboxSeq, r.entitySeq]) = true) :
    r.Minds store own updates := by
  have hzero : ∀ rel ∈ [r.players, r.named, r.located, r.inboxSeq, r.entitySeq], ∀ t, netOn rel t updates = 0 := by
    intro rel hrel t
    refine netOn_eq_zero fun u hu hrow => ?_
    have hout := List.all_eq_true.1 h u hu
    rw [hrow.1] at hout
    exact absurd hrel (of_decide_eq_true hout)
  have hentity : ∀ e, r.SparesEntity e updates := fun e =>
    ⟨fun n => hzero _ (by simp) _, fun n => hzero _ (by simp) _, fun p => hzero _ (by simp) _⟩
  exact ⟨hzero _ (by simp), hzero _ (by simp), fun e name _ => hentity e, fun next v _ _ _ => hentity _⟩

theorem leaves_of_check {r : MooRelations} {w : Logins} {act : Act} (h : checkLeaves r act = true) :
    w.LeavesPlayers r act := by
  cases act with
  | other a =>
    cases a with
    | commit i patch authority =>
      obtain ⟨hrows, hbare⟩ := Bool.and_eq_true_iff.1 h
      refine ⟨fun hnone => ?_, fun x _ => minds_of_check hrows⟩
      subst hnone
      simpa [Patch.Bare, and_assoc] using hbare
    | other updates => exact minds_of_check h
    | _ => trivial
  | _ => trivial

theorem keeps_of_check {r : MooRelations} {w : Logins} {act : Act} (h : (checkLeaves r act && w.checkRoom act) = true) :
    w.KeepsCounter r act := by
  obtain ⟨hleaves, hroom⟩ := Bool.and_eq_true_iff.1 h
  refine ⟨leaves_of_check hleaves, ?_⟩
  cases act with
  | next i =>
    intro name left spawn hcall _
    simpa [checkRoom, hcall] using hroom
  | other a =>
    cases a with
    | commit i patch authority =>
      intro x hx _
      simpa [checkRoom, hx] using hroom
    | _ => trivial
  | _ => trivial

end Logins

end Grmpl

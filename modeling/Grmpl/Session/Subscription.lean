import Grmpl.Proc.OneSequence
import Grmpl.Proc.Watched
import Mathlib.Data.List.Sort

/-!
# Subscriptions

A subscription pumps its watch into a player's inbox and drains the inbox to a socket:
it reads how far the socket has been served, streams what the inbox holds from there
on, and moves the delivery cursor past it, in one guarded commit.

* `Subscription`, `Subscription.deliveredThrough`, `Subscription.pending`, `inOrder`,
  `Subscription.advance`: the code.
* `Subscribing`, `Subscribing.step`: a store's appenders, and the drains of its
  subscriptions.
* `InOrder`: what a socket was sent is what its watch appended, in order, up to the
  delivery cursor, and the rest is what the next drain reads.
* `subscription_in_order`: where a player has one subscription and its drains take turns.
* `subscriptions_mixed`: a player with two.
-/

open OrdMap Runs Numbering

namespace Grmpl

/-- One activation as it is handed to the socket. -/
structure Delivered where
  seq : Int64
  diff : Int64
  row : Tuple
  deriving DecidableEq

def decodeActivation (body : Tuple) : Option (Int64 × Tuple) :=
  match body.cells with
  | [.int diff, .tuple row] => some (diff, ⟨row⟩)
  | _ => none

/-- A client's live view: a watch, and the relation of its delivery cursor. -/
structure Subscription where
  watch : OnWatch
  delivery : RelId

namespace Subscription

variable (s : Subscription)

/-- The position a row of the delivery relation records for the watch. -/
def throughIn (row : Tuple × Diff) : Option Int64 :=
  if 0 < row.2 ∧ row.1.cells[0]? = some (.ent s.watch.watch) then
    match row.1.cells[1]? with
    | some (Value.int next) => some next
    | _ => none
  else none

/-- How much of the inbox the socket has consumed, 0 if there is no row. -/
def deliveredThrough (store : TraceStore) : Result Int64 := do
  let rows ← store.readAt s.delivery store.current
  return (rows.findSome? s.throughIn).getD 0

def deliveryTuple (next : Int64) : Tuple := ⟨[.ent s.watch.watch, .int next]⟩

/-- The activation a row of the inbox holds, from a position on. -/
def pendingIn (start : Int64) (row : Tuple × Diff) : Option Delivered :=
  if 0 < row.2 ∧ row.1.cells[0]? = some (.ent s.watch.target) then
    match row.1.cells[1]?, row.1.cells[2]? with
    | some (Value.int seq), some (Value.tuple body) =>
        if start ≤ seq then (decodeActivation ⟨body⟩).map fun x => ⟨seq, x.1, x.2⟩ else none
    | _, _ => none
  else none

/-- What the socket has not been sent, in order of position. -/
def pending (store : TraceStore) (start : Int64) : Result (List Delivered) := do
  let rows ← store.readAt s.watch.inbox store.current
  return (rows.filterMap (s.pendingIn start)).insertionSort fun a b => a.seq ≤ b.seq

/-- The delivery cursor's move past a batch, guarded if it had a row. -/
def advance (start : Int64) (n : Nat) : Patch :=
  (if 0 < start then Patch.new.expect ⟨s.delivery, s.deliveryTuple start⟩ else Patch.new).advanceCursor
    ⟨s.delivery, if 0 < start then some (s.deliveryTuple start) else none,
      s.deliveryTuple (start + Int64.ofNat n)⟩

end Subscription

/-- The activations that follow one another from a position on; the drain stops at a gap. -/
def inOrder : Int64 → List Delivered → List Delivered
  | _, [] => []
  | want, d :: ds => if d.seq = want then d :: inOrder (want + 1) ds else []

/-- Where a drain stands. -/
inductive Drain where
  | idle
  /-- It has read the delivery cursor. -/
  | through (s : Subscription) (start : Int64)
  /-- It has read what is pending. -/
  | pending (s : Subscription) (start : Int64) (ds : List Delivered)
  /-- It has written that to the socket. -/
  | written (s : Subscription) (start : Int64) (ds : List Delivered)

/-- The appenders of a store and the drains of its subscriptions, with what each watch's
sockets were sent. -/
structure Subscribing where
  watched : Watched
  drains : List Drain
  streamed : List ((RelId × Entity) × Delivered)

namespace Subscribing

/-- What is done between two reads, writes or commits. -/
inductive Act where
  | append (a : Mailroom.Act)
  | through (k : Nat) (s : Subscription)
  | read (k : Nat)
  | write (k : Nat)
  | commit (k : Nat)
  | disconnect (k : Nat)

def store (w : Subscribing) : TraceStore := w.watched.room.store

def setDrain (w : Subscribing) (k : Nat) (x : Drain) : Subscribing := { w with drains := w.drains.set k x }

def setStore (w : Subscribing) (store : TraceStore) : Subscribing :=
  { w with watched := { w.watched with room := { w.watched.room with store } } }

/-- What the code does next, if it can. A rejected drain is tried again from the first
read; an error gives it up. -/
def step (schemas : SchemaCatalog) (w : Subscribing) : Act → Option Subscribing
  | .append a => (w.watched.step schemas a).map fun watched => { w with watched }
  | .through k s =>
      match w.drains[k]? with
      | some .idle => match s.deliveredThrough w.store with
        | .ok start => some (w.setDrain k (.through s start))
        | .error _ => some w
      | _ => none
  | .read k =>
      match w.drains[k]? with
      | some (.through s start) => match s.pending w.store start with
        | .ok ds => some (w.setDrain k (if ds = [] then .idle else .pending s start ds))
        | .error _ => some (w.setDrain k .idle)
      | _ => none
  | .write k =>
      match w.drains[k]? with
      | some (.pending s start ds) =>
          let sent := inOrder start ds
          some { w.setDrain k (if sent = ds then .written s start ds else .idle) with
            streamed := w.streamed ++ sent.map fun d => ((s.delivery, s.watch.watch), d) }
      | _ => none
  | .commit k =>
      match w.drains[k]? with
      | some (.written s start ds) =>
          match commitPatch w.store schemas (s.advance start ds.length) s.watch.authority with
          | .ok (store, _) => some ((w.setStore store).setDrain k .idle)
          | .error _ => some (w.setDrain k .idle)
      | _ => none
  | .disconnect k => some (w.setDrain k .idle)

/-- What the sockets of a subscription were sent. -/
def streamedBy (w : Subscribing) (s : Subscription) : List Delivered :=
  (w.streamed.filter fun x => x.1 = (s.delivery, s.watch.watch)).map Prod.snd

/-- What its watch has appended, each activation at its position. -/
def activations (w : Subscribing) (s : Subscription) : List Delivered :=
  ((w.watched.batches s.watch).flatMap Batch.bodies).zipIdx.filterMap fun b =>
    (decodeActivation b.1).map fun x => ⟨Int64.ofNat b.2, x.1, x.2⟩

end Subscribing

/-! ## The property and its condition -/

namespace Subscription

variable (s : Subscription)

/-- The player's inbox. -/
def box : RelId × Entity := (s.watch.inbox, s.watch.target)

/-- The delivery cursor: its relation, and whose row of it. -/
def id : RelId × Entity := (s.delivery, s.watch.watch)

/-- A row the delivery cursor would be read from. -/
def Own (rel : RelId) (t : Tuple) : Prop := rel = s.delivery ∧ t.cells[0]? = some (.ent s.watch.watch)

/-- Updates that leave the delivery cursor alone. -/
def Spares (updates : List (RelId × Tuple × Diff)) : Prop := ∀ u ∈ updates, ¬ s.Own u.1 u.2.1

end Subscription

/-- What a drain has written to the socket of a subscription and not yet moved the
delivery cursor past. -/
def Drain.sending (s : Subscription) : Drain → List Delivered
  | .written s' _ ds => if s'.id = s.id then ds else []
  | _ => []

/-- A drain of a subscription that is under way. -/
def Drain.Of (s : Subscription) : Drain → Prop
  | .idle => False
  | .through s' _ => s'.id = s.id
  | .pending s' _ _ => s'.id = s.id
  | .written s' _ _ => s'.id = s.id

namespace Subscribing

/-- **In order, none lost, none twice, none of another's**: the socket was sent the
activations of the watch up to the delivery cursor, and what a drain is in the middle
of; the cursor is one row of weight one, or none before the first; and what the next
drain reads are the activations from the cursor on. -/
def InOrder (s : Subscription) (w : Subscribing) : Prop :=
  ∃ n ≤ (w.activations s).length,
    (∀ t, s.Own s.delivery t → w.store.weight s.delivery t
      = if n ≠ 0 ∧ t = s.deliveryTuple (Int64.ofNat n) then 1 else 0) ∧
    w.streamedBy s = (w.activations s).take (n + (w.drains.flatMap (Drain.sending s)).length) ∧
    s.pending w.store (Int64.ofNat n) = .ok ((w.activations s).drop n)

/-- Nobody but the watch appends to the player's inbox, and nobody but the drains writes
the delivery cursor. -/
def LeavesAlone (s : Subscription) (w : Mailroom) : Mailroom.Act → Prop
  | .commit k => match w.appenders[k]? with
      | some (.drafted d) => d.append.inbox ≠ s.delivery ∧ d.alloc.rel ≠ s.delivery ∧
          s.Spares d.append.base.updates ∧
            ((d.append.inbox, d.append.target) = s.box → (s.watch.batchOf d.append).isSome = true)
      | some (.seeding x) => x.alloc.rel ≠ s.delivery ∧ s.Spares x.base.updates
      | _ => True
  | .enqueue inbox process _ _ => inbox ≠ s.delivery ∧ (inbox, process) ≠ s.box
  | .deliver m seen sender seq => s.Spares (m.arrival seen sender seq) ∧ ∀ g ∈ m.given, g.box ≠ s.box
  | .other updates => s.Spares updates
  | _ => True

/-- The player's inbox is fed by the subscription alone, its rows and those of its
cursors are left to it, and its drains take turns and are broken off at the ends of
batches only. -/
def KeepsSubscription (r : Roles) (s : Subscription) (w : Subscribing) : Act → Prop
  | .append a => KeepsWatch s.watch w.watched.room a ∧ w.watched.room.KeepsSequence r a ∧
      LeavesAlone s w.watched.room a
  | .through _ s' => (s'.id = s.id → s' = s ∧ ∀ x ∈ w.drains, ¬ x.Of s) ∧
      r.counter s'.delivery = false ∧ r.inbox s'.delivery = false ∧ s'.delivery ≠ s.watch.cursorRel
  | .disconnect k => ∀ x ∈ w.drains[k]?, x.sending s = []
  | _ => True

end Subscribing

/-! ## What a drain reads -/

/-- A message as the activation it carries. -/
def Given.delivered (g : Given) : Option Delivered :=
  (decodeActivation g.body).map fun x => ⟨g.seq, x.1, x.2⟩

section Pending

variable {r : Roles} {s : Subscription} {room : Mailroom}

/-- The rows of an inbox are the messages sent there. -/
theorem Sequenced.mem_rowsAt (h : Sequenced r room) {inbox : RelId} (hin : r.inbox inbox = true) {t : Tuple}
    {d : Diff} (hmem : (t, d) ∈ room.store.rowsAt inbox room.store.current) :
    0 < d ∧ ∃ g ∈ room.given, g.inbox = inbox ∧ g.row = t := by
  obtain ⟨hd, hw⟩ := TraceStore.mem_rowsAt.1 hmem
  rw [h.rows inbox hin t] at hw
  have hpos : 0 < room.given.countP fun g => g.inbox = inbox ∧ g.row = t := by
    rcases Nat.eq_zero_or_pos (room.given.countP fun g => g.inbox = inbox ∧ g.row = t) with hz | hpos
    · rw [hz] at hw
      exact absurd hw.symm hd
    · exact hpos
  obtain ⟨g, hg, hrow⟩ := List.countP_pos_iff.1 hpos
  refine ⟨?_, g, hg, by simpa using hrow⟩
  rw [← hw]
  exact_mod_cast hpos

/-- Every message sent to an inbox is a row of it. -/
theorem Sequenced.row_mem (h : Sequenced r room) {g : Given} (hg : g ∈ room.given) :
    ∃ d, 0 < d ∧ (g.row, d) ∈ room.store.rowsAt g.inbox room.store.current := by
  have hpos : 0 < room.store.weight g.inbox g.row := by
    rw [h.rows g.inbox (h.own g hg).1]
    exact_mod_cast List.countP_pos_iff.2 ⟨g, hg, by simp⟩
  exact ⟨_, hpos, TraceStore.mem_rowsAt.2 ⟨hpos.ne', rfl⟩⟩

/-- What a drain makes of the row of a message. -/
theorem Subscription.pendingIn_row {start : Int64} {g : Given} {d : Diff} (hd : 0 < d) :
    s.pendingIn start (g.row, d) = if g.target = s.watch.target ∧ start ≤ g.seq then g.delivered else none := by
  have hent : (g.row.cells[0]? = some (.ent s.watch.target)) ↔ g.target = s.watch.target := by
    simp [Given.row, inboxFact]
  unfold Subscription.pendingIn
  by_cases htarget : g.target = s.watch.target
  · rw [if_pos ⟨hd, hent.2 htarget⟩]
    by_cases hstart : start ≤ g.seq
    · rw [if_pos ⟨htarget, hstart⟩]
      exact if_pos hstart
    · rw [if_neg fun h => hstart h.2]
      exact if_neg hstart
  · rw [if_neg fun h => htarget (hent.1 h.2), if_neg fun h => htarget h.1]

/-- **A drain reads the messages from its position on, in their order.** -/
theorem pending_eq (h : Sequenced r room) (hin : r.inbox s.watch.inbox = true) {all : List Delivered}
    (hall : (ofStream Given.box s.box room.given).map Given.delivered = all.map some) {n : Nat}
    (hn : n ≤ all.length) : s.pending room.store (Int64.ofNat n) = .ok (all.drop n) := by
  have hlen : (ofStream Given.box s.box room.given).length = all.length := by
    simpa using congrArg List.length hall
  have hroom : all.length < 2 ^ 63 := hlen ▸ h.room s.box
  have hinj := injOn_ofNat (h.room s.box)
  have hget : ∀ (i : Nat) (hi : i < all.length), ∃ g ∈ room.given, g.box = s.box ∧ g.seq = Int64.ofNat i ∧
      g.delivered = some all[i] := by
    intro i hi
    have hmem := List.getElem_mem (l := ofStream Given.box s.box room.given) (n := i) (hlen ▸ hi)
    refine ⟨_, (mem_ofStream.1 hmem).1, (mem_ofStream.1 hmem).2, h.numbered.getElem_number (hlen ▸ hi), ?_⟩
    have hsome := congrArg (fun l => l[i]?) hall
    simpa [hi, hlen] using hsome
  have hseq : ∀ (i : Nat) (hi : i < all.length), all[i].seq = Int64.ofNat i := by
    intro i hi
    obtain ⟨g, -, -, hg, hd⟩ := hget i hi
    obtain ⟨x, -, hx⟩ := Option.map_eq_some_iff.1 hd
    rw [← hx, ← hg]
  have hlt : ∀ i j : Nat, i < 2 ^ 63 → j < 2 ^ 63 → (Int64.ofNat i < Int64.ofNat j ↔ i < j) := by
    intro i j hi hj
    rw [Int64.lt_iff_toInt_lt, Int64.toInt_ofNat_of_lt hi, Int64.toInt_ofNat_of_lt hj]
    omega
  have hsorted : (all.drop n).Pairwise fun a b => a.seq < b.seq := by
    rw [List.pairwise_iff_getElem]
    intro i j hi hj hij
    rw [List.length_drop] at hi hj
    rw [List.getElem_drop, List.getElem_drop, hseq, hseq, hlt _ _ (by omega) (by omega)]
    omega
  -- the same activations, whatever the order of the rows
  have hmem : ∀ x, x ∈ (room.store.rowsAt s.watch.inbox room.store.current).filterMap
      (s.pendingIn (Int64.ofNat n)) ↔ x ∈ all.drop n := by
    intro x
    rw [List.mem_filterMap, List.mem_drop_iff_getElem]
    constructor
    · rintro ⟨⟨t, d⟩, hrow, hx⟩
      obtain ⟨hd, g, hg, hinbox, rfl⟩ := h.mem_rowsAt hin hrow
      rw [Subscription.pendingIn_row hd] at hx
      split_ifs at hx with hcond
      have hstream : g ∈ ofStream Given.box s.box room.given :=
        mem_ofStream.2 ⟨hg, Prod.ext hinbox hcond.1⟩
      obtain ⟨i, hi, rfl⟩ := List.getElem_of_mem hstream
      have hnum := h.numbered.getElem_number hi
      have hi' : i < all.length := hlen ▸ hi
      have hle : n ≤ i := by
        by_contra hnot
        rw [hnum] at hcond
        exact absurd hcond.2 (Int64.not_le.2 ((hlt i n (by omega) (by omega)).2 (not_le.1 hnot)))
      have hsome := congrArg (fun l => l[i]?) hall
      simp only [List.getElem?_map, List.getElem?_eq_getElem hi, List.getElem?_eq_getElem hi',
        Option.map_some, Option.some.injEq] at hsome
      rw [hx] at hsome
      refine ⟨i - n, by omega, ?_⟩
      rw [Option.some.inj hsome]
      congr 1
      omega
    · rintro ⟨i, hi, rfl⟩
      obtain ⟨g, hg, hbox, hnum, hd⟩ := hget (n + i) (by omega)
      obtain ⟨d, hpos, hrow⟩ := h.row_mem hg
      rw [show g.inbox = s.watch.inbox from congrArg Prod.fst hbox] at hrow
      have hle : Int64.ofNat n ≤ g.seq := by
        rw [hnum]
        exact Int64.not_lt.1 fun h => absurd ((hlt (n + i) n (by omega) (by omega)).1 h) (by omega)
      refine ⟨_, hrow, ?_⟩
      rw [Subscription.pendingIn_row hpos, if_pos ⟨congrArg Prod.snd hbox, hle⟩]
      exact hd
  have hnodup : ((room.store.rowsAt s.watch.inbox room.store.current).filterMap
      (s.pendingIn (Int64.ofNat n))).Nodup := by
    rw [List.Nodup, List.pairwise_filterMap]
    refine (room.store.sorted_rowsAt s.watch.inbox room.store.current).imp_of_mem ?_
    rintro ⟨t, d⟩ ⟨t', d'⟩ hrow hrow' hne x hx y hy rfl
    obtain ⟨hd, g, hg, hinbox, rfl⟩ := h.mem_rowsAt hin hrow
    obtain ⟨hd', g', hg', hinbox', rfl⟩ := h.mem_rowsAt hin hrow'
    rw [Subscription.pendingIn_row hd] at hx
    rw [Subscription.pendingIn_row hd'] at hy
    split_ifs at hx hy with hcond hcond'
    obtain ⟨z, -, hz⟩ := Option.map_eq_some_iff.1 hx
    obtain ⟨z', -, hz'⟩ := Option.map_eq_some_iff.1 hy
    have hsame : g = g' := by
      refine h.numbered.eq_of_number_eq hinj (mem_ofStream.2 ⟨hg, Prod.ext hinbox hcond.1⟩)
        (mem_ofStream.2 ⟨hg', Prod.ext hinbox' hcond'.1⟩) ?_
      exact (congrArg Delivered.seq hz).trans (congrArg Delivered.seq hz').symm
    subst hsame
    exact absurd hne (lt_irrefl _)
  have htotal : Std.Total fun a b : Delivered => a.seq ≤ b.seq := ⟨fun _ _ => Int64.le_total _ _⟩
  have htrans : IsTrans Delivered fun a b => a.seq ≤ b.seq := ⟨fun _ _ _ => Int64.le_trans⟩
  rw [Subscription.pending, TraceStore.readAt_current]
  refine congrArg Except.ok (List.Perm.eq_of_pairwise (fun a b ha hb hab hba => ?_)
    (List.pairwise_insertionSort _ _) (hsorted.imp Int64.le_of_lt) ((List.perm_insertionSort _ _).trans
      ((List.perm_ext_iff_of_nodup hnodup (hsorted.imp fun hab heq => ?_)).2 hmem)))
  · -- one position, one activation
    rw [List.mem_insertionSort, hmem] at ha
    obtain ⟨i, hi, rfl⟩ := List.getElem_of_mem ha
    obtain ⟨j, hj, rfl⟩ := List.getElem_of_mem hb
    rcases Nat.lt_trichotomy i j with hij | rfl | hij
    · exact absurd hba (Int64.not_le.2 (List.pairwise_iff_getElem.1 hsorted i j hi hj hij))
    · rfl
    · exact absurd hab (Int64.not_le.2 (List.pairwise_iff_getElem.1 hsorted j i hj hi hij))
  · rw [heq] at hab
    exact Int64.lt_irrefl hab

end Pending

/-! ## The invariant -/

/-- Where a drain is known to write its delivery cursor. -/
def Drain.Sound (r : Roles) (s : Subscription) : Drain → Prop
  | .idle => True
  | .through s' _ | .pending s' _ _ | .written s' _ _ => (s'.id = s.id → s' = s) ∧
      r.counter s'.delivery = false ∧ r.inbox s'.delivery = false ∧ s'.delivery ≠ s.watch.cursorRel

/-- What a drain of a subscription knows, of a cursor at a position: the activations
from there on, as many as there were. -/
def Drain.At (s : Subscription) (n : Nat) (all : List Delivered) : Drain → Prop
  | .idle => True
  | .through s' start => s'.id = s.id → start = Int64.ofNat n
  | .pending s' start ds | .written s' start ds => s'.id = s.id → start = Int64.ofNat n ∧ ds ≠ [] ∧
      ds <+: all.drop n

/-- The delivery cursor's rows at a position. -/
def DeliveryAt (s : Subscription) (store : TraceStore) (n : Nat) : Prop :=
  ∀ t, s.Own s.delivery t → store.weight s.delivery t
    = if n ≠ 0 ∧ t = s.deliveryTuple (Int64.ofNat n) then 1 else 0

/-- The inbox is the watch's batches, one drain is under way at most, and the socket was
sent what the cursor and that drain say. -/
structure Serving (r : Roles) (s : Subscription) (w : Subscribing) : Prop where
  fed : Fed s.watch w.watched
  sound : w.watched.room.Sound
  sequenced : Sequenced r w.watched.room
  bodies : (ofStream Given.box s.box w.watched.room.given).map Given.body
    = (w.watched.batches s.watch).flatMap Batch.bodies
  drains : ∀ x ∈ w.drains, x.Sound r s
  alone : ∀ (i j : Nat) (x y : Drain), w.drains[i]? = some x → w.drains[j]? = some y → x.Of s → y.Of s → i = j
  cursor : ∃ n ≤ (w.activations s).length, DeliveryAt s w.store n ∧
    (∀ x ∈ w.drains, x.At s n (w.activations s)) ∧
    w.streamedBy s = (w.activations s).take n ++ w.drains.flatMap (Drain.sending s)

section Facts

variable {r : Roles} {s : Subscription} {w : Subscribing}

theorem filterMap_map_some {α β : Type} {f : α → Option β} {l : List α} (h : ∀ x ∈ l, (f x).isSome = true) :
    (l.filterMap f).map some = l.map f := by
  induction l with
  | nil => rfl
  | cons x l ih =>
    obtain ⟨y, hy⟩ := Option.isSome_iff_exists.1 (h x List.mem_cons_self)
    rw [List.filterMap_cons_some hy, List.map_cons, List.map_cons, hy,
      ih fun z hz => h z (List.mem_cons_of_mem _ hz)]

/-- What a watch appends are activations. -/
theorem decode_bodies (h : Fed s.watch w.watched) :
    ∀ body ∈ (w.watched.batches s.watch).flatMap Batch.bodies, (decodeActivation body).isSome = true := by
  intro body hbody
  obtain ⟨b, hb, hbody⟩ := List.mem_flatMap.1 hbody
  obtain ⟨x, hx, hxb⟩ := List.mem_filterMap.1 hb
  rcases h.appended x hx with hspares | ⟨start, upTo, rows, hlt, -, hroom, -, -, rfl⟩
  · rw [OnWatch.batchOf_spares hspares] at hxb
    cases hxb
  · rw [OnWatch.batchOf_pumped hlt hroom] at hxb
    cases hxb
    obtain ⟨row, -, rfl⟩ := List.mem_map.1 hbody
    rfl

/-- The messages in the player's inbox are the activations of the watch. -/
theorem Serving.activations (h : Serving r s w) :
    (ofStream Given.box s.box w.watched.room.given).map Given.delivered = (w.activations s).map some := by
  have hsome : ∀ b ∈ ((w.watched.batches s.watch).flatMap Batch.bodies).zipIdx,
      ((decodeActivation b.1).map fun x => (⟨Int64.ofNat b.2, x.1, x.2⟩ : Delivered)).isSome = true := by
    intro b hb
    rw [Option.isSome_map]
    exact decode_bodies h.fed b.1 (List.fst_mem_of_mem_zipIdx hb)
  rw [Subscribing.activations, filterMap_map_some hsome, ← h.bodies]
  refine List.ext_getElem (by simp) fun i hi _ => ?_
  rw [List.length_map] at hi
  simp [Given.delivered, h.sequenced.numbered.getElem_number hi]

theorem Serving.length (h : Serving r s w) : (w.activations s).length < 2 ^ 63 := by
  have hlen := congrArg List.length h.activations
  rw [List.length_map, List.length_map] at hlen
  exact hlen ▸ h.sequenced.room s.box

/-- The activations are at the positions from zero on. -/
theorem Serving.seq (h : Serving r s w) {i : Nat} (hi : i < (w.activations s).length) :
    (w.activations s)[i].seq = Int64.ofNat i := by
  have hlen := congrArg List.length h.activations
  rw [List.length_map, List.length_map] at hlen
  have hsome := congrArg (fun l => l[i]?) h.activations
  simp only [List.getElem?_map, List.getElem?_eq_getElem hi, List.getElem?_eq_getElem (hlen ▸ hi),
    Option.map_some, Option.some.injEq] at hsome
  obtain ⟨x, -, hx⟩ := Option.map_eq_some_iff.1 hsome
  rw [← hx]
  exact h.sequenced.numbered.getElem_number (hlen ▸ hi)

/-- A run of activations is streamed whole. -/
theorem inOrder_eq : ∀ {ds : List Delivered} {n : Nat},
    (∀ (i : Nat) (hi : i < ds.length), ds[i].seq = Int64.ofNat (n + i)) → inOrder (Int64.ofNat n) ds = ds := by
  intro ds
  induction ds with
  | nil => exact fun _ => rfl
  | cons d ds ih =>
    intro n h
    have hnext : Int64.ofNat n + 1 = Int64.ofNat (n + 1) := (Int64.ofNat_add n 1).symm
    have hfirst : d.seq = Int64.ofNat n := h 0 (by simp)
    rw [inOrder, if_pos hfirst, hnext, ih fun i hi => ?_]
    have := h (i + 1) (by simpa using hi)
    rw [List.getElem_cons_succ] at this
    rw [this]
    congr 1
    omega

/-- The delivery cursor reads as its position. -/
theorem DeliveryAt.read {store : TraceStore} {n : Nat} (h : DeliveryAt s store n) :
    s.deliveredThrough store = .ok (Int64.ofNat n) := by
  have hrow : ∀ row ∈ store.rowsAt s.delivery store.current, ∀ next, s.throughIn row = some next →
      n ≠ 0 ∧ next = Int64.ofNat n := by
    rintro ⟨t, d⟩ hmem next hnext
    unfold Subscription.throughIn at hnext
    split_ifs at hnext with hcond
    have hw := (TraceStore.mem_rowsAt.1 hmem).2
    rw [h t ⟨rfl, hcond.2⟩] at hw
    split_ifs at hw with hc
    · obtain ⟨hne, rfl⟩ := hc
      exact ⟨hne, (Option.some.inj hnext).symm⟩
    · exact absurd hw hcond.1.ne
  have hread : s.deliveredThrough store
      = .ok (((store.rowsAt s.delivery store.current).findSome? s.throughIn).getD 0) := by
    rw [Subscription.deliveredThrough, TraceStore.readAt_current]
    rfl
  rw [hread]
  by_cases hn : n = 0
  · subst hn
    rw [List.findSome?_eq_none_iff.2 fun row hmem => ?_]
    · rfl
    · by_contra hne
      obtain ⟨next, hnext⟩ := Option.ne_none_iff_exists'.1 hne
      exact (hrow row hmem next hnext).1 rfl
  · have hmem : (s.deliveryTuple (Int64.ofNat n), (1 : Diff)) ∈ store.rowsAt s.delivery store.current := by
      refine TraceStore.mem_rowsAt.2 ⟨by decide, ?_⟩
      rw [h _ ⟨rfl, rfl⟩, if_pos ⟨hn, rfl⟩]
    rw [findSome?_of_all (fun row hrowmem next hnext => (hrow row hrowmem next hnext).2) ⟨_, hmem, by
      simp [Subscription.throughIn, Subscription.deliveryTuple]⟩]
    rfl

theorem netOn_delivery {updates : List (RelId × Tuple × Diff)} (h : s.Spares updates) {t : Tuple}
    (ht : s.Own s.delivery t) : netOn s.delivery t updates = 0 := by
  refine netOn_eq_zero fun u hu hut => h u hu ?_
  rw [hut.1, hut.2]
  exact ht

/-- Commits elsewhere leave the delivery cursor. -/
theorem DeliveryAt.commit {store : TraceStore} {n : Nat} (h : DeliveryAt s store n)
    {updates : List (RelId × Tuple × Diff)} (hnet : ∀ t, s.Own s.delivery t → netOn s.delivery t updates = 0) :
    DeliveryAt s (store.commit updates) n := by
  intro t ht
  rw [TraceStore.weight_commit, h t ht, hnet t ht, add_zero]

/-- A drain's patch moves the cursor past its batch. -/
theorem DeliveryAt.advance {store : TraceStore} {n k : Nat} (h : DeliveryAt s store n) (hk : k ≠ 0)
    (hlt : n + k < 2 ^ 63) : DeliveryAt s (store.commit (s.advance (Int64.ofNat n) k).updates) (n + k) := by
  have hpos : (0 < Int64.ofNat n) ↔ n ≠ 0 := by
    rw [Int64.lt_iff_toInt_lt, Int64.toInt_ofNat_of_lt (by omega)]
    simp only [Int64.toInt_zero]
    omega
  have hnext : Int64.ofNat n + Int64.ofNat k = Int64.ofNat (n + k) := (Int64.ofNat_add n k).symm
  intro t ht
  have hnet : netOn s.delivery t (s.advance (Int64.ofNat n) k).updates
      = (if n ≠ 0 ∧ s.deliveryTuple (Int64.ofNat n) = t then -1 else 0)
        + if s.deliveryTuple (Int64.ofNat (n + k)) = t then 1 else 0 := by
    unfold Subscription.advance
    rw [hnext]
    by_cases hn : n = 0
    · have hnot : ¬ (0 < Int64.ofNat n) := fun h => hpos.1 h hn
      simp [hn, Patch.updates, Patch.emitted, Patch.advanceCursor, Patch.new, CursorMove.updates]
    · have hyes := hpos.2 hn
      simp [hyes, hn, Patch.updates, Patch.emitted, Patch.advanceCursor, Patch.expect, Patch.new,
        CursorMove.updates]
  rw [TraceStore.weight_commit, h t ht, hnet]
  simp only [eq_comm (b := t)]
  by_cases hold : t = s.deliveryTuple (Int64.ofNat n)
  · rw [hold]
    by_cases hn : n = 0
    · simp [hn, hk]
    · simp [hn]
  · simp [hold, hk]

/-- A drain's patch passes the laws, and its guard is the cursor as it was read. -/
theorem DeliveryAt.commits {store : TraceStore} {n : Nat} (h : DeliveryAt s store n) (hn : n < 2 ^ 63) (k : Nat)
    (schemas : SchemaCatalog) (authority : Authority) :
    commitPatch store schemas (s.advance (Int64.ofNat n) k) authority
      = .ok (store.commit (s.advance (Int64.ofNat n) k).updates, .committed (store.current + 1)) := by
  have hcheck : checkPatch schemas noBehaviorCheck (s.advance (Int64.ofNat n) k) authority
      = .ok ⟨(s.advance (Int64.ofNat n) k).preconditions.map fun f => (f.rel, f.tuple), [],
        (s.advance (Int64.ofNat n) k).updates⟩ := by
    unfold Subscription.advance
    split <;> rfl
  have hguard : ∀ p ∈ (s.advance (Int64.ofNat n) k).preconditions.map fun f => (f.rel, f.tuple),
      0 < store.weight p.1 p.2 := by
    intro p hp
    obtain ⟨f, hf, rfl⟩ := List.mem_map.1 hp
    unfold Subscription.advance at hf
    split_ifs at hf with hpos
    · obtain rfl := List.mem_singleton.1 hf
      have hne : n ≠ 0 := by
        rintro rfl
        exact absurd hpos (by decide)
      show 0 < store.weight s.delivery (s.deliveryTuple (Int64.ofNat n))
      rw [h _ ⟨rfl, rfl⟩, if_pos ⟨hne, rfl⟩]
      exact Int.one_pos
    · exact absurd hf (by simp [Patch.advanceCursor, Patch.new])
  have hemit : (s.advance (Int64.ofNat n) k).emitted = [] := by
    unfold Subscription.advance
    split <;> rfl
  rw [commitPatch, commitPatchChecked, hcheck]
  simp only [bind, Except.bind, hemit, List.append_nil, List.nil_append,
    TraceStore.commitIf_eq_some.2 ⟨hguard, rfl⟩, pure, Except.pure, TraceStore.current_commit]

end Facts

/-! ## What a step keeps -/

section Steps

variable {r : Roles} {s : Subscription} {schemas : SchemaCatalog} {w w' : Subscribing}

/-- The batches that are added to add activations at their end. -/
theorem activations_append {v : Subscribing} {bs : List Batch}
    (h : v.watched.batches s.watch = w.watched.batches s.watch ++ bs) : w.activations s <+: v.activations s := by
  unfold Subscribing.activations
  rw [h, List.flatMap_append, List.zipIdx_append, List.filterMap_append]
  exact List.prefix_append _ _

/-- A longer list of activations is no less than a drain has seen. -/
theorem Drain.At.grow {n : Nat} {all all' : List Delivered} (hle : n ≤ all.length) (hpre : all <+: all') {x : Drain}
    (h : x.At s n all) : x.At s n all' := by
  have hdrop : all.drop n <+: all'.drop n := by
    obtain ⟨more, rfl⟩ := hpre
    rw [List.drop_append_of_le_length hle]
    exact List.prefix_append _ _
  cases x with
  | idle => trivial
  | through s' start => exact h
  | pending s' start ds => exact fun hid => ⟨(h hid).1, (h hid).2.1, (h hid).2.2.trans hdrop⟩
  | written s' start ds => exact fun hid => ⟨(h hid).1, (h hid).2.1, (h hid).2.2.trans hdrop⟩

/-- Appends elsewhere, and batches of the watch to its player's inbox. -/
theorem Serving.append (h : Serving r s w) {watched : Watched} (hfed : Fed s.watch watched)
    (hsound : watched.room.Sound) (hseq : Sequenced r watched.room)
    (hbodies : (ofStream Given.box s.box watched.room.given).map Given.body
      = (watched.batches s.watch).flatMap Batch.bodies) {bs : List Batch}
    (hbatches : watched.batches s.watch = w.watched.batches s.watch ++ bs)
    (hcursor : ∀ n, DeliveryAt s w.store n → DeliveryAt s watched.room.store n) :
    Serving r s { w with watched } := by
  have hpre : w.activations s <+: Subscribing.activations { w with watched } s := activations_append hbatches
  obtain ⟨n, hn, hat, hdrains, hstreamed⟩ := h.cursor
  refine ⟨hfed, hsound, hseq, hbodies, h.drains, h.alone, n, hn.trans hpre.length_le, hcursor n hat,
    fun x hx => (hdrains x hx).grow hn hpre, ?_⟩
  obtain ⟨more, hmore⟩ := hpre
  rw [← hmore, List.take_append_of_le_length hn]
  exact hstreamed

theorem Draft.given_body (d : Draft) : d.given.map Given.body = d.append.bodies := by
  obtain ⟨-, hbodies, -⟩ := SeqAlloc.assign_eq d.append.bodies d.alloc
  rw [Draft.given, List.map_map]
  exact hbodies

/-- What an append means for the player's inbox. -/
theorem bodies_append (h : Serving r s w) {d : Draft} (hd : s.watch.Appends w.store d.append)
    (hbox : (d.append.inbox, d.append.target) = s.box → (s.watch.batchOf d.append).isSome = true)
    {room : Mailroom} (hgiven : room.given = w.watched.room.given ++ d.given) :
    ∃ bs, (Watched.mk room (w.watched.appended ++ [d.append]) w.watched.seeded).batches s.watch
        = w.watched.batches s.watch ++ bs ∧
      (ofStream Given.box s.box room.given).map Given.body
        = (w.watched.batches s.watch ++ bs).flatMap Batch.bodies := by
  refine ⟨(s.watch.batchOf d.append).toList, ?_, ?_⟩
  · rw [Watched.batches, List.filterMap_append]
    rfl
  · rw [hgiven, ofStream_append, List.map_append, h.bodies, List.flatMap_append]
    congr 1
    rcases hd with hspares | ⟨start, upTo, rows, hlt, -, hroom, -, -, heq⟩
    · have hnone := OnWatch.batchOf_spares hspares
      have hother : s.box ≠ (d.append.inbox, d.append.target) := by
        intro heq
        have := hbox heq.symm
        rw [hnone] at this
        cases this
      rw [ofStream_other Draft.given_box hother, hnone]
      rfl
    · have hself : ∀ g ∈ d.given, g.box = s.box := by
        intro g hg
        rw [Draft.given_box g hg, heq]
        rfl
      rw [ofStream_self hself, d.given_body, heq, OnWatch.batchOf_pumped hlt hroom]
      simp

/-- **An append keeps the subscription served.** -/
theorem serving_append (hview : s.watch.Settled) (h : Serving r s w) {a : Mailroom.Act}
    (hok : w.KeepsSubscription r s (.append a)) {watched : Watched}
    (hstep : w.watched.step schemas a = some watched) : Serving r s { w with watched } := by
  obtain ⟨hwatch, hkeep, hrest⟩ := hok
  obtain ⟨room, hroom, -⟩ := Option.map_eq_some_iff.1 hstep
  have hfed := fed_step hview h.fed h.sound hwatch hstep
  have hdoes := Mailroom.step_does h.sound hroom
  have hsame := Watched.room_of_step hroom hstep
  have hseq : Sequenced r watched.room := hsame ▸ sequenced_step h.sequenced h.sound hkeep hdoes
  have hsound : watched.room.Sound := hsame ▸ Mailroom.sound_step h.sound hdoes
  have hold := h.bodies
  cases Watched.step_does h.sound hstep with
  | rest _ room hstore hgiven =>
    exact h.append hfed hsound hseq (hgiven ▸ hold) (List.append_nil _).symm fun n hn => hstore ▸ hn
  | append k d room hd hpre hstore hgiven =>
    simp only [Subscribing.LeavesAlone, hd] at hrest
    obtain ⟨hinbox, hseqs, hspares, hbox⟩ := hrest
    obtain ⟨bs, hbs, hbodies⟩ := bodies_append h (h.fed.phases _ (List.mem_of_getElem? hd)) hbox hgiven
    refine h.append hfed hsound hseq (hbs ▸ hbodies) hbs fun n hn => hstore ▸ hn.commit fun t ht => ?_
    rw [d.netOn_elsewhere hinbox hseqs]
    exact netOn_delivery hspares ht
  | seed k x room hphase hstore hgiven =>
    simp only [Subscribing.LeavesAlone, hphase] at hrest
    refine h.append hfed hsound hseq (hgiven ▸ hold) (List.append_nil _).symm
      fun n hn => hstore ▸ hn.commit fun t ht => ?_
    rw [SeqAlloc.seed]
    split
    · exact netOn_delivery hrest.2 ht
    · rw [netOn_assert, if_neg fun hc => hrest.1 hc.1, add_zero]
      exact netOn_delivery hrest.2 ht
  | enqueue inbox process seq body room hstore hgiven =>
    refine h.append hfed hsound hseq ?_ (List.append_nil _).symm fun n hn => hstore ▸ hn.commit fun t ht => ?_
    · have hother : ∀ g ∈ [(⟨inbox, process, none, seq, body⟩ : Given)], g.box = (inbox, process) :=
        fun g hg => by rw [List.mem_singleton.1 hg]; rfl
      rw [hgiven, ofStream_append, ofStream_other hother hrest.2.symm, List.append_nil]
      exact hold
    · refine netOn_eq_zero fun u hu hut => ?_
      rw [List.mem_singleton.1 hu] at hut
      exact hrest.1 hut.1
  | deliver m seen sender seq room hstore hgiven =>
    refine h.append hfed hsound hseq ?_ (List.append_nil _).symm
      fun n hn => hstore ▸ hn.commit fun t ht => netOn_delivery hrest.1 ht
    have hnone : ofStream Given.box s.box m.given.toList = [] :=
      List.filter_eq_nil_iff.2 fun g hg => by simpa using hrest.2 g (Option.mem_toList.1 hg)
    rw [hgiven, ofStream_append, hnone, List.append_nil]
    exact hold
  | other updates room hstore hgiven =>
    exact h.append hfed hsound hseq (hgiven ▸ hold) (List.append_nil _).symm
      fun n hn => hstore ▸ hn.commit fun t ht => netOn_delivery hrest ht

/-- Replacing an element by one with the same image. -/
theorem flatMap_set_same {α β : Type} {f : α → List β} : ∀ {l : List α} {k : Nat} {x y : α}, l[k]? = some x →
    f y = f x → (l.set k y).flatMap f = l.flatMap f := by
  intro l
  induction l with
  | nil => exact fun h => nomatch h
  | cons z l ih =>
    intro k x y hx hf
    cases k with
    | zero =>
      cases hx
      rw [List.set_cons_zero, List.flatMap_cons, List.flatMap_cons, hf]
    | succ k => rw [List.set_cons_succ, List.flatMap_cons, List.flatMap_cons, ih hx hf]

/-- Replacing the one element whose image is not empty. -/
theorem flatMap_set_alone {α β : Type} {f : α → List β} : ∀ {l : List α} {k : Nat} {y : α}, k < l.length →
    (∀ (j : Nat) (z : α), l[j]? = some z → j ≠ k → f z = []) → (l.set k y).flatMap f = f y := by
  intro l
  induction l with
  | nil => exact fun h => absurd h (Nat.not_lt_zero _)
  | cons z l ih =>
    intro k y hk hnil
    cases k with
    | zero =>
      have hrest : l.flatMap f = [] := by
        rw [List.flatMap_eq_nil_iff]
        intro z' hz'
        obtain ⟨j, hj, rfl⟩ := List.getElem_of_mem hz'
        exact hnil (j + 1) _ (by simp [hj]) (Nat.succ_ne_zero j)
      rw [List.set_cons_zero, List.flatMap_cons, hrest, List.append_nil]
    | succ k =>
      rw [List.set_cons_succ, List.flatMap_cons, hnil 0 z rfl (Nat.succ_ne_zero k).symm, List.nil_append]
      exact ih (by simpa using hk) fun j z' hz' hj => hnil (j + 1) z' hz' fun heq => hj (by omega)

theorem sending_of_not_of {x : Drain} (h : ¬ x.Of s) : x.sending s = [] := by
  cases x with
  | written s' start ds => exact if_neg h
  | _ => rfl

/-- Replacing one drain keeps at most one of the subscription's under way. -/
theorem Serving.alone_set (h : Serving r s w) {k : Nat} {x y : Drain} (hx : w.drains[k]? = some x)
    (hof : y.Of s → x.Of s ∨ ∀ z ∈ w.drains, ¬ z.Of s) : ∀ (i j : Nat) (a b : Drain),
      (w.drains.set k y)[i]? = some a → (w.drains.set k y)[j]? = some b → a.Of s → b.Of s → i = j := by
  have hcase : ∀ (i : Nat) (a : Drain), (w.drains.set k y)[i]? = some a →
      (i = k ∧ a = y) ∨ (i ≠ k ∧ w.drains[i]? = some a) := by
    intro i a ha
    rw [List.getElem?_set] at ha
    split_ifs at ha with hik hlt
    · exact .inl ⟨hik.symm, (Option.some.inj ha).symm⟩
    · exact .inr ⟨Ne.symm hik, ha⟩
  -- the one replaced and another one of the subscription's
  have hone : ∀ (i : Nat) (a : Drain), w.drains[i]? = some a → a.Of s → y.Of s → i = k := by
    intro i a ha haof hyof
    rcases hof hyof with hxof | hnone
    · exact h.alone i k a x ha hx haof hxof
    · exact absurd haof (hnone a (List.mem_of_getElem? ha))
  intro i j a b ha hb haof hbof
  rcases hcase i a ha with ⟨rfl, rfl⟩ | ⟨-, ha'⟩ <;> rcases hcase j b hb with ⟨rfl, rfl⟩ | ⟨-, hb'⟩
  · rfl
  · exact (hone j b hb' hbof haof).symm
  · exact hone i a ha' haof hbof
  · exact h.alone i j a b ha' hb' haof hbof

/-- What is being sent is what the subscription's drain sends. -/
theorem Serving.flatMap_alone (h : Serving r s w) {k : Nat} {x : Drain} (hx : w.drains[k]? = some x)
    (hof : x.Of s) : w.drains.flatMap (Drain.sending s) = x.sending s := by
  have hlt : k < w.drains.length := (List.getElem?_eq_some_iff.1 hx).1
  have hself : w.drains.set k x = w.drains := by
    rw [List.getElem?_eq_getElem hlt] at hx
    rw [← Option.some.inj hx, List.set_getElem_self]
  rw [← hself]
  exact flatMap_set_alone hlt fun j z hz hj => sending_of_not_of fun hz' => hj (h.alone j k z x hz hx hz' hof)

/-- A drain that writes nothing and commits nothing. -/
theorem Serving.setDrain (h : Serving r s w) {k : Nat} {x y : Drain} (hx : w.drains[k]? = some x)
    (hy : y.Sound r s) (hof : y.Of s → x.Of s ∨ ∀ z ∈ w.drains, ¬ z.Of s) (hsend : y.sending s = x.sending s)
    (hat : ∀ n ≤ (w.activations s).length, DeliveryAt s w.store n → x.At s n (w.activations s) →
      y.At s n (w.activations s)) : Serving r s (w.setDrain k y) := by
  obtain ⟨n, hn, hcursor, hdrains, hstreamed⟩ := h.cursor
  refine ⟨h.fed, h.sound, h.sequenced, h.bodies, fun z hz => ?_, h.alone_set hx hof, n, hn, hcursor,
    fun z hz => ?_, ?_⟩
  · rcases List.mem_or_eq_of_mem_set hz with hz | rfl
    · exact h.drains z hz
    · exact hy
  · rcases List.mem_or_eq_of_mem_set hz with hz | rfl
    · exact hdrains z hz
    · exact hat n hn hcursor (hdrains x (List.mem_of_getElem? hx))
  · show w.streamedBy s = _ ++ (w.drains.set k y).flatMap (Drain.sending s)
    rw [flatMap_set_same hx hsend]
    exact hstreamed

/-- What a drain of the subscription has read is streamed whole. -/
theorem Serving.inOrder_eq (h : Serving r s w) {n : Nat} {ds : List Delivered}
    (hpre : ds <+: (w.activations s).drop n) : inOrder (Int64.ofNat n) ds = ds := by
  refine Grmpl.inOrder_eq fun i hi => ?_
  have hlen := hpre.length_le
  rw [List.length_drop] at hlen
  rw [hpre.getElem hi, List.getElem_drop]
  exact h.seq (by omega)

/-- **A write of the subscription's drain sends the next activations.** -/
theorem Serving.write (h : Serving r s w) {k : Nat} {start : Int64} {ds : List Delivered}
    (hx : w.drains[k]? = some (.pending s start ds)) : inOrder start ds = ds ∧
      Serving r s { w.setDrain k (.written s start ds) with
        streamed := w.streamed ++ ds.map fun d => ((s.delivery, s.watch.watch), d) } := by
  obtain ⟨n, hn, hcursor, hdrains, hstreamed⟩ := h.cursor
  have hmem := List.mem_of_getElem? hx
  have hsound := h.drains _ hmem
  obtain ⟨rfl, hne, hpre⟩ := hdrains _ hmem rfl
  refine ⟨h.inOrder_eq hpre, h.fed, h.sound, h.sequenced, h.bodies, fun z hz => ?_,
    h.alone_set hx fun _ => .inl rfl, n, hn, hcursor, fun z hz => ?_, ?_⟩
  · rcases List.mem_or_eq_of_mem_set hz with hz | rfl
    · exact h.drains z hz
    · exact hsound
  · rcases List.mem_or_eq_of_mem_set hz with hz | rfl
    · exact hdrains z hz
    · exact fun _ => ⟨rfl, hne, hpre⟩
  · -- no other drain of the subscription is under way
    have hnone : ∀ (j : Nat) (z : Drain), w.drains[j]? = some z → j ≠ k → z.sending s = [] :=
      fun j z hz hj => sending_of_not_of fun hof => hj (h.alone j k z _ hz hx hof rfl)
    have hbefore : w.drains.flatMap (Drain.sending s) = [] := h.flatMap_alone hx rfl
    have hlt : k < w.drains.length := (List.getElem?_eq_some_iff.1 hx).1
    show ((w.streamed ++ ds.map fun d => ((s.delivery, s.watch.watch), d)).filter fun x =>
      x.1 = (s.delivery, s.watch.watch)).map Prod.snd = _ ++ (w.drains.set k _).flatMap (Drain.sending s)
    rw [flatMap_set_alone hlt hnone, List.filter_append, List.map_append]
    have hold : (w.streamed.filter fun x => x.1 = (s.delivery, s.watch.watch)).map Prod.snd
        = (w.activations s).take n := by
      rw [hbefore, List.append_nil] at hstreamed
      exact hstreamed
    rw [hold]
    congr 1
    rw [Drain.sending, if_pos rfl, List.filter_eq_self.2 fun x hx => ?_]
    · simp
    · obtain ⟨d, -, rfl⟩ := List.mem_map.1 hx
      simp

/-- A drain's patch writes its own delivery cursor. -/
theorem mem_advance {s' : Subscription} {start : Int64} {n : Nat} {u : RelId × Tuple × Diff}
    (h : u ∈ (s'.advance start n).updates) :
    u.1 = s'.delivery ∧ u.2.1.cells[0]? = some (.ent s'.watch.watch) := by
  unfold Subscription.advance at h
  have hcases : u = (s'.delivery, s'.deliveryTuple start, -1) ∨
      u = (s'.delivery, s'.deliveryTuple (start + Int64.ofNat n), 1) := by
    split_ifs at h
    · simpa [Patch.updates, Patch.emitted, Patch.advanceCursor, Patch.expect, Patch.new,
        CursorMove.updates] using h
    · refine .inr ?_
      simpa [Patch.updates, Patch.emitted, Patch.advanceCursor, Patch.new, CursorMove.updates] using h
  rcases hcases with rfl | rfl
  · exact ⟨rfl, rfl⟩
  · exact ⟨rfl, rfl⟩

/-- A drain's commit, to be followed by its rest, leaves the player's inbox and the
watch alone. -/
theorem Serving.commitDrain (hview : s.watch.Settled) (h : Serving r s w) {k : Nat} {s' : Subscription}
    {start : Int64} {ds : List Delivered} (hx : w.drains[k]? = some (.written s' start ds))
    (hcursor : ∃ n ≤ (w.activations s).length,
      DeliveryAt s (w.store.commit (s'.advance start ds.length).updates) n ∧
        (∀ x ∈ w.drains.set k .idle, x.At s n (w.activations s)) ∧
          w.streamedBy s = (w.activations s).take n ++ (w.drains.set k .idle).flatMap (Drain.sending s)) :
    Serving r s ((w.setStore (w.store.commit (s'.advance start ds.length).updates)).setDrain k .idle) := by
  obtain ⟨-, hcounter, hinbox, hne⟩ := h.drains _ (List.mem_of_getElem? hx)
  refine ⟨?_, h.sound, ?_, h.bodies, fun z hz => ?_, h.alone_set hx nofun, hcursor⟩
  · refine h.fed.spared hview (fun t ht => netOn_eq_zero fun u hu hut => hne ?_) rfl h.fed.phases
    exact (mem_advance hu).1.symm.trans hut.1
  · refine sequenced_spared h.sequenced (fun u hu => ?_) _
    rw [(mem_advance hu).1]
    exact ⟨hcounter, hinbox⟩
  · rcases List.mem_or_eq_of_mem_set hz with hz | rfl
    · exact h.drains z hz
    · trivial

/-- **A commit of the subscription's drain moves its cursor past what it sent.** -/
theorem Serving.commit_own (schemas : SchemaCatalog) (hview : s.watch.Settled) (h : Serving r s w) {k : Nat} {start : Int64}
    {ds : List Delivered} (hx : w.drains[k]? = some (.written s start ds)) :
    commitPatch w.store schemas (s.advance start ds.length) s.watch.authority
        = .ok (w.store.commit (s.advance start ds.length).updates, .committed (w.store.current + 1)) ∧
      Serving r s ((w.setStore (w.store.commit (s.advance start ds.length).updates)).setDrain k .idle) := by
  obtain ⟨n, hn, hcursor, hdrains, hstreamed⟩ := h.cursor
  have hmem := List.mem_of_getElem? hx
  obtain ⟨rfl, hne, hpre⟩ := hdrains _ hmem rfl
  have hlen := hpre.length_le
  rw [List.length_drop] at hlen
  have hroom := h.length
  have hpos : ds.length ≠ 0 := fun h => hne (List.length_eq_zero_iff.1 h)
  have hlt : k < w.drains.length := (List.getElem?_eq_some_iff.1 hx).1
  -- the drain was the subscription's only one
  have hnone : ∀ (j : Nat) (z : Drain), w.drains[j]? = some z → j ≠ k → ¬ z.Of s :=
    fun j z hz hj hof => hj (h.alone j k z _ hz hx hof rfl)
  have hbefore : w.drains.flatMap (Drain.sending s) = ds := by
    rw [h.flatMap_alone hx rfl]
    exact if_pos rfl
  refine ⟨hcursor.commits (by omega) _ _ _, h.commitDrain hview hx ⟨n + ds.length, by omega,
    hcursor.advance hpos (by omega), fun x hxmem => ?_, ?_⟩⟩
  · obtain ⟨j, hj⟩ := List.getElem?_of_mem hxmem
    rw [List.getElem?_set] at hj
    split_ifs at hj with hjk
    · cases hj
      trivial
    · have hof := hnone j x hj (Ne.symm hjk)
      cases x with
      | idle => trivial
      | _ => exact fun hid => absurd hid hof
  · rw [flatMap_set_alone hlt fun j z hz hj => sending_of_not_of (hnone j z hz hj), hstreamed, hbefore]
    obtain ⟨more, hmore⟩ := hpre
    rw [List.take_add, ← hmore, List.take_left]
    exact (List.append_nil _).symm

/-- What other sockets are sent is none of the subscription's. -/
theorem Serving.stream (h : Serving r s w) {xs : List ((RelId × Entity) × Delivered)}
    (hxs : ∀ x ∈ xs, x.1 ≠ s.id) : Serving r s { w with streamed := w.streamed ++ xs } := by
  obtain ⟨n, hn, hcursor, hdrains, hstreamed⟩ := h.cursor
  refine ⟨h.fed, h.sound, h.sequenced, h.bodies, h.drains, h.alone, n, hn, hcursor, hdrains, ?_⟩
  have hnone : xs.filter (fun x => x.1 = (s.delivery, s.watch.watch)) = [] :=
    List.filter_eq_nil_iff.2 fun x hx => by simpa [Subscription.id] using hxs x hx
  show ((w.streamed ++ xs).filter fun x => x.1 = (s.delivery, s.watch.watch)).map Prod.snd = _
  rw [List.filter_append, hnone, List.append_nil]
  exact hstreamed

/-- A commit of another subscription's drain. -/
theorem Serving.commit_other (hview : s.watch.Settled) (h : Serving r s w) {k : Nat} {s' : Subscription}
    {start : Int64} {ds : List Delivered} (hx : w.drains[k]? = some (.written s' start ds)) (hne : s'.id ≠ s.id) :
    Serving r s ((w.setStore (w.store.commit (s'.advance start ds.length).updates)).setDrain k .idle) := by
  obtain ⟨n, hn, hcursor, hdrains, hstreamed⟩ := h.cursor
  refine h.commitDrain hview hx ⟨n, hn, hcursor.commit fun t ht => netOn_eq_zero fun u hu hut => hne ?_,
    fun x hxmem => ?_, ?_⟩
  · obtain ⟨hrel, hcell⟩ := mem_advance hu
    rw [hut.2, ht.2] at hcell
    exact Prod.ext (hrel.symm.trans hut.1) (Value.ent.inj (Option.some.inj hcell)).symm
  · rcases List.mem_or_eq_of_mem_set hxmem with hxmem | rfl
    · exact hdrains x hxmem
    · trivial
  · have hnil : Drain.sending s .idle = Drain.sending s (.written s' start ds) := (if_neg hne).symm
    rw [flatMap_set_same hx hnil]
    exact hstreamed

/-- **Every step keeps the subscription served.** -/
theorem serving_step (hview : s.watch.Settled) (hin : r.inbox s.watch.inbox = true) (h : Serving r s w)
    {a : Subscribing.Act} (hok : w.KeepsSubscription r s a) (hstep : w.step schemas a = some w') :
    Serving r s w' := by
  cases a with
  | append a =>
    obtain ⟨watched, hwatched, rfl⟩ := Option.map_eq_some_iff.1 hstep
    exact serving_append hview h hok hwatched
  | through k s' =>
    obtain ⟨hid, hroles⟩ := hok
    simp only [Subscribing.step] at hstep
    split at hstep
    · rename_i hx
      split at hstep
      · rename_i start hstart
        cases hstep
        refine h.setDrain hx ⟨fun heq => (hid heq).1, hroles⟩ (fun hof => .inr (hid hof).2) rfl
          fun n hn hcursor _ heq => ?_
        obtain rfl := (hid heq).1
        exact Except.ok.inj (hstart.symm.trans hcursor.read)
      · cases hstep
        exact h
    · cases hstep
  | read k =>
    simp only [Subscribing.step] at hstep
    split at hstep
    · rename_i s' start hx
      have hsound := h.drains _ (List.mem_of_getElem? hx)
      split at hstep
      · rename_i ds hds
        cases hstep
        split
        · exact h.setDrain hx trivial nofun rfl fun _ _ _ _ => trivial
        · rename_i hne
          refine h.setDrain hx hsound (fun hof => .inl hof) rfl fun n hn _ hat heq => ?_
          obtain rfl := hsound.1 heq
          obtain rfl := hat rfl
          have hread : s'.pending w.watched.room.store (Int64.ofNat n) = .ok ((w.activations s').drop n) :=
            pending_eq h.sequenced hin h.activations hn
          obtain rfl := Except.ok.inj (hds.symm.trans hread)
          exact ⟨rfl, hne, List.prefix_rfl⟩
      · cases hstep
        exact h.setDrain hx trivial nofun rfl fun _ _ _ _ => trivial
    · cases hstep
  | write k =>
    simp only [Subscribing.step] at hstep
    split at hstep
    · rename_i s' start ds hx
      cases hstep
      have hsound := h.drains _ (List.mem_of_getElem? hx)
      by_cases heq : s'.id = s.id
      · obtain rfl := hsound.1 heq
        obtain ⟨hsent, hserving⟩ := h.write hx
        rw [hsent, if_pos rfl]
        exact hserving
      · refine Serving.stream (w := w.setDrain k _) ?_ fun x hmem => ?_
        · split
          · exact h.setDrain hx hsound (fun hof => absurd hof heq) (if_neg heq)
              fun _ _ _ _ hid => absurd hid heq
          · exact h.setDrain hx trivial nofun rfl fun _ _ _ _ => trivial
        · obtain ⟨d, -, rfl⟩ := List.mem_map.1 hmem
          exact heq
    · cases hstep
  | commit k =>
    simp only [Subscribing.step] at hstep
    split at hstep
    · rename_i s' start ds hx
      by_cases heq : s'.id = s.id
      · obtain rfl := (h.drains _ (List.mem_of_getElem? hx)).1 heq
        obtain ⟨hcommit, hserving⟩ := h.commit_own schemas hview hx
        rw [hcommit] at hstep
        cases hstep
        exact hserving
      · have hidle : Serving r s (w.setDrain k .idle) :=
          h.setDrain hx trivial nofun (if_neg heq).symm fun _ _ _ _ => trivial
        split at hstep
        · rename_i store outcome hcommit
          cases hstep
          rcases commitPatchChecked_ok hcommit with ⟨-, rfl⟩ | ⟨-, -, rfl⟩
          · exact hidle
          · exact h.commit_other hview hx heq
        · cases hstep
          exact hidle
    · cases hstep
  | disconnect k =>
    cases hstep
    cases hx : w.drains[k]? with
    | none =>
      have hsame : w.drains.set k .idle = w.drains :=
        List.set_eq_of_length_le (List.getElem?_eq_none_iff.1 hx)
      rw [Subscribing.setDrain, hsame]
      exact h
    | some x => exact h.setDrain hx trivial nofun (hok x hx).symm fun _ _ _ _ => trivial

/-- What drains are in the middle of sending follows the cursor. -/
theorem Serving.sending (h : Serving r s w) {n : Nat}
    (hdrains : ∀ x ∈ w.drains, x.At s n (w.activations s)) :
    w.drains.flatMap (Drain.sending s) <+: (w.activations s).drop n := by
  by_cases hnone : ∀ x ∈ w.drains, x.sending s = []
  · rw [List.flatMap_eq_nil_iff.2 hnone]
    exact List.nil_prefix
  · push Not at hnone
    obtain ⟨x, hmem, hx⟩ := hnone
    obtain ⟨k, hk⟩ := List.getElem?_of_mem hmem
    have hof : x.Of s := not_not.1 fun hof => hx (sending_of_not_of hof)
    rw [h.flatMap_alone hk hof]
    cases x with
    | written s' start ds =>
      have hid : s'.id = s.id := hof
      rw [Drain.sending, if_pos hid]
      exact (hdrains _ hmem hid).2.2
    | _ => exact absurd rfl hx

theorem Serving.inOrder (hin : r.inbox s.watch.inbox = true) (h : Serving r s w) : w.InOrder s := by
  obtain ⟨n, hn, hcursor, hdrains, hstreamed⟩ := h.cursor
  refine ⟨n, hn, hcursor, ?_, pending_eq h.sequenced hin h.activations hn⟩
  obtain ⟨more, hmore⟩ := h.sending hdrains
  rw [hstreamed, List.take_add, ← hmore, List.take_left]

/-- A store before anybody has done anything, for so many appenders and drains. -/
def Subscribing.start (store : TraceStore) (n m : Nat) : Subscribing := ⟨.start store n, .replicate m .idle, []⟩

/-- **What a player's one subscription streams is what its watch's view says, in order,
none of it lost and none twice**, wherever its drains take turns, are broken off at the
ends of batches, and nobody else writes what is the subscription's. -/
theorem subscription_in_order (hview : s.watch.Settled) (hin : r.inbox s.watch.inbox = true)
    {store : TraceStore} (hroles : ∀ rel, r.counter rel = true ∨ r.inbox rel = true → ∀ t, store.weight rel t = 0)
    (hwatch : ∀ t, s.watch.Own s.watch.cursorRel t → store.weight s.watch.cursorRel t = 0)
    (hdelivery : ∀ t, s.Own s.delivery t → store.weight s.delivery t = 0) {n m : Nat}
    (hrun : Run (Subscribing.step schemas) (Subscribing.KeepsSubscription r s) (.start store n m) w) :
    w.InOrder s ∧ EndToEnd s.watch w.watched := by
  obtain ⟨hfed, hsound⟩ := fed_start hwatch n
  have hidle : ∀ x ∈ (Subscribing.start store n m).drains, x = .idle := fun x hx => List.eq_of_mem_replicate hx
  have hnone : (Subscribing.start store n m).drains.flatMap (Drain.sending s) = [] :=
    List.flatMap_eq_nil_iff.2 fun x hx => by rw [hidle x hx]; rfl
  have hserving : Serving r s w := by
    refine hrun.invariant (I := Serving r s) ⟨hfed, hsound, sequenced_start hroles n, rfl, fun x hx => ?_,
      fun i _ x _ hx _ hof _ => ?_, 0, Nat.zero_le _, fun t ht => ?_, fun x hx => ?_, ?_⟩
      fun v a v' hv hok hst => serving_step hview hin hv hok hst
    · rw [hidle x hx]
      trivial
    · rw [hidle x (List.mem_of_getElem? hx)] at hof
      exact hof.elim
    · rw [if_neg fun hz => hz.1 rfl]
      exact hdelivery t ht
    · rw [hidle x hx]
      trivial
    · rw [hnone]
      rfl
  exact ⟨hserving.inOrder hin, hserving.fed.endToEnd⟩

end Steps

/-! ## Two subscriptions of one player, and two sockets of one subscription -/

/-- A player's subscription to the changes of a relation. -/
def watching (watch target : Entity) (rel : RelId) : Subscription where
  watch :=
    { view := changesOf rel, quiet := fun _ _ _ => .ok false, watch, target, inbox := 10,
      cursorRel := 11, seqs := 12, authority := ⟨0, [⟨10, none⟩, ⟨11, none⟩, ⟨12, none⟩]⟩ }
  delivery := 13

def installation (s : Subscription) : List Subscribing.Act :=
  [.append (.install 0 s.watch 0), .append (.commit 0)]

def pumped (s : Subscription) : List Subscribing.Act :=
  [.append (.cursor 0 s.watch), .append (.batch 0), .append (.draw 0), .append (.commit 0)]

def drained (s : Subscription) : List Subscribing.Act := [.through 0 s, .read 0, .write 0, .commit 0]

def committed (rel : RelId) (name : String) : List Subscribing.Act := [.append (.other [(rel, ⟨[.text name]⟩, 1)])]

theorem Subscribing.InOrder.length_le {s : Subscription} {w : Subscribing} (h : w.InOrder s) :
    (w.streamedBy s).length ≤ (w.activations s).length := by
  obtain ⟨n, -, -, hstreamed, -⟩ := h
  rw [hstreamed]
  exact List.length_take_le' _ _

/-- A player watches two relations; both change, both watches are pumped, and one of the
subscriptions is drained. -/
def twoViews : List Subscribing.Act :=
  installation (watching ⟨1⟩ ⟨9⟩ 20) ++ installation (watching ⟨2⟩ ⟨9⟩ 21) ++ committed 20 "lamp" ++ committed 21 "bell" ++
    pumped (watching ⟨2⟩ ⟨9⟩ 21) ++ pumped (watching ⟨1⟩ ⟨9⟩ 20) ++ drained (watching ⟨1⟩ ⟨9⟩ 20)

/-- Two connections drain a subscription that was never drained before. -/
def twoSockets : List Subscribing.Act :=
  installation (watching ⟨1⟩ ⟨9⟩ 20) ++ committed 20 "lamp" ++ pumped (watching ⟨1⟩ ⟨9⟩ 20) ++
    [.through 0 (watching ⟨1⟩ ⟨9⟩ 20), .through 1 (watching ⟨1⟩ ⟨9⟩ 20), .read 0, .read 1, .write 0, .write 1,
      .commit 0, .commit 1]

/-- A player's two subscriptions read one inbox, so one of them streams what the other's
watch appended; two connections that drain the first batch at once both send it, and
leave the delivery cursor a row of weight two. -/
theorem subscriptions_mixed :
    (∃ w, execute (Subscribing.step noSchemas) (.start TraceStore.empty 1 2) twoViews = some w ∧
        (w.activations (watching ⟨1⟩ ⟨9⟩ 20)).map Delivered.row = [⟨[.text "lamp"]⟩] ∧
        (w.streamedBy (watching ⟨1⟩ ⟨9⟩ 20)).map Delivered.row = [⟨[.text "bell"]⟩, ⟨[.text "lamp"]⟩] ∧
        ¬ w.InOrder (watching ⟨1⟩ ⟨9⟩ 20)) ∧
      ∃ w, execute (Subscribing.step noSchemas) (.start TraceStore.empty 1 2) twoSockets = some w ∧
        (w.streamedBy (watching ⟨1⟩ ⟨9⟩ 20)).map Delivered.row = [⟨[.text "lamp"]⟩, ⟨[.text "lamp"]⟩] ∧
        w.store.weight 13 ((watching ⟨1⟩ ⟨9⟩ 20).deliveryTuple 1) = 2 ∧ ¬ w.InOrder (watching ⟨1⟩ ⟨9⟩ 20) := by
  have hviews : (execute (Subscribing.step noSchemas) (.start TraceStore.empty 1 2) twoViews).isSome = true := by
    decide +kernel
  have hsockets : (execute (Subscribing.step noSchemas) (.start TraceStore.empty 1 2) twoSockets).isSome
      = true := by decide +kernel
  exact ⟨⟨_, execute_eq_after hviews, by decide +kernel, by decide +kernel,
      fun h => absurd h.length_le (by decide +kernel)⟩,
    _, execute_eq_after hsockets, by decide +kernel, by decide +kernel,
      fun h => absurd h.length_le (by decide +kernel)⟩

/-! ## A player's one subscription, beside another player's -/

namespace Subscribing

instance (s : Subscription) (updates : List (RelId × Tuple × Diff)) : Decidable (s.Spares updates) :=
  inferInstanceAs (Decidable (∀ u ∈ updates, ¬ (u.1 = s.delivery ∧ u.2.1.cells[0]? = some (.ent s.watch.watch))))

instance (s : Subscription) (m : Message) : Decidable (∀ g ∈ m.given, g.box ≠ s.box) :=
  decidable_of_iff (∀ g ∈ m.given.toList, g.box ≠ s.box) (by simp)

instance (s : Subscription) (w : Mailroom) : (a : Mailroom.Act) → Decidable (LeavesAlone s w a)
  | .commit k => show Decidable (match w.appenders[k]? with
      | some (.drafted d) => d.append.inbox ≠ s.delivery ∧ d.alloc.rel ≠ s.delivery ∧
          s.Spares d.append.base.updates ∧
            ((d.append.inbox, d.append.target) = s.box → (s.watch.batchOf d.append).isSome = true)
      | some (.seeding x) => x.alloc.rel ≠ s.delivery ∧ s.Spares x.base.updates
      | _ => True) from match w.appenders[k]? with
        | some (.drafted d) => (inferInstance : Decidable (d.append.inbox ≠ s.delivery ∧
            d.alloc.rel ≠ s.delivery ∧ s.Spares d.append.base.updates ∧
              ((d.append.inbox, d.append.target) = s.box → (s.watch.batchOf d.append).isSome = true)))
        | some (.seeding x) => (inferInstance : Decidable (x.alloc.rel ≠ s.delivery ∧ s.Spares x.base.updates))
        | some .idle | some (.positioned ..) | some (.ready _) | none => .isTrue trivial
  | .enqueue inbox process _ _ => (inferInstance : Decidable (inbox ≠ s.delivery ∧ (inbox, process) ≠ s.box))
  | .deliver m seen sender seq => (inferInstance : Decidable (s.Spares (m.arrival seen sender seq) ∧
      ∀ g ∈ m.given, g.box ≠ s.box))
  | .other updates => (inferInstance : Decidable (s.Spares updates))
  | .enqueueSeq .. | .fire .. | .cursor .. | .batch _ | .draw _ | .seedSeq .. | .install .. | .crash _ =>
      .isTrue trivial

instance (s : Subscription) : DecidablePred (Drain.Of s)
  | .idle => .isFalse id
  | .through s' _ | .pending s' _ _ | .written s' _ _ => inferInstanceAs (Decidable (s'.id = s.id))

/-- The condition but for the subscription's identity, as a check. -/
def checkSubscription (r : Roles) (s : Subscription) (w : Subscribing) : Act → Bool
  | .append a => checkWatch s.watch w.watched.room a && decide (w.watched.room.KeepsSequence r a) &&
      decide (LeavesAlone s w.watched.room a)
  | .through _ s' => decide ((s'.id = s.id → ∀ x ∈ w.drains, ¬ x.Of s) ∧ r.counter s'.delivery = false ∧
      r.inbox s'.delivery = false ∧ s'.delivery ≠ s.watch.cursorRel)
  | .disconnect k => (w.drains[k]?).all fun x => decide (x.sending s = [])
  | _ => true

/-- What an action says it is about the subscription, is. -/
def Identifies (s : Subscription) : Act → Prop
  | .append (.cursor _ watch) => watch.cursorRel = s.watch.cursorRel → watch.watch = s.watch.watch → watch = s.watch
  | .through _ s' => s'.id = s.id → s' = s
  | _ => True

theorem keepsSubscription_of_check {r : Roles} {s : Subscription} {w : Subscribing} {a : Act}
    (hid : Identifies s a) (h : checkSubscription r s w a = true) : w.KeepsSubscription r s a := by
  cases a with
  | append a =>
    simp only [checkSubscription, Bool.and_eq_true, decide_eq_true_eq] at h
    refine ⟨keepsWatch_of_check (fun k watch ha => ?_) h.1.1, h.1.2, h.2⟩
    subst ha
    exact hid
  | through k s' =>
    obtain ⟨halone, hroles⟩ := of_decide_eq_true h
    exact ⟨fun heq => ⟨hid heq, halone heq⟩, hroles⟩
  | disconnect k =>
    intro x hx
    have hx' : w.drains[k]? = some x := hx
    simpa [checkSubscription, hx'] using h
  | _ => trivial

end Subscribing

/-- Two players watch a relation; it changes twice, one of them is drained in between,
breaks off and comes back. -/
def twoPlayers : List Subscribing.Act :=
  installation (watching ⟨1⟩ ⟨9⟩ 20) ++ installation (watching ⟨2⟩ ⟨8⟩ 20) ++ committed 20 "lamp" ++ pumped (watching ⟨2⟩ ⟨8⟩ 20) ++
    pumped (watching ⟨1⟩ ⟨9⟩ 20) ++ drained (watching ⟨1⟩ ⟨9⟩ 20) ++ committed 20 "bell" ++ pumped (watching ⟨1⟩ ⟨9⟩ 20) ++
    [.through 0 (watching ⟨1⟩ ⟨9⟩ 20), .disconnect 0] ++ drained (watching ⟨2⟩ ⟨8⟩ 20) ++ drained (watching ⟨1⟩ ⟨9⟩ 20)

theorem twoPlayers_identifies : ∀ a ∈ twoPlayers, Subscribing.Identifies (watching ⟨1⟩ ⟨9⟩ 20) a := by
  intro a ha
  simp only [twoPlayers, installation, pumped, drained, committed, List.mem_append, List.mem_cons,
    List.not_mem_nil, or_false] at ha
  casesm* _ ∨ _ <;> subst a <;> simp [Subscribing.Identifies, watching, Subscription.id]

theorem changesOf_settled (watch target : Entity) (rel : RelId) : (watching watch target rel).watch.Settled := by
  intro store updates start upTo hle
  show changesOf rel (store.commit updates) start upTo = changesOf rel store start upTo
  unfold changesOf TraceStore.scanUpdates
  rw [TraceStore.updatesBetween_commit_of_le hle]
  rfl

theorem subscription_in_order_sample : ∃ w,
    Run (Subscribing.step noSchemas) (Subscribing.KeepsSubscription sampleRoles (watching ⟨1⟩ ⟨9⟩ 20))
        (.start TraceStore.empty 1 1) w ∧
      (w.streamedBy (watching ⟨1⟩ ⟨9⟩ 20)).map Delivered.row = [⟨[.text "lamp"]⟩, ⟨[.text "bell"]⟩] ∧
      w.InOrder (watching ⟨1⟩ ⟨9⟩ 20) ∧ EndToEnd (watching ⟨1⟩ ⟨9⟩ 20).watch w.watched := by
  have hex : (executeChecked (Subscribing.step noSchemas)
      (Subscribing.checkSubscription sampleRoles (watching ⟨1⟩ ⟨9⟩ 20)) (.start TraceStore.empty 1 1)
      twoPlayers).isSome = true := by decide +kernel
  have hrun : Run (Subscribing.step noSchemas) (Subscribing.KeepsSubscription sampleRoles (watching ⟨1⟩ ⟨9⟩ 20))
      (.start TraceStore.empty 1 1) _ := Run.afterCheckedAll
    (fun a ha w hw => Subscribing.keepsSubscription_of_check (twoPlayers_identifies a ha) hw) hex
  exact ⟨_, hrun, by decide +kernel, subscription_in_order (changesOf_settled _ _ _) rfl (fun _ _ _ => rfl)
    (fun _ _ => rfl) (fun _ _ => rfl) hrun⟩

end Grmpl

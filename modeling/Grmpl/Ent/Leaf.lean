import Grmpl.Ent.Measure
import Grmpl.Lib.Bisect

/-!
# Leaves of items: rows, runs and holes

A leaf of a tree is a list of *items*: one row, a *run* of rows stepped along a
stride with one value, or a *hole* of keys reserved without rows. The functions
here work on a leaf's items in their stored frame with an offset carrying them
to the caller's; writes work on items already in the caller's frame.
-/

open Bisect

namespace Grmpl

/-- Values a run's rows may share: rows form a run only if their values are the
same. -/
class RunValue (V : Type) where
  same : V → V → Bool
  eq_of_same : ∀ {a b}, same a b = true → a = b

instance (priority := low) runValueOfEq {V : Type} [DecidableEq V] : RunValue V where
  same a b := a = b
  eq_of_same h := by simpa using h

/-- The shortest run worth an item. -/
def minRun : Nat := 3

/-- `n` keys, the `i`-th being `first` stepped `i` times by `stride`. -/
structure Span (K : Type) where
  first : K
  stride : K
  n : Nat
deriving DecidableEq

/-- One item of a leaf. -/
inductive Item (K V : Type) where
  | one (k : K) (v : V)
  | run (s : Span K) (v : V)
  | hole (s : Span K)
deriving DecidableEq

variable {K V M : Type} [Displace K]

namespace Span

/-- Row `i`, in the span's frame. -/
def row (s : Span K) (i : Nat) : K := if i = 0 then s.first else step s.first s.stride i

def last (s : Span K) : K := s.row (s.n - 1)

/-- Rows `[lo, hi)` of the span. -/
def slice (s : Span K) (lo hi : Nat) : Span K := ⟨s.row lo, s.stride, hi - lo⟩

def displaced (s : Span K) (d : Dsp) : Span K := ⟨displace s.first d, s.stride, s.n⟩

/-- How many rows, moved up by `off`, lie below `key`. -/
def below (s : Span K) (off : Dsp) (key : K) : Nat :=
  point s.n fun i => cmpDisplaced (s.row i) off key = .lt

/-- How many rows, moved up by `off`, lie at or below `key`. -/
def atOrBelow (s : Span K) (off : Dsp) (key : K) : Nat :=
  let i := s.below off key
  if i < s.n ∧ cmpDisplaced (s.row i) off key = .eq then i + 1 else i

/-- The index of `key` among the rows moved up by `off`. -/
def find (s : Span K) (off : Dsp) (key : K) : Option Nat :=
  let i := s.below off key
  if i < s.n ∧ cmpDisplaced (s.row i) off key = .eq then some i else none

/-- The rows in `[lo, hi)`, as an index range. -/
def within (s : Span K) (off : Dsp) (lo hi : K) : Nat × Nat :=
  let a := s.below off lo
  (a, max (s.below off hi) a)

end Span

namespace Item

/-- The item's least key, rows and holes alike. -/
def loKey : Item K V → K
  | one k _ => k
  | run s _ => s.first
  | hole s => s.first

/-- The item's greatest key. -/
def hiKey : Item K V → K
  | one k _ => k
  | run s _ => s.last
  | hole s => s.last

/-- The rows it holds. -/
def rows : Item K V → Nat
  | one _ _ => 1
  | run s _ => s.n
  | hole _ => 0

/-- The keys it reserves without rows. -/
def reserved : Item K V → Nat
  | hole s => s.n
  | _ => 0

def asOne : Item K V → Option (K × V)
  | one k v => some (k, v)
  | _ => none

/-- The same item with every key moved. -/
def displaced (it : Item K V) (d : Dsp) : Item K V :=
  if d = 0 then it
  else match it with
    | one k v => one (displace k d) v
    | run s v => run (s.displaced d) v
    | hole s => hole (s.displaced d)

/-- The item's measure, in its own frame. -/
def measure (M : Type) [Measure K V M] : Item K V → M
  | one k v => Measure.entry k v
  | run s v => Measure.run s.first s.stride s.n v
  | hole s => Measure.hole V s.first s.stride s.n

/-- Every row, moved up by `off`. -/
def eachRow (it : Item K V) (off : Dsp) : List (K × V) :=
  match it with
  | one k v => [(displace k off, v)]
  | run s v => (List.range s.n).map fun i => (displace (s.row i) off, v)
  | hole _ => []

end Item

namespace Leaf

/-- Measure, rows and reserved keys of a list of items, in their frame. -/
def summary (M : Type) [Measure K V M] (items : List (Item K V)) : M × Nat × Nat :=
  (items.foldl (fun m it => Measure.combine K V m (it.measure M)) (Measure.empty K V),
    (items.map Item.rows).sum, (items.map Item.reserved).sum)

/-! ## Reads -/

/-- The index of the item that could hold `key`: the last whose least key, moved
up by `off`, is at or below it. -/
def holder (items : List (Item K V)) (off : Dsp) (key : K) : Option Nat :=
  match partitionPoint items fun it => cmpDisplaced it.loKey off key ≠ .gt with
  | 0 => none
  | p + 1 => some p

/-- The value at `key`. -/
def get (items : List (Item K V)) (off : Dsp) (key : K) : Option V :=
  match (holder items off key).bind (items[·]?) with
  | some (.one k v) => if cmpDisplaced k off key = .eq then some v else none
  | some (.run s v) => (s.find off key).map fun _ => v
  | some (.hole _) | none => none

/-- `k`, at offset `off`, lies in `[lo, hi)`. -/
def inSpan (k : K) (off : Dsp) (lo hi : K) : Bool :=
  cmpDisplaced k off lo ≠ .lt && cmpDisplaced k off hi = .lt

/-- How many rows lie in `[lo, hi)`. -/
def countIn (items : List (Item K V)) (off : Dsp) (lo hi : K) : Nat :=
  (items.map fun it => match it with
    | .one k _ => if inSpan k off lo hi then 1 else 0
    | .run s _ => (s.within off lo hi).2 - (s.within off lo hi).1
    | .hole _ => 0).sum

/-- The measure of the rows in `[lo, hi)` folded into `acc`, in the query frame. -/
def foldIn [Measure K V M] (items : List (Item K V)) (off : Dsp) (lo hi : K) (acc : M) : M :=
  items.foldl (fun acc it => match it with
    | .one k v =>
        if inSpan k off lo hi then Measure.combine K V acc (Measure.entry (displace k off) v)
        else acc
    | .run s v =>
        let (a, b) := s.within off lo hi
        if a < b then
          Measure.combine K V acc (Measure.run (displace (s.row a) off) s.stride (b - a) v)
        else acc
    | .hole _ => acc) acc

/-- Whether any key, a row's or a hole's, lies in `[lo, hi)`. -/
def anyIn (items : List (Item K V)) (off : Dsp) (lo hi : K) : Bool :=
  items.any fun it => match it with
    | .one k _ => inSpan k off lo hi
    | .run s _ | .hole s => (s.within off lo hi).1 < (s.within off lo hi).2

/-- The rows in `[lo, hi)`, keys in the query frame. -/
def rangeIn (items : List (Item K V)) (off : Dsp) (lo hi : K) : List (K × V) :=
  items.flatMap fun it => match it with
    | .one k v => if inSpan k off lo hi then [(displace k off, v)] else []
    | .run s v =>
        let (a, b) := s.within off lo hi
        (List.range' a (b - a)).map fun i => (displace (s.row i) off, v)
    | .hole _ => []

/-- The greatest row at or below `key` among the items up to index `i`, looking
downwards. -/
def lastLeFrom (items : List (Item K V)) (off : Dsp) (key : K) : Nat → Option (K × V)
  | 0 => none
  | i + 1 =>
      match items[i]? with
      | some (.one k v) => some (displace k off, v)
      | some (.run s v) =>
          match s.atOrBelow off key with
          | j + 1 => some (displace (s.row j) off, v)
          | 0 => lastLeFrom items off key i
      | some (.hole _) | none => lastLeFrom items off key i

/-- The greatest row at or below `key`. -/
def lastLe (items : List (Item K V)) (off : Dsp) (key : K) : Option (K × V) :=
  (holder items off key).bind fun i => lastLeFrom items off key (i + 1)

/-- The least or the greatest key, rows and holes alike, in the query frame. -/
def extreme (items : List (Item K V)) (off : Dsp) (greatest : Bool) : Option K :=
  if greatest then items.getLast?.map fun it => displace it.hiKey off
  else items.head?.map fun it => displace it.loKey off

/-! ## Writes -/

/-- A span of keys as items: a run or hole if long enough, else rows. -/
def spanItems (s : Span K) (val : Option V) : List (Item K V) :=
  match val with
  | none => if 0 < s.n then [.hole s] else []
  | some v =>
      if minRun ≤ s.n then [.run s v] else (List.range s.n).map fun i => .one (s.row i) v

/-- The item with the key at index `j` cut out: what stays below it and above it. -/
def cutOut (item : Item K V) (j : Nat) : List (Item K V) × List (Item K V) :=
  match item with
  | .one _ _ => ([], [])
  | .run s v => (spanItems (s.slice 0 j) (some v), spanItems (s.slice (j + 1) s.n) (some v))
  | .hole s => (spanItems (s.slice 0 j) none, spanItems (s.slice (j + 1) s.n) none)

/-- The item split at a key: what lies below and what lies at or above. -/
def splitItem (item : Item K V) (key : K) : List (Item K V) × List (Item K V) :=
  match item with
  | .one k _ => if k < key then ([item], []) else ([], [item])
  | .run s v =>
      let j := s.below 0 key
      (spanItems (s.slice 0 j) (some v), spanItems (s.slice j s.n) (some v))
  | .hole s =>
      let j := s.below 0 key
      (spanItems (s.slice 0 j) none, spanItems (s.slice j s.n) none)

/-- Two adjacent items as one, if they continue one another. -/
def joined [RunValue V] (a b : Item K V) : Option (Item K V) :=
  match a, b with
  | .run s v, .one k w =>
      if RunValue.same v w ∧ s.row s.n = k then some (.run ⟨s.first, s.stride, s.n + 1⟩ v) else none
  | .one k w, .run s v =>
      if RunValue.same v w ∧ step s.first s.stride (-1) = k then
        some (.run ⟨k, s.stride, s.n + 1⟩ v)
      else none
  | .run s v, .run t w =>
      if RunValue.same v w ∧ s.stride = t.stride ∧ s.row s.n = t.first then
        some (.run ⟨s.first, s.stride, s.n + t.n⟩ v)
      else none
  | .hole s, .hole t =>
      if s.stride = t.stride ∧ s.row s.n = t.first then
        some (.hole ⟨s.first, s.stride, s.n + t.n⟩)
      else none
  | _, _ => none

/-- Three rows in one step with one value, as a run. -/
def triple [RunValue V] (a b c : Item K V) : Option (Item K V) :=
  match a, b, c with
  | .one k₁ v₁, .one k₂ v₂, .one k₃ v₃ =>
      if RunValue.same v₁ v₂ ∧ RunValue.same v₂ v₃ then
        (strideTo k₁ k₂).bind fun stride =>
          if step k₂ stride 1 = k₃ then some (.run ⟨k₁, stride, 3⟩ v₁) else none
      else none
  | _, _, _ => none

def isHole : Item K V → Bool
  | .hole _ => true
  | _ => false

/-- The items with the three rows from index `i` on as a run, if they are one. -/
def tripleAt [RunValue V] (items : List (Item K V)) (i : Nat) : Option (List (Item K V)) :=
  match items[i]?, items[i + 1]?, items[i + 2]? with
  | some a, some b, some c => (triple a b c).map fun r => items.take i ++ r :: items.drop (i + 3)
  | _, _, _ => none

/-- The items with the two from index `i` on joined, if they continue one
another. Without `runs` only holes join. -/
def pairAt [RunValue V] (items : List (Item K V)) (runs : Bool) (i : Nat) :
    Option (List (Item K V)) :=
  match items[i]?, items[i + 1]? with
  | some a, some b =>
      ((joined a b).filter fun r => runs || isHole r).map fun r =>
        items.take i ++ r :: items.drop (i + 2)
  | _, _ => none

/-- The items with a triple or a pair joined at index `i`. -/
def joinAt [RunValue V] (items : List (Item K V)) (runs : Bool) (i : Nat) :
    Option (List (Item K V)) :=
  (if runs then tripleAt items i else none).or (pairAt items runs i)

/-- The joins around an index, repeated while any pair or triple there continues
one another; each shortens the list, which bounds the repetitions. -/
def joinLoop [RunValue V] (runs : Bool) : Nat → List (Item K V) → Nat → List (Item K V)
  | 0, items, _ => items
  | fuel + 1, items, at' =>
      let lo := at' - 2
      let hi := min (at' + 2) (items.length - 1)
      match (List.range' lo (hi + 1 - lo)).findSome? fun i =>
          (joinAt items runs i).map fun r => (r, i) with
      | some (items', i) => joinLoop runs fuel items' i
      | none => items

/-- Join the items around an index. -/
def joinAround [RunValue V] (items : List (Item K V)) (at' : Nat) (runs : Bool) :
    List (Item K V) :=
  joinLoop runs items.length items (min at' (items.length - 1))

/-- Fold from index `i` on, one index after another. -/
def compressFrom [RunValue V] (runs : Bool) : Nat → Nat → List (Item K V) → List (Item K V)
  | 0, _, items => items
  | fuel + 1, i, items =>
      if i < items.length then compressFrom runs fuel (i + 1) (joinAround items i runs) else items

/-- Fold every run the items hold: what a leaf does before it splits. -/
def compress [RunValue V] (items : List (Item K V)) (runs : Bool) : List (Item K V) :=
  compressFrom runs items.length 0 items

/-- What a write does to the item that could hold the key. -/
inductive Act where
  | front
  | replace (i : Nat)
  | same
  | cutOut (i j : Nat)
  | splitAt (i : Nat)
  | after (i : Nat)

def insertAct [RunValue V] (items : List (Item K V)) (key : K) (val : V) : Act :=
  match holder items 0 key with
  | none => .front
  | some i =>
      match items[i]? with
      | some (.one k _) => if k = key then .replace i else .after i
      | some (.run s v) =>
          match s.find 0 key with
          | some j => if RunValue.same v val then .same else .cutOut i j
          | none => if key < s.last then .splitAt i else .after i
      | some (.hole s) =>
          match s.find 0 key with
          | some j => .cutOut i j
          | none => if key < s.last then .splitAt i else .after i
      | none => .front

/-- The items with item `i` replaced by others, and where the `n`-th of these is. -/
def splice (items : List (Item K V)) (i : Nat) (new : List (Item K V)) : List (Item K V) :=
  items.take i ++ new ++ items.drop (i + 1)

/-- `val` written at `key`: a row replaced, a run or hole split around it, or a
new row; then joined with the runs around it. -/
def insert [RunValue V] (items : List (Item K V)) (key : K) (val : V) (runs : Bool) :
    List (Item K V) :=
  match insertAct items key val with
  | .same => items
  | .front => joinAround (.one key val :: items) 0 runs
  | .replace i => joinAround (splice items i [.one key val]) i runs
  | .after i => joinAround (items.take (i + 1) ++ .one key val :: items.drop (i + 1)) (i + 1) runs
  | .cutOut i j =>
      let (lo, hi) := (items[i]?.map (Leaf.cutOut · j)).getD ([], [])
      joinAround (splice items i (lo ++ .one key val :: hi)) (i + lo.length) runs
  | .splitAt i =>
      let (lo, hi) := (items[i]?.map (splitItem · key)).getD ([], [])
      joinAround (splice items i (lo ++ .one key val :: hi)) (i + lo.length) runs

/-- Where the row at `key` is: its item, and its index there. -/
def findRow (items : List (Item K V)) (off : Dsp) (key : K) : Option (Nat × Nat) :=
  (holder items off key).bind fun i =>
    match items[i]? with
    | some (.one k _) => if cmpDisplaced k off key = .eq then some (i, 0) else none
    | some (.run s _) => (s.find off key).map fun j => (i, j)
    | some (.hole _) | none => none

/-- The row `findRow` located, removed. -/
def removeAt (items : List (Item K V)) (i j : Nat) : List (Item K V) :=
  match items[i]? with
  | some (.one _ _) => splice items i []
  | some item => splice items i ((cutOut item j).1 ++ (cutOut item j).2)
  | none => items

/-- The items below `key` and those at or above it. -/
def splitAt (items : List (Item K V)) (key : K) : List (Item K V) × List (Item K V) :=
  let p := partitionPoint items fun it => it.loKey < key
  let lo := items.take p
  let hi := items.drop p
  match lo.getLast? with
  | some last =>
      if key ≤ last.hiKey then
        let (a, b) := splitItem last key
        (lo.dropLast ++ a, b ++ hi)
      else (lo, hi)
  | none => (lo, hi)

end Leaf

end Grmpl

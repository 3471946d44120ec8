import Grmpl.Core.Wire
import Grmpl.Lang.BehaviorIr

/-!
# The wire form of a stored behavior

A version byte, the guard, the names of the message's columns and the operations, each
behind a tag, lists and strings behind a 32-bit count. Guards, operations and
expressions nest no deeper than a fixed number of levels, counted together, which a
reader has spent one of for each it is inside.

* `encodeBehavior`, `decodeBehavior`.
-/

open Bytes

namespace Grmpl

namespace Wire

/-- How deep guards, operations and expressions may nest. -/
def maxIrDepth : Nat := 256

/-! ## Writing -/

def putStr (s : String) : List UInt8 := counted s.toByteArray.data.toList

def putStrings (ss : List String) : List UInt8 := toBE 4 ss.length ++ ss.flatMap putStr

def putRow : RowExpr → List UInt8
  | .col i => 1 :: toBE 4 i
  | .lit v => 2 :: encodeValue v

mutual

def putPred : PredExpr → List UInt8
  | .eq a b => 1 :: (putRow a ++ putRow b)
  | .and ps => 2 :: (toBE 4 ps.length ++ putPreds ps)

def putPreds : List PredExpr → List UInt8
  | [] => []
  | p :: ps => putPred p ++ putPreds ps

end

mutual

def putValueExpr : ValueExpr → List UInt8
  | .local_ name => 1 :: putStr name
  | .literal v => 2 :: encodeValue v
  | .intrinsic name arguments => 3 :: (putStr name ++ (toBE 4 arguments.length ++
      putValueExprs arguments))

def putValueExprs : List ValueExpr → List UInt8
  | [] => []
  | e :: es => putValueExpr e ++ putValueExprs es

end

def compareTag : CompareOp → UInt8
  | .eq => 0
  | .ne => 1
  | .lt => 2
  | .le => 3
  | .gt => 4
  | .ge => 5

def putBool : BoolExpr → List UInt8
  | .value v => 1 :: putValueExpr v
  | .compare op left right => 2 :: compareTag op :: (putValueExpr left ++ putValueExpr right)
  | .not b => 3 :: putBool b
  | .and left right => 4 :: (putBool left ++ putBool right)
  | .or left right => 5 :: (putBool left ++ putBool right)

def putExpr : ExprIr → List UInt8
  | .value v => 1 :: putValueExpr v
  | .bool b => 2 :: putBool b

def putExprs (es : List ExprIr) : List UInt8 := toBE 4 es.length ++ es.flatMap putExpr

def putFindArg : FindArg → List UInt8
  | .match_ e => 1 :: putExpr e
  | .bind name => 2 :: putStr name
  | .matchBind e name => 3 :: (putExpr e ++ putStr name)

def matchTag : MatchOp → UInt8
  | .exact_ => 0
  | .word => 1

/-- An operation on a relation: its tag, the relation, the arguments. -/
def putRelationOp (tag : UInt8) (relation : String) (arguments : List ExprIr) : List UInt8 :=
  tag :: (putStr relation ++ putExprs arguments)

mutual

def putOp : BehaviorOp → List UInt8
  | .resolve view arguments column op rhs destinations => 1 :: (putStr view ++ putExprs arguments ++
      putStr column ++ [matchTag op] ++ putExpr rhs ++ putStrings destinations)
  | .find relation arguments => 2 :: (putStr relation ++ (toBE 4 arguments.length ++
      arguments.flatMap putFindArg))
  | .letOp name value => 3 :: (putStr name ++ putExpr value)
  | .ifOp condition thenOps elseOps => 4 :: (putBool condition ++
      (toBE 4 thenOps.length ++ putOps thenOps) ++ (toBE 4 elseOps.length ++ putOps elseOps))
  | .expect relation arguments => putRelationOp 5 relation arguments
  | .assert relation arguments => putRelationOp 6 relation arguments
  | .retract relation arguments => putRelationOp 7 relation arguments
  | .emit relation arguments => putRelationOp 8 relation arguments
  | .invokeCapability capability arguments destinations => 9 :: (putStr capability ++
      putExprs arguments ++ putStrings destinations)

def putOps : List BehaviorOp → List UInt8
  | [] => []
  | op :: ops => putOp op ++ putOps ops

end

def encodeBehavior (b : StoredBehavior) : List UInt8 :=
  formatVersion :: (putPred b.guard ++ putStrings b.parameters ++
    (toBE 4 b.body.length ++ putOps b.body))

/-! ## Reading -/

/-- So many items, one after the other. -/
def getTimes {α : Type} (get : Nat → Result (α × Nat)) : Nat → Nat → Result (List α × Nat)
  | 0, pos => .ok ([], pos)
  | n + 1, pos => do
      let (x, pos) ← get pos
      let (xs, pos) ← getTimes get n pos
      return (x :: xs, pos)

variable (bytes : List UInt8)

/-- A count, then that many items. -/
def getList {α : Type} (get : Nat → Result (α × Nat)) (pos : Nat) : Result (List α × Nat) := do
  let (n, pos) ← readU32 bytes pos
  getTimes get n pos

def getTag (pos : Nat) : Result (UInt8 × Nat) :=
  match bytes[pos]? with
  | some tag => .ok (tag, pos + 1)
  | none => .error (.codec "unexpected end (ir tag)")

def getStr (pos : Nat) : Result (String × Nat) := do
  let (bs, pos) ← readCounted bytes pos "str"
  match String.fromUTF8? ⟨bs.toArray⟩ with
  | some s => return (s, pos)
  | none => .error (.codec "invalid utf-8 sequence")

def getStrings (pos : Nat) : Result (List String × Nat) := getList bytes (getStr bytes) pos

def getRow (pos : Nat) : Result (RowExpr × Nat) := do
  let (tag, pos) ← getTag bytes pos
  if tag = 1 then
    let (i, pos) ← readU32 bytes pos
    return (.col i, pos)
  else if tag = 2 then
    let (v, pos) ← decodeValue bytes pos
    return (.lit v, pos)
  else .error (.codec ("unknown rowexpr tag " ++ toString tag))

/-- No level is left to read at. -/
def irTooDeep {α : Type} : Result α :=
  .error (.codec ("behavior nests deeper than " ++ toString maxIrDepth ++ " levels"))

def getPred : Nat → Nat → Result (PredExpr × Nat)
  | 0, _ => irTooDeep
  | levels + 1, pos => do
      let (tag, pos) ← getTag bytes pos
      if tag = 1 then
        let (a, pos) ← getRow bytes pos
        let (b, pos) ← getRow bytes pos
        return (.eq a b, pos)
      else if tag = 2 then
        let (ps, pos) ← getList bytes (getPred levels) pos
        return (.and ps, pos)
      else .error (.codec ("unknown predexpr tag " ++ toString tag))

def getValueExpr : Nat → Nat → Result (ValueExpr × Nat)
  | 0, _ => irTooDeep
  | levels + 1, pos => do
      let (tag, pos) ← getTag bytes pos
      if tag = 1 then
        let (name, pos) ← getStr bytes pos
        return (.local_ name, pos)
      else if tag = 2 then
        let (v, pos) ← decodeValue bytes pos
        return (.literal v, pos)
      else if tag = 3 then
        let (name, pos) ← getStr bytes pos
        let (arguments, pos) ← getList bytes (getValueExpr levels) pos
        return (.intrinsic name arguments, pos)
      else .error (.codec ("unknown value expression tag " ++ toString tag))

def getCompare (tag : UInt8) : Result CompareOp :=
  match tag with
  | 0 => .ok .eq
  | 1 => .ok .ne
  | 2 => .ok .lt
  | 3 => .ok .le
  | 4 => .ok .gt
  | 5 => .ok .ge
  | _ => .error (.codec ("unknown compare tag " ++ toString tag))

def getBool : Nat → Nat → Result (BoolExpr × Nat)
  | 0, _ => irTooDeep
  | levels + 1, pos => do
      let (tag, pos) ← getTag bytes pos
      if tag = 1 then
        let (v, pos) ← getValueExpr bytes levels pos
        return (.value v, pos)
      else if tag = 2 then
        let (op, pos) ← getTag bytes pos
        let op ← getCompare op
        let (left, pos) ← getValueExpr bytes levels pos
        let (right, pos) ← getValueExpr bytes levels pos
        return (.compare op left right, pos)
      else if tag = 3 then
        let (b, pos) ← getBool levels pos
        return (.not b, pos)
      else if tag = 4 then
        let (left, pos) ← getBool levels pos
        let (right, pos) ← getBool levels pos
        return (.and left right, pos)
      else if tag = 5 then
        let (left, pos) ← getBool levels pos
        let (right, pos) ← getBool levels pos
        return (.or left right, pos)
      else .error (.codec ("unknown boolean expression tag " ++ toString tag))

def getExpr : Nat → Nat → Result (ExprIr × Nat)
  | 0, _ => irTooDeep
  | levels + 1, pos => do
      let (tag, pos) ← getTag bytes pos
      if tag = 1 then
        let (v, pos) ← getValueExpr bytes levels pos
        return (.value v, pos)
      else if tag = 2 then
        let (b, pos) ← getBool bytes levels pos
        return (.bool b, pos)
      else .error (.codec ("unknown expression tag " ++ toString tag))

def getExprs (levels : Nat) (pos : Nat) : Result (List ExprIr × Nat) :=
  getList bytes (getExpr bytes levels) pos

def getFindArg (levels : Nat) (pos : Nat) : Result (FindArg × Nat) := do
  let (tag, pos) ← getTag bytes pos
  if tag = 1 then
    let (e, pos) ← getExpr bytes levels pos
    return (.match_ e, pos)
  else if tag = 2 then
    let (name, pos) ← getStr bytes pos
    return (.bind name, pos)
  else if tag = 3 then
    let (e, pos) ← getExpr bytes levels pos
    let (name, pos) ← getStr bytes pos
    return (.matchBind e name, pos)
  else .error (.codec ("unknown find argument tag " ++ toString tag))

def getMatchOp (tag : UInt8) : Result MatchOp :=
  match tag with
  | 0 => .ok .exact_
  | 1 => .ok .word
  | _ => .error (.codec ("unknown match op tag " ++ toString tag))

/-- An operation on a relation. -/
def getRelationOp (make : String → List ExprIr → BehaviorOp) (levels : Nat) (pos : Nat) :
    Result (BehaviorOp × Nat) := do
  let (relation, pos) ← getStr bytes pos
  let (arguments, pos) ← getExprs bytes levels pos
  return (make relation arguments, pos)

def getOp : Nat → Nat → Result (BehaviorOp × Nat)
  | 0, _ => irTooDeep
  | levels + 1, pos => do
      let (tag, pos) ← getTag bytes pos
      match tag with
      | 1 =>
          let (view, pos) ← getStr bytes pos
          let (arguments, pos) ← getExprs bytes levels pos
          let (column, pos) ← getStr bytes pos
          let (op, pos) ← getTag bytes pos
          let op ← getMatchOp op
          let (rhs, pos) ← getExpr bytes levels pos
          let (destinations, pos) ← getStrings bytes pos
          return (.resolve view arguments column op rhs destinations, pos)
      | 2 =>
          let (relation, pos) ← getStr bytes pos
          let (arguments, pos) ← getList bytes (getFindArg bytes levels) pos
          return (.find relation arguments, pos)
      | 3 =>
          let (name, pos) ← getStr bytes pos
          let (value, pos) ← getExpr bytes levels pos
          return (.letOp name value, pos)
      | 4 =>
          let (condition, pos) ← getBool bytes levels pos
          let (thenOps, pos) ← getList bytes (getOp levels) pos
          let (elseOps, pos) ← getList bytes (getOp levels) pos
          return (.ifOp condition thenOps elseOps, pos)
      | 5 => getRelationOp bytes .expect levels pos
      | 6 => getRelationOp bytes .assert levels pos
      | 7 => getRelationOp bytes .retract levels pos
      | 8 => getRelationOp bytes .emit levels pos
      | 9 =>
          let (capability, pos) ← getStr bytes pos
          let (arguments, pos) ← getExprs bytes levels pos
          let (destinations, pos) ← getStrings bytes pos
          return (.invokeCapability capability arguments destinations, pos)
      | tag => .error (.codec ("unknown behavior op tag " ++ toString tag))

def decodeBehavior : Result StoredBehavior := do
  let pos ← readVersion bytes
  let (guard, pos) ← getPred bytes maxIrDepth pos
  let (parameters, pos) ← getStrings bytes pos
  let (body, pos) ← getList bytes (getOp bytes maxIrDepth) pos
  if pos ≠ bytes.length then .error (.codec "trailing bytes after behavior")
  else return ⟨guard, parameters, body⟩

end Wire

end Grmpl

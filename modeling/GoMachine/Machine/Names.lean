import GoMachine.Machine.Turn
import GoMachine.Value.Operator
/-!
# Nodes for names, assignments and operators

A name stands for the value of the variable that it is bound to, or for the variable itself where
something is assigned. Operands are evaluated from left to right; the value of an assignment is
evaluated before its target.
-/
namespace GoMachine.Machine

def literal (node : Address) : TurnM Unit := do
  TurnM.pushValue (← Query.child node .literal 0)

/-- What the name of a node is bound to, borrowed. -/
def resolve (node : Address) (tag : Tag) : TurnM Address := do
  let key ← Query.child node tag 0
  match ← Frame.lookup? (← TurnM.frame) key with
  | some bound => return bound
  | none => throw (.undefined (← Text.toString key))

def name (node : Address) : TurnM Unit := do
  let bound ← resolve node .name
  match ← Query.tag bound with
  | .variable => TurnM.pushValue (← Variable.value bound)
  | _ => TurnM.pushValue bound

def nameAddress (node : Address) : TurnM Unit := do
  let bound ← resolve node .nameAddress
  Variable.check bound
  TurnM.pushValue bound

def var (node : Address) : TurnM Unit := do
  let name ← Query.child node .var 0
  let type ← Query.child node .var 1
  let init ← Query.child node .var 2
  TurnM.pushShared .varI [] [name, type]
  TurnM.push init

/-- Declares a variable in the current scope. -/
def varI (node : Address) : TurnM Unit := do
  let name ← Query.child node .varI 0
  let type ← Query.child node .varI 1
  let value ← TurnM.popValue
  let var ← Variable.createOwned type value
  let frame ← TurnM.frame
  TurnM.releasing [var] (Frame.insert frame name var)

def assign (node : Address) : TurnM Unit := do
  let target ← Query.child node .assign 0
  let value ← Query.child node .assign 1
  TurnM.pushOwned (← Node.unit .assignI)
  TurnM.pushInOrder [value, target]

def assignI (_ : Address) : TurnM Unit := do
  let var ← TurnM.popValue
  let value ← TurnM.popValue
  TurnM.releasing [var] (Variable.setValueOwned var value)

def unary (node : Address) : TurnM Unit := do
  let op ← Query.field node .unary 0
  let operand ← Query.child node .unary 0
  TurnM.pushNew .unaryI [op] []
  TurnM.push operand

def unaryI (node : Address) : TurnM Unit := do
  let op ← Node.unaryOp node .unaryI
  let operand ← TurnM.popValue
  TurnM.pushValueOwned (← TurnM.releasing [operand] (op.apply operand))

/-- The right operand of a logical operator waits in a node until the left one is known. -/
def binary (node : Address) : TurnM Unit := do
  let op ← Node.binaryOp node .binary
  let left ← Query.child node .binary 0
  let right ← Query.child node .binary 1
  if op.isLogical then
    TurnM.pushShared .logicalI [op.code.toUInt64] [right]
    TurnM.push left
  else
    TurnM.pushNew .binaryI [op.code.toUInt64] []
    TurnM.pushInOrder [left, right]

def binaryI (node : Address) : TurnM Unit := do
  let op ← Node.binaryOp node .binaryI
  let right ← TurnM.popValue
  let left ← TurnM.popValue
  TurnM.pushValueOwned (← TurnM.releasing [left, right] (op.apply left right))

def logicalI (node : Address) : TurnM Unit := do
  let op ← Node.binaryOp node .logicalI
  let left ← TurnM.popValue
  match op, ← TurnM.releasing [left] (Scalar.toBool left) with
  | .and, false => TurnM.pushValueOwned (← Scalar.newBool false)
  | .or, true => TurnM.pushValueOwned (← Scalar.newBool true)
  | _, _ => TurnM.push (← Query.child node .logicalI 0)

def postfixOp (node : Address) : TurnM Unit := do
  let op ← Query.field node .postfixOp 0
  let target ← Query.child node .postfixOp 0
  TurnM.pushNew .postfixOpI [op] []
  TurnM.push target

def postfixOpI (node : Address) : TurnM Unit := do
  let op ← Node.stepOp node .postfixOpI
  let var ← TurnM.popValue
  TurnM.releasing [var] (op.apply var)

end GoMachine.Machine

import GoMachine.Machine.Turn
import GoMachine.Select
/-!
# Nodes for channel operations

The operands are evaluated first, those of a `select` in the order of its cases. An operation that
completes makes the thread runnable, one that has to wait leaves it on the channel.
-/
namespace GoMachine.Machine

def chanSend (node : Address) : TurnM Unit := do
  let operands ← Query.children node
  TurnM.pushNew .chanSendI [] []
  TurnM.pushInOrder operands

def chanSendI (_ : Address) : TurnM Unit := do
  let value ← TurnM.popValue
  let ch ← TurnM.popValue
  TurnM.releasing [value, ch] do
    let _ ← Channel.send ch value (← get).thread (← get).scheduler

def chanReceive (node : Address) : TurnM Unit := do
  let ch ← Query.child node .chanReceive 0
  TurnM.pushNew .chanReceiveI [] []
  TurnM.push ch

def chanReceiveI (_ : Address) : TurnM Unit := do
  let ch ← TurnM.popValue
  let structs ← TurnM.structs
  TurnM.releasing [ch] do
    let _ ← Channel.recv ch (← get).thread structs (← get).scheduler

/-- Schedules the operands of a case. -/
def pushOperands (clause : Address) : TurnM Unit := do
  match ← Query.tag clause with
  | .caseSend =>
    let ch ← Query.child clause .caseSend 0
    let value ← Query.child clause .caseSend 1
    TurnM.pushInOrder [ch, value]
  | .caseReceive => TurnM.push (← Query.child clause .caseReceive 0)
  | _ => return ()

def select (node : Address) : TurnM Unit := do
  let hasDefault ← Query.field node .select 0
  let clauses ← Query.children node
  TurnM.pushShared .selectI [hasDefault] clauses
  for clause in clauses.reverse do
    pushOperands clause

/-- The cases of a `select` with their operands, and the body of its default. -/
structure Clauses where
  cases : List Case := []
  /-- What was taken off the stash, the last first. -/
  operands : List Address := []
  default : Address := .nil

/-- Takes the operands of cases off the stash, and puts the cases in front of others. -/
def popClauses (found : Clauses) : List Address → TurnM Clauses
  | [] => return found
  | clause :: clauses => do
    match ← Query.tag clause with
    | .caseSend =>
      let value ← TurnM.popValue
      let ch ← TurnM.popValue
      let body ← Query.child clause .caseSend 2
      popClauses { found with
        cases := .send ch value body :: found.cases
        operands := found.operands ++ [value, ch] } clauses
    | .caseReceive =>
      let ch ← TurnM.popValue
      let body ← Query.child clause .caseReceive 1
      popClauses { found with
        cases := .receive ch body :: found.cases
        operands := found.operands ++ [ch] } clauses
    | _ =>
      let default ← Query.child clause .caseDefault 0
      popClauses { found with default } clauses

/-- Schedules a body and makes the thread runnable. -/
def continueWith (body : Address) : TurnM Unit := do
  if !body.isNil then TurnM.push body
  TurnM.enqueueCurrent

/-- A random order in which to try so many cases. -/
def drawOrder (n : Nat) : TurnM (List Nat) := modifyGet fun s =>
  let (order, random) := s.random.permutation n
  (order, { s with random })

def selectI (node : Address) : TurnM Unit := do
  let hasDefault ← Query.field node .selectI 0
  let found ← popClauses {} (← Query.children node).reverse
  let structs ← TurnM.structs
  TurnM.releasing found.operands do
    let order ← drawOrder found.cases.length
    let outcome ← Select.run found.cases order (hasDefault ≠ 0) (← get).thread structs
      (← get).scheduler
    match outcome with
    | .ready i => continueWith ((found.cases[i]?.map Case.body).getD .nil)
    | .default => continueWith found.default
    | .blocked => return ()

end GoMachine.Machine

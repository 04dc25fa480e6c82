import GoMachine.Machine.Turn
import GoMachine.Value.Cell
/-!
# Nodes for statements

Sequences, scopes, branches and loops. A loop that declares a variable runs each turn in a scope of
its own with a copy of the variable; after the body the copy is written back, and the update and
the condition see the value.
-/
namespace GoMachine.Machine

def sequence (node : Address) : TurnM Unit := do
  TurnM.pushInOrder (← Query.children node)

def block (node : Address) : TurnM Unit := do
  let body ← Query.child node .block 0
  let _ ← TurnM.pushFrame
  TurnM.pushNew .exitScopeI [] []
  TurnM.push body

def exitScopeI (_ : Address) : TurnM Unit := TurnM.popFrame

def ifElse (node : Address) : TurnM Unit := do
  let cond ← Query.child node .ifElse 0
  let body ← Query.child node .ifElse 1
  let otherwise ← Query.child node .ifElse 2
  TurnM.pushShared .ifElseI [] [body, otherwise]
  TurnM.push cond

/-- Takes a truth value off the stash. -/
def popCondition : TurnM Bool := do
  let cond ← TurnM.popValue
  TurnM.releasing [cond] (Scalar.toBool cond)

def ifElseI (node : Address) : TurnM Unit := do
  let taken ← popCondition
  let branch ← Query.child node .ifElseI (if taken then 0 else 1)
  if !branch.isNil then TurnM.push branch

/-- The nodes that read the variable of one turn, close its scope, and write the value to the
variable of the loop. -/
def copyBack (loopVar : Address) : Action (List Address) := do
  if loopVar.isNil then return [.nil, .nil, .nil, .nil]
  let read ← Node.buildShared .name [] [loopVar]
  let exit ← Node.unit .exitScopeI
  let target ← Node.buildShared .nameAddress [] [loopVar]
  let assign ← Node.unit .assignI
  return [read, exit, target, assign]

/-- Opens the scope of the loop. The node that decides on each turn is built once. -/
def forLoop (node : Address) : TurnM Unit := do
  let init ← Query.child node .forLoop 0
  let cond ← Query.child node .forLoop 1
  let update ← Query.child node .forLoop 2
  let body ← Query.child node .forLoop 3
  let loopVar ← Query.child node .forLoop 4
  let _ ← TurnM.pushFrame
  TurnM.pushNew .exitScopeI [] []
  let parts := [← HeapM.reference cond, ← HeapM.reference update, ← HeapM.reference body,
    ← Node.unit .markerI, ← HeapM.reference loopVar]
  TurnM.pushNew .forLoopI [] (parts ++ (← copyBack loopVar))
  TurnM.pushInOrder [init, cond]

/-- Opens the scope of one turn of a loop with a copy of the loop's variable. -/
def openTurn (loopVar : Address) : TurnM Unit := do
  let inner ← TurnM.pushFrame
  match ← Frame.lookup? (← Frame.parent inner) loopVar with
  | none => throw (.undefined "loop variable")
  | some outer =>
    let type ← Variable.type outer
    let value ← Variable.value outer
    let copy ← Variable.create type value
    TurnM.releasing [copy] (Frame.insert inner loopVar copy)

def forLoopI (node : Address) : TurnM Unit := do
  if !(← popCondition) then return
  let cond ← Query.child node .forLoopI 0
  let update ← Query.child node .forLoopI 1
  TurnM.push node
  TurnM.push cond
  if !update.isNil then TurnM.push update
  let loopVar ← Query.child node .forLoopI 4
  if !loopVar.isNil then
    for i in [8, 7, 6, 5] do
      TurnM.push (← Query.child node .forLoopI i)
    openTurn loopVar
  let marker ← Query.child node .forLoopI 3
  let body ← Query.child node .forLoopI 2
  TurnM.push marker
  TurnM.push body

def markerI (_ : Address) : TurnM Unit := return ()

/-- Drops nodes up to and including the first one with a tag, and closes the scopes that end on the
way. A call is not left. At most so many nodes are dropped. -/
def unwindAmong (target : Tag) (keyword : String) : Nat → TurnM Unit
  | 0 => throw (.outsideLoop keyword)
  | n + 1 => do
    let node ← Stack.pop (← TurnM.control)
    if node.isNil then throw (.outsideLoop keyword)
    let tag ← TurnM.releasing [node] (Query.tag node)
    if tag = target then return
    match tag with
    | .exitScopeI => TurnM.popFrame
    | .restoreEnvI => throw (.outsideLoop keyword)
    | _ => pure ()
    unwindAmong target keyword n

/-- Drops nodes up to and including the first one with a tag. -/
def unwindTo (target : Tag) (keyword : String) : TurnM Unit := do
  unwindAmong target keyword ((← get).heap.liveCount + 1)

def breakLoop (_ : Address) : TurnM Unit := unwindTo .forLoopI "break"

def continueLoop (_ : Address) : TurnM Unit := unwindTo .markerI "continue"

def exprStmt (node : Address) : TurnM Unit := do
  let expr ← Query.child node .exprStmt 0
  TurnM.pushNew .popI [] []
  TurnM.push expr

def popI (_ : Address) : TurnM Unit := do HeapM.free (← TurnM.popValue)

end GoMachine.Machine

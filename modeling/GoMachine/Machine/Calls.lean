import GoMachine.Machine.Natives
/-!
# Nodes for functions

A call evaluates the callee and the arguments and then enters the callee: a node that restores the
caller's scope and a `return` without a value stay below the body, so that a body that ends without
a `return` gives nil. A `return` drops what is left of the body. A goroutine is a new thread that
starts with the call, whose operands the spawning thread has evaluated.
-/
namespace GoMachine.Machine

/-- A function literal evaluates to a closure over the current scope. -/
def functionLit (node : Address) : TurnM Unit := do
  TurnM.pushValueOwned (← Closure.create node (← TurnM.frame))

def call (node : Address) : TurnM Unit := do
  let argc ← Query.field node .call 0
  let operands ← Query.children node
  TurnM.pushNew .callI [argc] []
  TurnM.pushInOrder operands

/-- Binds a name and type of a function literal to a new variable. -/
def bind (scope literal : Address) (i : Nat) (value : Address) : TurnM Unit := do
  let name ← Query.child literal .functionLit i
  let type ← Query.child literal .functionLit (i + 1)
  let var ← Variable.create type value
  TurnM.releasing [var] (Frame.insert scope name var)

/-- Enters a closure: the running thread goes on with its body, in a new scope inside the one that
it was made in. -/
def enter (f : Address) (receiver : Option Address) (args : List Address) : TurnM Unit := do
  let literal ← Closure.literal f
  let captured ← Closure.frame f
  let expected := (← Query.field literal .functionLit 0).toNat
  if expected ≠ args.length then throw (.arityMismatch expected args.length)
  TurnM.pushShared .restoreEnvI [] [← TurnM.frame]
  TurnM.pushNew .returnFrom [] [.nil]
  let scope ← Frame.create captured
  TurnM.releasing [scope] (TurnM.setFrame scope)
  let hasReceiver ← Query.field literal .functionLit 1
  match receiver with
  | some value => if hasReceiver ≠ 0 then bind scope literal 1 value
  | none => pure ()
  for (arg, i) in args.zipIdx do
    bind scope literal (3 + 2 * i) arg
  TurnM.push (← Query.child literal .functionLit 0)

/-- Runs the builtin that a record names. -/
def callBuiltin (b : Address) (args : List Address) : TurnM Flow := do
  let name ← BuiltinRef.name b
  match Builtin.ofName? name with
  | some builtin => builtin.run args
  | none => throw (.unknownBuiltin name)

/-- What applying a callee did. -/
inductive Applied where
  /-- A body was scheduled, whose `return` will leave the result. -/
  | entered
  | ran (flow : Flow)

/-- Applies a bound method. -/
def applyBound (m : Address) (args : List Address) : TurnM Applied := do
  let target ← BoundMethod.callee m
  let receiver ← BoundMethod.receiver m
  match ← View.of target with
  | .record .function f =>
    enter f (some receiver) args
    return .entered
  | .record .builtin b => return .ran (← callBuiltin b (receiver :: args))
  | v => throw (.notCallable v.kind)

/-- Applies a callee to arguments. -/
def apply (callee : Address) (args : List Address) : TurnM Applied := do
  match ← View.of callee with
  | .record .function f =>
    enter f none args
    return .entered
  | .record .boundMethod m => applyBound m args
  | .record .builtin b => return .ran (← callBuiltin b args)
  | .nil => throw .nilDereference
  | v => throw (.notCallable v.kind)

def callI (node : Address) : TurnM Unit := do
  let argc ← Query.field node .callI 0
  let args ← TurnM.popValues argc.toNat
  let callee ← TurnM.popValue
  match ← TurnM.releasing (args ++ [callee]) (apply callee args) with
  | .entered => TurnM.enqueueCurrent
  | .ran (.returned value) =>
    TurnM.pushValueOwned value
    TurnM.enqueueCurrent
  | .ran .yielded => return ()

def returnFrom (node : Address) : TurnM Unit := do
  let value ← Query.child node .returnFrom 0
  TurnM.pushNew .returnFromI [] []
  if value.isNil then TurnM.pushValue .nil else TurnM.push value

/-- Drops nodes until the one that restores the caller's scope is on top, at most so many. -/
def dropBody : Nat → TurnM Unit
  | 0 => throw .returnOutsideFunction
  | n + 1 => do
    let control ← TurnM.control
    let top ← Stack.peek control
    if top.isNil then throw .returnOutsideFunction
    if (← Query.tag top) = .restoreEnvI then return
    HeapM.free (← Stack.pop control)
    dropBody n

def returnFromI (_ : Address) : TurnM Unit := do dropBody ((← get).heap.liveCount + 1)

def restoreEnvI (node : Address) : TurnM Unit := do
  TurnM.setFrame (← Query.child node .restoreEnvI 0)

def goCall (node : Address) : TurnM Unit := do
  let argc ← Query.field node .goCall 0
  let operands ← Query.children node
  TurnM.pushNew .goCallI [argc] []
  TurnM.pushInOrder operands

/-- A new runnable thread in the scope of another that starts with a call. -/
def spawn (s t : Address) (argc : UInt64) (operands : List Address) : Action Unit := do
  let id ← Scheduler.nextId s
  let fork ← Thread.fork t id
  let stash ← Thread.stash fork
  for value in operands do
    Stack.pushOwned stash value
  let control ← Thread.control fork
  Stack.pushOwned control (← Node.unit .popI)
  Stack.pushOwned control (← Node.build .callI [argc] [])
  Scheduler.enqueue s fork
  HeapM.free fork

def goCallI (node : Address) : TurnM Unit := do
  let argc ← Query.field node .goCallI 0
  let args ← TurnM.popValues argc.toNat
  let callee ← TurnM.popValue
  spawn (← get).scheduler (← get).thread argc (callee :: args)
  TurnM.enqueueCurrent

end GoMachine.Machine

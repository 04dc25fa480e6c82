import GoMachine.Node
import GoMachine.Random
import GoMachine.Thread
/-!
# One turn of a thread

In each step of the machine one thread has its turn: the node on top of its control stack is run.
`Turn` is all that a node may look at and change, and the functions below are what nodes do to the
running thread: push further nodes, push and pop operands, open and close scopes.
-/
namespace GoMachine

/-- The heap, what was printed and by which thread, the random numbers for `select`, and who is
running. -/
structure Turn where
  heap : Heap
  random : Random
  output : Array (Nat × String) := #[]
  scheduler : Address
  thread : Address

/-- What a node does. -/
abbrev TurnM := ActionOn Turn

instance : MonadLift Action TurnM where
  monadLift x := fun s =>
    match x s.heap with
    | .ok a heap => .ok a { s with heap }
    | .error e heap => .error e { s with heap }

namespace TurnM

/-- Asks something of the running thread. -/
@[inline]
def ofThread (q : Address → Query α) : TurnM α := do q (← get).thread

def control : TurnM Address := ofThread Thread.control

def stash : TurnM Address := ofThread Thread.stash

def env : TurnM Address := ofThread Thread.env

def frame : TurnM Address := ofThread Thread.frame

def structs : TurnM Address := ofThread Thread.structs

/-- Runs something and drops references afterwards, whether it fails or not. -/
def releasing (as : List Address) (x : TurnM α) : TurnM α := do
  let r ← x.attempt
  for a in as do
    HeapM.free a
  .conclude r

/-! ## Control -/

/-- Schedules a node to run next, with a new reference. -/
def push (node : Address) : TurnM Unit := do Stack.push (← control) node

/-- Schedules a node to run next and takes over the caller's reference. -/
def pushOwned (node : Address) : TurnM Unit := do Stack.pushOwned (← control) node

/-- Schedules nodes so that the first one runs first; nil is left out. -/
def pushInOrder (nodes : List Address) : TurnM Unit :=
  for node in nodes.reverse do
    if !node.isNil then push node

/-- Schedules a new node that takes over the caller's references to its children. -/
def pushNew (tag : Tag) (fields : List UInt64) (children : List Address) : TurnM Unit := do
  pushOwned (← Node.build tag fields children)

/-- Schedules a new node with new references to its children. -/
def pushShared (tag : Tag) (fields : List UInt64) (children : List Address) : TurnM Unit := do
  pushOwned (← Node.buildShared tag fields children)

/-! ## Stash -/

/-- Puts a value on the stash, with a new reference. -/
def pushValue (value : Address) : TurnM Unit := do Stack.push (← stash) value

/-- Puts a value on the stash and takes over the caller's reference. -/
def pushValueOwned (value : Address) : TurnM Unit := do Stack.pushOwned (← stash) value

/-- Takes the top value off the stash; the caller owns it. -/
def popValue : TurnM Address := do Stack.pop (← stash)

/-- Takes so many values off the stash and puts them in front of others. -/
def popOnto (values : List Address) : Nat → TurnM (List Address)
  | 0 => return values
  | n + 1 => do
    let value ← popValue
    popOnto (value :: values) n

/-- Takes the top `n` values off the stash, in the order in which they were put there. -/
def popValues (n : Nat) : TurnM (List Address) := popOnto [] n

/-! ## Scopes and scheduling -/

/-- Makes the running thread runnable again. -/
def enqueueCurrent : TurnM Unit := do Scheduler.enqueue (← get).scheduler (← get).thread

/-- Opens a scope and returns it, borrowed. -/
def pushFrame : TurnM Address := do Env.pushFrame (← env)

/-- Closes the current scope. -/
def popFrame : TurnM Unit := do Env.popFrame (← env)

/-- Replaces the current scope. -/
def setFrame (frame : Address) : TurnM Unit := do Env.setFrame (← env) frame

/-- Prints a text in the name of the running thread. -/
def emit (text : String) : TurnM Unit := do
  let id ← ofThread Thread.id
  modify fun s => { s with output := s.output.push (id, text) }

end TurnM
end GoMachine

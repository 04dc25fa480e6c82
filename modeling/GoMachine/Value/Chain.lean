import GoMachine.Fault
/-!
# Chains, stacks and queues

A chain is a linked list of records, each with a value and the next record. A stack counts its
values in a field and has the top of a chain as its child; a queue has both ends of its chain as
children. Popping an empty container yields nil.

`push` and `enqueue` take a new reference to a value, `pushOwned` and `enqueueOwned` move the
caller's reference in, and `pop` and `dequeue` hand a reference back.
-/
namespace GoMachine

namespace Chain

/-- A record that takes over the caller's reference to the value, or drops it when there is no
memory left. -/
def createOwned (value next : Address) : Action Address := do
  let node ← Action.orRelease value (HeapM.allocate .linkedList 0 2)
  HeapM.setChildOwned node .linkedList 0 value
  HeapM.setChild node .linkedList 1 next
  return node

/-- The value of a record of a chain, borrowed. -/
def value (node : Address) : Query Address := Query.child node .linkedList 0

/-- The rest of a chain after a record, borrowed. -/
def next (node : Address) : Query Address := Query.child node .linkedList 1

/-- The values of the first records of a chain. -/
def take : Nat → Address → Query (List Address)
  | 0, _ => return []
  | n + 1, node => do
    if node.isNil then return []
    let v ← value node
    return v :: (← take n (← next node))

/-- The values of a chain in order, borrowed. No chain is longer than there are records. -/
def values (node : Address) : Query (List Address) := do take ((← read).liveCount + 1) node

end Chain

namespace Stack

/-- An empty stack. -/
def create (tag : Tag) : Action Address := HeapM.allocate tag 1 1

/-- The number of values. -/
def size (stack : Address) : Query Nat := do
  return (← Query.field stack (← Query.tag stack) 0).toNat

/-- Whether there are no values. -/
def isEmpty (stack : Address) : Query Bool := return (← size stack) == 0

/-- Puts a value on top. -/
def pushOwned (stack value : Address) : Action Unit := do
  let tag ← Query.tag stack
  let node ← Chain.createOwned value (← Query.child stack tag 0)
  HeapM.setChildOwned stack tag 0 node
  HeapM.setField stack tag 0 ((← Query.field stack tag 0) + 1)

/-- Puts a value on top with a new reference. -/
def push (stack value : Address) : Action Unit := do
  let _ ← HeapM.reference value
  pushOwned stack value

/-- One less, but not below zero. -/
def decrement (w : UInt64) : UInt64 := if w = 0 then 0 else w - 1

/-- Takes the top value off. -/
def pop (stack : Address) : Action Address := do
  let tag ← Query.tag stack
  let top ← HeapM.takeChild stack tag 0
  if top.isNil then return .nil
  let value ← HeapM.takeChild top .linkedList 0
  let next ← HeapM.takeChild top .linkedList 1
  HeapM.setChildOwned stack tag 0 next
  HeapM.free top
  HeapM.setField stack tag 0 (decrement (← Query.field stack tag 0))
  return value

/-- The top value, borrowed. -/
def peek (stack : Address) : Query Address := do
  let top ← Query.child stack (← Query.tag stack) 0
  if top.isNil then return .nil else Chain.value top

/-- The values from the top down, borrowed. -/
def values (stack : Address) : Query (List Address) := do
  Chain.values (← Query.child stack (← Query.tag stack) 0)

end Stack

namespace Queue

/-- An empty queue. -/
def create : Action Address := HeapM.allocate .queue 1 2

/-- The number of values. -/
def size (queue : Address) : Query Nat := return (← Query.field queue .queue 0).toNat

/-- Whether there are no values. -/
def isEmpty (queue : Address) : Query Bool := return (← size queue) == 0

/-- Puts a value at the back. -/
def enqueueOwned (queue value : Address) : Action Unit := do
  let node ← Chain.createOwned value .nil
  let back ← Query.child queue .queue 1
  if back.isNil then HeapM.setChild queue .queue 0 node
  else HeapM.setChild back .linkedList 1 node
  HeapM.setChildOwned queue .queue 1 node
  HeapM.setField queue .queue 0 ((← Query.field queue .queue 0) + 1)

/-- Puts a value at the back with a new reference. -/
def enqueue (queue value : Address) : Action Unit := do
  let _ ← HeapM.reference value
  enqueueOwned queue value

/-- Takes the front value off. -/
def dequeue (queue : Address) : Action Address := do
  let front ← HeapM.takeChild queue .queue 0
  if front.isNil then return .nil
  let value ← HeapM.takeChild front .linkedList 0
  let next ← HeapM.takeChild front .linkedList 1
  if next.isNil then HeapM.setChild queue .queue 1 .nil
  HeapM.setChildOwned queue .queue 0 next
  HeapM.free front
  HeapM.setField queue .queue 0 (Stack.decrement (← Query.field queue .queue 0))
  return value

/-- The front value, borrowed. -/
def peek (queue : Address) : Query Address := do
  let front ← Query.child queue .queue 0
  if front.isNil then return .nil else Chain.value front

/-- The values from front to back, borrowed. -/
def values (queue : Address) : Query (List Address) := do
  Chain.values (← Query.child queue .queue 0)

end Queue
end GoMachine

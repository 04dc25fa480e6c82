import GoMachine.Value.Zero
/-!
# Channels

A channel is a record with its capacity and whether it is closed, a queue of buffered values, two
queues of waiting instances (for threads that wait to send and to receive) and the element type.
A thread that waits to send leaves its value in the instance; one that waits to receive gets the
value on its stash.

With capacity zero a value is in the buffer only within one operation, which makes sender and
receiver meet.
-/
namespace GoMachine

/-- How an operation ended that does not wait. -/
inductive Attempt where
  | done
  /-- Not ready; the queue to wait in, borrowed. -/
  | wait (queue : Address)
  deriving DecidableEq

namespace Channel

/-- Fails unless the record is a channel. -/
def check (ch : Address) : Query Unit := Query.require ch .channel "channel"

/-- An open channel without values. -/
def create (elem : Address) (cap : Int) : Action Address := do
  if cap < 0 then throw .makeChanSize
  let ch ← HeapM.allocate .channel 2 4
  Action.orRelease ch do
    HeapM.setField ch .channel 0 cap.toNat.toUInt64
    for i in [0, 1, 2] do
      HeapM.setChildOwned ch .channel i (← Queue.create)
    HeapM.setChild ch .channel 3 elem
  return ch

/-- A child of a channel, borrowed. -/
def slot (ch : Address) (i : Nat) : Query Address := do
  check ch
  Query.child ch .channel i

/-- The queue of buffered values, borrowed. -/
def buffer (ch : Address) : Query Address := slot ch 0

/-- The instances of threads that wait to send, borrowed. -/
def senders (ch : Address) : Query Address := slot ch 1

/-- The instances of threads that wait to receive, borrowed. -/
def receivers (ch : Address) : Query Address := slot ch 2

/-- The element type, borrowed. -/
def elemType (ch : Address) : Query Address := slot ch 3

/-- How many values may wait in the buffer. -/
def cap (ch : Address) : Query Nat := do
  check ch
  return (← Query.field ch .channel 0).toNat

/-- The number of buffered values. -/
def size (ch : Address) : Query Nat := do Queue.size (← buffer ch)

/-- Whether the channel is closed. -/
def isClosed (ch : Address) : Query Bool := do
  check ch
  return (← Query.field ch .channel 1) != 0

/-- Sends a borrowed value if a thread waits for it or there is room for it. -/
def trySend (ch value s : Address) : Action Attempt := do
  if ← isClosed ch then throw .sendOnClosed
  let buffer ← buffer ch
  let receiver ← Waiting.firstLive (← receivers ch)
  if receiver.isNil then
    let size ← Queue.size buffer
    if (← cap ch) ≤ size then return .wait (← senders ch)
    Queue.enqueue buffer value
  else
    Queue.enqueue buffer value
    let received ← Queue.dequeue buffer
    Action.releasing receiver (Waiting.deliver receiver (some received) s)
  return .done

/-- Receives onto a thread's stash, if there is a value or a thread that waits to send one. A
closed channel without values gives the zero value of its element type. -/
def tryRecv (ch t structs s : Address) : Action Attempt := do
  let buffer ← buffer ch
  let sender ← Waiting.firstLive (← senders ch)
  if !sender.isNil then
    let pending ← Waiting.takeValue sender
    Action.releasing sender do
      Queue.enqueueOwned buffer pending
      Waiting.deliver sender none s
  let stash ← Thread.stash t
  if !(← Queue.isEmpty buffer) then
    Stack.pushOwned stash (← Queue.dequeue buffer)
    return .done
  if ← isClosed ch then
    Stack.pushOwned stash (← zeroValue structs (← elemType ch))
    return .done
  return .wait (← receivers ch)

/-- Leaves a thread to a queue of waiting instances, with the value that it wants to send. -/
def register (waiters t value : Address) : Action Unit := do
  let w ← Waker.create t
  let inst ← Action.releasing w (Waiting.create w value .nil)
  Queue.enqueueOwned waiters inst

/-- Sends a value: the thread goes on if the value could be sent, and waits otherwise. On a nil
channel it waits for ever. -/
def send (ch value t s : Address) : Action Bool := do
  if ch.isNil then return false
  match ← trySend ch value s with
  | .done =>
    Scheduler.enqueue s t
    return true
  | .wait waiters =>
    register waiters t value
    return false

/-- Receives onto a thread's stash: the thread goes on if there was a value, and waits otherwise.
On a nil channel it waits for ever. -/
def recv (ch t structs s : Address) : Action Bool := do
  if ch.isNil then return false
  match ← tryRecv ch t structs s with
  | .done =>
    Scheduler.enqueue s t
    return true
  | .wait waiters =>
    register waiters t .nil
    return false

/-- Gives the zero value to the first so many threads that wait to receive. -/
def flush (receivers elem structs s : Address) : Nat → Action Unit
  | 0 => return ()
  | n + 1 => do
    let receiver ← Waiting.firstLive receivers
    if receiver.isNil then return ()
    Action.releasing receiver do
      let zero ← zeroValue structs elem
      Waiting.deliver receiver (some zero) s
    flush receivers elem structs s n

/-- Closes a channel. Threads that wait to receive get the zero value; it is an error if a thread
waits to send. -/
def close (ch structs s : Address) : Action Unit := do
  if ch.isNil then throw .closeOfNil
  if ← isClosed ch then throw .closeOfClosed
  HeapM.setField ch .channel 1 1
  let receivers ← receivers ch
  let elem ← elemType ch
  flush receivers elem structs s ((← get).liveCount + 1)
  let sender ← Waiting.firstLive (← senders ch)
  if !sender.isNil then
    HeapM.free sender
    throw .sendOnClosed

end Channel
end GoMachine

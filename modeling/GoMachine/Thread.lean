import GoMachine.Scope
import GoMachine.Value.Chain
/-!
# Threads

A thread is a record with a number, a control stack of nodes still to run, a stash of operands and
an environment: the current frame and the frame of struct declarations. The scheduler has the next
thread number and the queue of threads that can run.

A thread that waits is in no queue of the scheduler. It is held by a waker, which brings it back
once and is spent then. A thread that waits on channels has a waiting instance on each of them,
with the value to send and the node that is to run when the operation completes; all instances of
one `select` share one waker, and go stale when it is spent.
-/
namespace GoMachine

namespace Env

/-- An environment. -/
def create (frame structs : Address) : Action Address := do
  let env ← HeapM.allocate .env 0 2
  HeapM.setChild env .env 0 frame
  HeapM.setChild env .env 1 structs
  return env

/-- The current frame, borrowed. -/
def frame (env : Address) : Query Address := Query.child env .env 0

/-- The frame of struct declarations, borrowed. -/
def structs (env : Address) : Query Address := Query.child env .env 1

/-- Replaces the current frame. -/
def setFrame (env frame : Address) : Action Unit := HeapM.setChild env .env 0 frame

/-- Opens a scope inside the current one and returns it, borrowed. -/
def pushFrame (env : Address) : Action Address := do
  let inner ← Frame.create (← frame env)
  HeapM.setChildOwned env .env 0 inner
  return inner

/-- Closes the current scope. -/
def popFrame (env : Address) : Action Unit := do
  setFrame env (← Frame.parent (← frame env))

end Env

namespace Thread

/-- A thread with nothing to do yet. -/
def create (id : UInt64) (frame structs : Address) : Action Address := do
  let t ← HeapM.allocate .thread 1 3
  Action.orRelease t do
    HeapM.setField t .thread 0 id
    HeapM.setChildOwned t .thread 0 (← Stack.create .control)
    HeapM.setChildOwned t .thread 1 (← Stack.create .stash)
    HeapM.setChildOwned t .thread 2 (← Env.create frame structs)
  return t

/-- The number of a thread. -/
def id (t : Address) : Query Nat := return (← Query.field t .thread 0).toUInt32.toNat

/-- The control stack, borrowed. -/
def control (t : Address) : Query Address := Query.child t .thread 0

/-- The stash, borrowed. -/
def stash (t : Address) : Query Address := Query.child t .thread 1

/-- The environment, borrowed. -/
def env (t : Address) : Query Address := Query.child t .thread 2

/-- The current frame, borrowed. -/
def frame (t : Address) : Query Address := do Env.frame (← env t)

/-- The frame of struct declarations, borrowed. -/
def structs (t : Address) : Query Address := do Env.structs (← env t)

/-- A new thread in the scope of another, which shares nothing else with it. -/
def fork (t : Address) (id : UInt64) : Action Address := do
  let env ← env t
  let frame ← Env.frame env
  let structs ← Env.structs env
  create id frame structs

/-- Whether a thread has nothing left to do. -/
def isFinished (t : Address) : Query Bool := do Stack.isEmpty (← control t)

end Thread

namespace Scheduler

/-- A scheduler without threads. -/
def create : Action Address := do
  let s ← HeapM.allocate .scheduler 1 1
  let q ← Action.orRelease s Queue.create
  HeapM.setChildOwned s .scheduler 0 q
  return s

/-- The queue of threads that can run, borrowed. -/
def runQueue (s : Address) : Query Address := Query.child s .scheduler 0

/-- The next thread number, counted from zero within 32 bits. -/
def nextId (s : Address) : Action UInt64 := do
  let id ← Query.field s .scheduler 0
  HeapM.setField s .scheduler 0 (id + 1)
  return id.toUInt32.toUInt64

/-- Makes a thread runnable. -/
def enqueue (s t : Address) : Action Unit := do Queue.enqueue (← runQueue s) t

/-- The thread that is to run next, which the caller owns; nil if none can run. -/
def dequeue (s : Address) : Action Address := do Queue.dequeue (← runQueue s)

/-- The number of runnable threads. -/
def size (s : Address) : Query Nat := do Queue.size (← runQueue s)

/-- Whether no thread can run. -/
def isEmpty (s : Address) : Query Bool := return (← size s) == 0

/-- The runnable threads in the order in which they will run, borrowed. -/
def threads (s : Address) : Query (List Address) := do Queue.values (← runQueue s)

end Scheduler

namespace Waker

/-- A waker for a thread. -/
def create (t : Address) : Action Address := do
  let w ← HeapM.allocate .waker 0 1
  HeapM.setChild w .waker 0 t
  return w

/-- The waiting thread, borrowed; nil once woken. -/
def thread (w : Address) : Query Address := Query.child w .waker 0

/-- Whether the thread was woken already. -/
def isSpent (w : Address) : Query Bool := return (← thread w).isNil

/-- Makes the waiting thread runnable; false if it was woken already. -/
def wake (w s : Address) : Action Bool := do
  let t ← HeapM.takeChild w .waker 0
  if t.isNil then return false
  Action.releasing t (Scheduler.enqueue s t)
  return true

/-- Leaves a thread to a new waker at the back of a queue. -/
def park (t waiters : Address) : Action Unit := do Queue.enqueueOwned waiters (← create t)

/-- Wakes the thread of the first waker that is not spent, among the first so many of a queue. -/
def wakeAmong (waiters s : Address) : Nat → Action Bool
  | 0 => return false
  | n + 1 => do
    let w ← Queue.dequeue waiters
    if w.isNil then return false
    if ← Action.releasing w (wake w s) then return true
    wakeAmong waiters s n

/-- Wakes the thread of the first waker in a queue that is not spent; false if there is none. -/
def wakeOne (waiters s : Address) : Action Bool := do
  wakeAmong waiters s ((← get).liveCount + 1)

/-- Wakes the threads of the first so many wakers that are not spent. -/
def wakeUpTo (waiters s : Address) : Nat → Action Nat
  | 0 => return 0
  | n + 1 => do
    if ← wakeOne waiters s then return (← wakeUpTo waiters s n) + 1
    return 0

/-- Wakes the threads of all wakers in a queue and returns how many there were. -/
def wakeAll (waiters s : Address) : Action Nat := do
  wakeUpTo waiters s ((← get).liveCount + 1)

end Waker

namespace Waiting

/-- A waiting instance. -/
def create (w value body : Address) : Action Address := do
  let inst ← HeapM.allocate .waitingInstance 0 3
  HeapM.setChild inst .waitingInstance 0 w
  HeapM.setChild inst .waitingInstance 1 value
  HeapM.setChild inst .waitingInstance 2 body
  return inst

/-- The waker, borrowed. -/
def waker (inst : Address) : Query Address := Query.child inst .waitingInstance 0

/-- The node that runs on completion, borrowed; nil if there is none. -/
def body (inst : Address) : Query Address := Query.child inst .waitingInstance 2

/-- Moves the value to send to the caller. -/
def takeValue (inst : Address) : Action Address := HeapM.takeChild inst .waitingInstance 1

/-- Whether the thread does not wait any more. -/
def isStale (inst : Address) : Query Bool := do Waker.isSpent (← waker inst)

/-- The first instance that is not stale among the first so many of a queue. -/
def firstAmong (waiters : Address) : Nat → Action Address
  | 0 => return .nil
  | n + 1 => do
    let inst ← Queue.dequeue waiters
    if inst.isNil then return .nil
    if !(← isStale inst) then return inst
    HeapM.free inst
    firstAmong waiters n

/-- Takes the first instance that is not stale off a queue; the caller owns it. The stale ones
before it are dropped. Nil if there is none. -/
def firstLive (waiters : Address) : Action Address := do
  firstAmong waiters ((← get).liveCount + 1)

/-- Completes the operation of an instance: the value, which the caller owned, goes onto the
thread's stash, the body onto its control stack, and the thread is woken. -/
def deliver (inst : Address) (value : Option Address) (s : Address) : Action Unit := do
  let w ← waker inst
  let t ← Waker.thread w
  if let some value := value then
    Stack.pushOwned (← Thread.stash t) value
  let body ← body inst
  if !body.isNil then
    Stack.push (← Thread.control t) body
  let _ ← Waker.wake w s

end Waiting
end GoMachine

import GoMachine.Thread
/-!
# Mutexes, semaphores and wait groups

Each is a record with a counter in a field and a queue of wakers. An operation that may have to
wait takes the thread: it makes the thread runnable again and is true when it went through, and
otherwise leaves the thread to a waker and is false. Waiting threads go on in the order in which
they came.
-/
namespace GoMachine

/-- What the three kinds of lock have in common: a tag and a word for error messages. -/
structure LockKind where
  tag : Tag
  word : String

namespace LockKind

def mutex : LockKind := ⟨.mutex, "mutex"⟩

def semaphore : LockKind := ⟨.semaphore, "semaphore"⟩

def waitGroup : LockKind := ⟨.waitGroup, "wait group"⟩

/-- A lock with a counter and no waiting threads. -/
def create (k : LockKind) (initial : Int64) : Action Address := do
  let lock ← HeapM.allocate k.tag 1 1
  HeapM.setField lock k.tag 0 initial.toUInt64
  let q ← Action.orRelease lock Queue.create
  HeapM.setChildOwned lock k.tag 0 q
  return lock

/-- The counter of a lock. -/
def counter (k : LockKind) (lock : Address) : Query Int64 := do
  Query.require lock k.tag k.word
  return (← Query.field lock k.tag 0).toInt64

/-- Sets the counter of a lock. -/
def setCounter (k : LockKind) (lock : Address) (n : Int64) : Action Unit :=
  HeapM.setField lock k.tag 0 n.toUInt64

/-- The queue of wakers, borrowed. -/
def waiters (k : LockKind) (lock : Address) : Query Address := Query.child lock k.tag 0

/-- Leaves a thread to the queue of wakers. -/
def park (k : LockKind) (lock t : Address) : Action Bool := do
  Waker.park t (← k.waiters lock)
  return false

/-- Makes a thread runnable. -/
def grant (t s : Address) : Action Bool := do
  Scheduler.enqueue s t
  return true

end LockKind

/-! ## Mutexes: the counter is 1 while the lock is held -/

namespace Mutex

def create : Action Address := LockKind.mutex.create 0

def isLocked (m : Address) : Query Bool := return (← LockKind.mutex.counter m) != 0

/-- Takes the lock, or waits for it. -/
def lock (m t s : Address) : Action Bool := do
  if ← isLocked m then LockKind.mutex.park m t
  else
    LockKind.mutex.setCounter m 1
    LockKind.grant t s

/-- Hands the lock to the first waiting thread, and gives it up if there is none. -/
def unlock (m s : Address) : Action Unit := do
  if !(← isLocked m) then throw .unlockOfUnlocked
  if !(← Waker.wakeOne (← LockKind.mutex.waiters m) s) then LockKind.mutex.setCounter m 0

end Mutex

/-! ## Semaphores: the counter is the number of permits, less one for each waiting thread -/

namespace Semaphore

def create (permits : Int64) : Action Address := LockKind.semaphore.create permits

def permits (sem : Address) : Query Int64 := LockKind.semaphore.counter sem

/-- Takes a permit, or waits for one. -/
def acquire (sem t s : Address) : Action Bool := do
  let permits := (← permits sem) - 1
  LockKind.semaphore.setCounter sem permits
  if 0 ≤ permits then LockKind.grant t s else LockKind.semaphore.park sem t

/-- Gives a permit to the first waiting thread, if there is one. -/
def release (sem s : Address) : Action Unit := do
  let permits := (← permits sem) + 1
  LockKind.semaphore.setCounter sem permits
  if permits ≤ 0 then
    if !(← Waker.wakeOne (← LockKind.semaphore.waiters sem) s) then throw .semaphoreAccounting

end Semaphore

/-! ## Wait groups: threads wait for the counter to become zero -/

namespace WaitGroup

def create : Action Address := LockKind.waitGroup.create 0

def count (wg : Address) : Query Int64 := LockKind.waitGroup.counter wg

/-- Changes the counter. At zero all waiting threads go on. -/
def add (wg : Address) (delta : Int64) (s : Address) : Action Unit := do
  let next := (← count wg) + delta
  if next < 0 then throw .negativeWaitGroup
  LockKind.waitGroup.setCounter wg next
  if next = 0 then
    let _ ← Waker.wakeAll (← LockKind.waitGroup.waiters wg) s

/-- Goes on if the counter is zero, or waits. -/
def wait (wg t s : Address) : Action Bool := do
  if (← count wg) = 0 then LockKind.grant t s else LockKind.waitGroup.park wg t

end WaitGroup
end GoMachine

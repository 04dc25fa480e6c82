import GoMachine.Heap.Sweep
/-!
# Faults

Everything that can stop an evaluation, and the two kinds of computation that may raise it: a
`Query` reads the heap, an `Action` changes a state. An action that fails leaves the state as it
was at the failure, so that what it acquired before is still there and has to be released:
`releasing` and `orRelease` say who does so.
-/
namespace GoMachine

/-- Why an evaluation stops. Apart from `heap`, these are the errors of the program that is being
run. -/
inductive Fault where
  | heap (e : HeapError)
  -- values
  | typeMismatch (expected : String) (found : Tag)
  | undefined (name : String)
  | noMember (owner name : String)
  | indexOutOfRange (index : Int) (size : Nat)
  | sliceBounds (high : Int) (cap : Nat)
  | invalidSliceIndices (low high : Int)
  | makeSliceLen
  | makeSliceCap
  | makeChanSize
  | nilDereference
  -- synchronisation
  | unlockOfUnlocked
  | negativeWaitGroup
  | semaphoreAccounting
  | sendOnClosed
  | closeOfClosed
  | closeOfNil
  | deadlock
  -- evaluation
  | unsupportedCommand (node : String)
  | notCallable (kind : String)
  | arityMismatch (expected got : Nat)
  | divisionByZero
  | floatDivisionByZero
  | invalidOperation (op left right : String)
  | outsideLoop (keyword : String)
  | returnOutsideFunction
  -- loading
  | unknownBuiltin (name : String)
  | notAddressable (target : String)
  | noMain
  deriving DecidableEq

/-- The text of a fault. -/
def Fault.message : Fault → String
  | heap e => e.message
  | typeMismatch expected found => s!"type mismatch: expected {expected}, found {found.spelling}"
  | undefined name => s!"undefined: {name}"
  | noMember owner name => s!"{owner} has no field or method {name}"
  | indexOutOfRange index size => s!"index out of range [{index}] with length {size}"
  | sliceBounds high cap => s!"slice bounds out of range [:{high}] with capacity {cap}"
  | invalidSliceIndices low high => s!"invalid slice indices: {high} < {low}"
  | makeSliceLen => "makeslice: len out of range"
  | makeSliceCap => "makeslice: cap out of range"
  | makeChanSize => "makechan: size out of range"
  | nilDereference => "invalid memory address or nil pointer dereference"
  | unlockOfUnlocked => "sync: unlock of unlocked mutex"
  | negativeWaitGroup => "sync: negative WaitGroup counter"
  | semaphoreAccounting => "semaphore released without a waiter to wake"
  | sendOnClosed => "send on closed channel"
  | closeOfClosed => "close of closed channel"
  | closeOfNil => "close of nil channel"
  | deadlock => "all goroutines are asleep - deadlock!"
  | unsupportedCommand node => s!"unsupported command: {node}"
  | notCallable kind => s!"cannot call non-function ({kind})"
  | arityMismatch expected got => s!"wrong number of arguments: want {expected}, got {got}"
  | divisionByZero => "integer divide by zero"
  | floatDivisionByZero => "floating-point divide by zero"
  | invalidOperation op left right =>
    s!"invalid operation: operator {op} not defined on {left} and {right}"
  | outsideLoop keyword => s!"{keyword} is not in a loop"
  | returnOutsideFunction => "return outside function"
  | unknownBuiltin name => s!"undefined builtin: {name}"
  | notAddressable target => s!"cannot take the address of {target}"
  | noMain => "function main is undeclared in the main package"

/-- Computations that read the heap. -/
abbrev Query := ReaderT Heap (Except Fault)

namespace Query

/-- A question that only the heap itself can refuse. -/
@[inline]
def ofHeap (q : Heap → Except HeapError α) : Query α := fun h =>
  match q h with
  | .ok a => .ok a
  | .error e => .error (.heap e)

/-- What the record at an address is. -/
def tag (a : Address) : Query Tag := ofHeap (·.tag a)

/-- A field of a record with the tag. -/
def field (a : Address) (tag : Tag) (i : Nat) : Query UInt64 := ofHeap (·.field a tag i)

/-- A child of a record with the tag. -/
def child (a : Address) (tag : Tag) (i : Nat) : Query Address := ofHeap (·.child a tag i)

/-- All children of a record. -/
def children (a : Address) : Query (List Address) := ofHeap (·.children a)

/-- The number of children. -/
def numChildren (a : Address) : Query Nat := ofHeap (·.numChildren a)

/-- Fails with a type mismatch unless the record has the tag. -/
def require (a : Address) (tag : Tag) (expected : String) : Query Unit := do
  let found ← Query.tag a
  if found = tag then return ()
  else throw (.typeMismatch expected found)

end Query

/-- Computations that change a state of type `σ`. -/
abbrev ActionOn (σ : Type) := EStateM Fault σ

/-- Computations that change the heap. -/
abbrev Action := ActionOn Heap

instance : MonadLift Query Action where
  monadLift q := fun h =>
    match q h with
    | .ok a => .ok a h
    | .error e => .error e h

instance : MonadLift HeapM Action where
  monadLift x := fun h =>
    match x h with
    | .ok a h => .ok a h
    | .error e h => .error (.heap e) h

namespace ActionOn

/-- Runs an action and returns how it ended. -/
@[inline]
def attempt (x : ActionOn σ α) : ActionOn σ (Except Fault α) := fun s =>
  match x s with
  | .ok a s => .ok (.ok a) s
  | .error e s => .ok (.error e) s

/-- Ends as recorded. -/
@[inline]
def conclude (r : Except Fault α) : ActionOn σ α := fun s =>
  match r with
  | .ok a => .ok a s
  | .error e => .error e s

end ActionOn

namespace Action

/-- Runs an action and drops a reference afterwards, whether the action fails or not. -/
def releasing (a : Address) (x : Action α) : Action α := do
  let r ← x.attempt
  HeapM.free a
  .conclude r

/-- Runs an action, and drops a reference if the action fails. -/
def orRelease (a : Address) (x : Action α) : Action α := do
  match ← x.attempt with
  | .ok b => return b
  | .error e =>
    HeapM.free a
    throw e

end Action
end GoMachine

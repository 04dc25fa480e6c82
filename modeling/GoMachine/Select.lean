import GoMachine.Channel
import GoMachine.Random
/-!
# Select

A `select` tries its cases in a random order until one can proceed. If none can and there is no
default, the thread waits on the channels of all cases behind one waker: the first operation that
completes spends the waker, and what is left on the other channels is stale.
-/
namespace GoMachine

/-- A case with its evaluated operands, borrowed, and the node that runs when it completes. -/
inductive Case where
  | send (channel value body : Address)
  | receive (channel body : Address)
  deriving DecidableEq

/-- The node that runs when a case completes. -/
def Case.body : Case → Address
  | send _ _ body => body
  | receive _ body => body

/-- What came of a `select`. -/
inductive Outcome where
  /-- A case completed; a value that it received is on the thread's stash. -/
  | ready (i : Nat)
  /-- No case could proceed, and there is a default. -/
  | default
  /-- The thread waits on all channels. -/
  | blocked
  deriving DecidableEq

namespace Select

/-- Tries one case. A nil channel is never ready. -/
def tryCase (t structs s : Address) : Case → Action Bool
  | .send ch value _ => do
    if ch.isNil then return false
    return (← Channel.trySend ch value s) = .done
  | .receive ch _ => do
    if ch.isNil then return false
    return (← Channel.tryRecv ch t structs s) = .done

/-- Tries cases, given by their positions, until one proceeds. -/
def tryInOrder (cases : List Case) (t structs s : Address) : List Nat → Action (Option Nat)
  | [] => return none
  | i :: order => do
    match cases[i]? with
    | none => tryInOrder cases t structs s order
    | some c =>
      if ← tryCase t structs s c then return some i
      tryInOrder cases t structs s order

/-- Leaves an instance on the channel of a case. -/
def register (shared : Address) : Case → Action Unit
  | .send ch value body => do
    if ch.isNil then return
    let waiters ← Channel.senders ch
    Queue.enqueueOwned waiters (← Waiting.create shared value body)
  | .receive ch body => do
    if ch.isNil then return
    let waiters ← Channel.receivers ch
    Queue.enqueueOwned waiters (← Waiting.create shared .nil body)

/-- Runs a `select` for a thread, with the order in which to try the cases. The thread is not made
runnable here, and no body is scheduled but by whoever completes a case later. -/
def run (cases : List Case) (order : List Nat) (hasDefault : Bool) (t structs s : Address) :
    Action Outcome := do
  match ← tryInOrder cases t structs s order with
  | some i => return .ready i
  | none =>
    if hasDefault then return .default
    let shared ← Waker.create t
    Action.releasing shared (cases.forM (register shared))
    return .blocked

end Select
end GoMachine

import GoMachine.Select
import Mathlib.Data.List.ReduceOption
import Mathlib.Logic.Function.Basic
/-!
# What is seen of channels

To those who use them, channels are lists: the values in the buffer, the threads that wait to send
and those that wait to receive. Stale instances are not seen. `Channel.view` reads a channel so, and
a `Scene` is what is seen of all channels, of the stacks of the threads and of the run queue.

What an operation does is said of the scene: `Scene.send`, `Scene.receive`, `Scene.flush` and
`Scene.park`. The thread of a waiting instance is served in `Scene.serve`: all instances of its
waker are gone then, whichever channels they were on.
-/
namespace GoMachine

/-- A thread that waits on a channel: its waker, the value that it wants to send, which is nil if it
wants to receive, and the node that runs on completion. -/
structure Waiter where
  waker : Address
  thread : Address
  value : Address
  body : Address
  deriving DecidableEq

namespace Waiter

/-- Who waits behind an instance; nobody if it is stale. -/
def ofInstance (inst : Address) : Query (Option Waiter) := do
  let waker ← Waiting.waker inst
  let thread ← Waker.thread waker
  if thread.isNil then return none
  return some ⟨waker, thread, ← Query.child inst .waitingInstance 1, ← Waiting.body inst⟩

/-- Who waits in a queue, in order. -/
def inQueue (waiters : Address) : Query (List Waiter) := do
  return (← (← Queue.values waiters).mapM ofInstance).reduceOption

end Waiter

/-- What is seen of a channel. -/
structure ChannelView where
  cap : Nat
  closed : Bool
  buffer : List Address
  senders : List Waiter
  receivers : List Waiter
  deriving DecidableEq, Inhabited

def Channel.view (ch : Address) : Query ChannelView := do
  return {
    cap := ← cap ch
    closed := ← isClosed ch
    buffer := ← Queue.values (← buffer ch)
    senders := ← Waiter.inQueue (← senders ch)
    receivers := ← Waiter.inQueue (← receivers ch) }

/-- Without those who wait behind a waker. -/
def ChannelView.without (w : Address) (V : ChannelView) : ChannelView :=
  { V with
    senders := V.senders.filter (·.waker ≠ w)
    receivers := V.receivers.filter (·.waker ≠ w) }

def ChannelView.withoutAll (ws : List Address) (V : ChannelView) : ChannelView :=
  { V with
    senders := V.senders.filter (·.waker ∉ ws)
    receivers := V.receivers.filter (·.waker ∉ ws) }

def ChannelView.waiters (V : ChannelView) : List Waiter := V.senders ++ V.receivers

/-- A value can be sent. -/
def ChannelView.CanSend (V : ChannelView) : Prop := V.receivers ≠ [] ∨ V.buffer.length < V.cap

/-- A value can be received, or the zero value. -/
def ChannelView.CanReceive (V : ChannelView) : Prop := V.senders ≠ [] ∨ V.buffer ≠ [] ∨ V.closed

/-- Who takes part: a scheduler, the frame of struct declarations, channels and threads. -/
structure Parties where
  scheduler : Address
  structs : Address
  channels : List Address
  threads : List Address

/-- The channel is nil or one of the parties. -/
def Parties.Knows (σ : Parties) (ch : Address) : Prop := ch.isNil = true ∨ ch ∈ σ.channels

/-- What is seen of channels, of the stacks of threads, the top first, and of the run queue. -/
@[ext]
structure Scene where
  channel : Address → ChannelView
  stash : Address → List Address
  control : Address → List Address
  runnable : List Address

/-- The answer of a heap to a question, or a default. -/
def Query.orDefault {α : Type} [Inhabited α] (q : Query α) (h : Heap) : α :=
  match q h with
  | .ok a => a
  | .error _ => default

def Parties.scene (σ : Parties) (h : Heap) : Scene where
  channel ch := if ch ∈ σ.channels then (Channel.view ch).orDefault h else default
  stash t := if t ∈ σ.threads then (Thread.stash t >>= Stack.values).orDefault h else []
  control t := if t ∈ σ.threads then (Thread.control t >>= Stack.values).orDefault h else []
  runnable := (Scheduler.threads σ.scheduler).orDefault h

/-- All of the parties can be read. -/
structure Parties.Shown (σ : Parties) (h : Heap) : Prop where
  channel : ∀ ch ∈ σ.channels, Channel.view ch h = .ok ((σ.scene h).channel ch)
  stash : ∀ t ∈ σ.threads, (Thread.stash t >>= Stack.values) h = .ok ((σ.scene h).stash t)
  control : ∀ t ∈ σ.threads, (Thread.control t >>= Stack.values) h = .ok ((σ.scene h).control t)
  runnable : Scheduler.threads σ.scheduler h = .ok (σ.scene h).runnable

namespace Scene

def push (M : Scene) (t v : Address) : Scene :=
  { M with stash := Function.update M.stash t (v :: M.stash t) }

def put (M : Scene) (ch : Address) (V : ChannelView) : Scene :=
  { M with channel := Function.update M.channel ch V }

def setBuffer (M : Scene) (ch : Address) (vs : List Address) : Scene :=
  M.put ch { M.channel ch with buffer := vs }

/-- A thread that waited goes on: its body is on its control stack, and it waits nowhere any more.
-/
def wake (M : Scene) (x : Waiter) : Scene :=
  { M with
    channel := fun ch => (M.channel ch).without x.waker
    control := if x.body.isNil then M.control
      else Function.update M.control x.thread (x.body :: M.control x.thread)
    runnable := M.runnable ++ [x.thread] }

/-- A value is sent: to the first thread that waits for one, or to the buffer. -/
def send (M : Scene) (ch v : Address) : Scene :=
  match (M.channel ch).receivers with
  | x :: _ => (M.wake x).push x.thread v
  | [] => M.setBuffer ch ((M.channel ch).buffer ++ [v])

/-- The front of a list goes onto the stash of a thread, and the rest is the buffer. -/
def takeFrom (M : Scene) (ch t : Address) : List Address → Scene
  | v :: vs => (M.setBuffer ch vs).push t v
  | [] => M

/-- A thread receives: the value of the first thread that waits to send one comes to the buffer, and
the front of the buffer to the receiving thread. A closed channel without values gives the zero
value.
-/
def receive (M : Scene) (ch t zero : Address) : Scene :=
  match (M.channel ch).senders with
  | x :: _ => (M.wake x).takeFrom ch t ((M.channel ch).buffer ++ [x.value])
  | [] =>
      if (M.channel ch).buffer = [] then M.push t zero else M.takeFrom ch t (M.channel ch).buffer

/-- The operation of a case is done by a thread, whose zero value is only used if the channel is
closed and has no more values. -/
def complete (M : Scene) (t zero : Address) : Case → Scene
  | .send ch v _ => M.send ch v
  | .receive ch _ => M.receive ch t zero

/-- Threads that wait to receive get the values of a list, one each. -/
def flush (M : Scene) (ch : Address) : List Address → Scene
  | [] => M
  | z :: zs => match (M.channel ch).receivers with
    | x :: _ => ((M.wake x).push x.thread z).flush ch zs
    | [] => M

/-- A channel is closed, and the threads that wait to receive get zero values. -/
def close (M : Scene) (ch : Address) (zeros : List Address) : Scene :=
  (M.put ch { M.channel ch with closed := true }).flush ch zeros

/-- A thread waits behind a waker for one case. -/
def register (w t : Address) (M : Scene) : Case → Scene
  | .send ch v body =>
    let V := M.channel ch
    if ch.isNil then M else M.put ch { V with senders := V.senders ++ [⟨w, t, v, body⟩] }
  | .receive ch body =>
    let V := M.channel ch
    if ch.isNil then M else M.put ch { V with receivers := V.receivers ++ [⟨w, t, .nil, body⟩] }

/-- A thread waits behind a waker for the first of some cases. -/
def park (M : Scene) (w t : Address) (cases : List Case) : Scene := cases.foldl (register w t) M

def enqueue (M : Scene) (t : Address) : Scene := { M with runnable := M.runnable ++ [t] }

theorem push_wake (M : Scene) (x : Waiter) (t v : Address) :
    (M.push t v).wake x = (M.wake x).push t v := rfl

end Scene

def Case.channel : Case → Address
  | send ch _ _ => ch
  | receive ch _ => ch

/-- The value that a thread leaves when it waits for a case. -/
def Case.value : Case → Address
  | send _ v _ => v
  | receive .. => .nil

def Case.waiter (w t : Address) (c : Case) : Waiter := ⟨w, t, c.value, c.body⟩

/-- The case is a send on a channel, and not on nil. -/
def Case.sendsOn (ch : Address) : Case → Bool
  | send c _ _ => c = ch ∧ ¬c.isNil
  | receive .. => false

/-- The case is a receive on a channel, and not on nil. -/
def Case.receivesOn (ch : Address) : Case → Bool
  | send .. => false
  | receive c _ => c = ch ∧ ¬c.isNil

/-- A case can proceed on a channel that is seen so. -/
def Case.Ready (V : ChannelView) : Case → Prop
  | send .. => V.CanSend
  | receive .. => V.CanReceive

/-- Nobody waits behind a waker. -/
def Scene.Unused (M : Scene) (w : Address) : Prop := ∀ ch, ∀ x ∈ (M.channel ch).waiters, x.waker ≠ w

/-- A case can proceed in a scene: never on a nil channel. -/
def Scene.Ready (M : Scene) (c : Case) : Prop := ¬c.channel.isNil ∧ c.Ready (M.channel c.channel)

end GoMachine

import GoMachine.Lowering
import GoMachine.Machine.Rules
import GoMachine.Snapshot
/-!
# The machine

A machine holds a heap with a scheduler and a global frame. Loading a program fills the global
frame and makes a main thread. In each step the thread in front of the run queue runs the node on
top of its control stack and goes to the back of the queue, unless it has to wait. A thread whose
control stack is empty leaves the queue.

The program has run when no thread is runnable. If the main thread has nodes left then, it waits
for something that nobody will do: a deadlock. Other threads that still wait are given up.

Garbage is collected after a step if the settings ask for it or free words are short.
-/
namespace GoMachine

/-- What is fixed for a machine. -/
structure Settings where
  /-- The size of the heap in words. -/
  heapWords : Nat := 1048576
  /-- Whether to take a snapshot after each step. -/
  visualize : Bool := false
  /-- Whether to collect garbage after each step. -/
  collectAlways : Bool := false
  /-- Garbage is collected while fewer than so many thousandths of the heap are free. -/
  lowWater : Int := 125
  /-- The state of the random numbers for `select`. -/
  seed : UInt64 := 0
  deriving DecidableEq, Repr

/-- A machine. Its own references are those to the scheduler, the global frame and the main
thread. -/
structure Machine where
  settings : Settings
  heap : Heap
  random : Random
  /-- What was printed, with the number of the thread that printed it. -/
  output : Array (Nat × String) := #[]
  scheduler : Address
  globals : Address
  mainThread : Address := .nil
  /-- The number of nodes that were run without a fault. -/
  steps : Nat := 0
  snapshots : Array Snapshot := #[]

/-- Computations on a machine. -/
abbrev MachineM := ActionOn Machine

instance : MonadLift Action MachineM where
  monadLift x := fun m =>
    match x m.heap with
    | .ok a heap => .ok a { m with heap }
    | .error e heap => .error e { m with heap }

namespace Machine

/-- A machine without a program. -/
def new (settings : Settings) : Except Fault Machine := do
  let heap ← (Heap.new settings.heapWords).mapError .heap
  match (do return (← Scheduler.create, ← Frame.create .nil) : Action (Address × Address)) heap with
  | .error e _ => .error e
  | .ok (scheduler, globals) heap =>
    return { settings, heap, random := ⟨settings.seed⟩, scheduler, globals }

/-- A new main thread that starts with a node, which it takes over. It is runnable. -/
def start (scheduler globals node : Address) : Action Address := do
  let id ← Scheduler.nextId scheduler
  let main ← Thread.create id globals globals
  Stack.pushOwned (← Thread.control main) node
  Scheduler.enqueue scheduler main
  return main

/-- Links a program into the global frame, which is also the frame of struct declarations, and
makes its main thread runnable. -/
def load (program : Program) : MachineM Unit := do
  let m ← get
  let node ← Lowering.load m.globals program
  let main ← start m.scheduler m.globals node
  modify ({ · with mainThread := main })
  HeapM.free m.mainThread

/-- Gives a thread a turn. -/
def turn (t : Address) (x : TurnM Unit) : MachineM Unit := fun m =>
  let { heap, random, output, scheduler, .. } := m
  match x { heap, random, output, scheduler, thread := t } with
  | .ok _ s => .ok () { m with heap := s.heap, random := s.random, output := s.output }
  | .error e s => .error e { m with heap := s.heap, random := s.random, output := s.output }

/-- Runs a node for a thread. -/
def reduce (node : Address) : TurnM Unit := do
  match Rule.ofTag? (← Query.tag node) with
  | none => throw (.unsupportedCommand (Node.describe node (← get).heap))
  | some (.sequential run) =>
    run node
    TurnM.enqueueCurrent
  | some (.scheduling run) => run node

/-- Releases all that is reached neither from the machine nor from a pinned record, and returns
how many records that were. A waiting thread is kept while something that is reached can wake
it. -/
def collect : MachineM Nat := do
  let m ← get
  HeapM.markAndSweep [m.scheduler, m.mainThread, m.globals]

/-- Whether free words are short, which they never are where the mark is negative. -/
def isLow (m : Machine) : Bool :=
  m.heap.freeWords < m.heap.capacity * m.settings.lowWater / 1000

/-- Takes a snapshot if the settings ask for it. -/
def record : MachineM Unit := do
  let m ← get
  if m.settings.visualize then
    let picture ← Snapshot.capture m.scheduler m.steps
    modify fun m => { m with snapshots := m.snapshots.push picture }

/-- Collects garbage if it is time to. -/
def collectIfDue : MachineM Unit := do
  let m ← get
  if m.settings.collectAlways || m.isLow then
    let _ ← collect

/-- Runs one node of a thread that was taken off the run queue, and drops both. -/
def runTop (t control : Address) : MachineM Unit := do
  let node ← Stack.pop control
  let result ← (turn t (reduce node)).attempt
  HeapM.free node
  HeapM.free t
  .conclude result
  modify fun m => { m with steps := m.steps + 1 }
  record
  collectIfDue

/-- One step. False if no thread is runnable. -/
def step : MachineM Bool := do
  let t ← Scheduler.dequeue (← get).scheduler
  if t.isNil then return false
  let control ← Thread.control t
  if ← Stack.isEmpty control then HeapM.free t
  else runTop t control
  return true

/-- Takes at most so many more steps after a number of others. Returns how many were tried in all,
and whether the last one found a thread. -/
def stepsAfter (tried : Nat) : Nat → MachineM (Nat × Bool)
  | 0 => return (tried, true)
  | n + 1 => do
    if ← step then stepsAfter (tried + 1) n else return (tried + 1, false)

/-- Tries at most `n` steps until no thread is runnable. Returns how many were tried, and whether
the last one found a thread. -/
def advance (n : Nat) : MachineM (Nat × Bool) := stepsAfter 0 n

/-- Runs the program until no thread is runnable. Returns whether it came to that within so many
steps. -/
def run (budget : Nat) : MachineM Bool := do
  if (← get).mainThread.isNil then throw .noMain
  let (_, more) ← advance budget
  if more then return false
  let control ← Thread.control (← get).mainThread
  if !(← Stack.isEmpty control) then throw .deadlock
  return true

/-- Gives up what the machine holds and releases all that this kept alive. -/
def teardown : MachineM Unit := do
  let m ← get
  set { m with scheduler := .nil, mainThread := .nil, globals := .nil }
  HeapM.free m.scheduler
  HeapM.free m.mainThread
  HeapM.free m.globals
  let _ ← HeapM.markAndSweep []

/-- All that was printed. -/
def text (m : Machine) : String := String.join (m.output.toList.map Prod.snd)

/-- Loads and runs a program on a new machine and tears the machine down. Returns what was printed;
none if the program did not end within so many steps. An error of the program hides one of the
teardown. -/
def execute (settings : Settings) (program : Program) (budget : Nat) :
    Except Fault (Option String) := do
  let m ← new settings
  let main : MachineM (Except Fault Bool × Except Fault Unit) := do
    let ended ← (do load program; run budget).attempt
    return (ended, ← teardown.attempt)
  match main m with
  | .error e _ => .error e
  | .ok (ended, released) m =>
    let done ← ended
    released
    return if done then some m.text else none

end Machine
end GoMachine

import GoMachine.Node
import GoMachine.Thread
import GoMachine.Value.View
/-!
# Snapshots

A snapshot is a picture of the runnable threads after a step, for someone who watches the machine
work: what each is going to do, its operands, and the variables in its scopes. Taking one changes
nothing.
-/
namespace GoMachine

/-- A variable by name, with the text of its value. -/
structure VariableSnapshot where
  name : String
  value : String
  deriving DecidableEq, Repr

/-- One thread: the nodes that it is going to run, the next one first; its operands, the top one
first; and the variables of its scopes, the innermost scope first. -/
structure ThreadSnapshot where
  id : Nat
  control : List String
  stash : List String
  frames : List (List VariableSnapshot)
  deriving DecidableEq, Repr

/-- The runnable threads after a step, in the order in which they will run. -/
structure Snapshot where
  step : Nat
  threads : List ThreadSnapshot
  deriving DecidableEq, Repr

/-- The text of a value, or the description of the record if it has none. -/
def render (a : Address) : Query String := fun h =>
  match display a h with
  | .ok text => .ok text
  | .error _ => .ok (Node.describe a h)

namespace VariableSnapshot

/-- The variables among the entries of a frame, without the builtins. -/
def ofEntries : List (Address × Address) → Query (List VariableSnapshot)
  | [] => return []
  | (key, value) :: rest => do
    if (← Query.tag value) ≠ .variable then return ← ofEntries rest
    let type ← Variable.type value
    if !type.isNil && (← Query.tag type) = .typeBuiltin then return ← ofEntries rest
    let binding : VariableSnapshot := ⟨← Text.toString key, ← render (← Variable.value value)⟩
    return binding :: (← ofEntries rest)

end VariableSnapshot

namespace ThreadSnapshot

/-- The picture of a thread. -/
def capture (t : Address) : Query ThreadSnapshot := do
  let control ← (← Stack.values (← Thread.control t)).mapM fun node h => .ok (Node.describe node h)
  let stash ← (← Stack.values (← Thread.stash t)).mapM render
  let frames ← (← Frame.chain (← Thread.frame t)).mapM fun frame => do
    VariableSnapshot.ofEntries (← Frame.entries frame)
  return { id := ← Thread.id t, control, stash, frames }

/-- The text of the variable that a name stands for in the thread. -/
def binding? (t : ThreadSnapshot) (name : String) : Option String :=
  (t.frames.flatten.find? (·.name == name)).map (·.value)

end ThreadSnapshot

namespace Snapshot

/-- The picture of the threads that a scheduler has. -/
def capture (s : Address) (step : Nat) : Query Snapshot := do
  return { step, threads := ← (← Scheduler.threads s).mapM ThreadSnapshot.capture }

/-- The thread with a number. -/
def thread? (p : Snapshot) (id : Nat) : Option ThreadSnapshot := p.threads.find? (·.id == id)

/-- A variable of a thread, with the text that was seen last. -/
structure Watch where
  thread : Nat
  name : String
  last : Option String := none
  deriving DecidableEq, Repr

/-- Looks at a variable; `some` when the thread is there and the variable has changed. -/
def Watch.look (w : Watch) (p : Snapshot) : Option (Option String) := do
  let now := (← p.thread? w.thread).binding? w.name
  if now = w.last then none else some now

/-- A watched variable, by its position, whose text was found changed after a step. -/
structure Change where
  step : Nat
  watch : Nat
  value : Option String
  deriving DecidableEq, Repr

/-- The changes of watched variables that a snapshot shows, and what was seen last then. -/
def look (p : Snapshot) (ws : List Watch) : List Change × List Watch :=
  let seen := ws.map (·.look p)
  (seen.zipIdx.filterMap fun (now, watch) => now.map (⟨p.step, watch, ·⟩),
    ws.zipWith (fun w now => { w with last := now.getD w.last }) seen)

/-- The changes of watched variables along snapshots, in order. -/
def changes (ws : List Watch) : List Snapshot → List Change
  | [] => []
  | p :: ps =>
    let (found, ws) := p.look ws
    found ++ changes ws ps

end Snapshot
end GoMachine

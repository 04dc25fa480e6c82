import GoMachine.Value.Text
/-!
# Variables, pointers and callable values

A variable is the cell that names, elements and members denote: a record with a type descriptor
and the current value. A pointer has the variable that it points to. A closure has the function
literal and the frame that it was made in; a bound method has a callee and its receiver; a builtin
has its qualified name.
-/
namespace GoMachine

namespace Variable

/-- A variable with new references to its type and value. -/
def create (type value : Address) : Action Address := do
  let var ← HeapM.allocate .variable 0 2
  HeapM.setChild var .variable 0 type
  HeapM.setChild var .variable 1 value
  return var

/-- A variable that takes over the caller's reference to the value. -/
def createOwned (type value : Address) : Action Address :=
  Action.releasing value (create type value)

/-- Fails unless the record is a variable. -/
def check (var : Address) : Query Unit := Query.require var .variable "variable"

/-- The type descriptor, borrowed. -/
def type (var : Address) : Query Address := do
  check var
  Query.child var .variable 0

/-- The current value, borrowed. -/
def value (var : Address) : Query Address := do
  check var
  Query.child var .variable 1

/-- Stores a value with a new reference. -/
def setValue (var value : Address) : Action Unit := do
  check var
  HeapM.setChild var .variable 1 value

/-- Stores a value and takes over the caller's reference to it. -/
def setValueOwned (var value : Address) : Action Unit := do
  Action.orRelease value (check var)
  HeapM.setChildOwned var .variable 1 value

end Variable

namespace Pointer

/-- A pointer to a variable. -/
def create (target : Address) : Action Address := do
  let p ← HeapM.allocate .pointer 0 1
  HeapM.setChild p .pointer 0 target
  return p

/-- The variable that a pointer points to, borrowed. -/
def target (p : Address) : Query Address := do
  match ← Query.tag p with
  | .pointer => Query.child p .pointer 0
  | .nil => throw .nilDereference
  | found => throw (.typeMismatch "pointer" found)

/-- Follows at most so many pointers and variables. -/
def followTo : Nat → Address → Query Address
  | 0, a => return a
  | n + 1, a => do
    match ← Query.tag a with
    | .pointer => followTo n (← target a)
    | .variable => followTo n (← Variable.value a)
    | _ => return a

/-- More hops than there are on a chain of pointers and variables that does not close on itself. -/
def maxHops : Nat := 0x10000000000000000

/-- Follows pointers and variables down to the value that they lead to, borrowed. A chain that
closes on itself leads to no value and is followed without end, which `maxHops` stands for. -/
def follow (a : Address) : Query Address := followTo maxHops a

end Pointer

namespace Closure

/-- A function literal together with the frame that it was evaluated in. -/
def create (literal frame : Address) : Action Address := do
  let f ← HeapM.allocate .function 0 2
  HeapM.setChild f .function 0 literal
  HeapM.setChild f .function 1 frame
  return f

def literal (f : Address) : Query Address := Query.child f .function 0

def frame (f : Address) : Query Address := Query.child f .function 1

end Closure

namespace BoundMethod

/-- A callee together with its receiver. -/
def create (callee receiver : Address) : Action Address := do
  let m ← HeapM.allocate .boundMethod 0 2
  HeapM.setChild m .boundMethod 0 callee
  HeapM.setChild m .boundMethod 1 receiver
  return m

def callee (m : Address) : Query Address := Query.child m .boundMethod 0

def receiver (m : Address) : Query Address := Query.child m .boundMethod 1

end BoundMethod

namespace BuiltinRef

/-- A builtin, known by its qualified name. -/
def create (name : String) : Action Address := do
  let key ← Text.create name
  let b ← Action.orRelease key (HeapM.allocate .builtin 0 1)
  HeapM.setChildOwned b .builtin 0 key
  return b

/-- The qualified name. -/
def name (b : Address) : Query String := do
  match ← Query.tag b with
  | .builtin => Text.toString (← Query.child b .builtin 0)
  | found => throw (.typeMismatch "builtin" found)

end BuiltinRef
end GoMachine

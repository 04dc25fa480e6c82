import GoMachine.Lock
import GoMachine.Value.Aggregate
/-!
# Zero values

Every type has a zero value, which a variable of the type starts with. Those of arrays, structs,
mutexes and wait groups are built anew each time; those of pointers, channels and functions are
nil.

A struct type may contain itself, so that its zero value has no end. Building it runs out of
memory: each array or struct around the one being built occupies a record, and so the depth is
less than the number of words.
-/
namespace GoMachine

/-- The zero value of a type, at most so many arrays and structs deep. -/
def zeroValueTo : Nat → Address → Address → Action Address
  | 0, _, _ => do throw (.heap (.outOfMemory 0 (← get).freeWords))
  | depth + 1, structs, type => do
    let zeroVariable (elem : Address) : Action Address := do
      Variable.createOwned elem (← zeroValueTo depth structs elem)
    match ← Query.tag type with
    | .typeBool => Scalar.newBool false
    | .typeInt32 => Scalar.newInt32 0
    | .typeFloat32 => Scalar.newFloat32 0
    | .typeRune => Scalar.newRune '\x00'
    | .typeString => Text.create ""
    | .typeArray =>
      let elem ← TypeDesc.elem type
      ArrayValue.build (← TypeDesc.arraySize type) fun _ => zeroVariable elem
    | .typeSlice => Slice.create .nil (← TypeDesc.elem type) 0 0 0
    | .typeStruct => StructValue.build zeroVariable (← TypeDesc.resolve structs type)
    | .typeStructDecl => StructValue.build zeroVariable type
    | .typeMutex => Mutex.create
    | .typeWaitGroup => WaitGroup.create
    | .nil | .typeNil | .typeChannel | .typeFunction | .typePointer | .typeBuiltin =>
      return .nil
    | found => throw (.typeMismatch "type descriptor" found)

/-- The zero value of a type, which the caller owns. -/
def zeroValue (structs type : Address) : Action Address := do
  zeroValueTo ((← get).capacity + 1) structs type

/-- A new variable of a type with its zero value. -/
def zeroVariable (structs type : Address) : Action Address := do
  Variable.createOwned type (← zeroValue structs type)

/-- An array of new variables with the zero value of the element type. -/
def ArrayValue.zeroed (structs elem : Address) (size : Nat) : Action Address :=
  ArrayValue.build size fun _ => zeroVariable structs elem

/-- A struct of a declaration whose members have their zero values. -/
def StructValue.zeroed (structs decl : Address) : Action Address :=
  StructValue.build (zeroVariable structs) decl

namespace Slice

/-- A slice of a new array of zero values. -/
def make (structs elem : Address) (size cap : Int) : Action Address := do
  if size < 0 then throw .makeSliceLen
  if cap < size then throw .makeSliceCap
  let array ← ArrayValue.zeroed structs elem cap.toNat
  Action.releasing array (create array elem 0 size.toNat cap.toNat)

/-- The smallest array that `append` makes. -/
def minGrow : Nat := 4

/-- Stores values in variables that are found by index. -/
def store (slot : Nat → Query Address) (values : List Address) : Action Unit :=
  for (value, i) in values.zipIdx do
    Variable.setValue (← slot i) value

/-- A slice with values added at the end. As long as the capacity allows they are stored in the
array of the slice, where other slices of the array see them; otherwise all values go to a new
array. Lengths are words, and a sum of them wraps around. -/
def appendTo (structs s : Address) (values : List Address) : Action Address := do
  let size ← size s
  let cap ← cap s
  let elem ← elemType s
  let needed := (size + values.length).toUInt64.toNat
  if needed ≤ cap then
    store (fun i => slot s (size + i)) values
    let array ← backing s
    let offset ← offset s
    create array elem offset needed cap
  else
    let newCap := max (max (2 * cap).toUInt64.toNat needed) minGrow
    let array ← ArrayValue.zeroed structs elem newCap
    Action.releasing array do
      let old ← Slice.values s
      store (fun i => ArrayValue.element array i) (old ++ values)
      create array elem 0 needed newCap

/-- Like `appendTo`, where nil stands for an empty slice. -/
def append (structs s : Address) (values : List Address) : Action Address := do
  if s.isNil then
    let empty ← create .nil .nil 0 0 0
    Action.releasing empty (appendTo structs empty values)
  else appendTo structs s values

end Slice
end GoMachine

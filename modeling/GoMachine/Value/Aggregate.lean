import GoMachine.Value.Cell
import GoMachine.Value.TypeDesc
/-!
# Arrays, slices and structs

An array has its element variables as children. A slice is a window on an array: its fields are
length, capacity and offset, its children the array and the element type; the nil slice has no
array. A struct has a frame with its member variables and its declaration. All three are shared by
reference, so that an element or member reached in any way is the same variable.

Arrays and structs are built from an action that makes one variable. If it fails, what was built
until then is released.
-/
namespace GoMachine

namespace ArrayValue

/-- Fails unless the record is an array. -/
def check (arr : Address) : Query Unit := Query.require arr .array "array"

/-- An array of so many variables, made in turn from their indices. -/
def build (size : Nat) (make : Nat → Action Address) : Action Address := do
  let arr ← HeapM.allocate .array 0 size
  for i in List.range size do
    let var ← Action.orRelease arr (make i)
    HeapM.setChildOwned arr .array i var
  return arr

/-- An array of new variables that hold the values. -/
def ofValues (elem : Address) (values : List Address) : Action Address :=
  let values := values.toArray
  build values.size fun i => Variable.create elem (values.getD i .nil)

/-- The number of elements. -/
def size (arr : Address) : Query Nat := do
  check arr
  Query.numChildren arr

/-- The variable at an index, borrowed. -/
def element (arr : Address) (i : Int) : Query Address := do
  let size ← size arr
  if i < 0 ∨ size ≤ i then throw (.indexOutOfRange i size)
  Query.child arr .array i.toNat

/-- The values of the elements, borrowed. -/
def values (arr : Address) : Query (List Address) := do
  check arr
  (← Query.children arr).mapM Variable.value

end ArrayValue

/-- Fails unless `low` and `high` bound a window on something of the given capacity. -/
def checkBounds (low high : Int) (cap : Nat) : Except Fault Unit := do
  if high < 0 ∨ cap < high then throw (.sliceBounds high cap)
  if low < 0 ∨ high < low then throw (.invalidSliceIndices low high)

namespace Slice

/-- Fails unless the record is a slice. -/
def check (s : Address) : Query Unit := Query.require s .slice "slice"

/-- A window on an array, with new references to the array and the element type. -/
def create (array elem : Address) (offset size cap : Nat) : Action Address := do
  let s ← HeapM.allocate .slice 3 2
  HeapM.setField s .slice 0 size.toUInt64
  HeapM.setField s .slice 1 cap.toUInt64
  HeapM.setField s .slice 2 offset.toUInt64
  HeapM.setChild s .slice 0 array
  HeapM.setChild s .slice 1 elem
  return s

/-- One of the three fields. -/
def dimension (s : Address) (i : Nat) : Query Nat := do
  check s
  return (← Query.field s .slice i).toNat

def size (s : Address) : Query Nat := dimension s 0

def cap (s : Address) : Query Nat := dimension s 1

def offset (s : Address) : Query Nat := dimension s 2

/-- The array behind a slice, borrowed; nil for the nil slice. -/
def backing (s : Address) : Query Address := do
  check s
  Query.child s .slice 0

/-- The element type, borrowed. -/
def elemType (s : Address) : Query Address := do
  check s
  Query.child s .slice 1

/-- Whether the slice is the nil slice. -/
def isNil (s : Address) : Query Bool := return (← backing s).isNil

/-- The variable at an index that may be beyond the length but not beyond the capacity. Positions
in the array are signed words. -/
def slot (s : Address) (i : Nat) : Query Address := do
  ArrayValue.element (← backing s) (Int64.ofNat ((← offset s) + i)).toInt

/-- The variable at an index, borrowed. -/
def element (s : Address) (i : Int) : Query Address := do
  let size ← size s
  if i < 0 ∨ size ≤ i then throw (.indexOutOfRange i size)
  slot s i.toNat

/-- The values of so many elements from an index on. -/
def valuesFrom (s : Address) (i : Nat) : Nat → Query (List Address)
  | 0 => return []
  | n + 1 => do
    let v ← Variable.value (← element s i)
    return v :: (← valuesFrom s (i + 1) n)

/-- The values in the window, borrowed. -/
def values (s : Address) : Query (List Address) := do
  valuesFrom s 0 (Int64.ofNat (← size s)).toNatClampNeg

/-- The window from `low` to `high` of a window, on the same array. -/
def reslice (s : Address) (low high : Int) : Action Address := do
  let cap ← cap s
  .conclude (checkBounds low high cap)
  let array ← backing s
  let elem ← elemType s
  let offset ← offset s
  create array elem (offset + low.toNat) (high - low).toNat (cap - low.toNat)

/-- The window from `low` to `high` of an array. -/
def ofArray (arr : Address) (low high : Int) : Action Address := do
  let size ← ArrayValue.size arr
  .conclude (checkBounds low high size)
  let elem ← if size = 0 then pure .nil else Variable.type (← Query.child arr .array 0)
  create arr elem low.toNat (high - low).toNat (size - low.toNat)

end Slice

namespace StructValue

/-- Fails unless the record is a struct. -/
def check (s : Address) : Query Unit := Query.require s .struct "struct"

/-- A struct of a declaration, with members made from their types in turn. -/
def build (make : Address → Action Address) (decl : Address) : Action Address := do
  let s ← HeapM.allocate .struct 0 2
  Action.orRelease s do
    HeapM.setChild s .struct 1 decl
    let members ← Frame.create .nil
    HeapM.setChildOwned s .struct 0 members
    for (name, type) in ← TypeDesc.members decl do
      let var ← make type
      Action.releasing var (Frame.insert members name var)
  return s

/-- The declaration, borrowed. -/
def decl (s : Address) : Query Address := do
  check s
  Query.child s .struct 1

/-- The name of the struct type. -/
def typeName (s : Address) : Query String := do TypeDesc.structName (← decl s)

/-- The variable of a member, borrowed. -/
def member (s : Address) (name : String) : Query Address := do
  check s
  match ← Frame.lookupLocal? (← Query.child s .struct 0) name with
  | some var => return var
  | none =>
    let owner := ((typeName s).run (← read)).toOption.getD "struct"
    throw (.noMember owner name)

/-- The variable of the member whose name a string record holds. -/
def memberByKey (s key : Address) : Query Address := do member s (← Text.toString key)

/-- The names and variables of the members in order, borrowed. -/
def members (s : Address) : Query (List (Address × Address)) := do
  check s
  Frame.entries (← Query.child s .struct 0)

end StructValue
end GoMachine

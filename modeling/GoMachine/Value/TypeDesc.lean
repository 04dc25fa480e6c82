import GoMachine.Scope
/-!
# Type descriptors

A type descriptor is a record whose tag says which type. Arrays, slices, channels and pointers
have the descriptor of their element as a child, and arrays their length as a field. A struct type
is known by its name; its declaration has the name and a chain of entries, one for each member in
order. Declarations are found in a frame under a key that no identifier can be.
-/
namespace GoMachine.TypeDesc

/-- The key under which the declaration of a struct type is kept. -/
def structKey (name : String) : String := "STRUCT." ++ name

/-- The key under which a method of a struct type is kept. -/
def methodKey (owner name : String) : String := "METHOD." ++ owner ++ "." ++ name

/-- A descriptor without parts. -/
def simple (tag : Tag) : Action Address := do
  if !tag.isType then throw (.typeMismatch "type descriptor" tag)
  HeapM.allocate tag 0 0

/-- A descriptor with an element type. -/
def withElem (tag : Tag) (fields : Nat) (elem : Address) : Action Address := do
  let type ← HeapM.allocate tag fields 1
  HeapM.setChild type tag 0 elem
  return type

def array (elem : Address) (size : Nat) : Action Address := do
  let type ← withElem .typeArray 1 elem
  HeapM.setField type .typeArray 0 size.toUInt64
  return type

def slice (elem : Address) : Action Address := withElem .typeSlice 0 elem

def channel (elem : Address) : Action Address := withElem .typeChannel 0 elem

def pointer (elem : Address) : Action Address := withElem .typePointer 0 elem

/-- The struct type of a name. -/
def named (name : String) : Action Address := do
  let key ← Text.create name
  let type ← Action.orRelease key (HeapM.allocate .typeStruct 0 1)
  HeapM.setChildOwned type .typeStruct 0 key
  return type

/-- Puts a member in front of those of a declaration. -/
def addMember (decl : Address) (name : String) (type : Address) : Action Unit := do
  let key ← Text.create name
  let first ← Query.child decl .typeStructDecl 1
  let link ← Action.releasing key (Entry.create key type first)
  HeapM.setChildOwned decl .typeStructDecl 1 link

/-- The declaration of a struct type with its members in order. -/
def declare (name : String) (members : List (String × Address)) : Action Address := do
  let decl ← HeapM.allocate .typeStructDecl 0 2
  Action.orRelease decl do
    let key ← Text.create name
    HeapM.setChildOwned decl .typeStructDecl 0 key
    for (member, type) in members.reverse do
      addMember decl member type
  return decl

/-- The element type, borrowed. -/
def elem (type : Address) : Query Address := do
  match ← Query.tag type with
  | .typeArray => Query.child type .typeArray 0
  | .typeSlice => Query.child type .typeSlice 0
  | .typeChannel => Query.child type .typeChannel 0
  | .typePointer => Query.child type .typePointer 0
  | found => throw (.typeMismatch "composite type" found)

/-- The length of an array type. -/
def arraySize (type : Address) : Query Nat := return (← Query.field type .typeArray 0).toNat

/-- The name of a struct type or of its declaration. -/
def structName (type : Address) : Query String := do
  match ← Query.tag type with
  | .typeStruct => Text.toString (← Query.child type .typeStruct 0)
  | .typeStructDecl => Text.toString (← Query.child type .typeStructDecl 0)
  | found => throw (.typeMismatch "struct type" found)

/-- The names and types of a declaration's members in order, borrowed. -/
def members (decl : Address) : Query (List (Address × Address)) := do
  Entry.pairs (← Query.child decl .typeStructDecl 1)

/-- The declaration of a struct name. -/
def lookup (structs : Address) (name : String) : Query Address := do
  match ← Frame.lookupText? structs (structKey name) with
  | some decl => return decl
  | none => throw (.undefined name)

/-- The declaration of a struct type, borrowed. -/
def resolve (structs type : Address) : Query Address := do lookup structs (← structName type)

/-- The spelling of a type of at most the given depth. -/
def describeTo : Nat → Address → Query String
  | 0, _ => return ""
  | depth + 1, type => do
    match ← Query.tag type with
    | .nil | .typeNil => return "nil"
    | .typeBool => return "bool"
    | .typeInt32 => return "int32"
    | .typeFloat32 => return "float32"
    | .typeRune => return "rune"
    | .typeString => return "string"
    | .typeFunction => return "func"
    | .typeMutex => return "mutex"
    | .typeWaitGroup => return "waitgroup"
    | .typeBuiltin => return "builtin"
    | .typeArray =>
      let size ← arraySize type
      return "[" ++ toString size ++ "]" ++ (← describeTo depth (← elem type))
    | .typeSlice => return "[]" ++ (← describeTo depth (← elem type))
    | .typeChannel => return "chan " ++ (← describeTo depth (← elem type))
    | .typePointer => return "*" ++ (← describeTo depth (← elem type))
    | .typeStruct | .typeStructDecl => structName type
    | found => throw (.typeMismatch "type descriptor" found)

/-- The spelling of a type. No type is nested deeper than there are records. -/
def describe (type : Address) : Query String := do describeTo ((← read).liveCount + 1) type

end GoMachine.TypeDesc

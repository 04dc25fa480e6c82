import GoMachine.Builtin
import GoMachine.Channel
import GoMachine.Machine.Turn
import GoMachine.Value.View
/-!
# Nodes for composite values and pointers

Members, methods, elements, windows, construction and pointers. Whatever is selected from is first
followed through pointers and variables. Selecting an element or a member either gives its value
or, where something is assigned, its variable.
-/
namespace GoMachine.Machine

/-- Schedules the second half of a construct, with children that it needs, below its operands. -/
def reduceTo (tag : Tag) (fields : List UInt64) (carried operands : List Address) :
    TurnM Unit := do
  TurnM.pushShared tag fields carried
  TurnM.pushInOrder operands

/-! ## Members and methods -/

/-- Evaluates the object and keeps the name. -/
def selectFrom (tag next : Tag) (node : Address) : TurnM Unit := do
  let object ← Query.child node tag 0
  let name ← Query.child node tag 1
  reduceTo next [] [name] [object]

def member : Address → TurnM Unit := selectFrom .member .memberI

def memberAddress : Address → TurnM Unit := selectFrom .memberAddress .memberAddressI

def methodMember : Address → TurnM Unit := selectFrom .methodMember .methodMemberI

/-- The variable of the member that a node names, borrowed. -/
def memberVariable (node : Address) (tag : Tag) (object : Address) : Query Address := do
  let s ← Pointer.follow object
  if s.isNil then throw .nilDereference
  StructValue.memberByKey s (← Query.child node tag 0)

def memberI (node : Address) : TurnM Unit := do
  let object ← TurnM.popValue
  TurnM.releasing [object] do
    TurnM.pushValue (← Variable.value (← memberVariable node .memberI object))

def memberAddressI (node : Address) : TurnM Unit := do
  let object ← TurnM.popValue
  TurnM.releasing [object] do
    TurnM.pushValue (← memberVariable node .memberAddressI object)

/-- The builtin that is a method of a type. -/
def nativeMethod (owner name : String) : Action Address := do
  let qualified := owner ++ "." ++ name
  if (Builtin.ofName? qualified).isNone then throw (.noMember owner name)
  BuiltinRef.create qualified

/-- The method of a value, which the caller owns: a declared method of its struct type, or a method
of a lock. -/
def methodOf (base : Address) (name : String) : TurnM Address := do
  match ← View.of base with
  | .record .struct s =>
    let owner ← StructValue.typeName s
    match ← Frame.lookupText? (← TurnM.structs) (TypeDesc.methodKey owner name) with
    | some method => HeapM.reference method
    | none => throw (.noMember owner name)
  | .record .mutex _ => nativeMethod "sync.Mutex" name
  | .record .waitGroup _ => nativeMethod "sync.WaitGroup" name
  | .nil => throw .nilDereference
  | v => throw (.noMember v.kind name)

/-- Binds the method that a node names to a receiver. -/
def bindMethod (node receiver : Address) : TurnM Address := do
  let name ← Text.toString (← Query.child node .methodMemberI 0)
  let callee ← methodOf (← Pointer.follow receiver) name
  Action.releasing callee (BoundMethod.create callee receiver)

def methodMemberI (node : Address) : TurnM Unit := do
  let receiver ← TurnM.popValue
  TurnM.pushValueOwned (← TurnM.releasing [receiver] (bindMethod node receiver))

/-! ## Elements and windows -/

/-- Evaluates the object and the index. -/
def evaluateAt (tag next : Tag) (node : Address) : TurnM Unit := do
  let object ← Query.child node tag 0
  let i ← Query.child node tag 1
  reduceTo next [] [] [object, i]

def index : Address → TurnM Unit := evaluateAt .index .indexI

def indexAddress : Address → TurnM Unit := evaluateAt .indexAddress .indexAddressI

/-- The variable of an element, or its value, or the rune of a string; borrowed. -/
def element (object i : Address) (addressable : Bool) : Query Address := do
  let i := (← Scalar.toInt32 i).toInt
  let base ← Pointer.follow object
  let pick (var : Address) : Query Address :=
    if addressable then return var else Variable.value var
  match ← View.of base with
  | .record .array arr => pick (← ArrayValue.element arr i)
  | .record .slice s => pick (← Slice.element s i)
  | .nil => throw (.indexOutOfRange i 0)
  | .record .string s =>
    if addressable then throw (.typeMismatch "array, slice or string" .string)
    else Text.runeAt s i
  | _ => throw (.typeMismatch "array, slice or string" (← Query.tag base))

/-- Selects an element by the index and object on the stash. -/
def indexWith (addressable : Bool) : TurnM Unit := do
  let i ← TurnM.popValue
  let object ← TurnM.popValue
  TurnM.releasing [i, object] do
    TurnM.pushValue (← element object i addressable)

def indexI (_ : Address) : TurnM Unit := indexWith false

def indexAddressI (_ : Address) : TurnM Unit := indexWith true

def sliceExpr (node : Address) : TurnM Unit := do
  let hasLow ← Query.field node .sliceExpr 0
  let hasHigh ← Query.field node .sliceExpr 1
  reduceTo .sliceExprI [hasLow, hasHigh] [] (← Query.children node)

/-- A bound of a window, or the length that stands for it when it is left out. Bounds are signed
words. -/
def boundOr (value : Address) (default : Nat) : Query Int := do
  if value.isNil then return (Int64.ofNat default).toInt
  else return (← Scalar.toInt32 value).toInt

/-- The window from `low` to `high`; nil bounds stand for the start and the end. -/
def window (object low high : Address) : Action Address := do
  let low ← boundOr low 0
  let base ← Pointer.follow object
  match ← View.of base with
  | .record .slice s => Slice.reslice s low (← boundOr high (← Slice.size s))
  | .record .array arr => Slice.ofArray arr low (← boundOr high (← ArrayValue.size arr))
  | .record .string s => Text.substring s low (← boundOr high (← Text.size s))
  | _ => throw (.typeMismatch "array, slice or string" (← Query.tag base))

/-- Takes a bound off the stash if there is one. -/
def popBound (present : UInt64) : TurnM Address :=
  if present = 0 then return .nil else TurnM.popValue

def sliceExprI (node : Address) : TurnM Unit := do
  let high ← popBound (← Query.field node .sliceExprI 1)
  let low ← popBound (← Query.field node .sliceExprI 0)
  let object ← TurnM.popValue
  TurnM.pushValueOwned (← TurnM.releasing [high, low, object] (window object low high))

/-! ## Construction -/

def make (node : Address) : TurnM Unit := do
  let argc ← Query.field node .make 0
  let children ← Query.children node
  reduceTo .makeI [argc] (children.take 1) (children.drop 1)

/-- A new slice or channel with sizes that may be left out. -/
def makeValue (type : Address) (args : List Address) : TurnM Address := do
  let sizes ← (args.mapM (fun a => return (← Scalar.toInt32 a).toInt) : Query (List Int))
  let structs ← TurnM.structs
  match ← Query.tag type with
  | .typeSlice =>
    let elem ← TypeDesc.elem type
    let size := sizes.headD 0
    Slice.make structs elem size (sizes.getD 1 size)
  | .typeChannel =>
    let elem ← TypeDesc.elem type
    Channel.create elem (sizes.headD 0)
  | found => throw (.typeMismatch "slice or channel type" found)

def makeI (node : Address) : TurnM Unit := do
  let argc ← Query.field node .makeI 0
  let type ← Query.child node .makeI 0
  let args ← TurnM.popValues argc.toNat
  TurnM.pushValueOwned (← TurnM.releasing args (makeValue type args))

def zero (node : Address) : TurnM Unit := do
  let type ← Query.child node .zero 0
  TurnM.pushValueOwned (← zeroValue (← TurnM.structs) type)

def constructor (node : Address) : TurnM Unit := do
  let children ← Query.children node
  let elems := children.drop 1
  reduceTo .constructorI [elems.length.toUInt64] (children.take 1) elems

/-- An array whose first elements are given, or a slice of exactly the elements given. -/
def composite (type : Address) (values : List Address) : TurnM Address := do
  let structs ← TurnM.structs
  match ← Query.tag type with
  | .typeArray =>
    let elem ← TypeDesc.elem type
    let size ← TypeDesc.arraySize type
    if size < values.length then throw (.indexOutOfRange size size)
    let arr ← ArrayValue.zeroed structs elem size
    Slice.store (fun i => ArrayValue.element arr i) values
    return arr
  | .typeSlice =>
    let elem ← TypeDesc.elem type
    let arr ← ArrayValue.ofValues elem values
    Action.releasing arr (Slice.create arr elem 0 values.length values.length)
  | found => throw (.typeMismatch "array or slice type" found)

def constructorI (node : Address) : TurnM Unit := do
  let count ← Query.field node .constructorI 0
  let type ← Query.child node .constructorI 0
  let values ← TurnM.popValues count.toNat
  TurnM.pushValueOwned (← TurnM.releasing values (composite type values))

def structLiteral (node : Address) : TurnM Unit := do
  let count ← Query.field node .structLiteral 0
  let children ← Query.children node
  let head := 1 + count.toNat
  reduceTo .structLiteralI [count] (children.take head) (children.drop head)

/-- A struct of the type that a node names, with the values stored in the members it names. -/
def structOf (node : Address) (values : List Address) : TurnM Address := do
  let name ← Text.toString (← Query.child node .structLiteralI 0)
  let structs ← TurnM.structs
  let decl ← TypeDesc.lookup structs name
  let s ← StructValue.zeroed structs decl
  Slice.store (fun i => do
    StructValue.memberByKey s (← Query.child node .structLiteralI (1 + i))) values
  return s

def structLiteralI (node : Address) : TurnM Unit := do
  let count ← Query.field node .structLiteralI 0
  let values ← TurnM.popValues count.toNat
  TurnM.pushValueOwned (← TurnM.releasing values (structOf node values))

/-! ## Pointers -/

def addressOf (node : Address) : TurnM Unit := do
  let operand ← Query.child node .addressOf 0
  TurnM.pushNew .addressOfI [] []
  TurnM.push operand

/-- A pointer to the variable on the stash. Any other value gets a new variable. -/
def addressOfI (_ : Address) : TurnM Unit := do
  let operand ← TurnM.popValue
  let target ← match ← Query.tag operand with
    | .variable => pure operand
    | _ => Variable.createOwned .nil operand
  TurnM.pushValueOwned (← TurnM.releasing [target] (Pointer.create target))

/-- Evaluates the operand. -/
def derefWith (tag next : Tag) (node : Address) : TurnM Unit := do
  let operand ← Query.child node tag 0
  TurnM.pushNew next [] []
  TurnM.push operand

def deref : Address → TurnM Unit := derefWith .deref .derefI

def derefAddress : Address → TurnM Unit := derefWith .derefAddress .derefAddressI

def derefI (_ : Address) : TurnM Unit := do
  let p ← TurnM.popValue
  TurnM.releasing [p] do
    TurnM.pushValue (← Display.pointee (← Pointer.target p))

/-- The variable that a pointer points to, borrowed. -/
def pointedVariable (p : Address) : Query Address := do
  let target ← Pointer.target p
  Variable.check target
  return target

def derefAddressI (_ : Address) : TurnM Unit := do
  let p ← TurnM.popValue
  TurnM.releasing [p] do
    TurnM.pushValue (← pointedVariable p)

end GoMachine.Machine

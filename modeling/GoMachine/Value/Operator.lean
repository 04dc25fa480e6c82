import GoMachine.Syntax
import GoMachine.Value.View
/-!
# Operators on values

Integers wrap around at 32 bits, and runes take part as integers. Values of different kinds can
only be compared for being the same.
-/
namespace GoMachine

namespace FloatBits

/-- Whether the bits are those of no number. -/
def isNaN (a : UInt32) : Bool := 0x7f800000 < a &&& 0x7fffffff

/-- An operation on floats given by their bits. An operand that is no number is the result; an
operation that has no result gives the one no-number with a sign. -/
def apply (op : Float32 → Float32 → Float32) (a b : UInt32) : UInt32 :=
  if isNaN a then a ||| 0x400000
  else if isNaN b then b ||| 0x400000
  else
    let r := op (.ofBits a) (.ofBits b)
    if r.isNaN then 0xffc00000 else r.toBits

/-- The float with the other sign. -/
def neg (a : UInt32) : UInt32 := a ^^^ 0x80000000

end FloatBits

namespace UnaryOp

/-- The result of a unary operator, which the caller owns. -/
def apply (op : UnaryOp) (operand : Address) : Action Address := do
  match op, ← View.of operand with
  | .plus, .int32 _ | .plus, .float32 _ | .plus, .rune _ => HeapM.reference operand
  | .neg, .int32 n => Scalar.newInt32 (-n)
  | .neg, .rune c => Scalar.newInt32 (-c.val.toInt32)
  | .neg, .float32 bits => Scalar.newFloat32 (FloatBits.neg bits)
  | .not, .bool b => Scalar.newBool (!b)
  | op, v => throw (.invalidOperation op.symbol v.kind v.kind)

end UnaryOp

namespace BinaryOp

/-- The fault of an operator that is not defined on two kinds of values. -/
def invalid (op : BinaryOp) (left right : String) : Fault :=
  .invalidOperation op.symbol left right

/-- What a comparison says about two values, given how they compare; nothing for the operators that
do not compare. -/
def holds? (op : BinaryOp) (eq lt gt : Bool) : Option Bool :=
  match op with
  | .eq => some eq
  | .ne => some !eq
  | .lt => some lt
  | .le => some (lt || eq)
  | .gt => some gt
  | .ge => some (gt || eq)
  | _ => none

/-- The result of an operator on integers. -/
def onInts (op : BinaryOp) (a b : Int32) : Action Address := do
  match op.holds? (a == b) (a < b) (b < a) with
  | some truth => Scalar.newBool truth
  | none =>
    match op with
    | .add => Scalar.newInt32 (a + b)
    | .sub => Scalar.newInt32 (a - b)
    | .mul => Scalar.newInt32 (a * b)
    | .div => if b = 0 then throw .divisionByZero else Scalar.newInt32 (a / b)
    | .rem => if b = 0 then throw .divisionByZero else Scalar.newInt32 (a % b)
    | _ => throw (op.invalid "int32" "int32")

/-- The result of an operator on floats given by their bits. -/
def onFloats (op : BinaryOp) (a b : UInt32) : Action Address := do
  let x := Float32.ofBits a
  let y := Float32.ofBits b
  match op.holds? (x == y) (x < y) (y < x) with
  | some truth => Scalar.newBool truth
  | none =>
    match op with
    | .add => Scalar.newFloat32 (FloatBits.apply (· + ·) a b)
    | .sub => Scalar.newFloat32 (FloatBits.apply (· - ·) a b)
    | .mul => Scalar.newFloat32 (FloatBits.apply (· * ·) a b)
    | .div =>
      if y == 0 then throw .floatDivisionByZero
      else Scalar.newFloat32 (FloatBits.apply (· / ·) a b)
    | _ => throw (op.invalid "float32" "float32")

/-- The result of an operator on strings. -/
def onStrings (op : BinaryOp) (a b : Address) : Action Address := do
  match op with
  | .add => Text.concat a b
  | .eq => Scalar.newBool (← Text.equals a b)
  | .ne => Scalar.newBool !(← Text.equals a b)
  | .lt => Scalar.newBool ((← Text.compare a b) == .lt)
  | .le => Scalar.newBool ((← Text.compare a b) != .gt)
  | .gt => Scalar.newBool ((← Text.compare a b) == .gt)
  | .ge => Scalar.newBool ((← Text.compare a b) != .lt)
  | _ => throw (op.invalid "string" "string")

/-- The result of an operator on truth values. -/
def onBools (op : BinaryOp) (a b : Bool) : Action Address := do
  match op with
  | .eq => Scalar.newBool (a == b)
  | .ne => Scalar.newBool (a != b)
  | .and => Scalar.newBool (a && b)
  | .or => Scalar.newBool (a || b)
  | _ => throw (op.invalid "bool" "bool")

/-- Whether two addresses stand for the same value: the same record, pointers to the same variable,
or the nil slice and nil. -/
def identical (left right : Address) : Query Bool := do
  if left = right then return true
  match ← Query.tag left, ← Query.tag right with
  | .pointer, .pointer => return (← Pointer.target left) = (← Pointer.target right)
  | .slice, .nil => Slice.isNil left
  | .nil, .slice => Slice.isNil right
  | _, _ => return false

/-- The result of a binary operator whose operands are both evaluated, which the caller owns. -/
def apply (op : BinaryOp) (left right : Address) : Action Address := do
  let l ← View.of left
  let r ← View.of right
  match l, r with
  | .int32 a, .int32 b => op.onInts a b
  | .int32 a, .rune b => op.onInts a b.val.toInt32
  | .rune a, .int32 b => op.onInts a.val.toInt32 b
  | .rune a, .rune b => op.onInts a.val.toInt32 b.val.toInt32
  | .float32 a, .float32 b => op.onFloats a b
  | .record .string a, .record .string b => op.onStrings a b
  | .bool a, .bool b => op.onBools a b
  | l, r =>
    match op with
    | .eq => Scalar.newBool (← identical left right)
    | .ne => Scalar.newBool !(← identical left right)
    | op => throw (op.invalid l.kind r.kind)

end BinaryOp

/-- Adds one to the number in a variable, or takes one off. -/
def StepOp.apply (op : StepOp) (var : Address) : Action Unit := do
  let next ← match ← View.of (← Variable.value var) with
    | .int32 n => Scalar.newInt32 (match op with | .inc => n + 1 | .dec => n - 1)
    | .float32 bits =>
      let one := (1 : Float32).toBits
      Scalar.newFloat32 <| match op with
        | .inc => FloatBits.apply (· + ·) bits one
        | .dec => FloatBits.apply (· + ·) bits (FloatBits.neg one)
    | v => throw (.invalidOperation op.symbol v.kind v.kind)
  Variable.setValueOwned var next

end GoMachine

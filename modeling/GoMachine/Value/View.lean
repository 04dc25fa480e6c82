import GoMachine.Decimal
import GoMachine.Value.Aggregate
/-!
# Values as programs see them

A view of an address holds the contents of a scalar, and the tag of any other record. `kind` is the
word for it in error messages, and `display` the text that is printed for it: elements are
separated by blanks, a pointer to a struct shows the struct unless it is itself part of a value,
and whatever has no text of its own shows its address.
-/
namespace GoMachine

/-- What is found at an address. -/
inductive View where
  | nil
  | bool (b : Bool)
  | int32 (n : Int32)
  | float32 (bits : UInt32)
  | rune (c : Char)
  | record (tag : Tag) (a : Address)
  deriving DecidableEq

namespace View

/-- The view of an address. -/
def of (a : Address) : Query View := do
  match ← Query.tag a with
  | .nil => return .nil
  | .bool => return .bool (← Scalar.toBool a)
  | .int32 => return .int32 (← Scalar.toInt32 a)
  | .float32 => return .float32 (← Scalar.toFloat32 a)
  | .rune => return .rune (← Scalar.toRune a)
  | tag => return .record tag a

/-- The kind of a record. -/
def kindOfTag (tag : Tag) : String :=
  match tag with
  | .channel => "chan"
  | .function | .boundMethod | .builtin => "func"
  | .waitGroup => "waitgroup"
  | .string => "string"
  | .array => "array"
  | .slice => "slice"
  | .struct => "struct"
  | .pointer => "pointer"
  | .mutex => "mutex"
  | .semaphore => "semaphore"
  | .variable => "variable"
  | .linkedList | .queue => "list"
  | tag =>
    match tag.category with
    | .environment => "environment"
    | .context => "context"
    | .type => "type"
    | _ => "control"

/-- The kind of a value. -/
def kind : View → String
  | nil => "nil"
  | bool _ => "bool"
  | int32 _ => "int32"
  | float32 _ => "float32"
  | rune _ => "rune"
  | record tag _ => kindOfTag tag

end View

/-- An address in hexadecimal digits. -/
def Address.hex (a : Address) : String := "0x" ++ String.ofList (Nat.toDigits 16 a.index)

namespace Display

/-- What a pointer leads to: the value of a variable, or the record itself. -/
def pointee (target : Address) : Query Address := do
  match ← Query.tag target with
  | .variable => Variable.value target
  | _ => return target

/-- The text of a value that is nested at most so deep. -/
def textTo : Nat → (nested : Bool) → Address → Query String
  | 0, _, a => return a.hex
  | depth + 1, nested, a => do
    let items (l : List Address) : Query String := do
      return " ".intercalate (← l.mapM (textTo depth true))
    match ← View.of a with
    | .nil => return "<nil>"
    | .bool b => return if b then "true" else "false"
    | .int32 n => return toString n.toInt
    | .float32 bits => return floatText bits
    | .rune c => return toString c.toNat
    | .record .string s => Text.toString s
    | .record .variable v => textTo depth nested (← Variable.value v)
    | .record .array arr => return "[" ++ (← items (← ArrayValue.values arr)) ++ "]"
    | .record .slice s => return "[" ++ (← items (← Slice.values s)) ++ "]"
    | .record .struct s =>
      let vars := (← StructValue.members s).map Prod.snd
      return "\x7b" ++ (← items vars) ++ "\x7d"
    | .record .pointer p =>
      let target ← Pointer.target p
      let value ← pointee target
      match ← View.of value with
      | .record .struct _ =>
        if nested then return target.hex else return "&" ++ (← textTo depth true value)
      | _ => return target.hex
    | .record _ a => return a.hex

/-- Deeper than values are nested that do not contain themselves. -/
def maxDepth : Nat := 0x10000000000000000

end Display

/-- The text that is printed for a value. One that contains itself other than through a pointer has
no text, and `maxDepth` stands for printing it without end. -/
def display (a : Address) : Query String := Display.textTo Display.maxDepth false a

end GoMachine

/-!
# Programs

The checked tree of a program. Every declaration carries its type, and the declarations are in an
order in which they can be executed. A qualified name such as `fmt.Println` is one name.
-/
namespace GoMachine

/-- Types. A struct type is known by its name. -/
inductive GoType where
  | nil | bool | int32 | float32 | rune | string | func | mutex | waitGroup
  | array (elem : GoType) (size : Nat)
  | slice (elem : GoType)
  | chan (elem : GoType)
  | pointer (elem : GoType)
  | struct (name : String)
  deriving DecidableEq

/-- A name with its type: a parameter, a receiver or a member of a struct. -/
structure Param where
  name : String
  type : GoType
  deriving DecidableEq

inductive UnaryOp where
  | neg | not | plus
  deriving DecidableEq

inductive BinaryOp where
  | add | sub | mul | div | rem | eq | ne | lt | le | gt | ge | and | or
  deriving DecidableEq

/-- The operators of `x++` and `x--`. -/
inductive StepOp where
  | inc | dec
  deriving DecidableEq

/-- Constants. A float is given by its bits. -/
inductive Literal where
  | nil
  | bool (b : Bool)
  | int32 (n : Int32)
  | float32 (bits : UInt32)
  | rune (c : Char)
  | string (s : String)
  deriving DecidableEq

mutual

inductive Expr where
  | literal (value : Literal)
  /-- A variable, a function or a qualified builtin. -/
  | name (name : String)
  | unary (op : UnaryOp) (operand : Expr)
  | binary (op : BinaryOp) (left right : Expr)
  | call (callee : Expr) (args : List Expr)
  | func (params : List Param) (result : Option GoType) (body : List Stmt)
  | member (object : Expr) (name : String)
  /-- The method `name` bound to `object`. -/
  | method (object : Expr) (name : String)
  | index (object index : Expr)
  | slice (object : Expr) (low high : Option Expr)
  | make (type : GoType) (args : List Expr)
  /-- An array or slice with the elements given. -/
  | composite (type : GoType) (elems : List Expr)
  /-- A struct; members left out have their zero value. -/
  | structLit (name : String) (fields : List (String × Expr))
  | addressOf (operand : Expr)
  | deref (operand : Expr)
  | receive (channel : Expr)

inductive Stmt where
  /-- `var name T = value`, and `name := value`. -/
  | declare (name : String) (type : GoType) (value : Option Expr)
  | assign (target value : Expr)
  | step (target : Expr) (op : StepOp)
  | expr (expr : Expr)
  | block (body : List Stmt)
  /-- The alternative is a block or another `if`. -/
  | ifElse (cond : Expr) (body : List Stmt) (otherwise : Option Stmt)
  | forLoop (init : Option Stmt) (cond : Option Expr) (update : Option Stmt) (body : List Stmt)
  | breakLoop
  | continueLoop
  | returnFrom (value : Option Expr)
  | go (callee : Expr) (args : List Expr)
  | send (channel value : Expr)
  | select (cases : List SelectCase)

inductive SelectCase where
  | send (channel value : Expr) (body : List Stmt)
  | receive (channel : Expr) (bind : Binding) (body : List Stmt)
  | default (body : List Stmt)

/-- What a receiving case does with the value. -/
inductive Binding where
  | discard
  | define (name : String) (type : GoType)
  | assign (target : Expr)

end

/-- A function, or a method when there is a receiver. -/
structure FuncDecl where
  receiver : Option Param := none
  name : String
  params : List Param
  result : Option GoType
  body : List Stmt

inductive Decl where
  | var (name : String) (type : GoType) (value : Option Expr)
  | struct (name : String) (members : List Param)
  | func (decl : FuncDecl)

structure Program where
  imports : List String
  decls : List Decl

namespace BinaryOp

/-- How an operator is written. -/
def symbol : BinaryOp → String
  | add => "+" | sub => "-" | mul => "*" | div => "/" | rem => "%" | eq => "==" | ne => "!="
  | lt => "<" | le => "<=" | gt => ">" | ge => ">=" | and => "&&" | or => "||"

/-- Every operator, in the order of the codes. -/
def all : List BinaryOp := [add, sub, mul, div, rem, eq, ne, lt, le, gt, ge, and, or]

/-- The number that stands for an operator in a node. -/
def code : BinaryOp → Nat
  | add => 0 | sub => 1 | mul => 2 | div => 3 | rem => 4 | eq => 5 | ne => 6
  | lt => 7 | le => 8 | gt => 9 | ge => 10 | and => 11 | or => 12

/-- The operator that a number stands for. -/
def ofCode? (n : Nat) : Option BinaryOp := all[n]?

theorem ofCode?_code (op : BinaryOp) : ofCode? op.code = some op := by cases op <;> rfl

/-- Whether the right operand is evaluated only if the left one does not decide. -/
def isLogical : BinaryOp → Bool
  | and | or => true
  | _ => false

end BinaryOp

namespace UnaryOp

/-- How an operator is written. -/
def symbol : UnaryOp → String
  | neg => "-" | not => "!" | plus => "+"

/-- The number that stands for an operator in a node. -/
def code : UnaryOp → Nat
  | neg => 0 | not => 1 | plus => 2

/-- The operator that a number stands for. -/
def ofCode? (n : Nat) : Option UnaryOp := [neg, not, plus][n]?

theorem ofCode?_code (op : UnaryOp) : ofCode? op.code = some op := by cases op <;> rfl

end UnaryOp

namespace StepOp

/-- How an operator is written. -/
def symbol : StepOp → String
  | inc => "++" | dec => "--"

/-- The number that stands for an operator in a node. -/
def code : StepOp → Nat
  | inc => 0 | dec => 1

/-- The operator that a number stands for. -/
def ofCode? (n : Nat) : Option StepOp := [inc, dec][n]?

theorem ofCode?_code (op : StepOp) : ofCode? op.code = some op := by cases op <;> rfl

end StepOp

/-- The function that a program starts with. -/
def Program.main? (p : Program) : Option FuncDecl :=
  p.decls.findSome? fun
    | .func f => if f.receiver.isNone && f.name == "main" then some f else none
    | _ => none

/-- Whether an expression denotes a variable that can be assigned to. -/
def Expr.isAddressable : Expr → Bool
  | .name _ | .member .. | .index .. | .deref _ => true
  | _ => false

/-- `T` for the receiver types `T` and `*T`. -/
def GoType.receiverName? : GoType → Option String
  | .struct name => some name
  | .pointer (.struct name) => some name
  | _ => none

/-- `for i := first; i < last; i++`. -/
def Stmt.range (i : String) (first : Int32) (last : Expr) (body : List Stmt) : Stmt :=
  .forLoop (some (.declare i .int32 (some (.literal (.int32 first)))))
    (some (.binary .lt (.name i) last)) (some (.step (.name i) .inc)) body

end GoMachine

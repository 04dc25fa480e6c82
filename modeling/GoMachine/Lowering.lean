import GoMachine.Builtin
import GoMachine.Node
import GoMachine.Outline
import GoMachine.Value.TypeDesc
import GoMachine.Value.Cell
/-!
# From programs to nodes

`load` turns a program into nodes on the heap and fills the global frame: the builtins that the
program may use, its struct declarations, functions and methods. Global variables are declared when
the program runs: the node that `load` returns declares them in order and then calls `main`.
-/
namespace GoMachine.Lowering

/-- A node with one string. -/
def named (tag : Tag) (name : String) : Action Address := do
  Node.build tag [] [← Text.create name]

/-- A descriptor made from that of an element type. -/
def composed (make : Address → Action Address) (elem : Address) : Action Address :=
  Action.releasing elem (make elem)

/-- The descriptor of a type. -/
def type : GoType → Action Address
  | .nil => TypeDesc.simple .typeNil
  | .bool => TypeDesc.simple .typeBool
  | .int32 => TypeDesc.simple .typeInt32
  | .float32 => TypeDesc.simple .typeFloat32
  | .rune => TypeDesc.simple .typeRune
  | .string => TypeDesc.simple .typeString
  | .func => TypeDesc.simple .typeFunction
  | .mutex => TypeDesc.simple .typeMutex
  | .waitGroup => TypeDesc.simple .typeWaitGroup
  | .array elem size => do composed (TypeDesc.array · size) (← type elem)
  | .slice elem => do composed TypeDesc.slice (← type elem)
  | .chan elem => do composed TypeDesc.channel (← type elem)
  | .pointer elem => do composed TypeDesc.pointer (← type elem)
  | .struct name => TypeDesc.named name

/-- A literal node. -/
def literal (value : Literal) : Action Address := do
  let v ← match value with
    | .nil => pure .nil
    | .bool b => Scalar.newBool b
    | .int32 n => Scalar.newInt32 n
    | .float32 bits => Scalar.newFloat32 bits
    | .rune c => Scalar.newRune c
    | .string s => Text.create s
  Node.build .literal [] [v]

/-- The names and types of parameters, in turn. -/
def params : List Param → Action (List Address)
  | [] => return []
  | p :: ps => do
    let name ← Text.create p.name
    let type ← type p.type
    return name :: type :: (← params ps)

/-- The name and type of a receiver, nil if there is none. -/
def receiver : Option Param → Action (List Address)
  | none => return [.nil, .nil]
  | some p => params [p]

/-- A function literal with a lowered body. -/
def function (body : Address) (rcv : Option Param) (ps : List Param) : Action Address := do
  let rcvParts ← receiver rcv
  let parts ← params ps
  Node.build .functionLit [ps.length.toUInt64, Scalar.wordOfBool rcv.isSome]
    (body :: rcvParts ++ parts)

/-- The string of a loop variable, which a declaration in front of the loop makes. -/
def loopVariable : Option Stmt → Action Address
  | some (.declare name _ _) => Text.create name
  | _ => return .nil

/-- The node of statements that were lowered in turn. -/
def sequence (body : Action (List Address)) : Action Address := do
  Node.build .sequence [] (← body)

/-- The node of a body with a scope of its own. -/
def block (body : Action (List Address)) : Action Address := do
  Node.build .block [] [← sequence body]

/-- The strings of field names. -/
def fieldNames : List (String × Expr) → Action (List Address)
  | [] => return []
  | (name, _) :: fields => do
    let key ← Text.create name
    return key :: (← fieldNames fields)

mutual

/-- The node of an expression. -/
def expr : Expr → Action Address
  | .literal value => literal value
  | .name name => named .name name
  | .unary op operand => do Node.build .unary [op.code.toUInt64] [← expr operand]
  | .binary op left right => do
    let left ← expr left
    let right ← expr right
    Node.build .binary [op.code.toUInt64] [left, right]
  | .call callee args => do
    let callee ← expr callee
    let parts ← exprs args
    Node.build .call [args.length.toUInt64] (callee :: parts)
  | .func ps _ body => do
    function (← sequence (stmts body)) none ps
  | .member object name => do
    let object ← expr object
    Node.build .member [] [object, ← Text.create name]
  | .method object name => do
    let object ← expr object
    Node.build .methodMember [] [object, ← Text.create name]
  | .index object index => do
    let object ← expr object
    Node.build .index [] [object, ← expr index]
  | .slice object low high => do
    let fields := [Scalar.wordOfBool low.isSome, Scalar.wordOfBool high.isSome]
    let object ← expr object
    let low ← optional low
    let high ← optional high
    Node.build .sliceExpr fields [object, low, high]
  | .make ty args => do
    let ty ← type ty
    let parts ← exprs args
    Node.build .make [args.length.toUInt64] (ty :: parts)
  | .composite ty elems => do
    let ty ← type ty
    Node.build .constructor [] (ty :: (← exprs elems))
  | .structLit name fields => do
    let name ← Text.create name
    let keys ← fieldNames fields
    let values ← fieldValues fields
    Node.build .structLiteral [fields.length.toUInt64] (name :: keys ++ values)
  | .addressOf operand => do
    let operand ← if operand.isAddressable then address operand else expr operand
    Node.build .addressOf [] [operand]
  | .deref operand => do Node.build .deref [] [← expr operand]
  | .receive channel => do Node.build .chanReceive [] [← expr channel]

/-- The nodes of expressions, in turn. -/
def exprs : List Expr → Action (List Address)
  | [] => return []
  | e :: es => do
    let node ← expr e
    return node :: (← exprs es)

/-- The node of an expression that may be left out. -/
def optional : Option Expr → Action Address
  | none => return .nil
  | some e => expr e

/-- The nodes of the values of fields, in turn. -/
def fieldValues : List (String × Expr) → Action (List Address)
  | [] => return []
  | (_, e) :: fields => do
    let node ← expr e
    return node :: (← fieldValues fields)

/-- The node that evaluates to the variable that an expression denotes. -/
def address : Expr → Action Address
  | .name name => named .nameAddress name
  | .member object name => do
    let object ← expr object
    Node.build .memberAddress [] [object, ← Text.create name]
  | .index object index => do
    let object ← expr object
    Node.build .indexAddress [] [object, ← expr index]
  | .deref operand => do Node.build .derefAddress [] [← expr operand]
  | e => throw (.notAddressable e.outline.render)

/-- The node of a declaration, whose value is the zero value if there is none. -/
def declaration (name : String) (ty : GoType) : Option Expr → Action Address
  | some value => do
    let ty ← type ty
    let init ← expr value
    Node.build .var [] [← Text.create name, ty, init]
  | none => do
    let ty ← type ty
    let init ← Node.buildShared .zero [] [ty]
    Node.build .var [] [← Text.create name, ty, init]

/-- The node of a statement. -/
def stmt : Stmt → Action Address
  | .declare name ty value => declaration name ty value
  | .assign target value => do
    let target ← address target
    Node.build .assign [] [target, ← expr value]
  | .step target op => do Node.build .postfixOp [op.code.toUInt64] [← address target]
  | .expr e => do Node.build .exprStmt [] [← expr e]
  | .block body => block (stmts body)
  | .ifElse cond body otherwise => do
    let cond ← expr cond
    let body ← block (stmts body)
    Node.build .ifElse [] [cond, body, ← optionalStmt otherwise]
  | .forLoop init cond update body => do
    let loopVar ← loopVariable init
    let init ← optionalStmt init
    let cond ← condition cond
    let update ← optionalStmt update
    let body ← block (stmts body)
    Node.build .forLoop [] [init, cond, update, body, loopVar]
  | .breakLoop => Node.unit .breakLoop
  | .continueLoop => Node.unit .continueLoop
  | .returnFrom value => do Node.build .returnFrom [] [← optional value]
  | .go callee args => do
    let callee ← expr callee
    let parts ← exprs args
    Node.build .goCall [args.length.toUInt64] (callee :: parts)
  | .send channel value => do
    let channel ← expr channel
    Node.build .chanSend [] [channel, ← expr value]
  | .select cs => do
    let hasDefault := cs.any fun | .default _ => true | _ => false
    Node.build .select [Scalar.wordOfBool hasDefault] (← cases cs)

/-- The nodes of statements, in turn. -/
def stmts : List Stmt → Action (List Address)
  | [] => return []
  | s :: ss => do
    let node ← stmt s
    return node :: (← stmts ss)

/-- The node of a statement that may be left out. -/
def optionalStmt : Option Stmt → Action Address
  | none => return .nil
  | some s => stmt s

/-- The node of a loop's condition, which is true if it is left out. -/
def condition : Option Expr → Action Address
  | none => literal (.bool true)
  | some e => expr e

/-- The nodes of the cases of a `select`, in turn. -/
def cases : List SelectCase → Action (List Address)
  | [] => return []
  | c :: cs => do
    let node ← selectCase c
    return node :: (← cases cs)

/-- The node of a case. The body of a receiving case starts with the value on the stash. -/
def selectCase : SelectCase → Action Address
  | .send channel value body => do
    let channel ← expr channel
    let value ← expr value
    Node.build .caseSend [] [channel, value, ← block (stmts body)]
  | .receive channel .discard body => do
    let channel ← expr channel
    let pop ← Node.unit .popI
    let rest ← Node.build .sequence [] [pop, ← block (stmts body)]
    Node.build .caseReceive [] [channel, rest]
  | .receive channel (.define name ty) body => do
    let channel ← expr channel
    let name ← Text.create name
    let ty ← type ty
    let var ← Node.build .varI [] [name, ty]
    let inner ← Node.build .sequence [] (var :: (← stmts body))
    Node.build .caseReceive [] [channel, ← Node.build .block [] [inner]]
  | .receive channel (.assign target) body => do
    let channel ← expr channel
    let target ← address target
    let assign ← Node.unit .assignI
    let rest ← Node.build .sequence [] [target, assign, ← block (stmts body)]
    Node.build .caseReceive [] [channel, rest]
  | .default body => do Node.build .caseDefault [] [← block (stmts body)]

end

/-! ## Declarations -/

/-- The names of members with the descriptors of their types. -/
def members : List Param → Action (List (String × Address))
  | [] => return []
  | p :: ps => do
    let type ← type p.type
    return (p.name, type) :: (← members ps)

/-- Binds the declaration of a struct type in the global frame. -/
def declareStruct (globals : Address) (name : String) (ps : List Param) : Action Unit := do
  let ms ← members ps
  let made ← ActionOn.attempt (TypeDesc.declare name ms)
  for (_, type) in ms do
    HeapM.free type
  let decl ← ActionOn.conclude made
  Action.releasing decl (Frame.insertText globals (TypeDesc.structKey name) decl)

/-- Binds a closure in the global frame: a method under the key of its receiver's type, a function
as a variable of its name. -/
def bindFunction (globals : Address) (decl : FuncDecl) (f : Address) :
    Action (Except Fault Unit) := do
  match decl.receiver with
  | some rcv =>
    match rcv.type.receiverName? with
    | none => throw (.undefined ("receiver type of method " ++ decl.name))
    | some owner =>
      ActionOn.attempt (Frame.insertText globals (TypeDesc.methodKey owner decl.name) f)
  | none =>
    let type ← TypeDesc.simple .typeFunction
    let var ← Action.releasing type (Variable.create type f)
    let bound ← ActionOn.attempt (Frame.insertText globals decl.name var)
    HeapM.free var
    return bound

/-- Binds a function or method in the global frame. -/
def declareFunction (globals : Address) (decl : FuncDecl) : Action Unit := do
  let literal ← function (← sequence (stmts decl.body)) decl.receiver decl.params
  let f ← Action.releasing literal (Closure.create literal globals)
  let bound ← bindFunction globals decl f
  HeapM.free f
  ActionOn.conclude bound

/-- Binds struct types and functions, in the order of their declarations. -/
def declareAll (globals : Address) : List Decl → Action Unit
  | [] => return ()
  | .struct name ps :: decls => do
    declareStruct globals name ps
    declareAll globals decls
  | .func decl :: decls => do
    declareFunction globals decl
    declareAll globals decls
  | .var .. :: decls => declareAll globals decls

/-- The nodes that declare the global variables, in order. -/
def globalVars : List Decl → Action (List Address)
  | [] => return []
  | .var name ty value :: decls => do
    let node ← declaration name ty value
    return node :: (← globalVars decls)
  | _ :: decls => globalVars decls

/-- The names that builtins have in a program with these imports. -/
def visible : List String → Except Fault (List String)
  | [] => return []
  | package :: imports => do
    if !Builtin.isPackage package then throw (.unknownBuiltin package)
    return Builtin.exports package ++ (← visible imports)

/-- Binds the builtins that a program may use in the global frame, as variables of a type of their
own. -/
def linkBuiltins (globals : Address) (imports : List String) : Action Unit := do
  let names ← ActionOn.conclude (visible imports)
  let type ← TypeDesc.simple .typeBuiltin
  for name in Builtin.exports "" ++ names do
    let native ← BuiltinRef.create name
    let var ← Variable.createOwned type native
    Action.releasing var (Frame.insertText globals name var)
  HeapM.free type

/-- Fills the global frame and returns the node that runs the program, which the caller owns. -/
def load (globals : Address) (program : Program) : Action Address := do
  if program.main?.isNone then throw .noMain
  linkBuiltins globals program.imports
  declareAll globals program.decls
  let vars ← globalVars program.decls
  let main ← named .name "main"
  let call ← Node.build .call [0] [main]
  let start ← Node.build .exprStmt [] [call]
  Node.build .sequence [] (vars ++ [start])

end GoMachine.Lowering

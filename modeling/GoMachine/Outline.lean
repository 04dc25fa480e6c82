import GoMachine.Character.Extending
import GoMachine.Character.Unprinted
import GoMachine.Decimal
import GoMachine.Syntax
/-!
# Outlines

Messages show a piece of a program by its structure, on one line: a construct is a word, with its
parts by name in braces or without names in parentheses, and several parts are a list in brackets.
Strings and runes are quoted, and floats always have a point or a power of ten.

`Expr.outline` says what the structure is, and `Outline.render` writes it.
-/
namespace GoMachine

/-- The structure of something. -/
inductive Outline where
  | word (text : String)
  | record (name : String) (parts : List (String × Outline))
  | tuple (name : String) (parts : List Outline)
  | list (parts : List Outline)

namespace Outline

mutual

/-- An outline on one line. -/
def render : Outline → String
  | word text => text
  | record name parts => name ++ " \x7b " ++ ", ".intercalate (renderNamed parts) ++ " \x7d"
  | tuple name parts => name ++ "(" ++ ", ".intercalate (renderAll parts) ++ ")"
  | list parts => "[" ++ ", ".intercalate (renderAll parts) ++ "]"

/-- Outlines, each on its own. -/
def renderAll : List Outline → List String
  | [] => []
  | part :: parts => render part :: renderAll parts

/-- Outlines with their names. -/
def renderNamed : List (String × Outline) → List String
  | [] => []
  | (name, part) :: parts => (name ++ ": " ++ render part) :: renderNamed parts

end

/-! ## Texts and numbers -/

/-- A character inside quotes of a kind. One that would not show as a character of its own is
written as its code point. -/
def quoteChar (quote c : Char) : List Char :=
  if c = '\x00' then ['\\', '0']
  else if c = '\t' then ['\\', 't']
  else if c = '\n' then ['\\', 'n']
  else if c = '\r' then ['\\', 'r']
  else if c = '\\' ∨ c = quote then ['\\', c]
  else if CodeRanges.extending.contains c || CodeRanges.unprinted.contains c then
    ['\\', 'u', '\x7b'] ++ Nat.toDigits 16 c.toNat ++ ['\x7d']
  else [c]

/-- Characters between quotes. -/
def quoted (quote : Char) (cs : List Char) : Outline :=
  word (.ofList (quote :: cs.flatMap (quoteChar quote) ++ [quote]))

/-- A string between quotes. -/
def text (s : String) : Outline := quoted '"' s.toList

/-- A float by its bits: positional for zero and from `1e-4` up to but not including `1e16`. -/
def float (bits : UInt32) : Outline :=
  let sign := if bits < 0x80000000 then "" else "-"
  let size := bits &&& 0x7fffffff
  word <|
    if 0x7f800000 < size then "NaN"
    else if size = 0x7f800000 then sign ++ "inf"
    else if size = 0 then sign ++ "0.0"
    else
      let d := Decimal.shortest (.ofBits size.toNat)
      if size < 0x38d1b717 ∨ 0x5a0e1bca ≤ size then
        sign ++ d.mantissa ++ "e" ++ toString d.power
      else sign ++ d.positional ++ (if 0 ≤ d.exponent then ".0" else "")

/-- Something that may be left out. -/
def option : Option Outline → Outline
  | none => word "None"
  | some part => tuple "Some" [part]

end Outline

/-! ## Pieces of programs -/

def UnaryOp.outline : UnaryOp → Outline
  | neg => .word "Neg"
  | not => .word "Not"
  | plus => .word "Plus"

def BinaryOp.outline : BinaryOp → Outline
  | add => .word "Add"
  | sub => .word "Sub"
  | mul => .word "Mul"
  | div => .word "Div"
  | rem => .word "Rem"
  | eq => .word "Eq"
  | ne => .word "Ne"
  | lt => .word "Lt"
  | le => .word "Le"
  | gt => .word "Gt"
  | ge => .word "Ge"
  | and => .word "And"
  | or => .word "Or"

def StepOp.outline : StepOp → Outline
  | inc => .word "Inc"
  | dec => .word "Dec"

def Literal.outline : Literal → Outline
  | nil => .word "Nil"
  | bool b => .tuple "Bool" [.word (if b then "true" else "false")]
  | int32 n => .tuple "Int32" [.word (toString n.toInt)]
  | float32 bits => .tuple "Float32" [.float bits]
  | rune c => .tuple "Rune" [.quoted '\'' [c]]
  | string s => .tuple "String" [.text s]

def GoType.outline : GoType → Outline
  | nil => .word "Nil"
  | bool => .word "Bool"
  | int32 => .word "Int32"
  | float32 => .word "Float32"
  | rune => .word "Rune"
  | string => .word "String"
  | func => .word "Func"
  | mutex => .word "Mutex"
  | waitGroup => .word "WaitGroup"
  | array elem size => .tuple "Array" [elem.outline, .word (toString size)]
  | slice elem => .tuple "Slice" [elem.outline]
  | chan elem => .tuple "Chan" [elem.outline]
  | pointer elem => .tuple "Pointer" [elem.outline]
  | struct name => .tuple "Struct" [.text name]

def Param.outline (p : Param) : Outline :=
  .record "Param" [("name", .text p.name), ("ty", p.type.outline)]

mutual

def Expr.outline : Expr → Outline
  | .literal value => .record "Literal" [("value", value.outline)]
  | .name name => .record "Name" [("name", .text name)]
  | .unary op operand => .record "Unary" [("op", op.outline), ("operand", operand.outline)]
  | .binary op left right =>
    .record "Binary" [("op", op.outline), ("left", left.outline), ("right", right.outline)]
  | .call callee args =>
    .record "Call" [("callee", callee.outline), ("args", .list (outlineExprs args))]
  | .func params result body =>
    .record "Func" [("lit", .record "FuncLit" [("params", .list (params.map Param.outline)),
      ("result", .option (result.map GoType.outline)), ("body", .list (outlineStmts body))])]
  | .member object name => .record "Member" [("object", object.outline), ("name", .text name)]
  | .method object name => .record "Method" [("object", object.outline), ("name", .text name)]
  | .index object index =>
    .record "Index" [("object", object.outline), ("index", index.outline)]
  | .slice object low high =>
    .record "Slice" [("object", object.outline), ("low", .option (outlineExpr? low)),
      ("high", .option (outlineExpr? high))]
  | .make type args => .record "Make" [("ty", type.outline), ("args", .list (outlineExprs args))]
  | .composite type elems =>
    .record "Composite" [("ty", type.outline), ("elems", .list (outlineExprs elems))]
  | .structLit name fields =>
    .record "StructLit" [("name", .text name), ("fields", .list (outlineFields fields))]
  | .addressOf operand => .record "AddressOf" [("operand", operand.outline)]
  | .deref operand => .record "Deref" [("operand", operand.outline)]
  | .receive channel => .record "Receive" [("channel", channel.outline)]

def outlineExprs : List Expr → List Outline
  | [] => []
  | e :: es => e.outline :: outlineExprs es

def outlineExpr? : Option Expr → Option Outline
  | none => none
  | some e => some e.outline

def outlineFields : List (String × Expr) → List Outline
  | [] => []
  | (name, e) :: fields => .tuple "" [.text name, e.outline] :: outlineFields fields

def Stmt.outline : Stmt → Outline
  | .declare name type value =>
    .record "Var" [("name", .text name), ("ty", type.outline),
      ("value", .option (outlineExpr? value))]
  | .assign target value =>
    .record "Assign" [("target", target.outline), ("value", value.outline)]
  | .step target op => .record "IncDec" [("target", target.outline), ("op", op.outline)]
  | .expr e => .record "Expr" [("expr", e.outline)]
  | .block body => .record "Block" [("body", .list (outlineStmts body))]
  | .ifElse cond body otherwise =>
    .record "If" [("cond", cond.outline), ("then", .list (outlineStmts body)),
      ("otherwise", .option (outlineStmt? otherwise))]
  | .forLoop init cond update body =>
    .record "For" [("init", .option (outlineStmt? init)), ("cond", .option (outlineExpr? cond)),
      ("update", .option (outlineStmt? update)), ("body", .list (outlineStmts body))]
  | .breakLoop => .word "Break"
  | .continueLoop => .word "Continue"
  | .returnFrom value => .record "Return" [("value", .option (outlineExpr? value))]
  | .go callee args =>
    .record "Go" [("callee", callee.outline), ("args", .list (outlineExprs args))]
  | .send channel value =>
    .record "Send" [("channel", channel.outline), ("value", value.outline)]
  | .select cases => .record "Select" [("cases", .list (outlineCases cases))]

def outlineStmts : List Stmt → List Outline
  | [] => []
  | s :: ss => s.outline :: outlineStmts ss

def outlineStmt? : Option Stmt → Option Outline
  | none => none
  | some s => some s.outline

def SelectCase.outline : SelectCase → Outline
  | .send channel value body =>
    .record "Send" [("channel", channel.outline), ("value", value.outline),
      ("body", .list (outlineStmts body))]
  | .receive channel bind body =>
    .record "Receive" [("channel", channel.outline), ("bind", bind.outline),
      ("body", .list (outlineStmts body))]
  | .default body => .record "Default" [("body", .list (outlineStmts body))]

def outlineCases : List SelectCase → List Outline
  | [] => []
  | c :: cs => c.outline :: outlineCases cs

def Binding.outline : Binding → Outline
  | .discard => .word "Discard"
  | .define name type => .record "Define" [("name", .text name), ("ty", type.outline)]
  | .assign target => .record "Assign" [("target", target.outline)]

end

end GoMachine

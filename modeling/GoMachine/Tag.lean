/-!
# Record tags

Every record of the heap starts with a tag saying what it is: a value, a piece of the evaluator's
own state, a type descriptor, or a node of a program. A tag is stored as a 16-bit number; the
numbers are grouped, so that a number alone tells the category.

* `Tag.ofNumber?_number`: a stored tag reads back.
* `Tag.number_of_ofNumber?`: no other number is read as a tag.
-/
namespace GoMachine

/-- What a record is. Of the program nodes, those ending in `I` are the second half of a
construct: they run once the parts of the construct have been evaluated. -/
inductive Tag where
  -- primitives
  | nil | bool | int32 | float32 | rune
  -- composite values
  | string | array | linkedList | queue | function | boundMethod | builtin | pointer | mutex
  | semaphore | waitGroup
  -- environment
  | frame | entry
  -- context
  | control | stash | env | thread | scheduler | waker | waitingInstance
  -- user-level values
  | variable | struct | channel | slice
  -- type descriptors
  | typeNil | typeBool | typeInt32 | typeFloat32 | typeRune | typeString | typeArray
  | typeSlice | typeChannel | typeFunction | typeStruct | typeStructDecl | typePointer
  | typeMutex | typeWaitGroup | typeBuiltin
  -- control nodes
  | literal | name | nameAddress | var | varI | assign | assignI | unary | unaryI | binary
  | binaryI | logicalI | postfixOp | postfixOpI | sequence | block | exitScopeI | ifElse | ifElseI
  | forLoop | forLoopI | markerI | breakLoop | continueLoop | functionLit | call | callI
  | exprStmt | popI | returnFrom | returnFromI | restoreEnvI | goCall | goCallI | member
  | memberI | memberAddress | memberAddressI | methodMember | methodMemberI | index | indexI
  | indexAddress | indexAddressI | sliceExpr | sliceExprI | make | makeI | zero | constructor
  | constructorI | structLiteral | structLiteralI | addressOf | addressOfI | deref | derefI
  | derefAddress | derefAddressI | chanSend | chanSendI | chanReceive | chanReceiveI | select
  | selectI | caseSend | caseReceive | caseDefault
  deriving DecidableEq, Inhabited

namespace Tag

/-- Every tag, in the order of the numbers. -/
def all : List Tag :=
  [.nil, .bool, .int32, .float32, .rune, .string, .array, .linkedList, .queue, .function,
   .boundMethod, .builtin, .pointer, .mutex, .semaphore, .waitGroup, .frame, .entry, .control,
   .stash, .env, .thread, .scheduler, .waker, .waitingInstance, .variable, .struct, .channel,
   .slice, .typeNil, .typeBool, .typeInt32, .typeFloat32, .typeRune, .typeString, .typeArray,
   .typeSlice, .typeChannel, .typeFunction, .typeStruct, .typeStructDecl, .typePointer,
   .typeMutex, .typeWaitGroup, .typeBuiltin, .literal, .name, .nameAddress, .var, .varI,
   .assign, .assignI, .unary, .unaryI, .binary, .binaryI, .logicalI, .postfixOp, .postfixOpI,
   .sequence, .block, .exitScopeI, .ifElse, .ifElseI, .forLoop, .forLoopI, .markerI,
   .breakLoop, .continueLoop, .functionLit, .call, .callI, .exprStmt, .popI, .returnFrom,
   .returnFromI, .restoreEnvI, .goCall, .goCallI, .member, .memberI, .memberAddress,
   .memberAddressI, .methodMember, .methodMemberI, .index, .indexI, .indexAddress,
   .indexAddressI, .sliceExpr, .sliceExprI, .make, .makeI, .zero, .constructor, .constructorI,
   .structLiteral, .structLiteralI, .addressOf, .addressOfI, .deref, .derefI, .derefAddress,
   .derefAddressI, .chanSend, .chanSendI, .chanReceive, .chanReceiveI, .select, .selectI,
   .caseSend, .caseReceive, .caseDefault]

/-- The number that stands for a tag in memory. -/
def number : Tag → Nat
  | .nil => 0 | .bool => 1 | .int32 => 2 | .float32 => 3 | .rune => 4 | .string => 16
  | .array => 17 | .linkedList => 18 | .queue => 19 | .function => 20 | .boundMethod => 21
  | .builtin => 22 | .pointer => 23 | .mutex => 24 | .semaphore => 25 | .waitGroup => 26
  | .frame => 48 | .entry => 49 | .control => 56 | .stash => 57 | .env => 58 | .thread => 59
  | .scheduler => 60 | .waker => 61 | .waitingInstance => 62 | .variable => 72 | .struct => 73
  | .channel => 74 | .slice => 75 | .typeNil => 88 | .typeBool => 89 | .typeInt32 => 90
  | .typeFloat32 => 91 | .typeRune => 92 | .typeString => 93 | .typeArray => 94
  | .typeSlice => 95 | .typeChannel => 96 | .typeFunction => 97 | .typeStruct => 98
  | .typeStructDecl => 99 | .typePointer => 100 | .typeMutex => 101 | .typeWaitGroup => 102
  | .typeBuiltin => 103 | .literal => 128 | .name => 129 | .nameAddress => 130 | .var => 131
  | .varI => 132 | .assign => 133 | .assignI => 134 | .unary => 135 | .unaryI => 136
  | .binary => 137 | .binaryI => 138 | .logicalI => 139 | .postfixOp => 140 | .postfixOpI => 141
  | .sequence => 142 | .block => 143 | .exitScopeI => 144 | .ifElse => 145 | .ifElseI => 146
  | .forLoop => 147 | .forLoopI => 148 | .markerI => 149 | .breakLoop => 150
  | .continueLoop => 151 | .functionLit => 152 | .call => 153 | .callI => 154
  | .exprStmt => 155 | .popI => 156 | .returnFrom => 158 | .returnFromI => 159
  | .restoreEnvI => 160 | .goCall => 161 | .goCallI => 162 | .member => 163 | .memberI => 164
  | .memberAddress => 165 | .memberAddressI => 166 | .methodMember => 167
  | .methodMemberI => 168 | .index => 169 | .indexI => 170 | .indexAddress => 171
  | .indexAddressI => 172 | .sliceExpr => 173 | .sliceExprI => 174 | .make => 175
  | .makeI => 176 | .zero => 177 | .constructor => 178 | .constructorI => 179
  | .structLiteral => 180 | .structLiteralI => 181 | .addressOf => 182 | .addressOfI => 183
  | .deref => 184 | .derefI => 185 | .derefAddress => 186 | .derefAddressI => 187
  | .chanSend => 188 | .chanSendI => 189 | .chanReceive => 190 | .chanReceiveI => 191
  | .select => 192 | .selectI => 193 | .caseSend => 194 | .caseReceive => 195
  | .caseDefault => 196

/-- The word by which messages and listings call a tag. -/
def spelling : Tag → String
  | .nil => "Nil" | .bool => "Bool" | .int32 => "Int32" | .float32 => "Float32"
  | .rune => "Rune" | .string => "String" | .array => "Array" | .linkedList => "LinkedList"
  | .queue => "Queue" | .function => "Function" | .boundMethod => "BoundMethod"
  | .builtin => "Builtin" | .pointer => "Pointer" | .mutex => "Mutex"
  | .semaphore => "Semaphore" | .waitGroup => "WaitGroup" | .frame => "Frame"
  | .entry => "Entry" | .control => "Control" | .stash => "Stash" | .env => "Env"
  | .thread => "Thread" | .scheduler => "Scheduler" | .waker => "Waker"
  | .waitingInstance => "WaitingInstance" | .variable => "Variable" | .struct => "Struct"
  | .channel => "Channel" | .slice => "Slice" | .typeNil => "TypeNil" | .typeBool => "TypeBool"
  | .typeInt32 => "TypeInt32" | .typeFloat32 => "TypeFloat32" | .typeRune => "TypeRune"
  | .typeString => "TypeString" | .typeArray => "TypeArray" | .typeSlice => "TypeSlice"
  | .typeChannel => "TypeChannel" | .typeFunction => "TypeFunction"
  | .typeStruct => "TypeStruct" | .typeStructDecl => "TypeStructDecl"
  | .typePointer => "TypePointer" | .typeMutex => "TypeMutex"
  | .typeWaitGroup => "TypeWaitGroup" | .typeBuiltin => "TypeBuiltin" | .literal => "Literal"
  | .name => "Name" | .nameAddress => "NameAddress" | .var => "Var" | .varI => "VarI"
  | .assign => "Assign" | .assignI => "AssignI" | .unary => "Unary" | .unaryI => "UnaryI"
  | .binary => "Binary" | .binaryI => "BinaryI" | .logicalI => "LogicalI"
  | .postfixOp => "Postfix" | .postfixOpI => "PostfixI" | .sequence => "Sequence"
  | .block => "Block" | .exitScopeI => "ExitScopeI" | .ifElse => "If" | .ifElseI => "IfI"
  | .forLoop => "For" | .forLoopI => "ForI" | .markerI => "MarkerI" | .breakLoop => "Break"
  | .continueLoop => "Continue" | .functionLit => "FunctionLit" | .call => "Call"
  | .callI => "CallI" | .exprStmt => "ExprStmt" | .popI => "PopI" | .returnFrom => "Return"
  | .returnFromI => "ReturnI" | .restoreEnvI => "RestoreEnvI" | .goCall => "GoCall"
  | .goCallI => "GoCallI" | .member => "Member" | .memberI => "MemberI"
  | .memberAddress => "MemberAddress" | .memberAddressI => "MemberAddressI"
  | .methodMember => "MethodMember" | .methodMemberI => "MethodMemberI" | .index => "Index"
  | .indexI => "IndexI" | .indexAddress => "IndexAddress" | .indexAddressI => "IndexAddressI"
  | .sliceExpr => "SliceExpr" | .sliceExprI => "SliceExprI" | .make => "Make"
  | .makeI => "MakeI" | .zero => "Zero" | .constructor => "Constructor"
  | .constructorI => "ConstructorI" | .structLiteral => "StructLiteral"
  | .structLiteralI => "StructLiteralI" | .addressOf => "AddressOf"
  | .addressOfI => "AddressOfI" | .deref => "Deref" | .derefI => "DerefI"
  | .derefAddress => "DerefAddress" | .derefAddressI => "DerefAddressI"
  | .chanSend => "ChanSend" | .chanSendI => "ChanSendI" | .chanReceive => "ChanReceive"
  | .chanReceiveI => "ChanReceiveI" | .select => "Select" | .selectI => "SelectI"
  | .caseSend => "CaseSend" | .caseReceive => "CaseReceive" | .caseDefault => "CaseDefault"

/-- One more than the largest tag number. -/
def tableSize : Nat := 197

/-- The tag of each number below `tableSize`. -/
def table : Array (Option Tag) :=
  ((List.range tableSize).map fun n => all.find? (·.number == n)).toArray

/-- The tag that a number stands for, if any. -/
def ofNumber? (n : Nat) : Option Tag := table[n]?.join

theorem mem_all (t : Tag) : t ∈ all := by
  cases t <;> decide

theorem number_lt (t : Tag) : t.number < tableSize := by
  cases t <;> decide

theorem number_of_ofNumber? {n : Nat} {t : Tag} (h : ofNumber? n = some t) : t.number = n := by
  simp only [ofNumber?, table, List.getElem?_toArray, List.getElem?_map, Option.join_eq_some_iff,
    Option.map_eq_some_iff] at h
  obtain ⟨m, hm, h⟩ := h
  have := (List.getElem?_eq_some_iff.1 hm).2
  have := List.find?_some h
  simp_all

theorem ofNumber?_number (t : Tag) : ofNumber? t.number = some t := by
  have h : ∀ t ∈ all, all.find? (·.number == t.number) = some t := by decide +kernel
  simp [ofNumber?, table, number_lt, h t (mem_all t)]

/-- The groups into which tag numbers fall. -/
inductive Category where
  | primitive | complex | environment | context | user | type | control
  deriving DecidableEq, Repr

/-- The word for a category in listings. -/
def Category.spelling : Category → String
  | .primitive => "Primitive" | .complex => "Complex" | .environment => "Environment"
  | .context => "Context" | .user => "User" | .type => "Type" | .control => "Control"

/-- The category is read off the number. -/
def category (t : Tag) : Category :=
  if t.number < 16 then .primitive
  else if t.number < 48 then .complex
  else if t.number < 56 then .environment
  else if t.number < 72 then .context
  else if t.number < 88 then .user
  else if t.number < 128 then .type
  else .control

/-- Whether the tag is that of a program node. -/
def isControl (t : Tag) : Bool := t.category = .control

/-- Whether the tag is that of a type descriptor. -/
def isType (t : Tag) : Bool := t.category = .type

end Tag
end GoMachine

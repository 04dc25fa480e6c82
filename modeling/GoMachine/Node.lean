import GoMachine.Fault
import GoMachine.Syntax
/-!
# Program nodes

A program is evaluated in the form of records, one for each construct. The tag says which; operator
codes and counts are fields, and the parts are children, some of which may be nil. Nodes whose tag
ends in `I` are made during the evaluation and run once the parts of their construct were evaluated:

| node | fields | children |
|---|---|---|
| `literal` | | value |
| `name`, `nameAddress` | | name |
| `var` | | name, type, initial value |
| `varI` | | name, type |
| `assign` | | target, value |
| `unary`, `binary`, `postfixOp` | operator | operands |
| `logicalI` | operator | right operand |
| `sequence` | | statements |
| `block` | | body |
| `ifElse` | | condition, body, alternative |
| `ifElseI` | | body, alternative |
| `forLoop` | | initial statement, condition, update, body, loop variable |
| `forLoopI` | | condition, update, body, marker, loop variable, four nodes that copy it back |
| `functionLit` | parameter count, has receiver | body, then name and type of receiver and
parameters |
| `call`, `goCall` | argument count | callee, arguments |
| `callI`, `goCallI` | argument count | |
| `exprStmt` | | expression |
| `returnFrom` | | value |
| `restoreEnvI` | | frame |
| `member`, `memberAddress`, `methodMember` | | object, name |
| `memberI`, `memberAddressI`, `methodMemberI` | | name |
| `index`, `indexAddress` | | object, index |
| `sliceExpr` | has low, has high | object, low, high |
| `make` | argument count | type, arguments |
| `zero` | | type |
| `constructor` | | type, elements |
| `structLiteral` | count | struct name, field names, values |
| `addressOf`, `deref`, `derefAddress` | | operand |
| `chanSend` | | channel, value |
| `chanReceive` | | channel |
| `select`, `selectI` | has default | cases |
| `caseSend` | | channel, value, body |
| `caseReceive` | | channel, body |
| `caseDefault` | | body |
-/
namespace GoMachine.Node

/-- Stores the fields of a new node. -/
def setFields (node : Address) (tag : Tag) (fields : List UInt64) : Action Unit :=
  for (w, i) in fields.zipIdx do
    HeapM.setField node tag i w

/-- A node that takes over the caller's references to its children. They are dropped if there is no
memory left. -/
def build (tag : Tag) (fields : List UInt64) (children : List Address) : Action Address := do
  match ← ActionOn.attempt (HeapM.allocate tag fields.length children.length) with
  | .ok node =>
    setFields node tag fields
    for (child, i) in children.zipIdx do
      HeapM.setChildOwned node tag i child
    return node
  | .error e =>
    for child in children do
      HeapM.free child
    throw e

/-- A node with new references to its children. -/
def buildShared (tag : Tag) (fields : List UInt64) (children : List Address) :
    Action Address := do
  let node ← HeapM.allocate tag fields.length children.length
  setFields node tag fields
  for (child, i) in children.zipIdx do
    HeapM.setChild node tag i child
  return node

/-- A node without parts. -/
def unit (tag : Tag) : Action Address := HeapM.allocate tag 0 0

/-- The operator in the first field of a node. -/
def operator (ofCode? : Nat → Option α) (arity : String) (node : Address) (tag : Tag) :
    Query α := do
  let code := (← Query.field node tag 0).toUInt8.toNat
  match ofCode? code with
  | some op => return op
  | none => throw (.undefined (arity ++ " operator " ++ toString code))

def unaryOp (node : Address) (tag : Tag) : Query UnaryOp :=
  operator UnaryOp.ofCode? "unary" node tag

def binaryOp (node : Address) (tag : Tag) : Query BinaryOp :=
  operator BinaryOp.ofCode? "binary" node tag

def stepOp (node : Address) (tag : Tag) : Query StepOp :=
  operator StepOp.ofCode? "postfix" node tag

/-- The words of a name in lower case, joined by underscores. -/
def snakeCase (name : String) : String :=
  .ofList (name.toList.zipIdx.flatMap fun (c, i) =>
    if c.isUpper then (if i = 0 then [c.toLower] else ['_', c.toLower]) else [c])

/-- A short text for a record, for messages and listings. -/
def describe (node : Address) : Heap → String := fun h =>
  match h.tag node with
  | .ok tag => snakeCase tag.spelling
  | .error _ => s!"<released {node.text}>"

end GoMachine.Node

import Mathlib
import GoMachine.Heap.Error
import GoMachine.Tag
/-!
# Code

The nodes of a program are records that nothing writes once they are built. `Code` is what such a
record says together with the nodes below it, as a tree. This module says which trees come of
programs, by what they do to the stash:

* `Eval c m n`: the node takes `m` operands and leaves `n`, whatever lies below them, and control
  goes on behind it. So do expressions, the second halves of constructs, and declarations.
* `Acts c m`: the node takes `m` operands and leaves none, and may leave the loop or the call that
  it stands in. It runs where a call has no operands of its own besides.
* `Runs c m`: one of the two, as a body is.

Most constructs come in two halves (`Tag.split?`): the first schedules the operands and, below them,
the second, which takes as many operands off the stash as `Tag.operands?` says. `Expands` lists what
nodes turn into, apart from those that open or close scopes, unwind, enter or wait.
-/
namespace GoMachine

/-- What a node says, with the nodes below it. -/
inductive Code where
  /-- Something that is no node: a string, a value, a type. -/
  | data
  /-- A part that is left out. -/
  | nothing
  /-- A frame and those around it, the innermost first. -/
  | scope (line : List Address)
  | node (tag : Tag) (fields : List UInt64) (children : List Address) (parts : List Code)

namespace Code

/-- The tag of a node; that of nil for anything else. -/
def tag : Code → Tag
  | node t _ _ _ => t
  | _ => .nil

/-- Whether a part is there. -/
def isThere : Code → Bool
  | nothing => false
  | _ => true

/-- How many operands a case of a `select` has. -/
def caseOperands (c : Code) : Nat :=
  match c.tag with
  | .caseSend => 2
  | .caseReceive => 1
  | _ => 0

/-- The operands of a case, in the order in which they are evaluated. -/
def caseParts : Code → List Code
  | node .caseSend _ _ (ch :: value :: _) => [ch, value]
  | node .caseReceive _ _ (ch :: _) => [ch]
  | _ => []

end Code

/-- One if a word says that something is there. -/
def flagCount (w : UInt64) : Nat := if w = 0 then 0 else 1

/-- How many operands a node takes off the stash and how many it leaves there, if it does nothing
else. -/
def Tag.operands? : Tag → List UInt64 → Option (Nat × Nat)
  | .literal, _ | .name, _ | .nameAddress, _ | .zero, _ => some (0, 1)
  | .varI, _ | .postfixOpI, _ | .popI, _ => some (1, 0)
  | .assignI, _ => some (2, 0)
  | .unaryI, _ | .memberI, _ | .memberAddressI, _ | .methodMemberI, _ => some (1, 1)
  | .addressOfI, _ | .derefI, _ | .derefAddressI, _ | .chanReceiveI, _ => some (1, 1)
  | .binaryI, _ | .indexI, _ | .indexAddressI, _ => some (2, 1)
  | .callI, [argc] => some (argc.toNat + 1, 1)
  | .goCallI, [argc] => some (argc.toNat + 1, 0)
  | .sliceExprI, [low, high] => some (1 + flagCount low + flagCount high, 1)
  | .makeI, [argc] => some (argc.toNat, 1)
  | .constructorI, [count] | .structLiteralI, [count] => some (count.toNat, 1)
  | _, _ => none

/-- The second half of a construct with its fields, and the operands that are evaluated before it.
-/
def Tag.split? : Tag → List UInt64 → List Code → Option (Tag × List UInt64 × List Code)
  | .var, _, [_, _, init] => some (.varI, [], [init])
  | .assign, _, [target, value] => some (.assignI, [], [value, target])
  | .unary, [op], [operand] => some (.unaryI, [op], [operand])
  | .binary, [op], [left, right] => some (.binaryI, [op], [left, right])
  | .postfixOp, [op], [target] => some (.postfixOpI, [op], [target])
  | .call, [argc], parts => some (.callI, [argc], parts)
  | .goCall, [argc], parts => some (.goCallI, [argc], parts)
  | .exprStmt, _, [expr] => some (.popI, [], [expr])
  | .member, _, [object, _] => some (.memberI, [], [object])
  | .memberAddress, _, [object, _] => some (.memberAddressI, [], [object])
  | .methodMember, _, [object, _] => some (.methodMemberI, [], [object])
  | .index, _, [object, i] => some (.indexI, [], [object, i])
  | .indexAddress, _, [object, i] => some (.indexAddressI, [], [object, i])
  | .sliceExpr, [low, high], parts => some (.sliceExprI, [low, high], parts.filter Code.isThere)
  | .make, [argc], parts => some (.makeI, [argc], parts.drop 1)
  | .constructor, _, parts =>
    some (.constructorI, [(parts.drop 1).length.toUInt64], parts.drop 1)
  | .structLiteral, [count], parts =>
    some (.structLiteralI, [count], parts.drop (1 + count.toNat))
  | .addressOf, _, [operand] => some (.addressOfI, [], [operand])
  | .deref, _, [operand] => some (.derefI, [], [operand])
  | .derefAddress, _, [operand] => some (.derefAddressI, [], [operand])
  | .chanReceive, _, [operand] => some (.chanReceiveI, [], [operand])
  | _, _, _ => none

mutual

/-- A node that takes so many operands and leaves so many, and then control goes on behind it. -/
inductive Eval : Code → Nat → Nat → Prop
  | simple {t fs cs ps m n} : t.operands? fs = some (m, n) → Eval (.node t fs cs ps) m n
  | split {t fs cs ps t' fs' ops n} : t.split? fs ps = some (t', fs', ops) →
    (∀ p ∈ ops, Eval p 0 1) → t'.operands? fs' = some (ops.length, n) → Eval (.node t fs cs ps) 0 n
  | logicalI {fs cs right} : Eval right 0 1 → Eval (.node .logicalI fs cs [right]) 1 1
  | functionLit {fs cs body ps} : Runs body 0 → Eval (.node .functionLit fs cs (body :: ps)) 0 1
  | sequence {fs cs ps} : (∀ p ∈ ps, Eval p 0 0) → Eval (.node .sequence fs cs ps) 0 0

/-- A node that takes so many operands and leaves none, and may leave its loop or call. -/
inductive Acts : Code → Nat → Prop
  | sequence {fs cs ps m} : Chunk ps m → Acts (.node .sequence fs cs ps) m
  | block {fs cs body m} : Runs body m → Acts (.node .block fs cs [body]) m
  | ifElse {fs cs cond body other} : Eval cond 0 1 → Runs body 0 →
    (other ≠ .nothing → Runs other 0) → Acts (.node .ifElse fs cs [cond, body, other]) 0
  | ifElseI {fs cs body other} : Runs body 0 → (other ≠ .nothing → Runs other 0) →
    Acts (.node .ifElseI fs cs [body, other]) 1
  | forLoop {fs cs init cond update body var} : (init ≠ .nothing → Runs init 0) → Eval cond 0 1 →
    (update ≠ .nothing → Runs update 0) → Runs body 0 →
    Acts (.node .forLoop fs cs [init, cond, update, body, var]) 0
  | breakLoop {fs cs ps} : Acts (.node .breakLoop fs cs ps) 0
  | continueLoop {fs cs ps} : Acts (.node .continueLoop fs cs ps) 0
  | returnFrom {fs cs value} : (value ≠ .nothing → Eval value 0 1) →
    Acts (.node .returnFrom fs cs [value]) 0
  | chanSend {fs cs channel value} : Eval channel 0 1 → Eval value 0 1 →
    Acts (.node .chanSend fs cs [channel, value]) 0
  | chanSendI {fs cs ps} : Acts (.node .chanSendI fs cs ps) 2
  | select {fs cs ps} : (∀ p ∈ ps, Clause p) → Acts (.node .select fs cs ps) 0
  | selectI {fs cs ps m} : (∀ p ∈ ps, Clause p) → m = (ps.map Code.caseOperands).sum →
    Acts (.node .selectI fs cs ps) m

/-- A body: it takes so many operands and leaves none. -/
inductive Runs : Code → Nat → Prop
  | eval {c m} : Eval c m 0 → Runs c m
  | stmt {c m} : Acts c m → Runs c m

/-- Nodes that together take so many operands and leave none. -/
inductive Chunk : List Code → Nat → Prop
  | nil : Chunk [] 0
  | eval {c cs m n d} : Eval c m n → Chunk cs (d + n) → Chunk (c :: cs) (d + m)
  | stmt {c cs m} : Acts c m → Chunk cs 0 → Chunk (c :: cs) m

/-- A case of a `select`. -/
inductive Clause : Code → Prop
  | send {fs cs channel value body} : Eval channel 0 1 → Eval value 0 1 → Runs body 0 →
    Clause (.node .caseSend fs cs [channel, value, body])
  | receive {fs cs channel body} : Eval channel 0 1 → Runs body 1 →
    Clause (.node .caseReceive fs cs [channel, body])
  | default {fs cs body} : Runs body 0 → Clause (.node .caseDefault fs cs [body])

end

/-- The variable of a loop, and the nodes that read that of one turn, close its scope and write the
value back; none if the loop has no variable. -/
inductive CopiesBack : Code → List Code → Prop
  | none : CopiesBack .nothing [.nothing, .nothing, .nothing, .nothing]
  | some {var read fs cs ps target assign} : Eval read 0 1 → read.tag = .name → Eval target 0 1 →
    target.tag = .nameAddress → Eval assign 2 0 → assign.tag = .assignI →
    CopiesBack var [read, .node .exitScopeI fs cs ps, target, assign]

/-- The node that decides on each turn of a loop. -/
inductive Loop : Code → Prop
  | intro {fs cs cond update body fs' cs' ps' var copies} : Eval cond 0 1 →
    (update ≠ .nothing → Runs update 0) → Runs body 0 → CopiesBack var copies →
    Loop (.node .forLoopI fs cs
    (cond :: update :: body :: .node .markerI fs' cs' ps' :: var :: copies))

/-- What a node turns into when it runs: it takes so many operands, leaves so many, and schedules
nodes. -/
inductive Expands : Code → Nat → Nat → List Code → Prop
  | simple {t fs cs ps m n} : t.operands? fs = some (m, n) → Expands (.node t fs cs ps) m n []
  | split {t fs cs ps t' fs' fs'' ops cs' ps'} : t.split? fs ps = some (t', fs', ops) →
    t'.operands? fs'' = t'.operands? fs' →
    Expands (.node t fs cs ps) 0 0 (ops ++ [.node t' fs'' cs' ps'])
  | functionLit {fs cs ps} : Expands (.node .functionLit fs cs ps) 0 1 []
  | logical {fs cs left right fs' cs'} :
    Expands (.node .binary fs cs [left, right]) 0 0 [left, .node .logicalI fs' cs' [right]]
  | decided {fs cs right} : Expands (.node .logicalI fs cs [right]) 1 1 []
  | undecided {fs cs right} : Expands (.node .logicalI fs cs [right]) 1 0 [right]
  | sequence {fs cs ps} : Expands (.node .sequence fs cs ps) 0 0 ps
  | ifElse {fs cs cond body other fs' cs'} : Expands (.node .ifElse fs cs [cond, body, other]) 0 0
    [cond, .node .ifElseI fs' cs' [body, other]]
  | taken {fs cs body other} : Expands (.node .ifElseI fs cs [body, other]) 1 0 [body]
  | otherwise {fs cs body other} : Expands (.node .ifElseI fs cs [body, other]) 1 0
    ([other].filter Code.isThere)
  | ended {fs cs ps} : Expands (.node .forLoopI fs cs ps) 1 0 []
  | turn {fs cs cond update body marker var copies} :
    Expands (.node .forLoopI fs cs (cond :: update :: body :: marker :: var :: copies)) 1 0
      (body :: marker :: ([update].filter Code.isThere ++
        [cond, .node .forLoopI fs cs (cond :: update :: body :: marker :: var :: copies)]))
  | marker {fs cs ps} : Expands (.node .markerI fs cs ps) 0 0 []
  | returnNil {fs cs fs' cs' ps'} : Expands (.node .returnFrom fs cs [.nothing]) 0 1
    [.node .returnFromI fs' cs' ps']
  | returnValue {fs cs value fs' cs' ps'} : value ≠ .nothing →
    Expands (.node .returnFrom fs cs [value]) 0 0 [value, .node .returnFromI fs' cs' ps']
  | chanSend {fs cs ps fs' cs' ps'} : Expands (.node .chanSend fs cs ps) 0 0
    (ps ++ [.node .chanSendI fs' cs' ps'])
  | chanSendI {fs cs ps} : Expands (.node .chanSendI fs cs ps) 2 0 []
  | select {fs cs ps fs' cs'} : Expands (.node .select fs cs ps) 0 0
    (ps.flatMap Code.caseParts ++ [.node .selectI fs' cs' ps])
  | sent {fs cs ps fs' cs' channel value body} :
    .node .caseSend fs' cs' [channel, value, body] ∈ ps →
    Expands (.node .selectI fs cs ps) (ps.map Code.caseOperands).sum 0 [body]
  | received {fs cs ps fs' cs' channel body} : .node .caseReceive fs' cs' [channel, body] ∈ ps →
    Expands (.node .selectI fs cs ps) (ps.map Code.caseOperands).sum 1 [body]
  | default {fs cs ps bodies} : (∀ b ∈ bodies, ∃ fs' cs', .node .caseDefault fs' cs' [b] ∈ ps) →
    bodies.length ≤ 1 → Expands (.node .selectI fs cs ps) (ps.map Code.caseOperands).sum 0 bodies

/-- What a node schedules that opens a scope: it takes so many operands, and the nodes above the one
that closes the scope run inside. -/
inductive Opens : Code → Nat → List Code → List Code → Prop
  | block {fs cs body} : Opens (.node .block fs cs [body]) 0 [body] []
  | forLoop {fs cs init cond update body var var' fs' cs' fs'' cs'' ps'' copies} :
      CopiesBack var' copies →
    Opens (.node .forLoop fs cs [init, cond, update, body, var]) 0
      ([init].filter Code.isThere ++ [cond, .node .forLoopI fs' cs'
        (cond :: update :: body :: .node .markerI fs'' cs'' ps'' :: var' :: copies)]) []
  | turn {fs cs cond update body marker var read exit target assign} : read ≠ .nothing →
    Opens (.node .forLoopI fs cs [cond, update, body, marker, var, read, exit, target, assign]) 1
      [body, marker, read] (target :: assign :: ([update].filter Code.isThere ++
        [cond, .node .forLoopI fs cs [cond, update, body, marker, var, read, exit, target,
        assign]]))

end GoMachine

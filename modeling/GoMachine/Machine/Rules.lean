import GoMachine.Machine.Calls
import GoMachine.Machine.Communication
import GoMachine.Machine.Composite
import GoMachine.Machine.Flow
import GoMachine.Machine.Names
/-!
# The rule for each node

After a sequential rule the thread is made runnable again; a scheduling rule sees to that itself.
-/
namespace GoMachine

/-- What a node does, and whether the thread goes on by itself. -/
inductive Rule where
  | sequential (run : Address → TurnM Unit)
  | scheduling (run : Address → TurnM Unit)

namespace Rule

/-- The rule for the nodes with a tag. Cases have none: they are parts of a `select`. -/
def ofTag? : Tag → Option Rule
  | .literal => some (.sequential Machine.literal)
  | .name => some (.sequential Machine.name)
  | .nameAddress => some (.sequential Machine.nameAddress)
  | .var => some (.sequential Machine.var)
  | .varI => some (.sequential Machine.varI)
  | .assign => some (.sequential Machine.assign)
  | .assignI => some (.sequential Machine.assignI)
  | .unary => some (.sequential Machine.unary)
  | .unaryI => some (.sequential Machine.unaryI)
  | .binary => some (.sequential Machine.binary)
  | .binaryI => some (.sequential Machine.binaryI)
  | .logicalI => some (.sequential Machine.logicalI)
  | .postfixOp => some (.sequential Machine.postfixOp)
  | .postfixOpI => some (.sequential Machine.postfixOpI)
  | .sequence => some (.sequential Machine.sequence)
  | .block => some (.sequential Machine.block)
  | .exitScopeI => some (.sequential Machine.exitScopeI)
  | .ifElse => some (.sequential Machine.ifElse)
  | .ifElseI => some (.sequential Machine.ifElseI)
  | .forLoop => some (.sequential Machine.forLoop)
  | .forLoopI => some (.sequential Machine.forLoopI)
  | .markerI => some (.sequential Machine.markerI)
  | .breakLoop => some (.sequential Machine.breakLoop)
  | .continueLoop => some (.sequential Machine.continueLoop)
  | .exprStmt => some (.sequential Machine.exprStmt)
  | .popI => some (.sequential Machine.popI)
  | .functionLit => some (.sequential Machine.functionLit)
  | .call => some (.sequential Machine.call)
  | .callI => some (.scheduling Machine.callI)
  | .returnFrom => some (.sequential Machine.returnFrom)
  | .returnFromI => some (.sequential Machine.returnFromI)
  | .restoreEnvI => some (.sequential Machine.restoreEnvI)
  | .goCall => some (.sequential Machine.goCall)
  | .goCallI => some (.scheduling Machine.goCallI)
  | .member => some (.sequential Machine.member)
  | .memberI => some (.sequential Machine.memberI)
  | .memberAddress => some (.sequential Machine.memberAddress)
  | .memberAddressI => some (.sequential Machine.memberAddressI)
  | .methodMember => some (.sequential Machine.methodMember)
  | .methodMemberI => some (.sequential Machine.methodMemberI)
  | .index => some (.sequential Machine.index)
  | .indexI => some (.sequential Machine.indexI)
  | .indexAddress => some (.sequential Machine.indexAddress)
  | .indexAddressI => some (.sequential Machine.indexAddressI)
  | .sliceExpr => some (.sequential Machine.sliceExpr)
  | .sliceExprI => some (.sequential Machine.sliceExprI)
  | .make => some (.sequential Machine.make)
  | .makeI => some (.sequential Machine.makeI)
  | .zero => some (.sequential Machine.zero)
  | .constructor => some (.sequential Machine.constructor)
  | .constructorI => some (.sequential Machine.constructorI)
  | .structLiteral => some (.sequential Machine.structLiteral)
  | .structLiteralI => some (.sequential Machine.structLiteralI)
  | .addressOf => some (.sequential Machine.addressOf)
  | .addressOfI => some (.sequential Machine.addressOfI)
  | .deref => some (.sequential Machine.deref)
  | .derefI => some (.sequential Machine.derefI)
  | .derefAddress => some (.sequential Machine.derefAddress)
  | .derefAddressI => some (.sequential Machine.derefAddressI)
  | .chanSend => some (.sequential Machine.chanSend)
  | .chanSendI => some (.scheduling Machine.chanSendI)
  | .chanReceive => some (.sequential Machine.chanReceive)
  | .chanReceiveI => some (.scheduling Machine.chanReceiveI)
  | .select => some (.sequential Machine.select)
  | .selectI => some (.scheduling Machine.selectI)
  | _ => none

end Rule
end GoMachine

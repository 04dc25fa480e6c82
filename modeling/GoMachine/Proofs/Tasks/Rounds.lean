import GoMachine.Machine
import GoMachine.Proofs.Tasks.Composites
import GoMachine.Proofs.Tasks.Exchanges
/-!
# A turn of a thread

Whatever node stands on top of its control stack, a thread makes of what it has left to do what the
code of the node says, and sees to whether it goes on.

* `Rule.reduces`, `Rule.schedules`: every rule does what the code of its nodes says.
* `Machine.reduce_schedules`: so does the machine.
-/
namespace GoMachine

open Heap (maxSlots)
open Code (Stands Reduces Schedules)
open Machine

variable {tag : Tag} {fs : List UInt64} {ks : List Address} {ps : List Code} {run : Address →
    TurnM Unit} {c : Code}

theorem Rule.reduces (e : ofTag? tag = some (.sequential run)) (st : Stands (.node tag fs ks ps)) :
    Reduces (.node tag fs ks ps) run := by
  unfold ofTag? at e
  split at e <;> cases e
  exacts [literal_reduces, name_reduces, nameAddress_reduces, var_reduces st, varI_reduces,
    assign_reduces st,
    assignI_reduces, unary_reduces st, unaryI_reduces, binary_reduces st, binaryI_reduces,
    logicalI_reduces st,
    postfixOp_reduces st, postfixOpI_reduces, sequence_reduces st, block_reduces st,
    exitScopeI_reduces,
    ifElse_reduces st, ifElseI_reduces st, forLoop_reduces st, forLoopI_reduces st, markerI_reduces,
    breakLoop_reduces, continueLoop_reduces, exprStmt_reduces st, popI_reduces,
    functionLit_reduces st,
    call_reduces st, returnFrom_reduces st, returnFromI_reduces, restoreEnvI_reduces st,
    goCall_reduces st,
    member_reduces st, memberI_reduces, memberAddress_reduces st, memberAddressI_reduces,
    methodMember_reduces st,
    methodMemberI_reduces, index_reduces st, indexI_reduces, indexAddress_reduces st,
    indexAddressI_reduces,
    sliceExpr_reduces st, sliceExprI_reduces st, make_reduces st, makeI_reduces st, zero_reduces,
    constructor_reduces st, constructorI_reduces st, structLiteral_reduces st,
    structLiteralI_reduces st,
    addressOf_reduces st, addressOfI_reduces, deref_reduces st, derefI_reduces,
    derefAddress_reduces st,
    derefAddressI_reduces, chanSend_reduces st, chanReceive_reduces st, select_reduces st]

theorem Rule.schedules (e : ofTag? tag = some (.scheduling run))
    (st : Stands (.node tag fs ks ps)) :
    Schedules (.node tag fs ks ps) run := by
  unfold ofTag? at e
  split at e <;> cases e
  exacts [callI_schedules st, goCallI_schedules st, chanSendI_schedules, chanReceiveI_schedules,
    selectI_schedules st]

namespace Machine

/-- The node of a turn does to its thread what its code says. -/
theorem reduce_schedules (st : Stands c) : Schedules c reduce := by
  intro k t σ τ n O s node _ _ p hc free runs
  obtain ⟨tag, fs, ks, ps, rfl⟩ := p.knows.isNode hc
  refine .look fun tag' read => ?_
  obtain rfl : tag' = tag := tag_read p hc read
  split
  · exact .get .throw
  · next run e =>
    refine (Rule.reduces e st p hc).bind fun _ s₁ ⟨τ₁, p₁, made⟩ => ?_
    exact (p₁.enqueueCurrent (n := n + maxSlots + 14) (made.same_place.1.trans free)).mono
      fun _ _ ⟨τ₂, p₂, goes⟩ => ⟨σ, τ₂, p₂, Others.refl.joined, .goes made goes⟩
  · next run e => exact Rule.schedules e st p hc free runs

end Machine
end GoMachine

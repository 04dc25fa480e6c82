import GoMachine.Machine
import GoMachine.Proofs.Owns.Calls
import GoMachine.Proofs.Owns.Composite
import GoMachine.Proofs.Owns.Lowering
/-!
# Ownership by channel operations and by every rule

* `Rule.keeps`: the rule for any node keeps what the turn owns.
-/
namespace GoMachine

open Heap (Owns Capped stacked laden maxSlots Within)

variable {P F O : Multiset Address} [Within F O] {n : Nat} {s : Turn} {node : Address}

namespace Machine

/-! ## Channel operations -/

theorem chanSend_keeps : Keeps P (chanSend node) :=
  fun own => .look own fun _ _ => (TurnM.pushNew_owns own).bind fun _ _ own =>
    TurnM.pushInOrder_owns own

theorem chanSendI_keeps : Keeps P (chanSendI node) := by
  intro n F O s _ own
  refine (TurnM.popValue_owns own).bind fun value s₁ owned => ?_
  refine (TurnM.popValue_owns owned).bind fun ch s₂ owned => ?_
  refine (TurnM.releasing_owns (l := [value, ch]) (n := n + maxSlots + 14) (K := fun _ => O)
    ?_).mono fun _ _ owned => owned.tighten own.spare
  refine .get (.get ?_)
  exact (Channel.send_owns owned.swap).turn.bind fun _ _ owned => .pure owned

theorem chanReceive_keeps : Keeps P (chanReceive node) :=
  fun own => .look own fun _ _ => (TurnM.pushNew_owns own).bind fun _ _ own => TurnM.push_owns own

theorem chanReceiveI_keeps : Keeps P (chanReceiveI node) := by
  intro n F O s _ own
  refine (TurnM.popValue_owns own).bind fun ch s₁ owned => .ofThread owned fun structs _ => ?_
  refine (TurnM.releasing_owns (l := [ch]) (n := n + maxSlots + 15) (K := fun _ => O)
    ?_).mono fun _ _ owned => owned.tighten own.spare
  refine .get (.get ?_)
  exact (Channel.recv_owns owned).turn.bind fun _ _ owned => .pure owned

theorem pushOperands_owns {clause : Address} (own : Owns P (n + 2) O s.heap) :
    Pays P F (pushOperands clause) s fun _ s' => Owns P (n + 2) O s'.heap := by
  refine .look own fun tag _ => ?_
  split
  · exact .look own fun _ _ => .look own fun _ _ => TurnM.pushInOrder_owns own
  · exact .look own fun _ _ => TurnM.push_owns own
  · exact .pure own

theorem select_keeps : Keeps P (select node) := by
  intro n F O s _ own
  refine .look own fun _ _ => .look own fun clauses _ =>
    (TurnM.pushShared_owns own).bind fun _ s₁ own => ?_
  refine (Pays.forIn (I := fun _ s' => Owns P (n + maxSlots + 16) O s'.heap) own ?_).bind
    fun _ _ own => .pure own
  intro clause rest s own
  exact (pushOperands_owns own).bind fun _ _ own => .pure ⟨rfl, own⟩

/-- However many operands the cases have, they were in slots before. -/
theorem popClauses_capped {m : Nat} : ∀ {clauses : List Address} {f : Clauses} {s : Turn},
    Capped P m (laden f.operands O) s.heap →
    Pays P F (popClauses f clauses) s fun found s' => Capped P m (laden found.operands O) s'.heap
  | [], _, _, cp => .pure cp
  | clause :: clauses, found, s, cp => by
    refine .look cp fun tag _ => ?_
    split
    · refine (TurnM.popValue_capped cp).bind fun value s₁ cp => ?_
      refine (TurnM.popValue_capped cp).bind fun ch s₂ cp => .look cp fun body _ =>
        popClauses_capped ?_
      rwa [Heap.laden_append, Heap.laden_comm, ← Heap.stacked_eq_laden]
    · refine (TurnM.popValue_capped cp).bind fun ch s₁ cp => .look cp fun body _ =>
        popClauses_capped ?_
      rwa [Heap.laden_append, Heap.laden_comm]
    · exact .look cp fun _ _ => popClauses_capped cp

theorem continueWith_owns {body : Address} (own : Owns P (n + 2) O s.heap) :
    Pays P F (continueWith body) s fun _ s' => Owns P (n + 2) O s'.heap := by
  unfold continueWith
  split
  · exact (TurnM.push_owns own).bind fun _ _ own => TurnM.enqueueCurrent_owns own
  · exact TurnM.enqueueCurrent_owns own

theorem selectI_keeps : Keeps P (selectI node) := by
  intro n F O s _ own
  refine .look own fun hasDefault _ => .look own fun clauses _ => ?_
  have wide : Owns P (n + 16 + maxSlots) O s.heap := own.weaken (by omega)
  refine (popClauses_capped (f := {}) wide.capped).bind fun found s₁ cp => ?_
  refine .ofThread cp fun structs _ => ?_
  refine (TurnM.releasing_owns (n := n + 16) (K := fun _ => O) ?_).mono
    fun _ _ owned => owned.tighten own.spare
  have owned := cp.owns ((Nat.le_add_right (n + 16) _).trans_lt wide.spare.lt)
  refine (Pays.modifyGet (Q := fun _ s' => s'.heap = s₁.heap) rfl).bind fun order s₂ e =>
    .get (.get ?_)
  rw [← e] at owned
  refine (Select.run_owns owned).turn.bind fun outcome s₃ owned => ?_
  split
  · exact continueWith_owns owned
  · exact continueWith_owns owned
  · exact .pure owned

end Machine

/-! ## Every rule -/

/-- What a rule runs. -/
def Rule.run : Rule → Address → TurnM Unit
  | .sequential run => run
  | .scheduling run => run

open Machine in
theorem Rule.keeps {tag : Tag} : (ofTag? tag).elim True fun rule => Keeps P (rule.run node) := by
  unfold ofTag?
  split
  exacts [literal_keeps, name_keeps, nameAddress_keeps, var_keeps, varI_keeps, assign_keeps,
    @assignI_keeps P node, unary_keeps, unaryI_keeps, binary_keeps, binaryI_keeps,
    logicalI_keeps, postfixOp_keeps, postfixOpI_keeps, sequence_keeps, block_keeps,
    @exitScopeI_keeps P node, ifElse_keeps, ifElseI_keeps, forLoop_keeps, forLoopI_keeps,
    fun own => .pure own, unwindTo_keeps, unwindTo_keeps, exprStmt_keeps,
    @popI_keeps P node, functionLit_keeps, call_keeps, callI_keeps, returnFrom_keeps,
    @returnFromI_keeps P node, restoreEnvI_keeps, goCall_keeps, goCallI_keeps, selectFrom_keeps,
    memberI_keeps, selectFrom_keeps, memberAddressI_keeps,
    selectFrom_keeps, methodMemberI_keeps, evaluateAt_keeps, indexWith_keeps, evaluateAt_keeps,
    indexWith_keeps, sliceExpr_keeps, sliceExprI_keeps, make_keeps, makeI_keeps, zero_keeps,
    constructor_keeps, constructorI_keeps, structLiteral_keeps, structLiteralI_keeps,
    addressOf_keeps, @addressOfI_keeps P node, derefWith_keeps, @derefI_keeps P node,
    derefWith_keeps, @derefAddressI_keeps P node, chanSend_keeps,
    @chanSendI_keeps P node, chanReceive_keeps, @chanReceiveI_keeps P node,
    select_keeps, selectI_keeps, trivial]

end GoMachine

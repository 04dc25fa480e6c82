import GoMachine.Machine.Flow
import GoMachine.Machine.Names
import GoMachine.Proofs.Owns.Channels
import GoMachine.Proofs.Owns.Turn
/-!
# Ownership by the nodes for names, operators and statements

`Keeps P x` says that a turn owns after `x` what it owned before, provided there is room for one
stash of operands and for a few references more. Every node does, so a node may be run in any state
of the machine.
-/
namespace GoMachine

open Heap (Owns stacked laden maxSlots Within)

variable {P F O : Multiset Address} [Within F O] {n : Nat} {s : Turn} {node : Address}

/-- What a turn owned before it owns afterwards. There is room for as many operands
as there may be slots, and for 16 more. -/
def Keeps {α : Type} (P : Multiset Address) (x : TurnM α) : Prop :=
  ∀ {n F O s} [Within F O], Owns P (n + maxSlots + 16) O s.heap →
    Pays P F x s fun _ s' => Owns P (n + maxSlots + 16) O s'.heap

namespace Machine

/-! ## Names, assignments and operators -/

theorem literal_keeps : Keeps P (literal node) :=
  fun own => .look own fun _ _ => TurnM.pushValue_owns own

theorem resolve_keeps {tag : Tag} : Keeps P (resolve node tag) := by
  intro n F O s _ own
  refine .look own fun key _ => .ofThread own fun frame _ => .look own fun found _ => ?_
  split
  · exact .pure own
  · exact .look own fun _ _ => .throw own

theorem name_keeps : Keeps P (name node) := by
  intro n F O s _ own
  refine (resolve_keeps own).bind fun bound s₁ own => .look own fun tag _ => ?_
  split
  · exact .look own fun _ _ => TurnM.pushValue_owns own
  · exact TurnM.pushValue_owns own

theorem nameAddress_keeps : Keeps P (nameAddress node) :=
  fun own => (resolve_keeps own).bind fun _ _ own => .look own fun _ _ => TurnM.pushValue_owns own

theorem var_keeps : Keeps P (var node) :=
  fun own => .look own fun _ _ => .look own fun _ _ => .look own fun _ _ =>
    (TurnM.pushShared_owns own).bind fun _ _ own => TurnM.push_owns own

theorem varI_keeps : Keeps P (varI node) := by
  intro n F O s _ own
  refine .look own fun name _ => .look own fun type _ => ?_
  refine (TurnM.popValue_owns own).bind fun value s₁ owned => ?_
  refine (Variable.createOwned_owns owned).turn.bind fun var s₂ owned =>
    .ofThread owned fun frame _ => ?_
  refine (TurnM.releasing_owns (K := fun _ => O) (Frame.insert_owns owned).turn).mono ?_
  exact fun _ _ owned => owned.tighten own.spare

theorem assign_keeps : Keeps P (assign node) :=
  fun own => .look own fun _ _ => .look own fun _ _ => (Node.unit_owns own).turn.bind fun _ _ own =>
    (TurnM.pushOwned_owns own).bind fun _ _ own => TurnM.pushInOrder_owns own

theorem assignI_keeps : Keeps P (assignI node) := by
  intro n F O s _ own
  refine (TurnM.popValue_owns own).bind fun var s₁ owned => ?_
  refine (TurnM.popValue_owns owned).bind fun value s₂ owned => ?_
  refine (TurnM.releasing_owns (K := fun _ => O) (Variable.setValueOwned_owns owned).turn).mono ?_
  exact fun _ _ owned => owned.tighten own.spare

theorem unary_keeps : Keeps P (unary node) :=
  fun own => .look own fun _ _ => .look own fun _ _ => (TurnM.pushNew_owns own).bind fun _ _ own =>
    TurnM.push_owns own

theorem unaryI_keeps : Keeps P (unaryI node) := by
  intro n F O s _ own
  refine .look own fun op _ => (TurnM.popValue_owns own).bind fun operand s₁ owned => ?_
  refine (TurnM.releasing_owns (K := fun r => r ::ₘ O)
    ((UnaryOp.apply_owns owned).turn.mono fun _ _ owned => owned.swap)).bind fun r s₂ owned => ?_
  exact (TurnM.pushValueOwned_owns owned).mono fun _ _ owned => owned.tighten own.spare

theorem binary_keeps : Keeps P (binary node) := by
  intro n F O s _ own
  refine .look own fun op _ => .look own fun left _ => .look own fun right _ => ?_
  split
  · exact (TurnM.pushShared_owns own).bind fun _ _ own => TurnM.push_owns own
  · exact (TurnM.pushNew_owns own).bind fun _ _ own => TurnM.pushInOrder_owns own

theorem binaryI_keeps : Keeps P (binaryI node) := by
  intro n F O s _ own
  refine .look own fun op _ => (TurnM.popValue_owns own).bind fun right s₁ owned => ?_
  refine (TurnM.popValue_owns owned).bind fun left s₂ owned => ?_
  refine (TurnM.releasing_owns (n := n + maxSlots + 14) (K := fun r => r ::ₘ O)
    ((BinaryOp.apply_owns owned).turn.mono fun r _ owned =>
      Owns.lade (l := [left, right]) owned)).bind fun r s₃ owned => ?_
  exact (TurnM.pushValueOwned_owns owned).mono fun _ _ owned => owned.tighten own.spare

theorem logicalI_keeps : Keeps P (logicalI node) := by
  intro n F O s _ own
  refine .look own fun op _ => (TurnM.popValue_owns own).bind fun left s₁ owned => ?_
  refine (TurnM.releasing_owns (n := n + maxSlots + 15) (l := [left]) (K := fun _ => O)
    (Pays.lift (Pays.query owned fun _ _ => owned))).bind fun b s₂ owned => ?_
  have own := owned.tighten own.spare
  split
  · exact (Scalar.new_owns (by rfl) own).turn.bind fun _ _ own => TurnM.pushValueOwned_owns own
  · exact (Scalar.new_owns (by rfl) own).turn.bind fun _ _ own => TurnM.pushValueOwned_owns own
  · exact .look own fun right _ => TurnM.push_owns own

theorem postfixOp_keeps : Keeps P (postfixOp node) :=
  fun own => .look own fun _ _ => .look own fun _ _ => (TurnM.pushNew_owns own).bind fun _ _ own =>
    TurnM.push_owns own

theorem postfixOpI_keeps : Keeps P (postfixOpI node) := by
  intro n F O s _ own
  refine .look own fun op _ => (TurnM.popValue_owns own).bind fun var s₁ owned => ?_
  refine (TurnM.releasing_owns (K := fun _ => O) (StepOp.apply_owns owned).turn).mono ?_
  exact fun _ _ owned => owned.tighten own.spare

/-! ## Statements -/

theorem sequence_keeps : Keeps P (sequence node) :=
  fun own => .look own fun _ _ => TurnM.pushInOrder_owns own

theorem block_keeps : Keeps P (block node) :=
  fun own => .look own fun _ _ => (TurnM.pushFrame_owns own).bind fun _ _ own =>
    (TurnM.pushNew_owns own).bind fun _ _ own => TurnM.push_owns own

theorem exitScopeI_keeps : Keeps P (exitScopeI node) :=
  fun own => TurnM.popFrame_owns own

theorem ifElse_keeps : Keeps P (ifElse node) :=
  fun own => .look own fun _ _ => .look own fun _ _ => .look own fun _ _ =>
    (TurnM.pushShared_owns own).bind fun _ _ own => TurnM.push_owns own

theorem popCondition_keeps : Keeps P popCondition := by
  intro n F O s _ own
  refine (TurnM.popValue_owns own).bind fun cond s₁ owned => ?_
  refine (TurnM.releasing_owns (n := n + maxSlots + 15) (l := [cond]) (K := fun _ => O)
    (Pays.lift (Pays.query owned fun _ _ => owned))).mono ?_
  exact fun _ _ owned => owned.tighten own.spare

theorem ifElseI_keeps : Keeps P (ifElseI node) := by
  intro n F O s _ own
  refine (popCondition_keeps own).bind fun taken s₁ own => .look own fun branch _ => ?_
  split
  · exact TurnM.push_owns own
  · exact .pure own

/-- Each of the nodes is built for the node of the loop to take over. -/
theorem copyBack_owns {loopVar : Address} {h : Heap} (own : Owns P (n + 1) O h) :
    Pays P F (copyBack loopVar) h fun nodes h' => Owns P (n + 1) (stacked O nodes) h' := by
  unfold copyBack
  split
  · refine (Pays.pure (Q := fun nodes h' => Owns P (n + 1) (stacked O nodes) h') ?_)
    exact Owns.cons_nil.2 (Owns.cons_nil.2 (Owns.cons_nil.2 (Owns.cons_nil.2 own)))
  · exact (Node.buildShared_owns own).bind fun _ _ own => (Node.unit_owns own).bind fun _ _ own =>
      (Node.buildShared_owns own).bind fun _ _ own => (Node.unit_owns own).bind fun _ _ own =>
        .pure own

theorem forLoop_keeps : Keeps P (forLoop node) := by
  intro n F O s _ own
  refine .look own fun init _ => .look own fun cond _ => .look own fun update _ =>
    .look own fun body _ =>
    .look own fun loopVar _ => ?_
  refine (TurnM.pushFrame_owns own).bind fun _ s₁ own => ?_
  refine (TurnM.pushNew_owns own).bind fun _ s₂ own => ?_
  refine own.reference.onHeap.bind fun c s₃ ⟨ec, owned⟩ => ?_
  refine owned.reference.onHeap.bind fun u s₄ ⟨eu, owned⟩ => ?_
  refine owned.reference.onHeap.bind fun b s₅ ⟨eb, owned⟩ => ?_
  refine (Node.unit_owns owned).turn.bind fun marker s₆ owned => ?_
  refine owned.reference.onHeap.bind fun v s₇ ⟨ev, owned⟩ => ?_
  subst ec eu eb ev
  refine (copyBack_owns owned).turn.bind fun nodes s₈ owned => ?_
  have parts : Owns P (n + maxSlots + 12) (stacked O ([c, u, b, marker, v] ++ nodes)) s₈.heap := by
    rw [Heap.stacked_append]
    exact owned
  exact (TurnM.pushNew_owns parts).bind fun _ s₉ owned =>
    TurnM.pushInOrder_owns (owned.tighten own.spare)

theorem openTurn_keeps {loopVar : Address} : Keeps P (openTurn loopVar) := by
  intro n F O s _ own
  refine (TurnM.pushFrame_owns own).bind fun inner s₁ own => .look own fun outer _ =>
    .look own fun found _ => ?_
  split
  · exact .throw own
  refine .look own fun type _ => .look own fun value _ => ?_
  refine (Variable.create_owns own).turn.bind fun copy s₂ own => ?_
  exact TurnM.releasing_owns (K := fun _ => O) (Frame.insert_owns own).turn

theorem forLoopI_keeps : Keeps P (forLoopI node) := by
  intro n F O s _ own
  refine (popCondition_keeps own).bind fun taken s₁ own => ?_
  split
  · exact .pure own
  refine .look own fun cond _ => .look own fun update _ => ?_
  refine (TurnM.push_owns own).bind fun _ s₂ own => ?_
  refine (TurnM.push_owns own).bind fun _ s₃ own => ?_
  extract_lets enterBody enterTurn
  have enterBody_owns : ∀ s : Turn, Owns P (n + maxSlots + 16) O s.heap →
      Pays P F (enterBody ⟨⟩) s fun _ s' => Owns P (n + maxSlots + 16) O s'.heap := fun s own =>
    .look own fun marker _ => .look own fun body _ => (TurnM.push_owns own).bind fun _ _ own =>
      TurnM.push_owns own
  have enterTurn_owns : ∀ s : Turn, Owns P (n + maxSlots + 16) O s.heap →
      Pays P F (enterTurn ⟨⟩) s fun _ s' => Owns P (n + maxSlots + 16) O s'.heap := by
    intro s own
    refine .look own fun loopVar _ => ?_
    split
    · refine (Pays.forIn (I := fun _ s' => Owns P (n + maxSlots + 16) O s'.heap) own ?_).bind
        fun _ _ own => (openTurn_keeps own).bind fun _ _ own => enterBody_owns _ own
      intro i rest s own
      exact .look own fun _ _ => (TurnM.push_owns own).bind fun _ _ own => .pure ⟨rfl, own⟩
    · exact enterBody_owns s own
  split
  · exact (TurnM.push_owns own).bind fun _ _ own => enterTurn_owns _ own
  · exact enterTurn_owns s₃ own

theorem unwindAmong_keeps {target : Tag} {keyword : String} : ∀ {k : Nat},
    Keeps P (unwindAmong target keyword k)
  | 0, _, _, _, _, _, own => .throw own
  | k + 1, n, F, O, s, _, own => by
    refine .ofThread own fun control _ => (Stack.pop_owns own).turn.bind fun node s₁ owned => ?_
    refine .guard owned fun _ => ?_
    refine (TurnM.releasing_owns (n := n + maxSlots + 15) (l := [node]) (K := fun _ => O)
      (Pays.lift (Pays.query owned fun _ _ => owned))).bind fun tag s₂ owned => ?_
    have own := owned.tighten own.spare
    split
    · exact .pure own
    split
    · exact (TurnM.popFrame_owns own).bind fun _ _ own => unwindAmong_keeps own
    · exact (Pays.throw own).bind (Q := fun _ _ => False) fun _ _ h => h.elim
    · exact unwindAmong_keeps own

theorem unwindTo_keeps {target : Tag} {keyword : String} : Keeps P (unwindTo target keyword) :=
  fun own => .get (unwindAmong_keeps own)

theorem exprStmt_keeps : Keeps P (exprStmt node) :=
  fun own => .look own fun _ _ => (TurnM.pushNew_owns own).bind fun _ _ own => TurnM.push_owns own

theorem popI_keeps : Keeps P (popI node) := by
  intro n F O s _ own
  refine (TurnM.popValue_owns own).bind fun value s₁ owned => ?_
  exact (owned.free.onHeap).mono fun _ _ owned => owned.tighten own.spare

end Machine
end GoMachine

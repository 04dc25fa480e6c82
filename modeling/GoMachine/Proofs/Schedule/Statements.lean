import GoMachine.Machine.Rules
import GoMachine.Proofs.Schedule.Nodes
/-!
# What statements and expressions do

All nodes but those for calls, goroutines and channel operations are `Tame`.
-/
namespace GoMachine

open Heap (Orderly)

variable {c : List Address} {a b v node : Address}


namespace Tame

variable {α β : Type} [Mentions β] {f : α → TurnM β}

/-- A question whose answer does not matter. -/
theorem look {q : Query α} (hf : ∀ a, Tame c (f a)) : Tame c (liftM q >>= f) := fun _ _ _ _ o hc =>
  .look fun a _ => hf a o hc

end Tame

namespace Machine

/-! ## Names and operators -/

theorem literal_tame : Tame c (literal node) :=
  .bind (.turnQuery (.child (.inl rfl))) fun _ => TurnM.pushValue_tame (by grind)

/-- A name is looked up in the frame of the thread, and what is bound to it is in an entry. -/
@[grind ←]
theorem resolve_tame {tag : Tag} : Tame c (resolve node tag) := by
  refine .look fun key => .bind TurnM.frame_tame fun frame =>
    .bind (.turnQuery Frame.lookup?_asks) fun found => ?_
  cases found with
  | none => exact .look fun _ => .throw
  | some bound => exact .pure (by grind)

/-- A variable is read, and anything else stands for itself. -/
theorem name_tame : Tame c (name node) := by
  refine .bind resolve_tame fun bound => .look fun tag => ?_
  split <;> grind

theorem nameAddress_tame : Tame c (nameAddress node) :=
  .bind resolve_tame fun bound => .look fun _ => TurnM.pushValue_tame (by grind)

theorem var_tame : Tame c (var node) := by
  refine .bind (.turnQuery (.child (.inl rfl))) fun name =>
    .bind (.turnQuery (.child (.inl rfl))) fun type =>
    .bind (.turnQuery (.child (.inl rfl))) fun init =>
    .bind (TurnM.pushShared_tame rfl rfl (by grind)) fun _ =>
      TurnM.push_tame (by grind)

/-- The new variable takes the value over and is bound in the frame of the thread. -/
theorem varI_tame : Tame c (varI node) := by
  refine .bind (.turnQuery (.child (.inl rfl))) fun name =>
    .bind (.turnQuery (.child (.inl rfl))) fun type =>
    .bind TurnM.popValue_tame fun value =>
    .bind (.turn (Variable.createOwned_tame (by grind) (by grind))) fun var =>
      .bind TurnM.frame_tame fun frame =>
      .releasingAll (by grind) (.turn (Frame.insert_tame (by grind) (by grind)))

theorem assign_tame : Tame c (assign node) := by
  refine .bind (.turnQuery (.child (.inl rfl))) fun target =>
    .bind (.turnQuery (.child (.inl rfl))) fun value =>
    .bind (.turn (Node.unit_tame rfl)) fun node => .bind (TurnM.pushOwned_tame (by grind)) fun _ =>
    TurnM.pushInOrder_tame (by grind)

/-- The variable and the value were operands. -/
theorem assignI_tame : Tame c (assignI node) :=
  .bind TurnM.popValue_tame fun var => .bind TurnM.popValue_tame fun value =>
    .releasingAll (by grind) (.turn (Variable.setValueOwned_tame (by grind)))

theorem unary_tame : Tame c (unary node) := 
  .look fun op => .bind (.turnQuery (.child (.inl rfl))) fun operand =>
    .bind (TurnM.pushNew_tame rfl rfl (by grind)) fun _ => TurnM.push_tame (by grind)

theorem unaryI_tame : Tame c (unaryI node) :=
  .look fun op => .bind TurnM.popValue_tame fun operand =>
    .bind (.releasingAll (by grind) (.turn (UnaryOp.apply_tame (by grind)))) fun _ =>
    TurnM.pushValueOwned_tame (by grind)

/-- The right operand of a logical operator is kept for later. -/
theorem binary_tame : Tame c (binary node) := by
  refine .look fun op => .bind (.turnQuery (.child (.inl rfl))) fun left =>
    .bind (.turnQuery (.child (.inl rfl))) fun right => ?_
  split
  · exact .bind (TurnM.pushShared_tame rfl rfl (by grind)) fun _ => TurnM.push_tame (by grind)
  · exact .bind (TurnM.pushNew_tame rfl rfl (by grind)) fun _ => TurnM.pushInOrder_tame (by grind)

theorem binaryI_tame : Tame c (binaryI node) :=
  .look fun op => .bind TurnM.popValue_tame fun right => .bind TurnM.popValue_tame fun left =>
    .bind (.releasingAll (by grind) (.turn BinaryOp.apply_tame)) fun _ =>
    TurnM.pushValueOwned_tame (by grind)

/-- The left operand decides, or the right one is evaluated. -/
theorem logicalI_tame : Tame c (logicalI node) := by
  refine .look fun op => .bind TurnM.popValue_tame fun left =>
    .bind (.releasingAll (by grind) (.turnQuery .bool)) fun truth => ?_
  split
  · exact .bind (.turn Scalar.newBool_tame) fun _ => TurnM.pushValueOwned_tame (by grind)
  · exact .bind (.turn Scalar.newBool_tame) fun _ => TurnM.pushValueOwned_tame (by grind)
  · exact .bind (.turnQuery (.child (.inl rfl))) fun _ => TurnM.push_tame (by grind)

theorem postfixOp_tame : Tame c (postfixOp node) :=
  .look fun op => .bind (.turnQuery (.child (.inl rfl))) fun target =>
    .bind (TurnM.pushNew_tame rfl rfl (by grind)) fun _ => TurnM.push_tame (by grind)

theorem postfixOpI_tame : Tame c (postfixOpI node) :=
  .look fun op => .bind TurnM.popValue_tame fun var =>
  .releasingAll (by grind) (.turn StepOp.apply_tame)

/-! ## Statements -/

theorem block_tame : Tame c (block node) :=
  .bind (.turnQuery (.child (.inl rfl))) fun body => .bind TurnM.pushFrame_tame fun _ =>
    .bind (TurnM.pushNew_tame rfl rfl (by grind)) fun _ => TurnM.push_tame (by grind)

theorem exitScopeI_tame : Tame c (exitScopeI node) := TurnM.popFrame_tame

theorem ifElse_tame : Tame c (ifElse node) :=
  .bind (.turnQuery (.child (.inl rfl))) fun cond =>
  .bind (.turnQuery (.child (.inl rfl))) fun body =>
    .bind (.turnQuery (.child (.inl rfl))) fun otherwise =>
    .bind (TurnM.pushShared_tame rfl rfl (by grind)) fun _ =>
      TurnM.push_tame (by grind)

theorem popCondition_tame : Tame c popCondition :=
  .bind TurnM.popValue_tame fun cond => .releasingAll (by grind) (.turnQuery .bool)

theorem ifElseI_tame : Tame c (ifElseI node) := by
  refine .bind popCondition_tame fun taken => .bind (.turnQuery (.child (.inl rfl))) fun branch =>
    ?_
  split
  · exact TurnM.push_tame (by grind)
  · exact .pure (by grind)

/-- The nodes that copy the loop variable back are made once, when the loop starts. -/
theorem copyBack_tame (ha : a ∈ .nil :: c) : Tame c (copyBack a) := by
  unfold copyBack
  split
  · exact .pure (by grind)
  · exact .bind (Node.buildShared_tame rfl rfl (by grind)) fun read =>
      .bind (Node.unit_tame rfl) fun exit =>
      .bind (Node.buildShared_tame rfl rfl (by grind)) fun target =>
      .bind (Node.unit_tame rfl) fun assign =>
        .pure (by grind)

/-- A loop opens a frame for its variable and takes references to all its parts. -/
theorem forLoop_tame : Tame c (forLoop node) := by
  refine .bind (.turnQuery (.child (.inl rfl))) fun init =>
    .bind (.turnQuery (.child (.inl rfl))) fun cond =>
    .bind (.turnQuery (.child (.inl rfl))) fun update =>
    .bind (.turnQuery (.child (.inl rfl))) fun body =>
    .bind (.turnQuery (.child (.inl rfl))) fun loopVar => .bind TurnM.pushFrame_tame fun _ =>
    .bind (TurnM.pushNew_tame rfl rfl (by grind)) fun _ =>
    .bind (.turnHeap (.reference (by simp))) fun cond' =>
    .bind (.turnHeap (.reference (by simp))) fun update' =>
    .bind (.turnHeap (.reference (by simp))) fun body' =>
    .bind (.turn (Node.unit_tame rfl)) fun marker =>
    .bind (.turnHeap (.reference (by simp))) fun loopVar' =>
    .bind (.turn (copyBack_tame (by simp))) fun back =>
    .bind (TurnM.pushNew_tame rfl rfl ?_) fun _ =>
      TurnM.pushInOrder_tame (by simp)
  intro x hx
  simp only [List.mem_append, List.mem_cons, List.not_mem_nil, or_false] at hx
  simp only [addresses_address, addresses_addresses, List.mem_cons, List.mem_append,
    List.not_mem_nil]
  tauto

/-- Each turn has a frame of its own, with a copy of the variable. -/
theorem openTurn_tame (ha : a ∈ .nil :: c) : Tame c (openTurn a) := by
  refine .bind TurnM.pushFrame_tame fun inner => .bind (.turnQuery Frame.parent_asks) fun parent =>
    .bind (.turnQuery Frame.lookup?_asks) fun found => ?_
  cases found with
  | none => exact .throw
  | some outer =>
    exact .bind (.turnQuery Variable.type_asks) fun type =>
      .bind (.turnQuery Variable.value_asks) fun value =>
      .bind (.turn (Variable.create_tame (by grind) (by grind))) fun copy =>
        .releasingAll (by grind) (.turn (Frame.insert_tame (by grind) (by grind)))

/-- The next turn goes on the control stack in front of the loop itself. -/
theorem forLoopI_tame (hn : node ∈ .nil :: c) : Tame c (forLoopI node) := by
  refine .bind popCondition_tame fun more => ?_
  split
  · exact .pure (by grind)
  refine .bind (.turnQuery (.child (.inl rfl))) fun cond =>
    .bind (.turnQuery (.child (.inl rfl))) fun update =>
    .bind (TurnM.push_tame (by grind)) fun _ => .bind (TurnM.push_tame (by grind)) fun _ => ?_
  extract_lets last turn
  have last_tame : ∀ {d}, Tame d (last ⟨⟩) := fun {d} =>
    .bind (.turnQuery (.child (.inl rfl))) fun marker =>
    .bind (.turnQuery (.child (.inl rfl))) fun body =>
      .bind (TurnM.push_tame (by grind)) fun _ => TurnM.push_tame (by grind)
  have turn_tame : ∀ {d}, Tame d (turn ⟨⟩) := fun {d} => by
    refine .bind (.turnQuery (.child (.inl rfl))) fun loopVar => ?_
    split
    · exact .bind (.forIn fun i _ => .bind (.turnQuery (.child (.inl rfl))) fun part =>
        .bind (TurnM.push_tame (by grind)) fun _ => .pure (by grind)) fun _ =>
          .bind (openTurn_tame (by grind)) fun _ => last_tame
    · exact last_tame
  split
  · exact .bind (TurnM.push_tame (by grind)) fun _ => turn_tame
  · exact turn_tame

theorem markerI_tame : Tame c (markerI node) := .pure (by grind)

/-- Takes a node off the control stack, in front of other things. -/
theorem popThen_tame {β : Type} [Mentions β] {f : Address → TurnM β}
    (hf : ∀ v, Tame ([v] ++ c) (f v)) :
    Tame c (do f (← Stack.pop (← TurnM.control))) := by
  have := Tame.bind (TurnM.popNode_tame (c := c)) hf
  rwa [bind_assoc] at this

/-- Nodes are taken off one by one. Those that close scopes are made up for on the way. -/
theorem unwindAmong_tame {target : Tag} {keyword : String} {n : Nat} :
    Tame c (unwindAmong target keyword n) := by
  induction n generalizing c with
  | zero => exact .throw
  | succ n ih =>
    refine popThen_tame fun node => .guard fun _ =>
      .bind (.releasingAll (by grind) (.turnQuery .kind))
      fun tag => ?_
    split
    · exact .pure (by grind)
    split
    · exact .bind TurnM.popFrame_tame fun _ => ih
    · exact .bind .throw fun _ => ih
    · exact ih

theorem breakLoop_tame : Tame c (breakLoop node) := .get fun _ => unwindAmong_tame

theorem continueLoop_tame : Tame c (continueLoop node) := .get fun _ => unwindAmong_tame

theorem exprStmt_tame : Tame c (exprStmt node) :=
  .bind (.turnQuery (.child (.inl rfl))) fun expr =>
  .bind (TurnM.pushNew_tame rfl rfl (by grind)) fun _ =>
    TurnM.push_tame (by grind)

theorem popI_tame : Tame c (popI node) :=
  .bind TurnM.popValue_tame fun value => .turnHeap (.free (by grind))

/-- What a rule does to nodes with its tag is tame. -/
def RunsTame (t : Tag) (run : Address → TurnM Unit) : Prop := ∀ ⦃K F O s node⦄,
  Orderly K F O 0 s.heap → s.heap.HasTag t node → Yields (run node) s fun _ => Kept K F O s []

/-- The parts of a node are not private. -/
theorem sharing_parts {K : Set Address} {F : Facts} {O : Multiset Address} {s : Turn} {t : Tag}
    {α : Type} [Mentions α]
    {f : List Address → TurnM α} (o : Orderly K F O 0 s.heap) (k : s.heap.HasTag t node)
    (ht : t.isOpen)
    (hf : ∀ parts, Tame parts (f parts)) :
    Yields (liftM (Query.children node) >>= f) s fun r => Kept K F O s (addresses r) :=
  .look fun parts run => hf parts o (o.plain_children k ht run)

theorem sequence_runs : RunsTame .sequence sequence := fun _ _ _ _ _ o k =>
  sharing_parts o k rfl fun _ => TurnM.pushInOrder_tame (by grind)

/-! ## Calls -/

theorem functionLit_tame (hn : node ∈ .nil :: c) : Tame c (functionLit node) :=
  .bind TurnM.frame_tame fun frame => .bind (.turn (Closure.create_tame (by grind) (by grind)))
  fun f =>
    TurnM.pushValueOwned_tame (by grind)

theorem call_runs : RunsTame .call call := fun _ _ _ _ _ o k => .look fun _ _ =>
  sharing_parts o k rfl fun _ => .bind (TurnM.pushNew_tame rfl rfl (by grind)) fun _ =>
    TurnM.pushInOrder_tame (by grind)

theorem goCall_runs : RunsTame .goCall goCall := fun _ _ _ _ _ o k => .look fun _ _ =>
  sharing_parts o k rfl fun _ => .bind (TurnM.pushNew_tame rfl rfl (by grind)) fun _ =>
    TurnM.pushInOrder_tame (by grind)

theorem returnFrom_tame : Tame c (returnFrom node) := by
  refine .bind (.turnQuery (.child (.inl rfl))) fun value =>
    .bind (TurnM.pushNew_tame rfl rfl (by grind)) fun _ => ?_
  split
  · exact TurnM.pushValue_tame (by grind)
  · exact TurnM.push_tame (by grind)

/-- The rest of a body is taken off down to the node that restores the frame of the caller. -/
theorem dropBody_tame {n : Nat} : Tame c (dropBody n) := by
  induction n generalizing c with
  | zero => exact .throw
  | succ n ih =>
    intro K F O s o hc
    refine .ofThread fun control run => .look fun top peeked => .guard fun _ => .look fun tag _ =>
      ?_
    split
    · exact .pure (.refl o (by simp))
    have k : Yields (liftM (Stack.pop control) : TurnM Address) s fun v s' => Kept K F O s [v] s' :=
      .lift ((Stack.pop_keeps o (o.open_stack (i := 0) (by decide) run)).mono fun _ _ k =>
      ⟨k.orderly, k.later, k.firm, rfl, k.plain⟩)
    refine k.bind fun v s₁ k₁ => ?_
    exact (Tame.bind (c := [v]) (.turnHeap (.free (by grind)))
      (fun _ => ih) k₁.orderly k₁.plain).mono
      fun _ _ k' => k₁.trans k'

theorem returnFromI_tame : Tame c (returnFromI node) := .get fun _ => dropBody_tame

theorem restoreEnvI_tame : Tame c (restoreEnvI node) :=
  .bind (.turnQuery (.child (.inl rfl))) fun frame => TurnM.setFrame_tame (by grind)

/-- A parameter is a variable of its own. -/
theorem bind_tame {scope literal : Address} {i : Nat} (hv : v ∈ .nil :: c) :
    Tame c (bind scope literal i v) :=
  .bind (.turnQuery (.child (.inl rfl))) fun name =>
  .bind (.turnQuery (.child (.inl rfl))) fun type =>
    .bind (.turn (Variable.create_tame (by grind) (by grind))) fun var =>
      .releasingAll (by grind) (.turn (Frame.insert_tame (by grind) (by grind)))

/-- The arguments are bound in a new frame inside of the one that the closure has captured. -/
theorem enter_tame {f : Address} {receiver : Option Address} {args : List Address}
    (hr : addresses receiver ⊆ .nil :: c) (ha : args ⊆ .nil :: c) :
    Tame c (enter f receiver args) := by
  refine .bind (.turnQuery Closure.literal_asks) fun literal =>
    .bind (.turnQuery Closure.frame_asks) fun captured =>
    .look fun expected => .guard fun _ => .bind TurnM.frame_tame fun frame =>
    .bind (TurnM.pushShared_tame rfl rfl (by grind)) fun _ =>
    .bind (TurnM.pushNew_tame rfl rfl (by grind)) fun _ =>
    .bind (.turn (Frame.create_tame (by grind))) fun scope =>
    .bind (.releasingAll (by grind) (TurnM.setFrame_tame (by grind))) fun _ =>
    .look fun hasReceiver => ?_
  extract_lets rest
  have rest_tame : ∀ {d}, c ⊆ d → Tame d (rest ⟨⟩) := fun {d} sub => by
    refine .bind (.forIn fun pair h => ?_) fun _ =>
      .bind (.turnQuery (.child (.inl rfl))) fun body =>
      TurnM.push_tame (by grind)
    have := ha (List.fst_mem_of_mem_zipIdx h)
    exact .bind (bind_tame (by grind)) fun _ => .pure (by grind)
  split
  · split
    · exact .bind (bind_tame (by grind)) fun _ => rest_tame (by grind)
    · exact rest_tame (by grind)
  · exact rest_tame (by grind)

/-! ## Channels -/

theorem chanSend_runs : RunsTame .chanSend chanSend := fun _ _ _ _ _ o k =>
  sharing_parts o k rfl fun _ => .bind (TurnM.pushNew_tame rfl rfl (by grind)) fun _ =>
    TurnM.pushInOrder_tame (by grind)

theorem chanReceive_tame : Tame c (chanReceive node) :=
  .bind (.turnQuery (.child (.inl rfl))) fun ch =>
  .bind (TurnM.pushNew_tame rfl rfl (by grind)) fun _ =>
    TurnM.push_tame (by grind)

/-- Channels and values of all cases are evaluated before any case is tried. -/
theorem pushOperands_tame : Tame c (pushOperands a) := by
  refine .look fun tag => ?_
  split
  · exact .bind (.turnQuery (.child (.inl rfl))) fun ch =>
      .bind (.turnQuery (.child (.inl rfl))) fun value =>
      TurnM.pushInOrder_tame (by grind)
  · exact .bind (.turnQuery (.child (.inl rfl))) fun ch => TurnM.push_tame (by grind)
  · exact .pure (by grind)

theorem select_runs : RunsTame .select select := fun _ _ _ _ _ o k => .look fun _ _ =>
  sharing_parts o k rfl fun _ => .bind (TurnM.pushShared_tame rfl rfl (by grind)) fun _ =>
    .bind (.forIn fun clause _ => .bind pushOperands_tame fun _ => .pure (by grind)) fun _ =>
    .pure (by grind)

end Machine

end GoMachine

import GoMachine.Machine.Composite
import GoMachine.Proofs.Owns.Channels
import GoMachine.Proofs.Owns.Statements
/-!
# Ownership by the nodes for composite values and pointers

What is selected is borrowed from the operands, so it is put on the stash before they are dropped.
What is built from them holds references of its own.
-/
namespace GoMachine

open Heap (Owns stacked laden maxSlots Within)

variable {P F O : Multiset Address} [Within F O] {n : Nat} {s : Turn} {node : Address}
  {I : Nat → Multiset Address → Heap → Prop} [Ledger P I]

namespace Machine

theorem reduceTo_owns {tag : Tag} {fields : List UInt64} {carried operands : List Address}
    (own : Owns P (n + 2) O s.heap) :
    Pays P F (reduceTo tag fields carried operands) s fun _ s' => Owns P (n + 2) O s'.heap :=
  (TurnM.pushShared_owns own).bind fun _ _ own => TurnM.pushInOrder_owns own

/-- An operand is taken off the stash and dropped after something that borrows it. -/
theorem borrowing_keeps {x : Address → TurnM Unit}
    (hx : ∀ {n F O s a} [Within F O], Owns P (n + 2) O s.heap →
      Pays P F (x a) s fun _ s' => Owns P (n + 2) O s'.heap) :
    Keeps P (do let a ← TurnM.popValue; TurnM.releasing [a] (x a)) := by
  intro n F O s _ own
  refine (TurnM.popValue_owns own).bind fun a s₁ owned => ?_
  exact (TurnM.releasing_owns (l := [a]) (K := fun _ => O) (hx owned)).mono
    fun _ _ owned => owned.tighten own.spare

/-- Operands are taken off the stash and dropped after something was made of them. -/
theorem making_keeps {k : Nat} {x : List Address → TurnM Address}
    (hx : ∀ {F O s args} [Within F O], Owns P (n + 16) O s.heap →
      Pays P F (x args) s fun a s' => Owns P (n + 16) (a ::ₘ O) s'.heap)
    (own : Owns P (n + maxSlots + 16) O s.heap) :
    Pays P F (do
      let args ← TurnM.popValues k
      TurnM.pushValueOwned (← TurnM.releasing args (x args))) s
      fun _ s' => Owns P (n + maxSlots + 16) O s'.heap := by
  have wide : Owns P (n + 16 + maxSlots) O s.heap := own.weaken (by omega)
  refine (TurnM.popValues_owns wide).bind fun args s₁ owned => ?_
  rw [Heap.stacked_eq_laden] at owned
  refine (TurnM.releasing_owns (n := n + 16) (K := fun a => a ::ₘ O)
    ((hx owned).mono fun a _ owned => owned.lade)).bind fun a s₂ owned => ?_
  exact (TurnM.pushValueOwned_owns owned).mono fun _ _ owned => owned.tighten own.spare

/-! ## Members and methods -/

theorem selectFrom_keeps {tag next : Tag} : Keeps P (selectFrom tag next node) :=
  fun own => .look own fun _ _ => .look own fun _ _ => reduceTo_owns own

theorem memberI_keeps : Keeps P (memberI node) :=
  borrowing_keeps fun own => .look own fun _ _ => .look own fun _ _ => TurnM.pushValue_owns own

theorem memberAddressI_keeps : Keeps P (memberAddressI node) :=
  borrowing_keeps fun own => .look own fun _ _ => TurnM.pushValue_owns own

theorem nativeMethod_owns {owner name : String} {h : Heap} (own : I n O h) :
    Pays P F (nativeMethod owner name) h fun b h' => I n (b ::ₘ O) h' :=
  .guard own fun _ => BuiltinRef.create_owns own

theorem methodOf_owns {base : Address} {name : String} (own : Owns P (n + 1) O s.heap) :
    Pays P F (methodOf base name) s fun m s' => Owns P n (m ::ₘ O) s'.heap := by
  have less := own.weaken (Nat.le_succ n)
  refine .look own fun view _ => ?_
  split
  · refine .look own fun owner _ => .ofThread own fun structs _ => .look own fun found _ => ?_
    split
    · exact (own.reference.onHeap).mono fun m s' ⟨e, own⟩ => e ▸ own
    · exact .throw own
  · exact (nativeMethod_owns less).turn
  · exact (nativeMethod_owns less).turn
  · exact .throw own
  · exact .throw own

theorem bindMethod_owns {receiver : Address} (own : Owns P (n + 2) O s.heap) :
    Pays P F (bindMethod node receiver) s fun m s' => Owns P (n + 1) (m ::ₘ O) s'.heap := by
  refine .look own fun key _ => .look own fun name _ => .look own fun base _ => ?_
  refine (methodOf_owns own).bind fun callee s₁ own => Pays.turn (.releasing ?_)
  exact (BoundMethod.create_owns own).mono fun _ _ own => own.swap

theorem methodMemberI_keeps : Keeps P (methodMemberI node) := by
  intro n F O s _ own
  refine (TurnM.popValue_owns own).bind fun receiver s₁ owned => ?_
  refine (TurnM.releasing_owns (l := [receiver]) (K := fun m => m ::ₘ O)
    ((bindMethod_owns owned).mono fun m _ owned => owned.swap)).bind fun m s₂ owned => ?_
  exact (TurnM.pushValueOwned_owns owned).mono fun _ _ owned => owned.tighten own.spare

/-! ## Elements and windows -/

theorem evaluateAt_keeps {tag next : Tag} : Keeps P (evaluateAt tag next node) :=
  fun own => .look own fun _ _ => .look own fun _ _ => reduceTo_owns own

theorem indexWith_keeps {addressable : Bool} : Keeps P (indexWith addressable) := by
  intro n F O s _ own
  refine (TurnM.popValue_owns own).bind fun i s₁ owned => ?_
  refine (TurnM.popValue_owns owned).bind fun object s₂ owned => ?_
  have owned := owned.swap
  refine (TurnM.releasing_owns (F := F) (n := n + maxSlots + 14) (l := [i, object])
    (K := fun _ => O)
    (.look owned fun _ _ => TurnM.pushValue_owns owned)).mono ?_
  exact fun _ _ owned => owned.tighten own.spare

theorem sliceExpr_keeps : Keeps P (sliceExpr node) :=
  fun own => .look own fun _ _ => .look own fun _ _ => .look own fun _ _ => reduceTo_owns own

theorem window_owns {object low high : Address} {h : Heap} (own : I (n + 1) O h) :
    Pays P F (window object low high) h fun a h' => I (n + 1) (a ::ₘ O) h' := by
  refine .read own fun low _ => .read own fun base _ => .read own fun view _ => ?_
  split
  · exact .read own fun _ _ => .read own fun _ _ => Slice.reslice_owns own
  · exact .read own fun _ _ => .read own fun _ _ => Slice.ofArray_owns own
  · exact .read own fun _ _ => .read own fun _ _ => Text.substring_owns own
  · exact .read own fun _ _ => .throw own

theorem popBound_owns {present : UInt64} (own : Owns P (n + 3) O s.heap) :
    Pays P F (popBound present) s fun value s' => Owns P (n + 2) (value ::ₘ O) s'.heap := by
  unfold popBound
  split
  · exact .pure (Owns.cons_nil.2 (own.weaken (Nat.le_succ _)))
  · exact TurnM.popValue_owns own

theorem sliceExprI_keeps : Keeps P (sliceExprI node) := by
  intro n F O s _ own
  refine .look own fun _ _ => (popBound_owns own).bind fun high s₁ owned => ?_
  refine .look owned fun _ _ => (popBound_owns owned).bind fun low s₂ owned => ?_
  refine (TurnM.popValue_owns owned).bind fun object s₃ owned => ?_
  have owned : Owns P (n + maxSlots + 13) (laden [high, low, object] O) s₃.heap :=
    Heap.stacked_eq_laden (l := [high, low, object]) ▸ owned
  refine (TurnM.releasing_owns (K := fun a => a ::ₘ O)
    ((window_owns owned).turn.mono fun a _ owned => owned.lade)).bind fun a s₄ owned => ?_
  exact (TurnM.pushValueOwned_owns owned).mono fun _ _ owned => owned.tighten own.spare

/-! ## Construction -/

theorem make_keeps : Keeps P (make node) :=
  fun own => .look own fun _ _ => .look own fun _ _ => reduceTo_owns own

theorem makeValue_owns {type : Address} {args : List Address} (own : Owns P (n + 1) O s.heap) :
    Pays P F (makeValue type args) s fun a s' => Owns P (n + 1) (a ::ₘ O) s'.heap := by
  refine .look own fun sizes _ => .ofThread own fun structs _ => .look own fun tag _ => ?_
  split
  · exact .look own fun elem _ => (Slice.make_makes own).turn
  · exact .look own fun elem _ => (Channel.create_makes own).turn
  · exact .throw own

theorem makeI_keeps : Keeps P (makeI node) :=
  fun own => .look own fun _ _ => .look own fun _ _ =>
  making_keeps (fun own => makeValue_owns own) own

theorem zero_keeps : Keeps P (zero node) :=
  fun own => .look own fun _ _ => .ofThread own fun _ _ =>
  (zeroValue_makes own).turn.bind fun _ _ own =>
    TurnM.pushValueOwned_owns own

theorem constructor_keeps : Keeps P (constructor node) :=
  fun own => .look own fun _ _ => reduceTo_owns own

theorem composite_owns {type : Address} {values : List Address} (own : Owns P (n + 1) O s.heap) :
    Pays P F (composite type values) s fun a s' => Owns P (n + 1) (a ::ₘ O) s'.heap := by
  refine .ofThread own fun structs _ => .look own fun tag _ => ?_
  split
  · refine .look own fun elem _ => .look own fun size _ => .guard own fun _ => ?_
    refine (ArrayValue.zeroed_makes own).turn.bind fun arr s₁ own => ?_
    exact (Slice.store_owns own).turn.bind fun _ _ own => .pure own
  · refine .look own fun elem _ => (ArrayValue.ofValues_owns own).turn.bind fun arr s₁ own => ?_
    refine Pays.turn (.releasing ?_)
    exact (Slice.create_owns own).mono fun _ _ own => own.swap
  · exact .throw own

theorem constructorI_keeps : Keeps P (constructorI node) :=
  fun own => .look own fun _ _ => .look own fun _ _ =>
  making_keeps (fun own => composite_owns own) own

theorem structLiteral_keeps : Keeps P (structLiteral node) :=
  fun own => .look own fun _ _ => .look own fun _ _ => reduceTo_owns own

theorem structOf_owns {values : List Address} (own : Owns P (n + 1) O s.heap) :
    Pays P F (structOf node values) s fun a s' => Owns P (n + 1) (a ::ₘ O) s'.heap := by
  refine .look own fun key _ => .look own fun name _ => .ofThread own fun structs _ =>
    .look own fun decl _ => ?_
  refine (StructValue.zeroed_makes own).turn.bind fun a s₁ own => ?_
  exact (Slice.store_owns own).turn.bind fun _ _ own => .pure own

theorem structLiteralI_keeps : Keeps P (structLiteralI node) :=
  fun own => .look own fun _ _ => making_keeps (fun own => structOf_owns own) own

/-! ## Pointers -/

theorem addressOf_keeps : Keeps P (addressOf node) :=
  fun own => .look own fun _ _ => (TurnM.pushNew_owns own).bind fun _ _ own => TurnM.push_owns own

theorem addressOfI_keeps : Keeps P (addressOfI node) := by
  intro n F O s _ own
  refine (TurnM.popValue_owns own).bind fun operand s₁ owned => .look owned fun tag _ => ?_
  have point : ∀ target s, Owns P (n + maxSlots + 15) (target ::ₘ O) s.heap →
      Pays P F (do TurnM.pushValueOwned (← TurnM.releasing [target] (Pointer.create target))) s
        fun _ s' => Owns P (n + maxSlots + 16) O s'.heap := by
    intro target s owned
    refine (TurnM.releasing_owns (l := [target]) (K := fun p => p ::ₘ O)
      ((Pointer.create_owns owned).turn.mono fun _ _ owned => owned.swap)).bind fun p s' owned => ?_
    exact (TurnM.pushValueOwned_owns owned).mono fun _ _ owned => owned.tighten own.spare
  split
  · exact (Pays.pure (Q := fun target s' => Owns P (n + maxSlots + 15) (target ::ₘ O) s'.heap)
      owned).bind point
  · exact (Variable.createOwned_owns owned).turn.bind point

theorem derefWith_keeps {tag next : Tag} : Keeps P (derefWith tag next node) :=
  fun own => .look own fun _ _ => (TurnM.pushNew_owns own).bind fun _ _ own => TurnM.push_owns own

theorem derefI_keeps : Keeps P (derefI node) :=
  borrowing_keeps fun own => .look own fun _ _ => .look own fun _ _ => TurnM.pushValue_owns own

theorem derefAddressI_keeps : Keeps P (derefAddressI node) :=
  borrowing_keeps fun own => .look own fun _ _ => TurnM.pushValue_owns own

end Machine
end GoMachine

import GoMachine.Lowering
import GoMachine.Proofs.Owns.Types
import GoMachine.Value.Operator
/-!
# Ownership of nodes, operators and programs

A node that is built takes its children over. Lowering builds the parts of a construct in turn and
then the node that takes them over, so that a lowered program is one reference.
-/
namespace GoMachine

open Heap (Owns stacked laden Within)

variable {P F O : Multiset Address} [Within F O] {n : Nat} {h : Heap}
  {I : Nat → Multiset Address → Heap → Prop} [Ledger P I]

namespace Node

/-- Fields hold no references. -/
theorem setFields_owns {node : Address} {tag : Tag} {fields : List UInt64} (own : Owns P n O h) :
    Pays P F (setFields node tag fields) h fun _ h' => Owns P n O h' := by
  refine (Pays.forIn (I := fun _ h' => Owns P n O h') own ?_).bind fun _ _ own => .pure own
  intro ⟨w, i⟩ rest h own
  exact own.setField.heap.bind fun _ _ own => .pure ⟨rfl, own⟩

/-- The children are taken over, or dropped when there is no memory for the node. -/
theorem build_owns {tag : Tag} {fields : List UInt64} {l : List Address}
    (own : Owns P n (stacked O l) h) :
    Pays P F (build tag fields l) h fun node h' => Owns P n (node ::ₘ O) h' := by
  have own : Owns P n (laden l O) h := Heap.stacked_eq_laden (O := O) ▸ own
  refine Pays.attempt (G := laden l F) own.allocate.heap (fun node h₁ own => ?_) fun e h₁ leaks =>
    ?_
  · refine (setFields_owns own).bind fun _ h₂ own => ?_
    refine (Pays.forIn (I := fun rest h' => Owns P n (node ::ₘ laden (rest.map Prod.fst) O) h') ?_
      ?_).bind fun _ h₃ own => .pure own
    · rwa [List.zipIdx_map_fst]
    · intro ⟨child, i⟩ rest h own
      have own : Owns P n (child ::ₘ node ::ₘ laden (rest.map Prod.fst) O) h := own.swap
      exact own.setChildOwned.heap.bind fun _ _ own => .pure ⟨rfl, own⟩
  · exact (Pays.freeEach (f := id) (fun _ => rfl) (fun leaks => leaks.frees.heap)
      (by rwa [List.map_id])).bind fun _ _ leaks => .fail leaks

/-- The children keep their owners and get one more reference each. -/
theorem buildShared_owns {tag : Tag} {fields : List UInt64} {children : List Address}
    (own : Owns P (n + 1) O h) :
    Pays P F (buildShared tag fields children) h fun node h' => Owns P (n + 1) (node ::ₘ O) h' := by
  refine own.allocate.heap.bind fun node h₁ own => ?_
  refine (setFields_owns own).bind fun _ h₂ own => ?_
  refine (Pays.forIn (I := fun _ h' => Owns P (n + 1) (node ::ₘ O) h') own ?_).bind
    fun _ _ own => .pure own
  intro ⟨child, i⟩ rest h own
  exact own.setChild.heap.bind fun _ _ own => .pure ⟨rfl, own⟩

theorem unit_owns {tag : Tag} (own : Owns P n O h) :
    Pays P F (unit tag) h fun node h' => Owns P n (node ::ₘ O) h' :=
  own.allocate.heap

end Node

/-! ## Operators -/

/-- An operand that is its own result gets a new reference. -/
theorem UnaryOp.apply_owns {op : UnaryOp} {operand : Address} (own : I (n + 1) O h) :
    Pays P F (op.apply operand) h fun a h' => I n (a ::ₘ O) h' := by
  have less := Account.weaken own (Nat.le_succ n)
  have same : Pays P F (liftM (HeapM.reference operand) : Action Address) h
      fun a h' => I n (a ::ₘ O) h' :=
    (Account.reference own).heap.mono fun a h' ⟨e, own⟩ => e ▸ own
  refine .read own fun view _ => ?_
  split
  · exact same
  · exact same
  · exact same
  · exact Scalar.new_owns (by rfl) less
  · exact Scalar.new_owns (by rfl) less
  · exact Scalar.new_owns (by rfl) less
  · exact Scalar.new_owns (by rfl) less
  · exact .throw own

namespace BinaryOp

variable {op : BinaryOp}

theorem onInts_owns {a b : Int32} (own : I n O h) :
    Pays P F (op.onInts a b) h fun r h' => I n (r ::ₘ O) h' := by
  unfold onInts
  split
  · exact Scalar.new_owns (by rfl) own
  split
  · exact Scalar.new_owns (by rfl) own
  · exact Scalar.new_owns (by rfl) own
  · exact Scalar.new_owns (by rfl) own
  · split
    · exact .throw own
    · exact Scalar.new_owns (by rfl) own
  · split
    · exact .throw own
    · exact Scalar.new_owns (by rfl) own
  · exact .throw own

theorem onFloats_owns {a b : UInt32} (own : I n O h) :
    Pays P F (op.onFloats a b) h fun r h' => I n (r ::ₘ O) h' := by
  unfold onFloats
  extract_lets x y
  split
  · exact Scalar.new_owns (by rfl) own
  split
  · exact Scalar.new_owns (by rfl) own
  · exact Scalar.new_owns (by rfl) own
  · exact Scalar.new_owns (by rfl) own
  · split
    · exact .throw own
    · exact Scalar.new_owns (by rfl) own
  · exact .throw own

theorem onStrings_owns {a b : Address} (own : I (n + 1) O h) :
    Pays P F (op.onStrings a b) h fun r h' => I (n + 1) (r ::ₘ O) h' := by
  unfold onStrings
  split
  · exact Text.concat_owns own
  iterate 6 exact .read own fun _ _ => Scalar.new_owns (by rfl) own
  exact .throw own

theorem onBools_owns {a b : Bool} (own : I n O h) :
    Pays P F (op.onBools a b) h fun r h' => I n (r ::ₘ O) h' := by
  unfold onBools
  split
  iterate 4 exact Scalar.new_owns (by rfl) own
  exact .throw own

/-- The operands stay with their owners, and the result is new. -/
theorem apply_owns {left right : Address} (own : I (n + 1) O h) :
    Pays P F (op.apply left right) h fun r h' => I (n + 1) (r ::ₘ O) h' := by
  refine .read own fun l _ => .read own fun r _ => ?_
  split
  iterate 4 exact onInts_owns own
  · exact onFloats_owns own
  · exact onStrings_owns own
  · exact onBools_owns own
  split
  iterate 2 exact .read own fun _ _ => Scalar.new_owns (by rfl) own
  exact .throw own

end BinaryOp

/-- The variable takes the new value over. -/
theorem StepOp.apply_owns {op : StepOp} {var : Address} (own : I n O h) :
    Pays P F (op.apply var) h fun _ h' => I n O h' := by
  refine .read own fun value _ => .read own fun view _ => ?_
  split
  · exact (Scalar.new_owns (by rfl) own).bind fun next _ own => Variable.setValueOwned_owns own
  · exact (Scalar.new_owns (by rfl) own).bind fun next _ own => Variable.setValueOwned_owns own
  · exact .throw own

end GoMachine

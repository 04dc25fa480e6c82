import GoMachine.Proofs.Schedule.Statements
/-!
# What composite values and pointers do

Members, elements, windows, construction and pointers are `Tame`, and so are the builtins that
return a value.
-/
namespace GoMachine

open Heap (Orderly)

variable {c : List Address} {a b v node : Address}

/-- A channel makes its three queues itself, and they are not the run queue. -/
@[grind ←]
theorem Channel.create_tame {cap : Int} (ha : a ∈ .nil :: c) : Tame c (create a cap) := by
  refine .guard fun _ => .bind (.heap (.allocate rfl)) fun ch => .bind (.orRelease ?_) fun _ =>
    .pure (by grind)
  refine .bind (.heap (.setField (.inl rfl))) fun _ => .bind (.forIn fun i _ => ?_) fun _ =>
    .heap (.setChild (.inl rfl) (by grind))
  exact .bind Queue.create_tame fun q => .bind (.heap (.setChildOwned (.inl rfl) (by grind)))
    fun _ => .pure (by grind)

namespace Machine

/-- The continuation keeps what it carries, and the operands come in front of it. -/
theorem reduceTo_tame {tag : Tag} {fields : List UInt64} {carried operands : List Address}
    (ht : tag.isOpen) (ht' : tag.isPersonal = false) (hc : carried ⊆ .nil :: c)
    (ho : operands ⊆ .nil :: c) : Tame c (reduceTo tag fields carried operands) :=
  .bind (TurnM.pushShared_tame ht ht' hc) fun _ => TurnM.pushInOrder_tame (by grind)

/-! ## Members and methods -/

theorem selectFrom_tame {tag next : Tag} (ht : tag.isOpen) (hn : next.isOpen)
    (hn' : next.isPersonal = false) : Tame c (selectFrom tag next node) :=
  .bind (.turnQuery (.child (.inl ht))) fun _ => .bind (.turnQuery (.child (.inl ht))) fun _ =>
    reduceTo_tame hn hn' (by grind) (by grind)

/-- A member may be asked for through a pointer, which leads to the struct. -/
theorem memberVariable_asks {tag : Tag} (ht : tag.isOpen) :
    Asks c (memberVariable node tag a) := by
  refine .after fun s => ?_
  split
  · exact .after fun _ => .bind (.child (.inl ht)) fun _ => StructValue.memberByKey_asks
  · exact .bind (.child (.inl ht)) fun _ => StructValue.memberByKey_asks

theorem memberI_tame : Tame c (memberI node) :=
  .bind TurnM.popValue_tame fun object => .releasingAll (by grind) <|
    .bind (.turnQuery (memberVariable_asks rfl)) fun _ => .bind (.turnQuery Variable.value_asks)
      fun _ => TurnM.pushValue_tame (by grind)

theorem memberAddressI_tame : Tame c (memberAddressI node) :=
  .bind TurnM.popValue_tame fun object => .releasingAll (by grind) <|
    .bind (.turnQuery (memberVariable_asks rfl)) fun _ => TurnM.pushValue_tame (by grind)

theorem nativeMethod_tame {owner name : String} : Tame c (nativeMethod owner name) :=
  .guard fun _ => BuiltinRef.create_tame

/-- A method is looked up by the name of the type, or is a builtin. -/
theorem methodOf_tame {name : String} : Tame c (methodOf a name) := by
  refine .look fun view => ?_
  split
  · refine .look fun owner => .bind TurnM.structs_tame fun structs =>
      .bind (.turnQuery Frame.lookupText?_asks) fun found => ?_
    cases found with
    | none => exact .throw
    | some method => exact .turnHeap (.reference (by grind))
  · exact .turn nativeMethod_tame
  · exact .turn nativeMethod_tame
  · exact .throw
  · exact .throw

/-- The bound method keeps the callee and the receiver. -/
theorem bindMethod_tame (ha : a ∈ .nil :: c) : Tame c (bindMethod node a) :=
  .look fun key => .look fun name => .look fun base => .bind methodOf_tame fun callee =>
    .turn (.releasing (by grind) (BoundMethod.create_tame (by grind) (by grind)))

theorem methodMemberI_tame : Tame c (methodMemberI node) :=
  .bind TurnM.popValue_tame fun receiver =>
    .bind (.releasingAll (by grind) (bindMethod_tame (by grind))) fun _ =>
      TurnM.pushValueOwned_tame (by grind)

/-! ## Elements and windows -/

theorem evaluateAt_tame {tag next : Tag} (ht : tag.isOpen) (hn : next.isOpen)
    (hn' : next.isPersonal = false) : Tame c (evaluateAt tag next node) :=
  .bind (.turnQuery (.child (.inl ht))) fun _ => .bind (.turnQuery (.child (.inl ht))) fun _ =>
    reduceTo_tame hn hn' (by grind) (by grind)

/-- An element is the variable itself or what is in it, as the node says. -/
theorem element_asks {addressable : Bool} : Asks c (element a b addressable) := by
  refine .after fun i => .after fun base => ?_
  extract_lets pick
  have pick_asks : ∀ {v d}, v ∈ d → Asks d (pick v) := fun {v d} hv => by
    unfold pick
    split
    · exact .pure (by grind)
    · exact Variable.value_asks
  refine .after fun view => ?_
  split
  · exact .bind ArrayValue.element_asks fun var => pick_asks (by grind)
  · exact .bind Slice.element_asks fun var => pick_asks (by grind)
  · exact .throw
  · split
    · exact .throw
    · exact Text.runeAt_asks
  · exact .after fun _ => .throw

theorem indexWith_tame {addressable : Bool} : Tame c (indexWith addressable) :=
  .bind TurnM.popValue_tame fun i => .bind TurnM.popValue_tame fun object =>
    .releasingAll (by grind) <| .bind (.turnQuery element_asks) fun _ =>
      TurnM.pushValue_tame (by grind)

/-- The operands are parts of the node, so the node has to be there. -/
theorem sliceExpr_runs : RunsTame .sliceExpr sliceExpr := fun _ _ _ _ _ o k => .look fun _ _ =>
  .look fun _ _ => sharing_parts o k rfl fun _ => reduceTo_tame rfl rfl (by grind) (by grind)

/-- A window of a slice, of an array that a pointer leads to, or of a text. -/
theorem window_tame {low high : Address} (ha : a ∈ .nil :: c) : Tame c (window a low high) := by
  refine .after fun _ => .bind (.query (Pointer.follow_asks ha)) fun base =>
    .bind (.query (View.of_asks (by grind))) fun view => ?_
  split
  · exact .after fun _ => .after fun _ => Slice.reslice_tame
  · exact .after fun _ => .after fun _ => Slice.ofArray_tame (by grind)
  · exact .after fun _ => .after fun _ => Text.substring_tame
  · exact .after fun _ => .throw

/-- A bound that is left out is not on the stash. -/
theorem popBound_tame {present : UInt64} : Tame c (popBound present) := by
  unfold popBound
  split
  · exact .pure (by grind)
  · exact TurnM.popValue_tame

theorem sliceExprI_tame : Tame c (sliceExprI node) :=
  .look fun _ => .bind popBound_tame fun high => .look fun _ => .bind popBound_tame fun low =>
    .bind TurnM.popValue_tame fun object =>
      .bind (.releasingAll (by grind) (.turn (window_tame (by grind)))) fun _ =>
        TurnM.pushValueOwned_tame (by grind)

/-! ## Construction -/

theorem make_runs : RunsTame .make make := fun _ _ _ _ _ o k => .look fun argc _ =>
  sharing_parts o k rfl fun parts => reduceTo_tame rfl rfl
    (by grind [List.mem_of_mem_take]) (by grind [List.mem_of_mem_drop])

/-- Sizes are read off the arguments, and what is made is new. -/
theorem makeValue_tame {args : List Address} : Tame c (makeValue a args) := by
  refine .look fun sizes => .bind TurnM.structs_tame fun structs => .look fun tag => ?_
  split
  · exact .bind (.turnQuery TypeDesc.elem_asks) fun elem => .turn (Slice.make_tame (by grind))
  · exact .bind (.turnQuery TypeDesc.elem_asks) fun elem => .turn (Channel.create_tame (by grind))
  · exact .throw

theorem makeI_tame : Tame c (makeI node) :=
  .look fun argc => .look fun type => .bind TurnM.popValues_tame fun args =>
    .bind (.releasingAll (by grind) makeValue_tame) fun _ => TurnM.pushValueOwned_tame (by grind)

theorem zero_tame : Tame c (zero node) :=
  .look fun type => .bind TurnM.structs_tame fun structs => .bind (.turn zeroValue_tame) fun _ =>
    TurnM.pushValueOwned_tame (by grind)

theorem constructor_runs : RunsTame .constructor Machine.constructor := fun _ _ _ _ _ o k =>
  sharing_parts o k rfl fun parts => reduceTo_tame rfl rfl
    (by grind [List.mem_of_mem_take]) (by grind [List.mem_of_mem_drop])

/-- The elements are put into a new array, or into an array that a new slice takes over. -/
theorem composite_tame {values : List Address} (hv : values ⊆ .nil :: c) :
    Tame c (composite a values) := by
  refine .bind TurnM.structs_tame fun structs => .look fun tag => ?_
  split
  · refine .bind (.turnQuery TypeDesc.elem_asks) fun elem => .look fun size => .guard fun _ =>
      .bind (.turn (ArrayValue.zeroed_tame (by grind))) fun arr =>
        .bind (.turn (Slice.store_tame (by grind))) fun _ => .pure (by grind)
  · refine .bind (.turnQuery TypeDesc.elem_asks) fun elem =>
      .bind (.turn (ArrayValue.ofValues_tame (by grind) (by grind))) fun arr =>
        .turn (.releasing (by grind) (Slice.create_tame (by grind) (by grind)))
  · exact .throw

theorem constructorI_tame : Tame c (constructorI node) :=
  .look fun count => .look fun type => .bind TurnM.popValues_tame fun values =>
    .bind (.releasingAll (by grind) (composite_tame (by grind))) fun _ =>
      TurnM.pushValueOwned_tame (by grind)

theorem structLiteral_runs : RunsTame .structLiteral structLiteral := fun _ _ _ _ _ o k =>
    .look fun count _ =>
  sharing_parts o k rfl fun parts => reduceTo_tame rfl rfl
    (by grind [List.mem_of_mem_take]) (by grind [List.mem_of_mem_drop])

/-- The fields are put into the members of a struct that starts with zero values. -/
theorem structOf_tame {values : List Address} (hv : values ⊆ .nil :: c) :
    Tame c (structOf node values) := by
  refine .look fun key => .look fun name => .bind TurnM.structs_tame fun structs =>
    .bind (.turnQuery TypeDesc.lookup_asks) fun decl =>
      .bind (.turn (StructValue.zeroed_tame (by grind))) fun s =>
        .bind (.turn (Slice.store_tame (by grind))) fun _ => .pure (by grind)

theorem structLiteralI_tame : Tame c (structLiteralI node) :=
  .look fun count => .bind TurnM.popValues_tame fun values =>
    .bind (.releasingAll (by grind) (structOf_tame (by grind))) fun _ =>
      TurnM.pushValueOwned_tame (by grind)

/-! ## Pointers -/

theorem addressOf_tame : Tame c (addressOf node) :=
  .bind (.turnQuery (.child (.inl rfl))) fun _ => .bind (TurnM.pushNew_tame rfl rfl (by grind))
    fun _ => TurnM.push_tame (by grind)

/-- A variable is pointed to as it is. Any other value gets a variable of its own first. -/
theorem addressOfI_tame : Tame c (addressOfI node) := by
  refine .bind TurnM.popValue_tame fun operand => .look fun tag => ?_
  extract_lets rest
  have rest_tame : ∀ {target d}, target ∈ d → Tame d (rest target) := fun known =>
    .bind (.releasingAll (by grind) (.turn (Pointer.create_tame (by grind)))) fun _ =>
      TurnM.pushValueOwned_tame (by grind)
  split
  · exact rest_tame (by grind)
  · exact .bind (.turn (Variable.createOwned_tame (by grind) (by grind))) fun target =>
      rest_tame (by grind)

theorem derefWith_tame {tag next : Tag} (ht : tag.isOpen) (hn : next.isOpen)
    (hn' : next.isPersonal = false) : Tame c (derefWith tag next node) :=
  .bind (.turnQuery (.child (.inl ht))) fun _ => .bind (TurnM.pushNew_tame hn hn' (by grind))
    fun _ => TurnM.push_tame (by grind)

/-- The target of a pointer stands in its slot. -/
theorem derefI_tame : Tame c (derefI node) :=
  .bind TurnM.popValue_tame fun p => .releasingAll (by grind) <|
    .bind (.turnQuery Pointer.target_asks) fun target =>
      .bind (.turnQuery (Display.pointee_asks (by grind))) fun _ => TurnM.pushValue_tame (by grind)

theorem pointedVariable_asks : Asks c (pointedVariable a) :=
  .bind Pointer.target_asks fun _ => .after fun _ => .pure (by grind)

theorem derefAddressI_tame : Tame c (derefAddressI node) :=
  .bind TurnM.popValue_tame fun p => .releasingAll (by grind) <|
    .bind (.turnQuery pointedVariable_asks) fun _ => TurnM.pushValue_tame (by grind)

end Machine

/-! ## Builtins -/

instance : Mentions Flow where
  addresses
    | .returned value => [value]
    | .yielded => []

namespace Builtin

/-- Lengths and capacities are new scalars. -/
theorem returnCount_tame {n : Nat} : Tame c (returnCount n) :=
  .bind (.turn Scalar.newInt32_tame) fun _ => .pure (by simp [addresses])

/-- The one argument is handed on. -/
theorem single_tame {args : List Address} (ha : args ⊆ .nil :: c) : Tame c (single args) := by
  refine .bind (.check fun _ => rfl) fun _ => .pure ?_
  cases args <;> grind

theorem runLen_tame {args : List Address} (ha : args ⊆ .nil :: c) : Tame c (runLen args) := by
  refine .bind (single_tame ha) fun a => .look fun view => ?_
  split
  · exact .look fun _ => returnCount_tame
  · exact .look fun _ => returnCount_tame
  · exact .look fun _ => returnCount_tame
  · exact .look fun _ => returnCount_tame
  · exact returnCount_tame
  · exact .look fun _ => .throw

theorem runCap_tame {args : List Address} (ha : args ⊆ .nil :: c) : Tame c (runCap args) := by
  refine .bind (single_tame ha) fun a => .look fun view => ?_
  split
  · exact .look fun _ => returnCount_tame
  · exact .look fun _ => returnCount_tame
  · exact .look fun _ => returnCount_tame
  · exact returnCount_tame
  · exact .look fun _ => .throw

/-- The slice and the values that are appended are arguments. -/
theorem runAppend_tame {args : List Address} (ha : args ⊆ .nil :: c) : Tame c (runAppend args) := by
  unfold runAppend
  split
  · exact .throw
  · exact .bind TurnM.structs_tame fun structs => .bind (.turn (Slice.append_tame (by grind)))
      fun _ => .pure (by simp [addresses])

theorem runPrintln_tame {args : List Address} : Tame c (runPrintln args) :=
  .look fun _ => .bind TurnM.emit_tame fun _ => .pure (by simp [addresses])

theorem runPrint_tame {args : List Address} : Tame c (runPrint args) :=
  .look fun _ => .bind TurnM.emit_tame fun _ => .pure (by simp [addresses])

theorem runSprint_tame {args : List Address} : Tame c (runSprint args) :=
  .look fun _ => .bind (.turn Text.create_tame) fun _ => .pure (by simp [addresses])

end Builtin
end GoMachine

import GoMachine.Proofs.Schedule.Tame
import GoMachine.Value.Operator
import GoMachine.Value.Zero
/-!
# What programs do with values

Values are built from values and hold nothing private: making and changing them is `Tame`, and what
is read from them is as good as they are.
-/
namespace GoMachine

open Heap (Orderly)

variable {c : List Address} {a b v : Address}

namespace Scalar

/-- A scalar refers to nothing. Its tag is neither that of a thread or a stack, nor of a record of
the scheduler. -/
@[grind ←]
theorem new_tame {tag : Tag} {w : UInt64} (ht : tag.isPersonal = false)
    (ht' : tag.isInternal = false) : Tame c (new tag w) := by
  unfold new
  grind

@[grind ←]
theorem newBool_tame {x : Bool} : Tame c (newBool x) := new_tame rfl rfl

@[grind ←]
theorem newInt32_tame {n : Int32} : Tame c (newInt32 n) := new_tame rfl rfl

@[grind ←]
theorem newFloat32_tame {bits : UInt32} : Tame c (newFloat32 bits) := new_tame rfl rfl

@[grind ←]
theorem newRune_tame {x : Char} : Tame c (newRune x) := new_tame rfl rfl

end Scalar

namespace Text

/-- The runes that a text is made of are new and its own. -/
@[grind ←]
theorem create_tame {text : String} : Tame c (create text) := by
  unfold create
  refine .bind ?_ fun s => .bind ?_ fun _ => .bind (.forIn fun _ _ => ?_) fun _ => ?_ <;> grind

@[grind ←]
theorem runeAt_asks {i : Int} : Asks c (runeAt a i) := by
  unfold runeAt
  grind

end Text

namespace Entry

/-- An entry refers to what it is made of, which has to be given. -/
@[grind ←]
theorem create_tame {key value next : Address} (hk : key ∈ .nil :: c) (hv : value ∈ .nil :: c)
    (hn : next ∈ .nil :: c) : Tame c (create key value next) := by
  unfold create
  refine .bind ?_ fun entry => ?_ <;> grind

@[grind ←]
theorem key_asks : Asks c (key a) := .child (.inl rfl)

@[grind ←]
theorem value_asks : Asks c (value a) := .child (.inl rfl)

@[grind ←]
theorem next_asks : Asks c (next a) := .child (.inl rfl)

/-- What is read off a list of entries stands in slots of entries, and these hold nothing private.
-/
theorem take_asks {n : Nat} : Asks c (take n a) := by
  induction n generalizing a c with
  | zero => exact .pure (List.nil_subset _)
  | succ n ih =>
    unfold take
    grind

@[grind ←]
theorem pairs_asks : Asks c (pairs a) := .read fun _ => take_asks

/-- What is found is an entry of the list, whatever it is looked for by. -/
theorem find?_asks {matching : Address → Query Bool} {n : Nat} : Asks c (find? matching n a) := by
  induction n generalizing a c with
  | zero => exact .pure (List.nil_subset _)
  | succ n ih =>
    unfold find?
    grind

end Entry

namespace Frame

@[grind ←]
theorem create_tame (ha : a ∈ .nil :: c) : Tame c (create a) := by
  unfold create
  grind

@[grind ←]
theorem parent_asks : Asks c (parent a) := .child (.inl rfl)

/-- The frame itself need not be given: it is written only if it is a frame, and so nothing private.
-/
@[grind ←]
theorem insert_tame (ha : a ∈ .nil :: c) (hv : v ∈ .nil :: c) : Tame c (insert b a v) := by
  unfold insert
  grind

@[grind ←]
theorem insertText_tame {name : String} (hv : v ∈ .nil :: c) : Tame c (insertText b name v) := by
  unfold insertText
  grind

theorem findLocal?_asks {matching : Address → Query Bool} : Asks c (findLocal? matching a) :=
  .bind (.child (.inl rfl)) fun _ => .read fun _ => Entry.find?_asks

/-- The search goes on in frames that stand in the slots of frames. -/
theorem findAmong?_asks {matching : Address → Query Bool} {n : Nat} :
    Asks c (findAmong? matching n a) := by
  induction n generalizing a c with
  | zero => exact .pure (List.nil_subset _)
  | succ n ih =>
    unfold findAmong?
    grind [findLocal?_asks]

theorem find?_asks {matching : Address → Query Bool} : Asks c (find? matching a) :=
  .read fun _ => findAmong?_asks

@[grind ←]
theorem lookup?_asks : Asks c (lookup? a b) := find?_asks

@[grind ←]
theorem lookupText?_asks {name : String} : Asks c (lookupText? a name) := find?_asks

@[grind ←]
theorem lookupLocal?_asks {name : String} : Asks c (lookupLocal? a name) := findLocal?_asks

@[grind ←]
theorem entries_asks : Asks c (entries a) := by
  unfold entries
  grind

end Frame

/-! ## Variables, pointers and callable values -/

namespace Variable

@[grind ←]
theorem create_tame (ha : a ∈ .nil :: c) (hv : v ∈ .nil :: c) : Tame c (create a v) := by
  unfold create
  grind

/-- The value is given up however it ends. -/
@[grind ←]
theorem createOwned_tame (ha : a ∈ .nil :: c) (hv : v ∈ .nil :: c) : Tame c (createOwned a v) :=
  .releasing hv (create_tame ha hv)

@[grind ←]
theorem type_asks : Asks c (type a) := .bind .unit fun _ => .child (.inl rfl)

@[grind ←]
theorem value_asks : Asks c (value a) := .bind .unit fun _ => .child (.inl rfl)

/-- Only what is put into the variable has to be given. -/
@[grind ←]
theorem setValue_tame (hv : v ∈ .nil :: c) : Tame c (setValue a v) := by
  unfold setValue
  grind

@[grind ←]
theorem setValueOwned_tame (hv : v ∈ .nil :: c) : Tame c (setValueOwned a v) := by
  unfold setValueOwned
  grind

end Variable

namespace Pointer

@[grind ←]
theorem create_tame (ha : a ∈ .nil :: c) : Tame c (create a) := by
  unfold create
  grind

@[grind ←]
theorem target_asks : Asks c (target a) := by
  unfold target
  grind

/-- Each hop comes to something in a slot of a pointer or a variable, so the address to start from
is all that has to be given. -/
theorem followTo_asks {n : Nat} (ha : a ∈ .nil :: c) : Asks c (followTo n a) := by
  induction n generalizing a c with
  | zero => exact .pure (by simpa using ha)
  | succ n ih =>
    unfold followTo
    grind

@[grind ←]
theorem follow_asks (ha : a ∈ .nil :: c) : Asks c (follow a) := followTo_asks ha

end Pointer

namespace Closure

/-- A closure keeps the frame that it was made in, and the literal. -/
@[grind ←]
theorem create_tame (ha : a ∈ .nil :: c) (hb : b ∈ .nil :: c) : Tame c (create a b) := by
  unfold create
  grind

@[grind ←]
theorem literal_asks : Asks c (literal a) := .child (.inl rfl)

@[grind ←]
theorem frame_asks : Asks c (frame a) := .child (.inl rfl)

end Closure

namespace BoundMethod

@[grind ←]
theorem create_tame (ha : a ∈ .nil :: c) (hb : b ∈ .nil :: c) : Tame c (create a b) := by
  unfold create
  grind

@[grind ←]
theorem callee_asks : Asks c (callee a) := .child (.inl rfl)

@[grind ←]
theorem receiver_asks : Asks c (receiver a) := .child (.inl rfl)

end BoundMethod

@[grind ←]
theorem BuiltinRef.create_tame {name : String} : Tame c (create name) := by
  unfold create
  grind

/-! ## Chains and queues -/

/-- A link of a queue of a channel or a lock is as open as what it holds. The links of the run queue
are made elsewhere. -/
@[grind ←]
theorem Chain.createOwned_tame (ha : a ∈ .nil :: c) (hb : b ∈ .nil :: c) :
    Tame c (createOwned a b) := by
  unfold createOwned
  grind

namespace Queue

@[grind ←]
theorem create_tame : Tame c create := .heap (.allocate rfl)

/-- The queue has to be one that is given, as the run queue is a queue too. -/
@[grind ←]
theorem enqueueOwned_tame (ha : a ∈ c) (hv : v ∈ .nil :: c) : Tame c (enqueueOwned a v) := by
  unfold enqueueOwned
  refine .bind ?_ fun node => .bind ?_ fun back => ?_ <;> grind

@[grind ←]
theorem enqueue_tame (ha : a ∈ c) (hv : v ∈ .nil :: c) : Tame c (enqueue a v) := by
  unfold enqueue
  grind

/-- What comes out was in a slot of the queue, which is not the run queue. -/
@[grind ←]
theorem dequeue_tame (ha : a ∈ c) : Tame c (dequeue a) := by
  unfold dequeue
  refine .bind (by grind) fun front => ?_
  split
  · grind
  refine .bind (by grind) fun value => .bind (by grind) fun next => ?_
  dsimp only
  split <;> refine .bind ?_ fun _ => .bind ?_ fun _ => ?_ <;> grind

end Queue

/-! ## Types -/

namespace TypeDesc

/-- The tag of a type is checked before the record is made. -/
@[grind ←]
theorem simple_tame {tag : Tag} : Tame c (simple tag) :=
  .guard fun h => .heap (.allocate (by cases tag <;> first | rfl | exact absurd rfl h))

@[grind ←]
theorem array_tame {size : Nat} (ha : a ∈ .nil :: c) : Tame c (array a size) := by
  unfold array withElem
  grind

@[grind ←]
theorem slice_tame (ha : a ∈ .nil :: c) : Tame c (slice a) := by
  unfold slice withElem
  grind

@[grind ←]
theorem channel_tame (ha : a ∈ .nil :: c) : Tame c (channel a) := by
  unfold channel withElem
  grind

@[grind ←]
theorem pointer_tame (ha : a ∈ .nil :: c) : Tame c (pointer a) := by
  unfold pointer withElem
  grind

@[grind ←]
theorem named_tame {name : String} : Tame c (named name) := by
  unfold named
  grind

@[grind ←]
theorem addMember_tame {name : String} (hb : b ∈ .nil :: c) : Tame c (addMember a name b) := by
  unfold addMember
  grind

/-- The types of the members are given, and the declaration keeps them. -/
@[grind ←]
theorem declare_tame {name : String} {members : List (String × Address)}
    (hm : ∀ m ∈ members, m.2 ∈ .nil :: c) : Tame c (declare name members) := by
  unfold declare
  refine .bind ?_ fun decl =>
    .bind (.orRelease (.bind ?_ fun key => .bind ?_ fun _ => .bind (.forIn fun m h => ?_) fun _ =>
    ?_)) fun _ => ?_
  all_goals grind

@[grind ←]
theorem elem_asks : Asks c (elem a) := by
  unfold elem
  grind

@[grind ←]
theorem members_asks : Asks c (members a) := .bind (.child (.inl rfl)) fun _ => Entry.pairs_asks

@[grind ←]
theorem lookup_asks {name : String} : Asks c (lookup a name) := by
  unfold lookup
  grind

/-- A named type is looked up among the declarations, which nothing private is among. -/
@[grind ←]
theorem resolve_asks : Asks c (resolve a b) := .bind .text fun _ => lookup_asks

end TypeDesc

/-! ## Arrays, slices and structs -/

namespace ArrayValue

/-- Each element is made with what was known before and the array itself. -/
theorem build_tame {size : Nat} {make : Nat → Action Address} (hm : ∀ i d, c ⊆ d →
    Tame d (make i)) :
    Tame c (build size make) := by
  unfold build
  refine .bind ?_ fun arr => .bind (.forIn fun i _ => .bind (.orRelease (hm i _ ?_)) fun var => ?_)
    fun _ => ?_
  all_goals grind

@[grind ←]
theorem ofValues_tame {values : List Address} (ha : a ∈ .nil :: c) (hv : values ⊆ .nil :: c) :
    Tame c (ofValues a values) := by
  refine build_tame fun i d sub => Variable.create_tame ?_ ?_
  · grind
  · rw [Array.getD_eq_getD_getElem?, List.getElem?_toArray]
    grind

/-- An element is a variable in a slot of the array. -/
@[grind ←]
theorem element_asks {i : Int} : Asks c (element a i) := by
  unfold element
  grind

end ArrayValue

namespace Slice

@[grind ←]
theorem create_tame {offset size cap : Nat} (ha : a ∈ .nil :: c) (hb : b ∈ .nil :: c) :
    Tame c (create a b offset size cap) := by
  unfold create
  refine .bind ?_ fun s => .bind ?_ fun _ => .bind ?_ fun _ => .bind ?_ fun _ => ?_ <;> grind

@[grind ←]
theorem backing_asks : Asks c (backing a) := .bind .unit fun _ => .child (.inl rfl)

@[grind ←]
theorem elemType_asks : Asks c (elemType a) := .bind .unit fun _ => .child (.inl rfl)

/-- What backs a slice is an array in its own slot. -/
@[grind ←]
theorem slot_asks {i : Nat} : Asks c (slot a i) := by
  unfold slot
  grind

@[grind ←]
theorem element_asks {i : Int} : Asks c (element a i) := by
  unfold element
  grind

theorem valuesFrom_asks {i n : Nat} : Asks c (valuesFrom a i n) := by
  induction n generalizing i c with
  | zero => exact .pure (List.nil_subset _)
  | succ n ih =>
    unfold valuesFrom
    grind

@[grind ←]
theorem values_asks : Asks c (values a) := .bind .nat fun _ => valuesFrom_asks

/-- A new window keeps the array and the type of the old one. -/
@[grind ←]
theorem reslice_tame {low high : Int} : Tame c (reslice a low high) := by
  unfold reslice
  refine .bind (by grind) fun cap => .bind (.check fun _ => rfl) fun _ => .bind ?_ fun array =>
    .bind ?_ fun elem => .bind ?_ fun _ => ?_
  all_goals grind

@[grind ←]
theorem ofArray_tame {low high : Int} (ha : a ∈ .nil :: c) : Tame c (ofArray a low high) := by
  unfold ofArray
  refine .bind (by grind) fun size => .bind (.check fun _ => rfl) fun _ => ?_
  dsimp only
  split
  all_goals grind

end Slice

namespace StructValue

/-- A struct is made member by member, from types that stand in its declaration. -/
theorem build_tame {make : Address → Action Address}
    (hm : ∀ type d, type ∈ d → c ⊆ d → Tame d (make type)) (ha : a ∈ .nil :: c) :
    Tame c (build make a) := by
  refine .bind (by grind) fun s => .bind (.orRelease ?_) fun _ => .pure (by grind)
  refine .bind (by grind) fun _ => .bind (by grind) fun members => .bind (by grind) fun _ =>
    .bind (by grind) fun pairs => .bind (.forIn fun pair h => ?_) fun _ => .pure (by grind)
  have known : pair.2 ∈ addresses pairs := mem_addresses_list.2 ⟨pair, h, by simp [addresses]⟩
  refine .bind (hm pair.2 _ (by simp [known]) (by grind)) fun var => .bind ?_ fun _ =>
    .pure (by grind)
  exact .releasing (by simp) (Frame.insert_tame (by grind) (by simp))

@[grind ←]
theorem decl_asks : Asks c (decl a) := .bind .unit fun _ => .child (.inl rfl)

/-- A member is looked up in the frame of the struct. -/
@[grind ←]
theorem member_asks {name : String} : Asks c (member a name) := by
  refine .bind .unit fun _ => .bind (.child (.inl rfl)) fun members =>
    .bind Frame.lookupLocal?_asks fun found => ?_
  cases found with
  | none => exact .read fun _ => .throw
  | some var => exact .pure (by grind)

@[grind ←]
theorem memberByKey_asks : Asks c (memberByKey a b) := .bind .text fun _ => member_asks

@[grind ←]
theorem members_asks : Asks c (members a) := by
  unfold members
  grind

end StructValue

/-! ## Views and operators -/

instance : Mentions View where
  addresses
    | .record _ a => [a]
    | _ => []

@[simp, grind =]
theorem addresses_record {t : Tag} : addresses (View.record t a) = [a] := rfl

/-- A view mentions at most the record that is viewed. -/
@[grind ←]
theorem View.of_asks (ha : a ∈ .nil :: c) : Asks c (of a) := by
  unfold of
  refine .bind .kind fun t => ?_
  split
  · exact .pure (List.nil_subset _)
  · exact .bind .bool fun _ => .pure (List.nil_subset _)
  · exact .bind (.quiet fun _ => rfl) fun _ => .pure (List.nil_subset _)
  · exact .bind (.quiet fun _ => rfl) fun _ => .pure (List.nil_subset _)
  · exact .bind (.quiet fun _ => rfl) fun _ => .pure (List.nil_subset _)
  · exact .pure (by simpa using ha)

@[grind ←]
theorem Display.pointee_asks (ha : a ∈ .nil :: c) : Asks c (pointee a) := by
  unfold pointee
  grind

/-- An operator makes a scalar, or hands its operand back. -/
@[grind ←]
theorem UnaryOp.apply_tame {op : UnaryOp} (ha : a ∈ .nil :: c) : Tame c (op.apply a) := by
  unfold apply
  refine .bind (.query (View.of_asks ha)) fun v => ?_
  split <;> grind

namespace BinaryOp

@[grind ←]
theorem onInts_tame {op : BinaryOp} {x y : Int32} : Tame c (op.onInts x y) := by
  unfold onInts
  grind

@[grind ←]
theorem onFloats_tame {op : BinaryOp} {x y : UInt32} : Tame c (op.onFloats x y) := by
  unfold onFloats
  grind

@[grind ←]
theorem onBools_tame {op : BinaryOp} {x y : Bool} : Tame c (op.onBools x y) := by
  unfold onBools
  grind

end BinaryOp

/-! ## Strings made from runes -/

namespace Text

/-- A text that is made of runes keeps the records of these. -/
theorem ofRunes_tame {runes : List Address} (hr : runes ⊆ .nil :: c) : Tame c (ofRunes runes) := by
  unfold ofRunes
  refine .bind (.mapM fun rune _ => .query (.quiet fun _ => rfl)) fun cs =>
    .bind (by grind) fun s =>
    .bind (by grind) fun _ => .bind (.forIn fun pair h => ?_) fun _ => .pure (by grind)
  have := List.fst_mem_of_mem_zipIdx h
  grind

/-- Both texts are read, so their runes are known not to be private. -/
@[grind ←]
theorem concat_tame : Tame c (concat a b) := by
  intro K F O h o hc
  refine .read fun _ checked => .read fun _ checked' => .read fun as ha => .read fun bs hb => ?_
  refine ofRunes_tame (c := as ++ bs)
    (List.subset_cons_of_subset _ (List.Subset.refl _)) o fun r hr => ?_
  exact (List.mem_append.1 hr).elim
    (o.plain_children (Heap.require_ok o.sound checked nofun) rfl ha r)
    (o.plain_children (Heap.require_ok o.sound checked' nofun) rfl hb r)

/-- The runes in the window are among those of the text. -/
@[grind ←]
theorem substring_tame {low high : Int} : Tame c (substring a low high) := by
  intro K F O h o hc
  refine .read fun size sized => .guard fun _ => .guard fun _ => .read fun runes hr => ?_
  obtain ⟨_, checked, -⟩ := query_bind_ok.1 sized
  refine ofRunes_tame (c := runes) ?_ o
    (o.plain_children (Heap.require_ok o.sound checked nofun) rfl hr)
  exact fun r hr => List.mem_cons_of_mem _ (List.mem_of_mem_take (List.mem_of_mem_drop hr))

end Text

namespace BinaryOp

@[grind ←]
theorem onStrings_tame {op : BinaryOp} : Tame c (op.onStrings a b) := by
  unfold onStrings
  split
  · exact Text.concat_tame
  iterate 6 exact .after fun _ => Scalar.newBool_tame
  · exact .throw

/-- The kinds of both operands choose the operator, and each makes a new value. -/
@[grind ←]
theorem apply_tame {op : BinaryOp} : Tame c (op.apply a b) := by
  refine .after fun l => .after fun r => ?_
  split
  iterate 7 grind
  split <;> grind

end BinaryOp

theorem StepOp.apply_tame {op : StepOp} : Tame c (op.apply a) := by
  refine .after fun v => .after fun view => ?_
  split
  all_goals grind

/-! ## Zero values -/

@[grind ←]
theorem LockKind.create_tame {k : LockKind} {n : Int64} (hk : k.tag.isOpen)
    (hk' : k.tag.isPersonal = false): Tame c (k.create n) := by
  unfold LockKind.create
  refine .bind ?_ fun lock => .bind ?_ fun _ => ?_ <;> grind

/-- A zero value is made along its type: what stands below a type is a type, an element of it or a
declaration. -/
theorem zeroValueTo_tame {structs : Address} {depth : Nat} :
    Tame c (zeroValueTo depth structs a) := by
  induction depth generalizing a c with
  | zero => exact .get fun _ => .throw
  | succ depth ih =>
    have variable_tame : ∀ type d, type ∈ d → c ⊆ d →
        Tame d (do Variable.createOwned type (← zeroValueTo depth structs type)) :=
      fun type d known _ => .bind ih fun v => Variable.createOwned_tame (by grind) (by grind)
    intro K F O h o hc
    refine .read fun t tagged => ?_
    split
    · exact Scalar.newBool_tame o hc
    · exact Scalar.newInt32_tame o hc
    · exact Scalar.newFloat32_tame o hc
    · exact Scalar.newRune_tame o hc
    · exact Text.create_tame o hc
    · exact Tame.bind (.query TypeDesc.elem_asks) (fun elem => .after fun size =>
        ArrayValue.build_tame fun i d sub => .bind ih fun v =>
          Variable.createOwned_tame (by grind) (by grind)) o hc
    · exact Tame.bind (.query TypeDesc.elem_asks) (fun elem =>
        Slice.create_tame (by grind) (by grind)) o hc
    · exact Tame.bind (.query TypeDesc.resolve_asks) (fun decl =>
        StructValue.build_tame (fun type d known sub => .bind ih fun v =>
          Variable.createOwned_tame (by grind) (by grind)) (by grind)) o hc
    · have plain := o.plain_of_tag (Heap.tag_ok o.sound tagged nofun) rfl rfl
      exact StructValue.build_tame (c := a :: c) (fun type d known sub => .bind ih fun v =>
          Variable.createOwned_tame (by grind) (by grind)) (by grind) o (by
        rw [List.forall_mem_cons]
        exact ⟨plain, hc⟩)
    · exact LockKind.create_tame (k := .mutex) rfl rfl o hc
    · exact LockKind.create_tame (k := .waitGroup) rfl rfl o hc
    iterate 6 exact Tame.pure (by grind) o hc
    exact .throw

@[grind ←]
theorem zeroValue_tame {structs : Address} : Tame c (zeroValue structs a) :=
    .get fun _ => zeroValueTo_tame

@[grind ←]
theorem zeroVariable_tame {structs : Address} (ha : a ∈ .nil :: c) :
    Tame c (zeroVariable structs a) := by
  unfold zeroVariable
  grind

@[grind ←]
theorem ArrayValue.zeroed_tame {structs : Address} {size : Nat} (ha : a ∈ .nil :: c) :
    Tame c (zeroed structs a size) := build_tame fun _ _ _ => zeroVariable_tame (by grind)

@[grind ←]
theorem StructValue.zeroed_tame {structs : Address} (ha : a ∈ .nil :: c) :
    Tame c (zeroed structs a) := build_tame (fun _ _ _ _ => zeroVariable_tame (by grind)) ha

namespace Slice

@[grind ←]
theorem make_tame {structs : Address} {size cap : Int} (ha : a ∈ .nil :: c) :
    Tame c (make structs a size cap) :=
  .guard fun _ => .guard fun _ => .bind (ArrayValue.zeroed_tame ha) fun array =>
    .releasing (by grind) (create_tame (by grind) (by grind))

/-- The values are put into variables that are found one by one. -/
theorem store_tame {slot : Nat → Query Address} {values : List Address} (hv : values ⊆ .nil :: c) :
    Tame c (store slot values) := by
  refine .bind (.forIn fun pair h => .after fun var => ?_) fun _ => .pure (by grind)
  have := List.fst_mem_of_mem_zipIdx h
  exact .bind (Variable.setValue_tame (hv this)) fun _ => .pure (by grind)

/-- The values go into the array of the slice if there is room, and with the old ones into a new
array otherwise. -/
@[grind ←]
theorem appendTo_tame {structs : Address} {values : List Address} (hv : values ⊆ .nil :: c) :
    Tame c (appendTo structs a values) := by
  refine .after fun size => .after fun cap => .bind (.query elemType_asks) fun elem => ?_
  dsimp only
  split
  · refine .bind (store_tame (by grind)) fun _ => .bind (.query backing_asks) fun array =>
      .after fun offset => ?_
    exact create_tame (by grind) (by grind)
  · refine .bind (ArrayValue.zeroed_tame (by grind)) fun array => .releasing (by grind) ?_
    refine .bind (.query values_asks) fun old => .bind (store_tame ?_) fun _ =>
      create_tame (by grind) (by grind)
    grind

/-- Nil is made an empty slice first. -/
@[grind ←]
theorem append_tame {structs : Address} {values : List Address} (hv : values ⊆ .nil :: c) :
    Tame c (append structs a values) := by
  unfold append
  split
  · exact .bind (create_tame (by grind) (by grind)) fun empty =>
      .releasing (by grind) (appendTo_tame (by grind))
  · exact appendTo_tame hv

end Slice

end GoMachine

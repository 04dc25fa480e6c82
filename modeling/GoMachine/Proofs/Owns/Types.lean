import GoMachine.Proofs.Owns.Values
import GoMachine.Value.Zero
/-!
# Ownership of scopes, types and aggregates

Arrays and structs are built from an action that makes one variable. `Makes k x` says that an action
gives a reference to a new record, for any client with room for `k` more references.
-/
namespace GoMachine

open Heap (Within)

variable {P F O : Multiset Address} [Within F O] {n k : Nat} {h : Heap}
  {I : Nat → Multiset Address → Heap → Prop} [Ledger P I]

/-- An action that gives a reference to what it returns. -/
def Makes (P : Multiset Address) (I : Nat → Multiset Address → Heap → Prop) (k : Nat)
    (x : Action Address) : Prop :=
  ∀ {n F O h} [Within F O], I (n + k) O h → Pays P F x h fun a h' => I (n + k) (a ::ₘ O) h'

namespace Frame

theorem insert_owns {frame key value : Address} (own : I (n + 1) O h) :
    Pays P F (insert frame key value) h fun _ h' => I (n + 1) O h' := by
  refine .read own fun first asked => ?_
  refine (Ledger.entry (Account.child_here own asked) own).bind fun entry h₁ own => ?_
  exact (Ledger.setChildOwned (.inr ⟨rfl, rfl⟩) own).heap

theorem insertText_owns {frame value : Address} {name : String} (own : I (n + 1) O h) :
    Pays P F (insertText frame name value) h fun _ h' => I (n + 1) O h' := by
  refine (Text.create_owns own).bind fun key h₁ own => ?_
  exact .releasing (insert_owns own)

end Frame

namespace TypeDesc

theorem simple_owns {tag : Tag} (own : I n O h) :
    Pays P F (simple tag) h fun type h' => I n (type ::ₘ O) h' :=
  .guard own fun check => by
    have ht : tag.isType := by simpa using check
    exact (Ledger.allocate (Tag.ne_thread (Tag.isValue_of_isType ht))
      (Tag.slots_of_isType ht).le own).heap

theorem withElem_owns {tag : Tag} {fields : Nat} {elem : Address} (ht : tag.isType)
    (own : I (n + 1) O h) :
    Pays P F (withElem tag fields elem) h fun type h' => I (n + 1) (type ::ₘ O) h' := by
  have fits : tag.slots ≤ 1 := (Tag.slots_of_isType ht).trans_le (Nat.zero_le _)
  refine (Ledger.allocate (Tag.ne_thread (Tag.isValue_of_isType ht)) fits own).heap.bind
    fun type h₁ own => ?_
  exact (Ledger.setChild (.inl (Tag.isSet_of_isType ht)) own).heap.bind fun _ h₂ own => .pure own

theorem array_owns {elem : Address} {size : Nat} (own : I (n + 1) O h) :
    Pays P F (array elem size) h fun type h' => I (n + 1) (type ::ₘ O) h' := by
  refine (withElem_owns (by rfl) own).bind fun type h₁ own => ?_
  exact (Ledger.setField rfl own).heap.bind fun _ h₂ own => .pure own

theorem named_owns {name : String} (own : I n O h) :
    Pays P F (named name) h fun type h' => I n (type ::ₘ O) h' := by
  refine (Text.create_owns own).bind fun key h₁ own => ?_
  refine (Pays.orRelease (Ledger.allocate (by simp) (Nat.zero_le _) own).heap).bind
    fun type h₂ own => ?_
  exact (Ledger.setChildOwned (.inl rfl) (Account.swap own)).heap.bind fun _ h₃ own => .pure own

theorem addMember_owns {decl type : Address} {name : String} (own : I (n + 1) O h) :
    Pays P F (addMember decl name type) h fun _ h' => I (n + 1) O h' := by
  refine (Text.create_owns own).bind fun key h₁ own => .read own fun first asked => ?_
  refine (Pays.releasing (K := fun link => link ::ₘ O)
    ((Ledger.entry (Account.child_here own asked) own).mono fun _ _ own => Account.swap own)).bind
    fun link h₂ own => ?_
  exact (Ledger.setChildOwned (.inl rfl) own).heap

theorem declare_owns {name : String} {members : List (String × Address)}
    (own : I (n + 1) O h) :
    Pays P F (declare name members) h fun decl h' => I (n + 1) (decl ::ₘ O) h' := by
  refine (Ledger.allocate (by simp) (Nat.zero_le _) own).heap.bind fun decl h₁ own => ?_
  refine (Pays.orRelease (Q := fun _ h' => I (n + 1) (decl ::ₘ O) h') ?_).bind
    fun _ h₂ own => .pure own
  refine (Text.create_owns own).bind fun key h₂ own => ?_
  refine (Ledger.setChildOwned (.inl rfl) own).heap.bind fun _ h₃ own => ?_
  refine (Pays.forIn (I := fun _ h' => I (n + 1) (decl ::ₘ O) h') own ?_).bind
    fun _ h₄ own => .pure own
  intro ⟨member, type⟩ rest h own
  exact (addMember_owns own).bind fun _ h₁ own => .pure ⟨rfl, own⟩

end TypeDesc

namespace ArrayValue

theorem build_owns {size : Nat} {make : Nat → Action Address} (makes : ∀ i, Makes P I k (make i))
    (own : I (n + k) O h) :
    Pays P F (build size make) h fun arr h' => I (n + k) (arr ::ₘ O) h' := by
  refine (Ledger.allocate (by simp) (Nat.zero_le _) own).heap.bind fun arr h₁ own => ?_
  refine (Pays.forIn (I := fun _ h' => I (n + k) (arr ::ₘ O) h') own ?_).bind
    fun _ h₂ own => .pure own
  intro i rest h own
  refine (Pays.orRelease (makes i own)).bind fun var h₁ own => ?_
  exact (Ledger.setChildOwned (.inl rfl) own).heap.bind fun _ h₂ own => .pure ⟨rfl, own⟩

theorem ofValues_owns {elem : Address} {values : List Address} (own : I (n + 1) O h) :
    Pays P F (ofValues elem values) h fun arr h' => I (n + 1) (arr ::ₘ O) h' :=
  build_owns (fun _ _ _ _ _ _ own => Variable.create_owns own) own

end ArrayValue

namespace Slice

theorem create_owns {array elem : Address} {offset size cap : Nat} (own : I (n + 1) O h) :
    Pays P F (create array elem offset size cap) h fun s h' => I (n + 1) (s ::ₘ O) h' := by
  refine (Ledger.allocate (by simp) (Nat.zero_le _) own).heap.bind fun s h₁ own => ?_
  refine (Ledger.setField rfl own).heap.bind fun _ h₂ own => ?_
  refine (Ledger.setField rfl own).heap.bind fun _ h₃ own => ?_
  refine (Ledger.setField rfl own).heap.bind fun _ h₄ own => ?_
  refine (Ledger.setChild (.inl rfl) own).heap.bind fun _ h₅ own => ?_
  exact (Ledger.setChild (.inl rfl) own).heap.bind fun _ h₆ own => .pure own

theorem reslice_owns {s : Address} {low high : Int} (own : I (n + 1) O h) :
    Pays P F (reslice s low high) h fun r h' => I (n + 1) (r ::ₘ O) h' := by
  refine .read own fun cap _ => (Pays.conclude own fun _ _ => own).bind fun _ h₁ own => ?_
  exact .read own fun array _ => .read own fun elem _ => .read own fun offset _ => create_owns own

theorem ofArray_owns {arr : Address} {low high : Int} (own : I (n + 1) O h) :
    Pays P F (ofArray arr low high) h fun s h' => I (n + 1) (s ::ₘ O) h' := by
  refine .read own fun size _ => (Pays.conclude own fun _ _ => own).bind fun _ h₁ own => ?_
  split
  · exact (Pays.pure (Q := fun _ h' => I (n + 1) O h') own).bind fun _ h₂ own =>
      create_owns own
  · exact .read own fun _ _ => .read own fun _ _ => create_owns own

end Slice

theorem StructValue.build_owns {make : Address → Action Address} {decl : Address}
    (makes : ∀ type, Makes P I (k + 1) (make type)) (own : I (n + (k + 1)) O h) :
    Pays P F (StructValue.build make decl) h fun s h' => I (n + (k + 1)) (s ::ₘ O) h' := by
  refine (Ledger.allocate (by simp) (Nat.zero_le _) own).heap.bind fun s h₁ own => ?_
  refine (Pays.orRelease (Q := fun _ h' => I (n + (k + 1)) (s ::ₘ O) h') ?_).bind
    fun _ h₂ own => .pure own
  refine (Ledger.setChild (.inl rfl) own).heap.bind fun _ h₂ own => ?_
  refine (Ledger.frame own).bind fun members h₃ own => ?_
  refine (Ledger.setChildOwned (.inl rfl) own).heap.bind fun _ h₄ own => .read own fun ms _ => ?_
  refine (Pays.forIn (I := fun _ h' => I (n + (k + 1)) (s ::ₘ O) h') own ?_).bind
    fun _ h₅ own => .pure own
  intro ⟨name, type⟩ rest h own
  refine (makes type own).bind fun var h₁ own => ?_
  exact (Pays.releasing (Frame.insert_owns own)).bind fun _ h₂ own => .pure ⟨rfl, own⟩

end GoMachine

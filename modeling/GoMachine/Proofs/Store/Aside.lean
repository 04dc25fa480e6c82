import GoMachine.Proofs.Store.Basic
import GoMachine.Proofs.Owns.Types
import GoMachine.Value.Zero
/-!
# What is made aside

A zero value is built of new records only. Nothing that a client knows of others changes on the way,
nor does any of them go away: `Adds P x` says that `x` makes a record of which nothing was known,
and leaves what is known as it is.

* `Holds.setField_aside`, `Holds.setChildOwned_aside`: changes of records of which nothing is known.
* `zeroValue_adds`: zero values.
-/
namespace GoMachine

open Heap (Holds Stores Held Owns)

variable {P O : Multiset Address} {n : Nat} {F : Facts} {S : Store} {h : Heap} {a b c : Address}
  {t : Tag} {i : Nat} {w : UInt64}

namespace Heap.Holds

/-- A change at an address of which nothing is known. -/
theorem body_aside (holds : Holds P n O F h) (ha : F a = none) {o : Option Cell} {h' : Heap}
    (u : Becomes h a o h') {B : Body} (hB : F b = some B) : h'.body? b = some B := by
  have ne : b ≠ a := fun e => by simp [e, ha] at hB
  rw [u.body?_of_ne ne, holds.body hB]

theorem allocate_aside (holds : Holds P n O F h) {fields children : Nat} :
    Yields (HeapM.allocate t fields children) h fun a h' => F a = none ∧
    Holds P n (a ::ₘ O) F h' := by
  intro a h' run
  obtain ⟨dead, -, u⟩ := holds.owns.exact.sound.allocated run
  have unknown : F a = none := by
    by_contra known
    obtain ⟨B, hB⟩ := Option.ne_none_iff_exists'.1 known
    rw [holds.isLive hB] at dead
    cases dead
  exact ⟨unknown, holds.owns.allocate.yields a h' run, holds.body_aside unknown u,
    holds.held.anti (Multiset.le_cons_self O a)⟩

theorem setField_aside (holds : Holds P n O F h) (ha : F a = none) :
    Yields (HeapM.setField a t i w) h fun _ h' => Holds P n O F h' := by
  refine Yields.ask fun slot e => ?_
  obtain ⟨c, hc, -, hi, rfl⟩ := holds.owns.exact.sound.fieldSlot_ok.1 e
  exact .modify ⟨⟨holds.owns.exact.put_field hc hi, holds.owns.spare⟩,
    holds.body_aside ha (holds.owns.exact.sound.put_field hc hi), holds.held⟩

/-- A reference to something of which nothing is known either moves into a slot. -/
theorem setChildOwned_aside (holds : Holds P n (c ::ₘ O) F h) (ha : F a = none)
    (still : F c = none ∨ c ∈ O ∨ ∃ d D, F d = some D ∧ c ∈ D.children) :
    Yields (HeapM.setChildOwned a t i c) h fun _ h' => Holds P n O F h' := by
  refine Yields.ask fun slot e => ?_
  obtain ⟨o, ho, rfl, hi, rfl⟩ := holds.owns.exact.sound.childSlot_ok.1 e
  obtain ⟨-, word, exact, u⟩ := put_child holds.owns.exact ho (List.getElem?_eq_getElem hi)
  refine Yields.bind (Q := fun old h₁ => old = o.children[i] ∧
    h₁ = h.setWord (a.index + 2 + o.fields.length + i) c.toWord) (.modifyGet ⟨word, rfl⟩) ?_
  rintro _ _ ⟨rfl, rfl⟩
  exact (free_exact exact (holds.owns.spare.anti (Multiset.le_cons_self O c))
    (holds.body_aside ha u) (holds.held.drop still)).yields

/-- A reference that was taken is one to nil or to a record. -/
theorem referenced (holds : Holds P (n + 1) O F h) :
    Yields (HeapM.reference a) h fun _ h' => (a = .nil ∨ h.isLive a) ∧
    Holds P n (a ::ₘ O) F h' := by
  intro b h' run
  have here : a = .nil ∨ h.isLive a := by
    by_cases hn : a.isNil
    · exact .inl (Address.isNil_iff.1 hn)
    unfold HeapM.reference at run
    rw [if_neg hn] at run
    obtain ⟨count, h₁, asked, -⟩ := bind_ok.1 run
    obtain ⟨e, rfl⟩ := ask_ok.1 asked
    rcases holds.owns.exact.sound.refCount_ok.1 e with ⟨rfl, -⟩ | ⟨c, hc, -⟩
    · exact .inl rfl
    · exact .inr (cell?_eq_some.1 hc).1
  exact ⟨here, ((holds.reference here).yields b h' run).2⟩

theorem cons_nil (holds : Holds P n O F h) : Holds P n (.nil ::ₘ O) F h :=
  ⟨Owns.cons_nil.2 holds.owns, holds.body, holds.held.anti (Multiset.le_cons_self O _)⟩

/-- What is known is owned or stands in a slot. -/
theorem still (holds : Holds P n O F h) :
    F c = none ∨ c ∈ O ∨ ∃ d D, F d = some D ∧ c ∈ D.children := by
  cases e : F c with
  | none => exact .inl rfl
  | some B => exact .inr (holds.held c B e)

theorem setChild_aside (holds : Holds P (n + 1) O F h) (ha : F a = none) :
    Yields (HeapM.setChild a t i c) h fun _ h' => Holds P (n + 1) O F h' := by
  refine holds.referenced.bind fun _ h₁ ⟨_, owned⟩ => ?_
  exact (owned.setChildOwned_aside ha holds.still).mono
    fun _ _ owned => owned.tighten holds.owns.spare

end Heap.Holds

/-- A computation makes a record of which nothing was known, and what was known is known still. -/
def Adds (P : Multiset Address) (x : Action Address) : Prop :=
  ∀ {n O F h}, Holds P (n + 1) O F h → Yields x h fun a h' => F a = none ∧
  Holds P (n + 1) (a ::ₘ O) F h'

/-- The same for what is stored. -/
theorem Adds.stores {x : Action Address} (adds : Adds P x) (st : Stores P (n + 1) O S h) :
    Yields x h fun a h' => S a = none ∧ Stores P (n + 1) (a ::ₘ O) S h' := by
  obtain ⟨N, F, lays, holds⟩ := st
  exact (adds holds).mono fun a _ ⟨fresh, holds⟩ => ⟨(lays.unknown fresh).1, N, F, lays, holds⟩

section

variable {type value parent key next frame structs array elem decl : Address} {size : Nat}

theorem Scalar.new_adds : Adds P (Scalar.new t w) := fun holds =>
  holds.allocate_aside.heap.bind fun _ _ ⟨fresh, holds⟩ => (holds.setField_aside fresh).heap.bind
    fun _ _ holds => .pure ⟨fresh, holds⟩

theorem Text.create_adds {text : String} : Adds P (Text.create text) := by
  intro n O F h holds
  refine holds.allocate_aside.heap.bind fun s h₁ ⟨fresh, holds⟩ => ?_
  refine (holds.setField_aside fresh).heap.bind fun _ h₂ holds => ?_
  refine (Yields.forIn (I := fun _ h' => Holds P (n + 1) (s ::ₘ O) F h') holds ?_).bind
    fun _ h₃ holds => .pure ⟨fresh, holds⟩
  intro ⟨c, i⟩ rest h holds
  refine (Yields.orRelease (Scalar.new_adds holds)).bind fun rune h₁ ⟨new, holds⟩ => ?_
  exact (holds.setChildOwned_aside fresh (.inl new)).heap.bind fun _ h₂ holds => .pure ⟨rfl, holds⟩

theorem Variable.create_adds : Adds P (Variable.create type value) := by
  intro n O F h holds
  refine holds.allocate_aside.heap.bind fun var h₁ ⟨fresh, holds⟩ => ?_
  refine (holds.setChild_aside fresh).heap.bind fun _ h₂ holds => ?_
  exact (holds.setChild_aside fresh).heap.bind fun _ h₃ holds => .pure ⟨fresh, holds⟩

/-- A variable of a value that was made for it. -/
theorem Variable.of_adds {make : Action Address} (makes : Adds P make) :
    Adds P (do Variable.createOwned type (← make)) := by
  intro n O F h holds
  refine (makes holds).bind fun value h₁ ⟨new, owned⟩ => ?_
  refine Yields.afterwards (Variable.create_adds owned) ?_
  rintro var h₂ ⟨fresh, owned⟩
  rw [Multiset.cons_swap] at owned
  exact (owned.free (.inl new)).yields.mono fun _ _ holds => ⟨fresh, holds⟩

theorem Frame.create_adds : Adds P (Frame.create parent) := by
  intro n O F h holds
  refine holds.allocate_aside.heap.bind fun frame h₁ ⟨fresh, holds⟩ => ?_
  exact (holds.setChild_aside fresh).heap.bind fun _ h₂ holds => .pure ⟨fresh, holds⟩

theorem Entry.create_adds : Adds P (Entry.create key value next) := by
  intro n O F h holds
  refine holds.allocate_aside.heap.bind fun entry h₁ ⟨fresh, holds⟩ => ?_
  refine (holds.setChild_aside fresh).heap.bind fun _ h₂ holds => ?_
  refine (holds.setChild_aside fresh).heap.bind fun _ h₃ holds => ?_
  exact (holds.setChild_aside fresh).heap.bind fun _ h₄ holds => .pure ⟨fresh, holds⟩

theorem Frame.insert_aside (holds : Holds P (n + 1) O F h) (hf : F frame = none) :
    Yields (Frame.insert frame key value) h fun _ h' => Holds P (n + 1) O F h' := by
  refine .read fun first _ => (Entry.create_adds holds).bind fun entry h₁ ⟨new, holds⟩ => ?_
  exact (holds.setChildOwned_aside hf (.inl new)).heap

theorem ArrayValue.build_adds {make : Nat → Action Address} (makes : ∀ i, Adds P (make i)) :
    Adds P (ArrayValue.build size make) := by
  intro n O F h holds
  refine holds.allocate_aside.heap.bind fun arr h₁ ⟨fresh, holds⟩ => ?_
  refine (Yields.forIn (I := fun _ h' => Holds P (n + 1) (arr ::ₘ O) F h') holds ?_).bind
    fun _ h₂ holds => .pure ⟨fresh, holds⟩
  intro i rest h holds
  refine (Yields.orRelease (makes i holds)).bind fun var h₁ ⟨new, holds⟩ => ?_
  exact (holds.setChildOwned_aside fresh (.inl new)).heap.bind fun _ h₂ holds => .pure ⟨rfl, holds⟩

theorem Slice.create_adds {offset size cap : Nat} :
    Adds P (Slice.create array elem offset size cap) := by
  intro n O F h holds
  refine holds.allocate_aside.heap.bind fun s h₁ ⟨fresh, holds⟩ => ?_
  refine (holds.setField_aside fresh).heap.bind fun _ h₂ holds => ?_
  refine (holds.setField_aside fresh).heap.bind fun _ h₃ holds => ?_
  refine (holds.setField_aside fresh).heap.bind fun _ h₄ holds => ?_
  refine (holds.setChild_aside fresh).heap.bind fun _ h₅ holds => ?_
  exact (holds.setChild_aside fresh).heap.bind fun _ h₆ holds => .pure ⟨fresh, holds⟩

theorem StructValue.build_adds {make : Address → Action Address}
    (makes : ∀ type, Adds P (make type)) :
    Adds P (StructValue.build make decl) := by
  intro n O F h holds
  refine holds.allocate_aside.heap.bind fun s h₁ ⟨fresh, holds⟩ => ?_
  refine (Yields.orRelease (Q := fun _ h' => Holds P (n + 1) (s ::ₘ O) F h') ?_).bind
    fun _ h₂ holds => .pure ⟨fresh, holds⟩
  refine (holds.setChild_aside fresh).heap.bind fun _ h₂ holds => ?_
  refine (Frame.create_adds holds).bind fun members h₃ ⟨inner, holds⟩ => ?_
  refine (holds.setChildOwned_aside fresh (.inl inner)).heap.bind fun _ h₄ holds =>
    .read fun ms _ => ?_
  refine (Yields.forIn (I := fun _ h' => Holds P (n + 1) (s ::ₘ O) F h') holds ?_).bind
    fun _ h₅ holds => .pure holds
  intro ⟨name, type⟩ rest h holds
  refine (makes type holds).bind fun var h₁ ⟨new, holds⟩ => ?_
  refine (Yields.afterwards (Frame.insert_aside holds inner) fun _ _ holds =>
    (holds.free (.inl new)).yields).bind fun _ h₂ holds => .pure ⟨rfl, holds⟩

theorem LockKind.create_adds {k : LockKind} {initial : Int64} : Adds P (k.create initial) := by
  intro n O F h holds
  refine holds.allocate_aside.heap.bind fun lock h₁ ⟨fresh, holds⟩ => ?_
  refine (holds.setField_aside fresh).heap.bind fun _ h₂ holds => ?_
  refine (Yields.orRelease holds.allocate_aside.heap).bind fun q h₃ ⟨new, holds⟩ => ?_
  exact (holds.setChildOwned_aside fresh (.inl new)).heap.bind fun _ h₄ holds =>
    .pure ⟨fresh, holds⟩

theorem zeroValueTo_adds : ∀ {depth : Nat} {type : Address}, Adds P (zeroValueTo depth structs type)
  | 0, _, _, _, _, _, _ => .get .throw
  | depth + 1, type, n, O, F, h, holds => by
    have variable_adds (elem : Address) :
        Adds P (do Variable.createOwned elem (← zeroValueTo depth structs elem)) :=
      Variable.of_adds zeroValueTo_adds
    refine .read fun tag _ => ?_
    split
    · exact Scalar.new_adds holds
    · exact Scalar.new_adds holds
    · exact Scalar.new_adds holds
    · exact Scalar.new_adds holds
    · exact Text.create_adds holds
    · exact .read fun elem _ => .read fun size _ =>
        ArrayValue.build_adds (fun _ => variable_adds elem) holds
    · exact .read fun elem _ => Slice.create_adds holds
    · exact .read fun decl _ => StructValue.build_adds variable_adds holds
    · exact StructValue.build_adds variable_adds holds
    · exact LockKind.create_adds holds
    · exact LockKind.create_adds holds
    iterate 6 exact .pure ⟨holds.nil_none, holds.cons_nil⟩
    exact .throw

theorem zeroValue_adds : Adds P (zeroValue structs type) := fun holds =>
    .get (zeroValueTo_adds holds)

end
end GoMachine

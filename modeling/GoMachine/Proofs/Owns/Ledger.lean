import GoMachine.Lock
import GoMachine.Proofs.Heap.Owns
/-!
# Ledgers

An `Account` says which references a client owns, and what else has to hold of the heap. It is a
`Ledger` if it is kept while only the records of values are written, and `Queueing` if it is kept
while only containers and what waits in them are. `Owns P` is both, and asks for nothing else. What
is made of the primitives does to every account what it does to the references.
-/
namespace GoMachine

/-- The tags of records that are written when values are made and variables are set. -/
def Tag.isValue : Tag → Bool
  | .bool | .int32 | .float32 | .rune | .string | .array | .pointer | .builtin | .entry | .variable
  | .struct | .slice => true
  | t => t.isType

theorem Tag.ne_thread {t : Tag} (ht : t.isValue) : t ≠ .thread := by
  rintro rfl
  cases ht

theorem Tag.isValue_of_isType {t : Tag} (ht : t.isType) : t.isValue := by
  cases t <;> first | rfl | exact ht

/-- The tags of records whose children are set one by one. An entry gets its children when it is
made. -/
def Tag.isSet (t : Tag) : Bool := t.isValue && t != .entry

theorem Tag.isValue_of_isSet {t : Tag} (ht : t.isSet) : t.isValue := (Bool.and_eq_true_iff.1 ht).1

theorem Tag.isSet_of_isType {t : Tag} (ht : t.isType) : t.isSet := by
  cases t <;> first | rfl | exact ht

/-- The tags of values that are a single word. -/
def Tag.isScalar : Tag → Bool
  | .bool | .int32 | .float32 | .rune => true
  | _ => false

theorem Tag.isValue_of_isScalar {t : Tag} (ht : t.isScalar) : t.isValue := by
  cases t <;> first | rfl | cases ht

/-- How many slots are read of any record with a tag when pointers and variables are followed. -/
def Tag.slots : Tag → Nat
  | .pointer => 1
  | .variable => 2
  | _ => 0

theorem Tag.slots_of_isScalar {t : Tag} (ht : t.isScalar) : t.slots = 0 := by
  cases t <;> first | rfl | cases ht

theorem Tag.slots_of_isType {t : Tag} (ht : t.isType) : t.slots = 0 := by
  cases t <;> first | rfl | cases ht

/-- The tags of locks. -/
def Tag.isLock : Tag → Bool
  | .mutex | .semaphore | .waitGroup => true
  | _ => false

/-- The tags of records that no operation of a channel changes. -/
def Tag.isSteady : Tag → Bool
  | .selectI | .caseSend | .caseReceive | .caseDefault | .thread | .env => true
  | _ => false

open Heap (Owns Within Covers)

/-- What a client owns, with room for so many more references to each record, and what holds of the
heap meanwhile. -/
class Account (P : outParam (Multiset Address)) (I : Nat → Multiset Address → Heap → Prop) :
    Prop where
  owns : ∀ {n O h}, I n O h → ∃ B, Owns P n (B + O) h
  cons_nil : ∀ {n O h}, I n (.nil ::ₘ O) h ↔ I n O h
  weaken : ∀ {n m O h}, I n O h → m ≤ n → I m O h
  /-- There is as much room as there was when the same was owned before. -/
  restore : ∀ {n m O h h'}, I n O h → I m O h' → I n O h'
  references : ∀ {n O h a}, I (n + 1) O h →
    Yields (HeapM.reference a) h fun b h' => b = a ∧ I n (a ::ₘ O) h'
  drops : ∀ {n O h a}, I n (a ::ₘ O) h → Yields (HeapM.free a) h fun _ h' => I n O h'

/-- An account that is kept whatever is done with values. -/
class Ledger (P : outParam (Multiset Address)) (I : Nat → Multiset Address → Heap → Prop) : Prop
    extends Account P I where
  allocates : ∀ {n O h t fields children}, t ≠ .thread → t.slots ≤ children → I n O h →
    Yields (HeapM.allocate t fields children) h fun a h' => I n (a ::ₘ O) h'
  writes : ∀ {n O h a t i w}, t.isValue → I n O h →
    Yields (HeapM.setField a t i w) h fun _ h' => I n O h'
  /-- In a frame only the entries are written. -/
  replaces : ∀ {n O h a t i b}, t.isSet ∨ t = .frame ∧ i = 1 → I n (b ::ₘ O) h →
    Yields (HeapM.setChildOwned a t i b) h fun _ h' => I n O h'
  /-- An entry in front of others that are there. -/
  enters : ∀ {n O h key value next}, next = .nil ∨ h.isLive next → I (n + 1) O h →
    Yields (Entry.create key value next) h fun e h' => I (n + 1) (e ::ₘ O) h'
  /-- A frame inside of no other. -/
  opens : ∀ {n O h}, I (n + 1) O h → Yields (Frame.create .nil) h fun f h' => I (n + 1) (f ::ₘ O) h'
  locks : ∀ {n O h k initial}, k.tag.isLock → I n O h →
    Yields (LockKind.create k initial) h fun lock h' => I n (lock ::ₘ O) h'

/-- An account that is kept whatever is done with containers and with those who wait in them. -/
class Queueing (P : outParam (Multiset Address)) (I : Nat → Multiset Address → Heap → Prop) : Prop
    extends Account P I where
  allocates : ∀ {n O h t fields children}, I n O h →
    Yields (HeapM.allocate t fields children) h fun a h' => I n (a ::ₘ O) h'
  writes : ∀ {n O h a t i w}, t.isSteady = false → I n O h →
    Yields (HeapM.setField a t i w) h fun _ h' => I n O h'
  replaces : ∀ {n O h a t i b}, t.isSteady = false → I n (b ::ₘ O) h →
    Yields (HeapM.setChildOwned a t i b) h fun _ h' => I n O h'
  takes : ∀ {n O h a t i}, t.isSteady = false → I (n + 1) O h →
    Yields (HeapM.takeChild a t i) h fun b h' => I n (b ::ₘ O) h'
  /-- There is room for one reference less than there was when one less was owned. -/
  resume : ∀ {n m O h h' a}, I (n + 1) O h → I m (a ::ₘ O) h' → I n (a ::ₘ O) h'

section

variable {P F O : Multiset Address} [Within F O] {n : Nat} {h : Heap}

theorem Frame.create_owns {parent : Address} (own : Owns P (n + 1) O h) :
    Pays P F (Frame.create parent) h fun frame h' => Owns P (n + 1) (frame ::ₘ O) h' := by
  refine own.allocate.heap.bind fun frame h₁ own => ?_
  exact own.setChild.heap.bind fun _ h₂ own => .pure own

theorem Entry.make_owns {key value next : Address} (own : Owns P (n + 1) O h) :
    Pays P F (Entry.create key value next) h fun entry h' => Owns P (n + 1) (entry ::ₘ O) h' := by
  refine own.allocate.heap.bind fun entry h₁ own => ?_
  refine own.setChild.heap.bind fun _ h₂ own => ?_
  refine own.setChild.heap.bind fun _ h₃ own => ?_
  exact own.setChild.heap.bind fun _ h₄ own => .pure own

theorem LockKind.create_owns {k : LockKind} {initial : Int64} (own : Owns P n O h) :
    Pays P F (k.create initial) h fun lock h' => Owns P n (lock ::ₘ O) h' := by
  refine own.allocate.heap.bind fun lock h₁ own => ?_
  refine own.setField.heap.bind fun _ h₂ own => ?_
  refine (Pays.orRelease (x := Queue.create) own.allocate.heap).bind fun q h₃ own => ?_
  exact own.setChildOwned.heap.bind fun _ h₄ own => .pure own

end

namespace Account

variable {I : Nat → Multiset Address → Heap → Prop} {P F O : Multiset Address} {n : Nat} {h : Heap}
  {a b : Address} {t : Tag} {i : Nat}

instance [Account P I] : Covers P (I n) :=
  ⟨fun own => (Account.owns own).imp fun _ own => own.exact⟩

theorem swap (own : I n (a ::ₘ b ::ₘ O) h) : I n (b ::ₘ a ::ₘ O) h := by
  rwa [Multiset.cons_swap]

theorem reference [Account P I] [Within F O] (own : I (n + 1) O h) :
    Pays P F (HeapM.reference a) h fun b h' => b = a ∧ I n (a ::ₘ O) h' := by
  obtain ⟨B, owned⟩ := owns own
  exact owned.reference.instead (references own)

theorem frees [Account P I] (own : I n (a ::ₘ O) h) :
    Gives (HeapM.free a) h fun _ h' => I n O h' := by
  obtain ⟨B, owned⟩ := owns own
  rw [Multiset.add_cons] at owned
  obtain ⟨u, h', run, -⟩ := owned.frees
  exact ⟨u, h', run, drops own u h' run⟩

theorem free [Account P I] (own : I n (a ::ₘ O) h) :
    Pays P F (HeapM.free a) h fun _ h' => I n O h' := (frees own).ends

/-- What stands in a slot is nil or there. -/
theorem child_here [Account P I] (own : I n O h) (asked : Query.child a t i h = .ok b) :
    b = .nil ∨ h.isLive b := by
  obtain ⟨B, owned⟩ := owns own
  obtain ⟨c, hc, -, at_i⟩ := owned.exact.sound.child_ok.1 (ofHeap_ok.1 asked)
  exact owned.exact.closed (by simp [Heap.mem_edges.2 ⟨a, c, hc, List.mem_of_getElem? at_i⟩])

end Account

namespace Ledger

open Account

variable {I : Nat → Multiset Address → Heap → Prop} {P F O : Multiset Address} [Ledger P I]
  [Within F O] {n : Nat} {h : Heap} {a b : Address} {t : Tag} {i : Nat} {w : UInt64}

theorem allocate {fields children : Nat} (ht : t ≠ .thread) (fits : t.slots ≤ children)
    (own : I n O h) :
    Pays P F (HeapM.allocate t fields children) h fun a h' => I n (a ::ₘ O) h' := by
  obtain ⟨B, owned⟩ := owns own
  exact owned.allocate.instead (allocates ht fits own)

theorem setField (ht : t.isValue) (own : I n O h) :
    Pays P F (HeapM.setField a t i w) h fun _ h' => I n O h' := by
  obtain ⟨B, owned⟩ := owns own
  exact owned.setField.instead (writes ht own)

theorem setChildOwned (ht : t.isSet ∨ t = .frame ∧ i = 1) (own : I n (b ::ₘ O) h) :
    Pays P F (HeapM.setChildOwned a t i b) h fun _ h' => I n O h' := by
  obtain ⟨B, owned⟩ := owns own
  rw [Multiset.add_cons] at owned
  exact owned.setChildOwned.instead (replaces ht own)

theorem setChild (ht : t.isSet ∨ t = .frame ∧ i = 1) (own : I (n + 1) O h) :
    Pays P F (HeapM.setChild a t i b) h fun _ h' => I (n + 1) O h' := by
  refine (reference own).bind fun _ h₁ ⟨_, owned⟩ => ?_
  exact (setChildOwned ht owned).mono fun _ h' owned => restore own owned

theorem frame (own : I (n + 1) O h) :
    Pays P F (Frame.create .nil) h fun f h' => I (n + 1) (f ::ₘ O) h' := by
  obtain ⟨B, owned⟩ := owns own
  exact (Frame.create_owns owned).instead (opens own)

theorem entry {key value next : Address} (here : next = .nil ∨ h.isLive next)
    (own : I (n + 1) O h) :
    Pays P F (Entry.create key value next) h fun e h' => I (n + 1) (e ::ₘ O) h' := by
  obtain ⟨B, owned⟩ := owns own
  exact (Entry.make_owns owned).instead (enters here own)

theorem lock {k : LockKind} {initial : Int64} (hk : k.tag.isLock) (own : I n O h) :
    Pays P F (LockKind.create k initial) h fun lock h' => I n (lock ::ₘ O) h' := by
  obtain ⟨B, owned⟩ := owns own
  exact (LockKind.create_owns owned).instead (locks hk own)

end Ledger

namespace Queueing

open Account

variable {I : Nat → Multiset Address → Heap → Prop} {P F O : Multiset Address} [Queueing P I]
  [Within F O] {n : Nat} {h : Heap} {a b : Address} {t : Tag} {i : Nat} {w : UInt64}

theorem allocate {fields children : Nat} (own : I n O h) :
    Pays P F (HeapM.allocate t fields children) h fun a h' => I n (a ::ₘ O) h' := by
  obtain ⟨B, owned⟩ := owns own
  exact owned.allocate.instead (allocates own)

theorem setField (ht : t.isSteady = false) (own : I n O h) :
    Pays P F (HeapM.setField a t i w) h fun _ h' => I n O h' := by
  obtain ⟨B, owned⟩ := owns own
  exact owned.setField.instead (writes ht own)

theorem setChildOwned (ht : t.isSteady = false) (own : I n (b ::ₘ O) h) :
    Pays P F (HeapM.setChildOwned a t i b) h fun _ h' => I n O h' := by
  obtain ⟨B, owned⟩ := owns own
  rw [Multiset.add_cons] at owned
  exact owned.setChildOwned.instead (replaces ht own)

theorem setChild (ht : t.isSteady = false) (own : I (n + 1) O h) :
    Pays P F (HeapM.setChild a t i b) h fun _ h' => I (n + 1) O h' := by
  refine (reference own).bind fun _ h₁ ⟨_, owned⟩ => ?_
  exact (setChildOwned ht owned).mono fun _ h' owned => restore own owned

theorem takeChild (ht : t.isSteady = false) (own : I (n + 1) O h) :
    Pays P F (HeapM.takeChild a t i) h fun b h' => I n (b ::ₘ O) h' := by
  obtain ⟨B, owned⟩ := owns own
  exact owned.takeChild.instead (takes ht own)

end Queueing

instance {P : Multiset Address} : Account P (Owns P) where
  owns own := ⟨0, by rwa [zero_add]⟩
  cons_nil := Owns.cons_nil
  weaken own le := own.weaken le
  restore own own' := own'.tighten own.spare
  references own := own.reference.yields
  drops own := own.frees.yields

instance {P : Multiset Address} : Ledger P (Owns P) where
  allocates _ _ own := own.allocate.yields
  writes _ own := own.setField.yields
  replaces _ own := own.setChildOwned.yields
  enters _ own := (Entry.make_owns own).yields
  opens own := (Frame.create_owns own).yields
  locks _ own := (LockKind.create_owns own).yields

instance {P : Multiset Address} : Queueing P (Owns P) where
  allocates own := own.allocate.yields
  writes _ own := own.setField.yields
  replaces _ own := own.setChildOwned.yields
  takes _ own := own.takeChild.yields
  resume own own' := own'.tighten own.spare.cons

end GoMachine

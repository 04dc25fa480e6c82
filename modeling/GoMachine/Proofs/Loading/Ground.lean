import GoMachine.Proofs.Heap.Reports
import GoMachine.Proofs.Owns.Crafts
/-!
# What is built beside other things

Something is built in a heap in which other records are, of which some are known for good: a
`Ground` is what these say, with references that keep them there. Whoever builds on it makes new
records and writes to no others (`Ground.Bears`). If that fails, some of the new records may be left
behind, but the ground is as it was (`Ground.Left`).

* `Ground.Bears.allocate`, `Ground.Bears.setChildOwned` and the like: the primitives of the heap.
* Whoever builds on a ground is a `Builder`, and so lowers programs.
-/
namespace GoMachine

open Heap (Owns Exact Leaks Held Within stacked laden)

/-- What some records say, each of them owned by somebody or in a slot of another one. -/
structure Ground where
  facts : Facts
  refs : Multiset Address
  held : Held facts refs

namespace Ground

/-- The client owns `O` besides what keeps the ground, with room for `n` more references to each
record, and the ground is as it was. -/
structure Bears (P : Multiset Address) (G : Ground) (n : Nat) (O : Multiset Address) (h : Heap) :
    Prop where
  owns : Owns P n (O + G.refs) h
  body : G.facts.Sub h.body?

/-- The client owns at least `D` besides what keeps the ground, and the ground is as it was. -/
structure Left (P : Multiset Address) (G : Ground) (D : Multiset Address) (h : Heap) : Prop where
  leaks : Leaks P (D + G.refs) h
  body : G.facts.Sub h.body?

variable {P D O : Multiset Address} {G : Ground} {n m : Nat} {h h' : Heap} {a b : Address} {t : Tag}
    {i : Nat}
  {w : UInt64}

/-- What goes on when a reference is dropped. -/
theorem free_keeps (x : Exact P (a ::ₘ (O + G.refs)) h) (body : G.facts.Sub h.body?) :
    Gives (HeapM.free a) h fun _ h' => Exact P (O + G.refs) h' ∧ G.facts.Sub h'.body? := by
  obtain ⟨h', run, x', still⟩ :=
    x.free_known (fun hB => body hB) (G.held.anti (Multiset.le_add_left _ O))
  exact ⟨(), h', run, x', fun _ _ hB => still hB⟩

theorem Left.free (left : G.Left P (a ::ₘ D) h) : Gives (HeapM.free a) h fun _ h' =>
    G.Left P D h' := by
  obtain ⟨⟨L, x⟩, body⟩ := left
  rw [Multiset.cons_add, Multiset.add_cons, ← add_assoc] at x
  exact (free_keeps x body).mono fun _ _ ⟨x, body⟩ => ⟨⟨L, by rwa [← add_assoc]⟩, body⟩

theorem Left.anti {D' : Multiset Address} (left : G.Left P D' h) (le : D ≤ D') : G.Left P D h :=
  ⟨left.leaks.anti (add_le_add_left le _), left.body⟩

namespace Bears

theorem left [within : Within D O] (b : G.Bears P n O h) : G.Left P D h :=
  ⟨(Leaks.of (O := O + G.refs) b.owns).anti (add_le_add_left within.le _), b.body⟩

theorem cons_nil : G.Bears P n (.nil ::ₘ O) h ↔ G.Bears P n O h :=
  ⟨fun b => ⟨Owns.cons_nil.1 (Multiset.cons_add .. ▸ b.owns), b.body⟩,
    fun b => ⟨(Multiset.cons_add ..).symm ▸ Owns.cons_nil.2 b.owns, b.body⟩⟩

theorem swap (b' : G.Bears P n (a ::ₘ b ::ₘ O) h) : G.Bears P n (b ::ₘ a ::ₘ O) h := by
  rwa [Multiset.cons_swap]

/-- There is as much room as there was when the same was owned before. -/
theorem restore (b : G.Bears P n O h) (b' : G.Bears P m O h') : G.Bears P n O h' :=
  ⟨b'.owns.tighten b.owns.spare, b'.body⟩

theorem frees (b : G.Bears P n (a ::ₘ O) h) : Gives (HeapM.free a) h fun _ h' =>
    G.Bears P n O h' := by
  have own := b.owns
  rw [Multiset.cons_add] at own
  exact (free_keeps own.exact b.body).mono fun _ _ ⟨x, body⟩ =>
    ⟨⟨x, own.spare.anti (Multiset.le_cons_self _ _)⟩, body⟩

/-- A new record changes. -/
theorem sub_of_becomes {o : Option Cell} (body : G.facts.Sub h.body?) (new : G.facts a = none)
    (u : Heap.Becomes h a o h') : G.facts.Sub h'.body? := fun c B hB => by
  rw [u.body?_of_ne (by rintro rfl; exact nomatch new.symm.trans hB), body hB]

variable [Within D O]

/-- A new record, of which nothing was known. -/
theorem allocate {fields children : Nat} (b : G.Bears P n O h) :
    Crafts (G.Left P) D (HeapM.allocate t fields children) h fun a h' =>
      G.facts a = none ∧ G.Bears P n (a ::ₘ O) h' := by
  cases run : HeapM.allocate t fields children h with
  | error e h' =>
    obtain rfl := Owns.allocate_error run
    exact .inr ⟨e, h', run, b.left⟩
  | ok a h' =>
    obtain ⟨dead, -, u⟩ := b.owns.exact.sound.allocated run
    have unknown : h.body? a = none := by
      rw [Heap.body?, Heap.cell?_eq_none.2 dead, Option.map_none]
    have new : G.facts a = none := by
      cases known : G.facts a with
      | none => rfl
      | some B => cases unknown.symm.trans (b.body known)
    refine .inl ⟨a, h', run, new, ?_, sub_of_becomes b.body new u⟩
    rw [Multiset.cons_add]
    exact b.owns.allocate.yields a h' run

theorem setField (b : G.Bears P n O h) (new : G.facts a = none) :
    Crafts (G.Left P) D (HeapM.setField a t i w) h fun _ h' => G.Bears P n O h' := by
  refine Crafts.ask b.left fun slot e => ?_
  obtain ⟨c, hc, -, hi, rfl⟩ := b.owns.exact.sound.fieldSlot_ok.1 e
  refine (Gives.modify ⟨⟨b.owns.exact.put_field hc hi, b.owns.spare⟩, ?_⟩).ends
  exact sub_of_becomes b.body new (b.owns.exact.sound.put_field hc hi)

theorem reference (b : G.Bears P (n + 1) O h) :
    Crafts (G.Left P) D (HeapM.reference a) h fun r h' => r = a ∧ G.Bears P n (a ::ₘ O) h' := by
  have told : Crafts (G.Left P) D (HeapM.reference a) h fun _ _ => True := by
    unfold HeapM.reference
    split
    · exact .pure trivial
    · exact Crafts.ask b.left fun _ _ => (Gives.modify (Q := fun _ _ => True) trivial).ends.bind
        fun _ _ _ => .pure trivial
  refine told.instead fun r h' run => ?_
  obtain ⟨e, g⟩ := (Heap.Reports.of b.owns).reference r h' run
  exact ⟨e, (Multiset.cons_add ..).symm ▸ g.owns, g.body.symm ▸ b.body⟩

/-- A reference moves into a slot of a new record. -/
theorem setChildOwned (b' : G.Bears P n (b ::ₘ O) h) (new : G.facts a = none) :
    Crafts (G.Left P) D (HeapM.setChildOwned a t i b) h fun _ h' => G.Bears P n O h' := by
  refine Crafts.ask b'.left fun slot e => ?_
  have own := b'.owns
  rw [Multiset.cons_add] at own
  obtain ⟨c, hc, -, rfl, old⟩ := own.exact.sound.childSlot_word e
  obtain ⟨-, -, x, u⟩ := Heap.Holds.put_child own.exact hc old
  refine (Gives.bind (Q := fun old h₁ => Exact P (old ::ₘ (O + G.refs)) h₁ ∧ G.facts.Sub h₁.body?)
    ⟨_, _, rfl, x, sub_of_becomes b'.body new u⟩ ?_).ends
  rintro old h₁ ⟨x, body⟩
  refine (free_keeps x body).mono ?_
  rintro _ _ ⟨x, body⟩
  exact ⟨⟨x, own.spare.anti (Multiset.le_cons_self _ _)⟩, body⟩

theorem setChild (b' : G.Bears P (n + 1) O h) (new : G.facts a = none) :
    Crafts (G.Left P) D (HeapM.setChild a t i b) h fun _ h' => G.Bears P (n + 1) O h' :=
  b'.reference.bind fun _ _ ⟨_, b₁⟩ => (b₁.setChildOwned new).mono fun _ _ b₂ => b'.restore b₂

end Bears
end Ground
end GoMachine

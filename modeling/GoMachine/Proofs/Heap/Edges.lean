import Mathlib.Algebra.Order.BigOperators.Group.Finset
import Mathlib.Order.Interval.Finset.Nat
import Mathlib.Tactic.Abel
import GoMachine.Proofs.Heap.Write
/-!
# References between records

`h.edges` collects what stands in the child slots of all records, each address as often as it is
there. Replacing what stands at one address replaces its part of the sum, and no heap has more
slots than words.

* `Becomes.edges`: the sum after a change at one address.
* `Sound.card_edges_le`: there are at most `maxSlots` slots.
-/
namespace GoMachine
namespace Heap

variable {h h' : Heap} {a b : Address} {o : Option Cell}

/-- The addresses of the records. -/
def records (h : Heap) : Finset Address := h.liveObjects.toFinset

@[simp]
theorem mem_records : a ∈ h.records ↔ h.isLive a := by
  obtain ⟨i⟩ := a
  simp [records, liveObjects, isLive_iff]

/-- What stands in the child slots of all records. -/
def edges (h : Heap) : Multiset Address := ∑ a ∈ h.records,
    ((h.cellAt a).children : Multiset Address)

/-- What stands in the child slots at an address. -/
def kids (o : Option Cell) : Multiset Address := o.elim 0 fun c => c.children

@[simp]
theorem kids_none : kids none = 0 := rfl

@[simp]
theorem kids_some {c : Cell} : kids (some c) = (c.children : Multiset Address) := rfl

theorem edges_eq {s : Finset Address} (hs : h.records ⊆ s) : h.edges = ∑ a ∈ s,
    kids (h.cell? a) := by
  rw [edges, ← Finset.sum_subset hs (f := fun a => kids (h.cell? a))]
  · refine Finset.sum_congr rfl fun a ha => ?_
    rw [cell?_eq_some.2 ⟨mem_records.1 ha, rfl⟩, kids_some]
  · intro a _ ha
    rw [mem_records, Bool.not_eq_true] at ha
    rw [cell?_eq_none.2 ha, kids_none]

theorem mem_edges : b ∈ h.edges ↔ ∃ a c, h.cell? a = some c ∧ b ∈ c.children := by
  simp only [edges, Multiset.mem_sum, mem_records, Multiset.mem_coe, cell?_eq_some]
  constructor
  · rintro ⟨a, ha, hb⟩
    exact ⟨a, _, ⟨ha, rfl⟩, hb⟩
  · rintro ⟨a, _, ⟨ha, rfl⟩, hb⟩
    exact ⟨a, ha, hb⟩

theorem Becomes.edges (u : Becomes h a o h') : h'.edges + kids (h.cell? a) = h.edges + kids o := by
  let s := insert a (h.records ∪ h'.records)
  have ha : a ∈ s := Finset.mem_insert_self _ _
  have rest : ∑ b ∈ s.erase a, kids (h'.cell? b) = ∑ b ∈ s.erase a, kids (h.cell? b) :=
    Finset.sum_congr rfl fun b hb => by rw [u.cell?_of_ne (Finset.ne_of_mem_erase hb)]
  rw [edges_eq (h := h') (s := s) (by grind), edges_eq (h := h) (s := s) (by grind),
    ← Finset.add_sum_erase s _ ha, ← Finset.add_sum_erase s (fun b => kids (h.cell? b)) ha, rest,
    u.cell?_self]
  abel

/-- More child slots than any heap has. -/
@[irreducible]
def maxSlots : Nat := 2 ^ 31

/-- There are fewer slots than words. -/
theorem Sound.card_edges_le (s : Sound h) : h.edges.card ≤ maxSlots := by
  let words (a : Address) : Finset Nat := .Ico a.index (a.index + h.pool.blockCapacity a.index)
  have disjoint : (h.records : Set Address).PairwiseDisjoint words := by
    intro a ha b hb hne
    have := s.serves.apart (isLive_iff.1 (mem_records.1 ha)) (isLive_iff.1 (mem_records.1 hb))
      (Address.index_ne hne)
    refine Finset.disjoint_left.2 fun i hi hi' => ?_
    simp only [words, Finset.mem_Ico] at hi hi'
    omega
  calc h.edges.card
    _ = ∑ a ∈ h.records, (h.cellAt a).children.length := by
      simp [edges, Multiset.card_sum]
    _ ≤ ∑ a ∈ h.records, (words a).card := by
      refine Finset.sum_le_sum fun a ha => ?_
      have := s.room a (mem_records.1 ha)
      simp only [words, Nat.card_Ico, length_children]
      omega
    _ = (h.records.biUnion words).card := (Finset.card_biUnion disjoint).symm
    _ ≤ (Finset.range (2 ^ h.pool.maxLog)).card := by
      refine Finset.card_le_card fun i hi => ?_
      obtain ⟨a, ha, hi⟩ := Finset.mem_biUnion.1 hi
      have := s.serves.bounds (isLive_iff.1 (mem_records.1 ha))
      simp only [words, Finset.mem_Ico] at hi
      exact Finset.mem_range.2 (by omega)
    _ ≤ maxSlots := by
      rw [Finset.card_range, maxSlots]
      exact Nat.pow_le_pow_right (by decide) s.serves.maxLog_le

end Heap
end GoMachine

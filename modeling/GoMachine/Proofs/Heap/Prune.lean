import GoMachine.Heap.Sweep
import GoMachine.Proofs.Heap.Edges
import GoMachine.Proofs.Pool.Complete
/-!
# The pool under a heap

The heap is a client of its pool: it takes a block for each record, gives it back with the record,
and writes into the blocks of records only. So no two halves of a block of its pool are ever both
free.

* `Prunes`: what is left of a pool when records are changed or taken off the heap.
* `Prunes.alike`, `Prunes.freeWords`: what is left determines the pool, and what is gone is free.
-/
namespace GoMachine
namespace Heap

variable {h h₁ h' : Heap} {a : Address} {q : Pool} {j : Nat} {w : UInt64}

/-- Records were changed or taken off a heap. Those that are left have their blocks. -/
structure Prunes (h h' : Heap) : Prop where
  log : h'.pool.maxLog = h.pool.maxLog
  blocks : ∀ i ∈ h'.live, i ∈ h.live ∧ h'.pool.block i = h.pool.block i
  joined : h.pool.Joined → h'.pool.Joined

namespace Prunes

theorem refl : Prunes h h := ⟨rfl, fun _ hi => ⟨hi, rfl⟩, id⟩

theorem trans (k : Prunes h h₁) (k' : Prunes h₁ h') : Prunes h h' := by
  refine ⟨k'.log.trans k.log, fun i hi => ?_, k'.joined ∘ k.joined⟩
  obtain ⟨hi, e⟩ := k'.blocks i hi
  obtain ⟨hi, e'⟩ := k.blocks i hi
  exact ⟨hi, e.trans e'⟩

/-- What is left determines the pool but for the order of its free lists. -/
theorem alike (k : Prunes h h') (k' : Prunes h h₁) (s : Sound h') (s' : Sound h₁)
    (same : ∀ a, h₁.isLive a = h'.isLive a) (joined : h.pool.Joined) : h₁.pool.Alike h'.pool := by
  have live : {i | i ∈ h₁.live} = {i | i ∈ h'.live} := by
    ext i
    have := same ⟨i⟩
    rwa [Bool.eq_iff_iff, isLive_iff, isLive_iff] at this
  have blocks : h₁.pool.block '' {i | i ∈ h₁.live} = h'.pool.block '' {i | i ∈ h'.live} := by
    rw [live]
    refine Set.image_congr fun i hi => ?_
    have hi' : i ∈ h₁.live := by
      rwa [← Set.mem_ofPred_eq (p := (· ∈ h₁.live)), live]
    rw [(k.blocks i hi).2, (k'.blocks i hi').2]
  obtain ⟨free, t, -⟩ := s.serves
  obtain ⟨free', t', -⟩ := s'.serves
  rw [blocks] at t'
  exact t'.alike t (k'.joined joined) (k.joined joined) (k.log.trans k'.log.symm)

/-- The words of the records that are gone are free. -/
theorem freeWords (k : Prunes h h') (s : Sound h) (s' : Sound h') :
    h'.freeWords = h.freeWords + ∑ a ∈ h.records \ h'.records,
    (h.pool.blockCapacity a.index + 1) := by
  have fewer : h'.records ⊆ h.records := fun a ha => by
    rw [mem_records, isLive_iff] at *
    exact (k.blocks _ ha).1
  have same : ∀ a ∈ h'.records, h'.pool.blockCapacity a.index = h.pool.blockCapacity a.index := by
    intro a ha
    rw [Pool.blockCapacity_eq, Pool.blockCapacity_eq, k.log,
      (k.blocks _ (isLive_iff.1 (mem_records.1 ha))).2]
  have total {g : Heap} (s : Sound g) :
      g.freeWords + ∑ a ∈ g.records, (g.pool.blockCapacity a.index + 1) = g.capacity := by
    have inj : Set.InjOn Address.index (g.records : Set Address) := fun a _ b _ e => by
      cases a
      exact congrArg Address.mk e
    rw [← Finset.sum_image (f := fun i => g.pool.blockCapacity i + 1) inj]
    refine s.serves.freeWords_add ?_
    ext i
    simp only [Finset.coe_image, Set.mem_image, Finset.mem_coe, mem_records, isLive_iff]
    constructor
    · rintro ⟨a, ha, rfl⟩
      exact ha
    · exact fun hi => ⟨⟨i⟩, hi, rfl⟩
  have before := total s
  have after := total s'
  have whole : h'.capacity = h.capacity := by rw [capacity, Pool.capacity, k.log]; rfl
  rw [Finset.sum_congr rfl fun a ha => congrArg (· + 1) (same a ha)] at after
  rw [← Finset.sum_sdiff fewer] at before
  omega

end Prunes

namespace Sound

/-- A word of a record is overwritten. -/
theorem setWord_prunes (s : Sound h) (hl : h.isLive a) (h1 : a.index ≤ j)
    (h2 : j < a.index + h.pool.blockCapacity a.index) : Prunes h (h.setWord j w) :=
  have hl := isLive_iff.1 hl
  ⟨rfl, fun i hi => ⟨hi, s.serves.block_setWord hl h1 h2 w i hi⟩,
    fun joined => joined.setWord s.serves hl h1 h2 w⟩

/-- The count of a record is overwritten. -/
theorem setCount_prunes (s : Sound h) (hl : h.isLive a) : Prunes h (h.setWord (a.index + 1) w) := by
  have := s.room a hl
  exact s.setWord_prunes hl (by omega) (by omega)

/-- A record is taken off the heap. -/
theorem discarded_prunes (s : Sound h) (hl : h.isLive a) (hq : h.pool.deallocate a.index = .ok q) :
    Prunes h ⟨q, h.live.erase a.index⟩ := by
  have hl := isLive_iff.1 hl
  obtain ⟨q', hq', -, log, same⟩ := s.serves.deallocate hl
  obtain rfl : q' = q := by simpa [hq] using hq'.symm
  refine ⟨log, fun i hi => ?_, fun joined => joined.deallocate s.serves hl hq⟩
  rw [Std.TreeSet.mem_erase] at hi
  have hne : i ≠ a.index := fun e => hi.1 (by simp [e])
  have := s.serves.bounds (i := i) hi.2
  exact ⟨hi.2, Pool.block_congr (same i hi.2 hne _ (by omega) (by omega)) log⟩

end Sound
end Heap
end GoMachine

import GoMachine.Proofs.Pool.Complete
import GoMachine.Proofs.Pool.Words
/-!
# Addresses that are given back without being in use

Of an address that is not in use, `deallocate` knows only the word in front of it. It is refused if
that word is not the bucket of a block that can begin there, and otherwise taken for a block in use:
the words of that block are then free and in use at once.

* `not_names_of_even`, `names_front`, `names_behind`: which words in front of an address are names.
* `stray_addresses`: of every address that is not in use, when it is refused and what it costs if
  not.
-/
namespace GoMachine
namespace Pool

/-- The address is refused, and the pool stays as it is. -/
def Refuses (p : Pool) (i : Nat) : Prop := p.deallocate i = .error (.invalidBlock i)

variable {p q : Pool} {live : Set Nat} {taken : Set Block} {free : Nat → List Nat} {x y z : Block}
    {i : Nat}

/-- A block begins at an even offset, so that its client's words begin at an odd one. -/
theorem not_names_of_even (h : i % 2 = 0) : ¬p.Names i x := by
  rintro ⟨fits, rfl, -⟩
  obtain ⟨d, hd⟩ : ∃ d, p.maxLog - x.bucket = d + 1 :=
    ⟨p.maxLog - x.bucket - 1, by have := fits.1; omega⟩
  have even : x.start p.maxLog = 2 * (x.pos * 2 ^ d) := by
    rw [Block.start, Block.size, hd, Nat.pow_succ]
    ring
  omega

namespace Tiling

/-- The first block of a list has no link in front, which is also the bucket of the whole pool. -/
theorem names_front (t : Tiling p taken free) (h : p.heads[x.bucket]? = some (x.start p.maxLog)) :
    (∃ z, p.Names (x.start p.maxLog + 1) z) ↔ x.start p.maxLog = 0 := by
  obtain ⟨k, ks, hf, e⟩ := t.head_mem h
  have first : p.word (x.start p.maxLog) = 0 := by
    rw [e, (t.links x.bucket [] k ks hf).1]
    rfl
  have two := t.two_le
  have bound : x.start p.maxLog < p.capacity := by
    rw [e, capacity_eq]
    exact Block.start_lt (t.fits (x := ⟨x.bucket, k⟩) (.inr (by simp [mem_freeBlocks, hf])))
  rw [capacity_eq] at bound
  have even (h : x.start p.maxLog + 1 = 2 ^ p.maxLog) : x.start p.maxLog ≠ 0 := by
    have := Nat.pow_le_pow_right (show 0 < 2 by decide) two
    omega
  simp only [names_iff, exists_eq_left, Nat.add_sub_cancel, first, UInt64.toNat_zero, capacity_eq,
    blockWords, Nat.pow_eq, Nat.sub_zero, Nat.mod_eq_of_lt bound]
  omega

/-- A block behind another one on a list has a link in front, which may also be a bucket. -/
theorem names_behind (t : Tiling p taken free) (hy : p.IsFree y)
    (h : unlink (p.word (y.start p.maxLog + 1)) = some (x.start p.maxLog)) :
    (∃ z, p.Names (x.start p.maxLog + 1) z) ↔
      y.start p.maxLog + 1 < p.maxLog ∧ p.blockWords (y.start p.maxLog + 1) ∣ x.start p.maxLog := by
  obtain ⟨xs, ys, e, -, hn⟩ := t.exists_between (t.isFree_iff.1 hy)
  rw [hn, Option.map_eq_some_iff] at h
  obtain ⟨k, hk, h⟩ := h
  obtain ⟨zs, rfl⟩ : ∃ zs, ys = k :: zs := by
    cases ys with
    | nil => cases hk
    | cons a zs => exact ⟨zs, by rw [Option.some.inj hk]⟩
  have hy' := t.start_lt (.inr (t.isFree_iff.1 hy))
  have mem : (⟨y.bucket, k⟩ : Block) ∈ freeBlocks free := by simp [mem_freeBlocks, e]
  have word : (p.word (x.start p.maxLog)).toNat = y.start p.maxLog + 1 := by
    rw [← h, (t.links y.bucket (xs ++ [y.pos]) k zs (by simp [e])).1]
    simp only [List.getLast?_concat, Option.map_some, link, Nat.toUInt64, UInt64.toNat_ofNat']
    exact Nat.mod_eq_of_lt (show y.start p.maxLog + 1 < 2 ^ 64 by omega)
  have room : x.start p.maxLog + 1 < p.capacity := by
    have fits := t.fits (.inr mem)
    have := Block.end_le fits
    have := Block.two_le_size fits
    rw [capacity_eq, ← h]
    omega
  simp only [names_iff, exists_eq_left, Nat.add_sub_cancel, word, Nat.dvd_iff_mod_eq_zero]
  omega

end Tiling

/-- What happens to an address that is given back although the blocks in use are those at the
addresses of `live`. -/
structure Stray (p : Pool) (live : Set Nat) (i : Nat) : Prop where
  /-- It is refused unless the word in front of it names a block there. -/
  refused_iff : p.Refuses i ↔ ∀ x, ¬p.Names i x
  outside : i = 0 ∨ p.capacity ≤ i → p.Refuses i
  even : i % 2 = 0 → p.Refuses i
  /-- The first block of a free list is refused, unless it begins the pool. -/
  front : ∀ x : Block, p.heads[x.bucket]? = some (x.start p.maxLog) → i = x.start p.maxLog + 1 →
    (p.Refuses i ↔ x.start p.maxLog ≠ 0)
  /-- Any other free block is refused, unless the link in front of it is the bucket of a block that
  can begin there. -/
  behind : ∀ x y : Block, p.IsFree y →
    unlink (p.word (y.start p.maxLog + 1)) = some (x.start p.maxLog) → i = x.start p.maxLog + 1 →
    (p.Refuses i ↔ ¬(y.start p.maxLog + 1 < p.maxLog ∧
      p.blockWords (y.start p.maxLog + 1) ∣ x.start p.maxLog))
  /-- If it is not refused, the free words and the words still in use are more than the pool has. -/
  accepted : ∀ q, p.deallocate i = .ok q → ∃ used : Finset Nat, (used : Set Nat) = live \ {i} ∧
    q.freeWords + ∑ j ∈ used, (p.blockCapacity j + 1) = p.capacity + (p.blockCapacity i + 1)

theorem refuses_iff : p.Refuses i ↔ ∀ x, ¬p.Names i x := deallocate_eq_error

/-- Along every history of a client, an address that is not in use is refused exactly if the word in
front of it names no block there, and spoils the free words otherwise. -/
theorem stray_addresses (h : History p live) (stray : i ∉ live) : Stray p live i := by
  have s := h.serves
  obtain ⟨free, t, -⟩ := h.serves
  have refuses {P : Prop} (h : (∃ x, p.Names i x) ↔ P) : p.Refuses i ↔ ¬P := by
    rw [refuses_iff, ← h, not_exists]
  refine ⟨refuses_iff, fun hi => refuses_iff.2 fun x hx => ?_,
    fun hi => refuses_iff.2 fun x => not_names_of_even hi, ?_, ?_, fun q hq => ?_⟩
  · have := names_iff.1 hx
    omega
  · rintro x hx rfl
    exact refuses (t.names_front hx)
  · rintro x y hy hl rfl
    exact refuses (t.names_behind hy hl)
  · refine ⟨s.finite.toFinset, by rw [s.finite.coe_toFinset, Set.sdiff_singleton_eq_self stray], ?_⟩
    have := s.freeWords_add s.finite.coe_toFinset
    rw [s.deallocate_freeWords hq]
    omega

/-- Of two blocks in a pool of eight words one is in use: the next one is refused. -/
theorem stray_beside_block : ∃ p₀ p₁, Pool.new 8 = .ok p₀ ∧ p₀.allocate 1 = some (1, p₁) ∧
    3 ∉ (insert 1 ∅ : Set Nat) ∧ Stray p₁ (insert 1 ∅) 3 ∧ p₁.Refuses 3 := by
  obtain ⟨p₀, p₁, h₀, h₁, head⟩ : ∃ p₀ p₁, Pool.new 8 = .ok p₀ ∧ p₀.allocate 1 = some (1, p₁) ∧
      p₁.heads[2]? = some (Block.start p₁.maxLog ⟨2, 1⟩) ∧ p₁.maxLog = 3 :=
    ⟨_, _, rfl, rfl, rfl, rfl⟩
  have stray := stray_addresses (i := 3) (.allocate (.new h₀) h₁) (by simp)
  refine ⟨p₀, p₁, h₀, h₁, by simp, stray, (stray.front ⟨2, 1⟩ head.1 ?_).2 ?_⟩
  · simp [Block.start, Block.size, head.2]
  · simp [Block.start, Block.size, head.2]

/-- The second of two blocks is joined with the first when it is given back, and keeps its bucket in
front. Given back once more it is accepted, and a pool of eight words has ten free ones. -/
theorem released_twice : ∃ p₀ p₁ p₂ p₃ p₄ q, Pool.new 8 = .ok p₀ ∧ p₀.allocate 1 = some (1, p₁) ∧
    p₁.allocate 1 = some (3, p₂) ∧ p₂.deallocate 1 = .ok p₃ ∧ p₃.deallocate 3 = .ok p₄ ∧
    History p₄ ((insert 3 (insert 1 ∅) \ {1}) \ {3}) ∧
    3 ∉ ((insert 3 (insert 1 ∅) \ {1}) \ {3} : Set Nat) ∧
    p₄.deallocate 3 = .ok q ∧ ¬p₄.Refuses 3 ∧ p₄.capacity = 8 ∧ q.freeWords = 10 := by
  obtain ⟨p₀, p₁, p₂, p₃, p₄, q, h₀, h₁, h₂, h₃, h₄, h, cap, words⟩ : ∃ p₀ p₁ p₂ p₃ p₄ q,
      Pool.new 8 = .ok p₀ ∧ p₀.allocate 1 = some (1, p₁) ∧ p₁.allocate 1 = some (3, p₂) ∧
      p₂.deallocate 1 = .ok p₃ ∧ p₃.deallocate 3 = .ok p₄ ∧ p₄.deallocate 3 = .ok q ∧
      p₄.capacity = 8 ∧ q.freeWords = 10 :=
    ⟨_, _, _, _, _, _, rfl, rfl, rfl, rfl, rfl, rfl, rfl, rfl⟩
  have used : History p₂ (insert 3 (insert 1 ∅)) := .allocate (.allocate (.new h₀) h₁) h₂
  have released := (used.deallocate (by simp) h₃).deallocate (by simp) h₄
  refine ⟨p₀, p₁, p₂, p₃, p₄, q, h₀, h₁, h₂, h₃, h₄, released, by
    simp, h, fun refused => ?_, cap, words⟩
  rw [Refuses, h] at refused
  cases refused

end Pool
end GoMachine

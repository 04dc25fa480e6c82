import Mathlib.Algebra.Order.BigOperators.Group.Finset
import GoMachine.Proofs.Pool.Client
/-!
# The free words of a pool

`deallocate` trusts the word in front of an address: if it is the bucket of a block that can begin
there, that block is given back. What it does to the number of free words does not depend on whether
anybody holds the block.

* `deallocate_eq_ok`: the addresses that are accepted.
* `Serves.deallocate_freeWords`: giving a block back adds its words to the free words, however far
  it is joined with others.
-/
namespace GoMachine
namespace Pool

/-- The word in front of an address is the bucket of a block that can begin there. -/
def Names (p : Pool) (i : Nat) (x : Block) : Prop :=
  x.Fits p.maxLog ∧ i = x.start p.maxLog + 1 ∧ (p.word (i - 1)).toNat = x.bucket

variable {p q : Pool} {live : Set Nat} {taken : Set Block} {free : Nat → List Nat} {x y : Block}
  {i b node : Nat}

theorem names_iff : p.Names i x ↔ x = p.block i ∧ i ≠ 0 ∧ i < p.capacity ∧
    (p.word (i - 1)).toNat < p.maxLog ∧ (i - 1) % p.blockWords (p.word (i - 1)).toNat = 0 := by
  constructor
  · rintro ⟨fits, rfl, hb⟩
    have := Block.end_le fits
    have := Block.two_le_size fits
    rw [Nat.add_sub_cancel] at hb ⊢
    refine ⟨?_, by omega, by rw [capacity_eq]; omega, hb ▸ fits.1, by
      rw [hb]; exact Block.start_mod_size⟩
    ext
    · exact hb.symm
    · simp only [block, Nat.add_sub_cancel, hb]
      exact Block.start_div_size.symm
  · rintro ⟨rfl, hi, hc, hb, aligned⟩
    have start : (p.block i).start p.maxLog = i - 1 :=
      Nat.div_mul_cancel (Nat.dvd_of_mod_eq_zero aligned)
    have whole : 2 ^ p.maxLog = 2 ^ (p.block i).bucket * (p.block i).size p.maxLog := by
      rw [Block.size, ← Nat.pow_add, Nat.add_sub_cancel'
        (show (p.block i).bucket ≤ p.maxLog from hb.le)]
    refine ⟨⟨hb, Nat.lt_of_mul_lt_mul_right (a := (p.block i).size p.maxLog) ?_⟩, by omega, rfl⟩
    rw [capacity_eq] at hc
    rw [← whole, ← Block.start, start]
    omega

/-- An address is accepted if the word in front of it names a block there. -/
theorem deallocate_eq_ok : p.deallocate i = .ok q ↔ ∃ x, p.Names i x ∧
    p.join x.node x.bucket = q := by
  have named {x : Block} (h : p.Names i x) : p.node (p.word (i - 1)).toNat (i - 1) = x.node := by
    rw [h.2.2, ← node_start, h.2.1, Nat.add_sub_cancel]
  simp only [deallocate]
  split_ifs with hi hw
  · refine ⟨(nomatch ·), ?_⟩
    rintro ⟨x, h, -⟩
    have := names_iff.1 h
    omega
  · refine ⟨(nomatch ·), ?_⟩
    rintro ⟨x, h, -⟩
    have := names_iff.1 h
    omega
  · have h : p.Names i (p.block i) := names_iff.2 ⟨rfl, by omega, by omega, by omega, by omega⟩
    rw [named h, h.2.2, Except.ok.injEq]
    constructor
    · exact fun e => ⟨_, h, e⟩
    · rintro ⟨x, hx, rfl⟩
      rw [(names_iff.1 hx).1]

theorem deallocate_eq_error : p.deallocate i = .error (.invalidBlock i) ↔ ∀ x, ¬p.Names i x := by
  constructor
  · intro h x hx
    rw [deallocate_eq_ok.2 ⟨x, hx, rfl⟩] at h
    cases h
  · intro h
    simp only [deallocate]
    split_ifs with hi hw
    · rfl
    · rfl
    · exact absurd (names_iff.2 ⟨rfl, by omega, by omega, by omega, by omega⟩) (h (p.block i))

/-! ## Joining -/

/-- The words of the blocks that a node of bucket `b` is joined with. -/
def absorbed (p : Pool) (node : Nat) : Nat → Nat
  | 0 => 0
  | b + 1 =>
      if p.splits.contains (node / 2) then p.blockWords (b + 1) + p.absorbed (node / 2) b else 0

/-- A bit that belongs to none of the blocks above does not matter. -/
theorem absorbed_congr (log : q.maxLog = p.maxLog)
    (same : ∀ n ≤ node / 2, q.splits.contains n = p.splits.contains n) :
    q.absorbed node b = p.absorbed node b := by
  induction b generalizing node with
  | zero => rfl
  | succ b ih =>
    simp only [absorbed, blockWords, log, same (node / 2) le_rfl]
    rw [ih fun n hn => same n (by omega)]

theorem absorbed_removeFree (hn : 0 < node / 2) {c : Nat} :
    (p.removeFree c (buddy node)).absorbed (node / 2) b = p.absorbed (node / 2) b := by
  refine absorbed_congr removeFree_maxLog fun n hn' => ?_
  rw [Bool.eq_iff_iff, Std.TreeSet.contains_iff_mem, Std.TreeSet.contains_iff_mem,
    removeFree_splits,
    mem_toggle_splits]
  have half : buddy node / 2 = node / 2 := by
    rw [buddy, ← Nat.shiftRight_one, Nat.shiftRight_xor_distrib]
    simp [Nat.shiftRight_one]
  rw [half]
  have : ¬(1 < buddy node ∧ n = node / 2) := by omega
  grind

theorem join_freeWords (hb : b ≤ p.maxLog) (hn : 2 ^ b ≤ node)
    (h : p.absorbed node b ≤ p.freeWords) :
    (p.join node b).freeWords = p.freeWords + p.blockWords b := by
  induction b generalizing p node with
  | zero => exact insertFree_freeWords
  | succ b ih =>
    rw [join]
    simp only [absorbed] at h
    split_ifs at h ⊢ with hs
    · have half : 2 ^ b ≤ node / 2 := by
        rw [Nat.pow_succ] at hn
        omega
      have rest := absorbed_removeFree (p := p) (b := b) (c := b + 1)
        (show 0 < node / 2 by have := Nat.two_pow_pos b; omega)
      have double : p.blockWords b = 2 * p.blockWords (b + 1) := by
        simp only [blockWords, Nat.pow_eq]
        rw [show p.maxLog - b = p.maxLog - (b + 1) + 1 by omega, Nat.pow_succ, Nat.mul_comm]
      rw [ih (by rw [removeFree_maxLog]; omega) half (by rw [rest, removeFree_freeWords]; omega),
        removeFree_freeWords]
      simp only [blockWords, removeFree_maxLog] at double h ⊢
      omega
    · exact insertFree_freeWords

namespace Tiling

/-- What a node is joined with are free blocks of different buckets. -/
theorem absorbed_le (t : Tiling p taken free) (hx : x.pos < 2 ^ x.bucket)
    (hb : x.bucket < p.maxLog) :
    p.absorbed x.node x.bucket ≤ p.freeWords := by
  have listed : ∀ b (x : Block), x.bucket = b → x.pos < 2 ^ b →
      p.absorbed x.node b ≤ ∑ c ∈ Finset.range (b + 1), (free c).length * p.blockWords c := by
    intro b
    induction b with
    | zero => exact fun _ _ _ => Nat.zero_le _
    | succ b ih =>
      intro x hb hx
      rw [absorbed]
      split_ifs with hs
      · have hpos : x.pos / 2 < 2 ^ b := by
          rw [Nat.pow_succ] at hx
          omega
        let y : Block := ⟨b, x.pos / 2⟩
        have hnode : y.node = x.node / 2 := by
          simp only [y, Block.node, hb, Nat.pow_succ]
          omega
        -- one half of the block above is free
        have one : 1 ≤ (free (b + 1)).length := by
          have bit := (t.bits y hpos).1 (by rwa [hnode, ← Std.TreeSet.contains_iff_mem])
          rcases bit with ⟨h, -⟩ | ⟨h, -⟩ <;> exact List.length_pos_of_mem (mem_freeBlocks.1 h)
        have := ih y rfl hpos
        have := Nat.le_mul_of_pos_left (p.blockWords (b + 1)) one
        rw [Finset.sum_range_succ, ← hnode]
        omega
      · exact Nat.zero_le _
  rw [t.freeWords]
  exact (listed _ x rfl hx).trans (Finset.sum_le_sum_of_subset_of_nonneg
    (Finset.range_subset_range.2 hb) fun _ _ _ => Nat.zero_le _)

end Tiling

/-- A block that is given back adds its words to the free words. -/
theorem Serves.deallocate_freeWords (s : Serves p live) (h : p.deallocate i = .ok q) :
    q.freeWords = p.freeWords + (p.blockCapacity i + 1) := by
  obtain ⟨free, t, -⟩ := s
  obtain ⟨x, hx, rfl⟩ := deallocate_eq_ok.1 h
  have fits := hx.1
  have := p.block i |>.size_pos (L := p.maxLog)
  rw [join_freeWords fits.1.le (show _ ≤ x.node from Nat.le_add_right _ _)
    (t.absorbed_le fits.2 fits.1), blockCapacity_eq, (names_iff.1 hx).1, blockWords_eq]
  omega

end Pool
end GoMachine

import Mathlib.Algebra.BigOperators.Group.Finset.Sigma
import Mathlib.Data.Set.Insert
import Mathlib.Order.Interval.Finset.Nat
import Mathlib.Tactic.Ring
import Mathlib.Tactic.Linarith
import GoMachine.Pool
/-!
# Blocks that cut a pool

A block is given by its bucket and its position among the blocks of the bucket; in a pool of
`2 ^ L` words it holds the words whose number, divided by the size of the block, is the position.
`Cuts L T` says that the blocks of `T` cut the pool: every word is in exactly one of them.

* `Cuts.halve`, `Cuts.merge`: a block may stand for its halves, and the halves for the block.
* `Cuts.eq_of_holds`: no two blocks share a word.
* `Cuts.sum_size`: the blocks have all the words of the pool.
-/
namespace GoMachine

/-- A block: the `pos`-th of its bucket, counted from zero. -/
@[ext]
structure Block where
  bucket : Nat
  pos : Nat
  deriving DecidableEq

namespace Block

/-- The node that a block is in the tree of blocks. -/
def node (x : Block) : Nat := 2 ^ x.bucket + x.pos

/-- The first half. -/
def left (x : Block) : Block := ⟨x.bucket + 1, 2 * x.pos⟩

/-- The second half. -/
def right (x : Block) : Block := ⟨x.bucket + 1, 2 * x.pos + 1⟩

/-- The number of words in a block of a pool of `2 ^ L` words. -/
def size (L : Nat) (x : Block) : Nat := 2 ^ (L - x.bucket)

/-- The offset of the first word. -/
def start (L : Nat) (x : Block) : Nat := x.pos * x.size L

/-- Whether a word lies in the block. -/
def Holds (L : Nat) (x : Block) (w : Nat) : Prop := w / x.size L = x.pos

/-- Whether the block lies in the pool and has room for two links. -/
def Fits (L : Nat) (x : Block) : Prop := x.bucket < L ∧ x.pos < 2 ^ x.bucket

variable {L : Nat} {x y : Block}

theorem size_pos : 0 < x.size L := Nat.two_pow_pos _

theorem two_le_size (h : x.Fits L) : 2 ≤ x.size L := by
  obtain ⟨d, hd⟩ : ∃ d, L - x.bucket = d + 1 := ⟨L - x.bucket - 1, by have := h.1; omega⟩
  have := Nat.two_pow_pos d
  rw [size, hd, Nat.pow_succ]
  omega

theorem holds_iff {w : Nat} : x.Holds L w ↔ x.start L ≤ w ∧ w < x.start L + x.size L := by
  have := x.size_pos (L := L)
  rw [Holds, Nat.div_eq_iff this, start]
  omega

theorem holds_start : x.Holds L (x.start L) :=
    holds_iff.2 ⟨le_rfl, by have := x.size_pos (L := L); omega⟩

theorem end_le (h : x.Fits L) : x.start L + x.size L ≤ 2 ^ L := by
  have e : 2 ^ L = 2 ^ x.bucket * x.size L := by
    rw [size, ← Nat.pow_add]
    congr 1
    have := h.1
    omega
  rw [e, start, ← Nat.succ_mul]
  exact Nat.mul_le_mul_right _ h.2

theorem start_lt (h : x.Fits L) : x.start L < 2 ^ L := by
  have := end_le h
  have := x.size_pos (L := L)
  omega

theorem start_mod_size : x.start L % x.size L = 0 := Nat.mul_mod_left ..

theorem start_div_size : x.start L / x.size L = x.pos := Nat.mul_div_cancel _ size_pos

theorem start_inj {b k k' : Nat} (h : start L ⟨b, k⟩ = start L ⟨b, k'⟩) : k = k' :=
  Nat.eq_of_mul_eq_mul_right (size_pos (L := L) (x := ⟨b, k⟩)) h

theorem size_halves (h : x.bucket < L) : x.size L = 2 * x.left.size L := by
  simp only [size, left]
  rw [show L - x.bucket = L - (x.bucket + 1) + 1 by omega, Nat.pow_succ]
  omega

theorem size_right : x.right.size L = x.left.size L := rfl

theorem start_left (h : x.bucket < L) : x.left.start L = x.start L := by
  rw [start, start, size_halves h, left]
  ring

theorem start_right (h : x.bucket < L) : x.right.start L = x.start L + x.left.size L := by
  rw [start, start, size_halves h, size_right, right]
  ring

theorem holds_halves (h : x.bucket < L) {w : Nat} :
    x.Holds L w ↔ x.left.Holds L w ∨ x.right.Holds L w := by
  rw [holds_iff, holds_iff, holds_iff, start_left h, start_right h, size_right, size_halves h]
  omega

theorem fits_left (h : x.Fits L) (hb : x.bucket + 1 < L) : x.left.Fits L := by
  refine ⟨hb, ?_⟩
  have := h.2
  simp only [left, Nat.pow_succ]
  omega

theorem fits_right (h : x.Fits L) (hb : x.bucket + 1 < L) : x.right.Fits L := by
  refine ⟨hb, ?_⟩
  have := h.2
  simp only [right, Nat.pow_succ]
  omega

theorem fits_of_left (h : x.left.Fits L) : x.Fits L := by
  obtain ⟨hb, hp⟩ := h
  simp only [left, Nat.pow_succ] at hb hp
  exact ⟨by omega, by omega⟩

theorem left_ne_right : x.left ≠ y.right := by
  intro h
  have := congrArg pos h
  simp only [left, right] at this
  omega

theorem right_inj (h : x.right = y.right) : x = y := by
  have hb := congrArg bucket h
  have hp := congrArg pos h
  simp only [right] at hb hp
  exact Block.ext (by omega) (by omega)

theorem left_ne : x.left ≠ x := fun h => by have := congrArg bucket h; simp [left] at this

theorem right_ne : x.right ≠ x := fun h => by have := congrArg bucket h; simp [right] at this

theorem node_left : x.left.node = 2 * x.node := by
  simp only [node, left, Nat.pow_succ]
  ring

theorem node_right : x.right.node = 2 * x.node + 1 := by
  simp only [node, right, Nat.pow_succ]
  ring

theorem log2_node (h : x.pos < 2 ^ x.bucket) : x.node.log2 = x.bucket := by
  have := Nat.two_pow_pos x.bucket
  rw [Nat.log2_eq_iff (by rw [node]; omega), node, Nat.pow_succ]
  omega

theorem node_inj (hx : x.pos < 2 ^ x.bucket) (hy : y.pos < 2 ^ y.bucket) (h : x.node = y.node) :
    x = y := by
  have hb : x.bucket = y.bucket := by rw [← log2_node hx, ← log2_node hy, h]
  simp only [node, hb] at h
  exact Block.ext hb (by omega)

/-- A node other than the root is a half of the node with half its number. -/
theorem eq_half_of_node (hx : x.pos < 2 ^ x.bucket) (hy : y.pos < 2 ^ y.bucket) (_ : 1 < x.node)
    (e : y.node = x.node / 2) : y.left = x ∨ y.right = x := by
  have hl : y.left.pos < 2 ^ y.left.bucket := by simp only [left, Nat.pow_succ]; omega
  have hr : y.right.pos < 2 ^ y.right.bucket := by simp only [right, Nat.pow_succ]; omega
  rcases Nat.mod_two_eq_zero_or_one x.node with h2 | h2
  · exact .inl (node_inj hl hx (by rw [node_left]; omega))
  · exact .inr (node_inj hr hx (by rw [node_right]; omega))

end Block

/-- The blocks of a set lie in a pool of `2 ^ L` words, and every word is in exactly one. -/
structure Cuts (L : Nat) (T : Set Block) : Prop where
  fits : ∀ x ∈ T, x.Fits L
  covers : ∀ w < 2 ^ L, ∃ x ∈ T, x.Holds L w
  eq_of_holds : ∀ x ∈ T, ∀ y ∈ T, ∀ w, x.Holds L w → y.Holds L w → x = y

namespace Cuts

variable {L : Nat} {T : Set Block} {x y : Block}

theorem whole (h : 0 < L) : Cuts L {⟨0, 0⟩} where
  fits := by
    rintro x rfl
    exact ⟨h, by simp⟩
  covers w hw := ⟨_, rfl, by simpa [Block.Holds, Block.size] using hw⟩
  eq_of_holds := by
    rintro x rfl y rfl w - -
    rfl

/-- No word of a block is in another one. -/
theorem not_holds (c : Cuts L T) (hx : x ∈ T) (hy : y ∈ T) (hne : x ≠ y) {w : Nat}
    (h : x.Holds L w) : ¬ y.Holds L w := fun h' => hne (c.eq_of_holds x hx y hy w h h')

/-- The halves of a block of the set are not in the set. -/
theorem left_notMem (c : Cuts L T) (hx : x ∈ T) : x.left ∉ T := fun h =>
  Block.left_ne (c.eq_of_holds _ h _ hx _ Block.holds_start
    ((Block.holds_halves (c.fits x hx).1).2 (.inl Block.holds_start)))

theorem right_notMem (c : Cuts L T) (hx : x ∈ T) : x.right ∉ T := fun h =>
  Block.right_ne (c.eq_of_holds _ h _ hx _ Block.holds_start
    ((Block.holds_halves (c.fits x hx).1).2 (.inr Block.holds_start)))

/-- A block is cut into its halves. -/
theorem halve (c : Cuts L T) (hx : x ∈ T) (hb : x.bucket + 1 < L) :
    Cuts L (insert x.left (insert x.right (T \ {x}))) where
  fits := by
    rintro y (rfl | rfl | ⟨hy, -⟩)
    · exact Block.fits_left (c.fits x hx) hb
    · exact Block.fits_right (c.fits x hx) hb
    · exact c.fits y hy
  covers w hw := by
    obtain ⟨y, hy, hyw⟩ := c.covers w hw
    by_cases hyx : y = x
    · subst hyx
      rcases (Block.holds_halves (c.fits y hx).1).1 hyw with h | h
      · exact ⟨_, .inl rfl, h⟩
      · exact ⟨_, .inr (.inl rfl), h⟩
    · exact ⟨y, .inr (.inr ⟨hy, hyx⟩), hyw⟩
  eq_of_holds := by
    have hl := (c.fits x hx).1
    have in_x {w : Nat} (h : x.left.Holds L w ∨ x.right.Holds L w) := (Block.holds_halves hl).2 h
    have apart {w : Nat} (h : x.left.Holds L w) (h' : x.right.Holds L w) : False := by
      rw [Block.holds_iff, Block.start_left hl] at h
      rw [Block.holds_iff, Block.start_right hl] at h'
      omega
    rintro y (rfl | rfl | ⟨hy, hyx⟩) z (rfl | rfl | ⟨hz, hzx⟩) w hyw hzw
    · rfl
    · exact (apart hyw hzw).elim
    · exact (c.not_holds hz hx hzx hzw (in_x (.inl hyw))).elim
    · exact (apart hzw hyw).elim
    · rfl
    · exact (c.not_holds hz hx hzx hzw (in_x (.inr hyw))).elim
    · exact (c.not_holds hy hx hyx hyw (in_x (.inl hzw))).elim
    · exact (c.not_holds hy hx hyx hyw (in_x (.inr hzw))).elim
    · exact c.eq_of_holds y hy z hz w hyw hzw

/-- Two halves are joined. -/
theorem merge (c : Cuts L T) (hl : x.left ∈ T) (hr : x.right ∈ T) :
    Cuts L (insert x (T \ {x.left, x.right})) where
  fits := by
    rintro y (rfl | ⟨hy, -⟩)
    · exact Block.fits_of_left (c.fits _ hl)
    · exact c.fits y hy
  covers w hw := by
    have hb := (Block.fits_of_left (c.fits _ hl)).1
    obtain ⟨y, hy, hyw⟩ := c.covers w hw
    by_cases hyx : y ∈ ({x.left, x.right} : Set Block)
    · refine ⟨x, .inl rfl, (Block.holds_halves hb).2 ?_⟩
      rcases hyx with rfl | rfl
      · exact .inl hyw
      · exact .inr hyw
    · exact ⟨y, .inr ⟨hy, hyx⟩, hyw⟩
  eq_of_holds := by
    have hb := (Block.fits_of_left (c.fits _ hl)).1
    have outside {z : Block} (hz : z ∈ T) (hzx : z ∉ ({x.left, x.right} : Set Block)) {w : Nat}
        (hzw : z.Holds L w) : ¬ x.Holds L w := by
      simp only [Set.mem_insert_iff, Set.mem_singleton_iff, not_or] at hzx
      rw [Block.holds_halves hb, not_or]
      exact ⟨c.not_holds hz hl hzx.1 hzw, c.not_holds hz hr hzx.2 hzw⟩
    rintro y (rfl | ⟨hy, hyx⟩) z (rfl | ⟨hz, hzx⟩) w hyw hzw
    · rfl
    · exact (outside hz hzx hzw hyw).elim
    · exact (outside hy hyx hyw hzw).elim
    · exact c.eq_of_holds y hy z hz w hyw hzw

/-- The blocks that cut a pool have as many words as the pool. -/
theorem sum_size {S : Finset Block} (c : Cuts L S) : ∑ x ∈ S, x.size L = 2 ^ L := by
  let words (x : Block) : Finset Nat := Finset.Ico (x.start L) (x.start L + x.size L)
  have mem {x : Block} {w : Nat} : w ∈ words x ↔ x.Holds L w := by
    rw [Finset.mem_Ico, Block.holds_iff]
  have all : S.biUnion words = Finset.range (2 ^ L) := by
    ext w
    rw [Finset.mem_biUnion, Finset.mem_range]
    constructor
    · rintro ⟨x, hx, hw⟩
      exact (Finset.mem_Ico.1 hw).2.trans_le (Block.end_le (c.fits x hx))
    · intro hw
      obtain ⟨x, hx, holds⟩ := c.covers w hw
      exact ⟨x, hx, mem.2 holds⟩
  have apart : (S : Set Block).PairwiseDisjoint words := fun x hx y hy ne =>
    Finset.disjoint_left.2 fun w hw hw' => ne (c.eq_of_holds x hx y hy w (mem.1 hw) (mem.1 hw'))
  calc ∑ x ∈ S, x.size L
    _ = ∑ x ∈ S, (words x).card := by simp [words]
    _ = (S.biUnion words).card := (Finset.card_biUnion apart).symm
    _ = 2 ^ L := by rw [all, Finset.card_range]

end Cuts
end GoMachine

import Mathlib.Algebra.BigOperators.Group.Finset.Basic
import Mathlib.Logic.Basic
import GoMachine.Proofs.Pool.FreeList
/-!
# The tiling of a pool

`Tiling p taken free` ties the four structures of a pool together: the taken blocks and the blocks
on the free lists cut the pool, the heads and links spell out the lists, a node is in `splits` when
exactly one of its halves is free, and `freeWords` is the sum of the lists.

Nothing is said of the words in taken blocks, so that a block may be taken for a moment while it is
split or joined.

* `Tiling.insertFree`, `Tiling.removeFree`: the steps from which all else is built.
* `Tiling.split`, `Tiling.join`: halving on the way down, joining on the way up.
-/
namespace GoMachine

/-- The blocks on free lists, which are given by the positions in each bucket. -/
def freeBlocks (free : Nat → List Nat) : Set Block := {x | x.pos ∈ free x.bucket}

theorem mem_freeBlocks {free : Nat → List Nat} {x : Block} :
    x ∈ freeBlocks free ↔ x.pos ∈ free x.bucket := Iff.rfl

namespace Pool

/-- The taken and the free blocks cut the pool, and everything that the pool knows agrees. -/
structure Tiling (p : Pool) (taken : Set Block) (free : Nat → List Nat) : Prop where
  two_le : 2 ≤ p.maxLog
  maxLog_le : p.maxLog ≤ 31
  cuts : Cuts p.maxLog (taken ∪ freeBlocks free)
  separate : ∀ x ∈ taken, x ∉ freeBlocks free
  nodup : ∀ b, (free b).Nodup
  heads : ∀ b, p.heads[b]? = (free b).head?.map fun k => Block.start p.maxLog ⟨b, k⟩
  links : ∀ b, Linked p p.maxLog b (free b)
  bits : ∀ x : Block, x.pos < 2 ^ x.bucket →
    (x.node ∈ p.splits ↔ Xor (x.left ∈ freeBlocks free) (x.right ∈ freeBlocks free))
  freeWords : p.freeWords = ∑ b ∈ Finset.range p.maxLog, (free b).length * p.blockWords b

/-! ## What the small steps leave alone -/

section Fields

variable {p : Pool} {i b node : Nat} {w : UInt64} {o : Option Nat}

@[simp] theorem setWord_maxLog : (p.setWord i w).maxLog = p.maxLog := rfl
@[simp] theorem setWord_heads : (p.setWord i w).heads = p.heads := rfl
@[simp] theorem setWord_splits : (p.setWord i w).splits = p.splits := rfl
@[simp] theorem setWord_freeWords : (p.setWord i w).freeWords = p.freeWords := rfl

@[simp] theorem setHead_maxLog : (p.setHead b o).maxLog = p.maxLog := by cases o <;> rfl
@[simp] theorem setHead_splits : (p.setHead b o).splits = p.splits := by cases o <;> rfl
@[simp] theorem setHead_freeWords : (p.setHead b o).freeWords = p.freeWords := by cases o <;> rfl
@[simp] theorem setHead_word : (p.setHead b o).word = p.word := by cases o <;> rfl

theorem setHead_heads (b' : Nat) :
    (p.setHead b o).heads[b']? = if b = b' then o else p.heads[b']? := by
  cases o with
  | none => simp only [setHead, Std.TreeMap.getElem?_erase, compare_eq_iff_eq]
  | some i => simp only [setHead, Std.TreeMap.getElem?_insert, compare_eq_iff_eq]

@[simp] theorem toggle_maxLog : (p.toggle node).maxLog = p.maxLog := by
  unfold toggle
  split_ifs <;> rfl

@[simp] theorem toggle_heads : (p.toggle node).heads = p.heads := by
  unfold toggle
  split_ifs <;> rfl

@[simp] theorem toggle_freeWords : (p.toggle node).freeWords = p.freeWords := by
  unfold toggle
  split_ifs <;> rfl

@[simp] theorem toggle_word : (p.toggle node).word = p.word := by
  unfold toggle
  split_ifs <;> rfl

theorem toggle_splits_congr {q : Pool} (h : p.splits = q.splits) :
    (p.toggle node).splits = (q.toggle node).splits := by
  simp only [toggle, h]
  split_ifs <;> simp [h]

theorem mem_toggle_splits (n : Nat) :
    n ∈ (p.toggle node).splits ↔ Xor (n ∈ p.splits) (1 < node ∧ n = node / 2) := by
  unfold toggle
  split_ifs with h1 h2
  · simp [Nat.not_lt.2 h1, xor_def]
  · rw [Std.TreeSet.contains_iff_mem] at h2
    rw [Std.TreeSet.mem_erase, ne_eq, compare_eq_iff_eq]
    grind
  · rw [Std.TreeSet.contains_iff_mem] at h2
    rw [Std.TreeSet.mem_insert, compare_eq_iff_eq]
    grind

@[simp] theorem gain_maxLog : (p.gain b).maxLog = p.maxLog := rfl
@[simp] theorem gain_heads : (p.gain b).heads = p.heads := rfl
@[simp] theorem gain_splits : (p.gain b).splits = p.splits := rfl
@[simp] theorem gain_word : (p.gain b).word = p.word := rfl
@[simp] theorem lose_maxLog : (p.lose b).maxLog = p.maxLog := rfl
@[simp] theorem lose_heads : (p.lose b).heads = p.heads := rfl
@[simp] theorem lose_splits : (p.lose b).splits = p.splits := rfl
@[simp] theorem lose_word : (p.lose b).word = p.word := rfl

theorem blockWords_eq (x : Block) : p.blockWords x.bucket = x.size p.maxLog := rfl

theorem offset_node (x : Block) : p.offset x.bucket x.node = x.start p.maxLog := by
  simp only [offset, Block.node, Block.start, blockWords_eq]
  congr 1
  exact Nat.add_sub_cancel_left ..

theorem node_start (x : Block) : p.node x.bucket (x.start p.maxLog) = x.node := by
  rw [Pool.node, blockWords_eq, Block.start_div_size, Block.node, Nat.add_comm]
  rfl

theorem capacity_eq : p.capacity = 2 ^ p.maxLog := rfl

end Fields

/-! ## Bits -/

/-- A bit flips with the block of which it is the parent's. -/
theorem bits_toggle {p : Pool} {x : Block} {free free' : Nat → List Nat}
    (hx : x.pos < 2 ^ x.bucket)
    (bits : ∀ y : Block, y.pos < 2 ^ y.bucket →
      (y.node ∈ p.splits ↔ Xor (y.left ∈ freeBlocks free) (y.right ∈ freeBlocks free)))
    (others : ∀ y, y ≠ x → (y ∈ freeBlocks free' ↔ y ∈ freeBlocks free))
    (flips : x ∈ freeBlocks free' ↔ x ∉ freeBlocks free) (y : Block) (hy : y.pos < 2 ^ y.bucket) :
    y.node ∈ (p.toggle x.node).splits ↔
      Xor (y.left ∈ freeBlocks free') (y.right ∈ freeBlocks free') := by
  have hlr := Block.left_ne_right (x := y) (y := y)
  rw [mem_toggle_splits, bits y hy]
  by_cases hl : y.left = x
  · have : 1 < x.node ∧ y.node = x.node / 2 := by
      have := Nat.two_pow_pos y.bucket
      rw [← hl, Block.node_left, Block.node]
      omega
    rw [others y.right (by rw [← hl]; exact hlr.symm), hl, flips]
    grind
  · by_cases hr : y.right = x
    · have : 1 < x.node ∧ y.node = x.node / 2 := by
        have := Nat.two_pow_pos y.bucket
        rw [← hr, Block.node_right, Block.node]
        omega
      rw [others y.left hl, hr, flips]
      grind
    · have : ¬ (1 < x.node ∧ y.node = x.node / 2) := by
        rintro ⟨h1, h2⟩
        rcases Block.eq_half_of_node hx hy h1 h2 with h | h
        · exact hl h
        · exact hr h
      rw [others _ hl, others _ hr]
      grind

/-! ## Sums over the lists -/

theorem sum_update {L b : Nat} (hb : b < L) (free : Nat → List Nat) (ks : List Nat)
    (s : Nat → Nat) :
    ∑ b' ∈ Finset.range L, (Function.update free b ks b').length * s b' + (free b).length * s b =
      ∑ b' ∈ Finset.range L, (free b').length * s b' + ks.length * s b := by
  have hb := Finset.mem_range.2 hb
  rw [← Finset.add_sum_erase _ _ hb, ← Finset.add_sum_erase (Finset.range L) _ hb,
    Function.update_self]
  have same : ∑ b' ∈ (Finset.range L).erase b, (Function.update free b ks b').length * s b' =
      ∑ b' ∈ (Finset.range L).erase b, (free b').length * s b' :=
    Finset.sum_congr rfl fun b' h => by rw [Function.update_of_ne (Finset.ne_of_mem_erase h)]
  rw [same]
  omega

/-! ## Free lists of a tiling -/

/-- The free lists after a block was put in front. -/
def consFree (free : Nat → List Nat) (x : Block) : Nat → List Nat :=
  Function.update free x.bucket (x.pos :: free x.bucket)

/-- The free lists without a block. -/
def eraseFree (free : Nat → List Nat) (x : Block) : Nat → List Nat :=
  Function.update free x.bucket ((free x.bucket).erase x.pos)

theorem mem_consFree {free : Nat → List Nat} {x y : Block} :
    y ∈ freeBlocks (consFree free x) ↔ y = x ∨ y ∈ freeBlocks free := by
  simp only [mem_freeBlocks, consFree, Function.update_apply, Block.ext_iff]
  split_ifs with h
  · simp [h]
  · simp [h]

theorem mem_eraseFree {free : Nat → List Nat} (nodup : ∀ b, (free b).Nodup) {x y : Block} :
    y ∈ freeBlocks (eraseFree free x) ↔ y ≠ x ∧ y ∈ freeBlocks free := by
  simp only [mem_freeBlocks, eraseFree, Function.update_apply, ne_eq, Block.ext_iff]
  split_ifs with h
  · simp [h, (nodup x.bucket).mem_erase_iff]
  · simp [h]

namespace Tiling

variable {p : Pool} {taken : Set Block} {free : Nat → List Nat} {x y : Block}

theorem fits (t : Tiling p taken free) (h : x ∈ taken ∪ freeBlocks free) : x.Fits p.maxLog :=
  t.cuts.fits x h

/-- The first words of the blocks are all different, and so are the second ones. -/
theorem first_inj (t : Tiling p taken free) (hx : x ∈ taken ∪ freeBlocks free)
    (hy : y ∈ taken ∪ freeBlocks free) (h : x.start p.maxLog = y.start p.maxLog) : x = y := by
  have hdx := Block.two_le_size (t.fits hx)
  have hdy := Block.two_le_size (t.fits hy)
  exact t.cuts.eq_of_holds x hx y hy (x.start p.maxLog)
    (Block.holds_iff.2 (by omega)) (Block.holds_iff.2 (by omega))

/-- No first word of a block is the second one of another. -/
theorem first_ne_second (t : Tiling p taken free) (hx : x ∈ taken ∪ freeBlocks free)
    (hy : y ∈ taken ∪ freeBlocks free) : x.start p.maxLog ≠ y.start p.maxLog + 1 := by
  intro h
  have hdx := Block.two_le_size (t.fits hx)
  have hdy := Block.two_le_size (t.fits hy)
  have same : x = y := t.cuts.eq_of_holds x hx y hy (x.start p.maxLog)
    (Block.holds_iff.2 (by omega)) (Block.holds_iff.2 (by omega))
  rw [same] at h
  omega

/-- A word of a taken block is no link. -/
theorem not_slot (t : Tiling p taken free) (hx : x ∈ taken ∪ freeBlocks free) (hy : y ∈ taken)
    (hne : y ≠ x) {w : Nat} (hw : y.Holds p.maxLog w) {d : Nat} (hd : d < 2) :
    x.start p.maxLog + d ≠ w := by
  rintro rfl
  have := Block.two_le_size (t.fits hx)
  exact hne (t.cuts.eq_of_holds y (.inl hy) x hx _ hw (Block.holds_iff.2 (by omega)))

theorem start_lt (t : Tiling p taken free) (hx : x ∈ taken ∪ freeBlocks free) :
    x.start p.maxLog < 2 ^ 32 := by
  have h := Block.start_lt (t.fits hx)
  have := Nat.pow_le_pow_right (show 0 < 2 by decide) (t.maxLog_le)
  omega

/-- A block may be exchanged for others that are taken too. -/
theorem retake (t : Tiling p taken free) {taken' : Set Block}
    (cuts : Cuts p.maxLog (taken' ∪ freeBlocks free))
    (separate : ∀ x ∈ taken', x ∉ freeBlocks free) : Tiling p taken' free :=
  { t with cuts, separate }

end Tiling

/-! ## Freeing a block -/

section Insert

variable {p : Pool} {x : Block} {b node w : Nat}

@[simp] theorem insertFree_maxLog : (p.insertFree b node).maxLog = p.maxLog := by
  simp only [insertFree]
  cases p.heads[b]? <;> simp

theorem insertFree_heads (b' : Nat) :
    (p.insertFree x.bucket x.node).heads[b']? =
      if x.bucket = b' then some (x.start p.maxLog) else p.heads[b']? := by
  simp only [insertFree, offset_node, gain_heads, toggle_heads, setHead_heads]
  cases p.heads[x.bucket]? <;> rfl

theorem insertFree_splits : (p.insertFree b node).splits = (p.toggle node).splits := by
  simp only [insertFree, gain_splits]
  refine toggle_splits_congr ?_
  cases p.heads[b]? <;> simp

theorem insertFree_freeWords :
    (p.insertFree b node).freeWords = p.freeWords + p.blockWords b := by
  simp only [insertFree, gain]
  cases p.heads[b]? <;> simp [blockWords]

/-- The words that are written: the links of the block, and the link back to it. -/
theorem insertFree_word : (p.insertFree x.bucket x.node).word w =
    if p.heads[x.bucket]? = some w then link (some (x.start p.maxLog))
    else if w = x.start p.maxLog + 1 then link p.heads[x.bucket]?
    else if w = x.start p.maxLog then link none
    else p.word w := by
  simp only [insertFree, offset_node, gain_word, toggle_word, setHead_word]
  cases p.heads[x.bucket]? with
  | none =>
    simp only [word_setWord, reduceCtorEq, if_false, eq_comm (b := w)]
    rfl
  | some h =>
    simp only [word_setWord, Option.some.injEq, eq_comm (b := w)]
    rfl

end Insert

namespace Tiling

variable {p : Pool} {taken : Set Block} {free : Nat → List Nat} {x y : Block}

theorem head_mem (t : Tiling p taken free) {b i : Nat} (h : p.heads[b]? = some i) :
    ∃ k ks, free b = k :: ks ∧ i = Block.start p.maxLog ⟨b, k⟩ := by
  rw [t.heads b] at h
  cases hf : free b with
  | nil => simp [hf] at h
  | cons k ks => exact ⟨k, ks, rfl, by simpa [hf] using h.symm⟩

/-- Freeing a block leaves the words of all other taken blocks alone. -/
theorem insertFree_word_of_taken (t : Tiling p taken free) (hx : x ∈ taken) (hy : y ∈ taken)
    (hne : y ≠ x) {w : Nat} (hw : y.Holds p.maxLog w) :
    (p.insertFree x.bucket x.node).word w = p.word w := by
  rw [insertFree_word, if_neg, if_neg, if_neg]
  · exact (t.not_slot (.inl hx) hy hne hw (d := 0) (by omega)).symm
  · exact (t.not_slot (.inl hx) hy hne hw (d := 1) (by omega)).symm
  · intro h
    obtain ⟨k, ks, hf, e⟩ := t.head_mem h
    have hk : (⟨x.bucket, k⟩ : Block) ∈ freeBlocks free := by simp [mem_freeBlocks, hf]
    refine t.not_slot (x := ⟨x.bucket, k⟩) (.inr hk) hy ?_ hw (d := 0) (by omega) e.symm
    rintro rfl
    exact t.separate _ hy hk

/-- The second word of another free block is not written. -/
theorem insertFree_second (t : Tiling p taken free) (hx : x ∈ taken) (hy : y ∈ freeBlocks free) :
    (p.insertFree x.bucket x.node).word (y.start p.maxLog + 1) = p.word (y.start p.maxLog + 1) := by
  rw [insertFree_word, if_neg, if_neg, if_neg]
  · exact (t.first_ne_second (.inl hx) (.inr hy)).symm
  · intro e
    obtain rfl := t.first_inj (.inr hy) (.inl hx) (Nat.succ.inj e)
    exact t.separate _ hx hy
  · intro h
    obtain ⟨k, ks, hf, e⟩ := t.head_mem h
    have hk : (⟨x.bucket, k⟩ : Block) ∈ freeBlocks free := by simp [mem_freeBlocks, hf]
    exact t.first_ne_second (.inr hk) (.inr hy) e.symm

/-- The first word of another free block is written only if it was in front of the list. -/
theorem insertFree_first (t : Tiling p taken free) (hx : x ∈ taken) (hy : y ∈ freeBlocks free)
    (behind : y.bucket = x.bucket → (free x.bucket).head? ≠ some y.pos) :
    (p.insertFree x.bucket x.node).word (y.start p.maxLog) = p.word (y.start p.maxLog) := by
  rw [insertFree_word, if_neg, if_neg, if_neg]
  · intro e
    obtain rfl := t.first_inj (.inr hy) (.inl hx) e
    exact t.separate _ hx hy
  · exact t.first_ne_second (.inr hy) (.inl hx)
  · intro h
    obtain ⟨k, ks, hf, e⟩ := t.head_mem h
    have hk : (⟨x.bucket, k⟩ : Block) ∈ freeBlocks free := by simp [mem_freeBlocks, hf]
    obtain rfl := t.first_inj (.inr hy) (.inr hk) e
    exact behind rfl (by simp [hf])

/-- The lists are linked when the block has come to the front of its own. -/
theorem insertFree_linked (t : Tiling p taken free) (hx : x ∈ taken) (b : Nat) :
    Linked (p.insertFree x.bucket x.node) p.maxLog b (consFree free x b) := by
  have head := t.heads x.bucket
  have new {k : Nat} (hk : p.heads[x.bucket]? = some k) : k ≠ x.start p.maxLog := by
    intro e
    obtain ⟨k', ks, hf, e'⟩ := t.head_mem hk
    have hk' : (⟨x.bucket, k'⟩ : Block) ∈ freeBlocks free := by simp [mem_freeBlocks, hf]
    exact t.separate x hx (t.first_inj (.inl hx) (.inr hk') (e.symm.trans e') ▸ hk')
  have apart {k : Nat} (hk : p.heads[x.bucket]? = some k) : k ≠ x.start p.maxLog + 1 := by
    obtain ⟨k', ks, hf, rfl⟩ := t.head_mem hk
    have hk' : (⟨x.bucket, k'⟩ : Block) ∈ freeBlocks free := by simp [mem_freeBlocks, hf]
    exact t.first_ne_second (.inr hk') (.inl hx)
  simp only [consFree, Function.update_apply]
  split_ifs with h
  · subst h
    refine (t.links x.bucket).cons ?first ?second ?back ?firsts
      fun k hk => t.insertFree_second hx (y := ⟨_, k⟩) hk
    case first =>
      rw [insertFree_word, if_neg fun h => new h rfl, if_neg (Nat.lt_succ_self _).ne, if_pos rfl]
    case second => rw [insertFree_word, if_neg fun h => apart h rfl, if_pos rfl, head]
    case back =>
      intro k hk
      rw [insertFree_word, if_pos (by rw [head, hk]; rfl)]
    case firsts =>
      intro k hk
      refine t.insertFree_first hx (y := ⟨_, k⟩) (List.mem_of_mem_tail hk) fun _ e => ?_
      have nodup := t.nodup x.bucket
      cases hf : free x.bucket with
      | nil => simp [hf] at hk
      | cons k' ks =>
        simp only [hf, List.tail_cons, List.head?_cons, Option.some.injEq] at hk e
        rw [hf, List.nodup_cons] at nodup
        exact nodup.1 (e ▸ hk)
  · exact (t.links b).congr fun k hk =>
      ⟨t.insertFree_first hx (y := ⟨b, k⟩) hk fun e => absurd e h,
        t.insertFree_second hx (y := ⟨b, k⟩) hk⟩

/-- A block is put on its free list. -/
theorem insertFree (t : Tiling p taken free) (hx : x ∈ taken) :
    Tiling (p.insertFree x.bucket x.node) (taken \ {x}) (consFree free x) where
  two_le := by simpa using t.two_le
  maxLog_le := by simpa using t.maxLog_le
  cuts := by
    have same : taken \ {x} ∪ freeBlocks (consFree free x) = taken ∪ freeBlocks free := by
      ext y
      simp only [Set.mem_union, Set.mem_sdiff, Set.mem_singleton_iff, mem_consFree]
      by_cases h : y = x
      · simp [h, hx]
      · simp [h]
    simpa [same] using t.cuts
  separate := by
    rintro y ⟨hy, hne⟩
    rw [mem_consFree, not_or]
    exact ⟨hne, t.separate y hy⟩
  nodup b := by
    simp only [consFree, Function.update_apply]
    split_ifs with h
    · exact List.nodup_cons.2 ⟨t.separate x hx, t.nodup _⟩
    · exact t.nodup b
  heads b := by
    simp only [insertFree_heads, insertFree_maxLog, consFree, Function.update_apply]
    split_ifs with h h' h'
    · simp [← h]
    · exact absurd h.symm h'
    · exact absurd h'.symm h
    · exact t.heads b
  links b := by
    rw [insertFree_maxLog]
    exact t.insertFree_linked hx b
  bits y hy := by
    rw [insertFree_splits]
    refine bits_toggle (t.fits (.inl hx)).2 t.bits (fun z hz => ?_) ?_ y hy
    · simp [mem_consFree, hz]
    · simpa [mem_consFree] using t.separate x hx
  freeWords := by
    have sum := sum_update (t.fits (.inl hx)).1 free (x.pos :: free x.bucket) p.blockWords
    rw [insertFree_freeWords, t.freeWords, insertFree_maxLog]
    simp only [List.length_cons, Nat.succ_mul] at sum
    simp only [consFree, blockWords, insertFree_maxLog] at sum ⊢
    omega

end Tiling

/-! ## Taking a block off its list -/

section Remove

variable {p : Pool} {x : Block} {b node w : Nat} {prev next : Option Nat}

@[simp] theorem removeFree_maxLog : (p.removeFree b node).maxLog = p.maxLog := by
  simp only [removeFree]
  cases unlink (p.word (p.offset b node)) <;> cases unlink (p.word (p.offset b node + 1)) <;> simp

theorem removeFree_splits : (p.removeFree b node).splits = (p.toggle node).splits := by
  simp only [removeFree, lose_splits]
  refine toggle_splits_congr ?_
  cases unlink (p.word (p.offset b node)) <;> cases unlink (p.word (p.offset b node + 1)) <;> simp

theorem removeFree_freeWords :
    (p.removeFree b node).freeWords = p.freeWords - p.blockWords b := by
  simp only [removeFree, lose]
  cases unlink (p.word (p.offset b node)) <;> cases unlink (p.word (p.offset b node + 1)) <;>
    simp [blockWords]

theorem removeFree_heads (hp : unlink (p.word (x.start p.maxLog)) = prev)
    (hn : unlink (p.word (x.start p.maxLog + 1)) = next) (b' : Nat) :
    (p.removeFree x.bucket x.node).heads[b']? =
      if prev = none ∧ x.bucket = b' then next else p.heads[b']? := by
  simp only [removeFree, offset_node, hp, hn, lose_heads, toggle_heads]
  cases prev <;> cases next <;> simp [setHead_heads]

/-- The words that are written: the link from the block before and the link from the one behind. -/
theorem removeFree_word (hp : unlink (p.word (x.start p.maxLog)) = prev)
    (hn : unlink (p.word (x.start p.maxLog + 1)) = next) :
    (p.removeFree x.bucket x.node).word w =
      if next = some w then link prev
      else if prev.map (· + 1) = some w then link next
      else p.word w := by
  simp only [removeFree, offset_node, hp, hn, lose_word, toggle_word]
  cases prev <;> cases next <;> simp [word_setWord]

end Remove

namespace Tiling

variable {p : Pool} {taken : Set Block} {free : Nat → List Nat} {x y : Block}

/-- The blocks in front of a free block on its list, and those behind it. -/
structure Between (p : Pool) (free : Nat → List Nat) (x : Block) (xs ys : List Nat) : Prop where
  split : free x.bucket = xs ++ x.pos :: ys
  prev : unlink (p.word (x.start p.maxLog)) =
    xs.getLast?.map fun k => Block.start p.maxLog ⟨x.bucket, k⟩
  next : unlink (p.word (x.start p.maxLog + 1)) =
    ys.head?.map fun k => Block.start p.maxLog ⟨x.bucket, k⟩

namespace Between

variable {xs ys : List Nat} {k : Nat}

theorem mem_of_last (btw : Between p free x xs ys) (h : xs.getLast? = some k) :
    (⟨x.bucket, k⟩ : Block) ∈ freeBlocks free := by
  simp [mem_freeBlocks, btw.split, List.mem_of_getLast? h]

theorem mem_of_head (btw : Between p free x xs ys) (h : ys.head? = some k) :
    (⟨x.bucket, k⟩ : Block) ∈ freeBlocks free := by
  simp [mem_freeBlocks, btw.split, List.mem_of_head? h]

/-- The block is on the list once. -/
theorem erase_eq (btw : Between p free x xs ys) (nodup : (free x.bucket).Nodup) :
    (free x.bucket).erase x.pos = xs ++ ys := by
  rw [btw.split, List.nodup_middle, List.nodup_cons, List.mem_append, not_or] at nodup
  rw [btw.split, List.erase_append_right _ nodup.1.1, List.erase_cons_head]

end Between

/-- What stands in front of a free block and behind it. -/
theorem exists_between (t : Tiling p taken free) (hx : x ∈ freeBlocks free) :
    ∃ xs ys, Between p free x xs ys := by
  obtain ⟨xs, ys, e⟩ := List.append_of_mem (mem_freeBlocks.1 hx)
  obtain ⟨h1, h2⟩ := t.links _ xs _ ys e
  have bound {k : Nat} (h : k ∈ free x.bucket) : Block.start p.maxLog ⟨x.bucket, k⟩ < 2 ^ 32 :=
    t.start_lt (.inr h)
  refine ⟨xs, ys, e, ?_, ?_⟩
  · rw [h1, unlink_link]
    simp only [Option.map_eq_some_iff, forall_exists_index, and_imp]
    rintro i k hk rfl
    exact bound (by simp [e, List.mem_of_getLast? hk])
  · rw [h2, unlink_link]
    simp only [Option.map_eq_some_iff, forall_exists_index, and_imp]
    rintro i k hk rfl
    exact bound (by simp [e, List.mem_of_head? hk])

/-- A word is not written that is no first word of the block behind and no second word of the one in
front. -/
theorem Between.removeFree_word {xs ys : List Nat} {w : Nat} (btw : Between p free x xs ys)
    (next : ∀ k, ys.head? = some k → Block.start p.maxLog ⟨x.bucket, k⟩ ≠ w)
    (prev : ∀ k, xs.getLast? = some k → Block.start p.maxLog ⟨x.bucket, k⟩ + 1 ≠ w) :
    (p.removeFree x.bucket x.node).word w = p.word w := by
  rw [Pool.removeFree_word btw.prev btw.next, if_neg, if_neg]
  · simpa only [Option.map_map, Option.map_eq_some_iff, not_exists, not_and, Function.comp_apply]
      using prev
  · simpa only [Option.map_eq_some_iff, not_exists, not_and] using next

/-- Taking a block off its list leaves the words of all taken blocks alone. -/
theorem removeFree_word_of_taken (t : Tiling p taken free) (hx : x ∈ freeBlocks free)
    (hy : y ∈ taken) {w : Nat} (hw : y.Holds p.maxLog w) :
    (p.removeFree x.bucket x.node).word w = p.word w := by
  obtain ⟨xs, ys, btw⟩ := t.exists_between hx
  have ne {k d : Nat} (h : ⟨x.bucket, k⟩ ∈ freeBlocks free) (hd : d < 2) :
      Block.start p.maxLog ⟨x.bucket, k⟩ + d ≠ w := by
    refine t.not_slot (x := ⟨x.bucket, k⟩) (.inr h) hy ?_ hw hd
    rintro rfl
    exact t.separate _ hy h
  exact btw.removeFree_word (fun k hk => ne (d := 0) (btw.mem_of_head hk) (by decide))
    fun k hk => ne (btw.mem_of_last hk) (by decide)

section

variable {xs ys : List Nat}

/-- The first word of a free block is written only directly behind the gap. -/
theorem removeFree_first (t : Tiling p taken free) (btw : Between p free x xs ys)
    (hy : y ∈ freeBlocks free) (behind : y.bucket = x.bucket → ys.head? ≠ some y.pos) :
    (p.removeFree x.bucket x.node).word (y.start p.maxLog) = p.word (y.start p.maxLog) := by
  refine btw.removeFree_word (fun k hk e => ?_) fun k hk e => ?_
  · obtain rfl := t.first_inj (.inr (btw.mem_of_head hk)) (.inr hy) e
    exact behind rfl hk
  · exact t.first_ne_second (.inr hy) (.inr (btw.mem_of_last hk)) e.symm

/-- The second word of a free block is written only directly in front of the gap. -/
theorem removeFree_second (t : Tiling p taken free) (btw : Between p free x xs ys)
    (hy : y ∈ freeBlocks free) (front : y.bucket = x.bucket → xs.getLast? ≠ some y.pos) :
    (p.removeFree x.bucket x.node).word (y.start p.maxLog + 1) = p.word (y.start p.maxLog + 1) := by
  refine btw.removeFree_word (fun k hk e => ?_) fun k hk e => ?_
  · exact t.first_ne_second (.inr (btw.mem_of_head hk)) (.inr hy) e
  · obtain rfl := t.first_inj (.inr (btw.mem_of_last hk)) (.inr hy) (Nat.succ.inj e)
    exact front rfl hk

/-- The list is linked over the gap. -/
theorem removeFree_linked (t : Tiling p taken free) (btw : Between p free x xs ys) :
    Linked (p.removeFree x.bucket x.node) p.maxLog x.bucket (xs ++ ys) := by
  have nodup : (xs ++ ys).Nodup := btw.erase_eq (t.nodup _) ▸ (t.nodup _).erase _
  have left {k : Nat} (h : k ∈ xs) : (⟨x.bucket, k⟩ : Block) ∈ freeBlocks free := by
    simp [mem_freeBlocks, btw.split, h]
  have right {k : Nat} (h : k ∈ ys) : (⟨x.bucket, k⟩ : Block) ∈ freeBlocks free := by
    simp [mem_freeBlocks, btw.split, h]
  refine (btw.split ▸ t.links x.bucket).erase ?next ?prev ?firsts ?seconds
  case next =>
    intro j hj
    rw [Pool.removeFree_word btw.prev btw.next, if_neg, if_pos (by simp [hj])]
    simp only [Option.map_eq_some_iff, not_exists, not_and]
    exact fun k hk => t.first_ne_second (.inr (btw.mem_of_head hk)) (.inr (btw.mem_of_last hj))
  case prev =>
    intro j hj
    rw [Pool.removeFree_word btw.prev btw.next, if_pos (by simp [hj])]
  case firsts =>
    intro k hk
    rcases List.mem_append.1 hk with h | h
    · refine t.removeFree_first btw (left h) fun _ hh => ?_
      exact List.disjoint_of_nodup_append nodup h (List.mem_of_head? hh)
    · refine t.removeFree_first btw (right (List.mem_of_mem_tail h)) fun _ hh => ?_
      cases ys with
      | nil => simp at h
      | cons y ys =>
        obtain rfl : y = k := Option.some_inj.1 hh
        exact (List.nodup_cons.1 nodup.of_append_right).1 h
  case seconds =>
    intro k hk
    rcases List.mem_append.1 hk with h | h
    · refine t.removeFree_second btw (left (List.mem_of_mem_dropLast h)) fun _ hh => ?_
      have once := nodup.of_append_left
      rw [← List.dropLast_append_getLast? k hh, List.nodup_append] at once
      exact once.2.2 k h k (by simp) rfl
    · refine t.removeFree_second btw (right h) fun _ hh => ?_
      exact List.disjoint_of_nodup_append nodup (List.mem_of_getLast? hh) h

end

/-- A block is taken off its free list. -/
theorem removeFree (t : Tiling p taken free) (hx : x ∈ freeBlocks free) :
    Tiling (p.removeFree x.bucket x.node) (insert x taken) (eraseFree free x) := by
  obtain ⟨xs, ys, btw⟩ := t.exists_between hx
  have erased := btw.erase_eq (t.nodup _)
  constructor
  case two_le => simpa using t.two_le
  case maxLog_le => simpa using t.maxLog_le
  case cuts =>
    have same : insert x taken ∪ freeBlocks (eraseFree free x) = taken ∪ freeBlocks free := by
      ext y
      simp only [Set.mem_union, Set.mem_insert_iff, mem_eraseFree t.nodup]
      by_cases h : y = x
      · simp [h, hx]
      · simp [h]
    simpa [same] using t.cuts
  case separate =>
    intro y hy
    rw [mem_eraseFree t.nodup]
    rintro ⟨hne, hf⟩
    exact t.separate y (hy.resolve_left hne) hf
  case nodup =>
    intro b
    simp only [eraseFree, Function.update_apply]
    split_ifs with h
    · exact (t.nodup _).erase _
    · exact t.nodup b
  case heads =>
    intro b
    have head := t.heads x.bucket
    rw [removeFree_heads btw.prev btw.next, removeFree_maxLog]
    simp only [eraseFree, Function.update_apply]
    by_cases hb : x.bucket = b
    · subst hb
      rw [if_pos rfl, erased]
      cases xs with
      | nil => simp
      | cons k xs => simp [head, btw.split]
    · rw [if_neg (fun h => hb h.2), if_neg (Ne.symm hb)]
      exact t.heads b
  case links =>
    intro b
    simp only [removeFree_maxLog, eraseFree, Function.update_apply]
    split_ifs with h
    · subst h
      rw [erased]
      exact t.removeFree_linked btw
    · exact (t.links b).congr fun k hk =>
        ⟨t.removeFree_first btw (y := ⟨b, k⟩) hk fun e => absurd e h,
          t.removeFree_second btw (y := ⟨b, k⟩) hk fun e => absurd e h⟩
  case bits =>
    intro y hy
    rw [removeFree_splits]
    refine bits_toggle (t.fits (.inr hx)).2 t.bits (fun z hz => ?_) ?_ y hy
    · simp [mem_eraseFree t.nodup, hz]
    · simp [mem_eraseFree t.nodup, hx]
  case freeWords =>
    have sum := sum_update (t.fits (.inr hx)).1 free ((free x.bucket).erase x.pos) p.blockWords
    have len : (free x.bucket).length = ((free x.bucket).erase x.pos).length + 1 := by
      rw [erased, btw.split]
      simp
      omega
    rw [len] at sum
    rw [removeFree_freeWords, t.freeWords, removeFree_maxLog]
    simp only [Nat.succ_mul] at sum
    simp only [eraseFree, blockWords, removeFree_maxLog] at sum ⊢
    omega

end Tiling
end Pool
end GoMachine

import Mathlib.Order.Bounds.Basic
import GoMachine.Proofs.Pool.Client
/-!
# Free blocks are as large as they can be

A block is given back to the bit of its parent, never to the state of its other half. Since the bits
are right at every level after every history, no two halves of a block are ever both free, and the
free blocks are the largest regions that touch no block in use. So they depend on the blocks in use
only, in whatever order others were allocated and given back, and a request fails only if no region
has room for it.

* `Cuts.mem_iff_largest`: which blocks are free in a tiling without two free halves.
* `Tiling.allocate_eq_none`: when a request is refused.
* `Tiling.alike`: pools with the same blocks in use differ in the order of their free lists only.
* `free_blocks_largest`: what this comes to for the client of a pool.
-/
namespace GoMachine

/-! ## Regions -/

namespace Block

variable {L : Nat} {x y : Block} {w : Nat}

/-- An aligned region of the pool whose size is a power of two, down to single words. -/
def Region (L : Nat) (x : Block) : Prop := x.bucket ≤ L ∧ x.pos < 2 ^ x.bucket

theorem Fits.region (h : x.Fits L) : x.Region L := ⟨h.1.le, h.2⟩

/-- A region that touches none of some blocks. -/
def Clear (L : Nat) (T : Set Block) (x : Block) : Prop :=
  x.Region L ∧ ∀ y ∈ T, ∀ w, x.Holds L w → ¬y.Holds L w

/-- A region lies in another one. -/
def Within (L : Nat) (x y : Block) : Prop := ∀ w, x.Holds L w → y.Holds L w

/-- A region that touches none of some blocks and lies in no other such region. -/
def Largest (L : Nat) (T : Set Block) (x : Block) : Prop :=
  x.Clear L T ∧ ∀ y, y.Clear L T → x.Within L y → y = x

theorem size_dvd (h : x.bucket ≤ y.bucket) : y.size L ∣ x.size L := Nat.pow_dvd_pow 2 (by omega)

/-- Regions that share a word are nested. -/
theorem within_of_holds (hb : y.bucket ≤ x.bucket) (hx : x.Holds L w) (hy : y.Holds L w) :
    x.Within L y := by
  obtain ⟨c, hc⟩ := size_dvd (L := L) hb
  intro v hv
  rw [Holds] at *
  rw [hc, ← Nat.div_div_eq_div_mul] at hy ⊢
  rw [hv, ← hx, hy]

theorem Within.size_le (h : x.Within L y) : x.size L ≤ y.size L := by
  have pos := x.size_pos (L := L)
  have first := holds_iff.1 (h _ holds_start)
  have last := holds_iff.1 (h (x.start L + (x.size L - 1)) (holds_iff.2 (by omega)))
  omega

theorem Region.bucket_le (hx : x.Region L) (hy : y.Region L) (h : x.size L ≤ y.size L) :
    y.bucket ≤ x.bucket := by
  have := (Nat.pow_le_pow_iff_right (by decide)).1 h
  have := hx.1
  have := hy.1
  omega

theorem Within.antisymm (hx : x.Region L) (hy : y.Region L) (h : x.Within L y) (h' : y.Within L x) :
    x = y := by
  have hb : x.bucket = y.bucket :=
    Nat.le_antisymm (hy.bucket_le hx h'.size_le) (hx.bucket_le hy h.size_le)
  have hw := h _ holds_start
  refine Block.ext hb ?_
  rw [Holds, size, ← hb] at hw
  rw [← hw]
  exact start_div_size.symm

/-- A smaller region at the beginning of a region. -/
theorem Region.shrink (hy : y.Region L) {b : Nat} (hb : y.bucket ≤ b) (hL : b ≤ L) :
    ∃ x : Block, x.bucket = b ∧ x.Region L ∧ x.Within L y := by
  refine ⟨⟨b, y.pos * 2 ^ (b - y.bucket)⟩, rfl, ⟨hL, ?_⟩, ?_⟩
  · have e : 2 ^ b = 2 ^ y.bucket * 2 ^ (b - y.bucket) := by
      rw [← Nat.pow_add, Nat.add_sub_cancel' hb]
    simp only [e]
    exact Nat.mul_lt_mul_of_pos_right hy.2 (Nat.two_pow_pos _)
  · have e : y.size L = 2 ^ (b - y.bucket) * 2 ^ (L - b) := by
      rw [size, ← Nat.pow_add]
      congr 1
      omega
    refine within_of_holds (w := start L ⟨b, y.pos * 2 ^ (b - y.bucket)⟩) hb holds_start ?_
    rw [Holds, start, e, size, mul_assoc]
    exact Nat.mul_div_cancel _ (Nat.mul_pos (Nat.two_pow_pos _) (Nat.two_pow_pos _))

theorem Clear.mono {T : Set Block} (hy : y.Clear L T) (hx : x.Region L) (h : x.Within L y) :
    x.Clear L T :=
  ⟨hx, fun z hz w hw => hy.2 z hz w (h w hw)⟩

theorem Region.halves (hx : x.Region L) (hb : x.bucket < L) : x.left.Region L ∧
    x.right.Region L := by
  have := hx.2
  refine ⟨⟨hb, ?_⟩, hb, ?_⟩ <;> simp only [left, right, Nat.pow_succ] <;> omega

end Block

open Block (Region Clear Within Largest)

/-! ## Which blocks are free -/

namespace Cuts

variable {L : Nat} {T S : Set Block} {x y : Block}

/-- A region that touches none of the blocks of `T` lies in a block of `S`, if the two cut the pool
and no two halves of a block are in `S`. -/
theorem exists_within (c : Cuts L (T ∪ S)) (halves : ∀ x : Block, x.left ∈ S → x.right ∉ S)
    (hx : x.Clear L T) : ∃ y ∈ S, x.Within L y := by
  obtain ⟨d, hd⟩ : ∃ d, L - x.bucket = d := ⟨_, rfl⟩
  induction d generalizing x with
  | zero =>
    have single : x.size L = 1 := by rw [Block.size, hd, Nat.pow_zero]
    obtain ⟨y, hy, hw⟩ := c.covers (x.start L) (by
      rw [Block.start, single, Nat.mul_one]
      exact hx.1.2.trans_le (Nat.pow_le_pow_right (by decide) hx.1.1))
    refine ⟨y, hy.resolve_left fun hy => hx.2 y hy _ Block.holds_start hw, ?_⟩
    have := (c.fits y hy).1
    exact Block.within_of_holds (by omega) Block.holds_start hw
  | succ d ih =>
    -- each half lies in a block of `S`; unless one of these blocks is larger, both halves are in
    -- `S`
    have hb : x.bucket < L := by omega
    have in_x {w : Nat} (h : x.left.Holds L w ∨ x.right.Holds L w) := (Block.holds_halves hb).2 h
    obtain ⟨hl, hr⟩ := hx.1.halves hb
    obtain ⟨y, hy, hly⟩ := ih (hx.mono hl fun w hw => in_x (.inl hw))
      (by simp only [Block.left]; omega)
    obtain ⟨z, hz, hrz⟩ := ih (hx.mono hr fun w hw => in_x (.inr hw))
      (by simp only [Block.right]; omega)
    have bound {u v : Block} (hu : u ∈ S) (hv : v.Region L) (h : v.Within L u) :
      u.bucket ≤ v.bucket :=
      hv.bucket_le (c.fits u (.inr hu)).region h.size_le
    by_cases hyb : y.bucket ≤ x.bucket
    · exact ⟨y, hy, Block.within_of_holds hyb (in_x (.inl Block.holds_start))
        (hly _ Block.holds_start)⟩
    by_cases hzb : z.bucket ≤ x.bucket
    · exact ⟨z, hz, Block.within_of_holds hzb (in_x (.inr Block.holds_start))
        (hrz _ Block.holds_start)⟩
    have same {u v : Block} (hu : u ∈ S) (hv : v.Region L) (hb : v.bucket ≤ u.bucket)
      (h : v.Within L u) :
        v = u :=
      Within.antisymm hv (c.fits u (.inr hu)).region h
        (Block.within_of_holds hb (h _ Block.holds_start) Block.holds_start)
    obtain rfl := same hy hl (by simp only [Block.left]; omega) hly
    obtain rfl := same hz hr (by simp only [Block.right]; omega) hrz
    exact absurd hz (halves x hy)

/-- The blocks of `S` are the largest regions that touch none of the blocks of `T`. -/
theorem mem_iff_largest (c : Cuts L (T ∪ S)) (separate : ∀ x ∈ T, x ∉ S)
    (halves : ∀ x : Block, x.left ∈ S → x.right ∉ S) : x ∈ S ↔ x.Largest L T := by
  have clear {y : Block} (hy : y ∈ S) : y.Clear L T := by
    refine ⟨(c.fits y (.inr hy)).region, fun z hz w hw => c.not_holds (.inr hy) (.inl hz) ?_ hw⟩
    rintro rfl
    exact separate y hz hy
  constructor
  · refine fun hx => ⟨clear hx, fun y hy h => ?_⟩
    obtain ⟨z, hz, hyz⟩ := c.exists_within halves hy
    obtain rfl := c.eq_of_holds x (.inr hx) z (.inr hz) _ Block.holds_start
      (hyz _ (h _ Block.holds_start))
    exact hyz.antisymm hy.1 (clear hx).1 h
  · rintro ⟨hx, largest⟩
    obtain ⟨z, hz, h⟩ := c.exists_within halves hx
    exact largest z (clear hz) h ▸ hz

end Cuts

/-! ## Reading the free lists -/

namespace Pool

variable {p q : Pool} {live : Set Nat} {T : Set Block} {free free' : Nat → List Nat}
  {x : Block} {b i j n : Nat}

/-- The free list of a bucket, as the words of the pool spell it out, leads to an offset. -/
inductive Listed (p : Pool) (b : Nat) : Nat → Prop
  | head {i : Nat} : p.heads[b]? = some i → Listed p b i
  | next {i j : Nat} : Listed p b i → unlink (p.word (i + 1)) = some j → Listed p b j

/-- A block is free if the list of its bucket leads to it. -/
def IsFree (p : Pool) (x : Block) : Prop := p.Listed x.bucket (x.start p.maxLog)

theorem Tiling.listed_iff (t : Tiling p T free) :
    p.Listed b i ↔ ∃ k ∈ free b, i = Block.start p.maxLog ⟨b, k⟩ := by
  constructor
  · intro h
    induction h with
    | head h =>
      rw [t.heads, Option.map_eq_some_iff] at h
      obtain ⟨k, hk, rfl⟩ := h
      exact ⟨k, List.mem_of_head? hk, rfl⟩
    | next _ h ih =>
      obtain ⟨k, hk, rfl⟩ := ih
      obtain ⟨xs, ys, e, -, hn⟩ := t.exists_between (x := ⟨b, k⟩) hk
      rw [hn, Option.map_eq_some_iff] at h
      obtain ⟨k', hk', rfl⟩ := h
      exact ⟨k', by simp [e, List.mem_of_head? hk'], rfl⟩
  · rintro ⟨k, hk, rfl⟩
    obtain ⟨xs, ys, e⟩ := List.append_of_mem hk
    clear hk
    induction xs using List.reverseRecOn generalizing k ys with
    | nil => exact .head (by rw [t.heads, e]; rfl)
    | append_singleton xs k' ih =>
      have e' : free b = xs ++ k' :: k :: ys := by simpa using e
      refine .next (ih k' (k :: ys) e') ?_
      rw [(t.links b xs k' (k :: ys) e').2]
      exact unlink_link_some (t.start_lt (x := ⟨b, k⟩) (.inr (by simp [mem_freeBlocks, e])))

theorem Tiling.isFree_iff (t : Tiling p T free) : p.IsFree x ↔ x ∈ freeBlocks free := by
  rw [IsFree, t.listed_iff]
  constructor
  · rintro ⟨k, hk, e⟩
    rwa [mem_freeBlocks, Block.start_inj e]
  · exact fun h => ⟨x.pos, h, rfl⟩

/-- No two halves of a block are both free, and no bit belongs to no block. -/
structure Joined (p : Pool) : Prop where
  halves : ∀ x : Block, ¬(p.IsFree x.left ∧ p.IsFree x.right)
  noRoot : 0 ∉ p.splits

theorem Tiling.coalesced_iff (t : Tiling p T free) : Coalesced p free ↔ Joined p := by
  constructor
  · refine fun c => ⟨fun x h => ?_, c.noRoot⟩
    rw [t.isFree_iff, t.isFree_iff] at h
    exact c.halves x h.1 h.2
  · refine fun j => ⟨fun x hl hr => j.halves x ?_, j.noRoot⟩
    rw [t.isFree_iff, t.isFree_iff]
    exact ⟨hl, hr⟩

namespace Joined

theorem new {words : Nat} (h : Pool.new words = .ok p) : Joined p := by
  obtain ⟨free, t, c⟩ := Tiling.new h
  exact t.coalesced_iff.1 c

theorem allocate (joined : Joined p) (s : Serves p live) (h : p.allocate n = some (i, q)) :
    Joined q := by
  obtain ⟨free, t, -⟩ := s
  obtain ⟨_, free', -, -, -, t', -, -, -, coalesced⟩ := t.allocate h
  exact t'.coalesced_iff.1 (coalesced (t.coalesced_iff.2 joined))

theorem deallocate (joined : Joined p) (s : Serves p live) (hi : i ∈ live)
    (h : p.deallocate i = .ok q) :
    Joined q := by
  have s' := s
  obtain ⟨free, t, addr⟩ := s
  obtain ⟨r, free', hr, t', -, -, coalesced⟩ := t.deallocate ⟨i, hi, rfl⟩ (s'.header hi (addr i hi))
  rw [← addr i hi, h, Except.ok.injEq] at hr
  exact hr ▸ t'.coalesced_iff.1 (coalesced (t.coalesced_iff.2 joined))

theorem setWord (joined : Joined p) (s : Serves p live) (hi : i ∈ live) (h1 : i ≤ j)
    (h2 : j < i + p.blockCapacity i) (w : UInt64) : Joined (p.setWord j w) := by
  have hw := (s.holds_iff hi).2 ⟨by omega, h2⟩
  obtain ⟨free, t, -⟩ := s
  obtain ⟨halves, noRoot⟩ := t.coalesced_iff.2 joined
  exact (t.setWord ⟨i, hi, rfl⟩ hw w).coalesced_iff.1 ⟨halves, noRoot⟩

/-- A client clears words of a block in use. -/
theorem clear (joined : Joined p) (s : Serves p live) (hi : i ∈ live) (h1 : i ≤ j) :
    ∀ n, j + n ≤ i + p.blockCapacity i →
      Joined ((List.range n).foldl (fun p k => p.setWord (j + k) 0) p)
  | 0, _ => joined
  | n + 1, h2 => by
    obtain ⟨q, e, s', cap, -⟩ := s.clear hi h1 n (by omega)
    have before := joined.clear s hi h1 n (by omega)
    rw [e] at before
    rw [List.range_succ, List.foldl_append, e]
    exact before.setWord s' hi (by omega) (by omega) 0

end Joined

theorem History.joined (h : History p live) : Joined p := by
  induction h with
  | new h => exact .new h
  | allocate h ha ih => exact ih.allocate h.serves ha
  | deallocate h hi hd ih => exact ih.deallocate h.serves hi hd
  | setWord w h hi h1 h2 ih => exact ih.setWord h.serves hi h1 h2 w

/-! ## What the blocks in use determine -/

theorem Tiling.isFree_iff_largest (t : Tiling p T free) (joined : Joined p) :
    p.IsFree x ↔ x.Largest p.maxLog T := by
  rw [t.isFree_iff]
  exact t.cuts.mem_iff_largest t.separate (t.coalesced_iff.2 joined).halves

theorem Tiling.listed_iff_largest (t : Tiling p T free) (joined : Joined p) :
    p.Listed b i ↔ ∃ x : Block, x.Largest p.maxLog T ∧ x.bucket = b ∧ i = x.start p.maxLog := by
  rw [t.listed_iff]
  constructor
  · rintro ⟨k, hk, rfl⟩
    exact ⟨⟨b, k⟩, (t.isFree_iff_largest joined).1 (t.isFree_iff.2 hk), rfl, rfl⟩
  · rintro ⟨x, hx, rfl, rfl⟩
    exact ⟨x.pos, t.isFree_iff.1 ((t.isFree_iff_largest joined).2 hx), rfl⟩

/-- A request of `n` words needs the smallest power of two that is at least 2 and has room for one
word more. -/
def Needs (n s : Nat) : Prop := IsLeast {s | 2 ≤ s ∧ n + 1 ≤ s ∧ ∃ k, s = 2 ^ k} s

theorem needs_iff (hn : n ≠ 0) {s : Nat} : Needs n s ↔ s = 2 ^ (n.log2 + 1) := by
  have least : Needs n (2 ^ (n.log2 + 1)) := by
    refine ⟨⟨Nat.le_self_pow (by omega) 2, Nat.lt_log2_self, _, rfl⟩, ?_⟩
    rintro s ⟨-, hs, k, rfl⟩
    have : n.log2 < k := (Nat.log2_lt hn).2 hs
    exact Nat.pow_le_pow_right (by decide) this
  exact ⟨fun h => h.unique least, fun h => h ▸ least⟩

theorem lastFree?_eq_none : p.lastFree? b = none ↔ ∀ c ≤ b, p.heads[c]? = none := by
  induction b with
  | zero => simp [lastFree?]
  | succ b ih =>
    simp only [lastFree?, Std.TreeMap.contains_eq_isSome_getElem?]
    split_ifs with h
    · refine ⟨False.elim, fun e => ?_⟩
      rw [e (b + 1) le_rfl] at h
      exact absurd h Bool.false_ne_true
    · have unlisted := Option.not_isSome_iff_eq_none.1 h
      rw [ih]
      refine ⟨fun h c hc => ?_, fun h c hc => h c (by omega)⟩
      rcases Nat.lt_or_ge b c with hb | hb
      · rwa [show c = b + 1 by omega]
      · exact h c hb

theorem heads_of_lastFree? {c : Nat} (h : p.lastFree? b = some c) : p.heads[c]?.isSome := by
  rw [← Std.TreeMap.contains_eq_isSome_getElem?]
  induction b with
  | zero =>
    simp only [lastFree?, Option.ite_none_right_eq_some, Option.some.injEq] at h
    exact h.2 ▸ h.1
  | succ b ih =>
    simp only [lastFree?] at h
    split_ifs at h with hb
    · exact Option.some.inj h ▸ hb
    · exact ih h

/-- A request is refused if it is for nothing, or too large for the pool, or the lists up to its
bucket are empty. -/
theorem allocate_eq_none : p.allocate n = none ↔
    n = 0 ∨ p.maxLog < n.log2 + 1 ∨ ∀ b ≤ p.maxLog - (n.log2 + 1), p.heads[b]? = none := by
  rw [← lastFree?_eq_none, allocate]
  by_cases hn : n = 0 ∨ p.maxLog < n.log2 + 1
  · simp only [bucketFor?, if_pos hn]
    exact iff_of_true rfl (hn.imp_right .inl)
  · simp only [bucketFor?, if_neg hn, Option.bind_eq_bind, Option.bind_some]
    rw [← or_assoc, or_iff_right hn]
    cases h : p.lastFree? (p.maxLog - (n.log2 + 1)) with
    | none => simp
    | some c =>
      obtain ⟨i, hi⟩ := Option.isSome_iff_exists.1 (heads_of_lastFree? h)
      simp [hi]

/-- A request is refused if it is for nothing, or no region that it needs is free of blocks in use.
-/
theorem Tiling.allocate_eq_none (t : Tiling p T free) (joined : Joined p) : p.allocate n = none ↔
    n = 0 ∨ ∀ x : Block, Needs n (x.size p.maxLog) → ¬x.Clear p.maxLog T := by
  rw [Pool.allocate_eq_none]
  by_cases hn : n = 0
  · simp [hn]
  rw [or_iff_right hn, or_iff_right hn]
  simp only [needs_iff hn]
  constructor
  · -- a region that is clear lies in a free block, which is in a list that the request looks at
    rintro h x hx clear
    have hlog : p.maxLog - x.bucket = n.log2 + 1 := Nat.pow_right_injective (by decide) hx
    obtain ⟨y, hy, hxy⟩ := t.cuts.exists_within (t.coalesced_iff.2 joined).halves clear
    have hb := clear.1.bucket_le (t.fits (.inr hy)).region hxy.size_le
    have head := h.resolve_left (by omega) y.bucket (by omega)
    rw [t.heads, Option.map_eq_none_iff, List.head?_eq_none_iff] at head
    rw [mem_freeBlocks, head] at hy
    exact List.not_mem_nil hy
  · -- a free block in one of these lists begins with such a region
    intro h
    refine or_iff_not_imp_left.2 fun hlog b hb => ?_
    rw [t.heads, Option.map_eq_none_iff, List.head?_eq_none_iff, List.eq_nil_iff_forall_not_mem]
    intro k hk
    have free_block : (⟨b, k⟩ : Block) ∈ freeBlocks free := hk
    have clear := ((t.isFree_iff_largest joined).1 (t.isFree_iff.2 free_block)).1
    obtain ⟨x, hx, region, within⟩ := clear.1.shrink hb (by omega)
    refine h x ?_ (clear.mono region within)
    rw [Block.size, hx]
    congr 1
    omega

/-- Two pools have the same free blocks and bits, and grant the same requests. -/
structure Alike (p q : Pool) : Prop where
  listed : ∀ b i, p.Listed b i ↔ q.Listed b i
  splits : ∀ node, node ∈ p.splits ↔ node ∈ q.splits
  freeWords : p.freeWords = q.freeWords
  allocate : ∀ n, (p.allocate n).isSome = (q.allocate n).isSome

/-- The blocks in use determine everything but the order of the free lists. -/
theorem Tiling.alike (t : Tiling p T free) (t' : Tiling q T free') (joined : Joined p)
    (joined' : Joined q)
    (log : q.maxLog = p.maxLog) : Alike p q := by
  have same (x : Block) : x ∈ freeBlocks free ↔ x ∈ freeBlocks free' := by
    rw [← t.isFree_iff, ← t'.isFree_iff, t.isFree_iff_largest joined, t'.isFree_iff_largest joined',
      log]
  refine ⟨fun b i => ?_, fun node => ?_, ?_, fun n => ?_⟩
  · rw [t.listed_iff_largest joined, t'.listed_iff_largest joined', log]
  · by_cases h0 : node = 0
    · subst h0
      exact iff_of_false joined.noRoot joined'.noRoot
    · have low := Nat.log2_self_le h0
      have high := Nat.lt_log2_self (n := node)
      rw [Nat.pow_succ] at high
      let x : Block := ⟨node.log2, node - 2 ^ node.log2⟩
      have hx : x.pos < 2 ^ x.bucket := by simp only [x]; omega
      have e : x.node = node := by simp only [x, Block.node]; omega
      rw [← e, t.bits x hx, t'.bits x hx, same, same]
  · rw [t.freeWords, t'.freeWords, log]
    refine Finset.sum_congr rfl fun b _ => ?_
    have perm : (free b).Perm (free' b) :=
      (List.perm_ext_iff_of_nodup (t.nodup b) (t'.nodup b)).2 fun k => same ⟨b, k⟩
    rw [perm.length_eq, blockWords, blockWords, log]
  · rw [Bool.eq_iff_iff, ← not_iff_not]
    simp only [Option.not_isSome_iff_eq_none]
    rw [t.allocate_eq_none joined, t'.allocate_eq_none joined', log]

/-- In a pool without blocks in use, only the whole of it is free. -/
theorem largest_empty {L : Nat} : x.Largest L ∅ ↔ x = ⟨0, 0⟩ := by
  have whole : Clear L ∅ ⟨0, 0⟩ := ⟨⟨Nat.zero_le _, by simp⟩, by simp⟩
  have within {y : Block} (hy : y.Region L) : y.Within L ⟨0, 0⟩ := by
    refine Block.within_of_holds (w := y.start L) (Nat.zero_le _) Block.holds_start ?_
    have : y.start L < 2 ^ L := by
      have e : 2 ^ L = 2 ^ y.bucket * y.size L := by
        rw [Block.size, ← Nat.pow_add, Nat.add_sub_cancel' hy.1]
      rw [e, Block.start]
      exact Nat.mul_lt_mul_of_pos_right hy.2 Block.size_pos
    simpa [Block.Holds, Block.size] using this
  constructor
  · exact fun h => (h.2 _ whole (within h.1.1)).symm
  · rintro rfl
    exact ⟨whole, fun y hy h => (within hy.1).antisymm hy.1 whole.1 h⟩

/-- What is promised of the free blocks of a pool in which the blocks at the addresses of `live` are
in use. -/
structure Complete (p : Pool) (live : Set Nat) : Prop where
  /-- The free lists hold the largest regions that touch no block in use. -/
  listed : ∀ b i, p.Listed b i ↔
    ∃ x : Block, x.Largest p.maxLog (p.block '' live) ∧ x.bucket = b ∧ i = x.start p.maxLog
  /-- No two halves of a block are both free. -/
  halves : ∀ x : Block, ¬(p.IsFree x.left ∧ p.IsFree x.right)
  /-- A request fails only if it is for nothing or no region that it needs is free of blocks in use.
  -/
  allocate : ∀ n, p.allocate n = none ↔
    n = 0 ∨ ∀ x : Block, Needs n (x.size p.maxLog) → ¬x.Clear p.maxLog (p.block '' live)
  /-- Whatever history led to the same blocks in use led to the same free blocks. -/
  unique : ∀ q live', History q live' → q.maxLog = p.maxLog → q.block '' live' = p.block '' live →
    Alike p q
  /-- When everything was given back, the pool is one free block. -/
  empty : live = ∅ → (∀ b i, p.Listed b i ↔ b = 0 ∧ i = 0) ∧ p.freeWords = p.capacity ∧
    (p.allocate p.maxRequest).isSome

/-- Along every history of a client, the free blocks are as large as they can be. -/
theorem free_blocks_largest (h : History p live) : Complete p live := by
  have joined := h.joined
  obtain ⟨free, t, -⟩ := h.serves
  refine ⟨fun b i => t.listed_iff_largest joined, joined.halves, fun n => t.allocate_eq_none joined,
    ?_, ?_⟩
  · intro q live' h' log blocks
    obtain ⟨free', t', -⟩ := h'.serves
    exact t.alike (blocks ▸ t') joined h'.joined log
  · rintro rfl
    rw [Set.image_empty] at t
    have whole {x : Block} : x ∈ freeBlocks free ↔ x = ⟨0, 0⟩ := by
      rw [← t.isFree_iff, t.isFree_iff_largest joined, largest_empty]
    have two := t.two_le
    refine ⟨fun b i => ?_, ?_, ?_⟩
    · rw [t.listed_iff_largest joined]
      simp only [largest_empty]
      constructor
      · rintro ⟨x, rfl, rfl, rfl⟩
        exact ⟨rfl, Nat.zero_mul _⟩
      · rintro ⟨rfl, rfl⟩
        exact ⟨_, rfl, rfl, (Nat.zero_mul _).symm⟩
    · have one : (free 0).length = 1 := by
        have perm : (free 0).Perm [0] :=
          (List.perm_ext_iff_of_nodup (t.nodup 0) (by simp)).2 fun k => by
          have := whole (x := ⟨0, k⟩)
          simpa [mem_freeBlocks] using this
        exact perm.length_eq
      have emptied : ∀ b, b ≠ 0 → free b = [] := fun b hb =>
        List.eq_nil_iff_forall_not_mem.2 fun k hk =>
        by
        have e : (⟨b, k⟩ : Block) = ⟨0, 0⟩ := whole.1 hk
        exact hb (congrArg Block.bucket e)
      rw [t.freeWords, Finset.sum_eq_single 0]
      · rw [one, Nat.one_mul]
        rfl
      · intro b _ hb
        rw [emptied b hb, List.length_nil, Nat.zero_mul]
      · intro h
        exact absurd (Finset.mem_range.2 (by omega)) h
    · rw [← Option.ne_none_iff_isSome, ne_eq, t.allocate_eq_none joined, not_or]
      have pos : 2 ^ 2 ≤ 2 ^ p.maxLog := Nat.pow_le_pow_right (by decide) two
      have request : p.maxRequest = 2 ^ p.maxLog - 1 := rfl
      refine ⟨by omega, fun h => h ⟨0, 0⟩ ⟨⟨?_, ?_, p.maxLog, rfl⟩, ?_⟩ (largest_empty.2 rfl).1⟩
      · simp only [Block.size, Nat.sub_zero]
        omega
      · simp only [Block.size, Nat.sub_zero]
        omega
      · rintro s ⟨-, hs, -⟩
        simp only [Block.size, Nat.sub_zero]
        omega

/-- Two blocks of a pool of eight words, given back in the order in which they were taken. -/
theorem complete_after_release : ∃ p₀ p₁ p₂ p₃ p₄, Pool.new 8 = .ok p₀ ∧
    p₀.allocate 1 = some (1, p₁) ∧
    p₁.allocate 3 = some (5, p₂) ∧ p₂.deallocate 1 = .ok p₃ ∧ p₃.deallocate 5 = .ok p₄ ∧
    Complete p₃ (insert 5 (insert 1 ∅) \ {1}) ∧
    Complete p₄ ((insert 5 (insert 1 ∅) \ {1}) \ {5}) := by
  obtain ⟨p₀, p₁, p₂, p₃, p₄, h₀, h₁, h₂, h₃, h₄⟩ : ∃ p₀ p₁ p₂ p₃ p₄, Pool.new 8 = .ok p₀ ∧
      p₀.allocate 1 = some (1, p₁) ∧ p₁.allocate 3 = some (5, p₂) ∧ p₂.deallocate 1 = .ok p₃ ∧
      p₃.deallocate 5 = .ok p₄ :=
    ⟨_, _, _, _, _, rfl, rfl, rfl, rfl, rfl⟩
  have used : History p₂ (insert 5 (insert 1 ∅)) := .allocate (.allocate (.new h₀) h₁) h₂
  have first := used.deallocate (i := 1) (by simp) h₃
  have second := first.deallocate (i := 5) (by simp) h₄
  exact ⟨p₀, p₁, p₂, p₃, p₄, h₀, h₁, h₂, h₃, h₄, free_blocks_largest first,
    free_blocks_largest second⟩

end Pool
end GoMachine

import GoMachine.Proofs.Pool.Buddy
/-!
# Clients of a pool

A client allocates blocks, gives them back, and writes into the words it was given. `Serves p live`
says that the pool has given out exactly the blocks at the addresses of `live`; it is what
`allocate`, `deallocate` and `setWord` keep, and all that the record heap needs to know.

* `Serves.apart`: blocks in use do not overlap.
* `Serves.allocate`, `Serves.deallocate`, `Serves.setWord`: the operations of a client.
* `Serves.freeWords_add`: the words that are not in use are free.
* `blocks_tile_pool`: along every history of a client the blocks in use and the free blocks tile the
  pool, and no operation touches a block that it is not about.
-/
namespace GoMachine
namespace Pool

/-- The block in use whose words start at an address. -/
def block (p : Pool) (i : Nat) : Block :=
  ⟨(p.word (i - 1)).toNat, (i - 1) / p.blockWords (p.word (i - 1)).toNat⟩

/-- The blocks in use are those at the addresses, and the free blocks make up the rest. -/
def Serves (p : Pool) (live : Set Nat) : Prop :=
  ∃ free, Tiling p (p.block '' live) free ∧ ∀ i ∈ live, i = (p.block i).start p.maxLog + 1

variable {p q : Pool} {live : Set Nat} {i j n w : Nat}

theorem block_eq {x : Block} (log : p.maxLog ≤ 31) (fits : x.Fits p.maxLog)
    (header : p.word (x.start p.maxLog) = x.bucket.toUInt64) :
    p.block (x.start p.maxLog + 1) = x := by
  have hb : (p.word (x.start p.maxLog)).toNat = x.bucket := by
    have := fits.1
    rw [header]
    simp only [Nat.toUInt64, UInt64.toNat_ofNat']
    omega
  simp only [block, Nat.add_sub_cancel, hb]
  ext
  · rfl
  · exact Block.start_div_size

theorem block_congr (h : q.word (i - 1) = p.word (i - 1)) (log : q.maxLog = p.maxLog) :
    q.block i = p.block i := by
  simp only [block, h, blockWords, log]

theorem blockCapacity_eq (p : Pool) (i : Nat) :
    p.blockCapacity i = (p.block i).size p.maxLog - 1 := rfl

namespace Serves

/-- The words of a block in use, with the one in front, are those of a tile. -/
theorem holds_iff (s : Serves p live) (hi : i ∈ live) :
    (p.block i).Holds p.maxLog w ↔ i ≤ w + 1 ∧ w < i + p.blockCapacity i := by
  obtain ⟨free, t, addr⟩ := s
  have := addr i hi
  have := Block.two_le_size (t.fits (.inl ⟨i, hi, rfl⟩))
  rw [Block.holds_iff, blockCapacity_eq]
  omega

theorem maxLog_le (s : Serves p live) : p.maxLog ≤ 31 := s.choose_spec.1.maxLog_le

theorem bounds (s : Serves p live) (hi : i ∈ live) :
    1 ≤ i ∧ 1 ≤ p.blockCapacity i ∧ i + p.blockCapacity i ≤ 2 ^ p.maxLog := by
  obtain ⟨free, t, addr⟩ := s
  have := addr i hi
  have fits := t.fits (.inl ⟨i, hi, rfl⟩)
  have := Block.two_le_size fits
  have := Block.end_le fits
  rw [blockCapacity_eq]
  omega

/-- An address in use fits into 31 bits. -/
theorem lt_two_pow (s : Serves p live) (hi : i ∈ live) : i < 2 ^ 31 := by
  have := s.bounds hi
  have := Nat.pow_le_pow_right (show 0 < 2 by decide) s.maxLog_le
  omega

/-- Blocks in use do not overlap. -/
theorem apart (s : Serves p live) (hi : i ∈ live) (hj : j ∈ live) (hne : i ≠ j) :
    i + p.blockCapacity i < j ∨ j + p.blockCapacity j < i := by
  by_contra h
  have bi := s.bounds hi
  have bj := s.bounds hj
  have hw : (p.block i).Holds p.maxLog (max i j - 1) := (s.holds_iff hi).2 (by omega)
  have hw' : (p.block j).Holds p.maxLog (max i j - 1) := (s.holds_iff hj).2 (by omega)
  obtain ⟨free, t, addr⟩ := s
  have := t.cuts.eq_of_holds _ (.inl ⟨i, hi, rfl⟩) _ (.inl ⟨j, hj, rfl⟩) _ hw hw'
  exact hne (by rw [addr i hi, addr j hj, this])

theorem header (_ : Serves p live) (_ : i ∈ live) (hs : i = (p.block i).start p.maxLog + 1) :
    p.word ((p.block i).start p.maxLog) = (p.block i).bucket.toUInt64 := by
  rw [show (p.block i).start p.maxLog = i - 1 by omega]
  simp [block]

/-- A pool whose words in a set of blocks in use are those of another serves them likewise. -/
theorem image_congr (s : Serves p live) {keep : Set Nat} (sub : keep ⊆ live)
    (agree : Agree p q (p.block '' keep)) (log : q.maxLog = p.maxLog) :
    (∀ j ∈ keep, q.block j = p.block j) ∧ q.block '' keep = p.block '' keep := by
  have same : ∀ j ∈ keep, q.block j = p.block j := fun j hj =>
    block_congr (agree _ ⟨j, hj, rfl⟩ _
    ((s.holds_iff (sub hj)).2
      (by have := s.bounds (sub hj); omega))) log
  exact ⟨same, Set.image_congr same⟩

theorem new {words : Nat} (h : Pool.new words = .ok p) : Serves p ∅ := by
  obtain ⟨free, t, -⟩ := Tiling.new h
  exact ⟨free, by rwa [Set.image_empty], by simp⟩

theorem allocate (s : Serves p live) (h : p.allocate n = some (i, q)) :
    i ∉ live ∧ Serves q (insert i live) ∧ q.maxLog = p.maxLog ∧ n ≤ q.blockCapacity i ∧
      ∀ j ∈ live, ∀ w, j ≤ w + 1 → w < j + p.blockCapacity j → q.word w = p.word w := by
  have s' := s
  obtain ⟨free, t, addr⟩ := s
  obtain ⟨z, free', hz, rfl, hn, t', log, hdr, agree, -⟩ := t.allocate h
  have hblock : q.block (z.start p.maxLog + 1) = z := by
    rw [← log]
    exact block_eq t'.maxLog_le (t'.fits (.inl (.inl rfl))) (by rwa [log])
  obtain ⟨same, image⟩ := s'.image_congr le_rfl agree log
  refine ⟨fun hi => hz ?_, ⟨free', ?_, ?_⟩, log, ?_, fun j hj w h1 h2 =>
    agree _ ⟨j, hj, rfl⟩ w ((s'.holds_iff hj).2 ⟨h1, h2⟩)⟩
  · exact ⟨_, hi, by rw [← same _ hi, hblock]⟩
  · rwa [Set.image_insert_eq, hblock, image]
  · rintro j (rfl | hj)
    · rw [hblock, log]
    · rw [same j hj, log]
      exact addr j hj
  · rw [blockCapacity_eq, hblock, log]
    omega

theorem deallocate (s : Serves p live) (hi : i ∈ live) : ∃ q, p.deallocate i = .ok q ∧
    Serves q (live \ {i}) ∧ q.maxLog = p.maxLog ∧
      ∀ j ∈ live, j ≠ i → ∀ w, j ≤ w + 1 → w < j + p.blockCapacity j → q.word w = p.word w := by
  have s' := s
  obtain ⟨free, t, addr⟩ := s
  obtain ⟨q, free', hq, t', log, agree, -⟩ := t.deallocate ⟨i, hi, rfl⟩ (s'.header hi (addr i hi))
  have rest : p.block '' live \ {p.block i} = p.block '' (live \ {i}) := by
    ext x
    simp only [Set.mem_sdiff, Set.mem_image, Set.mem_singleton_iff]
    constructor
    · rintro ⟨⟨j, hj, rfl⟩, hne⟩
      exact ⟨j, ⟨hj, fun e => hne (e ▸ rfl)⟩, rfl⟩
    · rintro ⟨j, ⟨hj, hne⟩, rfl⟩
      refine ⟨⟨j, hj, rfl⟩, fun e => hne ?_⟩
      rw [addr j hj, e, ← addr i hi]
  rw [rest] at t' agree
  obtain ⟨same, image⟩ := s'.image_congr Set.sdiff_subset agree log
  rw [← addr i hi] at hq
  refine ⟨q, hq, ⟨free', by rwa [image], ?_⟩, log, fun j hj hne w h1 h2 =>
    agree _ ⟨j, ⟨hj, hne⟩, rfl⟩ w ((s'.holds_iff hj).2 ⟨h1, h2⟩)⟩
  intro j hj
  rw [same j hj, log]
  exact addr j hj.1

/-- What a client writes into a block is in front of none. -/
theorem block_setWord (s : Serves p live) (hi : i ∈ live) (h1 : i ≤ j)
    (h2 : j < i + p.blockCapacity i) (w : UInt64) : ∀ k ∈ live,
    (p.setWord j w).block k = p.block k := by
  intro k hk
  refine block_congr (word_setWord_of_ne ?_) rfl
  have := s.bounds hk
  by_cases hik : i = k
  · omega
  · have := s.apart hi hk hik
    omega

theorem setWord (s : Serves p live) (hi : i ∈ live) (h1 : i ≤ j) (h2 : j < i + p.blockCapacity i)
    (w : UInt64) : Serves (p.setWord j w) live := by
  have same := s.block_setWord hi h1 h2 w
  have hw : (p.block i).Holds p.maxLog j := (s.holds_iff hi).2 ⟨by omega, h2⟩
  obtain ⟨free, t, addr⟩ := s
  refine ⟨free, ?_, fun k hk => by rw [same k hk]; exact addr k hk⟩
  rw [Set.image_congr same]
  exact t.setWord ⟨i, hi, rfl⟩ hw w

/-- What a client writes into one block is not seen in another. -/
theorem blockCapacity_setWord (s : Serves p live) (hi : i ∈ live) (h1 : i ≤ j)
    (h2 : j < i + p.blockCapacity i) (w : UInt64) (hn : n ∈ live) :
    (p.setWord j w).blockCapacity n = p.blockCapacity n := by
  rw [blockCapacity, word_setWord_of_ne]
  · rfl
  · have := s.bounds hn
    by_cases hin : i = n
    · omega
    · have := s.apart hi hn hin
      omega

/-- A client clears words of a block in use. -/
theorem clear (s : Serves p live) (hi : i ∈ live) (h1 : i ≤ j) :
    ∀ n, j + n ≤ i + p.blockCapacity i → ∃ q,
      (List.range n).foldl (fun p k => p.setWord (j + k) 0) p = q ∧ Serves q live ∧
      q.blockCapacity i = p.blockCapacity i ∧ q.maxLog = p.maxLog ∧
      ∀ w, q.word w = if j ≤ w ∧ w < j + n then 0 else p.word w
  | 0, _ => ⟨p, rfl, s, rfl, rfl, fun w => by rw [if_neg (by omega)]⟩
  | n + 1, h2 => by
    obtain ⟨q, e, s', cap, log, words⟩ := s.clear hi h1 n (by omega)
    rw [List.range_succ, List.foldl_append, e]
    refine ⟨_, rfl, s'.setWord hi (by omega) (by omega) 0,
      (s'.blockCapacity_setWord hi (by omega) (by omega) 0 hi).trans cap, log, fun w => ?_⟩
    rw [List.foldl_cons, List.foldl_nil, word_setWord, words]
    split_ifs <;> first | rfl | omega

theorem finite (s : Serves p live) : live.Finite :=
  (Set.finite_lt_nat (2 ^ 31)).subset fun _ hi => s.lt_two_pow hi

/-- The free words and the words of the blocks in use make up the pool. -/
theorem freeWords_add (s : Serves p live) {used : Finset Nat} (hu : (used : Set Nat) = live) :
    p.freeWords + ∑ i ∈ used, (p.blockCapacity i + 1) = p.capacity := by
  obtain ⟨free, t, addr⟩ := s
  subst hu
  let blocks (b : Nat) : Finset Block := (free b).toFinset.image (Block.mk b)
  let listed := (Finset.range p.maxLog).biUnion blocks
  have mem {x : Block} : x ∈ listed ↔ x ∈ freeBlocks free := by
    simp only [listed, Finset.mem_biUnion, Finset.mem_range, blocks, Finset.mem_image,
      List.mem_toFinset]
    constructor
    · rintro ⟨b, -, k, hk, rfl⟩
      exact hk
    · exact fun hx => ⟨x.bucket, (t.fits (.inr hx)).1, x.pos, hx, rfl⟩
  have cuts : Cuts p.maxLog (used.image p.block ∪ listed : Finset Block) := by
    have same : (listed : Set Block) = freeBlocks free := Set.ext fun _ => mem
    rw [Finset.coe_union, Finset.coe_image, same]
    exact t.cuts
  have separate : Disjoint (used.image p.block) listed := Finset.disjoint_left.2 fun x hx hl => by
    obtain ⟨i, hi, rfl⟩ := Finset.mem_image.1 hx
    exact t.separate _ ⟨i, hi, rfl⟩ (mem.1 hl)
  have apart : (Finset.range p.maxLog : Set Nat).PairwiseDisjoint blocks := by
    intro b _ c _ ne
    refine Finset.disjoint_left.2 fun x hb hc => ne ?_
    obtain ⟨k, -, rfl⟩ := Finset.mem_image.1 hb
    obtain ⟨l, -, e⟩ := Finset.mem_image.1 hc
    exact (congrArg Block.bucket e).symm
  have inUse : ∑ x ∈ used.image p.block, x.size p.maxLog = ∑ i ∈ used, (p.blockCapacity i + 1) := by
    rw [Finset.sum_image fun i hi j hj e => by rw [addr i hi, addr j hj, e]]
    refine Finset.sum_congr rfl fun i _ => ?_
    have := (p.block i).size_pos (L := p.maxLog)
    rw [blockCapacity_eq]
    omega
  have onLists : ∑ x ∈ listed, x.size p.maxLog = p.freeWords := by
    rw [t.freeWords, Finset.sum_biUnion apart]
    refine Finset.sum_congr rfl fun b _ => ?_
    have inj : Function.Injective (Block.mk b) := fun k l e => congrArg Block.pos e
    rw [Finset.sum_image inj.injOn]
    simp [Block.size, blockWords, List.toFinset_card_of_nodup (t.nodup b)]
  rw [capacity_eq, ← cuts.sum_size, Finset.sum_union separate, inUse, onLists, Nat.add_comm]

/-- A pool without blocks in use has only free words. -/
theorem freeWords_eq_capacity (s : Serves p ∅) : p.freeWords = p.capacity := by
  simpa using s.freeWords_add Finset.coe_empty

end Serves

/-! ## Histories -/

/-- The pools that a client can come to, and the addresses of the blocks in use there. -/
inductive History : Pool → Set Nat → Prop
  | new {words : Nat} {p : Pool} : Pool.new words = .ok p → History p ∅
  | allocate {p q : Pool} {live : Set Nat} {n i : Nat} :
    History p live → p.allocate n = some (i, q) → History q (insert i live)
  | deallocate {p q : Pool} {live : Set Nat} {i : Nat} :
    History p live → i ∈ live → p.deallocate i = .ok q → History q (live \ {i})
  | setWord {p : Pool} {live : Set Nat} {i j : Nat} (w : UInt64) :
    History p live → i ∈ live → i ≤ j → j < i + p.blockCapacity i → History (p.setWord j w) live

theorem History.serves (h : History p live) : Serves p live := by
  induction h with
  | new h => exact Serves.new h
  | allocate _ h ih => exact (ih.allocate h).2.1
  | deallocate _ hi h ih =>
    obtain ⟨q, hq, s, -⟩ := ih.deallocate hi
    rw [h, Except.ok.injEq] at hq
    exact hq ▸ s
  | setWord w _ hi h1 h2 ih => exact ih.setWord hi h1 h2 w

/-- What is promised of a pool in which the blocks at the addresses of `live` are in use. -/
structure Tiled (p : Pool) (live : Set Nat) : Prop where
  /-- The blocks in use and the blocks on the free lists tile the pool. -/
  tiling : ∃ free, Tiling p (p.block '' live) free
  start : ∀ i ∈ live, i = (p.block i).start p.maxLog + 1
  /-- An allocated block has room, overlaps no block in use, and no word of one changes. -/
  allocate : ∀ n i q, p.allocate n = some (i, q) → n ≤ q.blockCapacity i ∧
    ∀ j ∈ live, (i + q.blockCapacity i < j ∨ j + p.blockCapacity j < i) ∧
      ∀ w, (p.block j).Holds p.maxLog w → q.word w = p.word w
  /-- Each block in use can be given back, and no word of another one changes. -/
  deallocate : ∀ i ∈ live, ∃ q, p.deallocate i = .ok q ∧
    ∀ j ∈ live, j ≠ i → ∀ w, (p.block j).Holds p.maxLog w → q.word w = p.word w

/-- Along every history of a client, the blocks in use and the free blocks tile the pool. -/
theorem blocks_tile_pool (h : History p live) : Tiled p live := by
  have s := h.serves
  refine ⟨⟨_, s.choose_spec.1⟩, s.choose_spec.2, ?_, ?_⟩
  · intro n i q hq
    obtain ⟨fresh, s', log, room, same⟩ := s.allocate hq
    refine ⟨room, fun j hj => ⟨?_, fun w hw => ?_⟩⟩
    · have cap : q.blockCapacity j = p.blockCapacity j := by
        have := s.bounds hj
        rw [blockCapacity, blockCapacity, same j hj (j - 1) (by omega) (by omega)]
        simp only [blockWords, log]
      rw [← cap]
      refine s'.apart (.inl rfl) (.inr hj) ?_
      rintro rfl
      exact fresh hj
    · rw [s.holds_iff hj] at hw
      exact same j hj w hw.1 hw.2
  · intro i hi
    obtain ⟨q, hq, -, -, same⟩ := s.deallocate hi
    refine ⟨q, hq, fun j hj hne w hw => ?_⟩
    rw [s.holds_iff hj] at hw
    exact same j hj hne w hw.1 hw.2

/-- Two blocks of a pool of eight words, of which the first is given back again. -/
theorem tiled_after_release : ∃ p₀ p₁ p₂ p₃, Pool.new 8 = .ok p₀ ∧ p₀.allocate 1 = some (1, p₁) ∧
    p₁.allocate 3 = some (5, p₂) ∧ (p₂.setWord 7 9).deallocate 1 = .ok p₃ ∧
    Tiled p₃ (insert 5 (insert 1 ∅) \ {1}) := by
  obtain ⟨p₀, p₁, p₂, p₃, h₀, h₁, h₂, h₃, room⟩ : ∃ p₀ p₁ p₂ p₃, Pool.new 8 = .ok p₀ ∧
      p₀.allocate 1 = some (1, p₁) ∧ p₁.allocate 3 = some (5, p₂) ∧
      (p₂.setWord 7 9).deallocate 1 = .ok p₃ ∧ 7 < 5 + p₂.blockCapacity 5 :=
    ⟨_, _, _, _, rfl, rfl, rfl, rfl, by decide⟩
  have used : History p₂ (insert 5 (insert 1 ∅)) := .allocate (.allocate (.new h₀) h₁) h₂
  have written := used.setWord 9 (i := 5) (j := 7) (by simp) (by omega) room
  exact ⟨p₀, p₁, p₂, p₃, h₀, h₁, h₂, h₃, blocks_tile_pool (written.deallocate (by simp) h₃)⟩

end Pool
end GoMachine

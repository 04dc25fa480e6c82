import Mathlib.Data.Nat.Bitwise
import GoMachine.Proofs.Pool.Tiling
/-!
# The buddy system

What taking blocks out of a pool and giving them back does to its tiling.

* `Tiling.split`: halving a taken block leaves one small block taken and the rest free.
* `Tiling.join`: a block that is given back is joined with its other half while that is free.
* `Tiling.allocate`, `Tiling.deallocate`: the two operations; neither changes a word of a block
  that stays taken, and neither leaves two halves of a block free (`Coalesced`).
-/
namespace GoMachine
namespace Pool

/-- The second pool has the same words as the first in the blocks of a set. -/
def Agree (p q : Pool) (S : Set Block) : Prop :=
  ∀ y ∈ S, ∀ w, y.Holds p.maxLog w → q.word w = p.word w

namespace Agree

variable {p q r : Pool} {S S' : Set Block}

theorem trans (h : Agree p q S) (h' : Agree q r S') (e : q.maxLog = p.maxLog) (sub : S ⊆ S') :
    Agree p r S := fun y hy w hw => by
  rw [h' y (sub hy) w (by rwa [e]), h y hy w hw]

theorem mono (h : Agree p q S) (sub : S' ⊆ S) : Agree p q S' := fun y hy => h y (sub hy)

end Agree

/-- No two halves of a block are both free, and no bit belongs to no block. -/
structure Coalesced (p : Pool) (free : Nat → List Nat) : Prop where
  halves : ∀ x : Block, x.left ∈ freeBlocks free → x.right ∉ freeBlocks free
  noRoot : 0 ∉ p.splits

namespace Coalesced

variable {p : Pool} {free : Nat → List Nat} {x : Block}

theorem zero_notMem_toggle {node : Nat} (c : Coalesced p free) : 0 ∉ (p.toggle node).splits := by
  rw [mem_toggle_splits]
  rintro (⟨h, -⟩ | ⟨⟨h, e⟩, -⟩)
  · exact c.noRoot h
  · omega

/-- A block is freed whose other half is not free. -/
theorem insertFree (c : Coalesced p free) (left : ∀ y : Block, x = y.left →
    y.right ∉ freeBlocks free)
    (right : ∀ y : Block, x = y.right → y.left ∉ freeBlocks free) :
    Coalesced (p.insertFree x.bucket x.node) (consFree free x) := by
  refine ⟨fun y hl hr => ?_, ?_⟩
  · rw [mem_consFree] at hl hr
    rcases hl with hl | hl
    · rcases hr with hr | hr
      · exact Block.left_ne_right (hl.trans hr.symm)
      · exact left y hl.symm hr
    · rcases hr with hr | hr
      · exact right y hr.symm hl
      · exact c.halves y hl hr
  · rw [insertFree_splits]
    exact c.zero_notMem_toggle

theorem removeFree (c : Coalesced p free) (nodup : ∀ b, (free b).Nodup) :
    Coalesced (p.removeFree x.bucket x.node) (eraseFree free x) := by
  refine ⟨fun y hl hr => ?_, ?_⟩
  · rw [mem_eraseFree nodup] at hl hr
    exact c.halves y hl.2 hr.2
  · rw [removeFree_splits]
    exact c.zero_notMem_toggle

end Coalesced

namespace Tiling

variable {p : Pool} {taken : Set Block} {free : Nat → List Nat} {x y : Block}

theorem agree_insertFree (t : Tiling p taken free) (hx : x ∈ taken) :
    Agree p (p.insertFree x.bucket x.node) (taken \ {x}) :=
  fun _ hy _ hw => t.insertFree_word_of_taken hx hy.1 hy.2 hw

theorem agree_removeFree (t : Tiling p taken free) (hx : x ∈ freeBlocks free) :
    Agree p (p.removeFree x.bucket x.node) taken :=
  fun _ hy _ hw => t.removeFree_word_of_taken hx hy hw

/-! ## Halving -/

/-- A taken block may be looked at as two. -/
theorem halve (t : Tiling p taken free) (hx : x ∈ taken) (hb : x.bucket + 1 < p.maxLog) :
    Tiling p (insert x.left (insert x.right (taken \ {x}))) free := by
  have hx' : x ∈ taken ∪ freeBlocks free := .inl hx
  refine t.retake ?_ ?_
  · have same : insert x.left (insert x.right (taken \ {x})) ∪ freeBlocks free =
        insert x.left (insert x.right ((taken ∪ freeBlocks free) \ {x})) := by
      ext y
      have := t.separate x hx
      simp only [Set.mem_union, Set.mem_insert_iff, Set.mem_sdiff, Set.mem_singleton_iff]
      by_cases h : y = x
      · simp [h, this]
      · simp [h, or_assoc]
    rw [same]
    exact t.cuts.halve hx' hb
  · rintro y (rfl | rfl | hy)
    · exact fun h => t.cuts.left_notMem hx' (.inr h)
    · exact fun h => t.cuts.right_notMem hx' (.inr h)
    · exact t.separate y hy.1

/-- Two taken halves may be looked at as one block. -/
theorem merge (t : Tiling p taken free) (hl : x.left ∈ taken) (hr : x.right ∈ taken) :
    Tiling p (insert x (taken \ {x.left, x.right})) free := by
  have hx : x ∉ taken ∪ freeBlocks free := fun h => t.cuts.left_notMem h (.inl hl)
  refine t.retake ?_ ?_
  · have same : insert x (taken \ {x.left, x.right}) ∪ freeBlocks free =
        insert x ((taken ∪ freeBlocks free) \ {x.left, x.right}) := by
      ext y
      have h1 := t.separate _ hl
      have h2 := t.separate _ hr
      simp only [Set.mem_union, Set.mem_insert_iff, Set.mem_sdiff, Set.mem_singleton_iff]
      by_cases h : y ∈ freeBlocks free
      · have : y ≠ x.left ∧ y ≠ x.right := ⟨fun e => h1 (e ▸ h), fun e => h2 (e ▸ h)⟩
        simp [h, this]
      · simp [h]
    rw [same]
    exact t.cuts.merge (.inl hl) (.inl hr)
  · rintro y (rfl | hy)
    · exact fun h => hx (.inr h)
    · exact t.separate y hy.1

/-- Halving a taken block some times leaves its first part taken. -/
theorem split (t : Tiling p taken free) (hx : x ∈ taken) (count : Nat)
    (hb : x.bucket + count < p.maxLog) : ∃ z free',
      z.bucket = x.bucket + count ∧ z ∉ taken \ {x} ∧ (p.split x.bucket x.node count).1 = z.node ∧
      Tiling (p.split x.bucket x.node count).2 (insert z (taken \ {x})) free' ∧
      (p.split x.bucket x.node count).2.maxLog = p.maxLog ∧
      Agree p (p.split x.bucket x.node count).2 (taken \ {x}) ∧
      (Coalesced p free → Coalesced (p.split x.bucket x.node count).2 free') := by
  induction count generalizing p taken free x with
  | zero =>
    refine ⟨x, free, rfl, by simp, rfl, ?_, rfl, fun _ _ _ _ => rfl, id⟩
    rw [Set.insert_sdiff_singleton, Set.insert_eq_of_mem hx]
    exact t
  | succ count ih =>
    have hx' : x ∈ taken ∪ freeBlocks free := .inl hx
    have hl : x.left ∉ taken := fun h => t.cuts.left_notMem hx' (.inl h)
    have hr : x.right ∉ taken := fun h => t.cuts.right_notMem hx' (.inl h)
    have half := t.halve hx (by omega)
    have first := half.insertFree (x := x.right) (by simp)
    have agree := half.agree_insertFree (x := x.right) (by simp)
    have rest : insert x.left (insert x.right (taken \ {x})) \ {x.right} =
        insert x.left (taken \ {x}) := by
      ext y
      have := Block.left_ne_right (x := x) (y := x)
      simp only [Set.mem_sdiff, Set.mem_insert_iff, Set.mem_singleton_iff]
      grind
    rw [rest] at first agree
    have alone : Coalesced p free → Coalesced (p.insertFree x.right.bucket x.right.node)
      (consFree free x.right) :=
      fun c => c.insertFree (fun y e => absurd e.symm Block.left_ne_right) fun y e => by
        obtain rfl := Block.right_inj e
        exact half.separate _ (by simp)
    obtain ⟨z, free', hz, hzt, hnode, tiling, hlog, agree', coalesced⟩ :=
      ih first (x := x.left) (by simp) (by simpa [Block.left] using by omega)
    have rest' : insert x.left (taken \ {x}) \ {x.left} = taken \ {x} := by
      ext y
      simp only [Set.mem_sdiff, Set.mem_insert_iff, Set.mem_singleton_iff]
      grind
    rw [rest'] at tiling agree' hzt
    have step : p.split x.bucket x.node (count + 1) =
        (p.insertFree x.right.bucket x.right.node).split x.left.bucket x.left.node count := by
      rw [Block.node_left, Block.node_right]
      rfl
    rw [step]
    refine ⟨z, free', ?_, hzt, hnode, tiling, hlog.trans insertFree_maxLog, ?_, fun c =>
      coalesced (alone c)⟩
    · rw [hz]
      simp only [Block.left]
      omega
    · exact (agree.mono (by simp)).trans agree' insertFree_maxLog le_rfl

/-! ## Joining -/

/-- A half whose parent is in `splits` has a free other half. -/
theorem buddy_free (t : Tiling p taken free) (hx : x ∈ taken) {b : Nat} (hb : x.bucket = b + 1)
    (h : p.splits.contains (x.node / 2)) : ∃ y : Block, y.bucket = b ∧ y.node = x.node / 2 ∧
      ((x = y.left ∧ buddy x.node = y.right.node ∧ y.right ∈ freeBlocks free) ∨
        (x = y.right ∧ buddy x.node = y.left.node ∧ y.left ∈ freeBlocks free)) := by
  have hfit := t.fits (.inl hx)
  have fresh := t.separate x hx
  have hpos : x.pos / 2 < 2 ^ b := by
    have := hfit.2
    rw [hb, Nat.pow_succ] at this
    omega
  let y : Block := ⟨b, x.pos / 2⟩
  have hnode : y.node = x.node / 2 := by
    simp only [y, Block.node, hb, Nat.pow_succ]
    omega
  have bit := (t.bits y hpos).1 (by rwa [hnode, ← Std.TreeSet.contains_iff_mem])
  have two := Nat.two_pow_pos x.bucket
  have hgt : 1 < x.node := by
    have := Nat.two_pow_pos b
    rw [Block.node, hb, Nat.pow_succ]
    omega
  refine ⟨y, rfl, hnode, ?_⟩
  rcases Block.eq_half_of_node hfit.2 hpos hgt hnode with e | e
  · refine .inl ⟨e.symm, ?_, ?_⟩
    · rw [← e, Block.node_left, Block.node_right, buddy, Nat.xor_one_of_even (even_two_mul _)]
    · rw [e] at bit
      grind
  · refine .inr ⟨e.symm, ?_, ?_⟩
    · rw [← e, Block.node_left, Block.node_right, buddy, Nat.xor_one_of_odd (odd_two_mul_add_one _)]
      rfl
    · rw [e] at bit
      grind

/-- A half whose parent is not in `splits` has no free other half. -/
theorem buddy_taken (t : Tiling p taken free) (hx : x ∈ taken)
    (h : ¬p.splits.contains (x.node / 2)) :
    (∀ y : Block, x = y.left → y.right ∉ freeBlocks free) ∧
      ∀ y : Block, x = y.right → y.left ∉ freeBlocks free := by
  have fresh := t.separate x hx
  have hpos := (t.fits (.inl hx)).2
  rw [Std.TreeSet.contains_iff_mem] at h
  have bit : ∀ y : Block, y.pos < 2 ^ y.bucket → y.node = x.node / 2 →
      ¬Xor (y.left ∈ freeBlocks free) (y.right ∈ freeBlocks free) := fun y hy e =>
    (not_congr (t.bits y hy)).1 (e ▸ h)
  constructor
  · rintro y rfl
    have := bit y (by simp only [Block.left, Nat.pow_succ] at hpos; omega)
      (by rw [Block.node_left]; omega)
    grind
  · rintro y rfl
    have := bit y (by simp only [Block.right, Nat.pow_succ] at hpos; omega)
      (by rw [Block.node_right]; omega)
    grind

/-- A taken block is given back. -/
theorem join (t : Tiling p taken free) (hx : x ∈ taken) : ∃ free',
    Tiling (p.join x.node x.bucket) (taken \ {x}) free' ∧
      (p.join x.node x.bucket).maxLog = p.maxLog ∧
      Agree p (p.join x.node x.bucket) (taken \ {x}) ∧
      (Coalesced p free → Coalesced (p.join x.node x.bucket) free') := by
  obtain ⟨b, hb⟩ : ∃ b, x.bucket = b := ⟨_, rfl⟩
  induction b generalizing p taken free x with
  | zero =>
    rw [hb, Pool.join, ← hb]
    refine ⟨_, t.insertFree hx, insertFree_maxLog, t.agree_insertFree hx, fun c =>
      c.insertFree ?_ ?_⟩
    · rintro y rfl
      cases hb
    · rintro y rfl
      cases hb
  | succ b ih =>
    rw [hb, Pool.join]
    split_ifs with h
    · obtain ⟨y, hyb, hynode, half⟩ := t.buddy_free hx hb h
      -- the other half is taken off its list and joined with `x`
      have step {z : Block} (hz : z ∈ freeBlocks free) (hzb : z.bucket = b + 1)
          (hzn : buddy x.node = z.node)
          (pair : ({y.left, y.right} : Set Block) = {x, z}) : ∃ free',
          Tiling (((p.removeFree (b + 1) (buddy x.node)).join (x.node / 2) b)) (taken \ {x}) free' ∧
            ((p.removeFree (b + 1) (buddy x.node)).join (x.node / 2) b).maxLog = p.maxLog ∧
            Agree p ((p.removeFree (b + 1) (buddy x.node)).join (x.node / 2) b) (taken \ {x}) ∧
            (Coalesced p free →
              Coalesced ((p.removeFree (b + 1) (buddy x.node)).join (x.node / 2) b) free') := by
        have hzt : z ∉ taken := fun h => t.separate z h hz
        have removed := t.removeFree hz
        have agree := t.agree_removeFree hz
        have hmem : y.left ∈ insert z taken ∧ y.right ∈ insert z taken := by
          have hl : y.left ∈ ({x, z} : Set Block) := pair ▸ by simp
          have hr : y.right ∈ ({x, z} : Set Block) := pair ▸ by simp
          simp only [Set.mem_insert_iff, Set.mem_singleton_iff] at hl hr ⊢
          grind
        have merged := removed.merge hmem.1 hmem.2
        have hy : y ∉ taken := fun hy =>
          removed.cuts.left_notMem (x := y) (.inl (.inr hy)) (.inl hmem.1)
        have rest : insert z taken \ {y.left, y.right} = taken \ {x} := by
          rw [pair]
          ext u
          simp only [Set.mem_sdiff, Set.mem_insert_iff, Set.mem_singleton_iff]
          grind
        rw [rest] at merged
        obtain ⟨free', tiling, hlog, agree', coalesced⟩ := ih merged (x := y) (by simp) hyb
        have coalesced (c : Coalesced p free) := coalesced (c.removeFree t.nodup)
        have rest' : insert y (taken \ {x}) \ {y} = taken \ {x} := by
          ext u
          simp only [Set.mem_sdiff, Set.mem_insert_iff, Set.mem_singleton_iff]
          grind
        rw [rest'] at tiling agree'
        rw [hynode, hyb, hzb, ← hzn] at tiling hlog agree' coalesced
        rw [hzb, ← hzn] at agree
        exact ⟨free', tiling, hlog.trans removeFree_maxLog,
          (agree.mono (by simp)).trans agree' removeFree_maxLog le_rfl, coalesced⟩
      rcases half with ⟨e, hn, hf⟩ | ⟨e, hn, hf⟩
      · exact step hf (by simp [Block.right, hyb]) hn (by rw [e])
      · exact step hf (by simp [Block.left, hyb]) hn (by rw [e, Set.pair_comm])
    · rw [← hb]
      exact ⟨_, t.insertFree hx, insertFree_maxLog, t.agree_insertFree hx, fun c => c.insertFree
        (fun y e => (t.buddy_taken hx h).1 y e) fun y e => (t.buddy_taken hx h).2 y e⟩

/-! ## The operations -/

/-- A new pool is one free block. -/
theorem new {words : Nat} (h : Pool.new words = .ok p) : ∃ free, Tiling p ∅ free ∧
    Coalesced p free := by
  unfold Pool.new at h
  split_ifs at h with hw
  simp only [Except.ok.injEq] at h
  subst h
  have hlog : 2 ≤ words.log2 := (Nat.le_log2 (by omega)).2 (by omega)
  have hlog' : words.log2 ≤ 31 := by
    have := (Nat.log2_lt (n := words) (k := 32) (by omega)).2 (by omega)
    omega
  have empty : Tiling { maxLog := words.log2 } {⟨0, 0⟩} (fun _ => []) := {
    two_le := hlog
    maxLog_le := hlog'
    cuts := by
      have : freeBlocks (fun _ => []) = ∅ := by
        ext
        simp [freeBlocks]
      rw [this, Set.union_empty]
      exact Cuts.whole (by simp only; omega)
    separate := by simp [freeBlocks]
    nodup := by simp
    heads := by simp
    links := fun _ => linked_nil
    bits := by simp [freeBlocks]
    freeWords := by simp }
  have := empty.insertFree (x := ⟨0, 0⟩) rfl
  rw [Set.sdiff_self] at this
  have apart : Coalesced { maxLog := words.log2 } (fun _ => []) := ⟨by simp [freeBlocks], by simp⟩
  refine ⟨_, this, apart.insertFree (x := ⟨0, 0⟩) ?_ ?_⟩
  · exact fun y e => nomatch congrArg Block.bucket e
  · exact fun y e => nomatch congrArg Block.bucket e

theorem bucketFor?_eq_some {n b : Nat} (h : p.bucketFor? n = some b) (_ : 0 < p.maxLog) :
    b < p.maxLog ∧ n < 2 ^ (p.maxLog - b) := by
  unfold bucketFor? at h
  simp only at h
  split_ifs at h with hn
  simp only [not_or, Nat.not_lt] at hn
  simp only [Option.some.injEq] at h
  refine ⟨by omega, ?_⟩
  rw [show p.maxLog - b = n.log2 + 1 by omega]
  exact Nat.lt_log2_self

theorem lastFree?_eq_some {b c : Nat} (h : p.lastFree? b = some c) : c ≤ b := by
  induction b with
  | zero =>
    simp only [lastFree?, Option.ite_none_right_eq_some, Option.some.injEq] at h
    omega
  | succ b ih =>
    simp only [lastFree?] at h
    split_ifs at h with hc
    · simp only [Option.some.injEq] at h
      omega
    · have := ih h
      omega

/-- A word of a taken block is overwritten. -/
theorem setWord (t : Tiling p taken free) (hx : x ∈ taken) {i : Nat} (hi : x.Holds p.maxLog i)
    (w : UInt64) : Tiling (p.setWord i w) taken free := by
  have ne {b k d : Nat} (h : k ∈ free b) (hd : d < 2) : i ≠ Block.start p.maxLog ⟨b, k⟩ + d := by
    refine (t.not_slot (x := ⟨b, k⟩) (.inr h) hx ?_ hi hd).symm
    rintro rfl
    exact t.separate _ hx h
  refine { t with links := fun b => (t.links b).congr fun k hk => ⟨?_, ?_⟩ }
  · exact word_setWord_of_ne (ne (d := 0) hk (by omega))
  · exact word_setWord_of_ne (ne (d := 1) hk (by omega))

/-- An allocated block is new, has room, and starts with its bucket. -/
theorem allocate (t : Tiling p taken free) {n i : Nat} {q : Pool}
    (h : p.allocate n = some (i, q)) : ∃ z free',
      z ∉ taken ∧ i = z.start p.maxLog + 1 ∧ n < z.size p.maxLog ∧
      Tiling q (insert z taken) free' ∧ q.maxLog = p.maxLog ∧
      q.word (z.start p.maxLog) = z.bucket.toUInt64 ∧ Agree p q taken ∧
      (Coalesced p free → Coalesced q free') := by
  simp only [Pool.allocate, Option.bind_eq_bind, Option.bind_eq_some_iff, Option.pure_def,
    Option.some.injEq, Prod.mk.injEq] at h
  obtain ⟨target, htarget, source, hsource, head, hhead, rfl, rfl⟩ := h
  obtain ⟨hb, hn⟩ := bucketFor?_eq_some htarget (by have := t.two_le; omega)
  have hle := lastFree?_eq_some hsource
  obtain ⟨k, ks, hf, rfl⟩ := t.head_mem hhead
  let x : Block := ⟨source, k⟩
  have hx : x ∈ freeBlocks free := by simp [x, mem_freeBlocks, hf]
  have hxt : x ∉ taken := fun h => t.separate x h hx
  have removed := t.removeFree hx
  obtain ⟨z, free', hz, hzt, hnode, tiling, hlog, agree, coalesced⟩ :=
    removed.split (x := x) (by simp) (target - source) (by
      simp only [removeFree_maxLog, x]
      omega)
  have rest : insert x taken \ {x} = taken := by simp [hxt]
  rw [rest] at hzt tiling agree
  have hzb : z.bucket = target := by
    rw [hz]
    simp only [x]
    omega
  have hnodex : p.node source (Block.start p.maxLog ⟨source, k⟩) = x.node := node_start x
  rw [hnodex]
  simp only [x] at *
  generalize hq : Pool.split _ _ _ _ = r at *
  have hlog' : r.2.maxLog = p.maxLog := hlog.trans removeFree_maxLog
  have hoff : r.2.offset target r.1 = z.start p.maxLog := by
    rw [hnode, ← hzb, offset_node, hlog']
  rw [hoff]
  have holds : z.Holds p.maxLog (z.start p.maxLog) := Block.holds_start
  refine ⟨z, free', hzt, rfl, ?_, ?_, hlog', ?_, ?_, fun c => ?_⟩
  · rw [Block.size, hzb]
    exact hn
  · exact tiling.setWord (x := z) (by simp) (by rwa [hlog']) _
  · rw [word_setWord_self, hzb]
  · intro y hy w hw
    have hne : z.start p.maxLog ≠ w := by
      rintro rfl
      refine hzt ?_
      have := tiling.cuts.eq_of_holds y (.inl (.inr hy)) z (.inl (.inl rfl)) (z.start p.maxLog)
      rw [hlog'] at this
      rwa [← this hw holds]
    rw [word_setWord_of_ne hne]
    rw [agree y hy w (by rwa [removeFree_maxLog]), t.agree_removeFree hx y hy w hw]
  · obtain ⟨halves, noRoot⟩ := coalesced (c.removeFree t.nodup)
    exact ⟨halves, noRoot⟩

/-- A block that starts with its bucket can be given back. -/
theorem deallocate (t : Tiling p taken free) (hx : x ∈ taken)
    (header : p.word (x.start p.maxLog) = x.bucket.toUInt64) : ∃ q free',
      p.deallocate (x.start p.maxLog + 1) = .ok q ∧ Tiling q (taken \ {x}) free' ∧
      q.maxLog = p.maxLog ∧ Agree p q (taken \ {x}) ∧ (Coalesced p free → Coalesced q free') := by
  have hfit := t.fits (.inl hx)
  have hend := Block.end_le hfit
  have two := Block.two_le_size hfit
  have hb : (p.word (x.start p.maxLog)).toNat = x.bucket := by
    have := hfit.1
    have := t.maxLog_le
    rw [header]
    simp only [Nat.toUInt64, UInt64.toNat_ofNat']
    omega
  obtain ⟨free', tiling, hlog, agree, coalesced⟩ := t.join hx
  refine ⟨_, free', ?_, tiling, hlog, agree, coalesced⟩
  unfold Pool.deallocate
  rw [if_neg]
  · simp only [Nat.add_sub_cancel, hb]
    rw [if_neg, node_start]
    rw [blockWords_eq, Block.start_mod_size, not_or]
    exact ⟨by have := hfit.1; omega, by simp⟩
  · rw [capacity_eq]
    omega

end Tiling
end Pool
end GoMachine

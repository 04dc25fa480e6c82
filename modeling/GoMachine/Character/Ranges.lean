/-!
# Ranges of code points

A property of characters is a table: the ranges of code points that have it, in ascending order and
with a gap between each range and the next, so that a property has only one table.
-/
namespace GoMachine

/-- The first and the last code points of ranges. -/
abbrev CodeRanges := List (Nat × Nat)

namespace CodeRanges

/-- Whether a character lies in one of the ranges. -/
def contains (ranges : CodeRanges) (c : Char) : Bool :=
  ranges.any fun (first, last) => first ≤ c.toNat && c.toNat ≤ last

/-- Whether no range is empty, and each begins after a gap behind the one before. -/
def isOrdered : CodeRanges → Bool
  | [] => true
  | [(first, last)] => first ≤ last
  | (first, last) :: (next, bound) :: rest =>
    first ≤ last && last + 1 < next && isOrdered ((next, bound) :: rest)

end CodeRanges
end GoMachine

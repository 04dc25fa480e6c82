/-!
# The decimal text of a 32-bit float

A float is written with the fewest digits that read back as the same float, and of those the
nearest to its value; halfway between two it takes the larger. The digits are found in exact
arithmetic: on the grid of multiples of a power of ten, only the two neighbours of the value can
be nearest, and the coarsest grid with a neighbour that reads back is taken.

`Decimal.shortest` selects the digits, `Decimal.positional` and `Decimal.scientific` lay them out,
and `floatText` adds signs and the values without digits.
-/
namespace GoMachine

/-- The number `digits * 10 ^ exponent`. -/
structure Decimal where
  digits : Nat
  exponent : Int
  deriving DecidableEq, Repr

/-- A positive real `units * 2 ^ exponent`, and the reals around it that read back as the same
float: those less than `below` units under it or less than `above` units over it, and the ends as
well if `closed`. -/
structure Interval where
  units : Nat
  exponent : Int
  below : Nat
  above : Nat
  closed : Bool
  deriving DecidableEq, Repr

namespace Interval

/-- The interval of a positive finite float, given by its bits without the sign. The smallest
significand of a binade has its lower neighbour at half the distance. -/
def ofBits (bits : Nat) : Interval :=
  let fraction := bits % 0x800000
  let biased : Nat := bits / 0x800000
  let closed := fraction % 2 == 0
  if biased = 0 then ⟨2 * fraction, -150, 1, 1, closed⟩
  else if fraction = 0 then ⟨4 * 0x800000, (biased : Int) - 152, 1, 2, closed⟩
  else ⟨2 * (0x800000 + fraction), (biased : Int) - 151, 1, 1, closed⟩

/-- A neighbour of the value among the multiples of `10 ^ k` that reads back, the nearer if both
do. -/
def neighbour? (x : Interval) (k : Int) : Option Decimal :=
  let scale := Nat.pow 2 x.exponent.toNat * Nat.pow 10 (-k).toNat
  let den := Nat.pow 2 (-x.exponent).toNat * Nat.pow 10 k.toNat
  let down := x.units * scale / den
  let under := x.units * scale % den
  let rest := den - under
  let inside (distance bound : Nat) := distance < bound || x.closed && distance == bound
  let downOk := 0 < down && inside under (x.below * scale)
  let upOk := inside rest (x.above * scale)
  if upOk && (!downOk || rest ≤ under) then some ⟨down + 1, k⟩
  else if downOk then some ⟨down, k⟩
  else none

end Interval

namespace Decimal

/-- The fewest digits that read back, from the grid of multiples of `10 ^ 39` downward. No float
needs a grid finer than that of `10 ^ -60`. -/
def shortest (x : Interval) : Decimal :=
  ((List.range 100).findSome? fun i : Nat => x.neighbour? (39 - i)).getD ⟨x.units, 0⟩

/-- The digits with a point where it belongs. -/
def positional (d : Decimal) : String :=
  let text := toString d.digits
  let point : Int := text.length + d.exponent
  if 0 ≤ d.exponent then text ++ "".pushn '0' d.exponent.toNat
  else if 0 < point then
    String.ofList (text.toList.take point.toNat) ++ "." ++
      String.ofList (text.toList.drop point.toNat)
  else "0." ++ "".pushn '0' (-point).toNat ++ text

/-- One digit, and the others after a point. -/
def mantissa (d : Decimal) : String :=
  match (toString d.digits).toList with
  | [] => ""
  | [c] => String.ofList [c]
  | c :: cs => String.ofList (c :: '.' :: cs)

/-- The power of ten that goes with the mantissa. -/
def power (d : Decimal) : Int := (toString d.digits).length + d.exponent - 1

/-- The mantissa and the power of ten, with a sign and at least two digits. -/
def scientific (d : Decimal) : String :=
  let size := toString d.power.natAbs
  d.mantissa ++ "e" ++ (if d.power < 0 then "-" else "+") ++
    (if size.length = 1 then "0" else "") ++ size

end Decimal

/-- The text of a float given by its bits: positional for zero and from `1e-4` up to but not
including `1e21`. -/
def floatText (bits : UInt32) : String :=
  let sign := if bits < 0x80000000 then "" else "-"
  let size := bits &&& 0x7fffffff
  if 0x7f800000 < size then "NaN"
  else if size = 0x7f800000 then (if sign.isEmpty then "+Inf" else "-Inf")
  else if size = 0 then sign ++ "0"
  else
    let d := Decimal.shortest (.ofBits size.toNat)
    sign ++ if 0x38d1b717 ≤ size ∧ size < 0x6258d727 then d.positional else d.scientific

end GoMachine

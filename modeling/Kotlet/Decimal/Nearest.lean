import Kotlet.Decimal.Fraction

/-!
# The double nearest to a decimal

* `Decimal.nearest?` : the double nearest to a decimal, a half going to the even neighbour.

A decimal that rounds to something beyond the greatest double has none.
-/

namespace Kotlet
namespace Decimal

/-- The number of bits in the significand of a double. -/
def doubleBits : Nat := 53

/-- The least exponent of a double. -/
def leastExponent : Int := -1074

/-- Doubles are below two to this power. -/
def doubleRange : Int := 1024

/-- The place of the decimal point, counted from the first digit. -/
def pointPlace (d : Decimal) : Int := (Nat.toDigits 10 d.digits).length + d.exponent

/-- The double nearest to a positive fraction. -/
def nearestTo? (x : Fraction) : Option Dyadic :=
  let q := max (x.log2 + 1 - doubleBits) leastExponent
  let cell : Fraction := .scaled 1 2 q
  let m := (Fraction.mk (x.num * cell.den) (x.den * cell.num)).round
  if doubleRange ≤ (m.log2 : Int) + q then none else some ⟨m, q⟩

/-- The double nearest to a decimal. Far beyond the range of doubles the digits do not matter. -/
def nearest? (d : Decimal) : Option Dyadic :=
  if d.digits = 0 ∨ d.pointPlace < -400 then some ⟨0, 0⟩
  else if 400 < d.pointPlace then none
  else nearestTo? (.scaled d.digits 10 d.exponent)

end Decimal
end Kotlet

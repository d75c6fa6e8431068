/-!
# Fractions, binary and decimal

* `Fraction` : a fraction of natural numbers; `Fraction.round` is the nearest whole number;
* `Dyadic` : a significand with a power of two;
* `Decimal` : digits with a power of ten.
-/

namespace Kotlet

/-- A fraction of natural numbers. -/
structure Fraction where
  /-- The numerator. -/
  num : Nat
  /-- The denominator. -/
  den : Nat

/-- `n * b ^ e` as a fraction. -/
def Fraction.scaled (n b : Nat) (e : Int) : Fraction :=
  if 0 ≤ e then ⟨n * b.pow e.toNat, 1⟩ else ⟨n, b.pow (-e).toNat⟩

/-- Whether one fraction is below another. -/
def Fraction.lt (x y : Fraction) : Bool := x.num * y.den < y.num * x.den

/-- The nearest whole number; a half goes to the even neighbour. -/
def Fraction.round (x : Fraction) : Nat :=
  let q := x.num / x.den
  let r := x.num % x.den
  if 2 * r < x.den then q
  else if x.den < 2 * r then q + 1
  else if q % 2 = 0 then q else q + 1

/-- The power of two at or below a positive fraction. -/
def Fraction.log2 (x : Fraction) : Int :=
  let e : Int := (x.num.log2 : Int) - x.den.log2
  if x.lt (.scaled 1 2 e) then e - 1 else e

/-- The number `significand * 2 ^ exponent`. -/
structure Dyadic where
  /-- The significand. -/
  significand : Nat
  /-- The exponent. -/
  exponent : Int
  deriving DecidableEq, Inhabited

/-- The number `digits * 10 ^ exponent`. -/
structure Decimal where
  /-- The digits as a number. -/
  digits : Nat
  /-- The exponent. -/
  exponent : Int
  deriving DecidableEq, Inhabited

/-- The whole part. -/
def Dyadic.floor (d : Dyadic) : Nat :=
  if 0 ≤ d.exponent then d.significand <<< d.exponent.toNat
  else d.significand >>> (-d.exponent).toNat

end Kotlet

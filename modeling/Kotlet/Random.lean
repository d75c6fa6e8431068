import Kotlet.Decimal.Fraction

/-!
# Random numbers

Numbers are drawn from any source of 63 bits, fractions with all of these bits and rounded to 24 of
them. One source is at hand: a linear congruential generator in 64 bits whose high bits are used.

* `Source` : where random numbers come from; `Draw` are the steps that draw them;
* `Seed` : the state of the generator;
* `Source.below` : a number below a bound;
* `nearestWithin`, `unitFraction` : rounding to 24 significant bits;
* `Source.fraction` : a fraction below 1, in units of `2 ^ -63`.
-/

namespace Kotlet

/-- Where random numbers of 63 bits come from. -/
class Source (σ : Type) where
  /-- The next number, and the source behind it. -/
  next : σ → Nat × σ

/-- Steps that draw random numbers. -/
abbrev Draw (σ : Type) := StateM σ

/-- The state of a random number generator. -/
structure Seed where
  /-- The state. -/
  state : UInt64
  deriving DecidableEq, Inhabited

/-- The generator multiplies and adds, and leaves the lowest bit out. -/
@[default_instance]
instance : Source Seed where
  next r :=
    let state : UInt64 := r.state * 6364136223846793005 + 1442695040888963407
    ((state >>> 1).toNat, ⟨state⟩)

/-- The nearest number to a fraction with at most `bits` significant bits, as long as the fraction
is not below `2 ^ bits`; a smaller one is rounded to a whole number. -/
def nearestWithin (bits num den : Nat) : Nat :=
  let length := Nat.log2 (num / den) + 1
  let unit := 1 <<< (length - bits)
  (Fraction.mk num (den * unit)).round * unit

/-- A fraction of whole numbers in units of `2 ^ -63`, with 24 significant bits. -/
def unitFraction (num den : Nat) : Nat := nearestWithin 24 (num <<< 63) den

namespace Source

variable {σ : Type} [Source σ]

/-- The number of attempts after which drawing again stops. A number is refused with a chance below
one half, so nobody will see this happen. -/
def patience : Nat := 1000

/-- The next number of 63 bits. -/
def next63 : Draw σ Nat := modifyGet Source.next

/-- The next number of 31 bits. -/
def next31 : Draw σ Nat := do return (← next63) >>> 32

/-- Draws until a number is at most `limit`. -/
def nextUpTo (limit : Nat) : Nat → Draw σ Nat
  | 0 => next31
  | turns + 1 => do
    let v ← next31
    if v ≤ limit then return v else nextUpTo limit turns

/-- A number below `n`. Unless `n` is a power of two, the highest numbers are refused, so that all
results are equally likely. -/
def below (n : Nat) : Draw σ Nat := do
  if 1 <<< Nat.log2 n = n then return (← next31) % n
  let limit := (1 <<< 31) - 1 - (1 <<< 31) % n
  return (← nextUpTo limit patience) % n

/-- A fraction of 63 bits after rounding: first to 53 bits, then to 24. -/
def roundFraction (n : Nat) : Nat := nearestWithin 24 (nearestWithin 53 n 1) 1

/-- Draws until a rounded fraction is below 1. -/
def nextFraction : Nat → Draw σ Nat
  | 0 => return 0
  | turns + 1 => do
    let r := roundFraction (← next63)
    if r < 1 <<< 63 then return r else nextFraction turns

/-- A fraction below 1 in units of `2 ^ -63`, with 24 significant bits. -/
def fraction : Draw σ Nat := nextFraction patience

end Source

end Kotlet

import Kotlet.Decimal.Fraction

/-!
# Shortest decimal text of binary fractions

A finite double is `m * 2 ^ q` with a significand `m` below `2 ^ 53`. The real numbers that round
to it form an interval; the shortest text takes the fewest digits that name a number of that
interval, and of those the number nearest to the double.

* `Dyadic.shortest` : the shortest decimal that reads back;
* `doubleText`, `floatText` : the text of a double and of a float given by its bits: positional
  where the first digit stands from the fourth place after the point to the sixth before it, else
  with an exponent of two digits at least.
-/

namespace Kotlet

namespace Dyadic

/-- The value as a fraction. -/
def value (d : Dyadic) : Fraction := .scaled d.significand 2 d.exponent

/-- The lower end of the numbers that round to a double. The gap below a power of two is half as
wide, except at the bottom of the range. -/
def lower (d : Dyadic) : Fraction :=
  if d.significand = 1 <<< 52 ∧ -1074 < d.exponent then
    .scaled (4 * d.significand - 1) 2 (d.exponent - 2)
  else .scaled (2 * d.significand - 1) 2 (d.exponent - 1)

/-- The upper end of the numbers that round to a double. -/
def upper (d : Dyadic) : Fraction := .scaled (2 * d.significand + 1) 2 (d.exponent - 1)

/-- Whether a number rounds to the double; the ends do where the significand is even. -/
def accepts (d : Dyadic) (x : Fraction) : Bool :=
  if d.significand % 2 = 0 then !x.lt d.lower && !d.upper.lt x
  else d.lower.lt x && x.lt d.upper

/-- The number of decimal digits. -/
def digitCount (n : Nat) : Nat := (Nat.toDigits 10 n).length

/-- The power of ten of the first digit of a positive fraction. -/
def leadingPower (x : Fraction) : Int :=
  if x.den ≤ x.num then digitCount (x.num / x.den) - 1
  else
    let c := (x.den + x.num - 1) / x.num
    let n := digitCount c
    if c = Nat.pow 10 (n - 1) then -(n - 1 : Nat) else -n

/-- The number nearest to the double among its two neighbours on the grid of `10 ^ e`, if one of
them rounds to it; a tie goes to the even one. -/
def onGrid? (d : Dyadic) (e : Int) : Option Decimal :=
  let v := d.value
  let cell : Fraction := .scaled 1 10 e
  let below := v.num * cell.den / (v.den * cell.num)
  let candidate (n : Nat) : Option Nat :=
    if d.accepts (.scaled n 10 e) then some n else none
  let twice := 2 * v.num * cell.den
  let middle := (2 * below + 1) * v.den * cell.num
  let preferBelow := twice < middle || (twice == middle && below % 2 == 0)
  let pick :=
    match candidate below, candidate (below + 1) with
    | some a, some b => some (if preferBelow then a else b)
    | some a, none => some a
    | none, b => b
  pick.map fun n => ⟨n, e⟩

/-- The shortest decimal among those of the given numbers of digits. -/
def shortestOf (d : Dyadic) (top : Int) : List Nat → Option Decimal
  | [] => none
  | n :: ns =>
    match d.onGrid? (top - n) with
    | some x => some x
    | none => shortestOf d top ns

/-- The shortest decimal that rounds to a positive double; seventeen digits always do. -/
def shortest (d : Dyadic) : Decimal :=
  (d.shortestOf (leadingPower d.value) (List.range 17)).getD ⟨0, 0⟩

/-- The same number with a significand of 53 digits, as far as the range of doubles allows. -/
def normalized (d : Dyadic) : Dyadic :=
  let shift := min (52 - d.significand.log2) (d.exponent + 1074).toNat
  ⟨d.significand <<< shift, d.exponent - shift⟩

end Dyadic

namespace Decimal

/-- The digits without zeros at their end, and the place of the decimal point counted from their
start. -/
def point (d : Decimal) : List Char × Int :=
  let digits := Nat.toDigits 10 d.digits
  let kept := (digits.reverse.dropWhile (· == '0')).reverse
  (kept, digits.length + d.exponent)

/-- Positional text. -/
def positional (digits : List Char) (point : Int) : String :=
  if point ≤ 0 then
    "0." ++ String.ofList (List.replicate (-point).toNat '0' ++ digits)
  else if digits.length ≤ point.toNat then
    String.ofList (digits ++ List.replicate (point.toNat - digits.length) '0')
  else String.ofList (digits.take point.toNat) ++ "." ++ String.ofList (digits.drop point.toNat)

/-- Text with an exponent of two digits at least. -/
def scientific (digits : List Char) (exponent : Int) : String :=
  let fraction := if digits.length ≤ 1 then "" else "." ++ String.ofList (digits.drop 1)
  let magnitude := toString exponent.natAbs
  let padded := if magnitude.length < 2 then "0" ++ magnitude else magnitude
  String.ofList (digits.take 1) ++ fraction ++ "e" ++ (if exponent < 0 then "-" else "+") ++ padded

/-- The text of a positive decimal. -/
def text (d : Decimal) : String :=
  let (digits, point) := d.point
  let exponent := point - 1
  if exponent < -4 ∨ 6 ≤ exponent then scientific digits exponent else positional digits point

end Decimal

/-- The text of a number in binary notation: its sign, the exponent field and the significand
field with their widths. -/
def binaryText (negative : Bool) (field fraction fractionBits bias : Nat) (special : Nat) : String :=
  let sign := if negative then "-" else ""
  if field = special then
    if fraction ≠ 0 then "NaN" else (if negative then "-" else "+") ++ "Inf"
  else if field = 0 ∧ fraction = 0 then sign ++ "0"
  else
    let least : Int := 1 - bias - fractionBits
    let d : Dyadic :=
      if field = 0 then ⟨fraction, least⟩
      else ⟨(1 <<< fractionBits) + fraction, least + (field - 1)⟩
    sign ++ d.normalized.shortest.text

/-- The text of a double, given its bits. -/
def doubleText (bits : UInt64) : String :=
  let n := bits.toNat
  binaryText (1 <<< 63 ≤ n) ((n >>> 52) % (1 <<< 11)) (n % (1 <<< 52)) 52 1023 0x7ff

/-- The text of a float, given its bits: that of the double with the same value. -/
def floatText (bits : UInt32) : String :=
  let n := bits.toNat
  binaryText (1 <<< 31 ≤ n) ((n >>> 23) % (1 <<< 8)) (n % (1 <<< 23)) 23 127 0xff

end Kotlet

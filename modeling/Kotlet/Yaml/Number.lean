import Kotlet.Decimal.Nearest
import Kotlet.Text.Hex

/-!
# Numbers in documents

* `Yaml.Number` : a whole number of 64 bits, or a double;
* `Yaml.Number.read?` : the number that a text spells, if it starts with a sign or a digit;
* `Yaml.Number.readPoint?` : the same for a text that starts with a point.

A number beyond its range is none.
-/

namespace Kotlet
namespace Yaml

/-- A number. -/
inductive Number where
  /-- A whole number. -/
  | whole (n : Int)
  /-- A double, and whether a minus stands in front of it. -/
  | double (negative : Bool) (size : Dyadic)
  deriving DecidableEq, Inhabited

namespace Number

/-- The number that digits of a base up to sixteen spell. -/
def natOf? (base : Nat) (cs : List Char) : Option Nat :=
  let next (n : Option Nat) (c : Char) : Option Nat :=
    n.bind fun n => ((hexValue? c).filter (· < base)).map fun d => n * base + d
  if cs.isEmpty then none else cs.foldl next (some 0)

/-- The sign in front of a number, and the rest. -/
def signed : List Char → Bool × List Char
  | '-' :: cs => (true, cs)
  | '+' :: cs => (false, cs)
  | cs => (false, cs)

/-! ## Whole numbers -/

/-- Two to the power of 63. -/
def signedRange : Nat := 0x8000000000000000

/-- Two to the power of 64. -/
def unsignedRange : Nat := 0x10000000000000000

/-- The whole number of a text with a sign or without one, given how to read its digits. Without a
sign there is one more bit. -/
def withSign? (digits? : List Char → Option Nat) (cs : List Char) : Option Int :=
  let (negative, digits) := signed cs
  match digits? digits with
  | none => none
  | some n =>
    let range := if digits.length < cs.length then signedRange else unsignedRange
    if negative then (if n ≤ signedRange then some (-n) else none)
    else if n < range then some n
    else none

/-- A whole number without a sign. A letter after a zero in front tells the base; a zero alone
stands for base eight. -/
def digits? : List Char → Option Nat
  | '0' :: c :: cs =>
    if c = 'x' ∨ c = 'X' then natOf? 16 cs
    else if c = 'o' ∨ c = 'O' then natOf? 8 cs
    else if c = 'b' ∨ c = 'B' then natOf? 2 cs
    else natOf? 8 (c :: cs)
  | cs => natOf? 10 cs

/-- A whole number whose sign stands between the base and the digits. -/
def signedDigits? : List Char → Option Int
  | '0' :: 'b' :: cs => withSign? (natOf? 2) cs
  | '0' :: 'o' :: cs => withSign? (natOf? 8) cs
  | _ => none

/-! ## Doubles -/

/-- The exponent at the end of a decimal. -/
def exponent? : List Char → Option Int
  | [] => some 0
  | c :: cs =>
    if c = 'e' ∨ c = 'E' then
      let (negative, digits) := signed cs
      (natOf? 10 digits).map fun (n : Nat) => if negative then -n else (n : Int)
    else none

/-- A decimal without a sign. There must be a digit in front of the point, or behind it. -/
def decimal? (cs : List Char) : Option Decimal :=
  let whole := cs.takeWhile Char.isDigit
  let rest := cs.drop whole.length
  let fraction := if rest.head? = some '.' then rest.tail.takeWhile Char.isDigit else []
  let rest := if rest.head? = some '.' then rest.tail.drop fraction.length else rest
  match natOf? 10 (whole ++ fraction), exponent? rest with
  | some digits, some e => some ⟨digits, e - fraction.length⟩
  | _, _ => none

/-- A double with a sign or without one. -/
def double? (cs : List Char) : Option Number :=
  let (negative, cs) := signed cs
  ((decimal? cs).bind Decimal.nearest?).map (.double negative)

/-! ## Numbers -/

/-- The number that a text spells; underscores in it do not count. -/
def read? (cs : List Char) : Option Number :=
  let cs := cs.filter (· != '_')
  ((withSign? digits? cs).map .whole).or ((double? cs).or ((signedDigits? cs).map .whole))

/-- Whether every underscore stands between two digits. -/
def isSpaced (afterDigit : Bool) : List Char → Bool
  | [] => true
  | '_' :: cs => afterDigit && cs.head?.any Char.isDigit && isSpaced false cs
  | c :: cs => isSpaced c.isDigit cs

/-- The number that a text spells which starts with a point. Underscores may stand between
digits. -/
def readPoint? (cs : List Char) : Option Number :=
  if isSpaced false cs then double? (cs.filter (· != '_')) else none

end Number
end Yaml
end Kotlet

/-!
# Hexadecimal text

* `hexDigit`, `hexByte` : one digit and one byte, in lower case;
* `hexPadded` : a number padded with zeros to a width;
* `hexOfBytes`, `bytesOfHex?` : whole byte sequences.
-/

namespace Kotlet

/-- The lower-case digit of a number below sixteen. -/
def hexDigit (n : Nat) : Char :=
  if n < 10 then Char.ofNat (0x30 + n) else Char.ofNat (0x61 + (n - 10))

/-- The digits of `n`, most significant first, `width` of them. -/
def hexPaddedChars : Nat → Nat → List Char
  | 0, _ => []
  | width + 1, n => hexDigit ((n >>> (4 * width)) % 16) :: hexPaddedChars width n

/-- The last `width` hexadecimal digits of `n`. -/
def hexPadded (width n : Nat) : String := String.ofList (hexPaddedChars width n)

/-- The hexadecimal text of `n` without leading zeros. -/
def hexNat (n : Nat) : String := String.ofList (Nat.toDigits 16 n)

/-- Two digits for every byte. -/
def hexOfBytes (bytes : Array UInt8) : String :=
  bytes.foldl (fun s b => (s.push (hexDigit (b.toNat / 16))).push (hexDigit (b.toNat % 16))) ""

/-- The value of a digit in either case. -/
def hexValue? (c : Char) : Option Nat :=
  if '0' ≤ c ∧ c ≤ '9' then some (c.toNat - 0x30)
  else if 'a' ≤ c ∧ c ≤ 'f' then some (c.toNat - 0x61 + 10)
  else if 'A' ≤ c ∧ c ≤ 'F' then some (c.toNat - 0x41 + 10)
  else none

/-- Appends the bytes that the digits spell to `acc`. -/
def bytesOfHexOnto? (acc : Array UInt8) : List Char → Option (Array UInt8)
  | [] => some acc
  | [_] => none
  | h :: l :: rest =>
    match hexValue? h, hexValue? l with
    | some x, some y => bytesOfHexOnto? (acc.push (UInt8.ofNat (x * 16 + y))) rest
    | _, _ => none

/-- The bytes that a text of digits spells. -/
def bytesOfHex? (s : String) : Option (Array UInt8) := bytesOfHexOnto? #[] s.toList

end Kotlet

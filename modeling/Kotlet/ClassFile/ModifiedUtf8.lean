import Kotlet.Text.Glyph
import Kotlet.Text.Units

/-!
# Strings in class files

A class file stores UTF-16 code units, each in one, two or three bytes. The unit zero takes two
bytes, and a character beyond U+FFFF takes its two surrogates.

* `ModifiedUtf8.encode` : the bytes of a text;
* `ModifiedUtf8.decode` : the text of some bytes, or the place of the first bad byte;
* `ModifiedUtf8.malformed` : the message for such a place.

A surrogate without its partner is read as U+FFFD.
-/

namespace Kotlet
namespace ModifiedUtf8

/-- The bytes of a code unit. -/
def encodeUnit (u : Nat) : List UInt8 :=
  if u ≠ 0 ∧ u < 0x80 then [UInt8.ofNat u]
  else if u < 0x800 then [UInt8.ofNat (0xc0 + u / 0x40), UInt8.ofNat (0x80 + u % 0x40)]
  else
    [UInt8.ofNat (0xe0 + u / 0x1000), UInt8.ofNat (0x80 + u / 0x40 % 0x40),
     UInt8.ofNat (0x80 + u % 0x40)]

/-- The bytes of a character. -/
def encodeChar (c : Char) : List UInt8 := (charUnits c).flatMap encodeUnit

/-- The bytes of a text; a stray byte is stored as the character shown for it. -/
def encode (t : Text) : Array UInt8 :=
  t.foldl (fun acc g => (encodeChar g.toChar).foldl Array.push acc) #[]

/-- Reads code units; `units` holds those before, the last one first, and `pos` bytes were read.
The second and third byte of a unit may be any bytes: only their low six bits count. -/
def decodeUnits (pos : Nat) (units : List Nat) : List UInt8 → Except Nat (List Nat)
  | [] => .ok units.reverse
  | a :: rest =>
    if a < 0x80 then decodeUnits (pos + 1) (a.toNat :: units) rest
    else if a &&& 0xe0 = 0xc0 then
      match rest with
      | b :: rest =>
        let u := a.toNat % 0x20 * 0x40 + b.toNat % 0x40
        decodeUnits (pos + 2) (u :: units) rest
      | [] => .error pos
    else if a &&& 0xf0 = 0xe0 then
      match rest with
      | b :: c :: rest =>
        let u := (a.toNat % 0x10 * 0x40 + b.toNat % 0x40) * 0x40 + c.toNat % 0x40
        decodeUnits (pos + 3) (u :: units) rest
      | _ => .error pos
    else .error pos

/-- Whether a unit is the first of a surrogate pair. -/
def isHigh (u : Nat) : Bool := 0xd800 ≤ u && u < 0xdc00

/-- Whether a unit is the second of a surrogate pair. -/
def isLow (u : Nat) : Bool := 0xdc00 ≤ u && u < 0xe000

/-- The character of a unit that is part of no pair. -/
def loneChar (u : Nat) : Char := if isHigh u || isLow u then replacementChar else Char.ofNat u

/-- The characters of some code units, after those in `acc`, the last one first. -/
def charsOfUnits (acc : List Char) : List Nat → List Char
  | [] => acc.reverse
  | [u] => (loneChar u :: acc).reverse
  | u :: v :: rest =>
    if isHigh u && isLow v then
      charsOfUnits (Char.ofNat (0x10000 + (u - 0xd800) * 0x400 + (v - 0xdc00)) :: acc) rest
    else charsOfUnits (loneChar u :: acc) (v :: rest)

/-- The text of some bytes, or the place of the first byte that starts no unit. -/
def decode (bytes : Array UInt8) : Except Nat String :=
  (decodeUnits 0 [] bytes.toList).map fun units => String.ofList (charsOfUnits [] units)

/-- The message for bytes that cannot be decoded at a place. -/
def malformed (pos : Nat) : String := "malformed modified UTF-8 at byte " ++ toString pos

end ModifiedUtf8
end Kotlet

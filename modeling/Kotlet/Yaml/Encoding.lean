import Kotlet.Text.Glyph

/-!
# Encodings of documents

A document is written in UTF-8, or in UTF-16 after a byte order mark. It may hold tabs, line ends
and whatever is no control character.

* `Yaml.isAllowed` : the characters that a document may hold;
* `Yaml.characters?` : the characters of a document, if its bytes are well formed.
-/

namespace Kotlet
namespace Yaml

/-- Whether a document may hold a character: a tab, a line end, or no control character. -/
def isAllowed (c : Char) : Bool :=
  c == '\t' || c == '\n' || c == '\r' || ' ' ≤ c && c ≤ '~' || c == '\u0085'
    || '\u00a0' ≤ c && c ≤ '\ufffd' || '\ufffd'.toNat + 2 < c.toNat

/-- The 16-bit units of some bytes, which come in pairs. -/
def units? (bigEndian : Bool) : List UInt8 → Option (List Nat)
  | [] => some []
  | [_] => none
  | a :: b :: rest =>
    let unit := if bigEndian then 256 * a.toNat + b.toNat else 256 * b.toNat + a.toNat
    (units? bigEndian rest).map (unit :: ·)

/-- The characters of 16-bit units; a character beyond U+FFFF takes a high and a low surrogate. -/
def unitChars? : List Nat → Option (List Char)
  | [] => some []
  | [u] => if u.isValidChar then some [Char.ofNat u] else none
  | u :: v :: rest =>
    if u.isValidChar then (unitChars? (v :: rest)).map (Char.ofNat u :: ·)
    else if u < 0xdc00 ∧ 0xdc00 ≤ v ∧ v < 0xe000 then
      let c := Char.ofNat (0x10000 + u % 0x400 * 0x400 + v % 0x400)
      (unitChars? rest).map (c :: ·)
    else none

/-- The character of a glyph, unless it is a stray byte. -/
def glyphChar? : Glyph → Option Char
  | .char c => some c
  | .stray _ => none

/-- The characters that some bytes spell. A byte order mark in front tells the encoding. -/
def decode? : List UInt8 → Option (List Char)
  | 0xff :: 0xfe :: rest => units? false rest >>= unitChars?
  | 0xfe :: 0xff :: rest => units? true rest >>= unitChars?
  | 0xef :: 0xbb :: 0xbf :: rest => (Text.ofBytes rest).mapM glyphChar?
  | bytes => (Text.ofBytes bytes).mapM glyphChar?

/-- The characters of a document. -/
def characters? (bytes : List UInt8) : Option (List Char) :=
  (decode? bytes).filter fun cs => cs.all isAllowed

end Yaml
end Kotlet

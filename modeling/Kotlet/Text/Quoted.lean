import Kotlet.Text.Glyph
import Kotlet.Text.Hex
import Kotlet.Text.Printable

/-!
# Quoted text

A quoted text shows printable characters as themselves. The control characters with a customary
letter use it, other characters below U+0020 and U+007F are written `\x01`, the rest `\u200b` or
`\U000e0001`. A stray byte is written like a control character: `\xff`.

* `quoteChar` : a character in single quotes;
* `quoteText`, `quote` : a text in double quotes.
-/

namespace Kotlet

/-- The letter after the backslash of a control character that has one. -/
def controlLetter? (c : Char) : Option Char :=
  match c.toNat with
  | 0x07 => some 'a'
  | 0x08 => some 'b'
  | 0x0c => some 'f'
  | 0x0a => some 'n'
  | 0x0d => some 'r'
  | 0x09 => some 't'
  | 0x0b => some 'v'
  | _ => none

/-- A character as it stands inside quotes of the kind `q`. -/
def escapeWithin (q c : Char) : String :=
  if c = q ∨ c = '\\' then String.ofList ['\\', c]
  else if isPrintable c then String.singleton c
  else match controlLetter? c with
    | some l => String.ofList ['\\', l]
    | none =>
      if c.toNat < 0x20 ∨ c.toNat = 0x7f then "\\x" ++ hexPadded 2 c.toNat
      else if c.toNat < 0x10000 then "\\u" ++ hexPadded 4 c.toNat
      else "\\U" ++ hexPadded 8 c.toNat

/-- A glyph as it stands inside double quotes. -/
def escapeGlyph : Glyph → String
  | .char c => escapeWithin '"' c
  | .stray b => "\\x" ++ hexPadded 2 b.toNat

/-- A text in double quotes. -/
def quoteText (t : Text) : String :=
  t.foldl (fun s g => s ++ escapeGlyph g) "\"" ++ "\""

/-- A string in double quotes. -/
def quote (s : String) : String := quoteText s

/-- A character in single quotes. -/
def quoteChar (c : Char) : String :=
  "'" ++ escapeWithin '\'' c ++ "'"

end Kotlet

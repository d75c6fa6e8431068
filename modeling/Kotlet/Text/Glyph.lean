/-!
# Text that may hold stray bytes

A text arrives as bytes that should be UTF-8. Reading it never fails: every byte that belongs to no
well-formed sequence is kept as a stray glyph of its own.

* `Glyph`, `Text` : a character or a stray byte, and a sequence of them;
* `Text.ofBytes` : the glyphs of a byte sequence;
* `Text.chars` : the characters shown for a text, U+FFFD standing for each stray byte;
* `Text.ofChars`, `Text.ofString` : a text without stray bytes.
-/

namespace Kotlet

/-- One unit of a text: a character, or a byte that is part of none. -/
inductive Glyph where
  /-- A well-formed character. -/
  | char (c : Char)
  /-- A byte outside every well-formed sequence. -/
  | stray (b : UInt8)
  deriving DecidableEq, Inhabited

/-- Stray bytes hash beyond all characters. -/
instance : Hashable Glyph where
  hash
    | .char c => UInt64.ofNat c.toNat
    | .stray b => UInt64.ofNat (0x110000 + b.toNat)

/-- A text whose bytes need not be UTF-8 throughout. -/
abbrev Text := List Glyph

/-- The character shown for a stray byte. -/
def replacementChar : Char := '\ufffd'

/-- The character shown for a glyph. -/
def Glyph.toChar : Glyph → Char
  | .char c => c
  | .stray _ => replacementChar

namespace Text

/-- A text without stray bytes. -/
def ofChars (cs : List Char) : Text := cs.map .char

instance : Coe (List Char) Text := ⟨ofChars⟩

/-- A text without stray bytes, from a string. -/
def ofString (s : String) : Text := ofChars s.toList

instance : Coe String Text := ⟨ofString⟩

/-- The characters shown for a text. -/
def chars (t : Text) : List Char := t.map Glyph.toChar

/-- The text shown as a string. -/
def shown (t : Text) : String := String.ofList t.chars

@[simp] theorem chars_ofChars (cs : List Char) : (ofChars cs).chars = cs := by
  simp [chars, ofChars, Function.comp_def, Glyph.toChar]

@[simp] theorem shown_ofChars (cs : List Char) : (ofChars cs).shown = String.ofList cs := by
  rw [shown, chars_ofChars]

@[simp] theorem shown_ofString (s : String) : (ofString s).shown = s := by
  rw [ofString, shown_ofChars, String.ofList_toList]

@[simp] theorem ofString_ofList (cs : List Char) : ofString (String.ofList cs) = ofChars cs := by
  rw [ofString, String.toList_ofList]

@[simp] theorem length_ofChars (cs : List Char) : List.length (ofChars cs) = cs.length :=
  List.length_map _

@[simp] theorem ofChars_append (cs ds : List Char) : ofChars (cs ++ ds) = ofChars cs ++ ofChars ds :=
  List.map_append

theorem ofString_append (s t : String) : ofString (s ++ t) = ofString s ++ ofString t := by
  rw [ofString, String.toList_append, ofChars_append]
  rfl

theorem ofString_inj {s t : String} (h : ofString s = ofString t) : s = t := by
  simpa using congrArg shown h

/-- The six payload bits of a continuation byte. -/
def continuation? (b : UInt8) : Option Nat :=
  if b &&& 0xc0 == 0x80 then some (b.toNat % 64) else none

/-- The character `code`, when it may not be written with fewer than `least` allows and is no
surrogate. -/
def charFrom? (least code : Nat) : Option Char :=
  if least ≤ code ∧ code.isValidChar then some (Char.ofNat code) else none

/-- The character that starts with the byte `b` and goes on in `rest`, with the number of bytes it
takes from `rest`. -/
def sequence? (b : UInt8) (rest : List UInt8) : Option (Char × Nat) :=
  if b < 0x80 then some (Char.ofNat b.toNat, 0)
  else if b < 0xc0 then none
  else if b < 0xe0 then
    match rest with
    | b₁ :: _ => do
      let x ← continuation? b₁
      let c ← charFrom? 0x80 (b.toNat % 32 * 64 + x)
      some (c, 1)
    | _ => none
  else if b < 0xf0 then
    match rest with
    | b₁ :: b₂ :: _ => do
      let x ← continuation? b₁
      let y ← continuation? b₂
      let c ← charFrom? 0x800 ((b.toNat % 16 * 64 + x) * 64 + y)
      some (c, 2)
    | _ => none
  else if b < 0xf8 then
    match rest with
    | b₁ :: b₂ :: b₃ :: _ => do
      let x ← continuation? b₁
      let y ← continuation? b₂
      let z ← continuation? b₃
      let c ← charFrom? 0x10000 (((b.toNat % 8 * 64 + x) * 64 + y) * 64 + z)
      some (c, 3)
    | _ => none
  else none

/-- Prepends the glyphs of `bytes`, in reverse, to `acc`. -/
def readOnto (acc : Text) : List UInt8 → Text
  | [] => acc
  | b :: rest =>
    match sequence? b rest with
    | some (c, n) => readOnto (.char c :: acc) (rest.drop n)
    | none => readOnto (.stray b :: acc) rest
termination_by bytes => bytes.length

/-- The glyphs of a byte sequence. -/
def ofBytes (bytes : List UInt8) : Text := (readOnto [] bytes).reverse

end Text

end Kotlet

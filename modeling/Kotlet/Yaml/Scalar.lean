import Kotlet.Text.Hex
import Kotlet.Yaml.Cursor

/-!
# Scalars in documents

A scalar is written without quotes, in single or double quotes, or as a block of lines.

* `Yaml.Plain.read` : a scalar without quotes, which may go on for several lines;
* `Yaml.Quoted.read` : a scalar in quotes;
* `Yaml.Block.read` : a block of lines, with line ends kept or folded.

`limit` is the least column of a line that still belongs to the scalar. Readers take `turns` steps
at most, which the length of the text is enough for.
-/

namespace Kotlet
namespace Yaml

/-! ## Without quotes -/

namespace Plain

/-- Whether a character has a meaning inside brackets. -/
def isBracket (c : Char) : Bool :=
  c == ',' || c == '?' || c == '[' || c == ']' || c == '\x7b' || c == '\x7d'

/-- The characters of a word, the last one first, in front of `acc`. A colon before a gap ends it,
as does what has a meaning inside brackets. -/
def word (inFlow : Bool) (acc : List Char) (p : Place) : List Char → List Char × Cursor
  | [] => (acc, ⟨[], p⟩)
  | c :: cs =>
    if isGap c || (c == ':' && startsGap cs) || (inFlow && isBracket c) then (acc, ⟨c :: cs, p⟩)
    else word inFlow (c :: acc) p.next cs

/-- Reads words after a gap. The result tells also whether a line ended after the last word. -/
def readFrom (inFlow : Bool) (limit : Nat) :
    Nat → List Char → Gap → Cursor → Option (List Char × Bool × Cursor)
  | 0, _, _, _ => none
  | turns + 1, acc, g, c =>
    if c.atDocumentMarker || c.rest.head? == some '#' then some (acc, g.broken, c)
    else
      let (longer, after) := word inFlow (g.onto acc) c.place c.rest
      let isEmpty := after.place.index == c.place.index
      let acc := if isEmpty then acc else longer
      if after.rest.head?.any isGap then
        match Gap.read limit .none after.place after.rest with
        | none => none
        | some (g, c) =>
          if !inFlow && c.column < limit then some (acc, g.broken, c)
          else readFrom inFlow limit turns acc g c
      else some (acc, isEmpty && g.broken, after)

/-- A scalar without quotes, whether a line ended after it, and the cursor behind it. -/
def read (turns : Nat) (inFlow : Bool) (limit : Nat) (c : Cursor) :
    Option (String × Bool × Cursor) :=
  (readFrom inFlow limit turns [] .none c).map fun (acc, broken, c) =>
    (String.ofList acc.reverse, broken, c)

end Plain

/-! ## In quotes -/

namespace Quoted

/-- The number that `n` hexadecimal digits spell, and what comes after them. -/
def hexDigits? : Nat → Nat → List Char → Option Nat
  | 0, value, _ => some value
  | _, _, [] => none
  | n + 1, value, c :: cs =>
    match hexValue? c with
    | some d => hexDigits? n (value * 16 + d) cs
    | none => none

/-- The character after a backslash, unless it starts a number. -/
def escape? : Char → Option Char
  | '0' => some '\x00'
  | 'a' => some '\x07'
  | 'b' => some '\x08'
  | 't' | '\t' => some '\t'
  | 'n' => some '\n'
  | 'v' => some '\x0b'
  | 'f' => some '\x0c'
  | 'r' => some '\r'
  | 'e' => some '\x1b'
  | ' ' => some ' '
  | '"' => some '"'
  | '\'' => some '\''
  | '\\' => some '\\'
  | 'N' => some '\u0085'
  | '_' => some '\u00a0'
  | 'L' => some '\u2028'
  | 'P' => some '\u2029'
  | _ => none

/-- How many digits follow a letter after a backslash. -/
def escapeWidth? : Char → Option Nat
  | 'x' => some 2
  | 'u' => some 4
  | 'U' => some 8
  | _ => none

/-- The character that stands behind a backslash, and how many characters spell it. -/
def escaped? : List Char → Option (Char × Nat)
  | [] => none
  | c :: cs =>
    match escapeWidth? c with
    | none => (escape? c).map fun e => (e, 1)
    | some width =>
      match hexDigits? width 0 cs with
      | some n => if n.isValidChar then some (Char.ofNat n, width + 1) else none
      | none => none

/-- Reads up to the closing quote; what was read before is `acc`, the last character first. -/
def readFrom (single : Bool) : Nat → List Char → Cursor → Option (List Char × Cursor)
  | 0, _, _ => none
  | turns + 1, acc, c =>
    let fold (g : Gap) (c : Cursor) : Option (List Char × Cursor) :=
      match g.read 0 c.place c.rest with
      | some (g, c) =>
        if c.atDocumentMarker then none else readFrom single turns (g.onto acc) c
      | none => none
    match c.rest with
    | [] => none
    | x :: cs =>
      if isGap x then fold .none c
      else if single then
        if x == '\'' then
          if cs.head? == some '\'' then readFrom single turns ('\'' :: acc) (c.skip 2)
          else some (acc, c.skip 1)
        else readFrom single turns (x :: acc) (c.skip 1)
      else if x == '"' then some (acc, c.skip 1)
      else if x == '\\' then
        if cs.head?.any isBreak then fold .escaped (c.skip 1).newline.2
        else
          match escaped? cs with
          | some (e, width) => readFrom single turns (e :: acc) (c.skip (width + 1))
          | none => none
      else readFrom single turns (x :: acc) (c.skip 1)

/-- A scalar in quotes, and the cursor behind it. The cursor stands at the opening quote. -/
def read (turns : Nat) (c : Cursor) : Option (String × Cursor) :=
  (readFrom (c.rest.head? == some '\'') turns [] (c.skip 1)).map fun (acc, c) =>
    (String.ofList acc.reverse, c)

end Quoted

/-! ## Blocks of lines -/

namespace Block

/-- What becomes of the line ends behind the last line. -/
inductive Chomp where
  | strip | clip | keep
  deriving DecidableEq, Inhabited

/-- How a block is to be read. -/
structure Header where
  /-- What becomes of the last line ends. -/
  chomp : Chomp
  /-- By how much the lines are indented; 0 when the first line tells. -/
  indent : Nat

/-- The mark for the last line ends, if it comes next. -/
def chomp? : List Char → Option Chomp
  | '+' :: _ => some .keep
  | '-' :: _ => some .strip
  | _ => none

/-- The digit that comes next, if one does. -/
def digit? (cs : List Char) : Option Nat :=
  cs.head?.bind fun c => if c.isDigit then some (c.toNat - '0'.toNat) else none

/-- The header of a block, and the cursor behind it. Both marks may stand in either order. -/
def header? (c : Cursor) : Option (Header × Cursor) :=
  let start := (chomp? c.rest).isSome
  let c₁ := if start then c.skip 1 else c
  let digit := digit? c₁.rest
  let c₂ := if digit.isSome then c₁.skip 1 else c₁
  let last := if start then none else if digit.isSome then chomp? c₂.rest else none
  let c₃ := if last.isSome then c₂.skip 1 else c₂
  let chomp := ((chomp? c.rest).or last).getD .clip
  if digit = some 0 then none else some (⟨chomp, digit.getD 0⟩, c₃)

/-- Skips indentation and empty lines. The result holds what the line ends count as, the last one
first, and the greatest column that was reached. A tab is no indentation. -/
def emptyLines (indent : Nat) (breaks : List Char) (reached : Nat) (p : Place) :
    List Char → Option (List Char × Nat × Cursor)
  | [] => some (breaks, max reached p.column, ⟨[], p⟩)
  | '\r' :: '\n' :: cs => emptyLines indent ('\n' :: breaks) (max reached p.column) (p.newline 2) cs
  | c :: cs =>
    let isIndent := indent == 0 || p.column < indent
    if isIndent && c == ' ' then emptyLines indent breaks reached p.next cs
    else if isIndent && c == '\t' then none
    else if isBreak c then
      emptyLines indent (breakChar c :: breaks) (max reached p.column) (p.newline 1) cs
    else some (breaks, max reached p.column, ⟨c :: cs, p⟩)

/-- Lines of a block so far. -/
structure Lines where
  /-- What was read, the last character first. -/
  acc : List Char
  /-- What the last line end counts as. -/
  pending : Option Char
  /-- What the line ends of the empty lines behind it count as, the last one first. -/
  empty : List Char
  /-- Whether the last line starts with a blank. -/
  indented : Bool

/-- The text of a block in front of its next line. A line end between two lines that start with no
blank is folded. -/
def Lines.joined (l : Lines) (literal : Bool) (startsBlank : Bool) : List Char :=
  let folds := !literal && !l.indented && !startsBlank && l.pending == some '\n'
  if folds then (if l.empty = [] then ' ' :: l.acc else l.empty ++ l.acc)
  else l.empty ++ l.pending.toList ++ l.acc

/-- Reads the lines of a block. -/
def lines (literal : Bool) (indent : Nat) : Nat → Lines → Cursor → Option (Lines × Cursor)
  | 0, _, _ => none
  | turns + 1, l, c =>
    if c.column = indent ∧ c.rest ≠ [] then
      let startsBlank := c.rest.head?.any isBlank
      let (acc, c) := Cursor.lineWhile (fun _ => true) (l.joined literal startsBlank) c.place c.rest
      let (pending, c) := c.newline
      match emptyLines indent [] 0 c.place c.rest with
      | some (empty, _, c) => lines literal indent turns ⟨acc, pending, empty, startsBlank⟩ c
      | none => none
    else some (l, c)

/-- The text of a whole block. -/
def Lines.text (l : Lines) (chomp : Chomp) : String :=
  let acc :=
    match chomp with
    | .strip => l.acc
    | .clip => l.pending.toList ++ l.acc
    | .keep => l.empty ++ l.pending.toList ++ l.acc
  String.ofList acc.reverse

/-- A block of lines, and the cursor behind it. The cursor stands at the mark in front. -/
def read (turns limit : Nat) (c : Cursor) : Option (String × Cursor) := do
  let literal := c.rest.head? == some '|'
  let (header, c) ← header? (c.skip 1)
  let c := (Cursor.lineWhile isBlank [] c.place c.rest).2
  let c :=
    if c.rest.head? == some '#' then (Cursor.lineWhile (fun _ => true) [] c.place c.rest).2 else c
  if c.rest.head?.all isBreak then
    let c := c.newline.2
    let known := if header.indent = 0 then 0 else limit - 1 + header.indent
    let (empty, reached, c) ← emptyLines known [] 0 c.place c.rest
    let indent := if known = 0 then max (max reached limit) 1 else known
    let (l, c) ← lines literal indent turns ⟨[], none, empty, false⟩ c
    return (l.text header.chomp, c)
  else none

end Block

end Yaml
end Kotlet

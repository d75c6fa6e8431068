/-!
# Places in documents

* `Yaml.isBlank`, `Yaml.isBreak`, `Yaml.startsGap` : blanks, line ends, and where a word ends;
* `Yaml.Place` : a line, a column and an index;
* `Yaml.Cursor` : a place with the text that follows it;
* `Yaml.Gap` : blanks and line ends inside a scalar, and what they fold to.
-/

namespace Kotlet
namespace Yaml

/-- Whether a character is a blank. -/
def isBlank (c : Char) : Bool := c == ' ' || c == '\t'

/-- Whether a character ends a line. -/
def isBreak (c : Char) : Bool :=
  c == '\n' || c == '\r' || c == '\u0085' || c == '\u2028' || c == '\u2029'

/-- Whether a character is a blank or ends a line. -/
def isGap (c : Char) : Bool := isBlank c || isBreak c

/-- Whether a text starts with a blank or a line end, or is empty. -/
def startsGap (cs : List Char) : Bool := cs.head?.all isGap

/-- What a line end counts as: separators of lines and of paragraphs stay what they are. -/
def breakChar (c : Char) : Char := if c = '\u2028' ∨ c = '\u2029' then c else '\n'

/-- A place in a text. -/
structure Place where
  /-- The line, from 0. -/
  line : Nat
  /-- The column, from 0. -/
  column : Nat
  /-- The number of characters before it. -/
  index : Nat
  deriving DecidableEq, Inhabited

/-- The place one character further. -/
def Place.next (p : Place) : Place := ⟨p.line, p.column + 1, p.index + 1⟩

/-- The place after a line end of so many characters. -/
def Place.newline (p : Place) (width : Nat) : Place := ⟨p.line + 1, 0, p.index + width⟩

/-- A place with the text that follows it. -/
structure Cursor where
  /-- The text that follows. -/
  rest : List Char
  /-- The place. -/
  place : Place
  deriving Inhabited

namespace Cursor

/-- Before a text. -/
def start (cs : List Char) : Cursor := ⟨cs, ⟨0, 0, 0⟩⟩

/-- The column. -/
def column (c : Cursor) : Nat := c.place.column

/-- After `n` characters, none of which ends a line. -/
def skip (c : Cursor) (n : Nat) : Cursor :=
  ⟨c.rest.drop n, ⟨c.place.line, c.place.column + n, c.place.index + n⟩⟩

/-- The line end that comes next, if one does, and the cursor after it. -/
def newline (c : Cursor) : Option Char × Cursor :=
  match c.rest with
  | '\r' :: '\n' :: cs => (some '\n', ⟨cs, c.place.newline 2⟩)
  | b :: cs => if isBreak b then (some (breakChar b), ⟨cs, c.place.newline 1⟩) else (none, c)
  | [] => (none, c)

/-- Whether a line starts with a character three times, and nothing right after them. -/
def atMarker (c : Cursor) (mark : Char) : Bool :=
  c.column == 0 &&
    match c.rest with
    | x :: y :: z :: rest => x == mark && y == mark && z == mark && startsGap rest
    | _ => false

/-- Whether a document starts or ends here. -/
def atDocumentMarker (c : Cursor) : Bool := c.atMarker '-' || c.atMarker '.'

/-- Skips what satisfies a test up to the end of the line; what was skipped comes before `acc`, the
last character first. -/
def lineWhile (p : Char → Bool) (acc : List Char) (place : Place) : List Char → List Char × Cursor
  | [] => (acc, ⟨[], place⟩)
  | c :: cs =>
    if p c && !isBreak c then lineWhile p (c :: acc) place.next cs else (acc, ⟨c :: cs, place⟩)

end Cursor

/-- Blanks and line ends inside a scalar. -/
structure Gap where
  /-- The blanks before the first line end, the last one first. -/
  blanks : List Char
  /-- Whether there was a line end. -/
  broken : Bool
  /-- What the first line end counts as. -/
  first : Option Char
  /-- What the line ends after it count as, the last one first. -/
  more : List Char
  deriving Inhabited

namespace Gap

/-- Nothing at all. -/
def none : Gap := ⟨[], false, .none, []⟩

/-- A line end that is left out. -/
def escaped : Gap := ⟨[], true, .none, []⟩

/-- One more blank; those after a line end do not count. -/
def addBlank (g : Gap) (c : Char) : Gap := if g.broken then g else { g with blanks := c :: g.blanks }

/-- One more line end. -/
def addBreak (g : Gap) (c : Char) : Gap :=
  if g.broken then { g with more := c :: g.more } else ⟨[], true, some c, []⟩

/-- What the gap stands for, in front of `acc`, the last character first. A single newline is a
blank; of more than one, the first is left out. -/
def onto (g : Gap) (acc : List Char) : List Char :=
  if g.broken then
    if g.first = some '\n' then (if g.more = [] then ' ' :: acc else g.more ++ acc)
    else g.more ++ g.first.toList ++ acc
  else g.blanks ++ acc

/-- Reads a gap. A tab at the start of a line is refused before the column `limit`. -/
def read (limit : Nat) (g : Gap) (p : Place) : List Char → Option (Gap × Cursor)
  | [] => some (g, ⟨[], p⟩)
  | '\r' :: '\n' :: cs => read limit (g.addBreak '\n') (p.newline 2) cs
  | c :: cs =>
    if isBlank c then
      if g.broken && c == '\t' && p.column < limit then .none
      else read limit (g.addBlank c) p.next cs
    else if isBreak c then read limit (g.addBreak (breakChar c)) (p.newline 1) cs
    else some (g, ⟨c :: cs, p⟩)

end Gap

end Yaml
end Kotlet

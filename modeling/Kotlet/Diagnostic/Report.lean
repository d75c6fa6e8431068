import Kotlet.Diagnostic

/-!
# Reports for people

A report shows a failure with the source line it points at and a caret below the column, in colour
if wanted.

* `Report` : the source text and whether to colour;
* `Report.sourceLine?` : a line of the source by its number;
* `Report.render` : the report of a failure.
-/

namespace Kotlet

/-- How a failure is shown. -/
structure Report where
  /-- Whether to colour. -/
  color : Bool
  /-- The source that failures point into; empty when there is none. -/
  source : String

namespace Report

/-- Bright red, for the stage and the caret. -/
def red : String := "\x1b[1;31m"
/-- Bold, for the place. -/
def bold : String := "\x1b[1m"
/-- Dim, for the gutter. -/
def dim : String := "\x1b[2m"

/-- The text `s` in the colour `c`. -/
def paint (r : Report) (c s : String) : String :=
  if r.color then c ++ s ++ "\x1b[0m" else s

/-- The line with the given number. -/
def sourceLine? (r : Report) (line : Int) : Option String :=
  if r.source = "" ∨ line ≤ 0 then none
  else (r.source.splitOn "\n")[(line - 1).toNat]?

/-- A number right-aligned in `width` columns. -/
def padLeft (width : Nat) (s : String) : String :=
  String.ofList (List.replicate (width - s.length) ' ') ++ s

/-- What stands before a source line. -/
def gutter (line : Int) : String := padLeft 4 (toString line) ++ " | "

/-- The source line of a place with a caret below the column, if there is such a line. -/
def excerpt (r : Report) (line col : Int) : String :=
  match r.sourceLine? line with
  | none => ""
  | some text =>
    let caret :=
      if 0 < col then
        let blank := List.replicate ((gutter line).length + col.toNat - 1) ' '
        "\n" ++ String.ofList blank ++ r.paint red "^"
      else ""
    "\n" ++ r.paint dim (gutter line) ++ text ++ caret

/-- The report of a failure. -/
def render (r : Report) : Failure → String
  | .other text => r.paint red "error: " ++ text
  | .diagnostic d =>
    let loc :=
      if 0 < d.line then (if d.file = "" then "" else d.file ++ ":") ++ d.place else d.file
    let place := if loc = "" then "" else r.paint bold (loc ++ ": ")
    place ++ r.paint red (d.stage.name ++ "[" ++ d.code.text ++ "]: ") ++ d.message
      ++ r.excerpt d.line d.col

end Report

end Kotlet

import Kotlet.Text.Glyph
import Kotlet.Text.Letter
import Kotlet.Text.Path

/-!
# Source files

* `Source.isSource` : whether a path names a source file;
* `Source.normalize` : a source text with plain line ends;
* `Source.unitName` : the name of the class that a source file becomes.
-/

namespace Kotlet
namespace Source

/-- The extension that source files should have. -/
def extension : String := ".kt"

/-- The extensions of source files. -/
def extensions : List String := [extension, ".kts"]

/-- The extension of class files. -/
def classExtension : String := ".class"

/-- Whether a path names a source file. -/
def isSource (path : String) : Bool := extensions.contains (Path.ext path)

/-- Replaces every carriage return before a newline by nothing; `acc` holds what comes before, the
last glyph first. -/
def plainLines (acc : Text) : Text → Text
  | [] => acc.reverse
  | .char '\r' :: .char '\n' :: rest => plainLines (.char '\n' :: acc) rest
  | g :: rest => plainLines (g :: acc) rest

/-- Takes one newline away from the end. -/
def dropNewline (text : Text) : Text :=
  if text.getLast? = some (.char '\n') then text.dropLast else text

/-- A source text with plain line ends and without a newline at its end. -/
def normalize (text : Text) : Text := dropNewline (plainLines [] text)

/-- The class name of a source without a name of its own. -/
def defaultUnit : String := "Main"

/-- A character of a class name. -/
def unitChar (c : Char) : Char :=
  if c = '_' ∨ c = '$' ∨ isLetter c ∨ isDecimalDigit c then c else '_'

/-- The last part of a path without its extension. -/
def stem (path : String) : String :=
  let base := (Path.base path).toList
  String.ofList (base.take (base.length - (Path.ext (Path.base path)).length))

/-- The class name for a source file: its name without the extension, where characters that a class
name cannot have become underscores. A digit in front gets an underscore before it. -/
def unitName (path : String) : String :=
  let stem := stem path
  if stem = "" ∨ stem = "." ∨ stem = "/" then defaultUnit
  else
    let cs := stem.toList.map unitChar
    String.ofList (if cs.head?.any isDecimalDigit then '_' :: cs else cs)

end Source
end Kotlet

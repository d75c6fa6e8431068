/-!
# File paths

Paths are strings whose parts are separated by slashes; everything here is lexical.

* `Path.clean` : the shortest equivalent path;
* `Path.base`, `Path.dir`, `Path.ext` : the last part, what stands before it, its extension;
* `Path.join` : two paths in a row;
* `Path.under` : a path relative to a directory above it.
-/

namespace Kotlet
namespace Path

/-- The parts of a path between its slashes. -/
def parts (s : List Char) : List (List Char) := s.splitOn '/'

/-- One more part on a stack of cleaned parts, the last one on top. A part `..` takes the part
before it away, except that it is kept where nothing but `..` is left and the path is relative. -/
def pushPart (rooted : Bool) (stack : List (List Char)) (part : List Char) : List (List Char) :=
  if part = [] ∨ part = ['.'] then stack
  else if part = ['.', '.'] then
    match stack with
    | [] => if rooted then [] else [part]
    | top :: below => if top = ['.', '.'] then part :: stack else below
  else part :: stack

/-- The shortest path that leads to the same place. -/
def clean (s : String) : String :=
  let cs := s.toList
  let rooted := cs.head? == some '/'
  let stack := (parts cs).foldl (pushPart rooted) []
  let body := ['/'].intercalate stack.reverse
  if rooted then String.ofList ('/' :: body)
  else if body = [] then "." else String.ofList body

/-- Whether the path starts at the root. -/
def isAbsolute (s : String) : Bool := s.toList.head? == some '/'

/-- The last part of a path; slashes at its end do not count. -/
def base (s : String) : String :=
  if s = "" then "."
  else
    let cs := s.toList.reverse.dropWhile (· == '/')
    if cs = [] then "/" else String.ofList (cs.takeWhile (· != '/')).reverse

/-- What stands before the last slash, cleaned. -/
def dir (s : String) : String :=
  clean (String.ofList (s.toList.reverse.dropWhile (· != '/')).reverse)

/-- The last part from its last dot on, or nothing. -/
def ext (s : String) : String :=
  let last := s.toList.reverse.takeWhile (· != '/')
  if last.contains '.' then String.ofList ('.' :: (last.takeWhile (· != '.')).reverse) else ""

/-- Two paths in a row, cleaned; an empty one is left out. -/
def join (a b : String) : String :=
  if a = "" then (if b = "" then "" else clean b)
  else if b = "" then clean a
  else clean (a ++ "/" ++ b)

/-- The path `p` as seen from the directory `d`, which lies above it. -/
def under (d p : String) : String :=
  let d := clean d
  let p := clean p
  if d = p then "."
  else if d = "." then p
  else
    let cut := if d = "/" then 1 else d.length + 1
    String.ofList (p.toList.drop cut)

end Path
end Kotlet

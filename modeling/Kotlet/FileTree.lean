import Kotlet.Disk
import Kotlet.Text.Path

/-!
# File trees

A file system in memory, with a current directory.

* `FileTree.Entry` : a file with its contents, or a directory with its entries;
* `FileTree` : everything below the root, and the current directory;
* `FileTree.follow` : the entry that names lead to;
* `FileTree.read`, `FileTree.makeDirs`, `FileTree.write` : the operations of a disk;
* `FileTree.disk` : a file tree as a disk;
* `FileTree.filesBelow` : the files below a directory.

Places are lists of names from the root down. A path that does not start at the root starts at the
current directory.
-/

namespace Kotlet

/-- A place in a tree: names from the root down. -/
abbrev FileTree.Place := List String

/-- What a directory holds under a name. -/
inductive FileTree.Entry where
  /-- A file with its contents. -/
  | file (data : Array UInt8)
  /-- A directory with its entries. -/
  | directory (entries : List (String × FileTree.Entry))
  deriving Inhabited

/-- A file system in memory. -/
structure FileTree where
  /-- The entries of the root. -/
  root : List (String × FileTree.Entry)
  /-- The current directory. -/
  here : FileTree.Place
  deriving Inhabited

namespace FileTree

/-- A tree with nothing but the root in it. -/
def empty : FileTree := ⟨[], []⟩

/-! ## Paths -/

/-- The names of a path, as they stand between its slashes. -/
def names (path : String) : List String := (Path.parts path.toList).map String.ofList

/-- The most bytes that a name may have. -/
def longestName : Nat := 255

/-- The most bytes that a path may have. -/
def longestPath : Nat := 4095

/-- Why no path is spelled like this, if none is. -/
def misspelled? (path : String) : Option FileError.Reason :=
  if path.toList.contains '\x00' then some .invalidArgument
  else if path = "" then some .noEntry
  else if longestPath < path.utf8ByteSize then some .nameTooLong
  else none

/-- Follows names from an entry, which must be a directory at every step; the last one need not be
there. The directories above are given with the names that lead down from them, the nearest one
first. The root is above itself. -/
def follow (above : List (String × Entry)) (here : Option Entry) :
    List String → Except FileError.Reason (Place × Option Entry)
  | [] => .ok ((above.map Prod.fst).reverse, here)
  | name :: rest =>
    match here with
    | none => .error .noEntry
    | some (.file _) => .error .notDirectory
    | some (.directory es) =>
      if name = "" ∨ name = "." then follow above here rest
      else if name = ".." then
        match above with
        | [] => follow [] here rest
        | (_, parent) :: above => follow above (some parent) rest
      else if longestName < name.utf8ByteSize then .error .nameTooLong
      else follow ((name, .directory es) :: above) (es.lookup name) rest

/-- The place that a path leads to, and what is there. -/
def resolve (t : FileTree) (path : String) : Except FileError.Reason (Place × Option Entry) :=
  match misspelled? path with
  | some r => .error r
  | none =>
    let start := if Path.isAbsolute path then [] else t.here
    follow [] (some (.directory t.root)) (start ++ names path)

/-- What a path leads to, which must be there. -/
def find (t : FileTree) (path : String) : Except FileError.Reason (Place × Entry) := do
  match ← t.resolve path with
  | (p, some e) => return (p, e)
  | (_, none) => throw .noEntry

/-! ## Changes -/

/-- Sets the entry of a name. -/
def set (name : String) (e : Entry) : List (String × Entry) → List (String × Entry)
  | [] => [(name, e)]
  | (n, old) :: es => if n = name then (n, e) :: es else (n, old) :: set name e es

/-- Puts an entry at a place, in directories that are made where they are missing. -/
def putIn (e : Entry) : Place → List (String × Entry) → List (String × Entry)
  | [], es => es
  | [name], es => set name e es
  | name :: rest, es =>
    let inner :=
      match es.lookup name with
      | some (.directory inner) => inner
      | _ => []
    set name (.directory (putIn e rest inner)) es

/-- Puts an entry at a place. -/
def put (t : FileTree) (p : Place) (e : Entry) : FileTree := { t with root := putIn e p t.root }

/-- The place of a path below the current directory, which need not be there. -/
def below (t : FileTree) (path : String) : Place :=
  t.here ++ (names (Path.clean path)).filter (· != ".")

/-- A file below the current directory, together with its directories. -/
def withFile (t : FileTree) (path : String) (data : Array UInt8) : FileTree :=
  t.put (t.below path) (.file data)

/-- Goes to a directory below the current one, which is made if it is missing. -/
def enter (t : FileTree) (path : String) : FileTree :=
  let p := t.below path
  let t :=
    match follow [] (some (.directory t.root)) p with
    | .ok (_, some _) => t
    | _ => t.put p (.directory [])
  { t with here := p }

/-! ## Operations -/

/-- The contents of a file. -/
def read (t : FileTree) (path : String) : Except FileError (Array UInt8) :=
  match t.find path with
  | .error r => .error ⟨"open", path, r⟩
  | .ok (_, .directory _) => .error ⟨"read", path, .isDirectory⟩
  | .ok (_, .file data) => .ok data

/-- Whether there is something at a path. -/
def stat (t : FileTree) (path : String) : Except FileError Unit :=
  match t.find path with
  | .error r => .error ⟨"stat", path, r⟩
  | .ok _ => .ok ()

/-- Cuts the slashes at the end of a path. -/
def trimSlashes (path : String) : String :=
  String.ofList (path.toList.reverse.dropWhile (· == '/')).reverse

/-- What stands before the last name of a path, the slash included. -/
def beforeLast (path : String) : String :=
  String.ofList ((trimSlashes path).toList.reverse.dropWhile (· != '/')).reverse

/-- Makes one directory, whose parent must be there. -/
def makeDir (t : FileTree) (path : String) : Except FileError FileTree :=
  match misspelled? path with
  | some r => .error ⟨"mkdir", path, r⟩
  | none =>
    match t.resolve (trimSlashes path) with
    | .error r => .error ⟨"mkdir", path, r⟩
    | .ok (p, none) => .ok (t.put p (.directory []))
    | .ok (_, some _) => .error ⟨"mkdir", path, .alreadyExists⟩

/-- Makes a directory and those above it; the path has fewer than `depth` names. A path that leads
to a directory already is fine, and one that leads to a file is not. -/
def makeDirsWithin : Nat → FileTree → String → Except FileError FileTree
  | 0, t, _ => .ok t
  | depth + 1, t, path =>
    match t.find path with
    | .ok (_, .directory _) => .ok t
    | .ok (_, .file _) => .error ⟨"mkdir", path, .notDirectory⟩
    | .error _ => do
      let parent := beforeLast path
      let t ← if parent = "" then pure t else makeDirsWithin depth t parent
      match t.makeDir path with
      | .ok t => return t
      | .error e =>
        match t.find path with
        | .ok (_, .directory _) => return t
        | _ => throw e

/-- Makes a directory and those above it. -/
def makeDirs (t : FileTree) (path : String) : Except FileError FileTree :=
  makeDirsWithin (path.length + 1) t path

/-- Writes a file. -/
def write (t : FileTree) (path : String) (data : Array UInt8) : Except FileError FileTree :=
  match t.resolve path with
  | .error r => .error ⟨"open", path, r⟩
  | .ok (_, some (.directory _)) => .error ⟨"open", path, .isDirectory⟩
  | .ok (p, _) => .ok (t.put p (.file data))

/-! ## Listings -/

mutual

/-- The files at a place with this entry, in order. -/
def Entry.files (p : Place) : Entry → List (Place × Array UInt8)
  | .file data => [(p, data)]
  | .directory es => filesIn p es

/-- The files below some entries of the directory at a place. -/
def filesIn (p : Place) : List (String × Entry) → List (Place × Array UInt8)
  | [] => []
  | (name, e) :: es => e.files (p ++ [name]) ++ filesIn p es

end

/-- The files below a directory, or the file itself, with their places. -/
def filesBelow (t : FileTree) (p : Place) : List (Place × Array UInt8) :=
  match follow [] (some (.directory t.root)) p with
  | .ok (_, some e) => e.files p
  | _ => []

/-! ## Disks -/

/-- A change that may fail; a failure changes nothing. -/
def update (f : FileTree → Except FileError FileTree) : StateM FileTree (Except FileError Unit) :=
  modifyGet fun t =>
    match f t with
    | .ok t => (.ok (), t)
    | .error e => (.error e, t)

/-- A file tree as a disk. -/
def disk : Disk (StateM FileTree) where
  read path := do return (← get).read path
  stat path := do return (← get).stat path
  makeDirs path := update fun t => t.makeDirs path
  write path data := update fun t => t.write path data

end FileTree

end Kotlet

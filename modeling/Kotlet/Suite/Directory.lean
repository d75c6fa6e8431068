import Kotlet.FileTree
import Kotlet.Suite

/-!
# Directories of suites

* `Suite.Loaded` : a program of a suite with the file it comes from;
* `Suite.loadDir` : the programs of all suites below a directory, in the order of the paths;
* `Suite.findDir` : the directory of suites above a place.
-/

namespace Kotlet
namespace Suite

/-- A program with its suite and the file it comes from. -/
structure Loaded where
  /-- The file, as seen from the directory of suites. -/
  file : String
  /-- The name of the suite. -/
  suite : String
  /-- The program. -/
  test : Case
  deriving Inhabited

/-- The programs of a suite in a file. -/
def loaded (file : String) (s : Suite) : List Loaded := s.cases.map fun c => ⟨file, s.name, c⟩

/-- Why suites cannot be loaded. -/
inductive LoadError where
  /-- A failure of a file. -/
  | file (e : FileError)
  /-- A suite that is refused. -/
  | suite (path : String) (problem : Problem)
  /-- There is no directory of suites. -/
  | notFound

/-- The directory of suites in a project. -/
def testPath : String := "testdata/conformance"

/-- The message of a failure. -/
def LoadError.message : LoadError → String
  | file e => e.message
  | suite path p => path ++ ": " ++ p.message
  | notFound => "could not find " ++ testPath ++ " above the working directory"

/-- The extension of suites. -/
def extension : String := ".yaml"

/-- The paths of the suites below a directory, in order; the directory is the place `p`. -/
def pathsBelow (t : FileTree) (dir : String) (p : FileTree.Place) : List String :=
  let path (f : FileTree.Place) : String :=
    if f = p then dir else Path.join dir ("/".intercalate (f.drop p.length))
  let paths := (t.filesBelow p).map fun f => path f.1
  (paths.filter fun f => Path.ext f = extension).mergeSort (decide <| · ≤ ·)

/-- The programs of the suites at some paths. -/
def loadFiles (t : FileTree) (dir : String) : List String → Except LoadError (List Loaded)
  | [] => .ok []
  | path :: paths =>
    match t.read path with
    | .error e => .error (.file e)
    | .ok data =>
      match parse data.toList with
      | .error p => .error (.suite path p)
      | .ok s => (loadFiles t dir paths).map (loaded (Path.under dir path) s ++ ·)

/-- The programs of all suites below a directory. -/
def loadDir (t : FileTree) (dir : String) : Except LoadError (List Loaded) :=
  match t.find dir with
  | .error r => .error (.file ⟨"lstat", dir, r⟩)
  | .ok (p, _) => loadFiles t dir (pathsBelow t dir p)

/-- The directory of suites in a place, or in the next one above it that has one. -/
def findDir (t : FileTree) (here : FileTree.Place) : Nat → Option String
  | 0 => none
  | up + 1 =>
    let candidate := "/" ++ "/".intercalate (here ++ [testPath])
    match t.find candidate with
    | .ok (_, .directory _) => some candidate
    | _ => if here = [] then none else findDir t here.dropLast up

/-- The programs of all suites of the project around the current directory. -/
def loadAll (t : FileTree) : Except LoadError (List Loaded) :=
  match findDir t t.here (t.here.length + 1) with
  | none => .error .notFound
  | some dir => loadDir t dir

end Suite
end Kotlet

import Kotlet.Text.Path
import Kotlet.Yaml.Value

/-!
# Settings

Settings stand in a file next to the sources. All of them may be left out.

* `Settings` : what can be set;
* `Settings.parse` : the settings that a file holds;
* `Settings.outputDir` : where the class of a source file goes.
-/

namespace Kotlet

/-- What can be set. -/
structure Settings where
  /-- The directory for classes; empty for the directory of the source. -/
  output : String
  /-- The launcher of the virtual machine. -/
  java : String
  /-- Options for the launcher. -/
  javaArgs : List String
  /-- The version of the class file format. -/
  classVersion : UInt16
  /-- Whether classes tell their source file. -/
  sourceFile : Bool
  /-- Whether progress is logged. -/
  verbose : Bool
  /-- The directory of the settings file; empty when it is not known. -/
  dir : String
  deriving Inhabited

namespace Settings

/-- The name of the settings file. -/
def fileName : String := "ktjvm.yaml"

/-- The settings without a file. -/
def default : Settings := ⟨"", "java", [], 49, true, false, ""⟩

/-- The oldest version of the format. -/
def oldestVersion : UInt16 := 45

/-- The newest version of the format that can be written. -/
def newestVersion : UInt16 := 49

/-- Why a settings file is refused. -/
inductive Problem where
  /-- It is no document, or has a value of the wrong type. -/
  | document (reason : Yaml.Refusal)
  /-- A version that cannot be written. -/
  | badVersion (version : UInt16)
  /-- An option without text. -/
  | emptyArgument (index : Nat)
  deriving DecidableEq, Inhabited

/-- The message of a problem in the file at a path. -/
def Problem.message (path : String) : Problem → String
  | document _ => "parsing " ++ path ++ ": yaml: the document cannot be read"
  | badVersion v =>
    path ++ ": class_version " ++ toString v.toNat ++ " is not supported ("
      ++ toString oldestVersion.toNat ++ " to " ++ toString newestVersion.toNat ++ ")"
  | emptyArgument i => path ++ ": java_args[" ++ toString i ++ "] is empty"

/-- The settings of a document as they are written there; what is left out is empty or 0. -/
def ofYaml (doc : Yaml) : Except Yaml.Refusal Settings := do
  let es := (← doc.entries).getD []
  let output ← Yaml.field es "output" Yaml.asString
  let java ← Yaml.field es "java" Yaml.asString
  let args ← Yaml.field es "java_args" Yaml.asStrings
  let version ← Yaml.field es "class_version" Yaml.asWord
  let source ← Yaml.field es "source_file" Yaml.asBool
  let verbose ← Yaml.field es "verbose" Yaml.asBool
  return ⟨output.getD "", java.getD "", args.getD [], version.getD 0, source.getD true,
    verbose.getD false, ""⟩

/-- What is wrong with settings, if anything is. -/
def problem? (s : Settings) : Option Problem :=
  let v := s.classVersion
  if v ≠ 0 ∧ (v < oldestVersion ∨ newestVersion < v) then some (.badVersion v)
  else (s.javaArgs.findIdx? (· == "")).map .emptyArgument

/-- Settings with what is left out filled in. -/
def complete (s : Settings) : Settings :=
  { s with
    java := if s.java = "" then default.java else s.java
    classVersion := if s.classVersion = 0 then default.classVersion else s.classVersion }

/-- The settings that a file holds. -/
def parse (bytes : List UInt8) : Except Problem Settings :=
  match Yaml.parse bytes >>= ofYaml with
  | .error reason => .error (.document reason)
  | .ok s =>
    match s.problem? with
    | some p => .error p
    | none => .ok s.complete

/-- Where the class of a source file goes. -/
def outputDir (s : Settings) (source : String) : String :=
  if s.output = "" then Path.dir source
  else if Path.isAbsolute s.output ∨ s.dir = "" then s.output
  else Path.join s.dir s.output

end Settings

end Kotlet

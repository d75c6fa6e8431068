import Kotlet.Text.Quoted
import Kotlet.Yaml.Value

/-!
# Suites of programs

A suite is a document with programs and what must come of them.

* `Suite`, `Suite.Case` : a suite and one of its programs;
* `Suite.Case.skipped?` : whether a program is left out, and why;
* `Suite.parse` : the suite that a file holds. Every program must have a source.
-/

namespace Kotlet

namespace Suite

/-- What must come of a program. -/
structure Expectation where
  /-- The code of its diagnostic; empty when it compiles. -/
  error : String
  /-- A part of the message. -/
  contains : String
  /-- What it prints, if that is told. -/
  output : Option String
  deriving DecidableEq, Inhabited

/-- A program with what must come of it. -/
structure Case where
  /-- Its name. -/
  name : String
  /-- The reason for leaving it out, if it is left out. -/
  skipped? : Option String
  /-- The source text. -/
  source : String
  /-- What must come of it. -/
  expect : Expectation
  deriving DecidableEq, Inhabited

/-- Whether the program must compile. -/
def Case.compiles (c : Case) : Bool := c.expect.error == ""

end Suite

/-- A suite. -/
structure Suite where
  /-- Its name. -/
  name : String
  /-- Its programs. -/
  cases : List Suite.Case
  deriving DecidableEq, Inhabited

namespace Suite

/-- Why a suite is refused. -/
inductive Problem where
  /-- It is no document, or has a value of the wrong type. -/
  | document (reason : Yaml.Refusal)
  /-- A program without a source. -/
  | noSource (name : String)
  deriving DecidableEq, Inhabited

/-- The message of a problem. -/
def Problem.message : Problem → String
  | document _ => "yaml: the document cannot be read"
  | noSource name => "test " ++ quote name ++ " has no source"

/-- The reason for leaving a program out: a text, or `true`. Other documents do not count, unless
they are none. -/
def skipReason : Yaml → Except Yaml.Refusal (Option String)
  | .scalar tag quoted text => do
    match ← Yaml.resolve tag quoted text with
    | .bool true => return some "skipped"
    | .text s => return some s
    | _ => return none
  | doc => if doc.isReadable then .ok none else .error .malformed

/-- An expectation. -/
def Expectation.ofYaml (doc : Yaml) : Except Yaml.Refusal (Option Expectation) := do
  let es := (← doc.entries).getD []
  let error ← Yaml.field es "error" Yaml.asString
  let contains ← Yaml.field es "contains" Yaml.asString
  let output ← Yaml.field es "output" Yaml.asString
  return some ⟨error.getD "", contains.getD "", output⟩

/-- A program of a suite; nothing if the document is null. -/
def Case.ofYaml (doc : Yaml) : Except Yaml.Refusal (Option Case) := do
  match ← doc.entries with
  | none => return none
  | some es =>
    let name ← Yaml.field es "name" Yaml.asString
    let _ ← Yaml.field es "description" Yaml.asString
    let skipped ← Yaml.field es "skip" skipReason
    let source ← Yaml.field es "source" Yaml.asString
    let expect ← Yaml.field es "expect" Expectation.ofYaml
    return some ⟨name.getD "", skipped, source.getD "", expect.getD ⟨"", "", none⟩⟩

/-- A suite. -/
def ofYaml (doc : Yaml) : Except Yaml.Refusal Suite := do
  let es := (← doc.entries).getD []
  let name ← Yaml.field es "name" Yaml.asString
  let _ ← Yaml.field es "description" Yaml.asString
  let cases ← Yaml.field es "tests" (Yaml.asList Case.ofYaml)
  return ⟨name.getD "", cases.getD []⟩

/-- The suite that a file holds. -/
def parse (bytes : List UInt8) : Except Problem Suite :=
  match Yaml.parse bytes >>= ofYaml with
  | .error reason => .error (.document reason)
  | .ok s =>
    match s.cases.find? fun c => c.source == "" with
    | some c => .error (.noSource c.name)
    | none => .ok s

/-- The name of a program of the suite in a file. -/
def fullName (file : String) (c : Case) : String := file ++ "/" ++ c.name

end Suite

end Kotlet

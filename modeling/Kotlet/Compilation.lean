import Kotlet.Emit.Class
import Kotlet.Eval
import Kotlet.Parse.Stmt
import Kotlet.Source
import Kotlet.Token.Scan

/-!
# Compilations

A program goes through phases. A phase reads what the phases before it made, and adds its own
result or a failure. A phase that finds nothing to work on does nothing.

* `Compilation` : a program on its way;
* `Phase` : one step of the way; `Phase.scan`, `Phase.parse` and their kin;
* `Compilation.trace` : the states after each phase; the first failure ends it;
* `Compilation.run` : the last of these states.
-/

namespace Kotlet

/-- A program on its way from text to class. -/
structure Compilation where
  /-- The source text. -/
  source : Text
  /-- The file it comes from; empty when there is none. -/
  file : String
  /-- The name of the class; empty when the file gives it. -/
  unit : String
  /-- The tokens. -/
  tokens : List Token
  /-- The syntax tree. -/
  program : Option Program
  /-- What checking found out. The tree is the one above. -/
  checked : Option Checked
  /-- The class. -/
  cls : Option ClassFile
  /-- The failures, the first one first. -/
  errors : List Diagnostic
  /-- What was printed. -/
  out : String
  deriving Inhabited

/-- One step of the way. -/
abbrev Phase := Compilation → Compilation

namespace Compilation

/-- A source text before the first phase. -/
def start (source : Text) (file unit : String) : Compilation :=
  ⟨source, file, unit, [], none, none, none, [], ""⟩

/-- Whether a phase failed. -/
def failed (c : Compilation) : Bool := !c.errors.isEmpty

/-- The first failure. -/
def error? (c : Compilation) : Option Diagnostic := c.errors.head?

/-- Adds a failure, which gets the file of the compilation. A failure without a code counts as a
fault of the compiler. -/
def fail (c : Compilation) (f : Failure) : Compilation :=
  let d : Diagnostic :=
    match f with
    | .diagnostic d => d
    | .other text => .mkAt .internalFault 0 0 text
  { c with errors := c.errors ++ [d.inFile c.file] }

/-- Goes on with a result, or fails. -/
def after {α : Type} (c : Compilation) (result : Except Diagnostic α)
    (next : α → Compilation) : Compilation :=
  match result with
  | .ok a => next a
  | .error d => c.fail (.diagnostic d)

/-- Goes on with the checked program, which is checked now if it was not before. -/
def withChecked (c : Compilation) (p : Program) (next : Compilation → Checked → Compilation) :
    Compilation :=
  match c.checked with
  | some k => next c { k with program := p }
  | none =>
    c.after p.check fun k => next { c with program := some k.program, checked := some k } k

end Compilation

namespace Phase

open Compilation

/-- Makes tokens. -/
def scan : Phase := fun c => c.after (Token.scan c.source) fun ts => { c with tokens := ts }

/-- Makes the tree. -/
def parse : Phase := fun c =>
  c.after (Program.parse c.tokens) fun p => { c with program := some { p with file := c.file } }

/-- Checks the tree. -/
def check : Phase := fun c =>
  match c.program with
  | none => c
  | some p => c.after p.check fun k => { c with program := some k.program, checked := some k }

/-- Makes the class; a version of 0 stands for the usual one. -/
def emit (major : UInt16) (omitSource : Bool) : Phase := fun c =>
  match c.program with
  | none => c
  | some p =>
    c.withChecked p fun c k =>
      let unit := if c.unit = "" then Source.unitName c.file else c.unit
      let g := Generator.start unit
      let g :=
        { g with
          major := if major = 0 then g.major else major
          source := if omitSource then .omitted else .derived }
      c.after (g.classOf k) fun cls => { c with cls := some cls }

/-- Runs the program. -/
def eval : Phase := fun c =>
  match c.program with
  | none => c
  | some p =>
    if c.failed then c
    else
      c.withChecked p fun c k =>
        let r := k.run
        let c := { c with out := c.out ++ r.out }
        match r.failure with
        | none => c
        | some d => c.fail (.diagnostic d)

/-- The failure for a launcher that is not there. -/
def noLauncher (launcher : String) : Diagnostic :=
  .mkAt .runtimeFailure 0 0 ("java launcher not found: " ++ launcher)

/-- Runs the class with a launcher that cannot be found. The class is made now if there is none
yet; if that fails, the failure is noted here and once more by the phase that runs the class. -/
def launch (launcher : String) : Phase := fun c =>
  if c.program.isNone || c.failed then c
  else
    let made := if c.cls.isSome then c else emit 0 false c
    match made.error? with
    | some d => made.fail (.diagnostic d)
    | none => made.fail (.diagnostic (noLauncher launcher))

end Phase

namespace Compilation

/-- The states after each phase. The first failure ends it. -/
def trace (c : Compilation) : List Phase → List Compilation
  | [] => []
  | phase :: rest =>
    let c := phase c
    c :: (if c.failed then [] else c.trace rest)

/-- The state after the last phase. -/
def run (c : Compilation) (phases : List Phase) : Compilation := (c.trace phases).getLastD c

/-- From text to a checked tree. -/
def frontEnd : List Phase := [Phase.scan, Phase.parse, Phase.check]

end Compilation

end Kotlet

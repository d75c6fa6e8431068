import Kotlet.ClassFile.Instruction
import Kotlet.Compilation
import Kotlet.Diagnostic.Report
import Kotlet.Disk
import Kotlet.Settings
import Kotlet.Syntax.Format
import Kotlet.Syntax.Outline

/-!
# The command line

* `Invocation`, `Invocation.parse` : the arguments of a command;
* `Command` : the steps of a command, which print to two streams and use a disk;
* `Command.build`, `Command.runProgram`, `Command.check`, `Command.tree`, `Command.disasm` : the
  commands;
* `Command.main` : a whole run of the tool.
-/

namespace Kotlet

/-! ## Arguments -/

/-- The arguments of a command. -/
structure Invocation where
  /-- The input file. -/
  path : String
  /-- Where the class goes; empty when it is not told. -/
  output : String
  /-- Whether progress is logged. -/
  verbose : Bool
  /-- Whether to run without a virtual machine. -/
  interp : Bool
  /-- Whether to print source text instead of the tree. -/
  source : Bool
  deriving DecidableEq, Inhabited

/-- Why arguments are refused. -/
inductive ArgumentError where
  /-- `-o` stands last. -/
  | noDirectory
  /-- A flag that does not exist. -/
  | unknownFlag (flag : String)
  /-- A second input file. -/
  | secondFile
  /-- No input file. -/
  | noFile
  deriving DecidableEq, Inhabited

/-- The message for refused arguments. -/
def ArgumentError.message : ArgumentError → String
  | noDirectory => "-o needs a directory"
  | unknownFlag flag => "unknown flag " ++ flag
  | secondFile => "more than one input file"
  | noFile => "missing input file"

namespace Invocation

/-- Before the first argument. -/
def start : Invocation := ⟨"", "", false, false, false⟩

/-- Whether an argument looks like a flag. -/
def isFlag (arg : String) : Bool :=
  match arg.toList with
  | '-' :: _ :: _ => true
  | _ => false

/-- Reads more arguments. -/
def parseFrom (i : Invocation) : List String → Except ArgumentError Invocation
  | [] => if i.path = "" then .error .noFile else .ok i
  | ["-o"] => .error .noDirectory
  | "-o" :: dir :: rest => parseFrom { i with output := dir } rest
  | arg :: rest =>
    if arg = "-v" ∨ arg = "--verbose" then parseFrom { i with verbose := true } rest
    else if arg = "--interp" then parseFrom { i with interp := true } rest
    else if arg = "--source" then parseFrom { i with source := true } rest
    else if isFlag arg then .error (.unknownFlag arg)
    else if i.path ≠ "" then .error .secondFile
    else parseFrom { i with path := arg } rest

/-- The arguments of a command. -/
def parse (args : List String) : Except ArgumentError Invocation := start.parseFrom args

end Invocation

/-! ## Steps -/

/-- What a run of the tool comes to. -/
structure Outcome where
  /-- The exit code. -/
  code : UInt32
  /-- What went to the standard output. -/
  stdout : String
  /-- What went to the standard error. -/
  stderr : String
  deriving Inhabited

/-- What was printed so far. -/
structure Console where
  /-- To the standard output. -/
  stdout : String
  /-- To the standard error. -/
  stderr : String
  deriving Inhabited

/-- Steps of a command. A failure that was reported ends them. -/
abbrev Command (m : Type → Type) := ExceptT Unit (StateT Console m)

namespace Command

variable {m : Type → Type} [Monad m]

/-- The text shown to who asks for help. -/
def usage : String :=
  "Usage: ktjvm <command> [arguments]\n\nCommands:\n"
    ++ "  build <file>   compile to <Unit>.class   (-o dir, -v)\n"
    ++ "  run <file>     compile and run on java   (--interp to use the interpreter, -v)\n"
    ++ "  check <file>   typecheck only\n"
    ++ "  ast <file>     print the syntax tree      (--source for canonical source)\n"
    ++ "  disasm <file>  disassemble a class file\n"

/-- Prints to the standard output. -/
def print (text : String) : Command m Unit :=
  modify fun c => { c with stdout := c.stdout ++ text }

/-- Prints to the standard error. -/
def complain (text : String) : Command m Unit :=
  modify fun c => { c with stderr := c.stderr ++ text }

/-- Reports a failure in a source text and gives up. -/
def giveUp {α : Type} (source : String) (f : Failure) : Command m α := do
  let report : Report := ⟨false, source⟩
  complain (report.render f ++ "\n")
  throw ()

/-- A step of the disk whose failure is reported in a source text. -/
def orGiveUp {α : Type} (source : String) (step : m (Except FileError α))
    (message : FileError → String) : Command m α := do
  match ← (liftM step : StateT Console m _) with
  | .ok a => return a
  | .error e => giveUp source (.other (message e))

/-- A source file with its settings. -/
structure Loaded where
  /-- The path. -/
  path : String
  /-- The source text. -/
  source : Text
  /-- The settings. -/
  settings : Settings
  /-- Whether progress is logged. -/
  verbose : Bool

/-- The source text as it is shown. -/
def Loaded.text (l : Loaded) : String := l.source.shown

/-- Logs progress. -/
def log (l : Loaded) (text : String) : Command m Unit :=
  if l.verbose then complain (text ++ "\n") else pure ()

/-- The settings next to a source file. -/
def settingsFor (disk : Disk m) (path source : String) : Command m Settings := do
  let dir := Path.dir path
  let file := Path.join dir Settings.fileName
  match ← (liftM (disk.stat file) : StateT Console m _) with
  | .error e =>
    if e.reason = .noEntry then return { Settings.default with dir := dir }
    giveUp source (.other e.message)
  | .ok _ =>
    let data ← orGiveUp source (disk.read file) fun e =>
      "reading config " ++ file ++ ": " ++ e.message
    match Settings.parse data.toList with
    | .ok s => return { s with dir := Path.dir file }
    | .error p => giveUp source (.other (p.message file))

/-- Reads a source file and its settings. -/
def load (disk : Disk m) (i : Invocation) : Command m Loaded := do
  let data ← orGiveUp "" (disk.read i.path) FileError.message
  let source := Source.normalize (Text.ofBytes data.toList)
  let settings ← settingsFor disk i.path source.shown
  let l : Loaded := ⟨i.path, source, settings, i.verbose || settings.verbose⟩
  if !Source.isSource i.path then
    log l ("warning: " ++ i.path ++ " does not have a " ++ Source.extension ++ " extension")
  return l

/-- Runs phases on a source file; a failure is reported. What the program printed is printed in any
case. -/
def phases (l : Loaded) (unit : String) (ps : List Phase) : Command m Compilation := do
  let c := (Compilation.start l.source l.path unit).run ps
  print c.out
  match c.error? with
  | some d => giveUp l.text (.diagnostic d)
  | none => return c

/-- Checks a source file and goes on with more phases. -/
def compile (l : Loaded) (more : List Phase) : Command m Compilation := do
  let unit := Source.unitName l.path
  log l ("compiling " ++ l.path ++ " as " ++ unit)
  phases l unit (Compilation.frontEnd ++ more)

/-- Makes a class as the settings want it. -/
def emitPhase (s : Settings) : Phase := Phase.emit s.classVersion (!s.sourceFile)

/-- Writes a class into a directory, and tells where. -/
def writeClass (disk : Disk m) (source : String) (cls : ClassFile) (dir : String) :
    Command m String := do
  match cls.bytes with
  | .error e => giveUp source (.other e.message)
  | .ok data =>
    orGiveUp source (disk.makeDirs dir) fun e => "creating output directory: " ++ e.message
    let path := Path.join dir (cls.name ++ Source.classExtension)
    orGiveUp source (disk.write path data) fun e => "writing class file: " ++ e.message
    return path

/-! ## Commands -/

/-- Writes the class of a source file. -/
def build (disk : Disk m) (i : Invocation) : Command m Unit := do
  let l ← load disk i
  let c ← compile l [emitPhase l.settings]
  match c.cls with
  | none => return ()
  | some cls =>
    let dir := if i.output = "" then l.settings.outputDir l.path else i.output
    let path ← writeClass disk l.text cls dir
    log l ("wrote " ++ path)

/-- Runs a source file. There is no virtual machine here, so only the interpreter can do it. -/
def runProgram (disk : Disk m) (i : Invocation) : Command m Unit := do
  let l ← load disk i
  if !i.interp then
    complain ("ktjvm: " ++ l.settings.java ++ " not found; use --interp to run without a JVM\n")
    throw ()
  log l "running on tree-walk backend"
  let _ ← compile l [Phase.eval]

/-- Checks a source file. -/
def check (disk : Disk m) (i : Invocation) : Command m Unit := do
  let l ← load disk i
  let _ ← compile l []
  log l (l.path ++ ": ok")

/-- Prints the tree of a source file, or its source text in the usual form. -/
def tree (disk : Disk m) (i : Invocation) : Command m Unit := do
  let l ← load disk i
  let c ← phases l "" [Phase.scan, Phase.parse]
  let p := c.program.getD default
  print (if i.source then p.format else p.outline ++ "\n")

/-- Prints the listing of a class file. -/
def disasm (disk : Disk m) (i : Invocation) : Command m Unit := do
  let data ← orGiveUp "" (disk.read i.path) FileError.message
  match ParsedClass.disassemble data with
  | .ok text => print text
  | .error e => giveUp "" (.other (i.path ++ ": " ++ e.message))

/-- The command of a name. -/
def named (disk : Disk m) (name : String) (i : Invocation) : Command m Unit :=
  if name = "build" then build disk i
  else if name = "run" then runProgram disk i
  else if name = "check" then check disk i
  else if name = "ast" then tree disk i
  else if name = "disasm" then disasm disk i
  else do
    complain ("ktjvm: unknown command " ++ quote name ++ "\n\n" ++ usage)
    throw ()

/-- Whether an argument asks for help. -/
def isHelp (arg : String) : Bool := ["help", "-help", "--help", "-h"].contains arg

/-- The steps for some arguments. -/
def steps (disk : Disk m) : List String → Command m Unit
  | [] => do
    complain usage
    throw ()
  | name :: args =>
    if isHelp name then print usage
    else
      match Invocation.parse args with
      | .error e => do
        complain ("ktjvm " ++ name ++ ": " ++ e.message ++ "\n")
        throw ()
      | .ok i => named disk name i

/-- A run of the tool. -/
def main (disk : Disk m) (args : List String) : m Outcome := do
  let (result, c) ← ((steps disk args).run).run ⟨"", ""⟩
  let code : UInt32 :=
    match result with
    | .ok _ => 0
    | .error _ => 1
  return ⟨code, c.stdout, c.stderr⟩

end Command

end Kotlet

/-!
# Diagnostics

Every stage that rejects a program does so with one diagnostic: a code, a message and the place it
is about. The first letter of the code tells the stage.

* `Code` : the codes, named for what they report;
* `Stage`, `Code.stage` : which stage speaks, and the phrase it uses for its failures;
* `Diagnostic.text` : the one-line form `file:line:col: phrase [code]: message`.
-/

namespace Kotlet

/-- What a diagnostic is about. -/
structure Code where
  /-- The letter of the stage followed by a number. -/
  text : String
  deriving DecidableEq, Inhabited

namespace Code

/-- A character that starts no token, or a malformed number. -/
def illegalCharacter : Code := ⟨"L001"⟩
/-- A block comment that is never closed. -/
def unclosedComment : Code := ⟨"L002"⟩
/-- An integer literal outside 32 bits. -/
def literalOutOfRange : Code := ⟨"L003"⟩
/-- A token that fits no rule, or an expression nested too deeply. -/
def unexpectedToken : Code := ⟨"P001"⟩
/-- The input ends too early. -/
def unexpectedEnd : Code := ⟨"P002"⟩
/-- Tokens are left over. -/
def extraTokens : Code := ⟨"P003"⟩
/-- A collection literal without elements. -/
def emptyCollection : Code := ⟨"P004"⟩
/-- Two parameters of one name. -/
def duplicateParameter : Code := ⟨"P005"⟩
/-- A string template that cannot be read. -/
def malformedTemplate : Code := ⟨"P006"⟩
/-- A name that is not declared. -/
def undeclared : Code := ⟨"T001"⟩
/-- A value of the wrong type. -/
def typeMismatch : Code := ⟨"T002"⟩
/-- A name declared twice in one scope. -/
def redeclared : Code := ⟨"T003"⟩
/-- An index on something that has no elements. -/
def notIndexable : Code := ⟨"T004"⟩
/-- A write to something that may not be written. -/
def notAssignable : Code := ⟨"T005"⟩
/-- A type that is neither written nor implied. -/
def cannotInfer : Code := ⟨"T006"⟩
/-- A wrong number of arguments. -/
def argumentCount : Code := ⟨"T007"⟩
/-- A call of something that is no function. -/
def notCallable : Code := ⟨"T008"⟩
/-- A return that does not fit, or is missing. -/
def badReturn : Code := ⟨"T009"⟩
/-- A statement in a place where it is not allowed. -/
def misplaced : Code := ⟨"T010"⟩
/-- A value that cannot be printed. -/
def notPrintable : Code := ⟨"T011"⟩
/-- A range or an iteration that makes no sense. -/
def badRange : Code := ⟨"T012"⟩
/-- A program that exceeds a limit of the class file format. -/
def formatLimit : Code := ⟨"G001"⟩
/-- A fault of the compiler itself. -/
def internalFault : Code := ⟨"G002"⟩
/-- A failure of a running program. -/
def runtimeFailure : Code := ⟨"R001"⟩

end Code

/-- The stages a diagnostic can come from. -/
inductive Stage where
  | lexer | parser | typecheck | codegen | runtime
  deriving DecidableEq, Inhabited

/-- The name of a stage. -/
def Stage.name : Stage → String
  | .lexer => "lexer"
  | .parser => "parser"
  | .typecheck => "typecheck"
  | .codegen => "codegen"
  | .runtime => "runtime"

/-- What a stage calls its failures. -/
def Stage.phrase : Stage → String
  | .lexer => "tokenization error"
  | .parser => "parse error"
  | .typecheck => "ill-typed program"
  | .codegen => "code generation error"
  | .runtime => "runtime error"

/-- The stage that the first letter of a code tells; without a known letter it is code
generation. -/
def Code.stage (c : Code) : Stage :=
  match c.text.toList with
  | 'L' :: _ => .lexer
  | 'P' :: _ => .parser
  | 'T' :: _ => .typecheck
  | 'R' :: _ => .runtime
  | _ => .codegen

/-- One failure of one stage. -/
structure Diagnostic where
  /-- What it is about. -/
  code : Code
  /-- The message for the reader. -/
  message : String
  /-- The line, from 1; anything less means that no place is known. -/
  line : Int
  /-- The column, from 1. -/
  col : Int
  /-- The source file, if one is known. -/
  file : String
  /-- What a parser wanted, if it says so. -/
  expected : String
  /-- What a parser found instead. -/
  received : String
  deriving DecidableEq, Inhabited

namespace Diagnostic

/-- A diagnostic at a place, with no file yet. -/
def mkAt (code : Code) (line col : Int) (message : String) : Diagnostic :=
  ⟨code, message, line, col, "", "", ""⟩

/-- A diagnostic that tells what was wanted and what was found. -/
def mkExpected (code : Code) (line col : Int) (expected received : String) : Diagnostic :=
  ⟨code, "expected " ++ expected ++ ", received " ++ received, line, col, "", expected, received⟩

/-- The stage that speaks. -/
def stage (d : Diagnostic) : Stage := d.code.stage

/-- Whether the compiler itself is at fault. -/
def isInternalFault (d : Diagnostic) : Bool := d.code == Code.internalFault

/-- The diagnostic with the file `f`, unless it names one already. -/
def inFile (d : Diagnostic) (f : String) : Diagnostic :=
  if d.file = "" then { d with file := f } else d

/-- The place as `line:col`. -/
def place (d : Diagnostic) : String := toString d.line ++ ":" ++ toString d.col

/-- The one-line form. -/
def text (d : Diagnostic) : String :=
  let file := if d.file = "" then "" else d.file ++ ":"
  let spot :=
    if 0 < d.line then d.place ++ ": "
    else if d.file = "" then "" else " "
  file ++ spot ++ d.stage.phrase ++ " [" ++ d.code.text ++ "]: " ++ d.message

end Diagnostic

/-- What a command or a pipeline can fail with: a diagnostic, or any other error text. -/
inductive Failure where
  /-- A stage rejected the program. -/
  | diagnostic (d : Diagnostic)
  /-- Something else went wrong. -/
  | other (text : String)
  deriving DecidableEq, Inhabited

/-- The text of a failure. -/
def Failure.text : Failure → String
  | .diagnostic d => d.text
  | .other t => t

end Kotlet

import Kotlet.Emit.Show
import Kotlet.Emit.Stmt
import Kotlet.Text.Path
import Kotlet.Typing.Stmt

/-!
# The class of a program

The script becomes a private method that the entry point calls. Every function becomes a public
method, and every lambda a private one.

* `Generator` : how a class is to be made;
* `Generator.generate` : the class of a checked program.
-/

namespace Kotlet

open ClassFile

/-- Whether a class tells its source file. -/
inductive SourceNote where
  /-- It tells the file of the program, if there is one. -/
  | derived
  /-- It does not. -/
  | omitted
  /-- It tells a given one. -/
  | given (name : String)
  deriving DecidableEq, Inhabited

/-- The source file that a class tells; empty when it tells none. -/
def SourceNote.fileName (note : SourceNote) (file : String) : String :=
  match note with
  | derived => if file = "" then "" else Path.base file
  | omitted => ""
  | given name => name

/-- How a class is to be made. A generator makes one class. -/
structure Generator where
  /-- The name of the class. -/
  unit : String
  /-- The version of the format. -/
  major : UInt16
  /-- Whether the class tells its source file. -/
  source : SourceNote
  /-- Whether it has made its class. -/
  used : Bool
  deriving Inhabited

namespace Generator

/-- The version of the format that is written: the last one without stack maps. -/
def defaultMajor : UInt16 := 49

/-- A generator for a class of a name. -/
def start (unit : String) : Generator := ⟨unit, defaultMajor, .derived, false⟩

end Generator

namespace Emit

/-- The constructor. -/
def constructor : Emit Unit :=
  plainMethod .isPublic "<init>" "()V" do
    load ⟨0, .any⟩
    callInit Jvm.object "()V"
    op .vreturn

/-- The entry point. -/
def entryPoint : Emit Unit :=
  let args := "[" ++ Jvm.reference Jvm.string
  plainMethod (.all [.isPublic, .isStatic]) entryName (Jvm.method [args] "V") do
    callStatic (← read).unit scriptName "()V"
    op .vreturn

/-- The method of the script. -/
def scriptMethod (p : Program) : Emit Unit :=
  method [.isPrivate, .isStatic] scriptName [] .unit p.tok [] p.tok (Stmt.emitList p.script)

/-- The method of a function. -/
def functionMethod (f : FunDecl) : Emit Unit := do
  method [.isPublic, .isStatic] (← methodOf f.name.name) f.paramTypes f.result f.tok
    (f.params.map fun p => p.name.sym) f.body.close (Stmt.emitList f.body.stmts)

/-- The methods of functions. -/
def functionMethods : List FunDecl → Emit Unit
  | [] => return ()
  | f :: fs => do
    functionMethod f
    functionMethods fs

/-- All methods of a class. -/
def allMethods (p : Program) : Emit Unit := do
  constructor
  entryPoint
  scriptMethod p
  functionMethods p.functions
  if (← get).usesShow then showMethod
  if let some e := (← get).pool.error then reject (.build e) .absent

end Emit

namespace Generator

/-- The class of a checked program. -/
def classOf (g : Generator) (c : Checked) : Except Diagnostic ClassFile := do
  let p := c.program
  let declared := p.functions.map fun f => f.name.name
  let env : Emit.Env := ⟨g.unit, c.functions, declared, .unit, none⟩
  let (_, s) ← Emit.allMethods p env .start
  return ⟨g.major, g.unit, Jvm.object, g.source.fileName p.file, s.pool, s.methods⟩

/-- The class of a checked program, and the generator after it is used. -/
def generate (g : Generator) (c : Checked) : Except Diagnostic ClassFile × Generator :=
  if g.used then (.error (EmitError.alreadyUsed.toDiagnostic .absent), g)
  else (g.classOf c, { g with used := true })

end Generator

end Kotlet

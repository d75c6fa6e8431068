import Std.Data.HashMap
import Kotlet.ClassFile
import Kotlet.Emit.Error
import Kotlet.Emit.Layout

/-!
# Code generation

A class is written method by method. Every variable gets a slot of its own in its method, and no
slot is used for two variables.

* `Emit.Env` : what a piece of the program finds around it;
* `Emit.State` : the class so far and the method that is being written;
* `Emit` : steps of code generation;
* `Emit.declare`, `Emit.scratch` : slots for variables and for what has no name;
* `Emit.inMethod` : a whole method;
* `Emit.box`, `Emit.unbox`, `Emit.coerce` : conversions of the value on top of the stack.
-/

namespace Kotlet

open ClassFile

namespace Emit

/-- A slot of a method with the type of what it holds. -/
structure Local where
  /-- The slot. -/
  slot : Nat
  /-- The type. -/
  ty : Ty
  deriving Inhabited

/-- The labels of a loop. -/
structure Loop where
  /-- Where `break` goes. -/
  breakTo : Nat
  /-- Where `continue` goes. -/
  continueTo : Nat
  deriving Inhabited

/-- What a piece of the program finds around it. -/
structure Env where
  /-- The name of the class. -/
  unit : String
  /-- The functions that were checked. -/
  functions : List FunDecl
  /-- The names of the functions that get methods. -/
  declared : List String
  /-- What the method returns. -/
  result : Ty
  /-- The innermost loop. -/
  loop : Option Loop

/-- The method that is being written. -/
structure Body where
  /-- Its instructions. -/
  code : ClassFile.Code
  /-- The slots of its variables. -/
  slots : Std.HashMap SymbolId Local
  /-- The next free slot. -/
  next : Nat

/-- A method before its first instruction. -/
def Body.start (code : ClassFile.Code) : Body := ⟨code, ∅, 0⟩

/-- What changes from instruction to instruction. -/
structure State where
  /-- The constants of the class. -/
  pool : Pool
  /-- The methods of the class; those that are not finished are still empty here. -/
  methods : Array Method
  /-- The method that is being written. -/
  body : Body
  /-- The number of lambdas so far. -/
  lambdas : Nat
  /-- Whether the method is needed that shows any object. -/
  usesShow : Bool

/-- Nothing is written yet. -/
def State.start : State := ⟨.empty, #[], .start (.start 0), 0, false⟩

end Emit

/-- Steps of code generation. -/
abbrev Emit := ReaderT Emit.Env (StateT Emit.State (Except Diagnostic))

namespace Emit

/-- Gives up at a token. -/
def reject {α : Type} (e : EmitError) (t : Token) : Emit α := throw (e.toDiagnostic t)

/-! ## Instructions -/

/-- A step on the instructions alone. -/
@[inline] def onCode (f : ClassFile.Code → ClassFile.Code) : Emit Unit :=
  modify fun s => { s with body := { s.body with code := f s.body.code } }

/-- A step that may add constants. -/
@[inline] def onPool (f : Pool → ClassFile.Code → Pool × ClassFile.Code) : Emit Unit :=
  modify fun s =>
    let (pool, code) := f s.pool s.body.code
    { s with pool := pool, body := { s.body with code := code } }

/-- The instructions so far. -/
def code : Emit ClassFile.Code := do return (← get).body.code

/-- An instruction without operands. -/
def op (o : Opcode) : Emit Unit := onCode fun c => c.emit o

/-- Pushes a number. -/
def pushInt (n : Int32) : Emit Unit := onPool fun p c => c.pushInt p n

/-- Pushes a text. -/
def pushString (s : String) : Emit Unit := onPool fun p c => c.pushString p s

/-- Pushes a class. -/
def pushClass (name : String) : Emit Unit := onPool fun p c => c.pushClass p name

/-- Loads a variable. -/
def load (l : Local) : Emit Unit := onCode fun c => c.load l.ty.localKind l.slot

/-- Stores into a variable. -/
def store (l : Local) : Emit Unit := onCode fun c => c.store l.ty.localKind l.slot

/-- Adds to a variable. -/
def increment (l : Local) (delta : Int) : Emit Unit := onCode fun c => c.iinc l.slot delta

/-- A fresh label. -/
def newLabel : Emit Nat :=
  modifyGet fun s =>
    let (l, code) := s.body.code.newLabel
    (l, { s with body := { s.body with code := code } })

/-- A branch to a label. -/
def jump (o : Opcode) (l : Nat) : Emit Unit := onCode fun c => c.jump o l

/-- Gives a label its place. -/
def bindLabel (l : Nat) : Emit Unit := onCode fun c => c.bind l

/-- An access to a static field. -/
def getStatic (owner name desc : String) : Emit Unit :=
  onPool fun p c => c.field p .getStatic owner name desc

/-- A call of a static method. -/
def callStatic (owner name desc : String) : Emit Unit :=
  onPool fun p c => c.invoke p .invokeStatic owner name desc

/-- A call of a method. -/
def callVirtual (owner name desc : String) : Emit Unit :=
  onPool fun p c => c.invoke p .invokeVirtual owner name desc

/-- A call of a constructor. -/
def callInit (owner desc : String) : Emit Unit :=
  onPool fun p c => c.invoke p .invokeSpecial owner "<init>" desc

/-- A call of a method of an interface. -/
def callInterface (owner name desc : String) : Emit Unit :=
  onPool fun p c => c.invoke p .invokeInterface owner name desc

/-- An instruction on a class. -/
def onClass (o : Opcode) (name : String) : Emit Unit := onPool fun p c => c.typeOp p o name

/-- Throws an exception with a message. -/
def throwNew (cls message : String) : Emit Unit := do
  onClass .newObject cls
  op .dup
  pushString message
  callInit cls (Jvm.method [Jvm.reference Jvm.string] "V")
  op .athrow

/-! ## Types, symbols and slots -/

/-- The type of an expression. -/
def typeOf (e : Expr) : Emit Ty :=
  match e.recorded? with
  | some t => pure t
  | none => reject (.noType e.kind) e.tok

/-- The symbol of a name. -/
def symbolOf (id : Ident) : Emit Symbol :=
  match id.sym with
  | some sym => pure sym
  | none => reject (.unresolved id.name) id.tok

/-- A slot without a name. -/
def scratch (ty : Ty) (tok : Token) : Emit Local := do
  let next := (← get).body.next
  if 65535 < next then reject .manyLocals tok
  modify fun s => { s with body := { s.body with next := next + 1 } }
  return ⟨next, ty⟩

/-- The slot of a symbol in this method, if it has one. -/
def slot? (sym : Symbol) : Emit (Option Local) := do return (← get).body.slots[sym.id]?

/-- A slot for a symbol. -/
def declare (sym : Symbol) (tok : Token) : Emit Local := do
  if (← slot? sym).isSome then reject (.hasSlot sym.name) tok
  let l ← scratch sym.ty tok
  modify fun s => { s with body := { s.body with slots := s.body.slots.insert sym.id l } }
  return l

/-- The slot of a variable. -/
def variableOf (id : Ident) : Emit Local := do
  match ← slot? (← symbolOf id) with
  | some l => return l
  | none => reject (.noSlot id.name) id.tok

/-! ## Methods -/

/-- The name of the method that runs the program. -/
def entryName : String := "main"

/-- The name of the method of the script. -/
def scriptName : String := "runScript"

/-- The name of the method of a function, which must not be one of those above. -/
def methodName (name : String) : String :=
  if name = entryName ∨ name = scriptName then name ++ "$" else name

/-- The name of the method of a declared function; there is none for any other name. -/
def methodOf (name : String) : Emit String := do
  return if (← read).declared.contains name then methodName name else ""

/-- Slots for the parameters of a method, which are reported at a token. -/
def declareParams (tok : Token) : List (Option Symbol) → Emit Unit
  | [] => return ()
  | none :: _ => reject .paramUnresolved tok
  | some sym :: rest => do
    let _ ← declare sym tok
    declareParams tok rest

/-- The last checks of a method. -/
def finish (tok : Token) : Emit Unit := do
  onCode fun c => c.finish (List.range c.labels.size)
  match (← code).error with
  | some e => reject (.build e) tok
  | none => return ()

/-- Writes the method of a header with the given steps; the method around it goes on afterwards. -/
def inMethod (access : Access) (name desc : String) (tok : Token) (steps : Emit Unit) :
    Emit Unit := do
  let i := (← get).methods.size
  match pushMethod (← get).methods access name desc with
  | .error e => reject (.build e) tok
  | .ok methods =>
    let outer := (← get).body
    let fresh := (methods.back?.map Method.code).getD (.start 0)
    modify fun s => { s with methods := methods, body := .start fresh }
    steps
    modify fun s =>
      { s with
        methods := s.methods.modify i fun m => { m with code := s.body.code }
        body := outer }

/-- A method that no part of the program stands for. -/
def plainMethod (access : Access) (name desc : String) (steps : Emit Unit) : Emit Unit :=
  inMethod access name desc .absent do
    steps
    finish .absent

/-- The steps of a method with parameters and a result. A method whose end can be reached returns
there, or fails if it lacks a result. -/
def routine (params : List (Option Symbol)) (result : Ty) (close : Token) (steps : Emit Unit) :
    Emit Unit := do
  declareParams close params
  withReader (fun env => { env with result := result, loop := none }) steps
  if (← code).reachable then
    if result = .unit then op .vreturn else throwNew Jvm.illegalState "missing return"
  finish close

/-- The method of a function or lambda. -/
def method (access : List Access) (name : String) (types : List Ty) (result : Ty) (tok : Token)
    (params : List (Option Symbol)) (close : Token) (steps : Emit Unit) : Emit Unit := do
  if EmitError.maxParameters < types.length then
    reject (.manyParameters name types.length) tok
  inMethod (.all access) name (methodDescriptor types (some result)) tok
    (routine params result close steps)

/-! ## Conversions -/

/-- Turns a plain value into an object. -/
def box (t : Ty) : Emit Unit :=
  if t = .int then
    callStatic Jvm.integer "valueOf" (Jvm.method ["I"] (Jvm.reference Jvm.integer))
  else if t = .boolean then
    callStatic Jvm.boolean "valueOf" (Jvm.method ["Z"] (Jvm.reference Jvm.boolean))
  else pure ()

/-- Turns an object into a value of a type. -/
def unbox (t : Ty) : Emit Unit :=
  if t = .int then do
    onClass .checkCast Jvm.integer
    callVirtual Jvm.integer "intValue" "()I"
  else if t = .boolean then do
    onClass .checkCast Jvm.boolean
    callVirtual Jvm.boolean "booleanValue" "()Z"
  else if t = .any then pure ()
  else onClass .checkCast t.castName

/-- Turns a value of one type into a value of another: only going to `Any` does anything. -/
def coerce (source target : Ty) : Emit Unit := if target = .any then box source else pure ()

/-- Takes a list and an index, and leaves the element as a value of a type. -/
def listGet (element : Ty) : Emit Unit := do
  callInterface Jvm.list "get" (Jvm.method ["I"] (Jvm.reference Jvm.object))
  unbox element

/-- Takes a list, an index and an object, and puts the object there. -/
def listSet : Emit Unit := do
  let object := Jvm.reference Jvm.object
  callInterface Jvm.list "set" (Jvm.method ["I", object] object)
  op .pop

/-- Takes a list and an object, and adds the object. -/
def listAdd : Emit Unit := do
  callInterface Jvm.list "add" (Jvm.method [Jvm.reference Jvm.object] "Z")
  op .pop

/-- Takes a size and leaves an array of so many elements. -/
def newArray : Scalar → Emit Unit
  | .int => onCode fun c => c.newArray intElements
  | .boolean => onCode fun c => c.newArray booleanElements
  | .string => onClass .anewArray Jvm.string
  | _ => onClass .anewArray Jvm.object

/-- Takes a size and leaves a list with room for so many elements. -/
def newList : Emit Unit := do
  onClass .newObject Jvm.arrayList
  op .dupX1
  op .swap
  callInit Jvm.arrayList "(I)V"

/-- Leaves a handle to a method of this class. -/
def methodHandle (name desc : String) : Emit Unit := do
  callStatic Jvm.methodHandles "lookup" (Jvm.method [] (Jvm.reference Jvm.lookup))
  pushClass (← read).unit
  pushString name
  pushString desc
  op .aconstNull
  let string := Jvm.reference Jvm.string
  let type := Jvm.reference Jvm.methodType
  callStatic Jvm.methodType "fromMethodDescriptorString"
    (Jvm.method [string, Jvm.reference "java/lang/ClassLoader"] type)
  callVirtual Jvm.lookup "findStatic"
    (Jvm.method [Jvm.reference "java/lang/Class", string, type] (Jvm.reference Jvm.methodHandle))

end Emit

end Kotlet

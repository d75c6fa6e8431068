import Kotlet.ClassFile.Code

/-!
# Class files

* `Access` : the access flags;
* `Method` : a method with its body;
* `ClassFile` : a class that is being put together;
* `ClassFile.addMethod` : one method more;
* `ClassFile.serialize` : the bytes of the class.

Writing a class may add constants to its pool; writing it again adds none.
-/

namespace Kotlet

namespace ClassFile

/-- The access flags. -/
structure Access where
  /-- The bits. -/
  bits : UInt16
  deriving DecidableEq, Inhabited

namespace Access

/-- Visible everywhere. -/
def isPublic : Access := ⟨0x0001⟩
/-- Visible in the class alone. -/
def isPrivate : Access := ⟨0x0002⟩
/-- Without an object. -/
def isStatic : Access := ⟨0x0008⟩
/-- The way calls of inherited methods are resolved. -/
def isSuper : Access := ⟨0x0020⟩
/-- Not written in the source. -/
def isSynthetic : Access := ⟨0x1000⟩

/-- Several flags. -/
def all (flags : List Access) : Access := ⟨flags.foldl (fun bits a => bits ||| a.bits) 0⟩

/-- Whether a flag is set. -/
def has (a flag : Access) : Bool := a.bits &&& flag.bits != 0

end Access

/-- A method with its body. -/
structure Method where
  /-- The access flags. -/
  access : Access
  /-- The name. -/
  name : String
  /-- The type. -/
  desc : String
  /-- The body. -/
  code : Code
  deriving Inhabited

end ClassFile

/-- A class that is being put together. -/
structure ClassFile where
  /-- The version of the format. -/
  major : UInt16
  /-- The name of the class. -/
  name : String
  /-- The name of the class above it. -/
  super : String
  /-- The source file; empty when it is not told. -/
  sourceFile : String
  /-- The constants. -/
  pool : ClassFile.Pool
  /-- The methods. -/
  methods : Array ClassFile.Method
  deriving Inhabited

namespace ClassFile

/-- A public class without methods. -/
def start (name super : String) (major : UInt16) : ClassFile :=
  ⟨major, name, super, "", .empty, #[]⟩

/-- One method more, with an empty body that has room for its arguments. -/
def pushMethod (methods : Array Method) (access : Access) (name desc : String) :
    Except BuildError (Array Method) :=
  if methods.any fun m => m.name == name && m.desc == desc then
    .error (.duplicateMethod name desc)
  else
    match descriptorSlots? desc with
    | none => .error (.badDescriptor desc)
    | some (args, _) =>
      let args := if access.has .isStatic then args else args + 1
      .ok (methods.push ⟨access, name, desc, .start args⟩)

/-- The class with one method more. -/
def addMethod (c : ClassFile) (access : Access) (name desc : String) :
    Except BuildError ClassFile :=
  (pushMethod c.methods access name desc).map fun methods => { c with methods := methods }

/-- The first method of a name. -/
def method? (c : ClassFile) (name : String) : Option Method :=
  c.methods.find? fun m => m.name == name

/-- The names and types of some methods as constants, in order. -/
def Pool.methodNames (p : Pool) : List Method → List (UInt16 × UInt16) × Pool
  | [] => ([], p)
  | m :: ms =>
    let (i, p) := p.utf8 m.name
    let (j, p) := p.utf8 m.desc
    let (rest, p) := p.methodNames ms
    ((i, j) :: rest, p)

/-- Appends bytes. -/
def appendBytes (out : Array UInt8) (bs : List UInt8) : Array UInt8 := bs.foldl Array.push out

/-- Appends the constants of a pool. -/
def appendPool (out : Array UInt8) (p : Pool) : Array UInt8 :=
  p.entries.foldl (fun out c => appendBytes (out.push c.tag) c.payload)
    (appendBytes out (bytes2 (UInt16.ofNat p.size)))

/-- Appends a method whose name, type and `Code` attribute have the given indices. -/
def appendMethod (out : Array UInt8) (m : Method) (name desc codeName : UInt16) : Array UInt8 :=
  let size := UInt32.ofNat m.code.size
  let out := appendBytes out
    (bytes2 m.access.bits ++ bytes2 name ++ bytes2 desc ++ bytes2 1 ++ bytes2 codeName
      ++ bytes4 (12 + size) ++ bytes2 (UInt16.ofNat m.code.maxStack)
      ++ bytes2 (UInt16.ofNat m.code.maxLocals) ++ bytes4 size)
  appendBytes (out ++ m.code.bytes) (bytes2 0 ++ bytes2 0)

/-- Appends methods with the indices of their names and types; a body with a failure stops it. -/
def appendMethods (codeName : UInt16) (out : Array UInt8) :
    List (Method × UInt16 × UInt16) → Except BuildError (Array UInt8)
  | [] => .ok out
  | (m, name, desc) :: rest =>
    match m.code.error with
    | some e => .error (.inMethod m.name e)
    | none => appendMethods codeName (appendMethod out m name desc codeName) rest

/-- The bytes of the class, and the class with the constants that writing it added. -/
def serialize (c : ClassFile) : Except BuildError (Array UInt8) × ClassFile :=
  let (this, p) := c.pool.classRef c.name
  let (super, p) := p.classRef c.super
  let (codeName, p) := p.utf8 "Code"
  let (names, p) := p.methodNames c.methods.toList
  let hasSource := c.sourceFile ≠ ""
  let (sourceName, p) := if hasSource then p.utf8 "SourceFile" else (0, p)
  let (sourceValue, p) := if hasSource then p.utf8 c.sourceFile else (0, p)
  let bytes :=
    match p.error with
    | some e => .error e
    | none => do
      let out := appendBytes #[] (bytes4 0xcafebabe ++ bytes2 0 ++ bytes2 c.major)
      let flags := Access.all [.isPublic, .isSuper]
      let out := appendBytes (appendPool out p)
        (bytes2 flags.bits ++ bytes2 this ++ bytes2 super ++ bytes2 0 ++ bytes2 0
          ++ bytes2 (UInt16.ofNat c.methods.size))
      let out ← appendMethods codeName out (c.methods.toList.zip names)
      let source :=
        if hasSource then bytes2 1 ++ bytes2 sourceName ++ bytes4 2 ++ bytes2 sourceValue
        else bytes2 0
      return appendBytes out source
  (bytes, { c with pool := p })

/-- The bytes of the class. -/
def bytes (c : ClassFile) : Except BuildError (Array UInt8) := c.serialize.1

end ClassFile

end Kotlet

import Kotlet.ClassFile
import Kotlet.Decimal.Shortest

/-!
# Reading class files

* `ParsedClass.Entry` : a constant as it is read, with the text shown for it;
* `ReadError` : why some bytes are no class file;
* `Cursor` : a place in some bytes; reading past their end gives zeros and is remembered;
* `ParsedClass.parse` : the class that some bytes hold, all of them.
-/

namespace Kotlet

namespace ParsedClass

/-- A constant as it is read. -/
inductive Entry where
  /-- No constant: index 0, and the index after a constant of two. -/
  | unused
  /-- A text. -/
  | utf8 (s : String)
  /-- A number. -/
  | integer (n : Int32)
  /-- A float by its bits. -/
  | float (bits : UInt32)
  /-- A long number, which takes two indices. -/
  | long (n : Int64)
  /-- A double by its bits, which takes two indices. -/
  | double (bits : UInt64)
  /-- A class. -/
  | classRef (name : UInt16)
  /-- A string. -/
  | string (text : UInt16)
  /-- A field. -/
  | fieldRef (owner member : UInt16)
  /-- A method. -/
  | methodRef (owner member : UInt16)
  /-- A method of an interface. -/
  | interfaceMethodRef (owner member : UInt16)
  /-- A name with a type. -/
  | nameAndType (name type : UInt16)
  /-- A method handle. -/
  | methodHandle (kind member : UInt16)
  /-- The type of a method. -/
  | methodType (type : UInt16)
  /-- A constant that is computed. -/
  | dynamic (bootstrap member : UInt16)
  /-- A call site that is computed. -/
  | invokeDynamic (bootstrap member : UInt16)
  /-- A module. -/
  | moduleRef (name : UInt16)
  /-- A package. -/
  | packageRef (name : UInt16)
  deriving DecidableEq, Inhabited

namespace Entry

/-- The tag of a constant. -/
def tag : Entry → Nat
  | unused => 0
  | utf8 _ => 1
  | integer _ => 3
  | float _ => 4
  | long _ => 5
  | double _ => 6
  | classRef _ => 7
  | string _ => 8
  | fieldRef _ _ => 9
  | methodRef _ _ => 10
  | interfaceMethodRef _ _ => 11
  | nameAndType _ _ => 12
  | methodHandle _ _ => 15
  | methodType _ => 16
  | dynamic _ _ => 17
  | invokeDynamic _ _ => 18
  | moduleRef _ => 19
  | packageRef _ => 20

/-- The indices that a constant holds; one that it lacks is 0. -/
def refs : Entry → UInt16 × UInt16
  | classRef i | string i | methodType i | moduleRef i | packageRef i => (i, 0)
  | fieldRef i j | methodRef i j | interfaceMethodRef i j | nameAndType i j | methodHandle i j
  | dynamic i j | invokeDynamic i j => (i, j)
  | _ => (0, 0)

/-- Whether a constant takes two indices. -/
def isWide : Entry → Bool
  | long _ => true
  | double _ => true
  | _ => false

end Entry

end ParsedClass

/-- Why there is no class, or no listing of one, for some bytes. -/
inductive ReadError where
  /-- They start with something else. -/
  | badMagic (magic : Nat)
  /-- They end too early. -/
  | truncated
  /-- A text that cannot be decoded, at a byte of it. -/
  | badText (index offset : Nat)
  /-- A constant of an unknown kind. -/
  | unknownTag (index tag : Nat)
  /-- An index that leads to no constant of the wanted kind. -/
  | badReference (index : Nat)
  /-- A failure in a method. -/
  | inMethod (name : String) (reason : ReadError)
  /-- Bytes after the end of the class. -/
  | trailing (count : Nat)
  /-- An opcode that does not exist. -/
  | unknownOpcode (byte offset : Nat)
  /-- An instruction without its operands. -/
  | truncatedInstruction (mnemonic : String) (offset : Nat)
  /-- A byte that the body of a method does not have was asked for. -/
  | outside (pos length : Nat)
  /-- Nothing failed, but the text of a constant was asked for that has no end: its references go round
  in a circle. -/
  | endless (index : Nat)
  deriving DecidableEq, Inhabited

/-- The message of a failure. -/
def ReadError.message : ReadError → String
  | badMagic n => "not a class file: magic 0x" ++ hexNat n
  | truncated => "truncated class file"
  | badText i n =>
    "constant " ++ toString i ++ ": " ++ ModifiedUtf8.malformed n
  | unknownTag i t => "constant " ++ toString i ++ ": unknown tag " ++ toString t
  | badReference i => "bad constant pool reference #" ++ toString i
  | inMethod name e => "method " ++ name ++ ": " ++ e.message
  | trailing n => toString n ++ " trailing bytes after class file"
  | unknownOpcode b n => "unknown opcode 0x" ++ hexNat b ++ " at offset " ++ toString n
  | truncatedInstruction m n => "truncated " ++ m ++ " at offset " ++ toString n
  | outside i n => "index out of range [" ++ toString i ++ "] with length " ++ toString n
  | endless i => "constant #" ++ toString i ++ " refers to itself"

namespace ParsedClass

/-! ## Cursors -/

/-- A place in some bytes. -/
structure Cursor where
  /-- The bytes. -/
  data : Array UInt8
  /-- How many of them were read. -/
  pos : Nat
  /-- Whether nobody tried to read past the end so far. -/
  ok : Bool

/-- Steps of reading. -/
abbrev Reader := StateT Cursor (Except ReadError)

/-- The next `n` bytes; none if there are not so many left or there were too few before. -/
def take? (n : Nat) : Reader (Option (Array UInt8)) := do
  let c ← get
  if !c.ok then return none
  if c.data.size < c.pos + n then
    set { c with ok := false }
    return none
  set { c with pos := c.pos + n }
  return some (c.data.extract c.pos (c.pos + n))

/-- The number that some bytes spell, the highest one first. -/
def bigEndian (bytes : Array UInt8) : Nat := bytes.foldl (fun n b => n * 256 + b.toNat) 0

/-- A number of `n` bytes, or zero past the end. -/
def number (n : Nat) : Reader Nat := do return ((← take? n).map bigEndian).getD 0

/-- A number of one byte. -/
def u1 : Reader UInt8 := do return UInt8.ofNat (← number 1)
/-- A number of two bytes. -/
def u2 : Reader UInt16 := do return UInt16.ofNat (← number 2)
/-- A number of four bytes. -/
def u4 : Reader UInt32 := do return UInt32.ofNat (← number 4)
/-- A number of eight bytes, read in two halves. -/
def u8 : Reader UInt64 := do
  let high ← number 4
  let low ← number 4
  return UInt64.ofNat ((high <<< 32) + low)

/-- Whether nobody tried to read past the end. -/
def intact : Reader Bool := do return (← get).ok

/-- Fails if somebody tried to read past the end. -/
def requireIntact : Reader Unit := do if !(← intact) then throw .truncated

/-- Runs a step `n` times, or until the bytes are used up; `acc` holds the results before, the last
one first. -/
def times {α : Type} (step : Reader α) : Nat → List α → Reader (List α)
  | 0, acc => return acc.reverse
  | n + 1, acc => do
    if ← intact then times step n ((← step) :: acc) else return acc.reverse

/-! ## Constants -/

/-- The constant at an index. -/
def readEntry (index : Nat) : Reader Entry := do
  let tag ← u1
  match tag.toNat with
  | 1 =>
    let length ← u2
    match ModifiedUtf8.decode ((← take? length.toNat).getD #[]) with
    | .ok s => return .utf8 s
    | .error n => throw (.badText index n)
  | 3 => return .integer (← u4).toInt32
  | 4 => return .float (← u4)
  | 5 => return .long (← u8).toInt64
  | 6 => return .double (← u8)
  | 7 => return .classRef (← u2)
  | 8 => return .string (← u2)
  | 9 => let i ← u2; return .fieldRef i (← u2)
  | 10 => let i ← u2; return .methodRef i (← u2)
  | 11 => let i ← u2; return .interfaceMethodRef i (← u2)
  | 12 => let i ← u2; return .nameAndType i (← u2)
  | 15 => let i ← u1; return .methodHandle i.toUInt16 (← u2)
  | 16 => return .methodType (← u2)
  | 17 => let i ← u2; return .dynamic i (← u2)
  | 18 => let i ← u2; return .invokeDynamic i (← u2)
  | 19 => return .moduleRef (← u2)
  | 20 => return .packageRef (← u2)
  | n =>
    requireIntact
    throw (.unknownTag index n)

/-- Reads constants until `pool` has `count` entries; there are `turns` of them at most. -/
def readEntries (count : Nat) : Nat → Array Entry → Reader (Array Entry)
  | 0, pool => return pool
  | turns + 1, pool => do
    if count ≤ pool.size then return pool
    let e ← readEntry pool.size
    let pool := pool.push e
    readEntries count turns (if e.isWide && pool.size < count then pool.push .unused else pool)

/-- The pool; its first entry is unused. -/
def readPool : Reader (Array Entry) := do
  let count := (← u2).toNat
  let pool ← readEntries count count (if count = 0 then #[] else #[.unused])
  requireIntact
  return pool

/-- The text at an index. -/
def textAt (pool : Array Entry) (i : UInt16) : Except ReadError String :=
  match pool.getD i.toNat .unused with
  | .utf8 s => .ok s
  | _ => .error (.badReference i.toNat)

/-- The name of the class at an index. -/
def classAt (pool : Array Entry) (i : UInt16) : Except ReadError String :=
  match pool.getD i.toNat .unused with
  | .classRef name => textAt pool name
  | _ => .error (.badReference i.toNat)

/-! ## Members -/

/-- The body of a method. -/
structure Body where
  /-- The height of the operand stack. -/
  maxStack : UInt16
  /-- The number of local variables. -/
  maxLocals : UInt16
  /-- The instructions. -/
  code : Array UInt8
  deriving Inhabited

/-- A field or method. -/
structure Member where
  /-- The access flags. -/
  access : ClassFile.Access
  /-- The name. -/
  name : String
  /-- The type. -/
  desc : String
  /-- The body, if it has one. -/
  body : Option Body
  deriving Inhabited

/-- The body that an attribute holds. -/
def parseBody (data : Array UInt8) : Except ReadError Body := do
  let step : Reader Body := do
    let stack ← u2
    let locals ← u2
    let size ← u4
    let code ← take? size.toNat
    requireIntact
    return ⟨stack, locals, code.getD #[]⟩
  let (body, _) ← step ⟨data, 0, true⟩
  return body

/-- An attribute: its name and its bytes, if they are all there. -/
def readAttribute (pool : Array Entry) : Reader (String × Option (Array UInt8)) := do
  let name ← textAt pool (← u2)
  let size ← u4
  return (name, ← take? size.toNat)

/-- The attribute `Code` of a member; the last one counts. -/
def bodyOf (member : String) : List (String × Option (Array UInt8)) → Except ReadError (Option Body)
  | [] => .ok none
  | (name, data) :: rest => do
    let here ←
      match data with
      | some data =>
        if name = "Code" then
          match parseBody data with
          | .ok b => pure (some b)
          | .error e => throw (.inMethod member e)
        else pure none
      | none => pure none
    return (← bodyOf member rest).or here

/-- An attribute of a member, with its body if it is one. -/
def readMemberAttribute (pool : Array Entry) (member : String) : Reader (Option Body) := do
  bodyOf member [← readAttribute pool]

/-- A field or method. -/
def readMember (pool : Array Entry) : Reader Member := do
  let access ← u2
  let name ← textAt pool (← u2)
  let desc ← textAt pool (← u2)
  let bodies ← times (readMemberAttribute pool name) (← u2).toNat []
  return ⟨⟨access⟩, name, desc, bodies.foldl (fun old new => new.or old) none⟩

/-- All fields, or all methods. -/
def readMembers (pool : Array Entry) : Reader (List Member) := do
  let members ← times (readMember pool) (← u2).toNat []
  requireIntact
  return members

/-- The source file that an attribute of the class tells. -/
def sourceOf (pool : Array Entry) (name : String) (data : Option (Array UInt8)) :
    Except ReadError (Option String) :=
  match data with
  | some data =>
    if name = "SourceFile" ∧ data.size = 2 then
      (textAt pool (UInt16.ofNat (bigEndian data))).map some
    else .ok none
  | none => .ok none

/-- An attribute of the class. -/
def readClassAttribute (pool : Array Entry) : Reader (Option String) := do
  let (name, data) ← readAttribute pool
  sourceOf pool name data

end ParsedClass

/-! ## Classes -/

/-- A class as it is read. -/
structure ParsedClass where
  /-- The minor version. -/
  minor : UInt16
  /-- The major version. -/
  major : UInt16
  /-- The constants by index. -/
  pool : Array ParsedClass.Entry
  /-- The access flags. -/
  access : ClassFile.Access
  /-- The name. -/
  name : String
  /-- The name of the class above it; empty when there is none. -/
  super : String
  /-- The names of the interfaces. -/
  interfaces : List String
  /-- The fields. -/
  fields : List ParsedClass.Member
  /-- The methods. -/
  methods : List ParsedClass.Member
  /-- The source file; empty when it is not told. -/
  sourceFile : String
  deriving Inhabited

namespace ParsedClass

/-- A whole class. -/
def readClass : Reader ParsedClass := do
  let magic ← u4
  if (← intact) && magic != 0xcafebabe then throw (.badMagic magic.toNat)
  let minor ← u2
  let major ← u2
  let pool ← readPool
  let access ← u2
  let name ← classAt pool (← u2)
  let superIndex ← u2
  let super ← if superIndex = 0 then pure "" else classAt pool superIndex
  let readInterface : Reader String := do classAt pool (← u2)
  let interfaces ← times readInterface (← u2).toNat []
  let fields ← readMembers pool
  let methods ← readMembers pool
  let sources ← times (readClassAttribute pool) (← u2).toNat []
  requireIntact
  let c ← get
  if c.pos ≠ c.data.size then throw (.trailing (c.data.size - c.pos))
  return ⟨minor, major, pool, ⟨access⟩, name, super, interfaces, fields, methods,
    (sources.foldl (fun old new => new.or old) none).getD ""⟩

/-- The class that some bytes hold. -/
def parse (data : Array UInt8) : Except ReadError ParsedClass := do
  let (c, _) ← readClass ⟨data, 0, true⟩
  return c

/-- The first method of a name. -/
def method? (c : ParsedClass) (name : String) : Option Member :=
  c.methods.find? fun m => m.name == name

/-- The text shown for the constant at an index, if there are fewer than `depth` references inside each
other on the way. -/
@[grind =] def constantWithin (pool : Array Entry) : Nat → UInt16 → Option String
  | 0, _ => none
  | depth + 1, i =>
    match pool.getD i.toNat .unused with
    | .unused => some ("#" ++ toString i.toNat)
    | .utf8 s => some s
    | .integer n => some (toString n.toInt)
    | .long n => some (toString n.toInt)
    | .float bits => some (floatText bits)
    | .double bits => some (doubleText bits)
    | .classRef a | .moduleRef a | .packageRef a | .methodType a => constantWithin pool depth a
    | .string a => (constantWithin pool depth a).map quote
    | .fieldRef a b | .methodRef a b | .interfaceMethodRef a b => do
      return (← constantWithin pool depth a) ++ "." ++ (← constantWithin pool depth b)
    | .nameAndType a b => do
      return (← constantWithin pool depth a) ++ ":" ++ (← constantWithin pool depth b)
    | .dynamic a b | .invokeDynamic a b =>
      (constantWithin pool depth b).map fun member => "#" ++ toString a.toNat ++ ":" ++ member
    | .methodHandle a b =>
      (constantWithin pool depth b).map fun member => toString a.toNat ++ ":" ++ member

/-- The text shown for the constant at an index, if it has an end. References that do not go round in a
circle pass every constant once at most. -/
def constant? (c : ParsedClass) (i : UInt16) : Option String :=
  constantWithin c.pool (c.pool.size + 1) i

/-- Shows the constant at an index. -/
def constant (c : ParsedClass) (i : UInt16) : Except ReadError String :=
  match c.constant? i with
  | some s => .ok s
  | none => .error (.endless i.toNat)

end ParsedClass

end Kotlet

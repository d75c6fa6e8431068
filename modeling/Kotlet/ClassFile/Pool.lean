import Std.Data.HashMap
import Kotlet.ClassFile.Error
import Kotlet.ClassFile.ModifiedUtf8

/-!
# Constant pools

A class refers to its strings, numbers, classes and members by their index in one pool. A constant
is added at most once; asking for it again gives the index it has.

* `Constant` : an entry of a pool, with its bytes;
* `Pool` : the entries of a class so far, and the first failure;
* `Pool.add` : the index of a constant, which is 0 if there is no room for it;
* `Pool.utf8`, `Pool.classRef`, `Pool.methodRef` and their kin : the constants a class is made of.

Constants are found by the text they stand for. The text of a member is its parts put together with
a dot and a colon, so two members of one text share an entry.
-/

namespace Kotlet
namespace ClassFile

/-- A number in two bytes, the high one first. -/
def bytes2 (n : UInt16) : List UInt8 := [(n >>> 8).toUInt8, n.toUInt8]

/-- A number in four bytes, the highest one first. -/
def bytes4 (n : UInt32) : List UInt8 :=
  [(n >>> 24).toUInt8, (n >>> 16).toUInt8, (n >>> 8).toUInt8, n.toUInt8]

/-- An entry of a pool. -/
inductive Constant where
  /-- A text, encoded. -/
  | utf8 (bytes : Array UInt8)
  /-- A number. -/
  | integer (n : Int32)
  /-- A class by its name. -/
  | classRef (name : UInt16)
  /-- A string by its text. -/
  | string (text : UInt16)
  /-- A name with a type. -/
  | nameAndType (name type : UInt16)
  /-- A field by its class and its name with type. -/
  | fieldRef (owner member : UInt16)
  /-- A method. -/
  | methodRef (owner member : UInt16)
  /-- A method of an interface. -/
  | interfaceMethodRef (owner member : UInt16)
  deriving DecidableEq, Inhabited

namespace Constant

/-- The tag of an entry. -/
def tag : Constant → UInt8
  | utf8 _ => 1
  | integer _ => 3
  | classRef _ => 7
  | string _ => 8
  | fieldRef _ _ => 9
  | methodRef _ _ => 10
  | interfaceMethodRef _ _ => 11
  | nameAndType _ _ => 12

/-- The bytes of an entry after its tag. -/
def payload : Constant → List UInt8
  | utf8 bytes => bytes2 (UInt16.ofNat bytes.size) ++ bytes.toList
  | integer n => bytes4 n.toUInt32
  | classRef i => bytes2 i
  | string i => bytes2 i
  | nameAndType i j => bytes2 i ++ bytes2 j
  | fieldRef i j => bytes2 i ++ bytes2 j
  | methodRef i j => bytes2 i ++ bytes2 j
  | interfaceMethodRef i j => bytes2 i ++ bytes2 j

end Constant

/-- What a constant is found by: its tag and its text. -/
structure Pool.Key where
  /-- The tag. -/
  tag : UInt8
  /-- The text. -/
  text : Text
  deriving DecidableEq, Hashable, Inhabited

/-- The constants of a class. -/
structure Pool where
  /-- The entries; the first one has index 1. -/
  entries : Array Constant
  /-- Where to find them. -/
  index : Std.HashMap Pool.Key UInt16
  /-- The first failure. -/
  error : Option BuildError
  deriving Inhabited

namespace Pool

/-- A pool without constants. -/
def empty : Pool := ⟨#[], ∅, none⟩

/-- The number of indices, the unused index 0 included. -/
def size (p : Pool) : Nat := p.entries.size + 1

/-- Notes a failure, unless there was one before. -/
def fail (p : Pool) (e : BuildError) : Pool :=
  if p.error.isSome then p else { p with error := some e }

/-- The largest number of indices. -/
def maxSize : Nat := 65535

/-- The index of a constant, added if it is new. Without room for it the index is 0. -/
def add (p : Pool) (text : Text) (c : Constant) : UInt16 × Pool :=
  let key : Key := ⟨c.tag, text⟩
  match p.index[key]? with
  | some i => (i, p)
  | none =>
    if maxSize ≤ p.size then (0, p.fail .tooManyConstants)
    else
      let i := UInt16.ofNat p.size
      (i, { p with entries := p.entries.push c, index := p.index.insert key i })

/-- A text. -/
def utf8 (p : Pool) (t : Text) : UInt16 × Pool :=
  let bytes := ModifiedUtf8.encode t
  if 65535 < bytes.size then (0, p.fail (.longString bytes.size)) else p.add t (.utf8 bytes)

/-- A number. -/
def integer (p : Pool) (n : Int32) : UInt16 × Pool := p.add (toString n.toInt) (.integer n)

/-- A class by its internal name. -/
def classRef (p : Pool) (name : String) : UInt16 × Pool :=
  let (i, p) := p.utf8 name
  p.add name (.classRef i)

/-- A string. -/
def string (p : Pool) (t : Text) : UInt16 × Pool :=
  let (i, p) := p.utf8 t
  p.add t (.string i)

/-- A name with a type. -/
def nameAndType (p : Pool) (name desc : String) : UInt16 × Pool :=
  let (i, p) := p.utf8 name
  let (j, p) := p.utf8 desc
  p.add (name ++ ":" ++ desc) (.nameAndType i j)

/-- A member of a class. -/
def member (p : Pool) (make : UInt16 → UInt16 → Constant) (owner name desc : String) :
    UInt16 × Pool :=
  let (i, p) := p.classRef owner
  let (j, p) := p.nameAndType name desc
  p.add (owner ++ "." ++ name ++ ":" ++ desc) (make i j)

/-- A field. -/
def fieldRef (p : Pool) (owner name desc : String) : UInt16 × Pool :=
  p.member .fieldRef owner name desc

/-- A method. -/
def methodRef (p : Pool) (owner name desc : String) : UInt16 × Pool :=
  p.member .methodRef owner name desc

/-- A method of an interface. -/
def interfaceMethodRef (p : Pool) (owner name desc : String) : UInt16 × Pool :=
  p.member .interfaceMethodRef owner name desc

end Pool

end ClassFile
end Kotlet

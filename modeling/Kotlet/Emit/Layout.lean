import Kotlet.ClassFile.Code
import Kotlet.Operator
import Kotlet.Ty

/-!
# How values are laid out in a class

Numbers and truth values are plain ints, texts and arrays are those of the machine, lists are
`java.util.List`, and functions are method handles. A value of type `Any` is an object.

* the names of the classes that generated code uses;
* `Ty.descriptor`, `methodDescriptor` : types as they stand in a class;
* `Ty.localKind`, `Ty.returnOp`, `arrayLoadOp`, `arrayStoreOp` : the instructions for a type;
* `Ty.printDescriptor` : the type as which a value is printed;
* `Ty.needsShow` : whether printing a value has to look at its class;
* `ArithOp.opcode`, `CompareOp.intBranch`, `CompareOp.zeroBranch` : the instructions of operators.
-/

namespace Kotlet

open ClassFile

namespace Jvm

/-- The class of all objects. -/
def object : String := "java/lang/Object"
/-- The class of texts. -/
def string : String := "java/lang/String"
/-- The class of boxed numbers. -/
def integer : String := "java/lang/Integer"
/-- The class of boxed truth values. -/
def boolean : String := "java/lang/Boolean"
/-- The interface of lists. -/
def list : String := "java/util/List"
/-- The class of the lists that programs make. -/
def arrayList : String := "java/util/ArrayList"
/-- The class that shows arrays. -/
def arrays : String := "java/util/Arrays"
/-- The class that holds the standard output. -/
def system : String := "java/lang/System"
/-- The class of the standard output. -/
def printStream : String := "java/io/PrintStream"
/-- The class that puts texts together. -/
def stringBuilder : String := "java/lang/StringBuilder"
/-- The class of function values. -/
def methodHandle : String := "java/lang/invoke/MethodHandle"
/-- The class that makes function values. -/
def methodHandles : String := "java/lang/invoke/MethodHandles"
/-- The class that finds methods. -/
def lookup : String := "java/lang/invoke/MethodHandles$Lookup"
/-- The class of method types. -/
def methodType : String := "java/lang/invoke/MethodType"
/-- The exception for a missing result. -/
def illegalState : String := "java/lang/IllegalStateException"
/-- The exception for a bad step. -/
def illegalArgument : String := "java/lang/IllegalArgumentException"

/-- The descriptor of a class. -/
def reference (name : String) : String := "L" ++ name ++ ";"

/-- The descriptor of a method, from those of its parameters and result. -/
def method (params : List String) (result : String) : String :=
  "(" ++ String.join params ++ ")" ++ result

end Jvm

/-- The descriptor of a scalar; `Unit` has one as a result only. -/
def Scalar.descriptor : Scalar → String
  | .int => "I"
  | .boolean => "Z"
  | .string => Jvm.reference Jvm.string
  | .unit => "V"
  | .any => Jvm.reference Jvm.object
  | .unknown => Jvm.reference Jvm.object

namespace Ty

/-- The descriptor of a type. -/
def descriptor : Ty → String
  | .scalar s => s.descriptor
  | .array s => "[" ++ s.descriptor
  | .list _ => Jvm.reference Jvm.list
  | .fn _ _ => Jvm.reference Jvm.methodHandle

/-- The class to which an object of a type is cast. -/
def castName : Ty → String
  | .array s => "[" ++ s.descriptor
  | .list _ => Jvm.list
  | .fn _ _ => Jvm.methodHandle
  | .scalar s => if s = .string then Jvm.string else Jvm.object

/-- Whether values of the type are plain ints. -/
def isPrimitive (t : Ty) : Bool := t == .int || t == .boolean

/-- The form of a variable of the type. -/
def localKind (t : Ty) : LocalKind := if t.isPrimitive then .int else .ref

/-- The instruction that returns a value of the type. -/
def returnOp (t : Ty) : Opcode :=
  if t = .unit then .vreturn else if t.isPrimitive then .ireturn else .areturn

/-- The descriptor as which a value is printed. Arrays are shown before. -/
def printDescriptor : Ty → String
  | .scalar s => s.descriptor
  | .array _ => Jvm.reference Jvm.string
  | .list _ => Jvm.reference Jvm.object
  | .fn _ _ => Jvm.reference Jvm.object

/-- Whether printing a value of the type has to look at its class: it may be an array, or hold
one. -/
def needsShow : Ty → Bool
  | .scalar s => s == .any
  | .array s => s == .any
  | .list s => s == .any
  | .fn _ _ => false

end Ty

/-- The descriptor of a method of some types. -/
def methodDescriptor (params : List Ty) (result : Option Ty) : String :=
  Jvm.method (params.map Ty.descriptor) (result.getD .unit).descriptor

/-- The instruction that loads an element. -/
def arrayLoadOp : Scalar → Opcode
  | .int => .iaload
  | .boolean => .baload
  | _ => .aaload

/-- The instruction that stores an element. -/
def arrayStoreOp : Scalar → Opcode
  | .int => .iastore
  | .boolean => .bastore
  | _ => .aastore

/-- The type of the method that shows an array of some elements. -/
def arrayTextDescriptor (element : Scalar) : String :=
  let array :=
    match element with
    | .int => "[I"
    | .boolean => "[Z"
    | _ => "[" ++ Jvm.reference Jvm.object
  Jvm.method [array] (Jvm.reference Jvm.string)

/-- The instruction of an operation. -/
def ArithOp.opcode : ArithOp → Opcode
  | add => .iadd
  | sub => .isub
  | mul => .imul
  | div => .idiv
  | rem => .irem

/-- The branch on a comparison of two numbers. -/
def CompareOp.intBranch : CompareOp → Opcode
  | eq => .ifIcmpEq
  | ne => .ifIcmpNe
  | lt => .ifIcmpLt
  | le => .ifIcmpLe
  | gt => .ifIcmpGt
  | ge => .ifIcmpGe

/-- The branch on a comparison with zero. -/
def CompareOp.zeroBranch : CompareOp → Opcode
  | eq => .ifEq
  | ne => .ifNe
  | lt => .ifLt
  | le => .ifLe
  | gt => .ifGt
  | ge => .ifGe

end Kotlet

/-!
# Opcodes

* `Opcode` : the first byte of an instruction;
* `Opcode.mnemonic` : its name;
* `Opcode.effect?` : how it changes the height of the operand stack, where its operands do not
  matter;
* `Opcode.isBranch`, `Opcode.endsBlock` : how control goes on;
* `Opcode.negate` : the branch on the opposite condition.
-/

namespace Kotlet
namespace ClassFile

/-- The first byte of an instruction. -/
structure Opcode where
  /-- The byte. -/
  byte : UInt8
  deriving DecidableEq, Inhabited

namespace Opcode

/-- `nop`. -/
def nop : Opcode := ⟨0x00⟩
/-- `aconst_null`. -/
def aconstNull : Opcode := ⟨0x01⟩
/-- `iconst_m1`. -/
def iconstM1 : Opcode := ⟨0x02⟩
/-- `iconst_0`. -/
def iconst0 : Opcode := ⟨0x03⟩
/-- `iconst_1`. -/
def iconst1 : Opcode := ⟨0x04⟩
/-- `iconst_2`. -/
def iconst2 : Opcode := ⟨0x05⟩
/-- `iconst_3`. -/
def iconst3 : Opcode := ⟨0x06⟩
/-- `iconst_4`. -/
def iconst4 : Opcode := ⟨0x07⟩
/-- `iconst_5`. -/
def iconst5 : Opcode := ⟨0x08⟩
/-- `bipush`. -/
def bipush : Opcode := ⟨0x10⟩
/-- `sipush`. -/
def sipush : Opcode := ⟨0x11⟩
/-- `ldc`. -/
def ldc : Opcode := ⟨0x12⟩
/-- `ldc_w`. -/
def ldcW : Opcode := ⟨0x13⟩
/-- `iload`. -/
def iload : Opcode := ⟨0x15⟩
/-- `aload`. -/
def aload : Opcode := ⟨0x19⟩
/-- `iload_0`. -/
def iload0 : Opcode := ⟨0x1a⟩
/-- `aload_0`. -/
def aload0 : Opcode := ⟨0x2a⟩
/-- `iaload`. -/
def iaload : Opcode := ⟨0x2e⟩
/-- `aaload`. -/
def aaload : Opcode := ⟨0x32⟩
/-- `baload`. -/
def baload : Opcode := ⟨0x33⟩
/-- `istore`. -/
def istore : Opcode := ⟨0x36⟩
/-- `astore`. -/
def astore : Opcode := ⟨0x3a⟩
/-- `istore_0`. -/
def istore0 : Opcode := ⟨0x3b⟩
/-- `astore_0`. -/
def astore0 : Opcode := ⟨0x4b⟩
/-- `iastore`. -/
def iastore : Opcode := ⟨0x4f⟩
/-- `aastore`. -/
def aastore : Opcode := ⟨0x53⟩
/-- `bastore`. -/
def bastore : Opcode := ⟨0x54⟩
/-- `pop`. -/
def pop : Opcode := ⟨0x57⟩
/-- `pop2`. -/
def pop2 : Opcode := ⟨0x58⟩
/-- `dup`. -/
def dup : Opcode := ⟨0x59⟩
/-- `dup_x1`. -/
def dupX1 : Opcode := ⟨0x5a⟩
/-- `dup_x2`. -/
def dupX2 : Opcode := ⟨0x5b⟩
/-- `dup2`. -/
def dup2 : Opcode := ⟨0x5c⟩
/-- `dup2_x1`. -/
def dup2X1 : Opcode := ⟨0x5d⟩
/-- `dup2_x2`. -/
def dup2X2 : Opcode := ⟨0x5e⟩
/-- `swap`. -/
def swap : Opcode := ⟨0x5f⟩
/-- `iadd`. -/
def iadd : Opcode := ⟨0x60⟩
/-- `ladd`. -/
def ladd : Opcode := ⟨0x61⟩
/-- `isub`. -/
def isub : Opcode := ⟨0x64⟩
/-- `imul`. -/
def imul : Opcode := ⟨0x68⟩
/-- `idiv`. -/
def idiv : Opcode := ⟨0x6c⟩
/-- `irem`. -/
def irem : Opcode := ⟨0x70⟩
/-- `ineg`. -/
def ineg : Opcode := ⟨0x74⟩
/-- `ixor`. -/
def ixor : Opcode := ⟨0x82⟩
/-- `iinc`. -/
def iinc : Opcode := ⟨0x84⟩
/-- `i2l`. -/
def i2l : Opcode := ⟨0x85⟩
/-- `lcmp`. -/
def lcmp : Opcode := ⟨0x94⟩
/-- `ifeq`. -/
def ifEq : Opcode := ⟨0x99⟩
/-- `ifne`. -/
def ifNe : Opcode := ⟨0x9a⟩
/-- `iflt`. -/
def ifLt : Opcode := ⟨0x9b⟩
/-- `ifge`. -/
def ifGe : Opcode := ⟨0x9c⟩
/-- `ifgt`. -/
def ifGt : Opcode := ⟨0x9d⟩
/-- `ifle`. -/
def ifLe : Opcode := ⟨0x9e⟩
/-- `if_icmpeq`. -/
def ifIcmpEq : Opcode := ⟨0x9f⟩
/-- `if_icmpne`. -/
def ifIcmpNe : Opcode := ⟨0xa0⟩
/-- `if_icmplt`. -/
def ifIcmpLt : Opcode := ⟨0xa1⟩
/-- `if_icmpge`. -/
def ifIcmpGe : Opcode := ⟨0xa2⟩
/-- `if_icmpgt`. -/
def ifIcmpGt : Opcode := ⟨0xa3⟩
/-- `if_icmple`. -/
def ifIcmpLe : Opcode := ⟨0xa4⟩
/-- `if_acmpeq`. -/
def ifAcmpEq : Opcode := ⟨0xa5⟩
/-- `if_acmpne`. -/
def ifAcmpNe : Opcode := ⟨0xa6⟩
/-- `goto`. -/
def goto : Opcode := ⟨0xa7⟩
/-- `ireturn`. -/
def ireturn : Opcode := ⟨0xac⟩
/-- `areturn`. -/
def areturn : Opcode := ⟨0xb0⟩
/-- `return`. -/
def vreturn : Opcode := ⟨0xb1⟩
/-- `getstatic`. -/
def getStatic : Opcode := ⟨0xb2⟩
/-- `putstatic`. -/
def putStatic : Opcode := ⟨0xb3⟩
/-- `getfield`. -/
def getField : Opcode := ⟨0xb4⟩
/-- `putfield`. -/
def putField : Opcode := ⟨0xb5⟩
/-- `invokevirtual`. -/
def invokeVirtual : Opcode := ⟨0xb6⟩
/-- `invokespecial`. -/
def invokeSpecial : Opcode := ⟨0xb7⟩
/-- `invokestatic`. -/
def invokeStatic : Opcode := ⟨0xb8⟩
/-- `invokeinterface`. -/
def invokeInterface : Opcode := ⟨0xb9⟩
/-- `new`. -/
def newObject : Opcode := ⟨0xbb⟩
/-- `newarray`. -/
def newArray : Opcode := ⟨0xbc⟩
/-- `anewarray`. -/
def anewArray : Opcode := ⟨0xbd⟩
/-- `arraylength`. -/
def arrayLength : Opcode := ⟨0xbe⟩
/-- `athrow`. -/
def athrow : Opcode := ⟨0xbf⟩
/-- `checkcast`. -/
def checkCast : Opcode := ⟨0xc0⟩
/-- `instanceof`. -/
def instanceOf : Opcode := ⟨0xc1⟩
/-- `wide`. -/
def wide : Opcode := ⟨0xc4⟩
/-- `ifnull`. -/
def ifNull : Opcode := ⟨0xc6⟩
/-- `ifnonnull`. -/
def ifNonNull : Opcode := ⟨0xc7⟩

/-- The names of the opcodes, by number. -/
def mnemonics : Array String :=
  #["nop", "aconst_null", "iconst_m1", "iconst_0", "iconst_1", "iconst_2", "iconst_3", "iconst_4",
    "iconst_5", "lconst_0", "lconst_1", "fconst_0", "fconst_1", "fconst_2", "dconst_0",
    "dconst_1", "bipush", "sipush", "ldc", "ldc_w", "ldc2_w", "iload", "lload", "fload", "dload",
    "aload", "iload_0", "iload_1", "iload_2", "iload_3", "lload_0", "lload_1", "lload_2",
    "lload_3", "fload_0", "fload_1", "fload_2", "fload_3", "dload_0", "dload_1", "dload_2",
    "dload_3", "aload_0", "aload_1", "aload_2", "aload_3", "iaload", "laload", "faload", "daload",
    "aaload", "baload", "caload", "saload", "istore", "lstore", "fstore", "dstore", "astore",
    "istore_0", "istore_1", "istore_2", "istore_3", "lstore_0", "lstore_1", "lstore_2",
    "lstore_3", "fstore_0", "fstore_1", "fstore_2", "fstore_3", "dstore_0", "dstore_1",
    "dstore_2", "dstore_3", "astore_0", "astore_1", "astore_2", "astore_3", "iastore", "lastore",
    "fastore", "dastore", "aastore", "bastore", "castore", "sastore", "pop", "pop2", "dup",
    "dup_x1", "dup_x2", "dup2", "dup2_x1", "dup2_x2", "swap", "iadd", "ladd", "fadd", "dadd",
    "isub", "lsub", "fsub", "dsub", "imul", "lmul", "fmul", "dmul", "idiv", "ldiv", "fdiv",
    "ddiv", "irem", "lrem", "frem", "drem", "ineg", "lneg", "fneg", "dneg", "ishl", "lshl",
    "ishr", "lshr", "iushr", "lushr", "iand", "land", "ior", "lor", "ixor", "lxor", "iinc", "i2l",
    "i2f", "i2d", "l2i", "l2f", "l2d", "f2i", "f2l", "f2d", "d2i", "d2l", "d2f", "i2b", "i2c",
    "i2s", "lcmp", "fcmpl", "fcmpg", "dcmpl", "dcmpg", "ifeq", "ifne", "iflt", "ifge", "ifgt",
    "ifle", "if_icmpeq", "if_icmpne", "if_icmplt", "if_icmpge", "if_icmpgt", "if_icmple",
    "if_acmpeq", "if_acmpne", "goto", "jsr", "ret", "tableswitch", "lookupswitch", "ireturn",
    "lreturn", "freturn", "dreturn", "areturn", "return", "getstatic", "putstatic", "getfield",
    "putfield", "invokevirtual", "invokespecial", "invokestatic", "invokeinterface",
    "invokedynamic", "new", "newarray", "anewarray", "arraylength", "athrow", "checkcast",
    "instanceof", "monitorenter", "monitorexit", "wide", "multianewarray", "ifnull", "ifnonnull",
    "goto_w", "jsr_w"]

/-- Whether there is an instruction with this opcode. -/
def isKnown (op : Opcode) : Bool := op.byte.toNat < mnemonics.size

/-- The name of an opcode. -/
def mnemonic (op : Opcode) : String := mnemonics.getD op.byte.toNat "unknown"

/-- How many slots an instruction adds to the operand stack, for those that need no operands to
tell. -/
def effect? (op : Opcode) : Option Int :=
  match op.byte.toNat with
  | 0x4f | 0x53 | 0x54 | 0x94 => some (-3)
  | 0x58 | 0x61 | 0x9f | 0xa0 | 0xa1 | 0xa2 | 0xa3 | 0xa4 | 0xa5 | 0xa6 => some (-2)
  | 0x2e | 0x32 | 0x33 | 0x57 | 0x60 | 0x64 | 0x68 | 0x6c | 0x70 | 0x82 | 0x99 | 0x9a | 0x9b
  | 0x9c | 0x9d | 0x9e | 0xac | 0xb0 | 0xbf | 0xc6 | 0xc7 => some (-1)
  | 0x00 | 0x5f | 0x74 | 0xa7 | 0xb1 | 0xbc | 0xbd | 0xbe | 0xc0 | 0xc1 => some 0
  | 0x01 | 0x02 | 0x03 | 0x04 | 0x05 | 0x06 | 0x07 | 0x08 | 0x10 | 0x11 | 0x12 | 0x13 | 0x59
  | 0x5a | 0x5b | 0x85 | 0xbb => some 1
  | 0x5c | 0x5d | 0x5e => some 2
  | _ => none

/-- Whether the instruction holds a branch offset of 16 bits. -/
def isBranch (op : Opcode) : Bool :=
  (0x99 ≤ op.byte && op.byte ≤ 0xa8) || op == ifNull || op == ifNonNull

/-- Whether control never goes on after the instruction. -/
def endsBlock (op : Opcode) : Bool :=
  op == goto || op == ireturn || op == areturn || op == vreturn || op == athrow

/-- The branch on the opposite condition; what is no conditional branch stays. -/
def negate (op : Opcode) : Opcode :=
  if op == ifNull then ifNonNull
  else if op == ifNonNull then ifNull
  else if 0x99 ≤ op.byte && op.byte ≤ 0xa6 then
    -- The branches come in pairs of opposites, the first of which has an odd number.
    if op.byte % 2 == 1 then ⟨op.byte + 1⟩ else ⟨op.byte - 1⟩
  else op

end Opcode

/-- The code of `boolean` elements in `newarray`. -/
def booleanElements : UInt8 := 4

/-- The code of `int` elements in `newarray`. -/
def intElements : UInt8 := 10

end ClassFile
end Kotlet

import Kotlet.ClassFile.Parsed

/-!
# Instructions

* `Instruction` : an instruction with its place and its operands as text;
* `ParsedClass.decode` : the instruction at a place, and its size;
* `ParsedClass.instructions` : all instructions of a body;
* `ParsedClass.listing` : a class as text.
-/

namespace Kotlet

open ClassFile

/-- An instruction of a body. -/
structure Instruction where
  /-- Where it starts. -/
  offset : Nat
  /-- What it does. -/
  op : Opcode
  /-- Its operands as text; empty when there are none. -/
  operand : String
  deriving DecidableEq, Inhabited

/-- The text of an instruction. -/
def Instruction.text (i : Instruction) : String :=
  if i.operand = "" then i.op.mnemonic else i.op.mnemonic ++ " " ++ i.operand

namespace ParsedClass

/-! ## Bytes of a body -/

/-- The byte at a place. Whoever asks for one should know that it is there. -/
def byteAt (code : Array UInt8) (pos : Nat) : Except ReadError UInt8 :=
  match code[pos]? with
  | some b => .ok b
  | none => .error (.outside pos code.size)

/-- The number of `n` bytes at a place, the highest one first. -/
def unsignedAt (code : Array UInt8) (pos : Nat) : Nat → Except ReadError Nat
  | 0 => .ok 0
  | n + 1 => do
    let high ← unsignedAt code pos n
    return high * 256 + (← byteAt code (pos + n)).toNat

/-- The number with a sign of one byte at a place. -/
def signed1 (code : Array UInt8) (pos : Nat) : Except ReadError Int := do
  return (← byteAt code pos).toInt8.toInt
/-- The number with a sign of two bytes at a place. -/
def signed2 (code : Array UInt8) (pos : Nat) : Except ReadError Int := do
  return (UInt16.ofNat (← unsignedAt code pos 2)).toInt16.toInt
/-- The number with a sign of four bytes at a place. -/
def signed4 (code : Array UInt8) (pos : Nat) : Except ReadError Int := do
  return (UInt32.ofNat (← unsignedAt code pos 4)).toInt32.toInt

/-- Fails unless the body goes on up to a place. -/
def need (code : Array UInt8) (cut : ReadError) (stop : Nat) : Except ReadError Unit :=
  if code.size < stop then .error cut else .ok ()

/-- A number of four bytes, if the body has them. -/
def word (code : Array UInt8) (cut : ReadError) (pos : Nat) : Except ReadError Int := do
  need code cut (pos + 4)
  signed4 code pos

/-! ## Operands -/

/-- The name of the element type of `newarray`. -/
def elementTypeName (n : UInt8) : String :=
  match n.toNat with
  | 4 => "boolean"
  | 5 => "char"
  | 6 => "float"
  | 7 => "double"
  | 8 => "byte"
  | 9 => "short"
  | 10 => "int"
  | 11 => "long"
  | n => "type" ++ toString n

/-- The constant whose index stands at a place. -/
def operandConstant (c : ParsedClass) (code : Array UInt8) (pos : Nat) : Except ReadError String := do
  c.constant (UInt16.ofNat (← unsignedAt code pos 2))

/-- The form of the operands of an opcode. -/
inductive OperandForm where
  /-- No operands. -/
  | none
  /-- A number of one byte with a sign. -/
  | byte
  /-- A number of two bytes with a sign. -/
  | short
  /-- An element type. -/
  | elementType
  /-- The index of a constant in one byte. -/
  | shortConstant
  /-- A local variable. -/
  | slot
  /-- A local variable and what is added to it. -/
  | increment
  /-- A place that is two bytes away. -/
  | branch
  /-- A place that is four bytes away. -/
  | wideBranch
  /-- The index of a constant. -/
  | constant
  /-- The index of a constant and two more bytes. -/
  | paddedConstant
  /-- The index of a constant and a number of dimensions. -/
  | dimensions
  /-- Another instruction with wider operands. -/
  | wide
  /-- Places by consecutive keys. -/
  | tableSwitch
  /-- Places by keys. -/
  | lookupSwitch
  deriving DecidableEq, Inhabited

/-- The form of the operands of an opcode. -/
def operandForm (op : Opcode) : OperandForm :=
  let n := op.byte.toNat
  if n = 0x10 then .byte
  else if n = 0xbc then .elementType
  else if n = 0x11 then .short
  else if n = 0x12 then .shortConstant
  else if (0x15 ≤ n ∧ n ≤ 0x19) ∨ (0x36 ≤ n ∧ n ≤ 0x3a) ∨ n = 0xa9 then .slot
  else if n = 0x84 then .increment
  else if op.isBranch then .branch
  else if n = 0xc8 ∨ n = 0xc9 then .wideBranch
  else if n = 0x13 ∨ n = 0x14 ∨ (0xb2 ≤ n ∧ n ≤ 0xb8) ∨ n = 0xbb ∨ n = 0xbd ∨ n = 0xc0 ∨ n = 0xc1
  then .constant
  else if n = 0xb9 ∨ n = 0xba then .paddedConstant
  else if n = 0xc5 then .dimensions
  else if n = 0xc4 then .wide
  else if n = 0xaa then .tableSwitch
  else if n = 0xab then .lookupSwitch
  else .none

/-- The size of an instruction with operands of a fixed size. -/
def OperandForm.size? : OperandForm → Option Nat
  | none => some 1
  | byte | elementType | shortConstant | slot => some 2
  | short | increment | branch | constant => some 3
  | dimensions => some 4
  | wideBranch | paddedConstant => some 5
  | wide | tableSwitch | lookupSwitch => Option.none

/-- The place of the first operand of a switch: the next multiple of four. -/
def switchStart (offset : Nat) : Nat := (offset + 4) / 4 * 4

/-- The cases of a table from the key `k` on, `count` of them, whose first place stands at `pos`. -/
def tableCases (code : Array UInt8) (cut : ReadError) (offset : Nat) :
    Nat → Int → Nat → List String → Except ReadError (List String)
  | 0, _, _, acc => .ok acc.reverse
  | count + 1, k, pos, acc => do
    let target ← word code cut pos
    let entry := toString k ++ ":" ++ toString (offset + target)
    tableCases code cut offset count (k + 1) (pos + 4) (entry :: acc)

/-- The cases of a list of keys, `count` of them, whose first key stands at `pos`. -/
def lookupCases (code : Array UInt8) (cut : ReadError) (offset : Nat) :
    Nat → Nat → List String → Except ReadError (List String)
  | 0, _, acc => .ok acc.reverse
  | count + 1, pos, acc => do
    let key ← word code cut pos
    let target ← word code cut (pos + 4)
    let entry := toString key ++ ":" ++ toString (offset + target)
    lookupCases code cut offset count (pos + 8) (entry :: acc)

/-- The operands of a switch as text, and where they end. -/
def switchOperand (code : Array UInt8) (cut : ReadError) (offset : Nat) (isTable : Bool) :
    Except ReadError (String × Nat) := do
  let pos := switchStart offset
  let default := "default:" ++ toString (offset + (← word code cut pos))
  let text (cases : List String) : String := "\x7b" ++ " ".intercalate (cases ++ [default]) ++ "\x7d"
  if isTable then
    let low ← word code cut (pos + 4)
    let high ← word code cut (pos + 8)
    let count := (high - low + 1).toNat
    let cases ← tableCases code cut offset count low (pos + 12) []
    return (text cases, pos + 12 + 4 * count)
  else
    let count := (← word code cut (pos + 4)).toNat
    let cases ← lookupCases code cut offset count (pos + 8) []
    return (text cases, pos + 8 + 8 * count)

/-- The operands of `wide` as text, and the size of the instruction. -/
def wideOperand (code : Array UInt8) (cut : ReadError) (offset : Nat) :
    Except ReadError (String × Nat) := do
  need code cut (offset + 4)
  let inner : Opcode := ⟨← byteAt code (offset + 1)⟩
  let slot := toString (← unsignedAt code (offset + 2) 2)
  if inner = .iinc then
    need code cut (offset + 6)
    return ("iinc " ++ slot ++ " " ++ toString (← signed2 code (offset + 4)), 6)
  else return (inner.mnemonic ++ " " ++ slot, 4)

/-- The operands of a fixed size as text. -/
def fixedOperand (c : ParsedClass) (code : Array UInt8) (offset : Nat) :
    OperandForm → Except ReadError String
  | .byte => do return toString (← signed1 code (offset + 1))
  | .short => do return toString (← signed2 code (offset + 1))
  | .elementType => do return elementTypeName (← byteAt code (offset + 1))
  | .shortConstant => do c.constant (← byteAt code (offset + 1)).toUInt16
  | .slot => do return toString (← unsignedAt code (offset + 1) 1)
  | .increment => do
    let slot ← unsignedAt code (offset + 1) 1
    return toString slot ++ " " ++ toString (← signed1 code (offset + 2))
  | .branch => do return toString (offset + (← signed2 code (offset + 1)))
  | .wideBranch => do return toString (offset + (← signed4 code (offset + 1)))
  | .constant => c.operandConstant code (offset + 1)
  | .paddedConstant => c.operandConstant code (offset + 1)
  | .dimensions => do
    let array ← c.operandConstant code (offset + 1)
    return array ++ " " ++ toString (← unsignedAt code (offset + 3) 1)
  | _ => .ok ""

/-! ## Instructions of a body -/

/-- The instruction that starts at a place inside a body, and its size. -/
def decode (c : ParsedClass) (code : Array UInt8) (offset : Nat) :
    Except ReadError (Instruction × Nat) := do
  let op : Opcode := ⟨← byteAt code offset⟩
  let cut : ReadError := .truncatedInstruction op.mnemonic offset
  if !op.isKnown then throw (.unknownOpcode op.byte.toNat offset)
  let form := operandForm op
  match form.size? with
  | some size =>
    need code cut (offset + size)
    return (⟨offset, op, ← c.fixedOperand code offset form⟩, size)
  | none =>
    if form = .wide then
      let (operand, size) ← wideOperand code cut offset
      return (⟨offset, op, operand⟩, size)
    else
      let (operand, stop) ← switchOperand code cut offset (form == .tableSwitch)
      return (⟨offset, op, operand⟩, stop - offset)

/-- The instructions from a place on, after those in `acc`, the last one first. Every instruction
takes a byte at least, so there are at most as many as bytes. -/
def instructionsFrom (c : ParsedClass) (code : Array UInt8) :
    Nat → Nat → List Instruction → Except ReadError (List Instruction)
  | 0, _, acc => .ok acc.reverse
  | turns + 1, offset, acc =>
    if code.size ≤ offset then .ok acc.reverse
    else
      match c.decode code offset with
      | .error e => .error e
      | .ok (i, size) => instructionsFrom c code turns (offset + size) (i :: acc)

/-- The instructions of a body. -/
def instructions (c : ParsedClass) (code : Array UInt8) : Except ReadError (List Instruction) :=
  c.instructionsFrom code code.size 0 []

/-! ## Listings -/

/-- The access flags that listings name. -/
def accessNames : List (UInt16 × String) :=
  [(0x0001, "public"), (0x0002, "private"), (0x0004, "protected"), (0x0008, "static"),
   (0x0010, "final"), (0x1000, "synthetic")]

/-- The names of the flags that are set. -/
def accessText (a : Access) : String :=
  " ".intercalate ((accessNames.filter fun p => a.has ⟨p.1⟩).map Prod.snd)

/-- A number right-aligned in four columns. -/
def padded (n : Nat) : String :=
  let s := toString n
  String.ofList (List.replicate (4 - s.length) ' ') ++ s

/-- The lines of a method. -/
def methodListing (c : ParsedClass) (m : Member) : Except ReadError String := do
  let access := accessText m.access
  let head := "\n" ++ (if access = "" then "" else access ++ " ") ++ m.name ++ m.desc ++ "\n"
  match m.body with
  | none => return head
  | some body =>
    match c.instructions body.code with
    | .error e => throw (.inMethod m.name e)
    | .ok is =>
      let sizes := "  stack=" ++ toString body.maxStack.toNat ++ " locals="
        ++ toString body.maxLocals.toNat ++ "\n"
      return is.foldl (fun s i => s ++ "  " ++ padded i.offset ++ ": " ++ i.text ++ "\n")
        (head ++ sizes)

/-- Appends the lines of methods. -/
def methodListings (c : ParsedClass) (out : String) : List Member → Except ReadError String
  | [] => .ok out
  | m :: ms =>
    match c.methodListing m with
    | .error e => .error e
    | .ok s => methodListings c (out ++ s) ms

/-- A class as text: its header, then every method with its instructions. -/
def listing (c : ParsedClass) : Except ReadError String :=
  let source := if c.sourceFile = "" then "" else "  source " ++ c.sourceFile ++ "\n"
  c.methodListings
    ("class " ++ c.name ++ " extends " ++ c.super ++ " (version " ++ toString c.major.toNat ++ "."
      ++ toString c.minor.toNat ++ ")\n" ++ source)
    c.methods

/-- The class that some bytes hold as text. -/
def disassemble (data : Array UInt8) : Except ReadError String := do
  (← parse data).listing

end ParsedClass

end Kotlet

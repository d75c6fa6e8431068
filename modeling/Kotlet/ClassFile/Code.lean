import Kotlet.ClassFile.Descriptor
import Kotlet.ClassFile.Pool

/-!
# Method bodies

A body is put together one instruction after the other. The height of the operand stack is known at
every instruction. What is written where control cannot come is left out, so no dead code gets into
a class.

* `Label` : a place in a body that can be jumped to before it is known;
* `Code` : a body so far;
* `Code.emit`, `Code.load`, `Code.jump`, `Code.bind`, `Code.invoke` and their kin : one instruction
  more;
* `Code.finish` : the last checks of a body.

The first failure is kept; a body with a failure never becomes part of a class. Constants go to the
pool of the class even where the instruction that loads them is left out.
-/

namespace Kotlet
namespace ClassFile

/-- A place in a body. -/
structure Label where
  /-- Where it is, once it is bound. -/
  offset : Option Nat
  /-- The height of the stack there, once something gets there. -/
  depth : Option Nat
  /-- The branches that wait for the place, by where they start. -/
  pending : List Nat
  deriving DecidableEq, Inhabited

/-- Which of the two forms a local variable has. -/
inductive LocalKind where
  | int | ref
  deriving DecidableEq, Inhabited

/-- A body so far. -/
structure Code where
  /-- The instructions. -/
  bytes : Array UInt8
  /-- The height of the operand stack. -/
  depth : Nat
  /-- The greatest height so far. -/
  maxStack : Nat
  /-- The number of local variables, arguments included. -/
  maxLocals : Nat
  /-- Whether control can come here. -/
  reachable : Bool
  /-- The labels of the body. -/
  labels : Array Label
  /-- The first failure. -/
  error : Option BuildError
  deriving Inhabited

namespace Code

/-- A body without instructions whose first variables are the arguments. -/
def start (params : Nat) : Code := ⟨#[], 0, 0, params, true, #[], none⟩

/-- The number of bytes. -/
def size (c : Code) : Nat := c.bytes.size

/-- Notes a failure, unless there was one before. -/
def fail (c : Code) (e : BuildError) : Code :=
  if c.error.isSome then c else { c with error := some e }

/-- Writes bytes. -/
def write (c : Code) (bs : List UInt8) : Code := { c with bytes := bs.foldl Array.push c.bytes }

/-- Changes the height of the stack, which cannot go below zero. -/
def adjust (c : Code) (delta : Int) : Code :=
  let depth := c.depth + delta
  if depth < 0 then { c.fail (.underflow c.size) with depth := 0 }
  else { c with depth := depth.toNat, maxStack := max c.maxStack depth.toNat }

/-- Counts a local variable. -/
def useLocal (c : Code) (slot : Int) : Code :=
  { c with maxLocals := max c.maxLocals (slot + 1).toNat }

/-- Cuts the flow of control after an instruction that ends a block. -/
def endBlock (c : Code) (op : Opcode) : Code :=
  if op.endsBlock then { c with reachable := false, depth := 0 } else c

/-! ## Plain instructions -/

/-- An instruction without operands. -/
def emit (c : Code) (op : Opcode) : Code :=
  if !c.reachable then c
  else
    match op.effect? with
    | none => c.fail (.needsOperands op)
    | some delta => ((c.write [op.byte]).adjust delta).endBlock op

/-- Loads a constant by its index. -/
def ldc (c : Code) (i : UInt16) : Code :=
  if !c.reachable then c
  else if i ≤ 255 then (c.write [Opcode.ldc.byte, i.toUInt8]).adjust 1
  else (c.write (Opcode.ldcW.byte :: bytes2 i)).adjust 1

/-- Pushes a number. -/
def pushInt (p : Pool) (c : Code) (n : Int32) : Pool × Code :=
  if -1 ≤ n ∧ n ≤ 5 then (p, c.emit ⟨UInt8.ofNat (3 + n.toInt).toNat⟩)
  else
    let (i, p) := p.integer n
    (p, c.ldc i)

/-- Pushes a truth value. -/
def pushBool (c : Code) (b : Bool) : Code := c.emit (if b then .iconst1 else .iconst0)

/-- Pushes a string. -/
def pushString (p : Pool) (c : Code) (s : String) : Pool × Code :=
  let (i, p) := p.string s
  (p, c.ldc i)

/-- Pushes the class object of an internal name. -/
def pushClass (p : Pool) (c : Code) (name : String) : Pool × Code :=
  let (i, p) := p.classRef name
  (p, c.ldc i)

/-! ## Local variables -/

/-- An instruction on a local variable, in its short, its long or its wide form. -/
def onLocal (c : Code) (short long : Opcode) (slot : Int) : Code :=
  let c :=
    if slot < 0 ∨ 65535 < slot then c.fail (.badSlot slot)
    else if slot ≤ 3 then c.write [short.byte + UInt8.ofNat slot.toNat]
    else if slot ≤ 255 then c.write [long.byte, UInt8.ofNat slot.toNat]
    else c.write (Opcode.wide.byte :: long.byte :: bytes2 (UInt16.ofNat slot.toNat))
  c.useLocal slot

/-- Loads a local variable. -/
def load (c : Code) (kind : LocalKind) (slot : Int) : Code :=
  if !c.reachable then c
  else
    match kind with
    | .ref => (c.onLocal .aload0 .aload slot).adjust 1
    | .int => (c.onLocal .iload0 .iload slot).adjust 1

/-- Stores into a local variable. -/
def store (c : Code) (kind : LocalKind) (slot : Int) : Code :=
  if !c.reachable then c
  else
    match kind with
    | .ref => (c.onLocal .astore0 .astore slot).adjust (-1)
    | .int => (c.onLocal .istore0 .istore slot).adjust (-1)

/-- Adds to a local variable in place. -/
def iinc (c : Code) (slot : Int) (delta : Int) : Code :=
  if !c.reachable then c
  else
    let c :=
      if delta < -0x8000 ∨ 0x7fff < delta then c.fail (.badIncrement delta)
      else if slot ≤ 255 ∧ -0x80 ≤ delta ∧ delta ≤ 0x7f then
        c.write [Opcode.iinc.byte, (Int8.ofInt slot).toUInt8, (Int8.ofInt delta).toUInt8]
      else
        c.write (Opcode.wide.byte :: Opcode.iinc.byte ::
          (bytes2 (Int16.ofInt slot).toUInt16 ++ bytes2 (Int16.ofInt delta).toUInt16))
    c.useLocal slot

/-! ## Branches -/

/-- A fresh label. -/
def newLabel (c : Code) : Nat × Code :=
  (c.labels.size, { c with labels := c.labels.push ⟨none, none, []⟩ })

/-- The label of a number. -/
def label (c : Code) (l : Nat) : Label := c.labels.getD l default

/-- Changes a label. -/
def setLabel (c : Code) (l : Nat) (label : Label) : Code :=
  { c with labels := c.labels.setIfInBounds l label }

/-- Notes that control reaches a label with the present stack. -/
def arrive (c : Code) (l : Nat) : Code :=
  let label := c.label l
  match label.depth, label.offset with
  | none, some _ => c.fail .deadLabel
  | none, none => c.setLabel l { label with depth := some c.depth }
  | some d, _ => if d = c.depth then c else c.fail (.depthMismatch d c.depth)

/-- Fills in the offset of the branch that starts at `start`. -/
def patch (c : Code) (start target : Nat) : Code :=
  let distance : Int := target - start
  if distance < -0x8000 ∨ 0x7fff < distance then c.fail (.badBranch distance)
  else
    match bytes2 (Int16.ofInt distance).toUInt16 with
    | [high, low] =>
      { c with
        bytes := (c.bytes.setIfInBounds (start + 1) high).setIfInBounds (start + 2) low }
    | _ => c

/-- A branch to a label. -/
def jump (c : Code) (op : Opcode) (l : Nat) : Code :=
  if !c.reachable then c
  else if !op.isBranch then c.fail (.notBranch op)
  else
    let start := c.size
    let c := ((c.write [op.byte, 0, 0]).adjust (op.effect?.getD 0)).arrive l
    let label := c.label l
    let c :=
      match label.offset with
      | some target => c.patch start target
      | none => c.setLabel l { label with pending := label.pending ++ [start] }
    c.endBlock op

/-- Gives a label its place. Where something jumps to it, control can come here again. -/
def bind (c : Code) (l : Nat) : Code :=
  if (c.label l).offset.isSome then c.fail .boundTwice
  else
    let c :=
      if c.reachable then c.arrive l
      else
        match (c.label l).depth with
        | some d => { c with reachable := true, depth := d }
        | none => c
    let label := c.label l
    let here := c.size
    let c := c.setLabel l { label with offset := some here, pending := [] }
    label.pending.foldl (fun c start => c.patch start here) c

/-! ## Members and types -/

/-- Access to a field. -/
def field (p : Pool) (c : Code) (op : Opcode) (owner name desc : String) : Pool × Code :=
  if !c.reachable then (p, c)
  else
    let size : Int := slotSize desc
    let delta? : Option Int :=
      if op = .getStatic then some size
      else if op = .putStatic then some (-size)
      else if op = .getField then some (size - 1)
      else if op = .putField then some (-size - 1)
      else none
    match delta? with
    | none => (p, c.fail (.notField op))
    | some delta =>
      let (i, p) := p.fieldRef owner name desc
      (p, (c.write (op.byte :: bytes2 i)).adjust delta)

/-- A call of a method. -/
def invoke (p : Pool) (c : Code) (op : Opcode) (owner name desc : String) : Pool × Code :=
  if !c.reachable then (p, c)
  else
    match descriptorSlots? desc with
    | none => (p, c.fail (.badDescriptor desc))
    | some (args, result) =>
      let delta : Int := result - args
      if op = .invokeStatic then
        let (i, p) := p.methodRef owner name desc
        (p, (c.write (op.byte :: bytes2 i)).adjust delta)
      else if op = .invokeVirtual ∨ op = .invokeSpecial then
        let (i, p) := p.methodRef owner name desc
        (p, (c.write (op.byte :: bytes2 i)).adjust (delta - 1))
      else if op = .invokeInterface then
        let (i, p) := p.interfaceMethodRef owner name desc
        (p, (c.write (op.byte :: (bytes2 i ++ [UInt8.ofNat (args + 1), 0]))).adjust (delta - 1))
      else (p, c.fail (.notInvoke op))

/-- An instruction on a class: a new object or array, a cast or a test. -/
def typeOp (p : Pool) (c : Code) (op : Opcode) (name : String) : Pool × Code :=
  if !c.reachable then (p, c)
  else if op = .newObject ∨ op = .anewArray ∨ op = .checkCast ∨ op = .instanceOf then
    let (i, p) := p.classRef name
    (p, (c.write (op.byte :: bytes2 i)).adjust (op.effect?.getD 0))
  else (p, c.fail (.notTypeOp op))

/-- A new array of numbers or truth values. -/
def newArray (c : Code) (elements : UInt8) : Code :=
  if !c.reachable then c else c.write [Opcode.newArray.byte, elements]

/-! ## The end of a body -/

/-- The last checks: the given labels have their places, and the body is neither empty nor too
long. -/
def finish (c : Code) (labels : List Nat) : Code :=
  let c := if labels.any fun l => !(c.label l).pending.isEmpty then c.fail .unboundLabel else c
  let c := if c.size = 0 then c.fail .emptyBody else c
  if 65535 < c.size then c.fail (.longBody c.size) else c

end Code

end ClassFile
end Kotlet

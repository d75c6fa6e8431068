import Kotlet.ClassFile.Instruction

/-!
# Instructions as data

The listings of a class show operands as text. Here they are data, read from the bytes of a body.

* `Instr` : an instruction with its operands; a branch names its target;
* `Instr.decode` : the instruction at a place of a body, and its size;
* `Instr.decodeAll` : a whole body;
* `Instr.decode_congr` : only the bytes of an instruction matter;
* `decode_plain` and its kin : what the bytes that a body is made of decode to.
-/

namespace Kotlet

open ClassFile ParsedClass

/-! ## Opcodes -/

namespace ClassFile.Opcode

/-- What holds of the opcode of every byte holds of every opcode. -/
theorem forall_byte {p : Opcode → Prop} (h : ∀ n : Fin 256, p ⟨UInt8.ofNat n⟩) (op : Opcode) :
    p op := by
  have hop := h ⟨op.byte.toNat, op.byte.toNat_lt⟩
  rwa [UInt8.ofNat_toNat] at hop

instance (p : Opcode → Prop) [DecidablePred p] : Decidable (∀ op, p op) :=
  decidable_of_iff (∀ n : Fin 256, p ⟨UInt8.ofNat n⟩) ⟨forall_byte, fun h _ => h _⟩

/-- The names need not be looked at to tell which opcodes have one. -/
theorem isKnown_iff {op : Opcode} : op.isKnown = true ↔ op.byte.toNat < 202 := by
  have hsize : mnemonics.size = 202 := rfl
  rw [isKnown, hsize, decide_eq_true_iff]

end ClassFile.Opcode

/-! ## Instructions -/

/-- An instruction with its operands. -/
inductive Instr where
  /-- No operands. -/
  | plain (op : Opcode)
  /-- Loads a constant. -/
  | constant (index : UInt16)
  /-- Loads a local variable. -/
  | load (kind : LocalKind) (slot : Nat)
  /-- Stores into a local variable. -/
  | store (kind : LocalKind) (slot : Nat)
  /-- Adds to a local variable. -/
  | increment (slot : Nat) (delta : Int)
  /-- Goes to another place. -/
  | branch (op : Opcode) (target : Nat)
  /-- Reads a field or calls a method. -/
  | member (op : Opcode) (index : UInt16)
  /-- Calls a method of an interface; the count is that of the argument slots. -/
  | interface (index : UInt16) (count : UInt8)
  /-- Makes an object or an array, casts or tests an object. -/
  | onType (op : Opcode) (index : UInt16)
  /-- Makes an array of plain values. -/
  | newArray (elements : UInt8)
  deriving DecidableEq

namespace Instr

/-- The number of two bytes at a place. -/
def u2? (code : Array UInt8) (o : Nat) : Option UInt16 := do
  let high ← code[o]?
  let low ← code[o + 1]?
  return UInt16.ofNat (high.toNat * 256 + low.toNat)

/-- A load or store of the variable `slot`, by the opcode that has the slot as an operand. -/
def onSlot? (op : Opcode) (slot : Nat) : Option Instr :=
  if op = .iload then some (.load .int slot)
  else if op = .aload then some (.load .ref slot)
  else if op = .istore then some (.store .int slot)
  else if op = .astore then some (.store .ref slot)
  else none

/-- An instruction of one byte. -/
def short (op : Opcode) : Instr :=
  let n := op.byte.toNat
  if 0x1a ≤ n ∧ n ≤ 0x1d then .load .int (n - 0x1a)
  else if 0x2a ≤ n ∧ n ≤ 0x2d then .load .ref (n - 0x2a)
  else if 0x3b ≤ n ∧ n ≤ 0x3e then .store .int (n - 0x3b)
  else if 0x4b ≤ n ∧ n ≤ 0x4e then .store .ref (n - 0x4b)
  else .plain op

/-- An instruction with the index of a constant. -/
def indexed (op : Opcode) (i : UInt16) : Instr :=
  if op = .ldcW then .constant i
  else if op.byte ≤ Opcode.invokeStatic.byte then .member op i
  else .onType op i

/-- The operands of an instruction whose opcode stands at `o`, and its size. -/
@[grind =] def operands (code : Array UInt8) (o : Nat) (op : Opcode) : OperandForm → Option (Instr × Nat)
  | .none => if op.isKnown then some (short op, 1) else none
  | .shortConstant => do return (.constant (← code[o + 1]?).toUInt16, 2)
  | .slot => do return (← onSlot? op (← code[o + 1]?).toNat, 2)
  | .elementType => do return (.newArray (← code[o + 1]?), 2)
  | .increment => do
    return (.increment (← code[o + 1]?).toNat (← code[o + 2]?).toInt8.toInt, 3)
  | .branch => do
    let target : Int := o + (← u2? code (o + 1)).toInt16.toInt
    if target < 0 then none else some (.branch op target.toNat, 3)
  | .constant => do return (indexed op (← u2? code (o + 1)), 3)
  | .paddedConstant => do
    let i ← u2? code (o + 1)
    let count ← code[o + 3]?
    let zero ← code[o + 4]?
    if op = .invokeInterface ∧ zero = 0 then some (.interface i count, 5) else none
  | .wide => do
    let inner : Opcode := ⟨← code[o + 1]?⟩
    let slot ← u2? code (o + 2)
    if inner = .iinc then
      return (.increment slot.toNat (← u2? code (o + 4)).toInt16.toInt, 6)
    else return (← onSlot? inner slot.toNat, 4)
  | _ => none

/-- The instruction at a place, and its size. -/
def decode (code : Array UInt8) (o : Nat) : Option (Instr × Nat) := do
  let op : Opcode := ⟨← code[o]?⟩
  operands code o op (operandForm op)

/-- The instructions from a place on, with their places; there are `turns` of them at most. -/
def decodeFrom (code : Array UInt8) : Nat → Nat → Option (List (Nat × Instr))
  | 0, o => if o = code.size then some [] else none
  | turns + 1, o =>
    if o = code.size then some []
    else do
      let (i, n) ← decode code o
      return (o, i) :: (← decodeFrom code turns (o + n))

/-- The instructions of a whole body, with their places. -/
def decodeAll (code : Array UInt8) : Option (List (Nat × Instr)) := decodeFrom code code.size 0

theorem u2?_eq {code : Array UInt8} {k : Nat} {n : UInt16}
    (h₀ : code[k]? = some (n >>> 8).toUInt8) (h₁ : code[k + 1]? = some n.toUInt8) :
    u2? code k = some n := by
  have hn : UInt16.ofNat ((n >>> 8).toUInt8.toNat * 256 + n.toUInt8.toNat) = n := by
    apply UInt16.toNat_inj.mp
    have hlt := n.toNat_lt
    simp only [UInt16.toNat_ofNat', UInt16.toNat_toUInt8, UInt16.toNat_shiftRight]
    have h8 : (8 : UInt16).toNat % 16 = 8 := rfl
    rw [h8, Nat.shiftRight_eq_div_pow]
    omega
  rw [u2?, h₀, h₁]
  exact congrArg some hn

/-! ## Only the bytes of an instruction matter -/

/-- The same bytes stand from `o` on, `n` of them. -/
def SameAt (code code' : Array UInt8) (o n : Nat) : Prop := ∀ k < n, code'[o + k]? = code[o + k]?

section Congr

variable {code code' : Array UInt8} {o n : Nat}

theorem u2?_congr (h : SameAt code code' o n) {k : Nat} (hk : k + 1 < n) :
    u2? code' (o + k) = u2? code (o + k) := by
  have h₀ := h k (by omega)
  have h₁ := h (k + 1) hk
  rw [← Nat.add_assoc] at h₁
  simp only [u2?, h₀, h₁]

theorem operands_congr {op : Opcode} {form : OperandForm} {i : Instr}
    (hd : operands code o op form = some (i, n)) (h : SameAt code code' o n) :
    operands code' o op form = some (i, n) := by
  cases form with
  | none | byte | short | wideBranch | dimensions | tableSwitch | lookupSwitch => exact hd
  | shortConstant | slot | elementType =>
    obtain rfl : n = 2 := by simp [operands, Option.bind_eq_some_iff] at hd; omega
    simpa only [operands, h 1 (by omega)] using hd
  | increment =>
    obtain rfl : n = 3 := by simp [operands, Option.bind_eq_some_iff] at hd; omega
    simpa only [operands, h 1 (by omega), h 2 (by omega)] using hd
  | branch =>
    obtain rfl : n = 3 := by
      simp only [operands, Option.bind_eq_bind, Option.bind_eq_some_iff] at hd
      obtain ⟨_, _, hd⟩ := hd
      split at hd
      · cases hd
      · cases hd; rfl
    simpa only [operands, u2?_congr h (k := 1) (by omega)] using hd
  | constant =>
    obtain rfl : n = 3 := by simp [operands, Option.bind_eq_some_iff] at hd; omega
    simpa only [operands, u2?_congr h (k := 1) (by omega)] using hd
  | paddedConstant =>
    obtain rfl : n = 5 := by
      simp only [operands, Option.bind_eq_bind, Option.bind_eq_some_iff] at hd
      obtain ⟨_, _, _, _, _, _, hd⟩ := hd
      split at hd
      · cases hd; rfl
      · cases hd
    simpa only [operands, u2?_congr h (k := 1) (by omega), h 3 (by omega), h 4 (by omega)] using hd
  | wide =>
    simp only [operands, Option.bind_eq_bind, Option.bind_eq_some_iff] at hd ⊢
    obtain ⟨b, hb, slot, hslot, hd⟩ := hd
    have hn : 4 ≤ n := by
      split at hd
      · obtain ⟨_, _, hd⟩ := Option.bind_eq_some_iff.mp hd
        cases hd
        omega
      · obtain ⟨_, _, hd⟩ := Option.bind_eq_some_iff.mp hd
        cases hd
        omega
    refine ⟨b, by rw [h 1 (by omega)]; exact hb, slot, ?_, ?_⟩
    · rw [u2?_congr h (k := 2) (by omega)]
      exact hslot
    · split at hd
      · rename_i hinc
        rw [if_pos hinc]
        obtain ⟨d, hdelta, hd⟩ := Option.bind_eq_some_iff.mp hd
        cases hd
        rw [u2?_congr h (k := 4) (by omega), hdelta]
        rfl
      · rename_i hinc
        rw [if_neg hinc]
        exact hd

/-- An instruction is decoded from its own bytes. -/
theorem decode_congr {i : Instr} (hd : decode code o = some (i, n)) (hn : 0 < n)
    (h : SameAt code code' o n) : decode code' o = some (i, n) := by
  simp only [decode, Option.bind_eq_bind, Option.bind_eq_some_iff] at hd ⊢
  obtain ⟨b, hb, hd⟩ := hd
  exact ⟨b, by simpa [hb] using h 0 hn, operands_congr hd h⟩

end Congr

/-! ## Bytes at the end of a body -/

section Append

variable {code : Array UInt8} {bs : List UInt8}

theorem getElem?_append_size (k : Nat) : (code ++ bs.toArray)[code.size + k]? = bs[k]? := by
  rw [Array.getElem?_append_right (Nat.le_add_right _ _)]
  simp

theorem u2?_bytes2 {k : Nat} {n : UInt16} (h₀ : bs[k]? = some (n >>> 8).toUInt8)
    (h₁ : bs[k + 1]? = some n.toUInt8) : u2? (code ++ bs.toArray) (code.size + k) = some n := by
  refine u2?_eq ?_ ?_
  · rw [getElem?_append_size, h₀]
  · rw [Nat.add_assoc, getElem?_append_size, h₁]

theorem decode_append (op : Opcode) (rest : List UInt8) :
    decode (code ++ (op.byte :: rest).toArray) code.size =
      operands (code ++ (op.byte :: rest).toArray) code.size op (operandForm op) := by
  have h : (code ++ (op.byte :: rest).toArray)[code.size + 0]? = some op.byte :=
    getElem?_append_size 0
  rw [Nat.add_zero] at h
  simp only [decode, h]
  rfl

/-- An opcode that is an instruction by itself. -/
def isPlain (op : Opcode) : Bool :=
  operandForm op == .none && op.isKnown && decide (short op = .plain op)

theorem isPlain_iff {op : Opcode} : isPlain op = true ↔
    operandForm op = .none ∧ op.byte.toNat < 202 ∧ short op = .plain op := by
  rw [isPlain, Bool.and_eq_true, Bool.and_eq_true, beq_iff_eq, decide_eq_true_iff,
    Opcode.isKnown_iff, and_assoc]

theorem decode_plain {op : Opcode} (h : isPlain op = true) :
    decode (code ++ [op.byte].toArray) code.size = some (.plain op, 1) := by
  obtain ⟨hf, hk, hs⟩ := isPlain_iff.mp h
  rw [decode_append, hf, operands, if_pos (Opcode.isKnown_iff.mpr hk), hs]

theorem decode_ldc {i : UInt16} (hi : i ≤ 255) :
    decode (code ++ [Opcode.ldc.byte, i.toUInt8].toArray) code.size = some (.constant i, 2) := by
  have hn : i.toUInt8.toUInt16 = i := by
    apply UInt16.toNat_inj.mp
    have hi' : i.toNat ≤ 255 := hi
    rw [UInt8.toNat_toUInt16, UInt16.toNat_toUInt8]
    omega
  have hform : operandForm .ldc = .shortConstant := by decide
  rw [decode_append, hform, operands, getElem?_append_size]
  simp [hn]

theorem decode_indexed (op : Opcode) (h : operandForm op = .constant) (i : UInt16) :
    decode (code ++ (op.byte :: bytes2 i).toArray) code.size = some (indexed op i, 3) := by
  rw [decode_append, h, operands, u2?_bytes2 (n := i) rfl rfl]
  rfl

theorem decode_interface (i : UInt16) (count : UInt8) :
    decode (code ++ (Opcode.invokeInterface.byte :: (bytes2 i ++ [count, 0])).toArray) code.size =
      some (.interface i count, 5) := by
  rw [decode_append]
  have hform : operandForm .invokeInterface = .paddedConstant := by decide
  rw [hform, operands, u2?_bytes2 (n := i) rfl rfl, getElem?_append_size, getElem?_append_size]
  simp [bytes2]

theorem decode_newArray (elements : UInt8) :
    decode (code ++ [Opcode.newArray.byte, elements].toArray) code.size =
      some (.newArray elements, 2) := by
  have hform : operandForm .newArray = .elementType := by decide
  rw [decode_append, hform, operands, getElem?_append_size]
  rfl

/-! ## Local variables -/

theorem decode_slot {op : Opcode} (hf : operandForm op = .slot) {slot : Nat} (hs : slot ≤ 255)
    {i : Instr} (hi : onSlot? op slot = some i) :
    decode (code ++ [op.byte, UInt8.ofNat slot].toArray) code.size = some (i, 2) := by
  have hn : (UInt8.ofNat slot).toNat = slot := by
    rw [UInt8.toNat_ofNat']
    omega
  rw [decode_append, hf, operands, getElem?_append_size]
  simp [hn, hi]

theorem decode_wide {op : Opcode} (hne : op ≠ .iinc) {slot : Nat} (hs : slot ≤ 65535) {i : Instr}
    (hi : onSlot? op slot = some i) :
    decode (code ++ (Opcode.wide.byte :: op.byte :: bytes2 (UInt16.ofNat slot)).toArray) code.size =
      some (i, 4) := by
  have hn : (UInt16.ofNat slot).toNat = slot := by
    rw [UInt16.toNat_ofNat']
    omega
  have hform : operandForm .wide = .wide := by decide
  rw [decode_append, hform, operands, u2?_bytes2 (n := UInt16.ofNat slot) rfl rfl,
    getElem?_append_size]
  simp [hn, hi, hne]

/-- The opcodes by which one kind of access to local variables is written. -/
structure Access (first long : Opcode) (make : Nat → Instr) : Prop where
  form : operandForm long = .slot
  ne : long ≠ .iinc
  slot : ∀ slot, onSlot? long slot = some (make slot)
  short : ∀ k : Fin 4, operandForm ⟨first.byte + UInt8.ofNat k⟩ = .none ∧
    (first.byte + UInt8.ofNat k).toNat < 202 ∧
    Instr.short ⟨first.byte + UInt8.ofNat k⟩ = make k

theorem access_load (kind : LocalKind) : Access
    (match kind with | .int => .iload0 | .ref => .aload0)
    (match kind with | .int => .iload | .ref => .aload) (.load kind) := by
  cases kind <;> exact ⟨by decide, by decide, fun _ => rfl, by decide⟩

theorem access_store (kind : LocalKind) : Access
    (match kind with | .int => .istore0 | .ref => .astore0)
    (match kind with | .int => .istore | .ref => .astore) (.store kind) := by
  cases kind <;> exact ⟨by decide, by decide, fun _ => rfl, by decide⟩

theorem decode_short {first long : Opcode} {make : Nat → Instr} (h : Access first long make)
    {slot : Nat} (hs : slot ≤ 3) :
    decode (code ++ [first.byte + UInt8.ofNat slot].toArray) code.size = some (make slot, 1) := by
  obtain ⟨hform, hknown, hshort⟩ := h.short ⟨slot, by omega⟩
  have hd : decode (code ++ [first.byte + UInt8.ofNat slot].toArray) code.size = _ :=
    decode_append ⟨first.byte + UInt8.ofNat slot⟩ []
  rw [hform, operands, if_pos (Opcode.isKnown_iff.mpr hknown), hshort] at hd
  exact hd

theorem decode_increment (slot delta : UInt8) :
    decode (code ++ [Opcode.iinc.byte, slot, delta].toArray) code.size =
      some (.increment slot.toNat delta.toInt8.toInt, 3) := by
  have hform : operandForm .iinc = .increment := by decide
  rw [decode_append, hform, operands, getElem?_append_size, getElem?_append_size]
  rfl

theorem decode_iinc {delta : Int} (slot : Int) (hs : 0 ≤ slot ∧ slot ≤ 255)
    (hd : -0x80 ≤ delta ∧ delta ≤ 0x7f) :
    decode (code ++ [Opcode.iinc.byte, (Int8.ofInt slot).toUInt8,
      (Int8.ofInt delta).toUInt8].toArray) code.size = some (.increment slot.toNat delta, 3) := by
  have hslot : (Int8.ofInt slot).toUInt8.toNat = slot.toNat := by
    change (BitVec.ofInt 8 slot).toNat = slot.toNat
    rw [BitVec.toNat_ofInt]
    omega
  have hdelta : (Int8.ofInt delta).toInt = delta := Int8.toInt_ofInt_of_le (by omega) (by omega)
  rw [decode_increment, Int8.toInt8_toUInt8, hslot, hdelta]

theorem toNat_ofInt16 {n : Int} (h : 0 ≤ n ∧ n ≤ 65535) : (Int16.ofInt n).toUInt16.toNat = n.toNat := by
  change (BitVec.ofInt 16 n).toNat = n.toNat
  rw [BitVec.toNat_ofInt]
  omega

theorem toInt_ofInt16 {n : Int} (h : -0x8000 ≤ n ∧ n ≤ 0x7fff) :
    (Int16.ofInt n).toUInt16.toInt16.toInt = n := by
  rw [Int16.toInt16_toUInt16]
  exact Int16.toInt_ofInt_of_le (by omega) (by omega)

theorem decode_wideIncrement (slot delta : UInt16) :
    decode (code ++ (Opcode.wide.byte :: Opcode.iinc.byte :: (bytes2 slot ++ bytes2 delta)).toArray)
      code.size = some (.increment slot.toNat delta.toInt16.toInt, 6) := by
  have hform : operandForm .wide = .wide := by decide
  rw [decode_append, hform, operands, getElem?_append_size, u2?_bytes2 (n := slot) rfl rfl,
    u2?_bytes2 (n := delta) rfl rfl]
  rfl

theorem decode_wideIinc {delta : Int} (slot : Int) (hs : 0 ≤ slot ∧ slot ≤ 65535)
    (hd : -0x8000 ≤ delta ∧ delta ≤ 0x7fff) :
    decode (code ++ (Opcode.wide.byte :: Opcode.iinc.byte ::
      (bytes2 (Int16.ofInt slot).toUInt16 ++ bytes2 (Int16.ofInt delta).toUInt16)).toArray) code.size =
        some (.increment slot.toNat delta, 6) := by
  rw [decode_wideIncrement, toNat_ofInt16 hs, toInt_ofInt16 hd]

end Append

/-! ## Branches -/

/-- A branch is read from its opcode and the distance to its target. -/
theorem decode_branch {code : Array UInt8} {o target : Nat} {op : Opcode}
    (hf : operandForm op = .branch) (hop : code[o]? = some op.byte)
    (hd : -0x8000 ≤ (target : Int) - o ∧ (target : Int) - o ≤ 0x7fff)
    (hu : u2? code (o + 1) = some (Int16.ofInt (target - o)).toUInt16) :
    decode code o = some (.branch op target, 3) := by
  simp only [decode, hop, Option.bind_eq_bind, Option.bind_some, hf, operands, hu, toInt_ofInt16 hd]
  rw [if_neg (by omega)]
  congr
  omega

end Instr

end Kotlet

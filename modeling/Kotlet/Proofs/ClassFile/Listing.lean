import Kotlet.Proofs.Circle
import Kotlet.Proofs.ClassFile.Instr
import Mathlib.Data.List.Basic

/-!
# Listings show what is decoded

The instructions of a listing have their operands as text, in one of the forms that there are for
them. The text of a constant whose references go round in a circle has no end, and then the listing
has none either.

* `ParsedClass.Circular` : the references of a constant go round in a circle, and
  `ParsedClass.constant?_eq_none_iff` : just then it has no text;
* `Instr.Shown` : an opcode and a text are those of an instruction, in any of its forms;
* `ParsedClass.decode_shown` : the listing shows the instruction that is decoded;
* `ParsedClass.instructions_shown` : it shows all of them, and nothing else.
-/

namespace Kotlet

open ClassFile ParsedClass

namespace ParsedClass

/-! ## Constants -/

/-- The references that are followed to show a constant. -/
def Entry.followed : Entry → List UInt16
  | .classRef i | .string i | .methodType i | .moduleRef i | .packageRef i => [i]
  | .fieldRef i j | .methodRef i j | .interfaceMethodRef i j | .nameAndType i j => [i, j]
  | .dynamic _ j | .invokeDynamic _ j | .methodHandle _ j => [j]
  | _ => []

/-- To show the constant at `i`, the one at `j` is shown. -/
def Refers (pool : Array Entry) (i j : Nat) : Prop :=
  ∃ k ∈ (pool.getD i .unused).followed, k.toNat = j

/-- The references of the constant at an index go round in a circle. -/
def Circular (c : ParsedClass) (i : UInt16) : Prop := Circles (Refers c.pool) i.toNat

theorem lt_size_of_refers {pool : Array Entry} {i j : Nat} (h : Refers pool i j) : i < pool.size := by
  obtain ⟨k, hk, -⟩ := h
  by_contra hi
  rw [Array.getD_eq_getD_getElem?, Array.getElem?_eq_none (by omega)] at hk
  cases hk

/-- A constant is not shown with so many references on the way just if one can follow as many. -/
theorem constantWithin_eq_none_iff {pool : Array Entry} {n : Nat} : ∀ {i : UInt16},
    constantWithin pool n i = none ↔ Goes (Refers pool) n i.toNat := by
  induction n with
  | zero => exact ⟨fun _ => trivial, fun _ => rfl⟩
  | succ n ih =>
    intro i
    simp only [Goes, Refers, exists_exists_and_eq_and, ← ih]
    rw [constantWithin]
    cases pool.getD i.toNat .unused with
    | fieldRef a b | methodRef a b | interfaceMethodRef a b | nameAndType a b =>
      cases ha : constantWithin pool n a <;> cases hb : constantWithin pool n b <;>
        simp [Entry.followed, ha, hb]
    | _ => simp [Entry.followed]

/-- Just the constants whose references go round in a circle have no text. -/
theorem constant?_eq_none_iff {c : ParsedClass} {i : UInt16} :
    c.constant? i = none ↔ c.Circular i :=
  constantWithin_eq_none_iff.trans (goes_iff_circles fun _ _ => lt_size_of_refers)

theorem constant_eq_ok {c : ParsedClass} {i : UInt16} {s : String} (h : c.constant? i = some s) :
    c.constant i = .ok s := by
  rw [constant, h]

theorem constant_eq_endless {c : ParsedClass} {i : UInt16} (h : c.Circular i) :
    c.constant i = .error (.endless i.toNat) := by
  rw [constant, constant?_eq_none_iff.mpr h]

end ParsedClass

namespace Instr

/-- The opcode that a load has with its variable as an operand, and the first one of those that have
it in themselves. -/
def loadOpcodes : LocalKind → Opcode × Opcode
  | .int => (.iload, .iload0)
  | .ref => (.aload, .aload0)

/-- The same for a store. -/
def storeOpcodes : LocalKind → Opcode × Opcode
  | .int => (.istore, .istore0)
  | .ref => (.astore, .astore0)

/-- A load or a store is shown in its short, its long or its wide form. -/
def ShownSlot (ops : Opcode × Opcode) (slot : Nat) (op : Opcode) (text : String) : Prop :=
  (slot ≤ 3 ∧ op = ⟨ops.2.byte + UInt8.ofNat slot⟩ ∧ text = "") ∨
    (op = ops.1 ∧ text = toString slot) ∨
      (op = .wide ∧ text = ops.1.mnemonic ++ " " ++ toString slot)

/-- An opcode and the text of its operands show an instruction. -/
def Shown (c : ParsedClass) (op : Opcode) (text : String) : Instr → Prop
  | .plain o => op = o ∧ text = ""
  | .constant i => (op = .ldc ∨ op = .ldcW) ∧ c.constant? i = some text
  | .load kind slot => ShownSlot (loadOpcodes kind) slot op text
  | .store kind slot => ShownSlot (storeOpcodes kind) slot op text
  | .increment slot delta =>
    (op = .iinc ∧ text = toString slot ++ " " ++ toString delta) ∨
      (op = .wide ∧ text = "iinc " ++ toString slot ++ " " ++ toString delta)
  | .branch o target => op = o ∧ text = toString target
  | .member o i | .onType o i => op = o ∧ c.constant? i = some text
  | .interface i _ => op = .invokeInterface ∧ c.constant? i = some text
  | .newArray elements => op = .newArray ∧ text = elementTypeName elements

/-- The index of the constant that an instruction refers to. -/
def index? : Instr → Option UInt16
  | .constant i | .member _ i | .onType _ i | .interface i _ => some i
  | _ => none

/-- Showing the operands of an instruction comes to their text, or to no end since its constant refers
to itself. -/
def Listed (c : ParsedClass) (op : Opcode) (i : Instr) (x : Except ReadError String) : Prop :=
  (∃ text, x = .ok text ∧ i.Shown c op text) ∨
    ∃ k, i.index? = some k ∧ c.Circular k ∧ x = .error (.endless k.toNat)

end Instr

namespace ParsedClass

open Instr

/-! ## Sizes -/

set_option maxRecDepth 2000 in
theorem isKnown_of_operandForm {op : Opcode} (h : operandForm op ≠ .none) : op.isKnown = true := by
  have hall : ∀ op : Opcode, operandForm op ≠ .none → op.byte.toNat < 202 := by decide
  exact Opcode.isKnown_iff.mpr (hall op h)

theorem le_size_of_u2? {code : Array UInt8} {o : Nat} {n : UInt16} (h : u2? code o = some n) :
    o + 2 ≤ code.size := by
  simp only [u2?, Option.bind_eq_bind, Option.bind_eq_some_iff] at h
  obtain ⟨_, _, _, hlow, _⟩ := h
  have := (Array.getElem?_eq_some_iff.mp hlow).1
  omega

/-- The size of the operands, as the form tells, and whether they are all there. -/
theorem size_of_operands {code : Array UInt8} {o n : Nat} {op : Opcode} {form : OperandForm}
    {i : Instr} (h : operands code o op form = some (i, n)) (ho : o < code.size) :
    o + n ≤ code.size ∧ (form.size? = some n ∨ form = .wide ∧ ∃ b, code[o + 1]? = some b ∧
      n = if (⟨b⟩ : Opcode) = .iinc then 6 else 4) := by
  cases form with
  | none =>
    simp only [operands] at h
    split at h
    · cases h
      exact ⟨ho, .inl rfl⟩
    · cases h
  | shortConstant | slot | elementType =>
    simp only [operands, Option.bind_eq_bind, Option.bind_eq_some_iff] at h
    obtain ⟨b, hb, h⟩ := h
    have hlt := (Array.getElem?_eq_some_iff.mp hb).1
    obtain rfl : n = 2 := by
      simp only [Option.pure_def] at h
      grind
    exact ⟨by omega, .inl rfl⟩
  | increment =>
    simp only [operands, Option.bind_eq_bind, Option.bind_eq_some_iff] at h
    obtain ⟨b, -, c, hc, h⟩ := h
    have hlt := (Array.getElem?_eq_some_iff.mp hc).1
    cases h
    exact ⟨by omega, .inl rfl⟩
  | branch =>
    simp only [operands, Option.bind_eq_bind, Option.bind_eq_some_iff] at h
    obtain ⟨d, hd, h⟩ := h
    have hle := le_size_of_u2? hd
    split at h
    · cases h
    · cases h
      exact ⟨by omega, .inl rfl⟩
  | constant =>
    simp only [operands, Option.bind_eq_bind, Option.bind_eq_some_iff] at h
    obtain ⟨d, hd, h⟩ := h
    have hle := le_size_of_u2? hd
    cases h
    exact ⟨by omega, .inl rfl⟩
  | paddedConstant =>
    simp only [operands, Option.bind_eq_bind, Option.bind_eq_some_iff] at h
    obtain ⟨_, _, _, _, zero, hzero, h⟩ := h
    have hlt := (Array.getElem?_eq_some_iff.mp hzero).1
    split at h
    · cases h
      exact ⟨by omega, .inl rfl⟩
    · cases h
  | wide =>
    simp only [operands, Option.bind_eq_bind, Option.bind_eq_some_iff] at h
    obtain ⟨b, hb, slot, hslot, h⟩ := h
    have hle := le_size_of_u2? hslot
    split at h
    · rename_i hinc
      obtain ⟨d, hd, h⟩ := Option.bind_eq_some_iff.mp h
      have hle' := le_size_of_u2? hd
      cases h
      exact ⟨by omega, .inr ⟨rfl, b, hb, by rw [if_pos hinc]⟩⟩
    · rename_i hinc
      obtain ⟨d, hd, h⟩ := Option.bind_eq_some_iff.mp h
      cases h
      exact ⟨by omega, .inr ⟨rfl, b, hb, by rw [if_neg hinc]⟩⟩
  | _ => cases h

/-! ## Numbers -/

section Numbers

variable {code : Array UInt8} {k : Nat}

theorem byteAt_eq {b : UInt8} (h : code[k]? = some b) : byteAt code k = .ok b := by
  rw [byteAt, h]

theorem unsignedAt_one {b : UInt8} (h : code[k]? = some b) : unsignedAt code k 1 = .ok b.toNat := by
  simp only [unsignedAt, bind, Except.bind, Nat.add_zero, byteAt_eq h, Nat.zero_mul, Nat.zero_add]
  rfl

theorem unsignedAt_two {n : UInt16} (h : u2? code k = some n) : unsignedAt code k 2 = .ok n.toNat := by
  simp only [u2?, Option.bind_eq_bind, Option.bind_eq_some_iff] at h
  obtain ⟨high, hhigh, low, hlow, h⟩ := h
  cases h
  have hhighlt := high.toNat_lt
  have hlowlt := low.toNat_lt
  rw [unsignedAt, unsignedAt_one hhigh, UInt16.toNat_ofNat', Nat.mod_eq_of_lt (by omega)]
  simp only [bind, Except.bind, byteAt_eq hlow]
  rfl

theorem signed1_eq {b : UInt8} (h : code[k]? = some b) : signed1 code k = .ok b.toInt8.toInt := by
  rw [signed1, byteAt_eq h]
  rfl

theorem signed2_eq {n : UInt16} (h : u2? code k = some n) :
    signed2 code k = .ok n.toInt16.toInt := by
  rw [signed2, unsignedAt_two h]
  simp only [bind, Except.bind, UInt16.ofNat_toNat]
  rfl

theorem operandConstant_eq (c : ParsedClass) {n : UInt16} (h : u2? code k = some n) :
    c.operandConstant code k = c.constant n := by
  rw [operandConstant, unsignedAt_two h]
  simp only [bind, Except.bind, UInt16.ofNat_toNat]

theorem need_eq {cut : ReadError} (h : k ≤ code.size) : need code cut k = .ok () :=
  if_neg (Nat.not_lt.mpr h)

end Numbers

/-! ## Texts -/

/-- The opcode that is the only one of its form. -/
def onlyOf? : OperandForm → Option Opcode
  | .shortConstant => some .ldc
  | .elementType => some .newArray
  | .increment => some .iinc
  | .wide => some .wide
  | _ => none

set_option maxRecDepth 2000 in
theorem eq_of_form {form : OperandForm} {op only : Opcode} (h : operandForm op = form)
    (ho : onlyOf? form = some only) : op = only := by
  have hall : ∀ op : Opcode, (onlyOf? (operandForm op)).all (op.byte == ·.byte) = true := by
    decide
  have hop := hall op
  rw [h, ho, Option.all_some, beq_iff_eq] at hop
  cases op
  cases only
  exact congrArg Opcode.mk hop

/-- An opcode that has its variable in itself is shown without operands. -/
theorem shown_short (c : ParsedClass) (op : Opcode) : (short op).Shown c op "" := by
  have hslot : ∀ (ops : Opcode × Opcode), ops.2.byte.toNat ≤ op.byte.toNat →
      op.byte.toNat ≤ ops.2.byte.toNat + 3 →
      ShownSlot ops (op.byte.toNat - ops.2.byte.toNat) op "" := by
    intro ops hlow hhigh
    refine .inl ⟨by omega, ?_, rfl⟩
    obtain ⟨b⟩ := op
    congr 1
    apply UInt8.toNat_inj.mp
    have hlt := b.toNat_lt
    rw [UInt8.toNat_add, UInt8.toNat_ofNat']
    dsimp only at hlow hhigh ⊢
    omega
  unfold short
  dsimp only
  split
  · rename_i h
    exact hslot (.iload, .iload0) h.1 h.2
  split
  · rename_i h
    exact hslot (.aload, .aload0) h.1 h.2
  split
  · rename_i h
    exact hslot (.istore, .istore0) h.1 h.2
  split
  · rename_i h
    exact hslot (.astore, .astore0) h.1 h.2
  · exact ⟨rfl, rfl⟩

/-- A load or store whose variable is an operand is shown with it, and so it is in the wide form. -/
theorem shown_onSlot (c : ParsedClass) {op : Opcode} {slot : Nat} {i : Instr}
    (h : onSlot? op slot = some i) :
    i.Shown c op (toString slot) ∧ i.Shown c .wide (op.mnemonic ++ " " ++ toString slot) := by
  unfold onSlot? at h
  have hall : ∀ ops : Opcode × Opcode, op = ops.1 → ShownSlot ops slot op (toString slot) ∧
      ShownSlot ops slot .wide (op.mnemonic ++ " " ++ toString slot) := by
    rintro ops rfl
    exact ⟨.inr (.inl ⟨rfl, rfl⟩), .inr (.inr ⟨rfl, rfl⟩)⟩
  split at h
  · rename_i hop
    cases h
    exact hall (.iload, .iload0) hop
  split at h
  · rename_i hop
    cases h
    exact hall (.aload, .aload0) hop
  split at h
  · rename_i hop
    cases h
    exact hall (.istore, .istore0) hop
  split at h
  · rename_i hop
    cases h
    exact hall (.astore, .astore0) hop
  · cases h

/-- An instruction with the index of a constant is shown if the constant is. -/
theorem listed_constant {c : ParsedClass} {op : Opcode} {i : Instr} {k : UInt16}
    (hi : i.index? = some k) (h : ∀ text, c.constant? k = some text → i.Shown c op text) :
    i.Listed c op (c.constant k) := by
  cases hk : c.constant? k with
  | some text => exact .inl ⟨text, constant_eq_ok hk, h text hk⟩
  | none =>
    have hcircular := constant?_eq_none_iff.mp hk
    exact .inr ⟨k, hi, hcircular, constant_eq_endless hcircular⟩

/-- What opcodes with the index of a constant are shown as. -/
theorem listed_indexed (c : ParsedClass) (op : Opcode) (i : UInt16) :
    (indexed op i).Listed c op (c.constant i) := by
  unfold indexed
  split
  · rename_i h
    exact listed_constant rfl fun _ htext => ⟨.inr h, htext⟩
  split
  · exact listed_constant rfl fun _ htext => ⟨rfl, htext⟩
  · exact listed_constant rfl fun _ htext => ⟨rfl, htext⟩

section Shown

variable {code : Array UInt8} {o n : Nat} {op : Opcode} {i : Instr}

/-- Operands of a fixed size. -/
theorem listed_fixed (c : ParsedClass) (h : operands code o op (operandForm op) = some (i, n))
    (hw : operandForm op ≠ .wide) : i.Listed c op (c.fixedOperand code o (operandForm op)) := by
  cases hform : operandForm op with
  | none =>
    rw [hform, operands] at h
    split at h
    · cases h
      exact .inl ⟨"", rfl, shown_short c op⟩
    · cases h
  | shortConstant =>
    have hop : op = .ldc := eq_of_form hform rfl
    simp only [hform, operands, Option.bind_eq_bind, Option.bind_eq_some_iff] at h
    obtain ⟨b, hb, h⟩ := h
    cases h
    rw [fixedOperand, byteAt_eq hb]
    exact listed_constant rfl fun _ htext => ⟨.inl hop, htext⟩
  | slot =>
    simp only [hform, operands, Option.bind_eq_bind, Option.bind_eq_some_iff] at h
    obtain ⟨b, hb, j, hj, h⟩ := h
    cases h
    rw [fixedOperand, unsignedAt_one hb]
    exact .inl ⟨_, rfl, (shown_onSlot c hj).1⟩
  | elementType =>
    have hop : op = .newArray := eq_of_form hform rfl
    simp only [hform, operands, Option.bind_eq_bind, Option.bind_eq_some_iff] at h
    obtain ⟨b, hb, h⟩ := h
    cases h
    rw [fixedOperand, byteAt_eq hb]
    exact .inl ⟨_, rfl, hop, rfl⟩
  | increment =>
    have hop : op = .iinc := eq_of_form hform rfl
    simp only [hform, operands, Option.bind_eq_bind, Option.bind_eq_some_iff] at h
    obtain ⟨slot, hslot, delta, hdelta, h⟩ := h
    cases h
    rw [fixedOperand, unsignedAt_one hslot, signed1_eq hdelta]
    exact .inl ⟨_, rfl, .inl ⟨hop, rfl⟩⟩
  | branch =>
    simp only [hform, operands, Option.bind_eq_bind, Option.bind_eq_some_iff] at h
    obtain ⟨d, hd, h⟩ := h
    split at h
    · cases h
    · rename_i hneg
      cases h
      obtain ⟨t, ht⟩ : ∃ t : Nat, (o : Int) + d.toInt16.toInt = t :=
        ⟨((o : Int) + d.toInt16.toInt).toNat, by omega⟩
      rw [fixedOperand, signed2_eq hd]
      exact .inl ⟨_, rfl, rfl, by rw [ht]; rfl⟩
  | constant =>
    simp only [hform, operands, Option.bind_eq_bind, Option.bind_eq_some_iff] at h
    obtain ⟨k, hk, h⟩ := h
    cases h
    rw [fixedOperand, operandConstant_eq c hk]
    exact listed_indexed c op k
  | paddedConstant =>
    simp only [hform, operands, Option.bind_eq_bind, Option.bind_eq_some_iff] at h
    obtain ⟨k, hk, count, -, zero, -, h⟩ := h
    split at h
    · rename_i hop
      cases h
      rw [fixedOperand, operandConstant_eq c hk]
      exact listed_constant rfl fun _ htext => ⟨hop.1, htext⟩
    · cases h
  | wide => exact absurd hform hw
  | byte | short | wideBranch | dimensions | tableSwitch | lookupSwitch =>
    rw [hform] at h
    cases h

/-- The wide form. -/
theorem shown_wide (c : ParsedClass) (cut : ReadError) (h : operands code o op .wide = some (i, n)) :
    ∃ text, wideOperand code cut o = .ok (text, n) ∧ i.Shown c .wide text := by
  simp only [operands, Option.bind_eq_bind, Option.bind_eq_some_iff] at h
  obtain ⟨b, hb, slot, hslot, h⟩ := h
  have hfour := le_size_of_u2? hslot
  unfold wideOperand
  simp only [need_eq (show o + 4 ≤ code.size by omega), byteAt_eq hb, unsignedAt_two hslot, bind,
    Except.bind]
  split at h
  · rename_i hinc
    obtain ⟨d, hd, h⟩ := Option.bind_eq_some_iff.mp h
    have hsix := le_size_of_u2? hd
    cases h
    rw [if_pos hinc, need_eq (by omega), signed2_eq hd]
    exact ⟨_, rfl, .inr ⟨rfl, rfl⟩⟩
  · rename_i hinc
    obtain ⟨j, hj, h⟩ := Option.bind_eq_some_iff.mp h
    cases h
    rw [if_neg hinc]
    exact ⟨_, rfl, (shown_onSlot c hj).2⟩

/-! ## Listings -/

/-- A listing shows the instruction that is decoded, if its constant can be shown. -/
theorem decode_shown (h : Instr.decode code o = some (i, n)) (c : ParsedClass) :
    (∃ op text, c.decode code o = .ok (⟨o, op, text⟩, n) ∧ i.Shown c op text) ∨
      ∃ k, i.index? = some k ∧ c.Circular k ∧ c.decode code o = .error (.endless k.toNat) := by
  simp only [Instr.decode, Option.bind_eq_bind, Option.bind_eq_some_iff] at h
  obtain ⟨b, hb, h⟩ := h
  obtain ⟨hle, hsize⟩ := size_of_operands h (Array.getElem?_eq_some_iff.mp hb).1
  have hknown : Opcode.isKnown ⟨b⟩ = true := by
    by_cases hf : operandForm ⟨b⟩ = .none
    · rw [hf, operands] at h
      split at h
      · rename_i hk
        exact hk
      · cases h
    · exact isKnown_of_operandForm hf
  unfold ParsedClass.decode
  simp only [byteAt_eq hb, hknown, Bool.not_true, Bool.false_eq_true, if_false, bind, Except.bind, pure,
    Except.pure]
  rcases hsize with hsize | ⟨hform, -⟩
  · have hw : operandForm ⟨b⟩ ≠ .wide := by
      intro hw
      rw [hw] at hsize
      cases hsize
    rcases listed_fixed c h hw with ⟨text, htext, hshown⟩ | ⟨k, hk, hcircular, hx⟩
    · simp only [hsize, need_eq hle, htext]
      exact .inl ⟨_, _, rfl, hshown⟩
    · simp only [hsize, need_eq hle, hx]
      exact .inr ⟨k, hk, hcircular, rfl⟩
  · have hop : (⟨b⟩ : Opcode) = .wide := eq_of_form hform rfl
    rw [hform] at h
    obtain ⟨text, htext, hshown⟩ :=
      shown_wide c (.truncatedInstruction (Opcode.mnemonic ⟨b⟩) o) h
    simp only [hform, OperandForm.size?, if_true, htext]
    exact .inl ⟨_, _, rfl, hop ▸ hshown⟩

end Shown

theorem instructionsFrom_of_le (c : ParsedClass) {code : Array UInt8} {o : Nat}
    (ho : code.size ≤ o) (turns : Nat) (acc : List Instruction) :
    c.instructionsFrom code turns o acc = .ok acc.reverse := by
  cases turns with
  | zero => rfl
  | succ turns => exact if_pos ho

theorem instructionsFrom_succ (c : ParsedClass) {code : Array UInt8} {o n : Nat}
    (ho : ¬ code.size ≤ o) {i : Instruction} (hi : c.decode code o = .ok (i, n)) (turns : Nat)
    (acc : List Instruction) :
    c.instructionsFrom code (turns + 1) o acc = c.instructionsFrom code turns (o + n) (i :: acc) := by
  refine Eq.trans (if_neg ho) ?_
  rw [hi]

/-- The lines of a listing show instructions at their places. -/
def ShowsAll (c : ParsedClass) : List (Nat × Instr) → List Instruction → Prop :=
  List.Forall₂ fun e x => x.offset = e.1 ∧ e.2.Shown c x.op x.operand

/-- At the end of a body there is nothing to show. -/
theorem instructionsFrom_end (c : ParsedClass) {code : Array UInt8} {turns o : Nat}
    {is : List (Nat × Instr)} (ho : o = code.size) (h : decodeFrom code turns o = some is)
    (acc : List Instruction) : is = [] ∧ c.instructionsFrom code turns o acc = .ok acc.reverse := by
  refine ⟨?_, instructionsFrom_of_le c (Nat.le_of_eq ho.symm) turns acc⟩
  cases turns with
  | zero =>
    rw [decodeFrom, if_pos ho] at h
    exact (Option.some.inj h).symm
  | succ turns =>
    rw [decodeFrom, if_pos ho] at h
    exact (Option.some.inj h).symm

/-- Listing a body comes to lines that show its instructions and nothing else, or to no end since a
constant that one of them refers to refers to itself. -/
def Lists (c : ParsedClass) (is : List (Nat × Instr)) (x : Except ReadError (List Instruction)) : Prop :=
  (∃ l, x = .ok l ∧ c.ShowsAll is l) ∨
    ∃ e ∈ is, ∃ k, e.2.index? = some k ∧ c.Circular k ∧ x = .error (.endless k.toNat)

theorem instructionsFrom_shown {code : Array UInt8} {turns : Nat} (c : ParsedClass) :
    ∀ {o : Nat} {is : List (Nat × Instr)}, decodeFrom code turns o = some is → ∀ acc,
      (∃ l, c.instructionsFrom code turns o acc = .ok (acc.reverse ++ l) ∧ c.ShowsAll is l) ∨
        ∃ e ∈ is, ∃ k, e.2.index? = some k ∧ c.Circular k ∧
          c.instructionsFrom code turns o acc = .error (.endless k.toNat) := by
  induction turns with
  | zero =>
    intro o is h acc
    by_cases ho : o = code.size
    · obtain ⟨rfl, hend⟩ := c.instructionsFrom_end ho h acc
      exact .inl ⟨[], by rw [hend, List.append_nil], .nil⟩
    · rw [decodeFrom, if_neg ho] at h
      cases h
  | succ turns ih =>
    intro o is h acc
    by_cases ho : o = code.size
    · obtain ⟨rfl, hend⟩ := c.instructionsFrom_end ho h acc
      exact .inl ⟨[], by rw [hend, List.append_nil], .nil⟩
    · rw [decodeFrom, if_neg ho] at h
      obtain ⟨⟨i, n⟩, hi, h⟩ := Option.bind_eq_some_iff.mp h
      obtain ⟨is', his, h⟩ := Option.bind_eq_some_iff.mp h
      have hlt : o < code.size := by
        obtain ⟨b, hb, -⟩ := Option.bind_eq_some_iff.mp hi
        exact (Array.getElem?_eq_some_iff.mp hb).1
      cases h
      rcases decode_shown hi c with ⟨op, text, hdec, hshown⟩ | ⟨k, hk, hcircular, hdec⟩
      · rw [instructionsFrom_succ c (Nat.not_le.mpr hlt) hdec]
        rcases ih his (⟨o, op, text⟩ :: acc) with ⟨l, hl, hall⟩ | ⟨e, he, hend⟩
        · exact .inl ⟨⟨o, op, text⟩ :: l, by rw [hl]; simp, .cons ⟨rfl, hshown⟩ hall⟩
        · exact .inr ⟨e, List.mem_cons_of_mem _ he, hend⟩
      · refine .inr ⟨(o, i), List.mem_cons_self, k, hk, hcircular, ?_⟩
        refine Eq.trans (if_neg (Nat.not_le.mpr hlt)) ?_
        rw [hdec]

/-- A listing shows the instructions of a body that is decoded, and nothing else. -/
theorem instructions_shown {code : Array UInt8} {is : List (Nat × Instr)}
    (h : decodeAll code = some is) (c : ParsedClass) : c.Lists is (c.instructions code) :=
  instructionsFrom_shown c h []

/-- All constants of the class can be shown. -/
def Showable (c : ParsedClass) : Prop := ∀ i, ¬ c.Circular i

theorem Showable.lists {c : ParsedClass} (h : c.Showable) {is : List (Nat × Instr)}
    {x : Except ReadError (List Instruction)} (hx : c.Lists is x) : ∃ l, x = .ok l ∧ c.ShowsAll is l := by
  rcases hx with hx | ⟨e, -, k, -, hk, -⟩
  · exact hx
  · exact absurd hk (h k)

end ParsedClass
end Kotlet

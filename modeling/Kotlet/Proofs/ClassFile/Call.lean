import Kotlet.Proofs.ClassFile.Flow.Label

/-!
# Calls of a builder

A body is the result of a sequence of calls, each of which writes one instruction at most.

* `Call` : a call; `Call.run` : what a sequence of them makes of a body and of the pool;
* `Call.effect` : how many slots the instruction of a call adds to the operand stack;
* `Written`, `Call.written` : the calls that wrote an instruction, with its place and the height of
  the stack before it;
* `Call.Legal` : opcodes without operands are written as such, branches are known to the table of
  effects, and labels are made before they are used; `Call.Known` : the same for any branches;
* `Call.instr` : the instruction that a call writes; `Call.live` : the calls that write one, since
  control can come there; `Call.boundAt` : where a label gets its place;
* `Did` : the four things that a call can do to a body, and `did_of_apply` : there are no others,
  unless the call fails.
-/

namespace Kotlet
namespace ClassFile

open ParsedClass Instr

/-- A call of the builder of a body. Labels are named by number, in the order they are made. -/
inductive Call where
  | emit (op : Opcode)
  | pushInt (n : Int32)
  | pushBool (b : Bool)
  | pushString (s : String)
  | pushClass (name : String)
  | load (kind : LocalKind) (slot : Int)
  | store (kind : LocalKind) (slot : Int)
  | iinc (slot delta : Int)
  | newLabel
  | jump (op : Opcode) (l : Nat)
  | bind (l : Nat)
  | field (op : Opcode) (owner name desc : String)
  | invoke (op : Opcode) (owner name desc : String)
  | typeOp (op : Opcode) (name : String)
  | newArray (elements : UInt8)
  | finish (labels : List Nat)

namespace Call

/-- What a call makes of the pool and of the body. -/
def apply (x : Pool × Code) : Call → Pool × Code
  | emit op => (x.1, x.2.emit op)
  | pushInt n => x.2.pushInt x.1 n
  | pushBool b => (x.1, x.2.pushBool b)
  | pushString s => x.2.pushString x.1 s
  | pushClass name => x.2.pushClass x.1 name
  | load kind slot => (x.1, x.2.load kind slot)
  | store kind slot => (x.1, x.2.store kind slot)
  | iinc slot delta => (x.1, x.2.iinc slot delta)
  | newLabel => (x.1, x.2.newLabel.2)
  | jump op l => (x.1, x.2.jump op l)
  | bind l => (x.1, x.2.bind l)
  | field op owner name desc => x.2.field x.1 op owner name desc
  | invoke op owner name desc => x.2.invoke x.1 op owner name desc
  | typeOp op name => x.2.typeOp x.1 op name
  | newArray elements => (x.1, x.2.newArray elements)
  | finish labels => (x.1, x.2.finish labels)

/-- What a sequence of calls makes of the pool and of the body. -/
def run (x : Pool × Code) (calls : List Call) : Pool × Code := calls.foldl apply x

/-- How many slots the instruction of a call adds to the operand stack. -/
def effect : Call → Int
  | emit op | jump op _ | typeOp op _ => op.effect?.getD 0
  | pushInt _ | pushBool _ | pushString _ | pushClass _ | load _ _ => 1
  | store _ _ => -1
  | field op _ _ desc =>
    if op = .getStatic then slotSize desc
    else if op = .putStatic then -slotSize desc
    else if op = .getField then slotSize desc - 1
    else -slotSize desc - 1
  | invoke op _ _ desc =>
    match descriptorSlots? desc with
    | none => 0
    | some (args, result) =>
      if op = .invokeStatic then (result : Int) - args else (result : Int) - args - 1
  | iinc _ _ | newArray _ | newLabel | bind _ | finish _ => 0

/-- A call that can be made when there are `labels` labels. -/
def Legal (labels : Nat) : Call → Prop
  | emit op => operandForm op = .none
  | jump op l => op.effect? ≠ none ∧ l < labels
  | bind l => l < labels
  | finish ls => ∀ l ∈ ls, l < labels
  | _ => True

instance (labels : Nat) (call : Call) : Decidable (call.Legal labels) := by
  cases call <;> unfold Legal <;> infer_instance

/-- A call whose opcode, if it is given one to write by itself, has no operands, and whose label is
one of the `labels` that there are. -/
def Known (labels : Nat) : Call → Prop
  | emit op => operandForm op = .none
  | jump _ l | bind l => l < labels
  | _ => True

instance (labels : Nat) (call : Call) : Decidable (call.Known labels) := by
  cases call <;> unfold Known <;> infer_instance

theorem Legal.known {labels : Nat} {call : Call} (h : call.Legal labels) : call.Known labels := by
  cases call with
  | emit op => exact h
  | jump op l => exact h.2
  | bind l => exact h
  | _ => trivial

/-- The number of labels after a call. -/
def labelsAfter (labels : Nat) : Call → Nat
  | newLabel => labels + 1
  | _ => labels

/-- A sequence of calls that can be made when there are `labels` labels. -/
def AllLegal : Nat → List Call → Prop
  | _, [] => True
  | labels, call :: calls => call.Legal labels ∧ AllLegal (call.labelsAfter labels) calls

/-- A sequence of known calls, when there are `labels` labels. -/
def AllKnown : Nat → List Call → Prop
  | _, [] => True
  | labels, call :: calls => call.Known labels ∧ AllKnown (call.labelsAfter labels) calls

theorem AllLegal.known {labels : Nat} {calls : List Call} (h : AllLegal labels calls) :
    AllKnown labels calls := by
  induction calls generalizing labels with
  | nil => trivial
  | cons call calls ih => exact ⟨h.1.known, ih h.2⟩

instance decidableAllKnown : (labels : Nat) → (calls : List Call) → Decidable (AllKnown labels calls)
  | _, [] => .isTrue trivial
  | labels, call :: calls =>
    haveI := decidableAllKnown (call.labelsAfter labels) calls
    inferInstanceAs (Decidable (_ ∧ _))

instance decidableAllLegal : (labels : Nat) → (calls : List Call) → Decidable (AllLegal labels calls)
  | _, [] => .isTrue trivial
  | labels, call :: calls =>
    haveI := decidableAllLegal (call.labelsAfter labels) calls
    inferInstanceAs (Decidable (_ ∧ _))

/-! ## The instruction of a call -/

/-- Whether a call is one for an instruction. -/
def writes : Call → Bool
  | newLabel | bind _ | finish _ => false
  | _ => true

/-- The variable that is written for an increment. It is not checked, so it is cut to the bits that
there is room for. -/
def incremented (slot delta : Int) : Nat :=
  if slot ≤ 255 ∧ -0x80 ≤ delta ∧ delta ≤ 0x7f then (Int8.ofInt slot).toUInt8.toNat
  else (Int16.ofInt slot).toUInt16.toNat

/-- The count that is written for a call of a method of an interface: that of its argument slots and
one for the object, cut to a byte. -/
def argumentCount (desc : String) : UInt8 :=
  match descriptorSlots? desc with
  | none => 0
  | some (args, _) => UInt8.ofNat (args + 1)

/-- The instruction that a call writes, where its constant comes from the given pool. Branches name
labels. -/
def instr (p : Pool) : Call → Instr
  | emit op => .plain op
  | pushInt n =>
    if -1 ≤ n ∧ n ≤ 5 then .plain ⟨UInt8.ofNat (3 + n.toInt).toNat⟩ else .constant (p.integer n).1
  | pushBool b => .plain (if b then .iconst1 else .iconst0)
  | pushString s => .constant (p.string s).1
  | pushClass name => .constant (p.classRef name).1
  | load kind slot => .load kind slot.toNat
  | store kind slot => .store kind slot.toNat
  | iinc slot delta => .increment (incremented slot delta) delta
  | jump op l => .branch op l
  | field op owner name desc => .member op (p.fieldRef owner name desc).1
  | invoke op owner name desc =>
    if op = .invokeInterface then
      .interface (p.interfaceMethodRef owner name desc).1 (argumentCount desc)
    else .member op (p.methodRef owner name desc).1
  | typeOp op name => .onType op (p.classRef name).1
  | newArray elements => .newArray elements
  | newLabel | bind _ | finish _ => .plain .nop

end Call

/-- A call that wrote an instruction. -/
structure Written where
  /-- Where the instruction starts. -/
  at_ : Nat
  /-- The height of the operand stack that was recorded before it. -/
  depth : Nat
  /-- The call. -/
  call : Call

/-- The calls that wrote an instruction, in order. -/
def Call.written (x : Pool × Code) : List Call → List Written
  | [] => []
  | call :: calls =>
    let y := call.apply x
    if x.2.size < y.2.size then ⟨x.2.size, x.2.depth, call⟩ :: written y calls
    else written y calls

/-- A call for an instruction, made where control could come. -/
structure Live where
  /-- Where the instruction starts. -/
  at_ : Nat
  /-- The pool before the call. -/
  pool : Pool
  /-- The call. -/
  call : Call

/-- The instruction of a call, with its place. -/
def Live.placed (w : Live) : Nat × Instr := (w.at_, w.call.instr w.pool)

/-- The calls for an instruction that were made where control could come, in order. -/
def Call.live (x : Pool × Code) : List Call → List Live
  | [] => []
  | call :: calls =>
    let y := call.apply x
    if x.2.reachable && call.writes then ⟨x.2.size, x.1, call⟩ :: live y calls else live y calls

/-- Where a sequence of calls gives a label its place. -/
def Call.boundAt (l : Nat) (x : Pool × Code) : List Call → Option Nat
  | [] => none
  | call :: calls =>
    let y := call.apply x
    match call with
    | bind k => if k = l then some x.2.size else boundAt l y calls
    | _ => boundAt l y calls

theorem Call.boundAt_cons {l : Nat} {x : Pool × Code} {call : Call} (h : ∀ k, call ≠ .bind k)
    (calls : List Call) : boundAt l x (call :: calls) = boundAt l (call.apply x) calls := by
  cases call with
  | bind k => exact absurd rfl (h k)
  | _ => rfl

/-! ## What a call can do -/

namespace Code

variable {c c' : Code}

/-- Nothing but the number of labels and the failure has changed. -/
structure Still (c c' : Code) : Prop where
  bytes : c'.bytes = c.bytes
  depth : c'.depth = c.depth
  maxStack : c'.maxStack = c.maxStack
  reachable : c'.reachable = c.reachable
  label : ∀ l, c'.label l = c.label l

theorem Still.refl (c : Code) : Still c c := ⟨rfl, rfl, rfl, rfl, fun _ => rfl⟩

theorem Still.fail (c : Code) (e : BuildError) : Still c (c.fail e) := by
  obtain ⟨err, h⟩ := c.fail_eq e
  rw [h]
  exact ⟨rfl, rfl, rfl, rfl, fun _ => rfl⟩

/-- An instruction that is no branch was written, with the given height of the stack after it. -/
structure Wrote (i : Instr) (height : Nat) (c c' : Code) : Prop where
  live : c.reachable = true
  label : ∀ l, c'.label l = c.label l
  plain : ∀ op l, i ≠ .branch op l
  bytes : ∃ bs : List UInt8, 0 < bs.length ∧ c'.bytes = c.bytes ++ bs.toArray ∧
    decode (c.bytes ++ bs.toArray) c.bytes.size = some (i, bs.length)
  falls : c'.reachable = i.falls
  depth : i.falls = true → c'.depth = height
  maxStack : c.maxStack ≤ c'.maxStack
  height : height ≤ c'.maxStack

/-- What a call can do to a body, when the pool is the given one. -/
inductive Did (p : Pool) (call : Call) (c c' : Code) : Prop where
  | nothing (hn : ∀ l, call ≠ .bind l) (hq : c.reachable = false ∨ call.writes = false)
      (h : Still c c')
  | wrote {height : Nat} (hw : call.writes = true) (hd : (c.depth : Int) + call.effect = height)
      (h : Wrote (call.instr p) height c c')
  | jumped {op : Opcode} {l height : Nat} (hi : call = .jump op l) (hr : c.reachable = true)
      (hd : (c.depth : Int) + call.effect = height) (h : Jumped op l height c c')
      (same : ∀ d, (c.label l).depth = some d → d = height)
      (dead : (c.label l).depth = none → (c.label l).offset = none)
  | bound {l height : Nat} (hi : call = .bind l) (hr : c.reachable = true → c.depth = height)
      (same : ∀ d, (c.label l).depth = some d → d = height) (h : Bound l height c c')
      (free : (c.label l).offset = none)

/-! ## Plain instructions -/

/-- Bytes were written, and nothing else of what counts for the stack has changed. -/
structure Appended (bs : List UInt8) (c c' : Code) : Prop where
  bytes : c'.bytes = c.bytes ++ bs.toArray
  labels : c'.labels = c.labels
  depth : c'.depth = c.depth
  maxStack : c'.maxStack = c.maxStack
  reachable : c'.reachable = c.reachable

theorem appended_write (c : Code) (bs : List UInt8) : Appended bs c (c.write bs) :=
  ⟨write_bytes c bs, rfl, rfl, rfl, rfl⟩

theorem appended_useLocal (c : Code) (bs : List UInt8) (slot : Int) :
    Appended bs c ((c.write bs).useLocal slot) :=
  ⟨write_bytes c bs, rfl, rfl, rfl, rfl⟩

/-- The stack does not get below zero where the body does not fail. -/
theorem adjust_of_error {d : Int} (he : (c.adjust d).error = none) :
    ∃ height : Nat, (c.depth : Int) + d = height ∧
      c.adjust d = { c with depth := height, maxStack := max c.maxStack height } := by
  by_cases hd : (c.depth : Int) + d < 0
  · simp only [adjust, if_pos hd] at he
    exact absurd he (fail_error c _)
  · have hn : (c.depth : Int) + d = ((c.depth : Int) + d).toNat := by omega
    exact ⟨_, hn, adjust_of_eq hn⟩

theorem Appended.wrote {bs : List UInt8} {d : Int} {i : Instr} (h : Appended bs c c')
    (hr : c.reachable = true) (hpos : 0 < bs.length)
    (hi : decode (c.bytes ++ bs.toArray) c.bytes.size = some (i, bs.length))
    (hf : i.falls = true) (hplain : ∀ op l, i ≠ .branch op l)
    (he : (c'.adjust d).error = none) :
    ∃ height : Nat, (c.depth : Int) + d = height ∧ Wrote i height c (c'.adjust d) := by
  obtain ⟨height, hd, heq⟩ := adjust_of_error he
  rw [h.depth] at hd
  refine ⟨height, hd, ?_⟩
  rw [heq]
  exact
    { live := hr
      label := fun l => by simp only [label, h.labels]
      plain := hplain
      bytes := ⟨bs, hpos, h.bytes, hi⟩
      falls := by rw [hf]; exact h.reachable.trans hr
      depth := fun _ => rfl
      maxStack := by rw [h.maxStack]; exact Nat.le_max_left _ _
      height := Nat.le_max_right _ _ }

/-- An instruction that leaves the stack as it is needs no change of its height. -/
theorem Appended.wrote_flat {bs : List UInt8} {i : Instr} (h : Appended bs c c')
    (hr : c.reachable = true) (hmax : c.depth ≤ c.maxStack) (hpos : 0 < bs.length)
    (hi : decode (c.bytes ++ bs.toArray) c.bytes.size = some (i, bs.length))
    (hf : i.falls = true) (hplain : ∀ op l, i ≠ .branch op l) : Wrote i c.depth c c' where
  live := hr
  label l := by simp only [label, h.labels]
  plain := hplain
  bytes := ⟨bs, hpos, h.bytes, hi⟩
  falls := by rw [hf]; exact h.reachable.trans hr
  depth _ := h.depth
  maxStack := Nat.le_of_eq h.maxStack.symm
  height := by rw [h.maxStack]; exact hmax

theorem isPlain_of_effect? {op : Opcode} (hf : operandForm op = .none) (he : op.effect? ≠ none) :
    isPlain op = true := by
  have hall : ∀ op : Opcode, operandForm op = .none → op.effect? ≠ none →
      op.byte.toNat < 202 ∧ short op = .plain op := by
    decide +kernel
  exact isPlain_iff.mpr ⟨hf, hall op hf he⟩

theorem wrote_emit {op : Opcode} (hr : c.reachable = true) (hf : operandForm op = .none)
    (he : (c.emit op).error = none) :
    ∃ height : Nat, (c.depth : Int) + op.effect?.getD 0 = height ∧
      Wrote (.plain op) height c (c.emit op) := by
  unfold emit at he ⊢
  simp only [hr, Bool.not_true, Bool.false_eq_true, if_false] at he ⊢
  cases heff : op.effect? with
  | none =>
    simp only [heff] at he
    exact absurd he (fail_error c _)
  | some d =>
    simp only [heff, endBlock_error] at he ⊢
    obtain ⟨height, hd, heq⟩ := adjust_of_error he
    have hbytes : (((c.write [op.byte]).adjust d).endBlock op).bytes =
        c.bytes ++ [op.byte].toArray := by
      rw [endBlock_bytes, adjust_bytes, write_bytes]
    refine ⟨height, hd, ?_⟩
    rw [heq] at hbytes ⊢
    have hends : ∀ x : Code, (x.endBlock op).maxStack = x.maxStack ∧
        (x.endBlock op).reachable = (x.reachable && !op.endsBlock) ∧
        (op.endsBlock = false → (x.endBlock op).depth = x.depth) := by
      intro x
      unfold endBlock
      cases op.endsBlock <;> simp
    exact
      { live := hr
        label := fun l => by simp only [label, endBlock_labels, write]
        plain := fun _ _ h => by cases h
        bytes := ⟨[op.byte], by simp, hbytes,
          decode_plain (isPlain_of_effect? hf (by rw [heff]; simp))⟩
        falls := by
          rw [(hends _).2.1]
          simp [write, hr, falls]
        depth := fun h => (hends _).2.2 (by simpa [falls] using h)
        maxStack := by rw [(hends _).1]; exact Nat.le_max_left _ _
        height := by rw [(hends _).1]; exact Nat.le_max_right _ _ }

theorem wrote_ldc (i : UInt16) (hr : c.reachable = true) (he : (c.ldc i).error = none) :
    ∃ height : Nat, (c.depth : Int) + 1 = height ∧ Wrote (.constant i) height c (c.ldc i) := by
  unfold ldc at he ⊢
  simp only [hr, Bool.not_true, Bool.false_eq_true, if_false] at he ⊢
  split at he
  · rename_i hi
    rw [if_pos hi]
    exact (appended_write c _).wrote hr (by simp) (decode_ldc hi) rfl (fun _ _ h => by cases h) he
  · rename_i hi
    rw [if_neg hi]
    exact (appended_write c _).wrote hr (by simp) (decode_indexed .ldcW (by decide) i) rfl
      (fun _ _ h => by cases h) he

theorem pushString_eq (p : Pool) (c : Code) (s : String) :
    (c.pushString p s).2 = c.ldc (p.string s).1 := by
  unfold pushString
  generalize p.string (Text.ofString s) = x
  rfl

theorem pushClass_eq (p : Pool) (c : Code) (name : String) :
    (c.pushClass p name).2 = c.ldc (p.classRef name).1 := by
  unfold pushClass
  generalize p.classRef name = x
  rfl

theorem wrote_onLocal {first long : Opcode} {make : Nat → Instr}
    (ha : Instr.Access first long make) {d : Int} (slot : Int) (hr : c.reachable = true)
    (hf : ∀ n, (make n).falls = true) (hplain : ∀ n op l, make n ≠ .branch op l)
    (he : ((c.onLocal first long slot).adjust d).error = none) :
    ∃ height : Nat, (c.depth : Int) + d = height ∧
      Wrote (make slot.toNat) height c ((c.onLocal first long slot).adjust d) := by
  unfold onLocal at he ⊢
  by_cases hbad : slot < 0 ∨ 65535 < slot
  · simp only [if_pos hbad] at he
    have hfail : ((c.fail (.badSlot slot)).useLocal slot).error = none := adjust_error _ _ he
    exact absurd hfail (fail_error c _)
  · rw [if_neg hbad] at he ⊢
    obtain ⟨n, rfl⟩ : ∃ n : Nat, slot = n := ⟨slot.toNat, by omega⟩
    by_cases h3 : (n : Int) ≤ 3
    · rw [if_pos h3] at he ⊢
      exact (appended_useLocal c _ _).wrote hr (by simp) (decode_short ha (by omega)) (hf _)
        (hplain _) he
    · rw [if_neg h3] at he ⊢
      by_cases h255 : (n : Int) ≤ 255
      · rw [if_pos h255] at he ⊢
        exact (appended_useLocal c _ _).wrote hr (by simp)
          (decode_slot ha.form (by omega) (ha.slot n)) (hf _) (hplain _) he
      · rw [if_neg h255] at he ⊢
        exact (appended_useLocal c _ _).wrote hr (by simp)
          (decode_wide ha.ne (by omega) (ha.slot n)) (hf _) (hplain _) he

theorem wrote_iinc {slot delta : Int} (hr : c.reachable = true) (hmax : c.depth ≤ c.maxStack)
    (he : (c.iinc slot delta).error = none) :
    Wrote (.increment (Call.incremented slot delta) delta) c.depth c (c.iinc slot delta) := by
  unfold iinc at he ⊢
  simp only [hr, Bool.not_true, Bool.false_eq_true, if_false] at he ⊢
  by_cases hbad : delta < -0x8000 ∨ 0x7fff < delta
  · simp only [if_pos hbad] at he
    exact absurd he (fail_error c _)
  · rw [if_neg hbad]
    unfold Call.incremented
    split
    · rename_i hshort
      have hdec := @decode_increment c.bytes (Int8.ofInt slot).toUInt8 (Int8.ofInt delta).toUInt8
      rw [Int8.toInt8_toUInt8, Int8.toInt_ofInt_of_le (by omega) (by omega)] at hdec
      exact (appended_useLocal c _ _).wrote_flat hr hmax (by simp) hdec rfl fun _ _ h => by cases h
    · have hdec :=
        @decode_wideIncrement c.bytes (Int16.ofInt slot).toUInt16 (Int16.ofInt delta).toUInt16
      rw [toInt_ofInt16 (by omega)] at hdec
      exact (appended_useLocal c _ _).wrote_flat hr hmax (by simp) hdec rfl fun _ _ h => by cases h

/-! ## Members and types -/

theorem operandForm_member (op : Opcode) (h : op = .getStatic ∨ op = .putStatic ∨ op = .getField ∨
    op = .putField ∨ op = .invokeStatic ∨ op = .invokeVirtual ∨ op = .invokeSpecial) :
    operandForm op = .constant ∧ ∀ i, indexed op i = .member op i := by
  rcases h with rfl | rfl | rfl | rfl | rfl | rfl | rfl <;> exact ⟨by decide, fun _ => rfl⟩

theorem operandForm_type {op : Opcode} (h : op = .newObject ∨ op = .anewArray ∨ op = .checkCast ∨
    op = .instanceOf) : operandForm op = .constant ∧ ∀ i, indexed op i = .onType op i := by
  rcases h with rfl | rfl | rfl | rfl <;> exact ⟨by decide, fun _ => rfl⟩

/-- An instruction with the index of a constant. -/
theorem wrote_indexed {op : Opcode} {i : Instr} {k : UInt16} {d : Int} (hr : c.reachable = true)
    (hop : operandForm op = .constant) (hi : indexed op k = i) (hf : i.falls = true)
    (hplain : ∀ op l, i ≠ .branch op l)
    (he : ((c.write (op.byte :: bytes2 k)).adjust d).error = none) :
    ∃ height : Nat, (c.depth : Int) + d = height ∧
      Wrote i height c ((c.write (op.byte :: bytes2 k)).adjust d) :=
  (appended_write c _).wrote hr (by simp) (by rw [decode_indexed op hop, hi]; rfl) hf hplain he

theorem did_field {p : Pool} {op : Opcode} {owner name desc : String}
    (he : (c.field p op owner name desc).2.error = none) :
    Did p (.field op owner name desc) c (c.field p op owner name desc).2 := by
  cases hr : c.reachable with
  | false =>
    simp only [field, hr, Bool.not_false, if_true]
    exact .nothing (fun _ h => by cases h) (.inl hr) (.refl c)
  | true =>
    have hone : ∀ d : Int, op = .getStatic ∨ op = .putStatic ∨ op = .getField ∨
        op = .putField → d = (Call.field op owner name desc).effect →
        ((c.write (op.byte :: bytes2 (p.fieldRef owner name desc).1)).adjust d).error = none →
        Did p (.field op owner name desc) c
          ((c.write (op.byte :: bytes2 (p.fieldRef owner name desc).1)).adjust d) := by
      intro d hop hd hk
      obtain ⟨hform, hind⟩ := operandForm_member op (by tauto)
      obtain ⟨height, hheight, hw⟩ := wrote_indexed hr hform (hind _) rfl
        (fun _ _ h => by cases h) hk
      exact .wrote rfl (hd ▸ hheight) hw
    unfold field at he ⊢
    simp only [hr, Bool.not_true, Bool.false_eq_true, if_false] at he ⊢
    by_cases h₁ : op = .getStatic
    · simp only [if_pos h₁] at he ⊢
      exact hone _ (.inl h₁) (by rw [Call.effect, if_pos h₁]) he
    by_cases h₂ : op = .putStatic
    · simp only [if_neg h₁, if_pos h₂] at he ⊢
      exact hone _ (.inr (.inl h₂)) (by rw [Call.effect, if_neg h₁, if_pos h₂]) he
    by_cases h₃ : op = .getField
    · simp only [if_neg h₁, if_neg h₂, if_pos h₃] at he ⊢
      exact hone _ (.inr (.inr (.inl h₃)))
        (by rw [Call.effect, if_neg h₁, if_neg h₂, if_pos h₃]) he
    by_cases h₄ : op = .putField
    · simp only [if_neg h₁, if_neg h₂, if_neg h₃, if_pos h₄] at he ⊢
      exact hone _ (.inr (.inr (.inr h₄)))
        (by rw [Call.effect, if_neg h₁, if_neg h₂, if_neg h₃]) he
    · simp only [if_neg h₁, if_neg h₂, if_neg h₃, if_neg h₄] at he
      exact absurd he (fail_error c _)

theorem did_invoke {p : Pool} {op : Opcode} {owner name desc : String}
    (he : (c.invoke p op owner name desc).2.error = none) :
    Did p (.invoke op owner name desc) c (c.invoke p op owner name desc).2 := by
  cases hr : c.reachable with
  | false =>
    simp only [invoke, hr, Bool.not_false, if_true]
    exact .nothing (fun _ h => by cases h) (.inl hr) (.refl c)
  | true =>
    unfold invoke at he ⊢
    simp only [hr, Bool.not_true, Bool.false_eq_true, if_false] at he ⊢
    cases hdesc : descriptorSlots? desc with
    | none =>
      simp only [hdesc] at he
      exact absurd he (fail_error c _)
    | some slots =>
      obtain ⟨args, result⟩ := slots
      simp only [hdesc] at he ⊢
      by_cases h₁ : op = .invokeStatic
      · simp only [if_pos h₁] at he ⊢
        obtain ⟨hform, hind⟩ := operandForm_member op (by tauto)
        obtain ⟨height, hheight, hw⟩ := wrote_indexed hr hform (hind _) rfl
          (fun _ _ h => by cases h) he
        exact .wrote rfl (by simpa [Call.effect, hdesc, h₁] using hheight)
          (by rw [Call.instr, if_neg (by rw [h₁]; decide)]; exact hw)
      by_cases h₂ : op = .invokeVirtual ∨ op = .invokeSpecial
      · simp only [if_neg h₁, if_pos h₂] at he ⊢
        obtain ⟨hform, hind⟩ := operandForm_member op (by tauto)
        obtain ⟨height, hheight, hw⟩ := wrote_indexed hr hform (hind _) rfl
          (fun _ _ h => by cases h) he
        exact .wrote rfl (by simpa [Call.effect, hdesc, h₁] using hheight)
          (by rw [Call.instr, if_neg (by rcases h₂ with h | h <;> rw [h] <;> decide)]; exact hw)
      by_cases h₃ : op = .invokeInterface
      · subst h₃
        simp only [if_neg h₁, if_neg h₂, if_true] at he ⊢
        obtain ⟨height, hheight, hw⟩ := (appended_write c _).wrote hr (by simp)
          (decode_interface _ _) rfl (fun _ _ h => by cases h) he
        exact .wrote rfl (by simpa [Call.effect, hdesc, h₁] using hheight)
          (by rw [Call.instr, if_pos rfl, Call.argumentCount, hdesc]; exact hw)
      · simp only [if_neg h₁, if_neg h₂, if_neg h₃] at he
        exact absurd he (fail_error c _)

theorem did_typeOp {p : Pool} {op : Opcode} {name : String}
    (he : (c.typeOp p op name).2.error = none) :
    Did p (.typeOp op name) c (c.typeOp p op name).2 := by
  cases hr : c.reachable with
  | false =>
    simp only [typeOp, hr, Bool.not_false, if_true]
    exact .nothing (fun _ h => by cases h) (.inl hr) (.refl c)
  | true =>
    unfold typeOp at he ⊢
    simp only [hr, Bool.not_true, Bool.false_eq_true, if_false] at he ⊢
    by_cases h : op = .newObject ∨ op = .anewArray ∨ op = .checkCast ∨ op = .instanceOf
    · simp only [if_pos h] at he ⊢
      obtain ⟨hform, hind⟩ := operandForm_type h
      obtain ⟨height, hheight, hw⟩ := wrote_indexed hr hform (hind _) rfl
        (fun _ _ h => by cases h) he
      exact .wrote rfl hheight hw
    · simp only [if_neg h] at he
      exact absurd he (fail_error c _)

/-! ## Labels -/

theorem arrive_of_error {l : Nat} (he : (c.arrive l).error = none) :
    (∀ d, (c.label l).depth = some d → d = c.depth) ∧
      ((c.label l).depth = none → (c.label l).offset = none) ∧ c.error = none := by
  unfold arrive at he
  cases hd : (c.label l).depth with
  | none =>
    cases ho : (c.label l).offset with
    | none =>
      simp only [hd, ho] at he
      exact ⟨fun d h => (by cases h), fun _ => rfl, he⟩
    | some o =>
      simp only [hd, ho] at he
      exact absurd he (fail_error c _)
  | some d =>
    simp only [hd] at he
    split at he
    · rename_i heq
      exact ⟨fun d' h => by cases h; exact heq, fun h => (by cases h), he⟩
    · exact absurd he (fail_error c _)

theorem did_jump {p : Pool} {op : Opcode} {l : Nat} (hl : l < c.labels.size)
    (he : (c.jump op l).error = none) : Did p (.jump op l) c (c.jump op l) := by
  cases hr : c.reachable with
  | false =>
    simp only [jump, hr, Bool.not_false, if_true]
    exact .nothing (fun _ h => by cases h) (.inl hr) (.refl c)
  | true =>
    cases hb : op.isBranch with
    | false =>
      simp only [jump, hr, hb, Bool.not_true, Bool.not_false, Bool.false_eq_true, if_false,
        if_true] at he
      exact absurd he (fail_error c _)
    | true =>
      -- The body fails neither when the branch is hooked, nor before.
      have hhook : ((((c.write [op.byte, 0, 0]).adjust (op.effect?.getD 0)).arrive l).hook l
          c.size).error = none := by
        simp only [jump, hr, hb, Bool.not_true, Bool.false_eq_true, if_false, endBlock_error] at he
        exact he
      have harr : (((c.write [op.byte, 0, 0]).adjust (op.effect?.getD 0)).arrive l).error = none := by
        unfold hook at hhook
        split at hhook
        · obtain ⟨_, _, _, _, hlim⟩ := patch_eq
            (((c.write [op.byte, 0, 0]).adjust (op.effect?.getD 0)).arrive l) c.size ‹_›
          exact hlim.1 hhook
        · exact hhook
      obtain ⟨hsame, hdead, hadj⟩ := arrive_of_error harr
      obtain ⟨height, hheight, heq⟩ := adjust_of_error hadj
      rw [heq] at hsame hdead
      have hj := jump_spec hr hb rfl hheight hl hsame hdead
      exact .jumped rfl hr hheight hj hsame hdead

theorem did_bind {p : Pool} {l : Nat} (hl : l < c.labels.size) (he : (c.bind l).error = none) :
    Did p (.bind l) c (c.bind l) := by
  cases ho : (c.label l).offset with
  | some o =>
    simp only [bind, ho, Option.isSome_some, if_true] at he
    exact absurd he (fail_error c _)
  | none =>
    cases hr : c.reachable with
    | true =>
      -- The body does not fail when the branches are set, nor before.
      have harr : (c.arrive l).error = none := by
        obtain ⟨_, _, _, _, hlim⟩ := patches_eq ((c.arrive l).label l).pending
          ((c.arrive l).setLabel l { (c.arrive l).label l with
            offset := some (c.arrive l).size, pending := [] }) (c.arrive l).size
        refine hlim.1 ?_
        simpa only [bind, ho, hr, Option.isSome_none, Bool.false_eq_true, if_false, if_true] using he
      obtain ⟨hsame, -, -⟩ := arrive_of_error harr
      exact .bound rfl (fun _ => rfl) hsame (bind_spec hl ho hsame fun _ => rfl) ho
    | false =>
      have hsame : ∀ d, (c.label l).depth = some d → d = (c.label l).depth.getD 0 := by
        intro d hd
        rw [hd, Option.getD_some]
      have hdead : c.reachable = true → c.depth = (c.label l).depth.getD 0 := by
        rw [hr]
        intro h
        cases h
      exact .bound rfl (fun h => by rw [hr] at h; cases h) hsame (bind_spec hl ho hsame hdead) ho

/-! ## Failures stay -/

/-- A failure is never forgotten, and labels are neither made nor lost. -/
structure Later (c c' : Code) : Prop where
  error : c'.error = none → c.error = none
  labels : c'.labels.size = c.labels.size

namespace Later

theorem refl (c : Code) : Later c c := ⟨id, rfl⟩

theorem trans {c'' : Code} (h : Later c c') (h' : Later c' c'') : Later c c'' :=
  ⟨fun he => h.error (h'.error he), h'.labels.trans h.labels⟩

theorem fail (c : Code) (e : BuildError) : Later c (c.fail e) := by
  refine ⟨fun h => absurd h (fail_error c e), ?_⟩
  obtain ⟨_, h⟩ := c.fail_eq e
  rw [h]

theorem write (c : Code) (bs : List UInt8) : Later c (c.write bs) := ⟨id, rfl⟩

theorem useLocal (h : Later c c') (slot : Int) : Later c (c'.useLocal slot) := ⟨h.error, h.labels⟩

theorem setLabel (h : Later c c') (l : Nat) (x : Label) : Later c (c'.setLabel l x) :=
  ⟨h.error, by simpa [Code.setLabel] using h.labels⟩

theorem adjust (h : Later c c') (d : Int) : Later c (c'.adjust d) :=
  ⟨fun he => h.error (adjust_error c' d he), by rw [adjust_labels]; exact h.labels⟩

theorem endBlock (h : Later c c') (op : Opcode) : Later c (c'.endBlock op) :=
  ⟨by rw [endBlock_error]; exact h.error, by rw [endBlock_labels]; exact h.labels⟩

theorem arrive (h : Later c c') (l : Nat) : Later c (c'.arrive l) := by
  refine h.trans ?_
  unfold Code.arrive
  dsimp only
  split
  · exact fail c' _
  · exact (refl c').setLabel _ _
  · split
    · exact refl c'
    · exact fail c' _

theorem patches (h : Later c c') (starts : List Nat) (t : Nat) :
    Later c (starts.foldl (fun c s => c.patch s t) c') := by
  obtain ⟨_, _, heq, _, hlim⟩ := patches_eq starts c' t
  exact h.trans ⟨hlim.1, by rw [heq]⟩

theorem emit (c : Code) (op : Opcode) : Later c (c.emit op) := by
  unfold Code.emit
  split
  · exact refl c
  · cases op.effect? with
    | none => exact fail c _
    | some d => exact ((write c _).adjust _).endBlock _

theorem ldc (c : Code) (i : UInt16) : Later c (c.ldc i) := by
  unfold Code.ldc
  split
  · exact refl c
  · split
    · exact (write c _).adjust _
    · exact (write c _).adjust _

theorem pushString (p : Pool) (c : Code) (s : String) : Later c (c.pushString p s).2 := by
  rw [pushString_eq]
  exact ldc c _

theorem pushClass (p : Pool) (c : Code) (name : String) : Later c (c.pushClass p name).2 := by
  rw [pushClass_eq]
  exact ldc c _

theorem onLocal (c : Code) (first long : Opcode) (slot : Int) :
    Later c (c.onLocal first long slot) := by
  unfold Code.onLocal
  refine useLocal ?_ slot
  split
  · exact fail c _
  split
  · exact write c _
  split <;> exact write c _

theorem jump (c : Code) (op : Opcode) (l : Nat) : Later c (c.jump op l) := by
  unfold Code.jump
  split
  · exact refl c
  split
  · exact fail c _
  · have h := ((write c [op.byte, 0, 0]).adjust (op.effect?.getD 0)).arrive l
    dsimp only
    split
    · exact (h.patches [c.size] _).endBlock op
    · exact (h.setLabel _ _).endBlock op

theorem bind (c : Code) (l : Nat) : Later c (c.bind l) := by
  unfold Code.bind
  split
  · exact fail c _
  · refine patches (setLabel ?_ _ _) _ _
    split
    · exact (refl c).arrive l
    · split
      · exact ⟨id, rfl⟩
      · exact refl c

/-- A check that may fail. -/
theorem guard (P : Prop) [Decidable P] (c : Code) (e : BuildError) :
    Later c (if P then c.fail e else c) := by
  split
  · exact fail c e
  · exact refl c

theorem finish (c : Code) (labels : List Nat) : Later c (c.finish labels) :=
  ((guard _ _ _).trans (guard _ _ _)).trans (guard _ _ _)

end Later

/-- A call forgets no failure, and makes a label only where it says so. -/
theorem later_of_apply (p : Pool) (c : Code) (call : Call) :
    ((call.apply (p, c)).2.error = none → c.error = none) ∧
      (call.apply (p, c)).2.labels.size = call.labelsAfter c.labels.size := by
  have hof : ∀ {c' : Code}, Later c c' →
      (c'.error = none → c.error = none) ∧ c'.labels.size = c.labels.size :=
    fun h => ⟨h.error, h.labels⟩
  cases call <;> simp only [Call.apply, Call.labelsAfter]
  case newLabel => exact ⟨id, by simp [newLabel]⟩
  case emit op => exact hof (.emit c op)
  case pushInt n =>
    refine hof ?_
    simp only [pushInt]
    split
    · exact .emit c _
    · exact .ldc c _
  case pushBool b => exact hof (.emit c _)
  case pushString s => exact hof (.pushString p c s)
  case pushClass name => exact hof (.pushClass p c name)
  case load kind slot =>
    refine hof ?_
    simp only [load]
    split
    · exact .refl c
    · split <;> exact (Later.onLocal c _ _ slot).adjust _
  case store kind slot =>
    refine hof ?_
    simp only [store]
    split
    · exact .refl c
    · split <;> exact (Later.onLocal c _ _ slot).adjust _
  case iinc slot delta =>
    refine hof ?_
    simp only [iinc]
    split
    · exact .refl c
    · refine .useLocal ?_ slot
      split
      · exact .fail c _
      · split <;> exact .write c _
  case jump op l => exact hof (.jump c op l)
  case bind l => exact hof (.bind c l)
  case field op owner name desc =>
    refine hof ?_
    simp only [field]
    split
    · exact .refl c
    · split
      · exact .fail c _
      · exact (Later.write c _).adjust _
  case invoke op owner name desc =>
    refine hof ?_
    simp only [invoke]
    split
    · exact .refl c
    · split
      · exact .fail c _
      · split
        · exact (Later.write c _).adjust _
        · split
          · exact (Later.write c _).adjust _
          · split
            · exact (Later.write c _).adjust _
            · exact .fail c _
  case typeOp op name =>
    refine hof ?_
    simp only [typeOp]
    split
    · exact .refl c
    · split
      · exact (Later.write c _).adjust _
      · exact .fail c _
  case newArray elements =>
    refine hof ?_
    simp only [newArray]
    split
    · exact .refl c
    · exact .write c _
  case finish labels => exact hof (.finish c labels)

/-- A sequence of calls forgets no failure. -/
theorem error_of_run {calls : List Call} {p : Pool}
    (he : (Call.run (p, c) calls).2.error = none) : c.error = none := by
  induction calls generalizing p c with
  | nil => exact he
  | cons call calls ih => exact (later_of_apply p c call).1 (ih he)

/-! ## All calls -/

theorem Still.trans {c'' : Code} (h : Still c c') (h' : Still c' c'') : Still c c'' :=
  ⟨h'.bytes.trans h.bytes, h'.depth.trans h.depth, h'.maxStack.trans h.maxStack,
    h'.reachable.trans h.reachable, fun l => (h'.label l).trans (h.label l)⟩

theorem Still.guard (P : Prop) [Decidable P] (c : Code) (e : BuildError) :
    Still c (if P then c.fail e else c) := by
  split
  · exact .fail c e
  · exact .refl c

theorem still_finish (c : Code) (labels : List Nat) : Still c (c.finish labels) :=
  ((Still.guard _ _ _).trans (.guard _ _ _)).trans (.guard _ _ _)

/-- Where control cannot come nothing is written. -/
theorem Did.of_live {p : Pool} {call : Call} (hw : call.writes = true) (hdead : c.reachable = false → c' = c)
    (hlive : c.reachable = true → Did p call c c') : Did p call c c' := by
  cases hr : c.reachable with
  | false =>
    rw [hdead hr]
    exact .nothing (fun l h => by rw [h] at hw; cases hw) (.inl hr) (.refl c)
  | true => exact hlive hr

theorem did_emit {p : Pool} {call : Call} {op : Opcode} (hf : operandForm op = .none)
    (hw : call.writes = true) (hi : call.instr p = .plain op)
    (heff : call.effect = op.effect?.getD 0) (he : (c.emit op).error = none) :
    Did p call c (c.emit op) := by
  refine .of_live hw (fun hr => by simp [emit, hr]) fun hr => ?_
  obtain ⟨height, hd, h⟩ := wrote_emit hr hf he
  exact .wrote hw (heff ▸ hd) (hi ▸ h)

theorem did_ldc {p : Pool} {call : Call} {i : UInt16} (hw : call.writes = true)
    (hi : call.instr p = .constant i) (heff : call.effect = 1) (he : (c.ldc i).error = none) :
    Did p call c (c.ldc i) := by
  refine .of_live hw (fun hr => by simp [ldc, hr]) fun hr => ?_
  obtain ⟨height, hd, h⟩ := wrote_ldc i hr he
  exact .wrote hw (heff ▸ hd) (hi ▸ h)

theorem iconst_spec {n : Int32} (h : -1 ≤ n ∧ n ≤ 5) :
    operandForm ⟨UInt8.ofNat (3 + n.toInt).toNat⟩ = .none ∧
      Opcode.effect? ⟨UInt8.ofNat (3 + n.toInt).toNat⟩ = some 1 := by
  have hlow : -1 ≤ n.toInt := Int32.le_iff_toInt_le.mp h.1
  have hhigh : n.toInt ≤ 5 := Int32.le_iff_toInt_le.mp h.2
  have hall : ∀ k : Fin 7, operandForm ⟨UInt8.ofNat (2 + k)⟩ = .none ∧
      Opcode.effect? ⟨UInt8.ofNat (2 + k)⟩ = some 1 := by
    decide
  have hk := hall ⟨(n.toInt + 1).toNat, by omega⟩
  have heq : 2 + (n.toInt + 1).toNat = (3 + n.toInt).toNat := by omega
  simp only [heq] at hk
  exact hk

theorem did_pushInt {p : Pool} {n : Int32} (he : (c.pushInt p n).2.error = none) :
    Did p (.pushInt n) c (c.pushInt p n).2 := by
  unfold pushInt at he ⊢
  split at he
  · rename_i hn
    rw [if_pos hn]
    obtain ⟨hform, heff⟩ := iconst_spec hn
    exact did_emit hform rfl (by rw [Call.instr, if_pos hn]) (by rw [heff]; rfl) he
  · rename_i hn
    rw [if_neg hn]
    exact did_ldc rfl (by rw [Call.instr, if_neg hn]) rfl he

theorem did_pushBool {p : Pool} {b : Bool} (he : (c.pushBool b).error = none) :
    Did p (.pushBool b) c (c.pushBool b) :=
  did_emit (by cases b <;> decide) rfl rfl (by cases b <;> rfl) he

theorem did_pushString {p : Pool} {s : String} (he : (c.pushString p s).2.error = none) :
    Did p (.pushString s) c (c.pushString p s).2 := by
  rw [pushString_eq] at he ⊢
  exact did_ldc rfl rfl rfl he

theorem did_pushClass {p : Pool} {name : String} (he : (c.pushClass p name).2.error = none) :
    Did p (.pushClass name) c (c.pushClass p name).2 := by
  rw [pushClass_eq] at he ⊢
  exact did_ldc rfl rfl rfl he

theorem did_load {p : Pool} {kind : LocalKind} {slot : Int} (he : (c.load kind slot).error = none) :
    Did p (.load kind slot) c (c.load kind slot) := by
  refine .of_live rfl (fun hr => by simp [load, hr]) fun hr => ?_
  have hw := wrote_onLocal (c := c) (d := 1) (access_load kind) slot hr (fun _ => rfl)
    fun _ _ _ h => by cases h
  cases kind with
  | int | ref =>
    simp only [load, hr, Bool.not_true, Bool.false_eq_true, if_false] at he ⊢
    obtain ⟨height, hd, hw⟩ := hw he
    exact .wrote rfl hd hw

theorem did_store {p : Pool} {kind : LocalKind} {slot : Int} (he : (c.store kind slot).error = none) :
    Did p (.store kind slot) c (c.store kind slot) := by
  refine .of_live rfl (fun hr => by simp [store, hr]) fun hr => ?_
  have hw := wrote_onLocal (c := c) (d := -1) (access_store kind) slot hr (fun _ => rfl)
    fun _ _ _ h => by cases h
  cases kind with
  | int | ref =>
    simp only [store, hr, Bool.not_true, Bool.false_eq_true, if_false] at he ⊢
    obtain ⟨height, hd, hw⟩ := hw he
    exact .wrote rfl hd hw

theorem did_iinc {p : Pool} {slot delta : Int} (hmax : c.reachable = true → c.depth ≤ c.maxStack)
    (he : (c.iinc slot delta).error = none) : Did p (.iinc slot delta) c (c.iinc slot delta) := by
  refine .of_live rfl (fun hr => by simp [iinc, hr]) fun hr => ?_
  exact .wrote rfl (Int.add_zero _) (wrote_iinc hr (hmax hr) he)

theorem did_newArray {p : Pool} {elements : UInt8} (hmax : c.reachable = true → c.depth ≤ c.maxStack) :
    Did p (.newArray elements) c (c.newArray elements) := by
  refine .of_live rfl (fun hr => by simp [newArray, hr]) fun hr => ?_
  simp only [newArray, hr, Bool.not_true, Bool.false_eq_true, if_false]
  exact .wrote rfl (Int.add_zero _) ((appended_write c _).wrote_flat hr (hmax hr) (by simp)
    (decode_newArray elements) rfl fun _ _ h => by cases h)

/-- A call that does not fail does one of four things. -/
theorem did_of_apply {p : Pool} {call : Call} (hknown : call.Known c.labels.size)
    (hmax : c.reachable = true → c.depth ≤ c.maxStack)
    (he : (call.apply (p, c)).2.error = none) : Did p call c (call.apply (p, c)).2 := by
  cases call <;> simp only [Call.apply] at he ⊢
  case emit op => exact did_emit hknown rfl rfl rfl he
  case pushInt n => exact did_pushInt he
  case pushBool b => exact did_pushBool he
  case pushString s => exact did_pushString he
  case pushClass name => exact did_pushClass he
  case load kind slot => exact did_load he
  case store kind slot => exact did_store he
  case iinc slot delta => exact did_iinc hmax he
  case newLabel => exact .nothing nofun (.inr rfl) ⟨rfl, rfl, rfl, rfl, label_newLabel c⟩
  case jump op l => exact did_jump hknown he
  case bind l => exact did_bind hknown he
  case field op owner name desc => exact did_field he
  case invoke op owner name desc => exact did_invoke he
  case typeOp op name => exact did_typeOp he
  case newArray elements => exact did_newArray hmax
  case finish labels => exact .nothing nofun (.inr rfl) (still_finish c labels)

end Code
end ClassFile
end Kotlet

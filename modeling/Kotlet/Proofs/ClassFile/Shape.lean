import Kotlet.ClassFile
import Kotlet.Proofs.ClassFile.Descriptor
import Kotlet.Proofs.ClassFile.Pool
import Kotlet.Proofs.ClassFile.Trace

/-!
# Shapes

What an instruction finds on the operand stack and in the local variables, by kind.

* `Shape` : what a place of a body takes for granted; `Shape.Le` : less of it;
* `Opcode.act?` : what an opcode does to the stack;
* `Instr.step?` : what an instruction does to a shape; there is no answer if it does not find what
  it needs;
* `Code.Framed` : an assignment of shapes to the instructions of a body that holds on all paths;
* `Method.Verified` : a method whose body has such an assignment, from its arguments on.
-/

namespace Kotlet
namespace ClassFile

/-- The kind of a local variable. -/
def LocalKind.kind : LocalKind → Kind
  | .int => .int
  | .ref => .ref

/-- What is known of the operand stack, the top first, and of the local variables. -/
structure Shape where
  stack : List Kind
  locals : Nat → Option Kind

/-- The first shape takes for granted no more than the second one. -/
structure Shape.Le (s t : Shape) : Prop where
  stack : s.stack = t.stack
  locals : ∀ k kind, s.locals k = some kind → t.locals k = some kind

theorem Shape.Le.refl (s : Shape) : s.Le s := ⟨rfl, fun _ _ h => h⟩

theorem Shape.Le.trans {s t u : Shape} (h : s.Le t) (h' : t.Le u) : s.Le u :=
  ⟨h.stack.trans h'.stack, fun k kind hk => h'.locals k kind (h.locals k kind hk)⟩

/-! ## Opcodes -/

/-- What is left of a stack when the given kinds are taken from it. -/
def pop? : List Kind → List Kind → Option (List Kind)
  | [], st => some st
  | _ :: _, [] => none
  | k :: ks, x :: st => if k = x then pop? ks st else none

@[simp] theorem pop?_append (ks st : List Kind) : pop? ks (ks ++ st) = some st := by
  induction ks with
  | nil => rfl
  | cons k ks ih => rw [List.cons_append, pop?, if_pos rfl, ih]

theorem eq_of_pop? {ks st rest : List Kind} (h : pop? ks st = some rest) : st = ks ++ rest := by
  induction ks generalizing st with
  | nil => exact Option.some.inj h
  | cons k ks ih =>
    cases st with
    | nil => cases h
    | cons x st =>
      rw [pop?] at h
      split at h
      · rename_i hk
        rw [ih h, hk, List.cons_append]
      · cases h

/-- The ways to move slots about on the stack. -/
inductive Shuffle where
  | pop | dup | dupX1 | dupX2 | dup2 | swap

/-- The stack after its slots have been moved. Halves of long numbers are never moved. -/
def Shuffle.apply? : Shuffle → List Kind → Option (List Kind)
  | .pop, a :: st => if a = .half then none else some st
  | .dup, a :: st => if a = .half then none else some (a :: a :: st)
  | .dupX1, a :: b :: st => if a = .half ∨ b = .half then none else some (a :: b :: a :: st)
  | .dupX2, a :: b :: c :: st =>
    if a = .half ∨ b = .half ∨ c = .half then none else some (a :: b :: c :: a :: st)
  | .dup2, a :: b :: st => if a = .half ∨ b = .half then none else some (a :: b :: a :: b :: st)
  | .swap, a :: b :: st => if a = .half ∨ b = .half then none else some (b :: a :: st)
  | _, _ => none

/-- How many slots moving adds. -/
def Shuffle.growth : Shuffle → Int
  | .pop => -1
  | .dup => 1
  | .dupX1 => 1
  | .dupX2 => 1
  | .dup2 => 2
  | .swap => 0

theorem Shuffle.length_of_apply? {s : Shuffle} {st st' : List Kind}
    (h : s.apply? st = some st') : (st'.length : Int) = st.length + s.growth := by
  unfold Shuffle.apply? at h
  split at h
  case h_7 => cases h
  all_goals
    split at h
    · cases h
    · cases h
      simp only [growth, List.length_cons]
      omega

namespace Opcode

/-- The opcodes that move slots about. -/
def shuffle? (op : Opcode) : Option Shuffle :=
  match op.byte.toNat with
  | 0x57 => some .pop
  | 0x59 => some .dup
  | 0x5a => some .dupX1
  | 0x5b => some .dupX2
  | 0x5c => some .dup2
  | 0x5f => some .swap
  | _ => none

/-- What an opcode takes from the stack and what it leaves there, the top first. -/
def rule? (op : Opcode) : Option (List Kind × List Kind) :=
  match op.byte.toNat with
  | 0x00 | 0xa7 | 0xb1 => some ([], [])
  | 0x01 | 0xbb => some ([], [.ref])
  | 0x02 | 0x03 | 0x04 | 0x05 | 0x06 | 0x07 | 0x08 => some ([], [.int])
  | 0x2e | 0x33 => some ([.int, .ref], [.int])
  | 0x32 => some ([.int, .ref], [.ref])
  | 0x4f | 0x54 => some ([.int, .int, .ref], [])
  | 0x53 => some ([.ref, .int, .ref], [])
  | 0x60 | 0x64 | 0x68 | 0x6c | 0x70 | 0x82 => some ([.int, .int], [.int])
  | 0x61 => some ([.half, .half, .half, .half], [.half, .half])
  | 0x74 => some ([.int], [.int])
  | 0x85 => some ([.int], [.half, .half])
  | 0x94 => some ([.half, .half, .half, .half], [.int])
  | 0x99 | 0x9a | 0x9b | 0x9c | 0x9d | 0x9e | 0xac => some ([.int], [])
  | 0x9f | 0xa0 | 0xa1 | 0xa2 | 0xa3 | 0xa4 => some ([.int, .int], [])
  | 0xa5 | 0xa6 => some ([.ref, .ref], [])
  | 0xb0 | 0xbf | 0xc6 | 0xc7 => some ([.ref], [])
  | 0xbc | 0xbd => some ([.int], [.ref])
  | 0xbe | 0xc1 => some ([.ref], [.int])
  | 0xc0 => some ([.ref], [.ref])
  | _ => none

/-- The result with which an opcode returns. -/
def returns? (op : Opcode) : Option (List Kind) :=
  if op = .ireturn then some [.int]
  else if op = .areturn then some [.ref]
  else if op = .vreturn then some []
  else none

/-- What an opcode does to the stack. -/
def act? (op : Opcode) (st : List Kind) : Option (List Kind) :=
  match op.shuffle? with
  | some s => s.apply? st
  | none =>
    match op.rule? with
    | none => none
    | some (pops, pushes) => (pop? pops st).map fun rest => pushes ++ rest

set_option maxRecDepth 2000 in
theorem effect?_of_rule? {op : Opcode} {pops pushes : List Kind}
    (h : op.rule? = some (pops, pushes)) :
    op.effect? = some ((pushes.length : Int) - pops.length) := by
  have hall : ∀ op : Opcode, ∀ x ∈ op.rule?,
      op.effect? = some ((x.2.length : Int) - x.1.length) := by
    decide
  exact hall op _ h

set_option maxRecDepth 2000 in
theorem effect?_of_shuffle? {op : Opcode} {s : Shuffle} (h : op.shuffle? = some s) :
    op.effect? = some s.growth := by
  have hall : ∀ op : Opcode, ∀ s ∈ op.shuffle?, op.effect? = some s.growth := by
    decide
  exact hall op _ h

/-- The height of the stack changes as the opcode tells. -/
theorem effect?_of_act? {op : Opcode} {st st' : List Kind} (h : op.act? st = some st') :
    op.effect? = some ((st'.length : Int) - st.length) := by
  unfold act? at h
  cases hs : op.shuffle? with
  | some s =>
    rw [hs] at h
    rw [effect?_of_shuffle? hs, Shuffle.length_of_apply? h]
    congr 1
    omega
  | none =>
    simp only [hs] at h
    cases hr : op.rule? with
    | none =>
      simp only [hr] at h
      cases h
    | some x =>
      obtain ⟨pops, pushes⟩ := x
      simp only [hr] at h
      obtain ⟨rest, hrest, heq⟩ := Option.map_eq_some_iff.mp h
      rw [effect?_of_rule? hr, eq_of_pop? hrest, ← heq]
      simp only [List.length_append]
      congr 1
      omega

/-- What an access to a member takes from the stack and what it leaves there. -/
def memberRule? (op : Opcode) (desc : String) : Option (List Kind × List Kind) :=
  if op = .getStatic then
    match fieldKinds? desc.toList with
    | some (ks, []) => some ([], ks)
    | _ => none
  else
    match descriptorKinds? desc with
    | none => none
    | some (args, result) =>
      if op = .invokeStatic then some (args.reverse, result)
      else if op = .invokeVirtual ∨ op = .invokeSpecial ∨ op = .invokeInterface then
        some (args.reverse ++ [.ref], result)
      else none

end Opcode

/-! ## Instructions -/

/-- The kind of a constant that can be loaded. -/
def Constant.kind? : Constant → Option Kind
  | .integer _ => some .int
  | .string _ => some .ref
  | .classRef _ => some .ref
  | _ => none

/-- The shape with another stack. -/
def Shape.withStack (s : Shape) (st : List Kind) : Shape := ⟨st, s.locals⟩

/-- The shape after a local variable has got a value. -/
def Shape.set (s : Shape) (slot : Nat) (kind : Kind) : Shape :=
  ⟨s.stack, fun k => if k = slot then some kind else s.locals k⟩

end ClassFile

namespace Instr

open ClassFile

/-- What an access to the member at an index does to the stack. -/
def access? (p : Pool) (op : Opcode) (i : UInt16) (st : List Kind) : Option (List Kind) := do
  let m ← p.member? i
  let (pops, pushes) ← op.memberRule? m.desc
  let rest ← pop? pops st
  return pushes ++ rest

/-- The slots of the arguments that a call of an interface has to tell, the object included. -/
def countedBy (p : Pool) (i : UInt16) (count : UInt8) : Prop :=
  ∃ m args result, p.member? i = some m ∧ descriptorKinds? m.desc = some (args, result) ∧
    count.toNat = args.length + 1

/-- What an instruction does to the stack, and what it has to find there and in the pool. -/
def stack? (p : Pool) (result : List Kind) (s : Shape) : Instr → Option (List Kind)
  | .plain op => if op.returns?.getD result = result then op.act? s.stack else none
  | .constant i => do return (← (← p.constant? i).kind?) :: s.stack
  | .load kind slot => if s.locals slot = some kind.kind then some (kind.kind :: s.stack) else none
  | .store kind _ => pop? [kind.kind] s.stack
  | .increment slot _ => if s.locals slot = some .int then some s.stack else none
  | .branch op _ => op.act? s.stack
  | .member op i => access? p op i s.stack
  | .interface i _ => access? p .invokeInterface i s.stack
  | .onType op i => do
    let _ ← p.class? i
    op.act? s.stack
  | .newArray elements =>
    if elements = booleanElements ∨ elements = intElements then Opcode.newArray.act? s.stack
    else none

/-- What an instruction does to a shape. -/
def step? (p : Pool) (result : List Kind) (s : Shape) (i : Instr) : Option Shape :=
  (i.stack? p result s).map fun st =>
    match i with
    | .store kind slot => (s.withStack st).set slot kind.kind
    | _ => s.withStack st

/-- The local variable that an instruction uses. -/
def slot? : Instr → Option Nat
  | .load _ slot => some slot
  | .store _ slot => some slot
  | .increment slot _ => some slot
  | _ => none

/-- Whether control can go on with the next instruction. -/
@[grind =] def falls : Instr → Bool
  | .plain op => !op.endsBlock
  | .branch op _ => !op.endsBlock
  | _ => true

/-- Where control can go after an instruction, if the next one is at `next`. -/
def successors (next : Nat) (i : Instr) : List Nat :=
  (if i.falls then [next] else []) ++
    match i with
    | .branch _ target => [target]
    | _ => []

theorem access?_mono {p q : Pool} (h : p.Le q) {op : Opcode} {i : UInt16} {st st' : List Kind}
    (ha : access? p op i st = some st') : access? q op i st = some st' := by
  unfold access? at ha ⊢
  obtain ⟨m, hm, ha⟩ := Option.bind_eq_some_iff.mp ha
  rw [h.member? hm]
  exact ha

theorem stack?_mono {p q : Pool} (h : p.Le q) {result : List Kind} {s : Shape} {i : Instr}
    {st : List Kind} (hs : i.stack? p result s = some st) : i.stack? q result s = some st := by
  cases i with
  | constant i =>
    obtain ⟨c, hc, hs⟩ := Option.bind_eq_some_iff.mp hs
    simp only [stack?, h.constant? hc]
    exact hs
  | member op i => exact access?_mono h hs
  | interface i count => exact access?_mono h hs
  | onType op i =>
    obtain ⟨c, hc, hs⟩ := Option.bind_eq_some_iff.mp hs
    simp only [stack?, h.class? hc]
    exact hs
  | _ => exact hs

theorem step?_mono {p q : Pool} (h : p.Le q) {result : List Kind} {s t : Shape} {i : Instr}
    (hs : i.step? p result s = some t) : i.step? q result s = some t := by
  obtain ⟨st, hst, heq⟩ := Option.map_eq_some_iff.mp hs
  rw [step?, stack?_mono h hst, Option.map_some, heq]

end Instr

/-! ## Bodies -/

namespace ClassFile

/-- Shapes for the instructions of a body, on which all paths agree. -/
structure Code.Framed (p : Pool) (entry : List Kind) (result : List Kind) (c : Code)
    (is : List (Nat × Instr)) (F : Nat → Shape) : Prop where
  /-- The body is made of these instructions and nothing else. -/
  decodes : Instr.decodeAll c.bytes = some is
  /-- It has a first instruction, which finds the arguments and an empty stack. -/
  entry : (∃ i, (0, i) ∈ is) ∧ (F 0).Le ⟨[], fun k => entry[k]?⟩
  /-- Every instruction finds what it needs and leaves what the next one takes for granted, which
  is another instruction of the body. -/
  step : ∀ o i, (o, i) ∈ is → ∃ size after, Instr.decode c.bytes o = some (i, size) ∧
    i.step? p result (F o) = some after ∧ ∀ next ∈ i.successors (o + size),
      (∃ j, (next, j) ∈ is) ∧ (F next).Le after
  /-- The stack never gets higher than the body tells. -/
  stack : ∀ o i, (o, i) ∈ is → (F o).stack.length ≤ c.maxStack
  /-- No instruction uses a variable that the body does not have. -/
  locals : ∀ o i, (o, i) ∈ is → ∀ slot, i.slot? = some slot → slot < c.maxLocals
  /-- A call of an interface tells the slots of its arguments. -/
  counts : ∀ o i count, (o, .interface i count) ∈ is → Instr.countedBy p i count

/-- A method whose body makes sense from its arguments on; without `static` the first one is the
object. -/
def Method.Verified (p : Pool) (m : Method) : Prop :=
  ∃ args result is F, descriptorKinds? m.desc = some (args, result) ∧
    m.code.Framed p (if m.access.has .isStatic then args else .ref :: args) result is F

end ClassFile
end Kotlet

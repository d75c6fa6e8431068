import Kotlet.Emit.Layout
import Kotlet.Proofs.ClassFile.Pool
import Kotlet.Proofs.ClassFile.Instr

/-!
# The machine that runs method bodies

One activation of a method that computes with numbers and truth values and prints them. The
instructions are read from the bytes of the body, and their constants from the pool of the class.

* `Jvm.Word` : what the operand stack and the local variables hold. A long number is one word;
* `Jvm.Ending` : how the method ends;
* `Jvm.State` : the activation, the objects made so far, and what was printed;
* `Jvm.compute?`, `Jvm.branch?` : the instructions without operands, and the branches;
* `Jvm.access?` : the members of the library that such code uses;
* `Jvm.step?` : one instruction; there is no answer where the code makes no sense;
* `Jvm.run?` : so many instructions at most;
* `Jvm.Reaches`, `Jvm.Ends` : any number of instructions.
-/

namespace Kotlet

open ClassFile

namespace Jvm

/-- The exception of a division by zero. -/
def arithmetic : String := "java/lang/ArithmeticException"

/-- A value on the operand stack or in a local variable. -/
inductive Word where
  /-- A number in 32 bits; truth values are 1 and 0. -/
  | int (n : Int32)
  /-- A number in 64 bits. -/
  | long (n : Int64)
  /-- No object. -/
  | null
  /-- An object that holds a number. -/
  | boxedInt (n : Int32)
  /-- An object that holds a truth value. -/
  | boxedBool (b : Bool)
  /-- A string. -/
  | text (s : String)
  /-- The standard output. -/
  | stream
  /-- An exception, by its address. -/
  | object (address : Nat)
  deriving DecidableEq, Inhabited

/-- Whether a local variable of a kind holds such a value. -/
def Word.fits : Word → LocalKind → Bool
  | .int _, kind => kind == .int
  | .long _, _ => false
  | _, kind => kind == .ref

/-- How a method ends. -/
inductive Ending where
  /-- It returns. -/
  | returned
  /-- It throws an exception of a class, with a message or not. -/
  | threw (cls : String) (message : Option String)
  deriving DecidableEq, Inhabited

/-- One activation. -/
structure State where
  /-- The place of the next instruction. -/
  pc : Nat
  /-- The operand stack, the top first. -/
  stack : List Word
  /-- The local variables. -/
  locals : Nat → Option Word
  /-- The exceptions made so far, with their classes and messages. -/
  objects : Array (String × Option String)
  /-- What was printed. -/
  out : String

namespace State

/-- The activation before the first instruction of a method without arguments. -/
def start : State := ⟨0, [], fun _ => none, #[], ""⟩

/-- The state at another place with another stack. -/
def goto (s : State) (pc : Nat) (stack : List Word) : State := { s with pc := pc, stack := stack }

/-- The state after a local variable has got a value. -/
def set (s : State) (slot : Nat) (w : Word) : State :=
  { s with locals := fun k => if k = slot then some w else s.locals k }

end State

/-! ## Instructions -/

/-- The order of two long numbers as a number. -/
def compareLongs (a b : Int64) : Int32 := if a < b then -1 else if a = b then 0 else 1

/-- A quotient or remainder, or the exception that comes of dividing by zero. -/
def divided (n d : Int32) (st : List Word) : Except Ending (List Word) :=
  if d = 0 then .error (.threw arithmetic (some "/ by zero")) else .ok (.int n :: st)

/-- What an opcode makes of the operand stack. -/
def compute? (op : Opcode) (stack : List Word) : Option (Except Ending (List Word)) :=
  match op.byte.toNat, stack with
  | 0x00, st => some (.ok st)
  | 0x01, st => some (.ok (.null :: st))
  | 0x02, st => some (.ok (.int (-1) :: st))
  | 0x03, st => some (.ok (.int 0 :: st))
  | 0x04, st => some (.ok (.int 1 :: st))
  | 0x05, st => some (.ok (.int 2 :: st))
  | 0x06, st => some (.ok (.int 3 :: st))
  | 0x07, st => some (.ok (.int 4 :: st))
  | 0x08, st => some (.ok (.int 5 :: st))
  | 0x57, .long _ :: _ => none
  | 0x57, _ :: st => some (.ok st)
  | 0x59, .long _ :: _ => none
  | 0x59, w :: st => some (.ok (w :: w :: st))
  | 0x60, .int b :: .int a :: st => some (.ok (.int (a + b) :: st))
  | 0x61, .long b :: .long a :: st => some (.ok (.long (a + b) :: st))
  | 0x64, .int b :: .int a :: st => some (.ok (.int (a - b) :: st))
  | 0x68, .int b :: .int a :: st => some (.ok (.int (a * b) :: st))
  | 0x6c, .int b :: .int a :: st => some (divided (a / b) b st)
  | 0x70, .int b :: .int a :: st => some (divided (a % b) b st)
  | 0x82, .int b :: .int a :: st => some (.ok (.int (a ^^^ b) :: st))
  | 0x85, .int a :: st => some (.ok (.long a.toInt64 :: st))
  | 0x94, .long b :: .long a :: st => some (.ok (.int (compareLongs a b) :: st))
  | _, _ => none

/-- Whether a branch is taken, and what it leaves on the operand stack. -/
def branch? (op : Opcode) (stack : List Word) : Option (Bool × List Word) :=
  match op.byte.toNat, stack with
  | 0x99, .int n :: st => some (n == 0, st)
  | 0x9a, .int n :: st => some (n != 0, st)
  | 0x9b, .int n :: st => some (decide (n < 0), st)
  | 0x9c, .int n :: st => some (decide (0 ≤ n), st)
  | 0x9d, .int n :: st => some (decide (0 < n), st)
  | 0x9e, .int n :: st => some (decide (n ≤ 0), st)
  | 0x9f, .int b :: .int a :: st => some (a == b, st)
  | 0xa0, .int b :: .int a :: st => some (a != b, st)
  | 0xa1, .int b :: .int a :: st => some (decide (a < b), st)
  | 0xa2, .int b :: .int a :: st => some (decide (b ≤ a), st)
  | 0xa3, .int b :: .int a :: st => some (decide (b < a), st)
  | 0xa4, .int b :: .int a :: st => some (decide (a ≤ b), st)
  | 0xa7, st => some (true, st)
  | _, _ => none

/-! ## The library -/

/-- The text that a value is printed as, by the parameters of `print`. -/
def printed? (params : List String) (stack : List Word) : Option (String × List Word) :=
  if params = [] then some ("", stack)
  else
    match stack with
    | .int n :: st =>
      if params = ["I"] then some (toString n.toInt, st)
      else if params = ["Z"] ∧ n = 0 then some ("false", st)
      else if params = ["Z"] ∧ n = 1 then some ("true", st)
      else none
    | _ => none

/-- A call of `print` or `println` of the standard output. -/
def print? (m : Member) (s : State) : Option State := do
  let newline ←
    if m.name = "println" then some "\n" else if m.name = "print" then some "" else none
  let params ← [[], ["I"], ["Z"]].find? fun ps => m.desc = method ps "V"
  let (text, st) ← printed? params s.stack
  match st with
  | .stream :: st => some { s with stack := st, out := s.out ++ text ++ newline }
  | _ => none

/-- The object that holds a number or a truth value. -/
def boxed? (m : Member) : List Word → Option (List Word)
  | .int n :: st =>
    if m = ⟨integer, "valueOf", method ["I"] (reference integer)⟩ then some (.boxedInt n :: st)
    else if m = ⟨boolean, "valueOf", method ["Z"] (reference boolean)⟩ then
      some (.boxedBool (n != 0) :: st)
    else none
  | _ => none

/-- What an access to a member does. -/
def access? (op : Opcode) (m : Member) (s : State) : Option State :=
  if op = .getStatic ∧ m = ⟨system, "out", reference printStream⟩ then
    some { s with stack := .stream :: s.stack }
  else if op = .invokeVirtual ∧ m.owner = printStream then print? m s
  else if op = .invokeStatic then (boxed? m s.stack).map fun st => { s with stack := st }
  else if op = .invokeSpecial ∧ m.name = "<init>" ∧ m.desc = method [reference string] "V" then
    match s.stack with
    | .text message :: .object a :: st =>
      some { s with
        stack := st
        objects := s.objects.modify a fun o => if o.1 = m.owner then (o.1, some message) else o }
    | _ => none
  else none

/-! ## Steps -/

/-- What an instruction leads to. -/
inductive Outcome where
  /-- The next state. -/
  | goes (s : State)
  /-- The method ends. -/
  | ends (e : Ending)

/-- The constant that an instruction loads. -/
def constant? (p : Pool) (i : UInt16) : Option Word :=
  match p.constant? i with
  | some (.integer n) => some (.int n)
  | some (.string j) => (p.text? j).map .text
  | _ => none

/-- An opcode without operands. -/
def plain? (op : Opcode) (next : Nat) (s : State) : Option Outcome :=
  if op = .vreturn then some (.ends .returned)
  else if op = .athrow then
    match s.stack with
    | .object a :: _ => s.objects[a]?.map fun o => .ends (.threw o.1 o.2)
    | _ => none
  else
    match compute? op s.stack with
    | some (.ok st) => some (.goes (s.goto next st))
    | some (.error e) => some (.ends e)
    | none => none

/-- An instruction, if the next one is at `next`. -/
@[grind =] def perform? (p : Pool) (next : Nat) (s : State) : Instr → Option Outcome
  | .plain op => plain? op next s
  | .constant i => (constant? p i).map fun w => .goes (s.goto next (w :: s.stack))
  | .load kind slot =>
    match s.locals slot with
    | some w => if w.fits kind then some (.goes (s.goto next (w :: s.stack))) else none
    | none => none
  | .store kind slot =>
    match s.stack with
    | w :: st => if w.fits kind then some (.goes ((s.set slot w).goto next st)) else none
    | [] => none
  | .increment slot delta =>
    match s.locals slot with
    | some (.int n) => some (.goes ((s.set slot (.int (n + Int32.ofInt delta))).goto next s.stack))
    | _ => none
  | .branch op target =>
    (branch? op s.stack).map fun (taken, st) => .goes (s.goto (if taken then target else next) st)
  | .member op i => do
    let s ← access? op (← p.member? i) s
    return .goes { s with pc := next }
  | .onType op i => do
    let cls ← p.class? i
    if op = .newObject then
      return .goes { s.goto next (.object s.objects.size :: s.stack) with
        objects := s.objects.push (cls, none) }
    else none
  | _ => none

/-- The next instruction of a body. -/
def step? (p : Pool) (code : Array UInt8) (s : State) : Option Outcome := do
  let (i, size) ← Instr.decode code s.pc
  perform? p (s.pc + size) s i

/-- What is printed, and how the method ends, if it takes no more than so many instructions. -/
def run? (p : Pool) (code : Array UInt8) : Nat → State → Option (String × Ending)
  | 0, _ => none
  | fuel + 1, s =>
    match step? p code s with
    | some (.goes s') => run? p code fuel s'
    | some (.ends e) => some (s.out, e)
    | none => none

/-! ## Any number of steps -/

section Runs

variable {p : Pool} {code : Array UInt8} {s s' s'' : State}

/-- The instructions lead from one state to another. -/
inductive Reaches (p : Pool) (code : Array UInt8) : State → State → Prop where
  | refl (s : State) : Reaches p code s s
  | step {s s' s'' : State} (h : step? p code s = some (.goes s')) (h' : Reaches p code s' s'') :
    Reaches p code s s''

theorem Reaches.single (h : step? p code s = some (.goes s')) : Reaches p code s s' :=
  .step h (.refl s')

theorem Reaches.trans (h : Reaches p code s s') (h' : Reaches p code s' s'') :
    Reaches p code s s'' := by
  induction h with
  | refl => exact h'
  | step hs _ ih => exact .step hs (ih h')

/-- The instructions end the method. -/
def Ends (p : Pool) (code : Array UInt8) (s : State) (out : String) (e : Ending) : Prop :=
  ∃ s', Reaches p code s s' ∧ step? p code s' = some (.ends e) ∧ s'.out = out

theorem Reaches.ends {out : String} {e : Ending} (h : Reaches p code s s')
    (h' : Ends p code s' out e) : Ends p code s out e := by
  obtain ⟨s'', hr, he⟩ := h'
  exact ⟨s'', h.trans hr, he⟩

/-- A method that ends takes so many instructions. -/
theorem Ends.run? {out : String} {e : Ending} (h : Ends p code s out e) :
    ∃ fuel, run? p code fuel s = some (out, e) := by
  obtain ⟨s', hr, he, rfl⟩ := h
  induction hr with
  | refl s => exact ⟨1, by rw [Jvm.run?, he]⟩
  | step hs _ ih =>
    obtain ⟨fuel, hf⟩ := ih he
    exact ⟨fuel + 1, by rw [Jvm.run?, hs, ← hf]⟩

/-- More instructions make no difference. -/
theorem run?_add {out : String} {e : Ending} {fuel : Nat} (h : run? p code fuel s = some (out, e))
    (more : Nat) : run? p code (fuel + more) s = some (out, e) := by
  induction fuel generalizing s with
  | zero => cases h
  | succ fuel ih =>
    rw [Nat.add_right_comm, run?]
    rw [run?] at h
    split at h
    · exact ih h
    · exact h
    · cases h

end Runs

end Jvm

end Kotlet

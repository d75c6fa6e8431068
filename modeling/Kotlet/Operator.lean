import Kotlet.Text.Glyph
import Kotlet.Text.Units

/-!
# Operators

* `ArithOp` : the operations on numbers; `ArithOp.apply` computes in 32 bits and wraps around;
* `CompareOp` : the comparisons; `CompareOp.holds` tells when one is true;
* `compoundOperator` : the operator inside an assignment operator.

Trees keep operators as they are written, and a tree need not come from a source text. So looking
an operator up can fail.
-/

namespace Kotlet

/-- An operation on numbers. -/
inductive ArithOp where
  | add | sub | mul | div | rem
  deriving DecidableEq, Inhabited

namespace ArithOp

/-- The operation that an operator stands for. -/
def ofText? (op : String) : Option ArithOp :=
  if op = "+" then some add
  else if op = "-" then some sub
  else if op = "*" then some mul
  else if op = "/" then some div
  else if op = "%" then some rem
  else none

/-- The result in 32 bits. Quotients are cut towards zero, the remainder has the sign of the
dividend, and nothing comes of dividing by zero. -/
def apply (op : ArithOp) (a b : Int32) : Option Int32 :=
  match op with
  | add => some (a + b)
  | sub => some (a - b)
  | mul => some (a * b)
  | div => if b = 0 then none else some (a / b)
  | rem => if b = 0 then none else some (a % b)

end ArithOp

/-- A comparison. -/
inductive CompareOp where
  | eq | ne | lt | le | gt | ge
  deriving DecidableEq, Inhabited

namespace CompareOp

/-- The comparison that an operator stands for. -/
def ofText? (op : String) : Option CompareOp :=
  if op = "==" then some eq
  else if op = "!=" then some ne
  else if op = "<" then some lt
  else if op = "<=" then some le
  else if op = ">" then some gt
  else if op = ">=" then some ge
  else none

/-- Whether the comparison holds of two values in the given order. -/
def holds (op : CompareOp) (o : Ordering) : Bool :=
  match op with
  | eq => o == .eq
  | ne => o != .eq
  | lt => o == .lt
  | le => o != .gt
  | gt => o == .gt
  | ge => o != .lt

/-- Whether the comparison only asks for equality. -/
def isEquality (op : CompareOp) : Bool := op == eq || op == ne

end CompareOp

/-- The operation inside an assignment operator: its first character. One outside ASCII is shown
as its first byte, which is no character. -/
def compoundOperator (op : String) : String :=
  match op.toList with
  | [] => ""
  | c :: _ => String.singleton (if c.toNat < 0x80 then c else replacementChar)

end Kotlet

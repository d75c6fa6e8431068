import Kotlet.ClassFile.Opcode
import Kotlet.Text.Quoted

/-!
# Failures of building class files

* `BuildError` : what can go wrong while a class is put together;
* `BuildError.isLimit` : whether a limit of the format is to blame, and not the caller.
-/

namespace Kotlet
namespace ClassFile

/-- What can go wrong while a class is put together. -/
inductive BuildError where
  /-- The constant pool is full. -/
  | tooManyConstants
  /-- A string of too many bytes. -/
  | longString (bytes : Nat)
  /-- A local variable out of reach. -/
  | badSlot (slot : Int)
  /-- A branch that is too long. -/
  | badBranch (offset : Int)
  /-- A method body that is too long. -/
  | longBody (bytes : Nat)
  /-- An instruction that takes more than there is on the stack. -/
  | underflow (offset : Nat)
  /-- An instruction written without its operands. -/
  | needsOperands (op : Opcode)
  /-- A jump by something that is no branch. -/
  | notBranch (op : Opcode)
  /-- A jump to a place that nothing reaches. -/
  | deadLabel
  /-- Two ways to a place with different stacks. -/
  | depthMismatch (one other : Nat)
  /-- A place given to a label that has one. -/
  | boundTwice
  /-- A field access by another instruction. -/
  | notField (op : Opcode)
  /-- A call by another instruction. -/
  | notInvoke (op : Opcode)
  /-- A class operand for another instruction. -/
  | notTypeOp (op : Opcode)
  /-- A method type that cannot be read. -/
  | badDescriptor (desc : Text)
  /-- An increment that is too large. -/
  | badIncrement (delta : Int)
  /-- A jump to a label without a place. -/
  | unboundLabel
  /-- A method without instructions. -/
  | emptyBody
  /-- Two methods of one name and type. -/
  | duplicateMethod (name desc : String)
  /-- A failure in the body of a method. -/
  | inMethod (name : String) (reason : BuildError)
  deriving DecidableEq, Inhabited

namespace BuildError

/-- What every failure of the format starts with. -/
def limitText : String := "class file limit exceeded"

/-- The message of a failure. -/
def message : BuildError → String
  | tooManyConstants => limitText ++ ": more than 65534 constants"
  | longString n => limitText ++ ": string constant of " ++ toString n ++ " bytes"
  | badSlot n => limitText ++ ": local slot " ++ toString n
  | badBranch n => limitText ++ ": branch offset " ++ toString n
  | longBody n => limitText ++ ": method body of " ++ toString n ++ " bytes"
  | underflow n => "operand stack underflow at offset " ++ toString n
  | needsOperands op => op.mnemonic ++ " needs operands"
  | notBranch op => op.mnemonic ++ " is not a branch"
  | deadLabel => "jump to a label bound in unreachable code"
  | depthMismatch a b =>
    "inconsistent stack depth at label: " ++ toString a ++ " and " ++ toString b
  | boundTwice => "label bound twice"
  | notField op => op.mnemonic ++ " is not a field instruction"
  | notInvoke op => op.mnemonic ++ " is not an invoke instruction"
  | notTypeOp op => op.mnemonic ++ " does not take a class operand"
  | badDescriptor desc => "malformed method descriptor " ++ quoteText desc
  | badIncrement n => "iinc delta " ++ toString n ++ " out of range"
  | unboundLabel => "label jumped to but never bound"
  | emptyBody => "empty method body"
  | duplicateMethod name desc => "duplicate method " ++ name ++ desc
  | inMethod name reason => "method " ++ name ++ ": " ++ reason.message

/-- Whether a limit of the format is to blame. -/
def isLimit : BuildError → Bool
  | tooManyConstants | longString _ | badSlot _ | badBranch _ | longBody _ => true
  | inMethod _ reason => reason.isLimit
  | _ => false

end BuildError

end ClassFile
end Kotlet

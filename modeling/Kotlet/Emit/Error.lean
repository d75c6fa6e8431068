import Kotlet.ClassFile.Error
import Kotlet.Diagnostic
import Kotlet.Syntax

/-!
# Failures of code generation

A checked program fails here for two reasons: it exceeds a limit of the class file format, or the
compiler is at fault.

* `EmitError` : why no class comes of a program;
* `EmitError.code`, `EmitError.message` : the code and the wording of each cause;
* `EmitError.toDiagnostic` : the diagnostic of a cause at a token.
-/

namespace Kotlet

/-- Why no class comes of a program. -/
inductive EmitError where
  /-- A generator that has made its class. -/
  | alreadyUsed
  /-- A failure of putting the class together. -/
  | build (reason : ClassFile.BuildError)
  /-- A method with too many parameters. -/
  | manyParameters (name : String) (count : Nat)
  /-- A method with too many variables. -/
  | manyLocals
  /-- A parameter that was not resolved. -/
  | paramUnresolved
  /-- An expression without a type. -/
  | noType (kind : NodeKind)
  /-- A name that was not resolved. -/
  | unresolved (name : String)
  /-- A variable that is declared twice. -/
  | hasSlot (name : String)
  /-- A variable of another method. -/
  | noSlot (name : String)
  /-- A captured variable of another method. -/
  | captureNoSlot (name : String)
  /-- A statement that leaves something on the stack or takes something from it. -/
  | unbalanced (before after : Nat)
  /-- A function inside something else. -/
  | nestedFunction (name : String)
  /-- A template at a place that is not in the text, or before the last one. -/
  | badOffset (offset : Int)
  /-- An operator that does not exist. -/
  | unknownOperator (op : String)
  /-- A comparison that does not exist. -/
  | unknownComparison (op : String)
  /-- A function that is not declared. -/
  | unknownFunction (name : String)
  /-- An index on something without elements. -/
  | notIndexable (name : String) (found : Ty)
  /-- A loop over something without elements. -/
  | notIterable (found : Ty)
  /-- A collection with another type. -/
  | badCollection (found : Ty)
  /-- A generator that does not take exactly one parameter. -/
  | generatorArity
  /-- A lambda with another type. -/
  | badLambda (found : Ty)
  /-- A call that does not fit. -/
  | notCallable (name : String) (found : Ty) (count : Nat)
  /-- A range outside a loop header. -/
  | strayRange
  /-- A missing result. -/
  | bareReturn (result : Ty)
  /-- A result that is not wanted. -/
  | unitReturn
  /-- A jump outside every loop. -/
  | strayJump (word : String)
  deriving Inhabited

namespace EmitError

/-- The largest number of parameters. -/
def maxParameters : Nat := 255

/-- The code of a failure. -/
def code : EmitError → Code
  | build reason => if reason.isLimit then .formatLimit else .internalFault
  | manyParameters _ _ => .formatLimit
  | manyLocals => .formatLimit
  | _ => .internalFault

/-- The message of a failure. -/
def message : EmitError → String
  | alreadyUsed => "generator already used"
  | build reason => reason.message
  | manyParameters name n =>
    "method " ++ name ++ " has " ++ toString n ++ " parameters, the limit is "
      ++ toString maxParameters
  | manyLocals => "too many local variables"
  | paramUnresolved => "parameter without a symbol"
  | noType kind => "no type recorded for " ++ kind.qualified
  | unresolved name => "'" ++ name ++ "' was not resolved"
  | hasSlot name => "'" ++ name ++ "' already has a slot"
  | noSlot name => "'" ++ name ++ "' has no slot in this method"
  | captureNoSlot name => "captured '" ++ name ++ "' has no slot"
  | unbalanced a b =>
    "statement changed the operand stack depth from " ++ toString a ++ " to " ++ toString b
  | nestedFunction name => "function '" ++ name ++ "' is not at top level"
  | badOffset n => "interpolation offset " ++ toString n ++ " out of order"
  | unknownOperator op => "unknown operator " ++ op
  | unknownComparison op => "unknown comparison " ++ op
  | unknownFunction name => "unknown function '" ++ name ++ "'"
  | notIndexable name t => "'" ++ name ++ "' of type " ++ t.text ++ " is not indexable"
  | notIterable t => "cannot iterate over " ++ t.text
  | badCollection t => "collection typed as " ++ t.text
  | generatorArity => "generator must take one parameter"
  | badLambda t => "lambda typed as " ++ t.text
  | notCallable name t n =>
    "'" ++ name ++ "' of type " ++ t.text ++ " cannot be called with " ++ toString n
      ++ " arguments"
  | strayRange => "range used outside a for loop header"
  | bareReturn t => "bare return in a method returning " ++ t.text
  | unitReturn => "return with a value in a Unit method"
  | strayJump word => "'" ++ word ++ "' outside a loop"

/-- The diagnostic of a failure at a token. -/
def toDiagnostic (e : EmitError) (t : Token) : Diagnostic := .mkAt e.code t.line t.col e.message

end EmitError

end Kotlet

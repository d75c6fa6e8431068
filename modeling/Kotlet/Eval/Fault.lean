import Kotlet.Diagnostic
import Kotlet.Value

/-!
# Failures of running programs

* `Fault.Cause` : what can go wrong, with the message of each cause;
* `Frame` : an active call;
* `Fault` : a failure with its place and the calls that were active;
* `Flow`, `Outcome` : how a statement ends, and what running something comes to.

A well-typed program can only run into the first group of causes. The last group is for trees whose
types were never checked. Between them are a run that is cancelled, and two runs that have no end.
-/

namespace Kotlet

/-- What can go wrong in a running program. -/
inductive Fault.Cause where
  /-- A division by zero. -/
  | divisionByZero
  /-- An index outside a collection. -/
  | outOfBounds (index : Int32) (length : Nat)
  /-- A collection of a negative size. -/
  | negativeSize (n : Int32)
  /-- A range with a step that does not go forward. -/
  | badStep (n : Int32)
  /-- Too many active calls. -/
  | stackOverflow
  /-- A use of a variable that was never assigned. -/
  | isNull (name : String)
  /-- The run was cancelled. -/
  | cancelled
  /-- The run took more steps than it was given. -/
  | outOfFuel
  /-- A collection that holds itself was to be shown, which has no end. -/
  | endless
  /-- A name without a symbol. -/
  | unresolved (name : String)
  /-- A variable without a value. -/
  | noValue (name : String)
  /-- A captured variable without a value. -/
  | captureNoValue (name : String)
  /-- A function without a declaration. -/
  | noDeclaration (name : String)
  /-- A binary operator on values it does not take. -/
  | badOperands (op left right : String)
  /-- A unary operator on a value it does not take. -/
  | badOperand (op operand : String)
  /-- An operator that does not exist. -/
  | unknownOperator (op : String)
  /-- A condition that is no truth value. -/
  | notBoolean (found : String)
  /-- An index that is no number. -/
  | badIndex (found : String)
  /-- An index on something without elements. -/
  | notIndexable (name found : String)
  /-- A size that is no number. -/
  | badSize (found : String)
  /-- A call of something that is no function. -/
  | notCallable (name found : String)
  /-- A loop over something without elements. -/
  | notIterable (found : String)
  /-- A bound of a range that is no number. -/
  | badBound (found : String)
  /-- A wrong number of arguments. -/
  | argumentCount (want got : Nat)
  /-- The end of a function that should have returned. -/
  | missingReturn
  /-- A range outside a loop header. -/
  | strayRange
  /-- A function inside another statement. -/
  | nestedFunction (name : String)
  /-- A template at a place that the string does not have. -/
  | badOffset (offset : Int)
  deriving DecidableEq, Inhabited

/-- The message of a cause. -/
def Fault.Cause.message : Fault.Cause → String
  | divisionByZero => "/ by zero"
  | outOfBounds i n =>
    "Index " ++ toString i.toInt ++ " out of bounds for length " ++ toString n
  | negativeSize n => "Negative size: " ++ toString n.toInt
  | badStep n => "Step must be positive, was: " ++ toString n.toInt
  | stackOverflow => "stack overflow"
  | isNull name => "'" ++ name ++ "' is null"
  | cancelled => "execution cancelled: context canceled"
  | outOfFuel => "out of steps"
  | endless => "a collection that holds itself has no text"
  | unresolved name => "'" ++ name ++ "' was not resolved"
  | noValue name => "'" ++ name ++ "' has no value"
  | captureNoValue name => "captured '" ++ name ++ "' has no value"
  | noDeclaration name => "function '" ++ name ++ "' has no declaration"
  | badOperands op l r => "operator " ++ op ++ " applied to " ++ l ++ " and " ++ r
  | badOperand op t => "operator " ++ op ++ " applied to " ++ t
  | unknownOperator op => "unknown operator " ++ op
  | notBoolean t => "condition is " ++ t ++ ", not a Boolean"
  | badIndex t => "index is " ++ t ++ ", not an Int"
  | notIndexable name t => "'" ++ name ++ "' of type " ++ t ++ " is not indexable"
  | badSize t => "size is " ++ t ++ ", not an Int"
  | notCallable name t => "'" ++ name ++ "' of type " ++ t ++ " is not callable"
  | notIterable t => "cannot iterate over " ++ t
  | badBound t => "range bound is " ++ t ++ ", not an Int"
  | argumentCount want got =>
    "expected " ++ toString want ++ " arguments, got " ++ toString got
  | missingReturn => "missing return"
  | strayRange => "a range is only allowed in a for loop header"
  | nestedFunction name => "function '" ++ name ++ "' is not at top level"
  | badOffset n => "interpolation offset " ++ toString n ++ " out of order"

/-- An active call. -/
structure Frame where
  /-- What is called. -/
  name : String
  /-- The line of the call. -/
  line : Int
  /-- The column of the call. -/
  col : Int
  deriving DecidableEq, Inhabited

/-- The place of a call as traces show it. -/
def Frame.text (f : Frame) : String :=
  "at " ++ f.name ++ " (" ++ toString f.line ++ ":" ++ toString f.col ++ ")"

/-- A failure with its message, its place, and the calls that were active, the innermost one first. -/
structure Fault where
  /-- The message. -/
  message : String
  /-- The line; 0 when no place is known. -/
  line : Int
  /-- The column. -/
  col : Int
  /-- The calls that were active, the innermost one first; none before the failure leaves a call. -/
  trace : List Frame
  deriving DecidableEq, Inhabited

namespace Fault

/-- The name of failures among the kinds of values. -/
def typeName : String := "ERROR"

/-- The failure with the active calls as its trace, unless it has one. -/
def traced (f : Fault) (calls : List Frame) : Fault :=
  if f.trace.isEmpty then { f with trace := calls } else f

/-- The diagnostic of a failure: the message goes on with the active calls. -/
def toDiagnostic (f : Fault) (file : String) : Diagnostic :=
  let message := f.trace.foldl (fun s frame => s ++ "\n\t" ++ frame.text) f.message
  { Diagnostic.mkAt .runtimeFailure f.line f.col message with file := file }

/-- A failure as a value would be shown. -/
def «show» (f : Fault) : String :=
  let head :=
    if 0 < f.line then
      "ERROR at " ++ toString f.line ++ ":" ++ toString f.col ++ ": " ++ f.message
    else "ERROR: " ++ f.message
  f.trace.foldl (fun s frame => s ++ "\n  " ++ frame.text) head

end Fault

/-- How a statement ends. -/
inductive Flow where
  /-- The next statement follows. -/
  | next
  /-- The innermost loop ends. -/
  | broke
  /-- The innermost loop goes on with its next turn. -/
  | continued
  /-- The function returns a value. -/
  | returned (v : Value)
  deriving Inhabited

namespace Flow

/-- The name of a way to end, where it is none of a value. -/
def typeName : Flow → String
  | next => Value.unit.typeName
  | broke => "BREAK_SIGNAL"
  | continued => "CONTINUE_SIGNAL"
  | returned _ => "RETURN_VALUE"

/-- A way to end as a value would be shown. -/
def show? (heap : Heap) : Flow → Option String
  | next => Value.unit.show? heap
  | broke => some "break"
  | continued => some "continue"
  | returned v => v.show? heap

end Flow

end Kotlet

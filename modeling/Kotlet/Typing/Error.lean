import Kotlet.Diagnostic
import Kotlet.Syntax

/-!
# Type errors

* `TypeError` : why a program is ill-typed;
* `TypeError.code`, `TypeError.message` : the code and the wording of each cause;
* `TypeError.toDiagnostic` : the diagnostic of a cause at a token.
-/

namespace Kotlet

/-- Why a program is ill-typed. -/
inductive TypeError where
  /-- A variable that is not declared. -/
  | undeclared (name : String)
  /-- A value is wanted and there is none. -/
  | noValue
  /-- A part of a construct has the wrong type. -/
  | mustBe (what : String) (want found : Ty)
  /-- An operator between types it does not take. -/
  | badOperands (op : String) (left right : Ty)
  /-- `!` on something that is no truth value. -/
  | badNegation (found : Ty)
  /-- A template whose value cannot be shown. -/
  | notInterpolable (found : Ty)
  /-- An index on something without elements. -/
  | notIndexable (name : String) (found : Ty)
  /-- A collection of what cannot be an element. -/
  | badElement (found : Ty)
  /-- Elements of different types. -/
  | mixedElements (lexeme : String) (first other : Ty)
  /-- A collection without elements and without a wanted type. -/
  | unknownElement (lexeme : String)
  /-- A generator that does not take exactly one parameter. -/
  | generatorArity (count : Nat)
  /-- A generator whose parameter is no index. -/
  | generatorParameter (found : Ty)
  /-- A generator whose result cannot be an element. -/
  | generatorResult (found : Ty)
  /-- A lambda parameter without a type. -/
  | unknownParameter (name : String)
  /-- A parameter that cannot have a value. -/
  | unitParameter (name : String)
  /-- A lambda whose body does not fit. -/
  | lambdaResult (want found : Ty)
  /-- A call of a name that is not declared. -/
  | unknownFunction (name : String)
  /-- A call of something that is no function. -/
  | notCallable (name : String) (found : Ty)
  /-- A wrong number of arguments. -/
  | argumentCount (name : String) (want got : Nat)
  /-- An argument that does not fit. -/
  | badArgument (number : Nat) (name : String) (want found : Ty)
  /-- A range outside a loop header. -/
  | strayRange
  /-- An expression for which no type was found: a fault of the checker. -/
  | noType (kind : NodeKind)
  /-- Two functions of one name. -/
  | functionRedeclared (name : String)
  /-- Two variables of one name in one scope. -/
  | redeclared (name : String)
  /-- A variable that cannot have a value. -/
  | unitVariable (name : String)
  /-- An initial value that does not fit. -/
  | badInitializer (name : String) (want found : Ty)
  /-- A variable with neither a type nor an initial value. -/
  | unknownVariable (name : String)
  /-- An assigned value that does not fit. -/
  | badAssignment (found : Ty) (name : String) (want : Ty)
  /-- A stored element that does not fit. -/
  | badStore (found want : Ty)
  /-- An assignment to a function. -/
  | assignsFunction (name : String)
  /-- An assignment to a parameter. -/
  | assignsParameter (name : String)
  /-- An assignment to a variable outside the lambda. -/
  | assignsCaptured (name : String)
  /-- A second assignment to a constant. -/
  | reassigned (name : String)
  /-- An assignment to a constant that a loop may repeat. -/
  | assignedInLoop (name : String)
  /-- An arithmetic update of something that is no number. -/
  | intRequired (op : String) (found : Ty)
  /-- A value that cannot be printed. -/
  | notPrintable (found : Ty)
  /-- A loop over something without elements. -/
  | notIterable (found : Ty)
  /-- A step that is written out and not positive. -/
  | badStep (n : Int32)
  /-- A function inside another statement. -/
  | nestedFunction (name : String)
  /-- A way through a function that returns nothing. -/
  | missingReturn (name : String) (want : Ty)
  /-- A value returned from the script. -/
  | strayReturn
  /-- A value returned from a function without a result. -/
  | unitReturn (name : String)
  /-- No value returned from a function with a result. -/
  | bareReturn (name : String) (want : Ty)
  /-- A returned value that does not fit. -/
  | badReturn (want found : Ty)
  /-- A jump outside a loop. -/
  | strayJump (word : String)
  deriving DecidableEq, Inhabited

namespace TypeError

/-- The code of a cause. -/
def code : TypeError → Code
  | undeclared _ => .undeclared
  | noValue | mustBe .. | badOperands .. | badNegation _ | badElement _ | mixedElements ..
  | generatorParameter _ | generatorResult _ | unitParameter _ | lambdaResult .. | badArgument ..
  | unitVariable _ | badInitializer .. | badAssignment .. | badStore .. | intRequired .. =>
    .typeMismatch
  | functionRedeclared _ | redeclared _ => .redeclared
  | notIndexable .. => .notIndexable
  | assignsFunction _ | assignsParameter _ | assignsCaptured _ | reassigned _
  | assignedInLoop _ => .notAssignable
  | unknownElement _ | unknownParameter _ | unknownVariable _ => .cannotInfer
  | generatorArity _ | argumentCount .. => .argumentCount
  | unknownFunction _ | notCallable .. => .notCallable
  | missingReturn .. | strayReturn | unitReturn _ | bareReturn .. | badReturn .. => .badReturn
  | nestedFunction _ | strayJump _ => .misplaced
  | notInterpolable _ | notPrintable _ => .notPrintable
  | strayRange | notIterable _ | badStep _ => .badRange
  | noType _ => .internalFault

/-- The name in single quotes. -/
def quoted (name : String) : String := "'" ++ name ++ "'"

/-- The message of a cause. -/
def message : TypeError → String
  | undeclared name => "undeclared variable " ++ quoted name
  | noValue => "expression of type Unit has no value"
  | mustBe what want found => what ++ " must be " ++ want.text ++ ", found " ++ found.text
  | badOperands op l r =>
    "operator " ++ op ++ " cannot be applied to " ++ l.text ++ " and " ++ r.text
  | badNegation t => "operator ! cannot be applied to " ++ t.text
  | notInterpolable t => "cannot interpolate a value of type " ++ t.text
  | notIndexable name t => quoted name ++ " of type " ++ t.text ++ " is not indexable"
  | badElement t => "collection elements must be Int, Boolean, String or Any, found " ++ t.text
  | mixedElements lexeme a b =>
    lexeme ++ " elements must share one type: found " ++ a.text ++ " and " ++ b.text
  | unknownElement lexeme => "cannot infer the element type of an empty " ++ lexeme
  | generatorArity n => "generator lambda must take exactly one Int parameter, takes " ++ toString n
  | generatorParameter t => "generator parameter must be Int, found " ++ t.text
  | generatorResult t => "generator must produce Int, Boolean, String or Any, found " ++ t.text
  | unknownParameter name => "cannot infer type of lambda parameter " ++ quoted name
  | unitParameter name => "parameter " ++ quoted name ++ " cannot have type Unit"
  | lambdaResult want found => "lambda must return " ++ want.text ++ ", found " ++ found.text
  | unknownFunction name => "unknown function " ++ quoted name
  | notCallable name t => quoted name ++ " of type " ++ t.text ++ " is not callable"
  | argumentCount name want got =>
    quoted name ++ " expects " ++ toString want ++ " arguments, got " ++ toString got
  | badArgument i name want found =>
    "argument " ++ toString i ++ " of " ++ quoted name ++ ": expected " ++ want.text ++ ", found "
      ++ found.text
  | strayRange => "a range is only allowed in a for loop header"
  | noType kind => "typechecker produced no type for " ++ kind.qualified
  | functionRedeclared name => "function " ++ quoted name ++ " is already declared"
  | redeclared name => quoted name ++ " is already declared in this scope"
  | unitVariable name => "variable " ++ quoted name ++ " cannot have type Unit"
  | badInitializer name want found =>
    "cannot initialize " ++ quoted name ++ " of type " ++ want.text ++ " with a value of type "
      ++ found.text
  | unknownVariable name =>
    "cannot infer type of " ++ quoted name ++ ": add a type or an initializer"
  | badAssignment found name want =>
    "cannot assign a value of type " ++ found.text ++ " to " ++ quoted name ++ " of type "
      ++ want.text
  | badStore found want =>
    "cannot store a value of type " ++ found.text ++ " in an element of type " ++ want.text
  | assignsFunction name => "cannot assign to function " ++ quoted name
  | assignsParameter name => "cannot assign to parameter " ++ quoted name
  | assignsCaptured name =>
    "captured variable " ++ quoted name ++ " cannot be modified inside a lambda"
  | reassigned name => "val " ++ quoted name ++ " cannot be reassigned"
  | assignedInLoop name => "val " ++ quoted name ++ " cannot be assigned inside a loop"
  | intRequired op t => "operator " ++ op ++ " requires an Int, found " ++ t.text
  | notPrintable t => "cannot print a value of type " ++ t.text
  | notIterable t => "cannot iterate over a value of type " ++ t.text
  | badStep n => "step must be positive, was " ++ toString n.toInt
  | nestedFunction name => "function " ++ quoted name ++ " must be declared at top level"
  | missingReturn name want =>
    "missing return in function " ++ quoted name ++ " returning " ++ want.text
  | strayReturn => "return with a value outside a function"
  | unitReturn name => "function " ++ quoted name ++ " returns Unit and cannot return a value"
  | bareReturn name want =>
    "function " ++ quoted name ++ " must return a value of type " ++ want.text
  | badReturn want found =>
    "return type mismatch: expected " ++ want.text ++ ", found " ++ found.text
  | strayJump word => quoted word ++ " outside a loop"

/-- The diagnostic of a cause at a token. -/
def toDiagnostic (e : TypeError) (t : Token) : Diagnostic := .mkAt e.code t.line t.col e.message

end TypeError

end Kotlet

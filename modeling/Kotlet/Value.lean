import Kotlet.Syntax.Outline

/-!
# Values

Numbers, truth values and strings are themselves; collections live on a heap and are shared by
their address. A lambda becomes a closure with the values it captured when it was made.

* `Value` : the values of a running program;
* `Heap` : the elements of all collections made so far;
* `Value.show?` : a value as `print` shows it, unless that has no end;
* `Value.typeName` : the name of its kind in messages.
-/

namespace Kotlet

/-- A value of a running program. -/
inductive Value where
  /-- A number. -/
  | int (n : Int32)
  /-- A truth value. -/
  | bool (b : Bool)
  /-- A string. -/
  | string (s : String)
  /-- What a function without a result returns. -/
  | unit
  /-- What a variable of a reference type holds before its first assignment. -/
  | null
  /-- A collection, by its address. -/
  | collection (kind : CollectionKind) (address : Nat)
  /-- A declared function. -/
  | function (f : FunDecl)
  /-- A lambda with the values it captured. -/
  | closure (l : Lambda) (captured : List (SymbolId × Value))
  deriving Inhabited

/-- The elements of all collections, by address. -/
abbrev Heap := Array (Array Value)

/-- The texts of some elements as a collection shows them. -/
def bracketed (texts : List String) : String := "[" ++ ", ".intercalate texts ++ "]"

namespace Value

/-- A value as `print` shows it, if at most `depth` collections are inside each other. -/
def showWithin (heap : Heap) : Nat → Value → Option String
  | _, int n => some (toString n.toInt)
  | _, bool b => some (boolText b)
  | _, string s => some s
  | _, unit => some "kotlin.Unit"
  | _, null => some "null"
  | _, function f => some ("fun " ++ f.name.name)
  | _, closure l _ => some ("lambda/" ++ toString l.params.length)
  | 0, collection _ _ => none
  | depth + 1, collection _ a =>
    ((heap.getD a #[]).toList.mapM (showWithin heap depth)).map bracketed

/-- A value as `print` shows it. A collection that does not hold itself holds no more collections
inside each other than there are on the heap. One that holds itself has no text: showing it never
comes to an end. -/
def show? (heap : Heap) (v : Value) : Option String := v.showWithin heap (heap.size + 1)

/-- The name of the kind of a value. -/
def typeName : Value → String
  | int _ => "INTEGER"
  | bool _ => "BOOLEAN"
  | string _ => "STRING"
  | unit => "UNIT"
  | null => "NULL"
  | collection .array _ => "ARRAY"
  | collection .list _ => "LIST"
  | function _ => "FUNCTION"
  | closure _ _ => "CLOSURE"

/-- What a variable of a type holds before its first assignment. -/
def initial : Ty → Value
  | .scalar .int => int 0
  | .scalar .boolean => bool false
  | .scalar .string => string ""
  | _ => null

end Value

end Kotlet

/-!
# Types

* `Scalar` : the built-in value types;
* `Ty` : scalars, arrays and lists of scalars, and functions;
* `Ty.text` : how a type is written;
* `Ty.element?` : the element type of an array or list;
* `Ty.assignable` : where a value of one type may stand for a value of another.

A function type may lack a result; a lambda is then free in what it returns.
-/

namespace Kotlet

/-- The built-in value types, and one that no program can name. -/
inductive Scalar where
  | int | boolean | string | unit | any | unknown
  deriving DecidableEq, Inhabited

/-- How a scalar is written. -/
def Scalar.text : Scalar → String
  | .int => "Int"
  | .boolean => "Boolean"
  | .string => "String"
  | .unit => "Unit"
  | .any => "Any"
  | .unknown => "?"

/-- The type of a value. -/
inductive Ty where
  /-- A built-in value type. -/
  | scalar (s : Scalar)
  /-- An array of fixed size. -/
  | array (element : Scalar)
  /-- A list that can grow. -/
  | list (element : Scalar)
  /-- A function. -/
  | fn (params : List Ty) (result : Option Ty)
  deriving Inhabited

namespace Ty

/-- The type `Int`. -/
abbrev int : Ty := .scalar .int
/-- The type `Boolean`. -/
abbrev boolean : Ty := .scalar .boolean
/-- The type `String`. -/
abbrev string : Ty := .scalar .string
/-- The type `Unit`. -/
abbrev unit : Ty := .scalar .unit
/-- The type `Any`. -/
abbrev any : Ty := .scalar .any

/-! ## Equality -/

mutual

/-- Decides equality of types. -/
def decEq : (a b : Ty) → Decidable (a = b)
  | .scalar s, .scalar t =>
    if h : s = t then .isTrue (h ▸ rfl) else .isFalse fun e => h (Ty.scalar.inj e)
  | .array s, .array t =>
    if h : s = t then .isTrue (h ▸ rfl) else .isFalse fun e => h (Ty.array.inj e)
  | .list s, .list t =>
    if h : s = t then .isTrue (h ▸ rfl) else .isFalse fun e => h (Ty.list.inj e)
  | .fn ps r, .fn qs t =>
    match decEqList ps qs, decEqOption r t with
    | .isTrue h, .isTrue k => .isTrue (h ▸ k ▸ rfl)
    | .isFalse h, _ => .isFalse fun e => h (Ty.fn.inj e).1
    | _, .isFalse k => .isFalse fun e => k (Ty.fn.inj e).2
  | .scalar _, .array _ | .scalar _, .list _ | .scalar _, .fn _ _
  | .array _, .scalar _ | .array _, .list _ | .array _, .fn _ _
  | .list _, .scalar _ | .list _, .array _ | .list _, .fn _ _
  | .fn _ _, .scalar _ | .fn _ _, .array _ | .fn _ _, .list _ => .isFalse nofun

/-- Decides equality of lists of types. -/
def decEqList : (a b : List Ty) → Decidable (a = b)
  | [], [] => .isTrue rfl
  | [], _ :: _ | _ :: _, [] => .isFalse nofun
  | a :: as, b :: bs =>
    match decEq a b, decEqList as bs with
    | .isTrue h, .isTrue k => .isTrue (h ▸ k ▸ rfl)
    | .isFalse h, _ => .isFalse fun e => h (List.cons.inj e).1
    | _, .isFalse k => .isFalse fun e => k (List.cons.inj e).2

/-- Decides equality of optional types. -/
def decEqOption : (a b : Option Ty) → Decidable (a = b)
  | none, none => .isTrue rfl
  | none, some _ | some _, none => .isFalse nofun
  | some a, some b =>
    match decEq a b with
    | .isTrue h => .isTrue (h ▸ rfl)
    | .isFalse h => .isFalse fun e => h (Option.some.inj e)

end

instance : DecidableEq Ty := decEq

/-! ## Text -/

mutual

/-- How a type is written; a missing result reads as `Unit`. -/
def text : Ty → String
  | .scalar s => s.text
  | .array s => "Array<" ++ s.text ++ ">"
  | .list s => "MutableList<" ++ s.text ++ ">"
  | .fn params result =>
    "(" ++ ", ".intercalate (texts params) ++ ") -> " ++ textOrUnit result

/-- How each of a list of types is written. -/
def texts : List Ty → List String
  | [] => []
  | t :: ts => text t :: texts ts

/-- How an optional type is written. -/
def textOrUnit : Option Ty → String
  | none => "Unit"
  | some t => text t

end

/-! ## Classification -/

/-- The element type of an array or list. -/
def element? : Ty → Option Scalar
  | .array s => some s
  | .list s => some s
  | _ => none

/-- The scalar that a type is. -/
def scalar? : Ty → Option Scalar
  | .scalar s => some s
  | _ => none

/-- The element type of the type, if it can be stored in a collection. -/
def elementScalar? : Ty → Option Scalar
  | .scalar .unit => none
  | .scalar s => some s
  | _ => none

/-- Whether values of the type can be printed. -/
def printable : Ty → Bool
  | .scalar s => s != .unit
  | .array _ => true
  | .list _ => true
  | .fn _ _ => false

/-- Whether a value of type `source` may stand where `target` is wanted: types agree, or any
value but Unit goes into `Any`. -/
def assignable (source target : Ty) : Bool :=
  source == target || (target == any && source != unit)

/-- Whether a value of type `source`, if any, may stand where `target` is wanted, if anything
is. -/
def assignableOption : Option Ty → Option Ty → Bool
  | some s, some t => assignable s t
  | none, none => true
  | _, _ => false

/-- Whether values of the type are object references in a running class. -/
def isReference : Ty → Bool
  | .scalar s => s != .int && s != .boolean && s != .unit
  | _ => true

end Ty

end Kotlet

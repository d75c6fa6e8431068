/-!
# Sample programs

Well-typed programs whose choices are read off some bytes. When the bytes are used up every choice
is the first one, which is the simplest. All names are fresh, so no declaration clashes with
another, and every program ends.

* `Sample` : steps of writing a program;
* `Sample.draw` : a choice;
* `Sample.int`, `Sample.condition` : expressions;
* `Sample.statement` : a statement;
* `Sample.function`, `Sample.program` : a function, and a whole program.
-/

namespace Kotlet

namespace Sample

/-- The kinds of variables. -/
inductive Kind where
  | number | collection | function
  deriving DecidableEq, Inhabited

/-- A variable that is in scope. -/
structure Var where
  /-- Its name. -/
  name : String
  /-- Its kind. -/
  kind : Kind
  /-- Whether it may be assigned. -/
  writable : Bool
  deriving DecidableEq, Inhabited

/-- What is known while a program is written. -/
structure Draft where
  /-- The bytes that are left. -/
  data : List UInt8
  /-- The number in the next fresh name. -/
  next : Nat
  /-- The variables in scope, by scope from the inside out, the latest one first. -/
  scopes : List (List Var)
  /-- The functions so far with the number of their parameters. -/
  functions : Array (String × Nat)
  deriving Inhabited

/-- Before the first choice. -/
def Draft.start (data : List UInt8) : Draft := ⟨data, 0, [], #[]⟩

end Sample

/-- Steps of writing a program. -/
abbrev Sample := StateM Sample.Draft

namespace Sample

/-- A choice below `n`. -/
def draw (n : Nat) : Sample Nat :=
  modifyGet fun d =>
    match d.data with
    | [] => (0, d)
    | b :: rest => if n = 0 then (0, d) else (b.toNat % n, { d with data := rest })

/-- One of some texts. -/
def oneOf (options : List String) : Sample String := do
  return options.getD (← draw options.length) ""

/-- A fresh name that starts with a letter. -/
def fresh (letter : String) : Sample String :=
  modifyGet fun d => (letter ++ toString d.next, { d with next := d.next + 1 })

/-! ## Scopes -/

/-- Declares a variable. -/
def declare (name : String) (kind : Kind) (writable : Bool) : Sample Unit :=
  modify fun d =>
    match d.scopes with
    | inner :: outer => { d with scopes := (⟨name, kind, writable⟩ :: inner) :: outer }
    | [] => d

/-- Steps inside a scope of their own. -/
def inScope {α : Type} (body : Sample α) : Sample α := do
  modify fun d => { d with scopes := [] :: d.scopes }
  let a ← body
  modify fun d => { d with scopes := d.scopes.tail }
  return a

/-- The names in scope of a kind, the first declared one first. -/
def visible (kind : Kind) (writable : Bool) : Sample (List String) := do
  let vars := (← get).scopes.flatten.reverse
  return (vars.filter fun v => v.kind = kind ∧ (!writable || v.writable)).map Var.name

/-- One of the names in scope of a kind, if there is any. -/
def pick? (kind : Kind) (writable : Bool) : Sample (Option String) := do
  match ← visible kind writable with
  | [] => return none
  | names => return some (← oneOf names)

/-! ## Expressions -/

/-- A literal. -/
def literal : Sample String := do return toString (← draw 100)

/-- A literal or variable. -/
def atom : Sample String := do
  match ← pick? .number false with
  | none => literal
  | some v => if (← draw 2) = 0 then return v else literal

/-- Runs a step `n` times. -/
def times {α : Type} (step : Sample α) : Nat → Sample (List α)
  | 0 => return []
  | n + 1 => do
    let a ← step
    return a :: (← times step n)

/-- A number, with at most so many levels inside. Nothing is divided by zero, and indices stay
within the three elements that every collection has. -/
def intWithin : Nat → Sample String
  | 0 => atom
  | depth + 1 => do
    match ← draw 9 with
    | 0 | 1 =>
      let op ← oneOf ["+", "-", "*"]
      let a ← intWithin depth
      let b ← intWithin depth
      return a ++ " " ++ op ++ " " ++ b
    | 2 =>
      let op ← oneOf ["/", "%"]
      let a ← intWithin depth
      return "(" ++ a ++ ") " ++ op ++ " " ++ toString ((← draw 9) + 1)
    | 3 =>
      let a ← intWithin depth
      return "(" ++ a ++ ")"
    | 4 =>
      let functions := (← get).functions
      if functions.isEmpty then atom
      else
        let (name, params) := functions.getD (← draw functions.size) ("", 0)
        let args ← times (intWithin depth) params
        return name ++ "(" ++ ", ".intercalate args ++ ")"
    | 5 =>
      match ← pick? .function false with
      | none => atom
      | some f => return f ++ "(" ++ (← intWithin depth) ++ ")"
    | 6 =>
      match ← pick? .collection false with
      | none => atom
      | some a => return a ++ "[" ++ toString (← draw 3) ++ "]"
    | _ => atom

/-- A number. -/
def int : Sample String := intWithin 3

/-- A condition that goes on after `&&` or `||`. -/
def conditionAtom : Sample String := do
  match ← draw 3 with
  | 0 => oneOf ["true", "false"]
  | 1 =>
    let s ← fresh "s"
    let t ← fresh "t"
    return "\"" ++ s ++ "\" < \"" ++ t ++ "\""
  | _ =>
    let a ← atom
    let b ← atom
    return a ++ " == " ++ b

/-- A condition. -/
def condition : Sample String := do
  let a ← atom
  let op ← oneOf ["<", "<=", ">", ">=", "==", "!="]
  let b ← atom
  let test := a ++ " " ++ op ++ " " ++ b
  match ← draw 5 with
  | 0 => return test ++ " && " ++ (← conditionAtom)
  | 1 => return test ++ " || " ++ (← conditionAtom)
  | 2 => return "!(" ++ test ++ ")"
  | _ => return test

/-! ## Simple statements -/

/-- A declaration of a number. -/
def varDecl : Sample String := do
  let constant := (← draw 3) = 0
  let value ← int
  let name ← fresh "v"
  declare name .number !constant
  return (if constant then "val " else "var ") ++ name ++ " = " ++ value

/-- An assignment to a variable. -/
def assignVar : Sample String := do
  match ← pick? .number true with
  | none => varDecl
  | some v =>
    match ← draw 4 with
    | 0 => return v ++ "++"
    | 1 =>
      let op ← oneOf ["+=", "-=", "*="]
      return v ++ " " ++ op ++ " " ++ (← int)
    | _ => return v ++ " = " ++ (← int)

/-- An assignment. -/
def assignment : Sample String := do
  match ← pick? .collection false with
  | none => assignVar
  | some a =>
    if (← draw 3) = 0 then
      let op ← oneOf ["=", "+=", "-=", "*="]
      let i ← draw 3
      return a ++ "[" ++ toString i ++ "] " ++ op ++ " " ++ (← int)
    else assignVar

/-- Prints a number. -/
def printInt : Sample String := do return "println(" ++ (← int) ++ ")"

/-- Prints something. -/
def printing : Sample String := do
  match ← draw 4 with
  | 0 =>
    match ← pick? .number false with
    | none => printInt
    | some v =>
      return "println(\"" ++ v ++ " is $" ++ v ++ ", twice $\x7b" ++ v ++ " * 2\x7d\")"
  | 1 =>
    match ← pick? .collection false with
    | none => printInt
    | some a => return "println(" ++ a ++ ")"
  | 2 => return "println(" ++ (← condition) ++ ")"
  | _ => printInt

/-- A declaration of a collection of three elements. -/
def collectionDecl : Sample String := do
  let name ← fresh "a"
  let isList := (← draw 2) = 0
  let elements ← times int 3
  let value ←
    if (← draw 3) = 0 then do
      let kind := if isList then "MutableList" else "Array"
      pure (kind ++ "(3) \x7b k -> k * " ++ (← literal) ++ " \x7d")
    else
      let kind := if isList then "mutableListOf" else "arrayOf"
      pure (kind ++ "(" ++ ", ".intercalate elements ++ ")")
  declare name .collection false
  return "val " ++ name ++ " = " ++ value

/-- A declaration of a function value, which may capture the variables in scope. -/
def functionDecl : Sample String := do
  let name ← fresh "f"
  let param ← fresh "q"
  let body ← inScope do
    declare param .number false
    int
  declare name .function false
  return "val " ++ name ++ " = \x7b " ++ param ++ ": Int -> " ++ body ++ " \x7d"

/-! ## Compound statements -/

/-- Statements, each on its lines. -/
def lines (ss : List String) : String := String.join (ss.map fun s => s ++ "\n")

/-- A block of one to three statements. -/
def block (statement : Sample String) : Sample String := inScope do
  let n ← draw 3
  return "\x7b\n" ++ lines (← times statement (n + 1)) ++ "\x7d"

/-- `if`, with or without `else`. -/
def branching (statement : Sample String) : Sample String := do
  let c ← condition
  let s := "if (" ++ c ++ ") " ++ (← block statement)
  match ← draw 3 with
  | 0 => return s ++ " else " ++ (← block statement)
  | 1 =>
    let c ← condition
    return s ++ " else if (" ++ c ++ ") " ++ (← block statement)
  | _ => return s

/-- The variable of a loop and its body. -/
def loopBody (letter : String) (statement : Sample String) : Sample (String × String) :=
  inScope do
    let x ← fresh letter
    declare x .number false
    return (x, ← block statement)

/-- `for` over a short range. -/
def rangeLoop (statement : Sample String) : Sample String := do
  let first ← draw 3
  let last := first + (← draw 4)
  let step ← if (← draw 3) = 0 then do pure (" step " ++ toString ((← draw 3) + 1)) else pure ""
  let (i, body) ← loopBody "i" statement
  return "for (" ++ i ++ " in " ++ toString first ++ ".." ++ toString last ++ step ++ ") " ++ body

/-- `for`. -/
def forLoop (statement : Sample String) : Sample String := do
  match ← pick? .collection false with
  | none => rangeLoop statement
  | some a =>
    if (← draw 3) = 0 then
      let (x, body) ← loopBody "x" statement
      return "for (" ++ x ++ " in " ++ a ++ ") " ++ body
    else rangeLoop statement

/-- `while`, which counts a variable that the body cannot change up to a bound. -/
def whileLoop (statement : Sample String) : Sample String := do
  let w ← fresh "w"
  declare w .number false
  let bound := (← draw 4) + 1
  inScope do
    let n ← draw 2
    let body ← times statement (n + 1)
    return "var " ++ w ++ " = 0\nwhile (" ++ w ++ " < " ++ toString bound ++ ") \x7b\n" ++ w
      ++ "++\n" ++ lines body ++ "\x7d"

/-- A statement, with at most so many levels inside. -/
def statementWithin : Nat → Bool → Sample String
  | 0, _ => printing
  | depth + 1, inLoop => do
    let choice ← draw 14
    if choice < 3 then varDecl
    else if choice < 5 then assignment
    else if choice < 7 then printing
    else if choice < 8 then branching (statementWithin depth inLoop)
    else if choice < 9 then forLoop (statementWithin depth true)
    else if choice < 10 then whileLoop (statementWithin depth true)
    else if choice < 11 then collectionDecl
    else if choice < 12 then functionDecl
    else if choice < 13 ∧ inLoop then
      return "if (" ++ (← condition) ++ ") \x7b\nbreak\n\x7d"
    else varDecl

/-- A statement. -/
def statement : Sample String := statementWithin 3 false

/-! ## Programs -/

/-- Fresh parameters, which are declared. -/
def parameters : Nat → Sample (List String)
  | 0 => return []
  | n + 1 => do
    let p ← fresh "p"
    declare p .number false
    return (p ++ ": Int") :: (← parameters n)

/-- A function over numbers. It is known only after its end, so it never calls itself, and nothing
from outside is in scope in it. -/
def function : Sample String := do
  let name ← fresh "g"
  let count ← draw 3
  let outer := (← get).scopes
  modify fun d => { d with scopes := [] }
  let text ← inScope do
    let params ← parameters count
    let n ← draw 3
    let body ← times statement n
    let result ← int
    return "fun " ++ name ++ "(" ++ ", ".intercalate params ++ "): Int \x7b\n" ++ lines body
      ++ "return " ++ result ++ "\n\x7d"
  modify fun d => { d with scopes := outer, functions := d.functions.push (name, count) }
  return text

/-- The last line of a program, which prints a number if there is one. -/
def lastLine : Sample String := do
  match ← visible .number false with
  | [] => return "println(\"end\")\n"
  | v :: _ => return "println(\"end " ++ v ++ "=$" ++ v ++ "\")\n"

/-- A program: up to two functions, then up to six statements. -/
def program : Sample String := do
  let n ← draw 3
  let functions ← times function n
  inScope do
    let n ← draw 6
    let statements ← times statement (n + 1)
    return lines functions ++ lines statements ++ (← lastLine)

end Sample

end Kotlet

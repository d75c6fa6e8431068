import Kotlet.Symbol.Scope
import Kotlet.Typing.Error

/-!
# What the typechecker knows

The checker walks a program once, in the order of its statements, and stops at the first error. It
returns the tree with types, symbols and captures filled in.

* `Typing.Env` : what a piece of the program finds around it;
* `Typing.Late` : a variable that was declared without a value;
* `Typing.State` : what changes from statement to statement;
* `Check` : steps of the checker;
* `Typing.resolve?` : what a name means, noting the lambdas that capture it;
* `Typing.declare` : a fresh symbol;
* `Typing.merge` : which constants have a value after the two ways through an `if`.
-/

namespace Kotlet

namespace Typing

/-- The function around a statement. -/
structure Enclosing where
  /-- Its name. -/
  name : String
  /-- What it returns. -/
  result : Ty

/-- What a piece of the program finds around it. -/
structure Env where
  /-- The functions of the program. -/
  functions : Scope
  /-- The number of the routine. -/
  routine : Nat
  /-- The function, unless this is the script. -/
  enclosing : Option Enclosing
  /-- The routine or lambda that owns what is declared here. -/
  owner : Site
  /-- The number of lambdas around. -/
  depth : Nat
  /-- The number of loops around. -/
  loops : Nat

/-- A variable that was declared without a value. -/
structure Late where
  /-- Which one. -/
  id : SymbolId
  /-- Whether it may be assigned only once. -/
  constant : Bool
  /-- The number of loops around its declaration. -/
  loops : Nat
  /-- Whether it may have been assigned by now. -/
  assigned : Bool
  deriving DecidableEq, Inhabited

/-- What changes from statement to statement. -/
structure State where
  /-- The names in scope. -/
  scopes : Scopes
  /-- The number of the next symbol of this routine. -/
  next : Nat
  /-- The variables declared without a value, anywhere so far, the latest one first. -/
  late : List Late
  /-- What the lambdas around capture, from the inside out, each with its latest capture first. -/
  captures : List (List Symbol)

end Typing

/-- Steps of the checker. -/
abbrev Check := ReaderT Typing.Env (StateT Typing.State (Except Diagnostic))

namespace Typing

/-- Rejects the program at a token. -/
def reject {α : Type} (e : TypeError) (t : Token) : Check α := throw (e.toDiagnostic t)

/-! ## Scopes -/

/-- A step inside a fresh scope, which is left afterwards. -/
def inScope {α : Type} (kind : ScopeKind) (body : Check α) : Check α := do
  let outer := (← get).scopes
  modify fun s => { s with scopes := s.scopes.enter kind }
  let a ← body
  -- Scopes nest, so leaving the scope gives back those around it.
  modify fun s => { s with scopes := outer }
  return a

/-- A fresh symbol in the innermost scope. -/
def declare (name : String) (ty : Ty) (kind : Symbol.Kind) (constant initialized : Bool)
    (site : Site) : Check Symbol := do
  let env ← read
  let s ← get
  let sym : Symbol :=
    ⟨⟨env.routine, s.next⟩, name, ty, kind, constant, initialized, env.depth, some env.owner,
      some site⟩
  set { s with scopes := s.scopes.define sym, next := s.next + 1 }
  return sym

/-- Adds a capture unless it is there. -/
def addCapture (sym : Symbol) (captures : List Symbol) : List Symbol :=
  if captures.any fun c => c.id == sym.id then captures else sym :: captures

/-- Adds a capture to the first `n` of some lambdas. -/
def addCaptures (sym : Symbol) : Nat → List (List Symbol) → List (List Symbol)
  | n + 1, cs :: rest => addCapture sym cs :: addCaptures sym n rest
  | _, rest => rest

/-- What a name means here. A variable from outside is captured by every lambda between it and
its use. -/
def resolve? (name : String) : Check (Option Symbol) := do
  let env ← read
  match (← get).scopes.find? name with
  | none => return none
  | some sym =>
    if !sym.isFunction then
      modify fun s => { s with captures := addCaptures sym (env.depth - sym.depth) s.captures }
    return some sym

/-- Whether a symbol lies outside the lambda that is being checked. -/
def isCaptured (sym : Symbol) : Check Bool := do
  return !sym.isFunction && sym.depth != (← read).depth

/-! ## Variables declared without a value -/

/-- The entry of a symbol. -/
def late? (entries : List Late) (id : SymbolId) : Option Late := entries.find? fun l => l.id == id

/-- Whether a symbol may have been assigned. -/
def isAssigned (entries : List Late) (sym : Symbol) : Bool :=
  sym.initialized || (late? entries sym.id).any Late.assigned

/-- Notes an assignment. -/
def noteAssigned (entries : List Late) (id : SymbolId) : List Late :=
  entries.map fun l => if l.id = id then { l with assigned := true } else l

/-- The constants as they were before a branch; those declared inside it stay. -/
def rewind (before entries : List Late) : List Late :=
  entries.map fun l =>
    match late? before l.id with
    | some old => if l.constant then old else l
    | none => l

/-- The constants after both branches of an `if`: one has a value if a branch that goes on may
have given it one. -/
def merge (thenFlows elseFlows : Bool) (afterThen entries : List Late) : List Late :=
  entries.map fun l =>
    if l.constant then
      { l with
        assigned := (thenFlows && (late? afterThen l.id).any Late.assigned)
          || (elseFlows && l.assigned) }
    else l

/-! ## Types -/

/-- Rejects a value of type `Unit`. -/
def requireValue (e : Expr) (t : Ty) : Check Unit :=
  if t = .unit then reject .noValue e.tok else pure ()

/-- Rejects any type but the wanted one. -/
def requireType (what : String) (want : Ty) (e : Expr) (found : Ty) : Check Unit :=
  if found = want then pure () else reject (.mustBe what want found) e.tok

/-- The element type that the context wants for a collection of a kind. -/
def wantedElement? (kind : CollectionKind) : Option Ty → Option Scalar
  | some (.array s) => if kind = .array then some s else none
  | some (.list s) => if kind = .list then some s else none
  | _ => none

/-- Whether a comparison takes operands of two types. -/
def comparable (op : String) (left right : Ty) : Bool :=
  left == right &&
    (if op = "==" ∨ op = "!=" then left == .int || left == .boolean || left == .string
     else left == .int || left == .string)

end Typing

end Kotlet

import Kotlet.Symbol

/-!
# Scopes

* `Scope` : the symbols of one lexical scope;
* `Scopes` : a scope with the scopes around it;
* `Scopes.find?` : the innermost declaration of a name;
* `Scopes.define`, `Scopes.enter`, `Scopes.leave?` : how scopes change.

A later declaration of a name in the same scope hides an earlier one.
-/

namespace Kotlet

/-- What a scope belongs to. -/
inductive ScopeKind where
  /-- The functions of the program, visible everywhere. -/
  | functions
  /-- The statements of the script. -/
  | script
  /-- The body of a function. -/
  | function
  /-- The body of a lambda. -/
  | lambda
  /-- A block or a loop. -/
  | block
  deriving DecidableEq, Inhabited

/-- Whether the scope is the outermost one of a function or lambda body. -/
def ScopeKind.isBody : ScopeKind → Bool
  | .function => true
  | .lambda => true
  | _ => false

/-- One lexical scope. -/
structure Scope where
  /-- What it belongs to. -/
  kind : ScopeKind
  /-- Its symbols, the latest one first. -/
  declared : List Symbol
  deriving Inhabited

namespace Scope

/-- The symbols of a scope in the order of their declarations. -/
def symbols (s : Scope) : List Symbol := s.declared.reverse

/-- What a name means in this very scope. -/
def find? (s : Scope) (name : String) : Option Symbol :=
  s.declared.find? fun sym => sym.name == name

end Scope

/-- A scope with the scopes around it. -/
structure Scopes where
  /-- The innermost scope. -/
  inner : Scope
  /-- The scopes around it, from the inside out. -/
  outer : List Scope
  deriving Inhabited

namespace Scopes

/-- The scope of the functions, with nothing around it. -/
def root : Scopes := ⟨⟨.functions, []⟩, []⟩

/-- A fresh scope inside. -/
def enter (s : Scopes) (kind : ScopeKind) : Scopes := ⟨⟨kind, []⟩, s.inner :: s.outer⟩

/-- The scopes around the innermost one, if there are any. -/
def leave? (s : Scopes) : Option Scopes :=
  match s.outer with
  | [] => none
  | o :: os => some ⟨o, os⟩

/-- One more symbol in the innermost scope. -/
def define (s : Scopes) (sym : Symbol) : Scopes :=
  { s with inner := { s.inner with declared := sym :: s.inner.declared } }

/-- What a name means here: its innermost declaration. -/
def find? (s : Scopes) (name : String) : Option Symbol :=
  (s.inner :: s.outer).findSome? fun scope => scope.find? name

/-- Whether the name is declared in the innermost scope. -/
def isLocal (s : Scopes) (name : String) : Bool := (s.inner.find? name).isSome

end Scopes

end Kotlet

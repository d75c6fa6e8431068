import Kotlet.Ty

/-!
# Symbols

A symbol is one declared name. Two uses of a name mean the same variable exactly when they resolve
to symbols of the same identity.

* `NodeKind` : the kinds of syntax nodes, which messages and listings name;
* `Site` : a node seen from outside, by kind and place;
* `SymbolId` : the identity of a symbol: the routine it was declared in and a number there;
* `Symbol` : a declared name with its type and where it belongs.

The script is routine 0 and the functions are numbered from 1 in the order of their declarations,
so what is declared in one routine never depends on where the others stand.
-/

namespace Kotlet

/-- The kinds of syntax nodes. -/
inductive NodeKind where
  | program
  | integerLiteral | booleanLiteral | stringLiteral | identifier
  | arithmetic | comparison | logical | negation | incDec | index
  | collectionLiteral | sizedConstructor | lambda | call | range
  | varDeclaration | assign | compoundAssign | selfOp | print
  | ifElse | whileLoop | forLoop | function | callStatement | returnStatement
  | breakStatement | continueStatement | block
  deriving DecidableEq, Inhabited

/-- The name of a node kind. -/
def NodeKind.name : NodeKind → String
  | program => "Program"
  | integerLiteral => "IntegerLiteral"
  | booleanLiteral => "BooleanLiteral"
  | stringLiteral => "StringLiteral"
  | identifier => "Identifier"
  | arithmetic => "ArithmeticExpression"
  | comparison => "ComparisonExpression"
  | logical => "LogicalExpression"
  | negation => "NotExpression"
  | incDec => "IncDecExpression"
  | index => "IndexExpression"
  | collectionLiteral => "CollectionLiteral"
  | sizedConstructor => "SizedConstructor"
  | lambda => "LambdaExpression"
  | call => "CallExpression"
  | range => "RangeExpression"
  | varDeclaration => "VarDeclaration"
  | assign => "AssignStatement"
  | compoundAssign => "CompoundAssignStatement"
  | selfOp => "SelfOpStatement"
  | print => "PrintStatement"
  | ifElse => "IfStatement"
  | whileLoop => "WhileStatement"
  | forLoop => "ForStatement"
  | function => "FunctionStatement"
  | callStatement => "CallStatement"
  | returnStatement => "ReturnStatement"
  | breakStatement => "BreakStatement"
  | continueStatement => "ContinueStatement"
  | block => "BlockStatement"

/-- A node as fault messages name it. -/
def NodeKind.qualified (k : NodeKind) : String := "*ast." ++ k.name

/-- A syntax node seen from outside. -/
inductive Site where
  /-- The whole program. -/
  | program
  /-- A node of a kind at a place. -/
  | node (kind : NodeKind) (line col : Nat)
  deriving DecidableEq, Inhabited

/-- The text of a site. -/
def Site.text : Site → String
  | .program => "Program"
  | .node k line col => k.name ++ "@" ++ toString line ++ ":" ++ toString col

/-- The identity of a symbol. A function has the number 0 in its own routine. -/
structure SymbolId where
  /-- The routine it is declared in: 0 is the script, then come the functions. -/
  routine : Nat
  /-- Its number in that routine. -/
  index : Nat
  deriving DecidableEq, Hashable, Inhabited

/-- What a symbol names. -/
inductive Symbol.Kind where
  | variable | parameter | function
  deriving DecidableEq, Inhabited

/-- The name of a kind of symbols. -/
def Symbol.Kind.name : Symbol.Kind → String
  | .variable => "variable"
  | .parameter => "parameter"
  | .function => "function"

/-- One declared name. -/
structure Symbol where
  /-- Its identity. -/
  id : SymbolId
  /-- The name. -/
  name : String
  /-- The type of what it names. -/
  ty : Ty
  /-- What it names. -/
  kind : Symbol.Kind
  /-- Whether it keeps its first value. -/
  constant : Bool
  /-- Whether it has a value from its declaration on. -/
  initialized : Bool
  /-- How many lambdas enclose it inside its routine. -/
  depth : Nat
  /-- The routine or lambda whose local it is. -/
  owner : Option Site
  /-- Where it is declared. -/
  site : Option Site
  deriving DecidableEq, Inhabited

namespace Symbol

/-- Whether the symbol is a function. -/
def isFunction (s : Symbol) : Bool := s.kind == .function

end Symbol

end Kotlet

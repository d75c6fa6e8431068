import Kotlet.Symbol
import Kotlet.Token

/-!
# Syntax trees

A program is a list of statements. Expressions never hold statements: the body of a lambda is an
expression. Every node carries the token that diagnostics about it point at, and room for what the
typechecker learns: the type of an expression, the symbol of a name, the captures of a lambda.

* `Mark`, `Ident` : the token of a node with its type, and an occurrence of a name;
* `Expr` with `Splice`, `Target`, `IncDec`, `Lambda`, `Call`, `Range` : expressions;
* `Stmt` with `Block`, `FunDecl` : statements;
* `Program` : a whole script;
* `Expr.tok`, `Stmt.tok` and their kin : the token of a node;
* `Expr.kind`, `Expr.recorded?` : the kind of an expression and the type recorded for it.

Operators are kept as they are written.
-/

namespace Kotlet

/-- The token of an expression, and the type found for it. -/
structure Mark where
  /-- The token that diagnostics point at. -/
  tok : Token
  /-- The type, once the program is checked. -/
  ty : Option Ty
  deriving DecidableEq, Inhabited

/-- A mark without a type. -/
def Mark.ofToken (tok : Token) : Mark := ⟨tok, none⟩

/-- An occurrence of a name. -/
structure Ident where
  /-- Its token. -/
  tok : Token
  /-- The name. -/
  name : String
  /-- The symbol it denotes, once the program is checked. -/
  sym : Option Symbol
  /-- The type of what it denotes, where it is used as a value. -/
  ty : Option Ty
  deriving DecidableEq, Inhabited

/-- An occurrence that is not resolved yet. -/
def Ident.ofToken (tok : Token) (name : String) : Ident := ⟨tok, name, none, none⟩

/-- A parameter of a function or lambda; a lambda may leave the type out. -/
structure Param where
  /-- The name. -/
  name : Ident
  /-- The type, if one is written. -/
  ty : Option Ty
  deriving DecidableEq, Inhabited

/-- The two kinds of collections. -/
inductive CollectionKind where
  | array | list
  deriving DecidableEq, Inhabited

/-- The constructor name of a collection. -/
def CollectionKind.name : CollectionKind → String
  | .array => "Array"
  | .list => "MutableList"

/-- The type of a collection. -/
def CollectionKind.ty (k : CollectionKind) (element : Scalar) : Ty :=
  match k with
  | .array => .array element
  | .list => .list element

/-! ## Expressions -/

mutual

/-- An expression. -/
inductive Expr where
  /-- An integer literal. -/
  | int (m : Mark) (value : Int32)
  /-- `true` or `false`. -/
  | bool (m : Mark) (value : Bool)
  /-- A string literal: its text without the templates, and the templates in order. -/
  | str (m : Mark) (text : String) (splices : List Splice)
  /-- The value of a variable or element. -/
  | read (t : Target)
  /-- `+`, `-`, `*`, `/` or `%`. -/
  | arith (m : Mark) (op : String) (left right : Expr)
  /-- A comparison. -/
  | compare (m : Mark) (op : String) (left right : Expr)
  /-- `&&` or `||`. -/
  | logic (m : Mark) (op : String) (left right : Expr)
  /-- `!`. -/
  | not (m : Mark) (operand : Expr)
  /-- `++` or `--`, used as a value. -/
  | incDec (e : IncDec)
  /-- A collection with its elements written out. -/
  | collection (m : Mark) (kind : CollectionKind) (elements : List Expr)
  /-- A collection of a size whose elements a lambda computes. -/
  | sized (m : Mark) (kind : CollectionKind) (size : Expr) (generator : Lambda)
  /-- A function value. -/
  | lambda (l : Lambda)
  /-- A call. -/
  | call (c : Call)
  /-- A range, which only a loop header may hold. -/
  | range (r : Range)

/-- A template of a string literal, with its place in the text counted in characters. -/
inductive Splice where
  | mk (offset : Int) (expr : Expr)

/-- What can be read and written: a variable, or an element of a named collection. -/
inductive Target where
  /-- A variable. -/
  | name (id : Ident)
  /-- An element. -/
  | element (m : Mark) (base : Ident) (index : Expr)

/-- `++` or `--` before or after a target. -/
inductive IncDec where
  | mk (m : Mark) (op : String) (before : Bool) (target : Target)

/-- A lambda with the variables it captures, once the program is checked. -/
inductive Lambda where
  | mk (m : Mark) (params : List Param) (body : Expr) (captures : List Symbol)

/-- A call of a named function or function value. -/
inductive Call where
  | mk (m : Mark) (callee : Ident) (args : List Expr)

/-- An inclusive range with an optional step. -/
inductive Range where
  | mk (m : Mark) (first last : Expr) (step : Option Expr)

end

instance : Inhabited Expr := ⟨.bool default false⟩
instance : Inhabited Target := ⟨.name default⟩
instance : Inhabited Lambda := ⟨.mk default [] default []⟩
instance : Inhabited Call := ⟨.mk default default []⟩
instance : Inhabited IncDec := ⟨.mk default "" false default⟩
instance : Inhabited Range := ⟨.mk default default default none⟩

/-! ## Statements -/

/-- What a loop runs over. -/
inductive Header where
  /-- A range. -/
  | range (r : Range)
  /-- The elements of a collection. -/
  | each (e : Expr)

mutual

/-- A statement. -/
inductive Stmt where
  /-- A declaration of a variable. -/
  | decl (tok : Token) (isMutable : Bool) (name : Ident) (ty : Option Ty) (value : Option Expr)
  /-- `=`. -/
  | assign (tok : Token) (target : Target) (value : Expr)
  /-- `+=`, `-=`, `*=` or `/=`. -/
  | compound (tok : Token) (target : Target) (op : String) (value : Expr)
  /-- `++` or `--`, for its effect. -/
  | selfOp (tok : Token) (e : IncDec)
  /-- `print` or `println`. -/
  | print (tok : Token) (newline : Bool) (value : Option Expr)
  /-- `if`, with or without `else`. -/
  | ifElse (tok : Token) (cond : Expr) (thenB : Block) (elseB : Option Block)
  /-- `while`. -/
  | whileLoop (tok : Token) (cond : Expr) (body : Block)
  /-- `for`. -/
  | forLoop (tok : Token) (loopVar : Ident) (header : Header) (body : Block)
  /-- A function declaration. -/
  | function (f : FunDecl)
  /-- A call, for its effect. -/
  | call (tok : Token) (c : Call)
  /-- `return`. -/
  | ret (tok : Token) (value : Option Expr)
  /-- `break`. -/
  | brk (tok : Token)
  /-- `continue`. -/
  | cont (tok : Token)
  /-- Statements in braces. -/
  | block (b : Block)

/-- Statements between an opening and a closing token. -/
inductive Block where
  | mk (tok : Token) (stmts : List Stmt) (close : Token)

/-- A function declaration. -/
inductive FunDecl where
  | mk (tok : Token) (name : Ident) (params : List Param) (result : Ty) (body : Block)

end

instance : Inhabited Block := ⟨.mk default [] default⟩
instance : Inhabited FunDecl := ⟨.mk default default [] default default⟩
instance : Inhabited Stmt := ⟨.brk default⟩

/-- A whole script. -/
structure Program where
  /-- The file it was read from; empty when there is none. -/
  file : String
  /-- Its statements. -/
  stmts : List Stmt
  deriving Inhabited

/-! ## Parts -/

/-- The token of a lambda. -/
def Lambda.mark : Lambda → Mark | mk m _ _ _ => m
/-- The parameters of a lambda. -/
def Lambda.params : Lambda → List Param | mk _ ps _ _ => ps
/-- The body of a lambda. -/
def Lambda.body : Lambda → Expr | mk _ _ e _ => e
/-- The captures of a lambda. -/
def Lambda.captures : Lambda → List Symbol | mk _ _ _ cs => cs
/-- The mark of a call. -/
def Call.mark : Call → Mark | mk m _ _ => m
/-- The name that is called. -/
def Call.callee : Call → Ident | mk _ f _ => f
/-- The arguments of a call. -/
def Call.args : Call → List Expr | mk _ _ as => as
/-- The mark of an increment or decrement. -/
def IncDec.mark : IncDec → Mark | mk m _ _ _ => m
/-- The target of an increment or decrement. -/
def IncDec.target : IncDec → Target | mk _ _ _ t => t
/-- The mark of a range. -/
def Range.mark : Range → Mark | mk m _ _ _ => m
/-- The opening token of a block. -/
def Block.tok : Block → Token | mk t _ _ => t
/-- The statements of a block. -/
def Block.stmts : Block → List Stmt | mk _ ss _ => ss
/-- The closing token of a block. -/
def Block.close : Block → Token | mk _ _ c => c
/-- The token of a function declaration. -/
def FunDecl.tok : FunDecl → Token | mk t _ _ _ _ => t
/-- The name of a function. -/
def FunDecl.name : FunDecl → Ident | mk _ n _ _ _ => n
/-- The parameters of a function. -/
def FunDecl.params : FunDecl → List Param | mk _ _ ps _ _ => ps
/-- The result type of a function. -/
def FunDecl.result : FunDecl → Ty | mk _ _ _ r _ => r
/-- The body of a function. -/
def FunDecl.body : FunDecl → Block | mk _ _ _ _ b => b

/-- The types of the parameters of a function. -/
def FunDecl.paramTypes (f : FunDecl) : List Ty := f.params.map fun p => p.ty.getD .unit

/-- The type of a function. -/
def FunDecl.signature (f : FunDecl) : Ty := .fn f.paramTypes (some f.result)

/-- The token of a target. -/
def Target.tok : Target → Token
  | name id => id.tok
  | element m _ _ => m.tok

/-- The token of an expression. -/
def Expr.tok : Expr → Token
  | int m _ | bool m _ | str m _ _ | arith m _ _ _ | compare m _ _ _ | logic m _ _ _
  | not m _ | collection m _ _ | sized m _ _ _ => m.tok
  | read t => t.tok
  | incDec e => e.mark.tok
  | lambda l => l.mark.tok
  | call c => c.mark.tok
  | range r => r.mark.tok

/-- The type recorded for an expression. -/
def Expr.recorded? : Expr → Option Ty
  | int m _ | bool m _ | str m _ _ | arith m _ _ _ | compare m _ _ _ | logic m _ _ _
  | not m _ | collection m _ _ | sized m _ _ _ => m.ty
  | read (.name id) => id.ty
  | read (.element m _ _) => m.ty
  | incDec e => e.mark.ty
  | lambda l => l.mark.ty
  | call c => c.mark.ty
  | range r => r.mark.ty

/-- The kind of an expression. -/
def Expr.kind : Expr → NodeKind
  | int _ _ => .integerLiteral
  | bool _ _ => .booleanLiteral
  | str _ _ _ => .stringLiteral
  | read (.name _) => .identifier
  | read (.element _ _ _) => .index
  | arith _ _ _ _ => .arithmetic
  | compare _ _ _ _ => .comparison
  | logic _ _ _ _ => .logical
  | not _ _ => .negation
  | incDec _ => .incDec
  | collection _ _ _ => .collectionLiteral
  | sized _ _ _ _ => .sizedConstructor
  | lambda _ => .lambda
  | call _ => .call
  | range _ => .range

/-- The token of a statement. -/
def Stmt.tok : Stmt → Token
  | decl t _ _ _ _ | assign t _ _ | compound t _ _ _ | selfOp t _ | print t _ _ | ifElse t _ _ _
  | whileLoop t _ _ | forLoop t _ _ _ | call t _ | ret t _ | brk t | cont t => t
  | function f => f.tok
  | block b => b.tok

/-- Stands for the token of an empty program. -/
def Token.absent : Token := ⟨.illegal, "", .none, 0, 0⟩

/-- The token of a program: that of its first statement. -/
def Program.tok (p : Program) : Token :=
  match p.stmts with
  | [] => .absent
  | s :: _ => s.tok

/-- A node of a kind with its token, seen from outside. -/
def Site.ofToken (kind : NodeKind) (t : Token) : Site := .node kind t.line t.col

/-- The functions that a list of statements declares. -/
def functionsOf (stmts : List Stmt) : List FunDecl :=
  stmts.filterMap fun
    | .function f => some f
    | _ => none

/-- The statements of a list that declare no function. -/
def scriptOf (stmts : List Stmt) : List Stmt :=
  stmts.filter fun
    | .function _ => false
    | _ => true

/-- The functions that a program declares, in order. -/
def Program.functions (p : Program) : List FunDecl := functionsOf p.stmts

/-- The statements of a program that make up its script. -/
def Program.script (p : Program) : List Stmt := scriptOf p.stmts

end Kotlet

import Kotlet.Syntax

/-!
# Edits of syntax trees

An edit changes marks and names everywhere, and then every node from the leaves up.

* `Edit` : what becomes of marks, names, captures and nodes;
* `Program.edit` : a program with every part edited;
* `Program.erase` : a program without anything that checking adds.
-/

namespace Kotlet

/-- What becomes of the parts of a tree. Nodes are given with their parts already edited. -/
structure Edit where
  /-- Marks of expressions. -/
  mark : Mark → Mark
  /-- Names. -/
  ident : Ident → Ident
  /-- Captures of lambdas. -/
  captures : List Symbol → List Symbol
  /-- Expressions. -/
  expr : Expr → Expr
  /-- Statements. -/
  stmt : Stmt → Stmt
  /-- Blocks. -/
  block : Block → Block

namespace Edit

/-- Changes nothing. -/
def skip : Edit := ⟨id, id, id, id, id, id⟩

/-- A target as a node; anything that is no target leaves it alone. -/
def target (r : Edit) (t : Target) : Target :=
  match r.expr (.read t) with
  | .read t => t
  | _ => t

/-- An increment or decrement as a node. -/
def incDec (r : Edit) (e : IncDec) : IncDec :=
  match r.expr (.incDec e) with
  | .incDec e => e
  | _ => e

/-- A lambda as a node. -/
def lambda (r : Edit) (l : Lambda) : Lambda :=
  match r.expr (.lambda l) with
  | .lambda l => l
  | _ => l

/-- A call as a node. -/
def call (r : Edit) (c : Call) : Call :=
  match r.expr (.call c) with
  | .call c => c
  | _ => c

/-- A range as a node. -/
def range (r : Edit) (x : Range) : Range :=
  match r.expr (.range x) with
  | .range x => x
  | _ => x

/-- The parameters of a function or lambda. -/
def params (r : Edit) (ps : List Param) : List Param :=
  ps.map fun p => { p with name := r.ident p.name }

end Edit

mutual

/-- An expression with every part edited. -/
def Expr.edit (r : Edit) : Expr → Expr
  | .int m n => r.expr (.int (r.mark m) n)
  | .bool m b => r.expr (.bool (r.mark m) b)
  | .str m text ss => r.expr (.str (r.mark m) text (Splice.editList r ss))
  | .read t => r.expr (.read (t.editParts r))
  | .arith m op a b => r.expr (.arith (r.mark m) op (a.edit r) (b.edit r))
  | .compare m op a b => r.expr (.compare (r.mark m) op (a.edit r) (b.edit r))
  | .logic m op a b => r.expr (.logic (r.mark m) op (a.edit r) (b.edit r))
  | .not m e => r.expr (.not (r.mark m) (e.edit r))
  | .incDec e => r.expr (.incDec (e.editParts r))
  | .collection m k es => r.expr (.collection (r.mark m) k (Expr.editList r es))
  | .sized m k size gen =>
    r.expr (.sized (r.mark m) k (size.edit r) (r.lambda (gen.editParts r)))
  | .lambda l => r.expr (.lambda (l.editParts r))
  | .call c => r.expr (.call (c.editParts r))
  | .range x => r.expr (.range (x.editParts r))

/-- Several expressions. -/
def Expr.editList (r : Edit) : List Expr → List Expr
  | [] => []
  | e :: es => e.edit r :: Expr.editList r es

/-- The templates of a string. -/
def Splice.editList (r : Edit) : List Splice → List Splice
  | [] => []
  | .mk offset e :: ss => .mk offset (e.edit r) :: Splice.editList r ss

/-- The parts of a target. -/
def Target.editParts (r : Edit) : Target → Target
  | .name id => .name (r.ident id)
  | .element m base i => .element (r.mark m) (r.ident base) (i.edit r)

/-- The parts of an increment or decrement. -/
def IncDec.editParts (r : Edit) : IncDec → IncDec
  | .mk m op before t => .mk (r.mark m) op before (r.target (t.editParts r))

/-- The parts of a lambda. -/
def Lambda.editParts (r : Edit) : Lambda → Lambda
  | .mk m ps body cs => .mk (r.mark m) (r.params ps) (body.edit r) (r.captures cs)

/-- The parts of a call. -/
def Call.editParts (r : Edit) : Call → Call
  | .mk m f args => .mk (r.mark m) (r.ident f) (Expr.editList r args)

/-- The parts of a range. -/
def Range.editParts (r : Edit) : Range → Range
  | .mk m a b none => .mk (r.mark m) (a.edit r) (b.edit r) none
  | .mk m a b (some s) => .mk (r.mark m) (a.edit r) (b.edit r) (some (s.edit r))

end

/-- A loop header. -/
def Header.edit (r : Edit) : Header → Header
  | .range x => .range (r.range (x.editParts r))
  | .each e => .each (e.edit r)

mutual

/-- A statement with every part edited. -/
def Stmt.edit (r : Edit) : Stmt → Stmt
  | .decl t isMutable name ty v => r.stmt (.decl t isMutable (r.ident name) ty (v.map (·.edit r)))
  | .assign t x v => r.stmt (.assign t (r.target (x.editParts r)) (v.edit r))
  | .compound t x op v => r.stmt (.compound t (r.target (x.editParts r)) op (v.edit r))
  | .selfOp t e => r.stmt (.selfOp t (r.incDec (e.editParts r)))
  | .print t newline v => r.stmt (.print t newline (v.map (·.edit r)))
  | .ifElse t c a none => r.stmt (.ifElse t (c.edit r) (a.edit r) none)
  | .ifElse t c a (some b) => r.stmt (.ifElse t (c.edit r) (a.edit r) (some (b.edit r)))
  | .whileLoop t c b => r.stmt (.whileLoop t (c.edit r) (b.edit r))
  | .forLoop t x h b => r.stmt (.forLoop t (r.ident x) (h.edit r) (b.edit r))
  | .function f => r.stmt (.function (f.editParts r))
  | .call t c => r.stmt (.call t (r.call (c.editParts r)))
  | .ret t v => r.stmt (.ret t (v.map (·.edit r)))
  | .brk t => r.stmt (.brk t)
  | .cont t => r.stmt (.cont t)
  | .block b => r.stmt (.block (b.edit r))

/-- Several statements. -/
def Stmt.editList (r : Edit) : List Stmt → List Stmt
  | [] => []
  | s :: ss => s.edit r :: Stmt.editList r ss

/-- A block with every part edited. -/
def Block.edit (r : Edit) : Block → Block
  | .mk t ss close => r.block (.mk t (Stmt.editList r ss) close)

/-- The parts of a function declaration. -/
def FunDecl.editParts (r : Edit) : FunDecl → FunDecl
  | .mk t name ps result body => .mk t (r.ident name) (r.params ps) result (body.edit r)

end

/-- A program with every part edited. -/
def Program.edit (r : Edit) (p : Program) : Program :=
  { p with stmts := Stmt.editList r p.stmts }

namespace Edit

/-- Takes the types away. -/
def withoutTypes : Edit :=
  { skip with mark := fun m => { m with ty := none }, ident := fun i => { i with ty := none } }

/-- Takes the symbols away. -/
def withoutSymbols : Edit := { skip with ident := fun i => { i with sym := none } }

/-- Takes the captures away. -/
def withoutCaptures : Edit := { skip with captures := fun _ => [] }

end Edit

/-- The program without anything that checking adds. -/
def Program.erase (p : Program) : Program :=
  ((p.edit .withoutTypes).edit .withoutSymbols).edit .withoutCaptures

end Kotlet

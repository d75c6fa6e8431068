import Kotlet.Syntax

/-!
# Node listings

* `NodeView` : one node as a listing shows it;
* `Program.nodes`, `Expr.nodes` : all nodes of a tree, parents before children.

Each listing takes the depth of its root and the nodes that come after it.
-/

namespace Kotlet

/-- One node of a tree. -/
structure NodeView where
  /-- How many nodes it lies below the root. -/
  depth : Nat
  /-- What it is. -/
  kind : NodeKind
  /-- Its token. -/
  tok : Token
  /-- The closing token of a block. -/
  close : Option Token
  /-- The type recorded for it. -/
  ty : Option Ty
  /-- The symbol it denotes. -/
  sym : Option Symbol
  /-- The captures of a lambda. -/
  captures : Option (List Symbol)

namespace NodeView

/-- A node with nothing to say but its kind and token. -/
def simple (depth : Nat) (kind : NodeKind) (tok : Token) : NodeView :=
  ⟨depth, kind, tok, none, none, none, none⟩

/-- An expression with its type. -/
def typed (depth : Nat) (kind : NodeKind) (m : Mark) : NodeView :=
  { simple depth kind m.tok with ty := m.ty }

/-- A name. -/
def ident (depth : Nat) (id : Ident) : NodeView :=
  { simple depth .identifier id.tok with ty := id.ty, sym := id.sym }

end NodeView

open NodeView

mutual

/-- The nodes of an expression, in front of `rest`. -/
@[grind =] def Expr.nodesOnto (d : Nat) (e : Expr) (rest : List NodeView) : List NodeView :=
  match e with
  | .int m _ => typed d .integerLiteral m :: rest
  | .bool m _ => typed d .booleanLiteral m :: rest
  | .str m _ splices => typed d .stringLiteral m :: Splice.nodesOnto (d + 1) splices rest
  | .read t => t.nodesOnto d rest
  | .arith m _ l r => typed d .arithmetic m :: l.nodesOnto (d + 1) (r.nodesOnto (d + 1) rest)
  | .compare m _ l r => typed d .comparison m :: l.nodesOnto (d + 1) (r.nodesOnto (d + 1) rest)
  | .logic m _ l r => typed d .logical m :: l.nodesOnto (d + 1) (r.nodesOnto (d + 1) rest)
  | .not m x => typed d .negation m :: x.nodesOnto (d + 1) rest
  | .incDec x => x.nodesOnto d rest
  | .collection m _ es => typed d .collectionLiteral m :: Expr.listNodesOnto (d + 1) es rest
  | .sized m _ size gen =>
    typed d .sizedConstructor m :: size.nodesOnto (d + 1) (gen.nodesOnto (d + 1) rest)
  | .lambda l => l.nodesOnto d rest
  | .call c => c.nodesOnto d rest
  | .range r => r.nodesOnto d rest

/-- The nodes of several expressions. -/
def Expr.listNodesOnto (d : Nat) (es : List Expr) (rest : List NodeView) : List NodeView :=
  match es with
  | [] => rest
  | e :: es => e.nodesOnto d (Expr.listNodesOnto d es rest)

/-- The nodes of the templates of a string. -/
def Splice.nodesOnto (d : Nat) (ss : List Splice) (rest : List NodeView) : List NodeView :=
  match ss with
  | [] => rest
  | .mk _ e :: ss => e.nodesOnto d (Splice.nodesOnto d ss rest)

/-- The nodes of a target. -/
def Target.nodesOnto (d : Nat) (t : Target) (rest : List NodeView) : List NodeView :=
  match t with
  | .name id => ident d id :: rest
  | .element m base i => typed d .index m :: ident (d + 1) base :: i.nodesOnto (d + 1) rest

/-- The nodes of an increment or decrement. -/
def IncDec.nodesOnto (d : Nat) (e : IncDec) (rest : List NodeView) : List NodeView :=
  match e with
  | .mk m _ _ t => typed d .incDec m :: t.nodesOnto (d + 1) rest

/-- The nodes of a lambda. -/
def Lambda.nodesOnto (d : Nat) (l : Lambda) (rest : List NodeView) : List NodeView :=
  match l with
  | .mk m ps body captures =>
    { typed d .lambda m with captures := some captures } ::
      (ps.map (fun p => ident (d + 1) p.name) ++ body.nodesOnto (d + 1) rest)

/-- The nodes of a call. -/
def Call.nodesOnto (d : Nat) (c : Call) (rest : List NodeView) : List NodeView :=
  match c with
  | .mk m f args => typed d .call m :: ident (d + 1) f :: Expr.listNodesOnto (d + 1) args rest

/-- The nodes of a range. -/
def Range.nodesOnto (d : Nat) (r : Range) (rest : List NodeView) : List NodeView :=
  match r with
  | .mk m a b step =>
    typed d .range m :: a.nodesOnto (d + 1) (b.nodesOnto (d + 1) (Expr.optNodesOnto (d + 1) step rest))

/-- The nodes of an expression that may be absent. -/
def Expr.optNodesOnto (d : Nat) (e : Option Expr) (rest : List NodeView) : List NodeView :=
  match e with
  | none => rest
  | some e => e.nodesOnto d rest

end

/-- The nodes of a loop header. -/
def Header.nodesOnto (d : Nat) (h : Header) (rest : List NodeView) : List NodeView :=
  match h with
  | .range r => r.nodesOnto d rest
  | .each e => e.nodesOnto d rest

mutual

/-- The nodes of a statement, in front of `rest`. -/
def Stmt.nodesOnto (d : Nat) (s : Stmt) (rest : List NodeView) : List NodeView :=
  match s with
  | .decl t _ name _ v =>
    simple d .varDeclaration t :: ident (d + 1) name :: Expr.optNodesOnto (d + 1) v rest
  | .assign t target v =>
    simple d .assign t :: target.nodesOnto (d + 1) (v.nodesOnto (d + 1) rest)
  | .compound t target _ v =>
    simple d .compoundAssign t :: target.nodesOnto (d + 1) (v.nodesOnto (d + 1) rest)
  | .selfOp t e => simple d .selfOp t :: e.nodesOnto (d + 1) rest
  | .print t _ v => simple d .print t :: Expr.optNodesOnto (d + 1) v rest
  | .ifElse t c a b =>
    simple d .ifElse t ::
      c.nodesOnto (d + 1) (a.nodesOnto (d + 1) (Block.optNodesOnto (d + 1) b rest))
  | .whileLoop t c b => simple d .whileLoop t :: c.nodesOnto (d + 1) (b.nodesOnto (d + 1) rest)
  | .forLoop t x h b =>
    simple d .forLoop t :: ident (d + 1) x :: h.nodesOnto (d + 1) (b.nodesOnto (d + 1) rest)
  | .function f => f.nodesOnto d rest
  | .call t c => simple d .callStatement t :: c.nodesOnto (d + 1) rest
  | .ret t v => simple d .returnStatement t :: Expr.optNodesOnto (d + 1) v rest
  | .brk t => simple d .breakStatement t :: rest
  | .cont t => simple d .continueStatement t :: rest
  | .block b => b.nodesOnto d rest

/-- The nodes of several statements. -/
def Stmt.listNodesOnto (d : Nat) (ss : List Stmt) (rest : List NodeView) : List NodeView :=
  match ss with
  | [] => rest
  | s :: ss => s.nodesOnto d (Stmt.listNodesOnto d ss rest)

/-- The nodes of a block. -/
def Block.nodesOnto (d : Nat) (b : Block) (rest : List NodeView) : List NodeView :=
  match b with
  | .mk t ss close =>
    { simple d .block t with close := some close } :: Stmt.listNodesOnto (d + 1) ss rest

/-- The nodes of a block that may be absent. -/
def Block.optNodesOnto (d : Nat) (b : Option Block) (rest : List NodeView) : List NodeView :=
  match b with
  | none => rest
  | some b => b.nodesOnto d rest

/-- The nodes of a function declaration. -/
def FunDecl.nodesOnto (d : Nat) (f : FunDecl) (rest : List NodeView) : List NodeView :=
  match f with
  | .mk t name ps _ body =>
    simple d .function t :: ident (d + 1) name ::
      (ps.map (fun p => ident (d + 1) p.name) ++ body.nodesOnto (d + 1) rest)

end

/-- The nodes of an expression. -/
def Expr.nodes (e : Expr) : List NodeView := e.nodesOnto 0 []

/-- The nodes of a program. -/
def Program.nodes (p : Program) : List NodeView :=
  simple 0 .program p.tok :: Stmt.listNodesOnto 1 p.stmts []

end Kotlet

import Kotlet.Syntax
import Kotlet.Text.Quoted

/-!
# Outlines of syntax trees

An outline writes a tree with one pair of parentheses per node. Places are left out, so two trees
have the same outline exactly when they have the same structure.

* `Expr.outline`, `Stmt.outline` : the outline of an expression and of a statement;
* `Program.outline` : one line for every statement.
-/

namespace Kotlet

/-- A node with its parts: `(head part part ...)`. -/
def outlineNode (head : String) (parts : List String) : String :=
  "(" ++ " ".intercalate (head :: parts) ++ ")"

/-- A parameter with its type, if it has one. -/
def Param.outline (p : Param) : String :=
  match p.ty with
  | none => p.name.name
  | some t => p.name.name ++ ":" ++ t.text

/-- A list of parameters. -/
def outlineParams (ps : List Param) : String :=
  "(" ++ " ".intercalate (ps.map Param.outline) ++ ")"

/-- A truth value as it is written. -/
def boolText (b : Bool) : String := if b then "true" else "false"

/-- The function that makes a collection of written-out elements. -/
def CollectionKind.literalName : CollectionKind → String
  | .array => "arrayOf"
  | .list => "mutableListOf"

mutual

/-- The outline of an expression. -/
def Expr.outline : Expr → String
  | .int _ n => toString n.toInt
  | .bool _ b => boolText b
  | .str _ text splices => outlineNode "str" (quote text :: Splice.outlines splices)
  | .read t => t.outline
  | .arith _ op l r => outlineNode op [l.outline, r.outline]
  | .compare _ op l r => outlineNode op [l.outline, r.outline]
  | .logic _ op l r => outlineNode op [l.outline, r.outline]
  | .not _ e => outlineNode "!" [e.outline]
  | .incDec e => e.outline
  | .collection _ k es => outlineNode k.literalName (Expr.outlines es)
  | .sized _ k size gen => outlineNode k.name [size.outline, gen.outline]
  | .lambda l => l.outline
  | .call c => c.outline
  | .range r => r.outline

/-- The outlines of several expressions. -/
def Expr.outlines : List Expr → List String
  | [] => []
  | e :: es => e.outline :: Expr.outlines es

/-- The outlines of the templates of a string, each after its place. -/
def Splice.outlines : List Splice → List String
  | [] => []
  | .mk offset e :: ss => ("@" ++ toString offset) :: e.outline :: Splice.outlines ss

/-- The outline of a target. -/
def Target.outline : Target → String
  | .name id => id.name
  | .element _ base i => outlineNode "index" [base.name, i.outline]

/-- The outline of an increment or decrement. -/
def IncDec.outline : IncDec → String
  | .mk _ op true t => outlineNode (op ++ "pre") [t.outline]
  | .mk _ op false t => outlineNode ("post" ++ op) [t.outline]

/-- The outline of a lambda. -/
def Lambda.outline : Lambda → String
  | .mk _ ps body _ => outlineNode "lambda" [outlineParams ps, body.outline]

/-- The outline of a call. -/
def Call.outline : Call → String
  | .mk _ f args => outlineNode "call" (f.name :: Expr.outlines args)

/-- The outline of a range. -/
def Range.outline : Range → String
  | .mk _ a b none => outlineNode "range" [a.outline, b.outline]
  | .mk _ a b (some s) => outlineNode "range" [a.outline, b.outline, s.outline]

end

/-- The outlines of an expression that may be absent. -/
def Expr.optOutline : Option Expr → List String
  | none => []
  | some e => [e.outline]

/-- The outline of a loop header. -/
def Header.outline : Header → String
  | .range r => r.outline
  | .each e => e.outline

mutual

/-- The outline of a statement. -/
@[grind =] def Stmt.outline : Stmt → String
  | .decl _ isMutable name ty value =>
    outlineNode (if isMutable then "var" else "val")
      [name.name, (ty.map Ty.text).getD "_", (value.map Expr.outline).getD "_"]
  | .assign _ t v => outlineNode "=" [t.outline, v.outline]
  | .compound _ t op v => outlineNode op [t.outline, v.outline]
  | .selfOp _ e => e.outline
  | .print _ newline value =>
    outlineNode (if newline then "println" else "print") (Expr.optOutline value)
  | .ifElse _ c a none => outlineNode "if" [c.outline, a.outline]
  | .ifElse _ c a (some b) => outlineNode "if" [c.outline, a.outline, b.outline]
  | .whileLoop _ c b => outlineNode "while" [c.outline, b.outline]
  | .forLoop _ x h b => outlineNode "for" [x.name, h.outline, b.outline]
  | .function f => f.outline
  | .call _ c => c.outline
  | .ret _ value => outlineNode "return" (Expr.optOutline value)
  | .brk _ => outlineNode "break" []
  | .cont _ => outlineNode "continue" []
  | .block b => b.outline

/-- The outlines of several statements. -/
def Stmt.outlines : List Stmt → List String
  | [] => []
  | s :: ss => s.outline :: Stmt.outlines ss

/-- The outline of a block. -/
def Block.outline : Block → String
  | .mk _ ss _ => outlineNode "block" (Stmt.outlines ss)

/-- The outline of a function declaration. -/
def FunDecl.outline : FunDecl → String
  | .mk _ name ps result body =>
    outlineNode "fun" [name.name, outlineParams ps, result.text, body.outline]

end

/-- The outline of a program: one line for every statement. -/
def Program.outline (p : Program) : String := "\n".intercalate (Stmt.outlines p.stmts)

end Kotlet

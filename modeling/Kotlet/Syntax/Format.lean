import Kotlet.Syntax.Outline

/-!
# Formatted source

A tree is written back as source text that reads as the same tree: one statement to a line, four
blanks to a level, parentheses only where the tiers of the operators ask for them.

* `precedence` : how tightly an operator binds;
* `needsParens` : whether an operand has to be put into parentheses;
* `Expr.format`, `Stmt.format` : the text of an expression and of a statement;
* `Program.format` : the text of a program.
-/

namespace Kotlet

/-- How tightly a binary operator binds; what is no operator binds tightest. -/
def precedence (op : String) : Nat :=
  if op = "||" ∨ op = "&&" then 1
  else if op = "==" ∨ op = "!=" ∨ op = "<" ∨ op = ">" ∨ op = "<=" ∨ op = ">=" then 2
  else if op = "+" ∨ op = "-" then 3
  else if op = "*" ∨ op = "/" ∨ op = "%" then 4
  else 10

/-- How tightly `!` binds. -/
def unaryPrecedence : Nat := 5

/-- The operator of a binary expression. -/
def Expr.binaryOperator? : Expr → Option String
  | .arith _ op _ _ => some op
  | .compare _ op _ _ => some op
  | .logic _ op _ _ => some op
  | _ => none

/-- Whether an operand needs parentheses below an operator of the given precedence: its own
operator binds less tightly, or as tightly where operators neither chain nor group to the
right. -/
def needsParens (parent : Nat) (isRight : Bool) (operand : Expr) : Bool :=
  match operand.binaryOperator? with
  | none => false
  | some op =>
    let own := precedence op
    own < parent || (own == parent && (isRight || own == precedence "=="))

/-- The text `s`, in parentheses if `b`. -/
def parenthesized (b : Bool) (s : String) : String := if b then "(" ++ s ++ ")" else s

/-- A character of a string literal as it is written between the quotes. -/
def escapeLiteral (c : Char) : String :=
  match c with
  | '"' => "\\\""
  | '\\' => "\\\\"
  | '\n' => "\\n"
  | '\t' => "\\t"
  | '$' => "\\$"
  | c => String.singleton c

/-- The templates that stand at the place `i`, written out, and those after them. -/
def spliceAt (i : Int) : List (Int × String) → String × List (Int × String)
  | [] => ("", [])
  | (offset, e) :: rest =>
    if offset = i then
      let (s, left) := spliceAt i rest
      ("$\x7b" ++ e ++ "\x7d" ++ s, left)
    else ("", (offset, e) :: rest)

/-- The inside of a string literal, from the place `i` on, after `acc`. -/
def weave (acc : String) (i : Int) (splices : List (Int × String)) : List Char → String
  | [] => acc ++ (spliceAt i splices).1
  | c :: cs =>
    let (s, left) := spliceAt i splices
    weave (acc ++ s ++ escapeLiteral c) (i + 1) left cs

/-- A parameter as it is written. -/
def Param.format (p : Param) : String :=
  match p.ty with
  | none => p.name.name
  | some t => p.name.name ++ ": " ++ t.text

/-- Parameters between commas. -/
def formatParams (ps : List Param) : String := ", ".intercalate (ps.map Param.format)

mutual

/-- The text of an expression. -/
def Expr.format : Expr → String
  | .int _ n => toString n.toInt
  | .bool _ b => boolText b
  | .str _ text splices => "\"" ++ weave "" 0 (Splice.formats splices) text.toList ++ "\""
  | .read t => t.format
  | .arith _ op l r =>
    parenthesized (needsParens (precedence op) false l) l.format ++ " " ++ op ++ " "
      ++ parenthesized (needsParens (precedence op) true r) r.format
  | .compare _ op l r =>
    parenthesized (needsParens (precedence op) false l) l.format ++ " " ++ op ++ " "
      ++ parenthesized (needsParens (precedence op) true r) r.format
  | .logic _ op l r =>
    parenthesized (needsParens (precedence op) false l) l.format ++ " " ++ op ++ " "
      ++ parenthesized (needsParens (precedence op) true r) r.format
  | .not _ e => "!" ++ parenthesized (needsParens unaryPrecedence false e) e.format
  | .incDec e => e.format
  | .collection _ k es => k.literalName ++ "(" ++ ", ".intercalate (Expr.formats es) ++ ")"
  | .sized _ k size gen => k.name ++ "(" ++ size.format ++ ") " ++ gen.format
  | .lambda l => l.format
  | .call c => c.format
  | .range r => r.format

/-- The texts of several expressions. -/
def Expr.formats : List Expr → List String
  | [] => []
  | e :: es => e.format :: Expr.formats es

/-- The templates of a string with their texts. -/
def Splice.formats : List Splice → List (Int × String)
  | [] => []
  | .mk offset e :: ss => (offset, e.format) :: Splice.formats ss

/-- The text of a target. -/
def Target.format : Target → String
  | .name id => id.name
  | .element _ base i => base.name ++ "[" ++ i.format ++ "]"

/-- The text of an increment or decrement. -/
def IncDec.format : IncDec → String
  | .mk _ op true t => op ++ t.format
  | .mk _ op false t => t.format ++ op

/-- The text of a lambda. -/
def Lambda.format : Lambda → String
  | .mk _ ps body _ =>
    "\x7b " ++ (if ps = [] then "" else formatParams ps ++ " ") ++ "-> " ++ body.format ++ " \x7d"

/-- The text of a call. -/
def Call.format : Call → String
  | .mk _ f args => f.name ++ "(" ++ ", ".intercalate (Expr.formats args) ++ ")"

/-- The text of a range. -/
def Range.format : Range → String
  | .mk _ a b none => a.format ++ ".." ++ b.format
  | .mk _ a b (some s) => a.format ++ ".." ++ b.format ++ " step " ++ s.format

end

/-- The text of a loop header. -/
def Header.format : Header → String
  | .range r => r.format
  | .each e => e.format

/-- The blanks before a statement. -/
def indentation (level : Nat) : String := String.ofList (List.replicate (4 * level) ' ')

/-- Whether a block is the rest of an `else if` chain: a single `if` whose token it shares. -/
def Block.isChained : Block → Bool
  | .mk tok [.ifElse nested _ _ _] _ => tok == nested
  | _ => false

mutual

/-- The text of a statement at a level of indentation, which its first line lacks. -/
def Stmt.format (level : Nat) : Stmt → String
  | .decl _ isMutable name ty value =>
    (if isMutable then "var " else "val ") ++ name.name
      ++ (match ty with | none => "" | some t => ": " ++ t.text)
      ++ (match value with | none => "" | some v => " = " ++ v.format)
  | .assign _ t v => t.format ++ " = " ++ v.format
  | .compound _ t op v => t.format ++ " " ++ op ++ " " ++ v.format
  | .selfOp _ e => e.format
  | .print _ newline value =>
    (if newline then "println(" else "print(")
      ++ (match value with | none => "" | some v => v.format) ++ ")"
  | .ifElse _ c a none => "if (" ++ c.format ++ ") " ++ a.format level
  | .ifElse _ c a (some b) =>
    "if (" ++ c.format ++ ") " ++ a.format level ++ " else "
      ++ (if b.isChained then b.formatChained level else b.format level)
  | .whileLoop _ c b => "while (" ++ c.format ++ ") " ++ b.format level
  | .forLoop _ x h b => "for (" ++ x.name ++ " in " ++ h.format ++ ") " ++ b.format level
  | .function f => f.format level
  | .call _ c => c.format
  | .ret _ value =>
    match value with
    | none => "return"
    | some v => "return " ++ v.format
  | .brk _ => "break"
  | .cont _ => "continue"
  | .block b => b.format level

/-- The lines of several statements, each with its indentation and its line end. -/
def Stmt.formatLines (level : Nat) : List Stmt → List String
  | [] => []
  | s :: ss => (indentation level ++ s.format level ++ "\n") :: Stmt.formatLines level ss

/-- The text of a block. -/
def Block.format (level : Nat) : Block → String
  | .mk _ [] _ => "\x7b\x7d"
  | .mk _ ss _ =>
    "\x7b\n" ++ String.join (Stmt.formatLines (level + 1) ss) ++ indentation level ++ "\x7d"

/-- The text of the statements of a block without its braces. -/
def Block.formatChained (level : Nat) : Block → String
  | .mk _ ss _ => String.join (Stmt.formatChain level ss)

/-- The texts of several statements. -/
def Stmt.formatChain (level : Nat) : List Stmt → List String
  | [] => []
  | s :: ss => s.format level :: Stmt.formatChain level ss

/-- The text of a function declaration. -/
def FunDecl.format (level : Nat) : FunDecl → String
  | .mk _ name ps result body =>
    "fun " ++ name.name ++ "(" ++ formatParams ps ++ ")"
      ++ (if result = .unit then "" else ": " ++ result.text) ++ " " ++ body.format level

end

/-- The text `s` without the line ends at its end. -/
def trimLineEnds (s : String) : String :=
  String.ofList (s.toList.reverse.dropWhile (· == '\n')).reverse

/-- The text of a program. -/
def Program.format (p : Program) : String :=
  trimLineEnds (String.join (Stmt.formatLines 0 p.stmts)) ++ "\n"

end Kotlet

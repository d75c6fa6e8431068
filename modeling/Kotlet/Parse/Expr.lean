import Kotlet.Parse
import Kotlet.Syntax.Template

/-!
# Parsing expressions

From the loosest to the tightest: `&&` and `||` in one tier, at most one comparison, sums,
products, `!`, and the primary expressions. All chains group to the left.

* `primary` : literals, names, calls, lambdas, collections and parentheses;
* `logical` : the tiers above a rule for unary expressions;
* `level` : the rules for expressions that hold at most so many others;
* `expr` : expressions of every admitted depth;
* `Expr.parse` : tokens that are one expression.
-/

namespace Kotlet
namespace Parse

/-- How many expressions may lie inside each other. -/
def maxDepth : Nat := 256

/-! ## String literals -/

/-- Builds a string literal from its pieces. `text` holds the characters before, the last one
first, `size` their number, and `splices` the templates before, the last one first. -/
def joinPieces (template : List Char → Except Diagnostic Expr) (tok : Token)
    (text : List Char) (size : Nat) (splices : List Splice) :
    List Template.Piece → Except Diagnostic Expr
  | [] =>
    let shown := text.reverse.map fun c => if c = Token.escapedDollar then '$' else c
    .ok (.str (.ofToken tok) (String.ofList shown) splices.reverse)
  | .char c :: rest => joinPieces template tok (c :: text) (size + 1) splices rest
  | .code code :: rest =>
    match template code with
    | .error d => .error d
    | .ok e => joinPieces template tok text size (.mk size e :: splices) rest
  | .unclosed :: _ => .error (ParseError.unclosedTemplate.toDiagnostic tok)

/-- The string literal of a string token. -/
def stringLiteral (tok : Token) : Parser Expr := do
  let template := (← read).template
  match joinPieces (template tok) tok [] 0 [] (Template.pieces tok.literal.toText.toList) with
  | .ok e => return e
  | .error d => throw d

/-! ## Primary expressions -/

/-- A variable, or an element of one. -/
def target (expr : Parser Expr) : Parser Target := do
  let base ← ident "variable name"
  if ← nextIs .lbracket then
    let bracket ← advance
    skipNewlines
    let index ← expr
    skipNewlines
    let _ ← expect .rbracket "']'"
    return .element (.ofToken bracket) base index
  return .name base

/-- More expressions between commas, up to the closing parenthesis, after those in `acc`, the
last one first. -/
def argumentsAfter (expr : Parser Expr) : Nat → List Expr → Parser (List Expr)
  | 0, acc => return acc.reverse
  | turns + 1, acc => do
    let e ← expr
    skipNewlines
    if ← accept .comma then
      skipNewlines
      argumentsAfter expr turns (e :: acc)
    else
      let _ ← expect .rparen "',' or ')'"
      return (e :: acc).reverse

/-- Arguments after their opening parenthesis. -/
def arguments (expr : Parser Expr) : Parser (List Expr) := do
  skipNewlines
  if ← accept .rparen then return []
  argumentsAfter expr ((← read).limit + 1) []

/-- A call of a name. -/
def call (expr : Parser Expr) : Parser Call := do
  let callee ← ident "function name"
  let paren ← expect .lparen "'('"
  return .mk (.ofToken paren) callee (← arguments expr)

/-- `++` or `--` before a target. -/
def prefixed (expr : Parser Expr) : Parser IncDec := do
  let op ← advance
  return .mk (.ofToken op) op.shown true (← target expr)

/-- What starts with a name: a call, a read, or a target with `++` or `--` after it. -/
def named (expr : Parser Expr) : Parser Expr := do
  if (← peekSecond).kind = .lparen then return .call (← call expr)
  let t ← target expr
  match ← accept? [.increment, .decrement] with
  | some op => return .incDec (.mk (.ofToken op) op.shown false t)
  | none => return .read t

/-- More parameters of a lambda, after those in `acc`, the last one first. -/
def lambdaParams : Nat → List Param → Parser (List Param)
  | 0, acc => return acc.reverse
  | turns + 1, acc => do
    let p ← parameter false
    if ← accept .comma then
      skipNewlines
      lambdaParams turns (p :: acc)
    else return (p :: acc).reverse

/-- A lambda. -/
def lambda (expr : Parser Expr) : Parser Lambda := do
  let brace ← advance
  skipNewlines
  let params ←
    if ← accept .arrow then pure []
    else do
      let params ← lambdaParams ((← read).limit + 1) []
      let _ ← expect .arrow "',' or '->'"
      pure params
  checkParams params
  skipNewlines
  let body ← expr
  skipNewlines
  let _ ← expect .rbrace "'\x7d'"
  return .mk (.ofToken brace) params body []

/-- A collection with its elements written out; there is one at least. -/
def collectionLiteral (kind : CollectionKind) (expr : Parser Expr) : Parser Expr := do
  let tok ← advance
  let _ ← expect .lparen "'('"
  skipNewlines
  if ← nextIs .rparen then failAt (.emptyCollection tok.shown) tok
  return .collection (.ofToken tok) kind (← arguments expr)

/-- The lambda that computes the elements of a collection. -/
def generator (expr : Parser Expr) : Parser Lambda := do
  if ← nextIs .lbrace then lambda expr else fail (.expected "generator lambda")

/-- A collection of a size: the lambda is the second argument or comes after the parentheses. -/
def sizedConstructor (kind : CollectionKind) (expr : Parser Expr) : Parser Expr := do
  let tok ← advance
  let _ ← expect .lparen "'('"
  skipNewlines
  let size ← expr
  skipNewlines
  if ← accept .comma then
    skipNewlines
    let gen ← generator expr
    skipNewlines
    let _ ← expect .rparen "')'"
    return .sized (.ofToken tok) kind size gen
  let _ ← expect .rparen "',' or ')'"
  return .sized (.ofToken tok) kind size (← generator expr)

/-- An expression in parentheses. -/
def parenthesized (expr : Parser Expr) : Parser Expr := do
  let _ ← advance
  skipNewlines
  let e ← expr
  skipNewlines
  let _ ← expect .rparen "')'"
  return e

/-- A primary expression, given the rule for the expressions inside it. -/
def primary (expr : Parser Expr) : Parser Expr := do
  let tok ← peek
  match tok.kind with
  | .int =>
    let _ ← advance
    match tok.literal with
    | .int n => return .int (.ofToken tok) n
    | _ => return .int (.ofToken tok) 0
  | .kwTrue => let _ ← advance; return .bool (.ofToken tok) true
  | .kwFalse => let _ ← advance; return .bool (.ofToken tok) false
  | .string => let _ ← advance; stringLiteral tok
  | .lparen => parenthesized expr
  | .increment | .decrement => return .incDec (← prefixed expr)
  | .ident => named expr
  | .lbrace => return .lambda (← lambda expr)
  | .kwArrayOf => collectionLiteral .array expr
  | .kwMutableListOf => collectionLiteral .list expr
  | .tyArray => sizedConstructor .array expr
  | .tyMutableList => sizedConstructor .list expr
  | _ => fail (.expected "expression")

/-! ## Operators -/

/-- More operands of a chain that groups to the left. -/
def chainAfter (kinds : List Token.Kind) (make : Mark → String → Expr → Expr → Expr)
    (operand : Parser Expr) : Nat → Expr → Parser Expr
  | 0, left => return left
  | turns + 1, left => do
    match ← accept? kinds with
    | none => return left
    | some op =>
      skipNewlines
      let right ← operand
      chainAfter kinds make operand turns (make (.ofToken op) op.shown left right)

/-- Operands with operators of some kinds between them, grouped to the left. -/
def chain (kinds : List Token.Kind) (make : Mark → String → Expr → Expr → Expr)
    (operand : Parser Expr) : Parser Expr := do
  let first ← operand
  chainAfter kinds make operand (← read).limit first

/-- Products. -/
def multiplicative (unary : Parser Expr) : Parser Expr :=
  chain [.times, .slash, .percent] .arith unary

/-- Sums of products. -/
def additive (unary : Parser Expr) : Parser Expr :=
  chain [.plus, .minus] .arith (multiplicative unary)

/-- At most one comparison of sums. -/
def comparison (unary : Parser Expr) : Parser Expr := do
  let left ← additive unary
  match ← accept? [.eq, .notEq, .lt, .gt, .le, .ge] with
  | none => return left
  | some op =>
    skipNewlines
    let right ← additive unary
    return .compare (.ofToken op) op.shown left right

/-- Comparisons with `&&` and `||` between them. -/
def logical (unary : Parser Expr) : Parser Expr :=
  chain [.and, .or] .logic (comparison unary)

/-- A unary expression: `inner` is the rule after a `!`, if one more is allowed. -/
def unary (inner : Option (Parser Expr)) (expr : Parser Expr) : Parser Expr := do
  match ← accept? [.bang] with
  | none => primary expr
  | some bang =>
    match inner with
    | none => failAt .tooDeep bang
    | some rule => return .not (.ofToken bang) (← rule)

/-- The rules for expressions that hold at most some number of others inside each other. -/
structure Level where
  /-- Any expression. -/
  expr : Parser Expr
  /-- An expression without a binary operator outside its parentheses. -/
  unary : Parser Expr

/-- The rules for expressions of at most `depth` others inside each other. -/
def level : Nat → Level
  | 0 => ⟨fail .tooDeep, unary none (fail .tooDeep)⟩
  | depth + 1 =>
    let below := level depth
    let expr := logical below.unary
    ⟨expr, unary (some below.unary) expr⟩

/-- An expression. -/
def expr : Parser Expr := (level maxDepth).expr

/-- Tokens that are one expression, with line ends around it. -/
def wholeExpr : Parser Expr := do
  skipNewlines
  let e ← expr
  skipNewlines
  if ← atEnd then return e
  fail (.extra "end of expression")

/-! ## Templates -/

/-- Reads the text of a template inside a string token, with at most `depth` templates inside each
other. What goes wrong is told at the string. -/
def templateWithin : Nat → Token → List Char → Except Diagnostic Expr
  | 0, tok, _ => .error (ParseError.tooDeep.toDiagnostic tok)
  | depth + 1, tok, text =>
    let relocate (d : Diagnostic) : Diagnostic :=
      (ParseError.inTemplate (String.ofList text) d.message).toDiagnostic tok
    match Token.scan text with
    | .error d => .error (relocate d)
    | .ok tokens =>
      match wholeExpr ⟨endToken tokens, tokens.length, templateWithin depth⟩ tokens with
      | .error d => .error (relocate d)
      | .ok (e, _) => .ok e

/-- Every template is shorter than the literal it stands in, so no more templates can lie inside
each other than the longest literal of the tokens has characters. -/
def templateDepth (tokens : List Token) : Nat :=
  tokens.foldl (fun n t => max n t.literal.toText.length) 1

/-- The context of a parse. -/
def contextOf (tokens : List Token) : Context :=
  ⟨endToken tokens, tokens.length, templateWithin (templateDepth tokens)⟩

/-- Runs a rule on a list of tokens. -/
def run {α : Type} (rule : Parser α) (tokens : List Token) : Except Diagnostic α :=
  match rule (contextOf tokens) tokens with
  | .ok (a, _) => .ok a
  | .error d => .error d

end Parse

/-- Reads tokens that must form exactly one expression. -/
def Expr.parse (tokens : List Token) : Except Diagnostic Expr := Parse.run Parse.wholeExpr tokens

end Kotlet

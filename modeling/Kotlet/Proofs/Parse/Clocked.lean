import Kotlet.Parse.Stmt

/-!
# Parsing without limits

The parser ends because its rules are cut off after so many turns. Here nothing is cut off: what
repeats does so for as long as there is fuel, and running out of it is a failure of its own. Every call
of a rule is counted, and so is every step on the tokens.

* `Clocked` : rules that count, with the fuel they have;
* `Clocked.step` : a step on the tokens, which counts for one and for every token it takes;
* `Clocked.expr`, `Clocked.stmtWithin`, `Clocked.program` : the rules, step by step as in `Parse.expr`,
  `Parse.stmtWithin` and `Parse.program`;
* `Program.parseClocked` : a whole program, with the number of calls.

Only the number of expressions inside each other keeps its limit, which is one of the language.
-/

namespace Kotlet

/-- How a run that counts ended: it may have run out of fuel, which is `none`. -/
abbrev Counted (α : Type) := Except (Option Diagnostic) α × Nat

/-- What all rules of one parse share. -/
structure Clock where
  /-- Stands for the token after the last one. -/
  eof : Token
  /-- How often anything may repeat. -/
  fuel : Nat
  /-- Reads the text of a template inside the string token. -/
  template : Token → List Char → Counted Expr

/-- Readers of tokens that count. -/
def Clocked (α : Type) := Clock → List Token → Counted (α × List Token)

namespace Clocked

open Parse

instance : Monad Clocked where
  pure a := fun _ ts => (.ok (a, ts), 0)
  bind x f := fun c ts =>
    match x c ts with
    | (.ok (a, rest), n) => let r := f a c rest; (r.1, n + r.2)
    | (.error e, n) => (.error e, n)

/-- A step on the tokens. It counts for one and for every token that it takes. -/
def step {α : Type} (x : Parser α) : Clocked α := fun c ts =>
  match x ⟨c.eof, 0, fun tok _ => .error (ParseError.tooDeep.toDiagnostic tok)⟩ ts with
  | .ok (a, rest) => (.ok (a, rest), 1 + (ts.length - rest.length))
  | .error d => (.error (some d), 1)

instance : MonadLift Parser Clocked := ⟨step⟩

/-- The call of a rule. -/
def call : Clocked Unit := fun _ ts => (.ok ((), ts), 1)

/-- How often anything may repeat. -/
def turns : Clocked Nat := fun c ts => (.ok (c.fuel, ts), 0)

/-- There is no fuel left. -/
def outOfFuel {α : Type} : Clocked α := fun _ _ => (.error none, 0)

/-! ## Types and parameters -/

/-- More types between commas. -/
def typesAfter (type : Clocked Ty) : Nat → List Ty → Clocked (List Ty)
  | 0, _ => outOfFuel
  | fuel + 1, acc => do
    let t ← type
    if ← accept .comma then typesAfter type fuel (t :: acc) else return (t :: acc).reverse

/-- A type. -/
def typeWithin : Nat → Clocked Ty
  | 0 => outOfFuel
  | fuel + 1 => do
    call
    let kind := (← peek).kind
    match scalar? kind with
    | some s => let _ ← advance; return .scalar s
    | none =>
      if kind = .tyArray ∨ kind = .tyMutableList then
        let _ ← advance
        let _ ← expect .lt "'<'"
        let s ← elementType
        closeTypeArgument
        return if kind = .tyMutableList then .list s else .array s
      else if kind = .lparen then
        let _ ← advance
        let params ←
          if ← nextIs .rparen then pure []
          else typesAfter (typeWithin fuel) (← turns) []
        let _ ← expect .rparen "',' or ')'"
        let _ ← expect .arrow "'->'"
        let result ← typeWithin fuel
        return .fn params (some result)
      else fail (.expected "type")

/-- A type. -/
def type : Clocked Ty := do typeWithin (← turns)

/-- A parameter; its type may be left out unless it is `required`. -/
def parameter (required : Bool) : Clocked Param := do
  call
  let name ← ident "parameter name"
  if ← accept .colon then return ⟨name, some (← type)⟩
  if required then fail (.expected "':' and parameter type")
  return ⟨name, none⟩

/-! ## Expressions -/

/-- Builds a string literal from its pieces. -/
def joinPieces (template : List Char → Counted Expr) (tok : Token) (text : List Char) (size : Nat)
    (splices : List Splice) : List Template.Piece → Counted Expr
  | [] =>
    let shown := text.reverse.map fun c => if c = Token.escapedDollar then '$' else c
    (.ok (.str (.ofToken tok) (String.ofList shown) splices.reverse), 0)
  | .char c :: rest => joinPieces template tok (c :: text) (size + 1) splices rest
  | .code code :: rest =>
    match template code with
    | (.error e, n) => (.error e, n)
    | (.ok e, n) =>
      let r := joinPieces template tok text size (.mk size e :: splices) rest
      (r.1, n + r.2)
  | .unclosed :: _ => (.error (some (ParseError.unclosedTemplate.toDiagnostic tok)), 0)

/-- The string literal of a string token. -/
def stringLiteral (tok : Token) : Clocked Expr := fun c ts =>
  match joinPieces (c.template tok) tok [] 0 [] (Template.pieces tok.literal.toText.toList) with
  | (.ok e, n) => (.ok (e, ts), n + 1)
  | (.error e, n) => (.error e, n + 1)

/-- A variable, or an element of one. -/
def target (expr : Clocked Expr) : Clocked Target := do
  call
  let base ← ident "variable name"
  if ← nextIs .lbracket then
    let bracket ← advance
    skipNewlines
    let index ← expr
    skipNewlines
    let _ ← expect .rbracket "']'"
    return .element (.ofToken bracket) base index
  return .name base

/-- More expressions between commas, up to the closing parenthesis. -/
def argumentsAfter (expr : Clocked Expr) : Nat → List Expr → Clocked (List Expr)
  | 0, _ => outOfFuel
  | fuel + 1, acc => do
    let e ← expr
    skipNewlines
    if ← accept .comma then
      skipNewlines
      argumentsAfter expr fuel (e :: acc)
    else
      let _ ← expect .rparen "',' or ')'"
      return (e :: acc).reverse

/-- Arguments after their opening parenthesis. -/
def arguments (expr : Clocked Expr) : Clocked (List Expr) := do
  call
  skipNewlines
  if ← accept .rparen then return []
  argumentsAfter expr (← turns) []

/-- A call of a name. -/
def callOf (expr : Clocked Expr) : Clocked Call := do
  call
  let callee ← ident "function name"
  let paren ← expect .lparen "'('"
  return .mk (.ofToken paren) callee (← arguments expr)

/-- `++` or `--` before a target. -/
def prefixed (expr : Clocked Expr) : Clocked IncDec := do
  call
  let op ← advance
  return .mk (.ofToken op) op.shown true (← target expr)

/-- What starts with a name: a call, a read, or a target with `++` or `--` after it. -/
def named (expr : Clocked Expr) : Clocked Expr := do
  call
  if (← peekSecond).kind = .lparen then return .call (← callOf expr)
  let t ← target expr
  match ← accept? [.increment, .decrement] with
  | some op => return .incDec (.mk (.ofToken op) op.shown false t)
  | none => return .read t

/-- More parameters of a lambda. -/
def lambdaParams : Nat → List Param → Clocked (List Param)
  | 0, _ => outOfFuel
  | fuel + 1, acc => do
    let p ← parameter false
    if ← accept .comma then
      skipNewlines
      lambdaParams fuel (p :: acc)
    else return (p :: acc).reverse

/-- A lambda. -/
def lambda (expr : Clocked Expr) : Clocked Lambda := do
  call
  let brace ← advance
  skipNewlines
  let params ←
    if ← accept .arrow then pure []
    else do
      let params ← lambdaParams (← turns) []
      let _ ← expect .arrow "',' or '->'"
      pure params
  checkParams params
  skipNewlines
  let body ← expr
  skipNewlines
  let _ ← expect .rbrace "'\x7d'"
  return .mk (.ofToken brace) params body []

/-- A collection with its elements written out; there is one at least. -/
def collectionLiteral (kind : CollectionKind) (expr : Clocked Expr) : Clocked Expr := do
  call
  let tok ← advance
  let _ ← expect .lparen "'('"
  skipNewlines
  if ← nextIs .rparen then failAt (.emptyCollection tok.shown) tok
  return .collection (.ofToken tok) kind (← arguments expr)

/-- The lambda that computes the elements of a collection. -/
def generator (expr : Clocked Expr) : Clocked Lambda := do
  if ← nextIs .lbrace then lambda expr else fail (.expected "generator lambda")

/-- A collection of a size: the lambda is the second argument or comes after the parentheses. -/
def sizedConstructor (kind : CollectionKind) (expr : Clocked Expr) : Clocked Expr := do
  call
  let tok ← advance
  let _ ← expect .lparen "'('"
  skipNewlines
  let size ← expr
  skipNewlines
  if ← accept .comma then
    skipNewlines
    let gen ← generator expr
    skipNewlines
    let _ ← expect .rparen "')'"
    return .sized (.ofToken tok) kind size gen
  let _ ← expect .rparen "',' or ')'"
  return .sized (.ofToken tok) kind size (← generator expr)

/-- An expression in parentheses. -/
def parenthesized (expr : Clocked Expr) : Clocked Expr := do
  let _ ← advance
  skipNewlines
  let e ← expr
  skipNewlines
  let _ ← expect .rparen "')'"
  return e

/-- A primary expression, given the rule for the expressions inside it. -/
def primary (expr : Clocked Expr) : Clocked Expr := do
  call
  let tok ← peek
  match tok.kind with
  | .int =>
    let _ ← advance
    match tok.literal with
    | .int n => return .int (.ofToken tok) n
    | _ => return .int (.ofToken tok) 0
  | .kwTrue => let _ ← advance; return .bool (.ofToken tok) true
  | .kwFalse => let _ ← advance; return .bool (.ofToken tok) false
  | .string => let _ ← advance; stringLiteral tok
  | .lparen => parenthesized expr
  | .increment | .decrement => return .incDec (← prefixed expr)
  | .ident => named expr
  | .lbrace => return .lambda (← lambda expr)
  | .kwArrayOf => collectionLiteral .array expr
  | .kwMutableListOf => collectionLiteral .list expr
  | .tyArray => sizedConstructor .array expr
  | .tyMutableList => sizedConstructor .list expr
  | _ => fail (.expected "expression")

/-- More operands of a chain that groups to the left. -/
def chainAfter (kinds : List Token.Kind) (make : Mark → String → Expr → Expr → Expr)
    (operand : Clocked Expr) : Nat → Expr → Clocked Expr
  | 0, _ => outOfFuel
  | fuel + 1, left => do
    match ← accept? kinds with
    | none => return left
    | some op =>
      skipNewlines
      let right ← operand
      chainAfter kinds make operand fuel (make (.ofToken op) op.shown left right)

/-- Operands with operators of some kinds between them, grouped to the left. -/
def chain (kinds : List Token.Kind) (make : Mark → String → Expr → Expr → Expr)
    (operand : Clocked Expr) : Clocked Expr := do
  call
  let first ← operand
  chainAfter kinds make operand (← turns) first

/-- Products. -/
def multiplicative (unary : Clocked Expr) : Clocked Expr := do
  call
  chain [.times, .slash, .percent] .arith unary

/-- Sums of products. -/
def additive (unary : Clocked Expr) : Clocked Expr := do
  call
  chain [.plus, .minus] .arith (multiplicative unary)

/-- At most one comparison of sums. -/
def comparison (unary : Clocked Expr) : Clocked Expr := do
  call
  let left ← additive unary
  match ← accept? [.eq, .notEq, .lt, .gt, .le, .ge] with
  | none => return left
  | some op =>
    skipNewlines
    let right ← additive unary
    return .compare (.ofToken op) op.shown left right

/-- Comparisons with `&&` and `||` between them. -/
def logical (unary : Clocked Expr) : Clocked Expr :=
  chain [.and, .or] .logic (comparison unary)

/-- A unary expression: `inner` is the rule after a `!`, if one more is allowed. -/
def unary (inner : Option (Clocked Expr)) (expr : Clocked Expr) : Clocked Expr := do
  call
  match ← accept? [.bang] with
  | none => primary expr
  | some bang =>
    match inner with
    | none => failAt .tooDeep bang
    | some rule => return .not (.ofToken bang) (← rule)

/-- The rules for expressions that hold at most some number of others inside each other. -/
structure Level where
  /-- Any expression. -/
  expr : Clocked Expr
  /-- An expression without a binary operator outside its parentheses. -/
  unary : Clocked Expr

/-- The rules for expressions of at most `depth` others inside each other. -/
def level : Nat → Level
  | 0 =>
    let tooDeep : Clocked Expr := do
      call
      fail .tooDeep
    ⟨tooDeep, unary none tooDeep⟩
  | depth + 1 =>
    let below := level depth
    let expr : Clocked Expr := do
      call
      logical below.unary
    ⟨expr, unary (some below.unary) expr⟩

/-- An expression. -/
def expr : Clocked Expr := (level maxDepth).expr

/-- Tokens that are one expression, with line ends around it. -/
def wholeExpr : Clocked Expr := do
  call
  skipNewlines
  let e ← expr
  skipNewlines
  if ← atEnd then return e
  fail (.extra "end of expression")

/-- Reads the text of a template inside a string token. What goes wrong is told at the string. -/
def templateWithin (fuel : Nat) : Nat → Token → List Char → Counted Expr
  | 0, _, _ => (.error none, 0)
  | depth + 1, tok, text =>
    let relocate (d : Diagnostic) : Diagnostic :=
      (ParseError.inTemplate (String.ofList text) d.message).toDiagnostic tok
    match Token.scan text with
    | .error d => (.error (some (relocate d)), 1)
    | .ok tokens =>
      match wholeExpr ⟨endToken tokens, fuel, templateWithin fuel depth⟩ tokens with
      | (.error e, n) => (.error (e.map relocate), n + 1)
      | (.ok (e, _), n) => (.ok e, n + 1)

/-! ## Statements -/

/-- `var` or `val`. -/
def declaration : Clocked Stmt := do
  call
  let tok ← advance
  let name ← ident "variable name"
  let ty ← if ← accept .colon then some <$> type else pure none
  let value ←
    if ← accept .assign then do
      skipNewlines
      some <$> expr
    else pure none
  return .decl tok (tok.kind == .kwVar) name ty value

/-- `print` or `println`; only the latter may go without a value. -/
def printing : Clocked Stmt := do
  call
  let tok ← advance
  let newline := tok.kind == .kwPrintln
  let _ ← expect .lparen "'('"
  skipNewlines
  if newline && (← nextIs .rparen) then
    let _ ← advance
    return .print tok newline none
  let value ← expr
  skipNewlines
  let _ ← expect .rparen "')'"
  return .print tok newline (some value)

/-- `return`. -/
def returning : Clocked Stmt := do
  call
  let tok ← advance
  let kind := (← peek).kind
  if (← atEnd) || isSeparator kind || kind == .rbrace then return .ret tok none
  return .ret tok (some (← expr))

/-- What starts with a name: a call, an assignment, or `++` or `--` after a target. -/
def namedStmt : Clocked Stmt := do
  call
  let first ← peek
  if (← peekSecond).kind = .lparen then return .call first (← callOf expr)
  let t ← target expr
  let tok ← peek
  match tok.kind with
  | .assign =>
    let _ ← advance
    skipNewlines
    return .assign tok t (← expr)
  | .plusAssign | .minusAssign | .timesAssign | .slashAssign =>
    let _ ← advance
    skipNewlines
    return .compound tok t tok.shown (← expr)
  | .increment | .decrement =>
    let _ ← advance
    return .selfOp first (.mk (.ofToken tok) tok.shown false t)
  | _ => fail (.expected "assignment, '++' or '--'")

/-- A condition in parentheses. -/
def condition : Clocked Expr := do
  call
  let _ ← expect .lparen "'('"
  skipNewlines
  let e ← expr
  skipNewlines
  let _ ← expect .rparen "')'"
  return e

/-- More statements up to the closing brace. -/
def stmtsAfter (stmt : Clocked Stmt) : Nat → List Stmt → Clocked (List Stmt)
  | 0, _ => outOfFuel
  | fuel + 1, acc => do
    if ← nextIs .rbrace then return acc.reverse
    if ← atEnd then fail (.expected "'\x7d'")
    let s ← stmt
    if ← nextIs .rbrace then return (s :: acc).reverse
    if ← atEnd then fail (.expected "'\x7d'")
    if !isSeparator (← peek).kind then fail (.extra "'\x7d'")
    skipSeparators
    stmtsAfter stmt fuel (s :: acc)

/-- Statements in braces. -/
def block (stmt : Clocked Stmt) : Clocked Block := do
  call
  let brace ← expect .lbrace "'\x7b'"
  skipSeparators
  let stmts ← stmtsAfter stmt (← turns) []
  let close ← advance
  return .mk brace stmts close

/-- `if`. A following `if` after `else` is a block of its own with the token of that `if`. -/
def ifStmt (stmt : Clocked Stmt) : Clocked Stmt := do
  call
  let tok ← advance
  let cond ← condition
  skipNewlines
  let thenB ← block stmt
  if ← acceptElse then
    skipNewlines
    if ← nextIs .kwIf then
      let nested ← stmt
      return .ifElse tok cond thenB (some (.mk nested.tok [nested] nested.tok))
    return .ifElse tok cond thenB (some (← block stmt))
  return .ifElse tok cond thenB none

/-- `while`. -/
def whileStmt (stmt : Clocked Stmt) : Clocked Stmt := do
  call
  let tok ← advance
  let cond ← condition
  skipNewlines
  return .whileLoop tok cond (← block stmt)

/-- What a loop runs over. -/
def header : Clocked Header := do
  call
  let first ← expr
  match ← accept? [.dotDot] with
  | none => return .each first
  | some dots =>
    let last ← expr
    let step ← if ← accept .kwStep then some <$> expr else pure none
    return .range (.mk (.ofToken dots) first last step)

/-- `for`. -/
def forStmt (stmt : Clocked Stmt) : Clocked Stmt := do
  call
  let tok ← advance
  let _ ← expect .lparen "'('"
  let x ← ident "loop variable"
  let _ ← expect .kwIn "'in'"
  let h ← header
  let _ ← expect .rparen "')'"
  skipNewlines
  return .forLoop tok x h (← block stmt)

/-- More parameters of a function. -/
def functionParams : Nat → List Param → Clocked (List Param)
  | 0, _ => outOfFuel
  | fuel + 1, acc => do
    if ← nextIs .rparen then return acc.reverse
    let p ← parameter true
    skipNewlines
    if ← accept .comma then
      skipNewlines
      functionParams fuel (p :: acc)
    else return (p :: acc).reverse

/-- A function declaration; without a result type it is `Unit`. -/
def functionStmt (stmt : Clocked Stmt) : Clocked Stmt := do
  call
  let tok ← advance
  let name ← ident "function name"
  let _ ← expect .lparen "'('"
  skipNewlines
  let params ← functionParams (← turns) []
  let _ ← expect .rparen "')'"
  checkParams params
  let result ← if ← accept .colon then type else pure Ty.unit
  skipNewlines
  return .function (.mk tok name params result (← block stmt))

/-- A statement, given the rule for the statements inside it. -/
def statement (inner : Clocked Stmt) : Clocked Stmt := do
  call
  match (← peek).kind with
  | .kwVar | .kwVal => declaration
  | .kwIf => ifStmt inner
  | .kwWhile => whileStmt inner
  | .kwFor => forStmt inner
  | .kwFun => functionStmt inner
  | .kwReturn => returning
  | .kwBreak => return .brk (← advance)
  | .kwContinue => return .cont (← advance)
  | .kwPrint | .kwPrintln => printing
  | .lbrace => return .block (← block inner)
  | .increment | .decrement =>
    let e ← prefixed expr
    return .selfOp e.mark.tok e
  | .ident => namedStmt
  | _ => fail (.expected "statement")

/-- A statement. -/
def stmtWithin : Nat → Clocked Stmt
  | 0 => outOfFuel
  | fuel + 1 => statement (stmtWithin fuel)

/-- More statements up to the end. -/
def programAfter (stmt : Clocked Stmt) : Nat → List Stmt → Clocked (List Stmt)
  | 0, _ => outOfFuel
  | fuel + 1, acc => do
    if ← atEnd then return acc.reverse
    let s ← stmt
    if ← atEnd then return (s :: acc).reverse
    if !isSeparator (← peek).kind then fail (.extra "end of input")
    skipSeparators
    programAfter stmt fuel (s :: acc)

/-- A whole program. -/
def program : Clocked (List Stmt) := do
  call
  skipSeparators
  let fuel ← turns
  programAfter (stmtWithin fuel) fuel []

end Clocked

/-- Reads tokens that must form a program, and counts the calls. -/
def Program.parseClocked (fuel : Nat) (tokens : List Token) : Counted Program :=
  let r := Clocked.program ⟨Parse.endToken tokens, fuel, Clocked.templateWithin fuel fuel⟩ tokens
  (r.1.map fun p => ⟨"", p.1⟩, r.2)

end Kotlet

import Kotlet.Parse.Expr

/-!
# Parsing statements

* `stmtWithin` : statements that hold at most so many others inside each other;
* `block` : statements in braces, separated by line ends or semicolons;
* `Program.parse` : tokens that are a whole program.
-/

namespace Kotlet
namespace Parse

/-! ## Simple statements -/

/-- `var` or `val`. -/
def declaration : Parser Stmt := do
  let tok ← advance
  let name ← ident "variable name"
  let ty ← if ← accept .colon then some <$> type else pure none
  let value ←
    if ← accept .assign then do
      skipNewlines
      some <$> expr
    else pure none
  return .decl tok (tok.kind == .kwVar) name ty value

/-- `print` or `println`; only the latter may go without a value. -/
def printing : Parser Stmt := do
  let tok ← advance
  let newline := tok.kind == .kwPrintln
  let _ ← expect .lparen "'('"
  skipNewlines
  if newline && (← nextIs .rparen) then
    let _ ← advance
    return .print tok newline none
  let value ← expr
  skipNewlines
  let _ ← expect .rparen "')'"
  return .print tok newline (some value)

/-- `return`. -/
def returning : Parser Stmt := do
  let tok ← advance
  let kind := (← peek).kind
  if (← atEnd) || isSeparator kind || kind == .rbrace then return .ret tok none
  return .ret tok (some (← expr))

/-- What starts with a name: a call, an assignment, or `++` or `--` after a target. -/
def namedStmt : Parser Stmt := do
  let first ← peek
  if (← peekSecond).kind = .lparen then return .call first (← call expr)
  let t ← target expr
  let tok ← peek
  match tok.kind with
  | .assign =>
    let _ ← advance
    skipNewlines
    return .assign tok t (← expr)
  | .plusAssign | .minusAssign | .timesAssign | .slashAssign =>
    let _ ← advance
    skipNewlines
    return .compound tok t tok.shown (← expr)
  | .increment | .decrement =>
    let _ ← advance
    return .selfOp first (.mk (.ofToken tok) tok.shown false t)
  | _ => fail (.expected "assignment, '++' or '--'")

/-- A condition in parentheses. -/
def condition : Parser Expr := do
  let _ ← expect .lparen "'('"
  skipNewlines
  let e ← expr
  skipNewlines
  let _ ← expect .rparen "')'"
  return e

/-! ## Statements that hold others -/

/-- More statements up to the closing brace, after those in `acc`, the last one first. -/
def stmtsAfter (stmt : Parser Stmt) : Nat → List Stmt → Parser (List Stmt)
  | 0, acc => return acc.reverse
  | turns + 1, acc => do
    if ← nextIs .rbrace then return acc.reverse
    if ← atEnd then fail (.expected "'\x7d'")
    let s ← stmt
    if ← nextIs .rbrace then return (s :: acc).reverse
    if ← atEnd then fail (.expected "'\x7d'")
    if !isSeparator (← peek).kind then fail (.extra "'\x7d'")
    skipSeparators
    stmtsAfter stmt turns (s :: acc)

/-- Statements in braces. -/
def block (stmt : Parser Stmt) : Parser Block := do
  let brace ← expect .lbrace "'\x7b'"
  skipSeparators
  let stmts ← stmtsAfter stmt ((← read).limit + 1) []
  let close ← advance
  return .mk brace stmts close

/-- Takes an `else` after line ends; without one, the line ends stay. -/
def acceptElse : Parser Bool := do
  let before ← get
  skipNewlines
  if ← accept .kwElse then return true
  set before
  return false

/-- `if`. A following `if` after `else` is a block of its own with the token of that `if`. -/
def ifStmt (stmt : Parser Stmt) : Parser Stmt := do
  let tok ← advance
  let cond ← condition
  skipNewlines
  let thenB ← block stmt
  if ← acceptElse then
    skipNewlines
    if ← nextIs .kwIf then
      let nested ← stmt
      return .ifElse tok cond thenB (some (.mk nested.tok [nested] nested.tok))
    return .ifElse tok cond thenB (some (← block stmt))
  return .ifElse tok cond thenB none

/-- `while`. -/
def whileStmt (stmt : Parser Stmt) : Parser Stmt := do
  let tok ← advance
  let cond ← condition
  skipNewlines
  return .whileLoop tok cond (← block stmt)

/-- What a loop runs over. -/
def header : Parser Header := do
  let first ← expr
  match ← accept? [.dotDot] with
  | none => return .each first
  | some dots =>
    let last ← expr
    let step ← if ← accept .kwStep then some <$> expr else pure none
    return .range (.mk (.ofToken dots) first last step)

/-- `for`. -/
def forStmt (stmt : Parser Stmt) : Parser Stmt := do
  let tok ← advance
  let _ ← expect .lparen "'('"
  let x ← ident "loop variable"
  let _ ← expect .kwIn "'in'"
  let h ← header
  let _ ← expect .rparen "')'"
  skipNewlines
  return .forLoop tok x h (← block stmt)

/-- More parameters of a function, after those in `acc`, the last one first. -/
def functionParams : Nat → List Param → Parser (List Param)
  | 0, acc => return acc.reverse
  | turns + 1, acc => do
    if ← nextIs .rparen then return acc.reverse
    let p ← parameter true
    skipNewlines
    if ← accept .comma then
      skipNewlines
      functionParams turns (p :: acc)
    else return (p :: acc).reverse

/-- A function declaration; without a result type it is `Unit`. -/
def functionStmt (stmt : Parser Stmt) : Parser Stmt := do
  let tok ← advance
  let name ← ident "function name"
  let _ ← expect .lparen "'('"
  skipNewlines
  let params ← functionParams ((← read).limit + 1) []
  let _ ← expect .rparen "')'"
  checkParams params
  let result ← if ← accept .colon then type else pure Ty.unit
  skipNewlines
  return .function (.mk tok name params result (← block stmt))

/-- A statement, given the rule for the statements inside it. -/
def statement (inner : Parser Stmt) : Parser Stmt := do
  match (← peek).kind with
  | .kwVar | .kwVal => declaration
  | .kwIf => ifStmt inner
  | .kwWhile => whileStmt inner
  | .kwFor => forStmt inner
  | .kwFun => functionStmt inner
  | .kwReturn => returning
  | .kwBreak => return .brk (← advance)
  | .kwContinue => return .cont (← advance)
  | .kwPrint | .kwPrintln => printing
  | .lbrace => return .block (← block inner)
  | .increment | .decrement =>
    let e ← prefixed expr
    return .selfOp e.mark.tok e
  | .ident => namedStmt
  | _ => fail (.expected "statement")

/-- A statement that holds at most `depth` others inside each other. -/
def stmtWithin : Nat → Parser Stmt
  | 0 => fail (.expected "statement")
  | depth + 1 => statement (stmtWithin depth)

/-! ## Programs -/

/-- More statements up to the end, after those in `acc`, the last one first. -/
def programAfter (stmt : Parser Stmt) : Nat → List Stmt → Parser (List Stmt)
  | 0, acc => return acc.reverse
  | turns + 1, acc => do
    if ← atEnd then return acc.reverse
    let s ← stmt
    if ← atEnd then return (s :: acc).reverse
    if !isSeparator (← peek).kind then fail (.extra "end of input")
    skipSeparators
    programAfter stmt turns (s :: acc)

/-- A whole program. -/
def program : Parser (List Stmt) := do
  skipSeparators
  let limit := (← read).limit
  programAfter (stmtWithin (limit + 1)) (limit + 1) []

end Parse

/-- Reads tokens that must form a program. -/
def Program.parse (tokens : List Token) : Except Diagnostic Program :=
  (Parse.run Parse.program tokens).map fun stmts => ⟨"", stmts⟩

end Kotlet

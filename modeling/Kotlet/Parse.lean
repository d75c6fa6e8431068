import Kotlet.Diagnostic
import Kotlet.Syntax

/-!
# Parsers

A parser reads tokens from the front of a list and leaves the rest. It either returns something or
fails with a diagnostic; a token is taken away only by the rule that uses it.

* `ParseError` : why tokens form no program, with the message of each cause;
* `Parse.Context` : what all rules of one parse share;
* `Parser` : readers of tokens;
* `Parse.peek`, `Parse.accept?`, `Parse.expect`, `Parse.skipNewlines` : the steps that rules are made of.

Rules that repeat take as many turns at most as there are tokens in the whole input, which no input
exhausts because every turn uses a token.
-/

namespace Kotlet

/-- Why tokens form no program. -/
inductive ParseError where
  /-- Another token was wanted. -/
  | expected (what : String)
  /-- The tokens should have ended. -/
  | extra (what : String)
  /-- An expression holds too many others. -/
  | tooDeep
  /-- A collection literal without elements. -/
  | emptyCollection (lexeme : String)
  /-- Two parameters of one name. -/
  | duplicateParameter (name : String)
  /-- A template without its closing brace. -/
  | unclosedTemplate
  /-- A template whose text is no expression. -/
  | inTemplate (text : String) (reason : String)
  deriving DecidableEq, Inhabited

namespace ParseError

/-- The diagnostic of a failure at a token. -/
def toDiagnostic (e : ParseError) (t : Token) : Diagnostic :=
  match e with
  | .expected what =>
    let code := if t.kind = .eof then Code.unexpectedEnd else Code.unexpectedToken
    .mkExpected code t.line t.col what t.describe
  | .extra what =>
    let message := "extra tokens at end: expected " ++ what ++ ", received " ++ t.describe
    { Diagnostic.mkAt .extraTokens t.line t.col message with
      expected := what, received := t.describe }
  | .tooDeep => .mkAt .unexpectedToken t.line t.col "expression nested too deeply"
  | .emptyCollection lexeme =>
    .mkAt .emptyCollection t.line t.col (lexeme ++ ": at least one element required")
  | .duplicateParameter name =>
    .mkAt .duplicateParameter t.line t.col ("duplicate parameter name '" ++ name ++ "'")
  | .unclosedTemplate =>
    .mkAt .malformedTemplate t.line t.col "unterminated interpolation: missing '\x7d'"
  | .inTemplate text reason =>
    .mkAt .malformedTemplate t.line t.col ("in interpolation " ++ quote text ++ ": " ++ reason)

end ParseError

namespace Parse

/-- What all rules of one parse share. -/
structure Context where
  /-- Stands for the token after the last one. -/
  eof : Token
  /-- The number of tokens, which bounds every repetition. -/
  limit : Nat
  /-- Reads the text of a template inside the string token. -/
  template : Token → List Char → Except Diagnostic Expr

/-- The token that stands for the end of `tokens`: right after the last one. -/
def endToken (tokens : List Token) : Token :=
  match tokens.getLast? with
  | none => ⟨.eof, "", .none, 1, 1⟩
  | some t => ⟨.eof, "", .none, t.line, t.col + t.lexeme.length⟩

end Parse

/-- A reader of tokens. -/
abbrev Parser := ReaderT Parse.Context (StateT (List Token) (Except Diagnostic))

namespace Parse

/-- The next token, which stays where it is. -/
def peek : Parser Token := do
  let tokens ← get
  return tokens.head?.getD (← read).eof

/-- The token after the next one. -/
def peekSecond : Parser Token := do
  let tokens ← get
  return tokens[1]?.getD (← read).eof

/-- Whether no token is left. -/
def atEnd : Parser Bool := do return (← get).isEmpty

/-- Whether the next token is of a kind. -/
def nextIs (kind : Token.Kind) : Parser Bool := do return (← peek).kind == kind

/-- Takes the next token. -/
def advance : Parser Token := do
  let t ← peek
  modify List.tail
  return t

/-- Takes the next token if it is one of the given kinds. -/
def accept? (kinds : List Token.Kind) : Parser (Option Token) := do
  let t ← peek
  if kinds.contains t.kind then
    modify List.tail
    return some t
  return none

/-- Takes the next token if it is of the given kind, and tells whether it was. -/
def accept (kind : Token.Kind) : Parser Bool := do return (← accept? [kind]).isSome

/-- Fails at a token. -/
def failAt {α : Type} (e : ParseError) (t : Token) : Parser α := throw (e.toDiagnostic t)

/-- Fails at the next token. -/
def fail {α : Type} (e : ParseError) : Parser α := do failAt e (← peek)

/-- Takes a token of a kind, or fails and says what was wanted. -/
def expect (kind : Token.Kind) (what : String) : Parser Token := do
  match ← accept? [kind] with
  | some t => return t
  | none => fail (.expected what)

/-- Whether tokens of this kind separate statements. -/
def isSeparator (k : Token.Kind) : Bool := k == .newline || k == .semicolon

/-- Skips line ends. -/
def skipNewlines : Parser Unit := modify fun ts => ts.dropWhile fun t => t.kind == .newline

/-- Skips what separates statements. -/
def skipSeparators : Parser Unit := modify fun ts => ts.dropWhile fun t => isSeparator t.kind

/-- Takes a name, or fails and says which one was wanted. -/
def ident (what : String) : Parser Ident := do
  let t ← expect .ident what
  return .ofToken t t.literal.toText

/-! ## Types -/

/-- The scalar that a type name stands for. -/
def scalar? : Token.Kind → Option Scalar
  | .tyInt => some .int
  | .tyBoolean => some .boolean
  | .tyString => some .string
  | .tyUnit => some .unit
  | .tyAny => some .any
  | _ => none

/-- The element type of a collection: any scalar but `Unit`. -/
def elementType : Parser Scalar := do
  match (scalar? (← peek).kind).filter (· ≠ .unit) with
  | some s => let _ ← advance; return s
  | none => fail (.expected "element type")

/-- Closes a type argument. A `>=` there is a `>` with an `=` after it. -/
def closeTypeArgument : Parser Unit := do
  let t ← peek
  if t.kind = .ge then
    modify fun ts =>
      .plain .gt ">" t.line t.col :: .plain .assign "=" t.line (t.col + 1) :: ts.tail
  let _ ← expect .gt "'>'"

/-- More types between commas, after those in `acc`, the last one first. -/
def typesAfter (type : Parser Ty) : Nat → List Ty → Parser (List Ty)
  | 0, acc => return acc.reverse
  | turns + 1, acc => do
    let t ← type
    if ← accept .comma then typesAfter type turns (t :: acc) else return (t :: acc).reverse

/-- A type with at most `depth` function types around each other. -/
def typeWithin : Nat → Parser Ty
  | 0 => fail (.expected "type")
  | depth + 1 => do
    let kind := (← peek).kind
    match scalar? kind with
    | some s => let _ ← advance; return .scalar s
    | none =>
      if kind = .tyArray ∨ kind = .tyMutableList then
        let _ ← advance
        let _ ← expect .lt "'<'"
        let s ← elementType
        closeTypeArgument
        return if kind = .tyMutableList then .list s else .array s
      else if kind = .lparen then
        let _ ← advance
        let params ←
          if ← nextIs .rparen then pure []
          else typesAfter (typeWithin depth) (← read).limit []
        let _ ← expect .rparen "',' or ')'"
        let _ ← expect .arrow "'->'"
        let result ← typeWithin depth
        return .fn params (some result)
      else fail (.expected "type")

/-- A type. -/
def type : Parser Ty := do typeWithin ((← read).limit + 1)

/-! ## Parameters -/

/-- A parameter; its type may be left out unless it is `required`. -/
def parameter (required : Bool) : Parser Param := do
  let name ← ident "parameter name"
  if ← accept .colon then return ⟨name, some (← type)⟩
  if required then fail (.expected "':' and parameter type")
  return ⟨name, none⟩

/-- The first parameter whose name one before it has. -/
def firstDuplicate? (seen : List String) : List Param → Option Param
  | [] => none
  | p :: ps =>
    if seen.contains p.name.name then some p else firstDuplicate? (p.name.name :: seen) ps

/-- Fails if two parameters have one name. -/
def checkParams (ps : List Param) : Parser Unit := do
  match firstDuplicate? [] ps with
  | some p => failAt (.duplicateParameter p.name.name) p.name.tok
  | none => return ()

end Parse

end Kotlet

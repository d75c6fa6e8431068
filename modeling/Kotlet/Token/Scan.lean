import Kotlet.Diagnostic
import Kotlet.Text.Letter
import Kotlet.Token

/-!
# Scanning

The source text is read from left to right into tokens. Blanks and comments between tokens are
skipped; a line feed is a token of its own.

* `Pos`, `Pos.next` : places in the text, and the place after a character;
* `skipGap` : what may stand between two tokens;
* `Lexeme`, `readLexeme` : the token at the start of a text, and the text after it;
* `scan` : all tokens of a text, or the first failure.

A minus sign directly before a digit belongs to the number unless the token before it ends an
operand. A string literal keeps its templates as they are written; only `escapedDollar` marks the
dollar signs that start none.
-/

namespace Kotlet

/-- A place in a text: line and column, both from 1. -/
structure Pos where
  /-- The line. -/
  line : Nat
  /-- The column, in characters. -/
  col : Nat
  deriving DecidableEq, Inhabited

namespace Pos

/-- The first place of a text. -/
def start : Pos := ⟨1, 1⟩

/-- The place after the character `c`. -/
def next (p : Pos) (c : Char) : Pos :=
  if c = '\n' then ⟨p.line + 1, 1⟩ else ⟨p.line, p.col + 1⟩

/-- The place after a run of characters. -/
def after (p : Pos) (cs : List Char) : Pos := cs.foldl next p

end Pos

namespace Token

/-- Why a text cannot be scanned. -/
inductive ScanError where
  /-- A character that starts no token. -/
  | unexpected (c : Char)
  /-- A number that runs into a letter. -/
  | malformedNumber (lexeme : String)
  /-- A block comment without an end. -/
  | unclosedComment
  /-- An integer literal that needs more than 32 bits. -/
  | outOfRange (lexeme : String)
  deriving DecidableEq, Inhabited

namespace ScanError

/-- The code of a failure. -/
def code : ScanError → Code
  | unexpected _ => .illegalCharacter
  | malformedNumber _ => .illegalCharacter
  | unclosedComment => .unclosedComment
  | outOfRange _ => .literalOutOfRange

/-- The message of a failure. -/
def message : ScanError → String
  | unexpected c => "unexpected character " ++ quoteChar c
  | malformedNumber lexeme => "malformed number " ++ quote lexeme
  | unclosedComment => "unterminated block comment"
  | outOfRange lexeme => "integer literal " ++ lexeme ++ " out of range"

/-- The diagnostic of a failure at a place. -/
def toDiagnostic (e : ScanError) (p : Pos) : Diagnostic :=
  .mkAt e.code p.line p.col e.message

end ScanError

/-! ## Characters -/

/-- Whether `c` is a blank inside a line. -/
def isBlank (c : Char) : Bool := c == ' ' || c == '\t' || c == '\r'

/-- Whether `c` is a decimal digit of a number. -/
def isNumeral (c : Char) : Bool := '0' ≤ c && c ≤ '9'

/-- Whether `c` can start a word. -/
def startsWord (c : Char) : Bool :=
  c.isAlpha || c == '_' || (0x80 ≤ c.toNat && isLetter c)

/-- Whether `c` can go on a word. -/
def continuesWord (c : Char) : Bool := startsWord c || isNumeral c

/-- Stands for `\$` in the literal of a string token. -/
def escapedDollar : Char := '\ue000'

/-! ## Gaps -/

/-- Where the reader of a gap stands. -/
inductive Gap where
  /-- Between comments. -/
  | blank
  /-- In a comment that ends with its line. -/
  | line
  /-- In a block comment that started at `p`. -/
  | block (p : Pos)

/-- Skips blanks and comments; what is left starts with a token or is empty. -/
def skipGap : Gap → Pos → List Char → Except Diagnostic (Pos × List Char)
  | .blank, p, '/' :: '/' :: cs => skipGap .line ((p.next '/').next '/') cs
  | .blank, p, '/' :: '*' :: cs => skipGap (.block p) ((p.next '/').next '*') cs
  | .blank, p, c :: cs => if isBlank c then skipGap .blank (p.next c) cs else .ok (p, c :: cs)
  | .line, p, c :: cs => if c = '\n' then .ok (p, c :: cs) else skipGap .line (p.next c) cs
  | .block _, p, '*' :: '/' :: cs => skipGap .blank ((p.next '*').next '/') cs
  | .block opened, p, c :: cs => skipGap (.block opened) (p.next c) cs
  | .block opened, _, [] => .error (ScanError.unclosedComment.toDiagnostic opened)
  | _, p, [] => .ok (p, [])

/-! ## Lexemes -/

/-- The token at the start of a text: its kind, spelling and literal, and the text after it. -/
structure Lexeme where
  /-- What it is. -/
  kind : Kind
  /-- How it is spelled. -/
  chars : List Char
  /-- What it stands for. -/
  literal : Literal
  /-- The text after it. -/
  rest : List Char

/-- The tokens of two fixed characters. -/
def fixedPair? (a b : Char) : Option Kind :=
  match a, b with
  | '=', '=' => some .eq
  | '!', '=' => some .notEq
  | '<', '=' => some .le
  | '>', '=' => some .ge
  | '*', '=' => some .timesAssign
  | '/', '=' => some .slashAssign
  | '+', '+' => some .increment
  | '+', '=' => some .plusAssign
  | '-', '-' => some .decrement
  | '-', '=' => some .minusAssign
  | '-', '>' => some .arrow
  | '&', '&' => some .and
  | '|', '|' => some .or
  | '.', '.' => some .dotDot
  | _, _ => none

/-- The tokens of one fixed character. -/
@[grind =] def fixedChar? (c : Char) : Option Kind :=
  match c with
  | '\n' => some .newline
  | ';' => some .semicolon
  | ',' => some .comma
  | ':' => some .colon
  | '(' => some .lparen
  | ')' => some .rparen
  | '{' => some .lbrace
  | '}' => some .rbrace
  | '[' => some .lbracket
  | ']' => some .rbracket
  | '%' => some .percent
  | '=' => some .assign
  | '!' => some .bang
  | '<' => some .lt
  | '>' => some .gt
  | '*' => some .times
  | '/' => some .slash
  | '+' => some .plus
  | '-' => some .minus
  | _ => none

/-- A fixed token. -/
def fixed (kind : Kind) (chars rest : List Char) : Lexeme :=
  ⟨kind, chars, .text (String.ofList chars), rest⟩

/-- The fixed token at the start of a text; two characters go before one. -/
@[grind =] def fixed? : List Char → Option Lexeme
  | [] => none
  | [a] => (fixedChar? a).map fun k => fixed k [a] []
  | a :: b :: rest =>
    match fixedPair? a b with
    | some k => some (fixed k [a, b] rest)
    | none => (fixedChar? a).map fun k => fixed k [a] (b :: rest)

/-- The character that an escape in a string literal stands for. -/
def escaped? (c : Char) : Option Char :=
  match c with
  | 'n' => some '\n'
  | 't' => some '\t'
  | '"' => some '"'
  | '\\' => some '\\'
  | '$' => some escapedDollar
  | _ => none

/-- Reads a string literal after its opening quote. `spelled` and `value` are what was read so
far, the last character first. A literal without a closing quote runs to the end of the text. -/
def stringBody (spelled value : List Char) : List Char → Lexeme
  | [] => ⟨.string, spelled.reverse, .text (String.ofList value.reverse), []⟩
  | c :: cs =>
    if c = '"' then ⟨.string, (c :: spelled).reverse, .text (String.ofList value.reverse), cs⟩
    else if c = '\\' then
      match cs with
      | [] => stringBody (c :: spelled) (c :: value) []
      | e :: rest =>
        match escaped? e with
        | some x => stringBody (e :: c :: spelled) (x :: value) rest
        | none => stringBody (c :: spelled) (c :: value) (e :: rest)
    else stringBody (c :: spelled) (c :: value) cs

/-- The value of a run of digits. -/
def numeralValue (digits : List Char) : Nat :=
  digits.foldl (fun n c => n * 10 + (c.toNat - 0x30)) 0

/-- The number whose digits stand at the start of `cs`, after a sign if `negative`. -/
def number (negative : Bool) (cs : List Char) : Except ScanError Lexeme :=
  let digits := cs.takeWhile isNumeral
  let rest := cs.dropWhile isNumeral
  let chars := if negative then '-' :: digits else digits
  let value : Int := if negative then -numeralValue digits else numeralValue digits
  match rest.head?.filter startsWord with
  | some c => .error (.malformedNumber (String.ofList (chars ++ [c])))
  | none =>
    if -0x80000000 ≤ value ∧ value ≤ 0x7fffffff then
      .ok ⟨.int, chars, .int (Int32.ofInt value), rest⟩
    else .error (.outOfRange (String.ofList chars))

/-- The word at the start of `cs`. -/
def word (cs : List Char) : Lexeme :=
  let chars := cs.takeWhile continuesWord
  let text := String.ofList chars
  ⟨Kind.ofWord text, chars, .text text, cs.dropWhile continuesWord⟩

/-- The token that starts with `c` and goes on in `cs`, after a token of the kind `prev`. -/
def readLexeme (prev : Option Kind) (c : Char) (cs : List Char) : Except ScanError Lexeme :=
  if c = '"' then .ok (stringBody ['"'] [] cs)
  else if c = '-' ∧ cs.head?.any isNumeral ∧ ¬ prev.any Kind.endsOperand then number true cs
  else
    match fixed? (c :: cs) with
    | some l => .ok l
    | none =>
      if startsWord c then .ok (word (c :: cs))
      else if isNumeral c then number false (c :: cs)
      else .error (.unexpected c)

/-- What is left at the place `q` of a text that starts at the place `p`. -/
def skipTo (q p : Pos) : Text → Text
  | [] => []
  | g :: text => if p = q then g :: text else skipTo q (p.next g.toChar) text

/-- Scans with at most `steps` tokens to come; `acc` holds those before, the last one first. Tokens are
told by the characters of the text, and spelled as the text is. -/
def scanFrom : Nat → List Token → Pos → Text → List Char → Except Diagnostic (List Token)
  | 0, acc, _, _, _ => .ok acc.reverse
  | steps + 1, acc, p, text, cs =>
    match skipGap .blank p cs with
    | .error d => .error d
    | .ok (_, []) => .ok acc.reverse
    | .ok (q, c :: cs) =>
      match readLexeme (acc.head?.map Token.kind) c cs with
      | .error e => .error (e.toDiagnostic q)
      | .ok l =>
        let text := skipTo q p text
        let token : Token := ⟨l.kind, text.take l.chars.length, l.literal, q.line, q.col⟩
        scanFrom steps (token :: acc) (q.after l.chars) (text.drop l.chars.length) l.rest

/-- The tokens of a text. Every token takes a character at least, so there are no more of them
than characters. -/
def scan (text : Text) : Except Diagnostic (List Token) :=
  scanFrom (text.length + 1) [] .start text text.chars

end Token

end Kotlet

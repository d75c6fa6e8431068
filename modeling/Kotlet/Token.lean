import Kotlet.Text.Glyph
import Kotlet.Text.Quoted

/-!
# Tokens

* `Token.Kind` : what a token is; `Kind.text` names it;
* `Kind.ofWord` : a word is a keyword, a type name or an identifier;
* `Kind.endsOperand` : whether a minus sign after a token of this kind is an operator;
* `Token` : a token with its spelling and its place; `Token.shown` is the spelling as a string;
* `Token.agrees`, `Token.describe` : equality without the place, and the form used in messages.
-/

namespace Kotlet

namespace Token

/-- What a token is. -/
inductive Kind where
  | illegal | eof | int | ident | string
  | plus | minus | times | slash | percent
  | eq | notEq | lt | gt | le | ge | and | or
  | bang | increment | decrement
  | lparen | rparen | lbrace | rbrace | lbracket | rbracket
  | assign | plusAssign | minusAssign | timesAssign | slashAssign
  | comma | colon | semicolon | arrow | dotDot | newline
  | kwVar | kwVal | kwFun | kwIf | kwElse | kwWhile | kwFor | kwIn | kwStep | kwReturn | kwBreak
  | kwContinue | kwTrue | kwFalse | kwPrint | kwPrintln | kwArrayOf | kwMutableListOf
  | tyInt | tyBoolean | tyString | tyUnit | tyAny | tyArray | tyMutableList
  deriving DecidableEq, Inhabited

namespace Kind

/-- The name of a kind. -/
def text : Kind → String
  | illegal => "ILLEGAL"
  | eof => "EOF"
  | int => "INT"
  | ident => "IDENT"
  | string => "STRING"
  | plus => "+"
  | minus => "-"
  | times => "*"
  | slash => "/"
  | percent => "%"
  | eq => "=="
  | notEq => "!="
  | lt => "<"
  | gt => ">"
  | le => "<="
  | ge => ">="
  | and => "&&"
  | or => "||"
  | bang => "!"
  | increment => "++"
  | decrement => "--"
  | lparen => "("
  | rparen => ")"
  | lbrace => "\x7b"
  | rbrace => "\x7d"
  | lbracket => "["
  | rbracket => "]"
  | assign => "="
  | plusAssign => "+="
  | minusAssign => "-="
  | timesAssign => "*="
  | slashAssign => "/="
  | comma => ","
  | colon => ":"
  | semicolon => ";"
  | arrow => "->"
  | dotDot => ".."
  | newline => "NEWLINE"
  | kwVar => "VAR"
  | kwVal => "VAL"
  | kwFun => "FUN"
  | kwIf => "IF"
  | kwElse => "ELSE"
  | kwWhile => "WHILE"
  | kwFor => "FOR"
  | kwIn => "IN"
  | kwStep => "STEP"
  | kwReturn => "RETURN"
  | kwBreak => "BREAK"
  | kwContinue => "CONTINUE"
  | kwTrue => "TRUE"
  | kwFalse => "FALSE"
  | kwPrint => "PRINT"
  | kwPrintln => "PRINTLN"
  | kwArrayOf => "ARRAY_OF"
  | kwMutableListOf => "MUTABLE_LIST_OF"
  | tyInt => "Int"
  | tyBoolean => "Boolean"
  | tyString => "String"
  | tyUnit => "Unit"
  | tyAny => "Any"
  | tyArray => "Array"
  | tyMutableList => "MutableList"

/-- The reserved words. -/
def keywords : List (String × Kind) :=
  [("var", kwVar), ("val", kwVal), ("fun", kwFun), ("if", kwIf), ("else", kwElse),
   ("while", kwWhile), ("for", kwFor), ("in", kwIn), ("step", kwStep), ("return", kwReturn),
   ("break", kwBreak), ("continue", kwContinue), ("true", kwTrue), ("false", kwFalse),
   ("print", kwPrint), ("println", kwPrintln), ("arrayOf", kwArrayOf),
   ("mutableListOf", kwMutableListOf)]

/-- The names of the built-in types. -/
def typeNames : List (String × Kind) :=
  [("Int", tyInt), ("Boolean", tyBoolean), ("String", tyString), ("Unit", tyUnit),
   ("Any", tyAny), ("Array", tyArray), ("MutableList", tyMutableList)]

/-- The kind of a word. -/
def ofWord (word : String) : Kind :=
  ((keywords ++ typeNames).lookup word).getD ident

/-- Whether the kind is a reserved word other than a type name. -/
def isKeyword (k : Kind) : Bool := (keywords.map Prod.snd).contains k

/-- Whether the kind is the name of a type. -/
def isTypeName (k : Kind) : Bool := (typeNames.map Prod.snd).contains k

/-- Whether a token of this kind can close an operand, so that a minus sign after it is an
operator and not the sign of a literal. -/
def endsOperand (k : Kind) : Bool :=
  match k with
  | int | ident | string | kwTrue | kwFalse | rparen | rbracket | rbrace | increment
  | decrement => true
  | _ => k.isTypeName

end Kind

/-- What a token stands for. -/
inductive Literal where
  /-- The value of an integer literal. -/
  | int (n : Int32)
  /-- The text of a string literal after its escapes; for every other token its spelling. -/
  | text (s : String)
  /-- Nothing: the end of the input. -/
  | none
  deriving DecidableEq, Inhabited

/-- The text of a literal. -/
def Literal.toText : Literal → String
  | .int n => toString n.toInt
  | .text s => s
  | .none => ""

end Token

/-- One lexical unit with its spelling and its place. -/
structure Token where
  /-- What it is. -/
  kind : Token.Kind
  /-- How it is spelled. -/
  lexeme : Text
  /-- What it stands for. -/
  literal : Token.Literal
  /-- Its line, from 1. -/
  line : Nat
  /-- Its column in characters, from 1. -/
  col : Nat
  deriving DecidableEq, Inhabited

namespace Token

/-- The spelling, where U+FFFD stands for each stray byte. Only strings can have some. -/
def shown (t : Token) : String := t.lexeme.shown

/-- A token that is its own spelling. -/
def plain (kind : Kind) (lexeme : String) (line col : Nat) : Token :=
  ⟨kind, lexeme, .text lexeme, line, col⟩

/-- Whether two tokens agree in kind and literal; places do not matter. -/
def agrees (a b : Token) : Bool := a.kind == b.kind && a.literal == b.literal

/-- A token as messages name it. -/
def describe (t : Token) : String :=
  match t.kind with
  | .int => "INT(" ++ t.literal.toText ++ ")"
  | .ident => "IDENT(" ++ t.literal.toText ++ ")"
  | .string => "STRING(" ++ quote t.literal.toText ++ ")"
  | .newline => "NEWLINE"
  | .eof => "end of input"
  | _ => "'" ++ t.shown ++ "'"

end Token

end Kotlet

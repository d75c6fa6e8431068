import Kotlet.Yaml.Scalar

/-!
# Tokens of documents

The text of a document is cut into tokens. In a block, columns tell where collections start and
end; inside brackets they do not matter. A key is known to be one only when its colon comes, so
every token that may start a key is remembered until then.

* `Yaml.Token` : the tokens;
* `Yaml.Key` : a place where a key may have started;
* `Yaml.Scanner` : what is known in the middle of a text;
* `Yaml.Scanner.fetch` : the next tokens;
* `Yaml.scan` : the tokens of a text, up to its end or to the first failure.
-/

namespace Kotlet
namespace Yaml

/-- The tokens of a document. -/
inductive Token where
  | documentStart | documentEnd | streamEnd
  | blockSequenceStart | blockMappingStart | blockEnd
  | flowSequenceStart | flowSequenceEnd | flowMappingStart | flowMappingEnd
  /-- A dash, and a comma. -/
  | blockEntry | flowEntry
  /-- What comes next is a key, or a value. -/
  | key | value
  /-- The name of a node, and the node of a name. -/
  | anchor (name : String) | reference (name : String)
  /-- The type of a node. -/
  | tag (text : String)
  /-- A scalar. -/
  | scalar (quoted : Bool) (text : String)
  deriving DecidableEq, Inhabited

/-- A place where a key may have started. -/
structure Key where
  /-- The number of its first token. -/
  number : Nat
  /-- The place. -/
  place : Place
  /-- Whether there must be a key. -/
  isRequired : Bool
  deriving Inhabited

/-- What is known in the middle of a text. -/
structure Scanner where
  /-- What is left of the text. -/
  cursor : Cursor
  /-- The tokens so far, the last one first. -/
  tokens : List Token
  /-- The number of tokens so far. -/
  count : Nat
  /-- The column behind the innermost block collection; 0 when there is none. -/
  level : Nat
  /-- The levels around it, from the inside out. -/
  levels : List Nat
  /-- The number of open brackets. -/
  depth : Nat
  /-- Where the next key may have started. -/
  key? : Option Key
  /-- The same outside of each open bracket, from the inside out. -/
  keys : List (Option Key)
  /-- Whether a key may start here. -/
  mayStartKey : Bool
  /-- More than the length of the text. -/
  turns : Nat
  deriving Inhabited

namespace Scanner

/-- Before a text. -/
def start (cs : List Char) : Scanner :=
  ⟨.start cs, [], 0, 0, [], 0, none, [], true, cs.length + 2⟩

/-- The most collections inside each other. -/
def deepest : Nat := 10000

/-- The most characters from the start of a key to its colon. -/
def longestKey : Nat := 1024

/-- Whether brackets are open. -/
def inFlow (s : Scanner) : Bool := 0 < s.depth

/-- Adds a token. -/
def push (s : Scanner) (t : Token) : Scanner :=
  { s with tokens := t :: s.tokens, count := s.count + 1 }

/-- Adds a token in front of the one that has a number. -/
def insert (s : Scanner) (number : Nat) (t : Token) : Scanner :=
  { s with tokens := s.tokens.insertIdx (s.count - number) t, count := s.count + 1 }

/-- Goes on behind `n` characters. -/
def skip (s : Scanner) (n : Nat) : Scanner := { s with cursor := s.cursor.skip n }

/-! ## Keys -/

/-- Gives up the key that may have started, unless there must be one. -/
def dropKey? (s : Scanner) : Option Scanner :=
  if s.key?.any Key.isRequired then none else some { s with key? := none }

/-- Remembers that a key may start here. There must be one where a block mapping goes on. -/
def saveKey? (s : Scanner) : Option Scanner :=
  if s.mayStartKey then
    let isRequired := !s.inFlow && s.level == s.cursor.column + 1
    s.dropKey?.map fun s =>
      { s with key? := some ⟨s.count, s.cursor.place, isRequired⟩ }
  else some s

/-- Whether a colon can still turn a token into a key: it stands on the same line, and not too far
away. -/
def isFresh (s : Scanner) (k : Key) : Bool :=
  k.place.line == s.cursor.place.line && s.cursor.place.index ≤ k.place.index + longestKey

/-! ## Columns -/

/-- Ends block collections as long as their level is above `limit`; `levels` are those around
them. -/
def endLevels (limit : Nat) (s : Scanner) : List Nat → Scanner
  | [] => { s with levels := [] }
  | outer :: levels =>
    if limit < s.level then endLevels limit { s.push .blockEnd with level := outer } levels
    else { s with levels := outer :: levels }

/-- Ends block collections above a level; brackets are not touched. -/
def unroll (s : Scanner) (limit : Nat) : Scanner :=
  if s.inFlow then s else endLevels limit s s.levels

/-- Starts a block collection at a column, unless there is one already. Its first token gets the
given number. -/
def roll? (s : Scanner) (column number : Nat) (t : Token) : Option Scanner :=
  if s.inFlow || column < s.level then some s
  else if deepest ≤ s.levels.length then none
  else
    some { s.insert number t with level := column + 1, levels := s.level :: s.levels }

/-! ## Gaps -/

/-- Skips blanks, comments and line ends. After a line end a key may start, except inside brackets.
Where a key may start in a block, a tab is no blank. -/
def skipGap (inFlow mayStartKey inComment : Bool) (p : Place) : List Char → Bool × Cursor
  | [] => (mayStartKey, ⟨[], p⟩)
  | '\r' :: '\n' :: cs => skipGap inFlow (mayStartKey || !inFlow) false (p.newline 2) cs
  | c :: cs =>
    if isBreak c then skipGap inFlow (mayStartKey || !inFlow) false (p.newline 1) cs
    else if inComment || c == '#' then skipGap inFlow mayStartKey true p.next cs
    else if c == ' ' || (c == '\t' && (inFlow || !mayStartKey)) then
      skipGap inFlow mayStartKey false p.next cs
    else (mayStartKey, ⟨c :: cs, p⟩)

/-- Goes on at the next token. Block collections that are indented more than it end. -/
def toToken (s : Scanner) : Scanner :=
  let c := s.cursor
  let c := if c.place.index = 0 ∧ c.rest.head? = some '\ufeff' then c.skip 1 else c
  let (mayStartKey, c) := skipGap s.inFlow s.mayStartKey false c.place c.rest
  let s := { s with cursor := c, mayStartKey := mayStartKey }
  s.unroll (c.column + 1)

/-! ## Tokens -/

/-- A marker of three characters, which ends all blocks. -/
def marker? (s : Scanner) (t : Token) : Option Scanner := do
  let s ← (s.unroll 0).dropKey?
  return ({ s with mayStartKey := false }.push t).skip 3

/-- An opening bracket, which may start a key itself. -/
def open? (s : Scanner) (t : Token) : Option Scanner := do
  let s ← s.saveKey?
  if deepest ≤ s.depth then none
  else
    let s :=
      { s with depth := s.depth + 1, keys := s.key? :: s.keys, key? := none, mayStartKey := true }
    return (s.push t).skip 1

/-- A closing bracket. -/
def close? (s : Scanner) (t : Token) : Option Scanner := do
  let s ← s.dropKey?
  let s :=
    match s.keys with
    | [] => s
    | k :: keys => { s with depth := s.depth - 1, key? := k, keys := keys }
  return ({ s with mayStartKey := false }.push t).skip 1

/-- A comma. -/
def comma? (s : Scanner) : Option Scanner := do
  let s ← s.dropKey?
  return ({ s with mayStartKey := true }.push .flowEntry).skip 1

/-- A dash, which may start a sequence. -/
def dash? (s : Scanner) : Option Scanner := do
  let s ←
    if s.inFlow then some s
    else if s.mayStartKey then s.roll? s.cursor.column s.count .blockSequenceStart
    else none
  let s ← s.dropKey?
  return ({ s with mayStartKey := true }.push .blockEntry).skip 1

/-- A question mark, which announces a key. -/
def question? (s : Scanner) : Option Scanner := do
  let s ←
    if s.inFlow then some s
    else if s.mayStartKey then s.roll? s.cursor.column s.count .blockMappingStart
    else none
  let s ← s.dropKey?
  return ({ s with mayStartKey := !s.inFlow }.push .key).skip 1

/-- A colon. If a key may have started, it did. -/
def colon? (s : Scanner) : Option Scanner := do
  match s.key?.filter s.isFresh with
  | some k =>
    let s := { s.insert k.number .key with key? := none }
    let s ← s.roll? k.place.column k.number .blockMappingStart
    return ({ s with mayStartKey := false }.push .value).skip 1
  | none =>
    let s ← s.dropKey?
    let s ←
      if s.inFlow then some s
      else if s.mayStartKey then s.roll? s.cursor.column s.count .blockMappingStart
      else none
    return ({ s with mayStartKey := !s.inFlow }.push .value).skip 1

/-- Whether a character may be part of a name. -/
def isNameChar (c : Char) : Bool := c.isAlphanum || c == '_' || c == '-'

/-- Whether a name may end before a text. -/
def endsName (cs : List Char) : Bool :=
  startsGap cs || cs.head?.any fun c => "?:,]\x7d%@`".toList.contains c

/-- The name of a node, or the node of a name. -/
def name? (s : Scanner) (token : String → Token) : Option Scanner := do
  let s ← s.saveKey?
  let c := s.cursor.skip 1
  let (acc, c) := Cursor.lineWhile isNameChar [] c.place c.rest
  if acc.isEmpty || !endsName c.rest then none
  else
    let s := { s with cursor := c, mayStartKey := false }
    return s.push (token (String.ofList acc.reverse))

/-- Whether a character may be part of a tag. -/
def isTagChar (c : Char) : Bool := isNameChar c || ";/?:@&=+$,.!~*'()[]".toList.contains c

/-- What tags of the language itself start with. -/
def ownTags : String := "tag:yaml.org,2002:"

/-- A tag in its short form. -/
def shortTag (text : String) : String :=
  let cs := text.toList
  if ownTags.toList.isPrefixOf cs then "!!" ++ String.ofList (cs.drop ownTags.length) else text

/-- The text of a tag, and the cursor behind it. A tag is written in full between angle brackets,
or starts with one or two exclamation marks. -/
def tagText? (c : Cursor) : Option (String × Cursor) :=
  match c.rest with
  | '!' :: '<' :: rest =>
    let (acc, c) := Cursor.lineWhile isTagChar [] (c.skip 2).place rest
    if acc.isEmpty || c.rest.head? != some '>' then none
    else some (shortTag (String.ofList acc.reverse), c.skip 1)
  | '!' :: '!' :: rest =>
    let (acc, c) := Cursor.lineWhile isTagChar [] (c.skip 2).place rest
    if acc.isEmpty then none else some ("!!" ++ String.ofList acc.reverse, c)
  | _ =>
    let (handle, _) := Cursor.lineWhile isNameChar [] (c.skip 1).place (c.rest.drop 1)
    let (acc, after) := Cursor.lineWhile isTagChar [] (c.skip 1).place (c.rest.drop 1)
    -- A second exclamation mark behind a name would refer to a handle, and none is declared.
    if (c.rest.drop (handle.length + 1)).head? == some '!' then none
    else some ("!" ++ String.ofList acc.reverse, after)

/-- A tag. -/
def tag? (s : Scanner) : Option Scanner := do
  let s ← s.saveKey?
  let (text, c) ← tagText? s.cursor
  if startsGap c.rest then
    return { s with cursor := c, mayStartKey := false }.push (.tag text)
  else none

/-- A block of lines. -/
def block? (s : Scanner) : Option Scanner := do
  let s ← s.dropKey?
  let (text, c) ← Block.read s.turns s.level s.cursor
  return { s with cursor := c, mayStartKey := true }.push (.scalar true text)

/-- A scalar in quotes. -/
def quoted? (s : Scanner) : Option Scanner := do
  let s ← s.saveKey?
  let (text, c) ← Quoted.read s.turns s.cursor
  return { s with cursor := c, mayStartKey := false }.push (.scalar true text)

/-- A scalar without quotes. After a line end behind it a key may start. -/
def plain? (s : Scanner) : Option Scanner := do
  let s ← s.saveKey?
  let (text, broken, c) ← Plain.read s.turns s.inFlow s.level s.cursor
  return { s with cursor := c, mayStartKey := broken }.push (.scalar false text)

/-- Whether a character has a meaning of its own, so that no scalar starts with it. -/
def isIndicator (c : Char) : Bool := "-?:,[]\x7b\x7d#&*!|>'\"%@`".toList.contains c

/-- Whether a scalar without quotes starts with a character before a text. -/
def startsPlain (s : Scanner) (c : Char) (cs : List Char) : Bool :=
  !(isGap c || isIndicator c)
    || (c == '-' && !cs.head?.any isBlank)
    || (!s.inFlow && (c == '?' || c == ':') && !startsGap cs)

/-- The end of the text. -/
def finish? (s : Scanner) : Option Scanner := do
  let s ← (s.unroll 0).dropKey?
  return s.push .streamEnd

/-- The token that starts with a character before a text. -/
def tokenAt? (s : Scanner) (c : Char) (cs : List Char) : Option Scanner :=
  if s.cursor.column = 0 ∧ c = '%' then none
  else if s.cursor.atMarker '-' then s.marker? .documentStart
  else if s.cursor.atMarker '.' then s.marker? .documentEnd
  else if c = '[' then s.open? .flowSequenceStart
  else if c = '\x7b' then s.open? .flowMappingStart
  else if c = ']' then s.close? .flowSequenceEnd
  else if c = '\x7d' then s.close? .flowMappingEnd
  else if c = ',' then s.comma?
  else if c = '-' ∧ startsGap cs then s.dash?
  else if c = '?' ∧ (s.inFlow ∨ startsGap cs) then s.question?
  else if c = ':' ∧ (s.inFlow ∨ startsGap cs) then s.colon?
  else if c = '*' then s.name? .reference
  else if c = '&' then s.name? .anchor
  else if c = '!' then s.tag?
  else if (c = '|' ∨ c = '>') ∧ !s.inFlow then s.block?
  else if c = '\'' ∨ c = '"' then s.quoted?
  else if s.startsPlain c cs then s.plain?
  else none

/-- The next tokens; nothing if there are none. -/
def fetch (s : Scanner) : Option Scanner :=
  let s := s.toToken
  match s.cursor.rest with
  | [] => s.finish?
  | c :: cs => s.tokenAt? c cs

/-- Whether the token of a number may still become a key. -/
def holds (s : Scanner) (number : Nat) : Bool :=
  (s.key? :: s.keys).any fun k => k.any fun k => k.number == number && s.isFresh k

/-- Whether all of the text was read. -/
def isDone (s : Scanner) : Bool := s.tokens.head? == some .streamEnd

/-- Fetches tokens up to the end of the text, or to the first failure. -/
def fetchAll : Nat → Scanner → Scanner
  | 0, s => s
  | turns + 1, s =>
    match s.fetch with
    | none => s
    | some next => if next.isDone then next else fetchAll turns next

end Scanner

/-- The tokens of a text, as far as there are any. -/
def scan (cs : List Char) : Scanner :=
  let s := Scanner.start cs
  s.fetchAll s.turns

end Yaml
end Kotlet

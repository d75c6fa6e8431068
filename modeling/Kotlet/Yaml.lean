import Kotlet.Yaml.Token

/-!
# Documents of keys and values

Settings and suites are written in YAML. A document is a scalar, a sequence or a mapping.

* `Yaml` : a document;
* `Yaml.Read` : reading tokens; nodes with a name are remembered, for others to refer to;
* `Yaml.node` : a document at the next tokens;
* `Yaml.parse?` : the document that a text holds; a text without tokens holds the null scalar.

What follows the first document of a text is not looked at, except for the next three tokens.
-/

namespace Kotlet

/-- A document. -/
inductive Yaml where
  /-- A text, with or without quotes; the tag is empty if there is none. -/
  | scalar (tag : String) (quoted : Bool) (text : String)
  /-- Items in order. -/
  | sequence (items : List Yaml)
  /-- Keys with their values in order. -/
  | mapping (entries : List (Yaml × Yaml))
  deriving Inhabited

namespace Yaml

/-- The document without content. -/
def null : Yaml := .scalar "" false ""

/-! ## Reading tokens -/

/-- The tokens that are left, and the nodes that have names. -/
structure Reader where
  /-- The tokens that are left. -/
  rest : List Token
  /-- The nodes that have names, the last one first. -/
  named : List (String × Yaml)

/-- Reading tokens. -/
abbrev Read := StateT Reader Option

namespace Read

/-- The tokens do not fit. -/
def refuse {α : Type} : Read α := fun _ => none

/-- The next token. -/
def peek : Read Token := fun r => r.rest.head?.map fun t => (t, r)

/-- Goes on behind the next token. -/
def skip : Read Unit := modify fun r => { r with rest := r.rest.tail }

/-- Whether the next token is one of some. -/
def isNext (ts : List Token) : Read Bool := return ts.contains (← peek)

/-- Skips a token if it comes next, and tells whether it did. -/
def accept (t : Token) : Read Bool := do
  if (← peek) = t then
    skip
    return true
  else return false

/-- A node gets a name. -/
def remember (name : String) (doc : Yaml) : Read Unit :=
  modify fun r => { r with named := (name, doc) :: r.named }

/-- No node has a name any more. -/
def forget (name : String) : Read Unit :=
  modify fun r => { r with named := r.named.filter fun n => n.1 != name }

/-- The node that has a name. -/
def nodeNamed (name : String) : Read Yaml := do
  match (← get).named.lookup name with
  | some doc => return doc
  | none => refuse

/-- The name that comes next, if one does. -/
def anchor? : Read (Option String) := do
  match ← peek with
  | .anchor name =>
    skip
    return some name
  | _ => return none

/-- The tag that comes next, if one does. -/
def tag? : Read (Option String) := do
  match ← peek with
  | .tag text =>
    skip
    return some text
  | _ => return none

/-- The name and the tag of the next node; they come in either order. -/
def properties : Read (Option String × Option String) := do
  let first ← anchor?
  let tag ← tag?
  let name ← if first.isNone && tag.isSome then anchor? else pure first
  return (name, tag)

end Read

open Read

/-- A tag that says nothing counts as none. -/
def tagOf (tag : Option String) : String := (tag.filter (· != "!")).getD ""

/-! ## Nodes -/

mutual

/-- A document at the next tokens. Block collections are read only if `inBlock`; with `indentless`,
a dash starts a sequence that is not indented. -/
def node (inBlock indentless : Bool) : Nat → Read Yaml
  | 0 => refuse
  | turns + 1 => do
    match ← peek with
    | .reference name =>
      skip
      nodeNamed name
    | _ =>
      let (name, tag) ← properties
      name.forM forget
      let doc ← content inBlock indentless (name.isSome || tag.isSome) (tagOf tag) turns
      name.forM fun n => remember n doc
      return doc

/-- A document behind its name and its tag, if it has any; then it may be empty. -/
def content (inBlock indentless hasProperties : Bool) (tag : String) : Nat → Read Yaml
  | 0 => refuse
  | turns + 1 => do
    let empty : Read Yaml := if hasProperties then return .scalar tag false "" else refuse
    match ← peek with
    | .scalar quoted text =>
      skip
      return .scalar tag quoted text
    | .flowSequenceStart =>
      skip
      return .sequence (← flowItems true [] turns)
    | .flowMappingStart =>
      skip
      return .mapping (← flowPairs true [] turns)
    | .blockEntry => if indentless then return .sequence (← dashItems [] turns) else empty
    | .blockSequenceStart =>
      if inBlock then
        skip
        return .sequence (← blockItems [] turns)
      else empty
    | .blockMappingStart =>
      if inBlock then
        skip
        return .mapping (← blockPairs [] turns)
      else empty
    | _ => empty

/-- A document, unless one of some tokens comes next. -/
def nodeUnless (inBlock indentless : Bool) (ends : List Token) : Nat → Read Yaml
  | 0 => refuse
  | turns + 1 => do
    if ← isNext ends then return null else node inBlock indentless turns

/-- The items of a block sequence, after those in `acc`, the last one first. -/
def blockItems (acc : List Yaml) : Nat → Read (List Yaml)
  | 0 => refuse
  | turns + 1 => do
    if ← accept .blockEntry then
      let item ← nodeUnless true false [.blockEntry, .blockEnd] turns
      blockItems (item :: acc) turns
    else if ← accept .blockEnd then return acc.reverse
    else refuse

/-- The items of a sequence that is not indented. -/
def dashItems (acc : List Yaml) : Nat → Read (List Yaml)
  | 0 => refuse
  | turns + 1 => do
    if ← accept .blockEntry then
      let item ← nodeUnless true false [.blockEntry, .key, .value, .blockEnd] turns
      dashItems (item :: acc) turns
    else return acc.reverse

/-- The keys and values of a block mapping. -/
def blockPairs (acc : List (Yaml × Yaml)) : Nat → Read (List (Yaml × Yaml))
  | 0 => refuse
  | turns + 1 => do
    if ← accept .key then
      let ends := [.key, .value, .blockEnd]
      let key ← nodeUnless true true ends turns
      let value ← if ← accept .value then nodeUnless true true ends turns else pure null
      blockPairs ((key, value) :: acc) turns
    else if ← accept .blockEnd then return acc.reverse
    else refuse

/-- The items up to a closing bracket. A key with its value is a mapping of its own. -/
def flowItems (isFirst : Bool) (acc : List Yaml) : Nat → Read (List Yaml)
  | 0 => refuse
  | turns + 1 => do
    if ← accept .flowSequenceEnd then return acc.reverse
    else if isFirst || (← accept .flowEntry) then
      if ← accept .flowSequenceEnd then return acc.reverse
      else if ← accept .key then
        let ends := [.flowEntry, .flowSequenceEnd]
        let isEmpty ← isNext (.value :: ends)
        -- The token behind an empty key is lost.
        let key ← if isEmpty then skip *> pure null else node false false turns
        let value ← if ← accept .value then nodeUnless false false ends turns else pure null
        flowItems false (.mapping [(key, value)] :: acc) turns
      else
        let item ← node false false turns
        flowItems false (item :: acc) turns
    else refuse

/-- The keys and values up to a closing brace. A key without a colon has the null value. -/
def flowPairs (isFirst : Bool) (acc : List (Yaml × Yaml)) : Nat → Read (List (Yaml × Yaml))
  | 0 => refuse
  | turns + 1 => do
    if ← accept .flowMappingEnd then return acc.reverse
    else if isFirst || (← accept .flowEntry) then
      if ← accept .flowMappingEnd then return acc.reverse
      else if ← accept .key then
        let ends := [.flowEntry, .flowMappingEnd]
        let key ← nodeUnless false false (.value :: ends) turns
        let value ← if ← accept .value then nodeUnless false false ends turns else pure null
        flowPairs false ((key, value) :: acc) turns
      else
        let key ← node false false turns
        flowPairs false ((key, null) :: acc) turns
    else refuse

end

/-- The first document; `turns` bounds the steps. -/
def document (turns : Nat) : Read Yaml := do
  if ← accept .documentStart then
    nodeUnless true false [.documentStart, .documentEnd, .streamEnd] turns
  else nodeUnless true false [.streamEnd] turns

/-- More steps than a document of so many tokens takes. -/
def stepsFor (count : Nat) : Nat := 4 * count + 8

/-- Whether the tokens behind the first `number` are known well enough: the text was read to its
end, or there are three of them and the first can no longer become a key. -/
def isKnownFrom (s : Scanner) (number : Nat) : Bool :=
  s.isDone || (number + 2 < s.count && !s.holds number)

/-- The document that a text holds. -/
def parse? (cs : List Char) : Option Yaml :=
  let s := scan cs
  match (document (stepsFor s.count)).run ⟨s.tokens.reverse, []⟩ with
  | some (doc, r) => if isKnownFrom s (s.count - r.rest.length) then some doc else none
  | none => none

end Yaml

end Kotlet

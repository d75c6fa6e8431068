import Kotlet.Yaml
import Kotlet.Yaml.Encoding
import Kotlet.Yaml.Number
import Kotlet.Yaml.Timestamp
import Std.Data.HashSet

/-!
# Documents as values

A scalar without quotes may stand for nothing, a truth value, a number or a time; in quotes it is a
text. A tag tells what it has to be. A place that wants a text takes any scalar as it is written.
Where nothing is given, the value is left out.

* `Yaml.Resolved`, `Yaml.resolve` : what a scalar stands for;
* `Yaml.asString`, `Yaml.asBool`, `Yaml.asWord`, `Yaml.asStrings` : documents as values;
* `Yaml.entries`, `Yaml.field` : the keys and values of a document, and the value of a key;
* `Yaml.isReadable` : whether a document has a value at all;
* `Yaml.parse` : the document that some bytes spell.
-/

namespace Kotlet
namespace Yaml

/-- Why a document is refused. -/
inductive Refusal where
  /-- The text is no document. -/
  | malformed
  /-- A value of the wrong type. -/
  | wrongType
  /-- A key that stands twice in a mapping. -/
  | duplicateKey
  deriving DecidableEq, Inhabited

/-! ## Scalars -/

/-- What a scalar stands for. -/
inductive Resolved where
  /-- Nothing. -/
  | null
  /-- A truth value. -/
  | bool (b : Bool)
  /-- A number. -/
  | number (n : Number)
  /-- An infinite number, or what is no number. -/
  | unbounded
  /-- A time. -/
  | time
  /-- A text. -/
  | text (s : String)
  deriving DecidableEq, Inhabited

/-- What the words with a meaning stand for. -/
def word? (text : String) : Option Resolved :=
  if ["", "~", "null", "Null", "NULL"].contains text then some .null
  else if ["true", "True", "TRUE"].contains text then some (.bool true)
  else if ["false", "False", "FALSE"].contains text then some (.bool false)
  else if [".nan", ".NaN", ".NAN"].contains text then some .unbounded
  else if [".inf", ".Inf", ".INF"].any fun s => [s, "+" ++ s, "-" ++ s].contains text then
    some .unbounded
  else none

/-- What a scalar without quotes stands for; whether it may be a time is told. -/
def resolvePlain (mayBeTime : Bool) (text : String) : Resolved :=
  let cs := text.toList
  let isNumeric := cs.head?.any fun c => c.isDigit || c == '+' || c == '-'
  match word? text with
  | some r => r
  | none =>
    if isNumeric && mayBeTime && isTimestamp cs then .time
    else
      let number :=
        if isNumeric then Number.read? cs
        else if cs.head? = some '.' then Number.readPoint? cs
        else none
      match number with
      | some n => .number n
      | none => .text text

/-- Whether a scalar is what a tag demands. A whole number is a double as well. -/
def Resolved.fits (tag : String) : Resolved → Bool
  | .null => tag == "!!null"
  | .bool _ => tag == "!!bool"
  | .number (.whole _) => tag == "!!int" || tag == "!!float"
  | .number (.double _ _) => tag == "!!float"
  | .unbounded => tag == "!!float"
  | .time => tag == "!!timestamp"
  | .text _ => false

/-- What a scalar stands for. Tags that demand nothing leave the text as it is. -/
def resolve (tag : String) (quoted : Bool) (text : String) : Except Refusal Resolved :=
  if tag = "" then .ok (if quoted then .text text else resolvePlain true text)
  else if ["!!null", "!!bool", "!!int", "!!float", "!!timestamp"].contains tag then
    let r := resolvePlain (tag == "!!timestamp") text
    if r.fits tag then .ok r else .error .wrongType
  else if tag = "!!binary" then .error .wrongType
  else .ok (.text text)

/-- What a document stands for that is a scalar. -/
def asScalar : Yaml → Except Refusal Resolved
  | .scalar tag quoted text => resolve tag quoted text
  | _ => .error .wrongType

/-- A text. -/
def asString : Yaml → Except Refusal (Option String)
  | .scalar tag quoted text => do
    return if (← resolve tag quoted text) = .null then none else some text
  | _ => .error .wrongType

/-- A truth value; some more words are known for them here. -/
def asBool (doc : Yaml) : Except Refusal (Option Bool) := do
  match ← doc.asScalar with
  | .null => return none
  | .bool b => return some b
  | .text s =>
    if ["y", "Y", "yes", "Yes", "YES", "on", "On", "ON"].contains s then return some true
    else if ["n", "N", "no", "No", "NO", "off", "Off", "OFF"].contains s then return some false
    else .error .wrongType
  | _ => .error .wrongType

/-- A number cut towards zero. -/
def Number.truncate : Number → Int
  | .whole n => n
  | .double negative size => if negative then -(size.floor : Int) else size.floor

/-- A number of 16 bits. -/
def asWord (doc : Yaml) : Except Refusal (Option UInt16) := do
  match ← doc.asScalar with
  | .null => return none
  | .number n =>
    let n := n.truncate
    if 0 ≤ n ∧ n ≤ 65535 then return some (UInt16.ofNat n.toNat) else .error .wrongType
  | _ => .error .wrongType

/-! ## Sequences -/

/-- The items of a document, given how to read one; those that are left out do not count. -/
def itemsOf {α : Type} (read : Yaml → Except Refusal (Option α)) :
    List Yaml → Except Refusal (List α)
  | [] => .ok []
  | item :: items => do
    let first ← read item
    let rest ← itemsOf read items
    return first.toList ++ rest

/-- A list of values, given how to read one. -/
def asList {α : Type} (read : Yaml → Except Refusal (Option α)) :
    Yaml → Except Refusal (Option (List α))
  | .sequence items => (itemsOf read items).map some
  | doc => do if (← doc.asScalar) = .null then return none else .error .wrongType

/-- A list of texts. -/
def asStrings : Yaml → Except Refusal (Option (List String)) := asList asString

/-! ## Mappings -/

/-- The text of a key. -/
def keyText? : Yaml → Option String
  | .scalar _ _ text => some text
  | _ => none

/-- Whether some texts differ from each other. -/
def areDistinct (texts : List String) : Bool := (Std.HashSet.ofList texts).size == texts.length

/-- Keys must be scalars whose texts differ from each other. -/
def checkKeys (es : List (Yaml × Yaml)) : Except Refusal Unit :=
  match es.mapM fun e => keyText? e.1 with
  | none => .error .wrongType
  | some texts => if areDistinct texts then .ok () else .error .duplicateKey

/-- Whether a key stands for the keys and values of other mappings. -/
def isMerge : Yaml → Bool
  | .scalar tag quoted text => text == "<<" && (tag == "!!merge" || (tag == "" && !quoted))
  | _ => false

/-- Whether a document is a mapping. -/
def isMapping : Yaml → Bool
  | .mapping _ => true
  | _ => false

mutual

/-- The keys and values of a mapping, those of its own first. -/
def pairsOf : List (Yaml × Yaml) → Except Refusal (List (String × Yaml) × List (String × Yaml))
  | [] => .ok ([], [])
  | (key, value) :: es => do
    let (own, merged) ← pairsOf es
    if key.isMerge then return (own, (← mergedFrom value) ++ merged)
    else
      match ← key.asString with
      | none => return (own, merged)
      | some text => return ((text, value) :: own, merged)

/-- The keys and values that a mapping takes over: those of a mapping, or of a sequence of them. -/
def mergedFrom : Yaml → Except Refusal (List (String × Yaml))
  | .mapping es => do
    checkKeys es
    let (own, merged) ← pairsOf es
    return own ++ merged
  | .sequence items => mergedFromAll items
  | .scalar _ _ _ => .error .wrongType

/-- The keys and values that a mapping takes over from a sequence of mappings. -/
def mergedFromAll : List Yaml → Except Refusal (List (String × Yaml))
  | [] => .ok []
  | item :: items => do
    if item.isMapping then return (← mergedFrom item) ++ (← mergedFromAll items)
    else .error .wrongType

end

/-- The keys and values of a document; nothing if the document is null. If a key stands there
twice, the first one counts. -/
def entries : Yaml → Except Refusal (Option (List (String × Yaml)))
  | .mapping es => (mergedFrom (.mapping es)).map some
  | doc => do if (← doc.asScalar) = .null then return none else .error .wrongType

/-- The value of a key, given how to read it. -/
def field {α : Type} (es : List (String × Yaml)) (key : String)
    (read : Yaml → Except Refusal (Option α)) : Except Refusal (Option α) :=
  match es.lookup key with
  | some value => read value
  | none => .ok none

/-! ## Any value -/

mutual

/-- Whether a document has a value at all. -/
def isReadable : Yaml → Bool
  | .scalar tag quoted text => (resolve tag quoted text).isOk
  | .sequence items => areReadable items
  | .mapping es => (checkKeys es).isOk && haveReadablePairs es

/-- Whether some documents have values. -/
def areReadable : List Yaml → Bool
  | [] => true
  | item :: items => isReadable item && areReadable items

/-- Whether some keys and values have values themselves. -/
def haveReadablePairs : List (Yaml × Yaml) → Bool
  | [] => true
  | (key, value) :: es =>
    let canMerge := !key.isMerge || (mergedFrom value).isOk
    isReadable key && canMerge && isReadable value && haveReadablePairs es

end

/-- The document that some bytes spell. -/
def parse (bytes : List UInt8) : Except Refusal Yaml :=
  match characters? bytes >>= parse? with
  | some doc => .ok doc
  | none => .error .malformed

end Yaml
end Kotlet

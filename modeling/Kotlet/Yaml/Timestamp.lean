/-!
# Dates and times in documents

A date is a year of four digits, a month and a day. A time may follow it: after blanks, or after a
`T` together with a zone.

* `Yaml.Timestamp.daysIn` : the days of a month;
* `Yaml.isTimestamp` : whether a text is a date, or a date with a time.
-/

namespace Kotlet
namespace Yaml
namespace Timestamp

/-- Whether a year has 366 days. -/
def isLeap (year : Nat) : Bool := year % 4 == 0 && (year % 100 != 0 || year % 400 == 0)

/-- The number of days in a month. -/
def daysIn (year month : Nat) : Nat :=
  if month = 2 then (if isLeap year then 29 else 28)
  else if month = 4 ∨ month = 6 ∨ month = 9 ∨ month = 11 then 30
  else 31

/-- The number that some digits spell. -/
def ofDigits (cs : List Char) : Nat := cs.foldl (fun n c => n * 10 + (c.toNat - '0'.toNat)) 0

/-- A number of one or two digits, if it is below a bound, and the rest. -/
def number? (bound : Nat) (cs : List Char) : Option (Nat × List Char) :=
  let digits := (cs.take 2).takeWhile Char.isDigit
  let n := ofDigits digits
  if digits = [] ∨ bound ≤ n then none else some (n, cs.drop digits.length)

/-- What follows a character, if a text starts with it. -/
def after? (c : Char) : List Char → Option (List Char)
  | x :: cs => if x = c then some cs else none
  | [] => none

/-- What follows the date at the start of a text. -/
def date? (cs : List Char) : Option (List Char) := do
  let digits := cs.takeWhile Char.isDigit
  if digits.length = 4 then
    let rest ← after? '-' (cs.drop 4)
    let (month, rest) ← number? 13 rest
    let (day, rest) ← after? '-' rest >>= number? 32
    if month = 0 ∨ day = 0 ∨ daysIn (ofDigits digits) month < day then none else some rest
  else none

/-- What follows the fraction of a second, if there is one. -/
def fraction (cs : List Char) : List Char :=
  let digits := cs.tail.takeWhile Char.isDigit
  if (cs.head? = some '.' ∨ cs.head? = some ',') ∧ digits ≠ [] then cs.drop (digits.length + 1) else cs

/-- What follows the time at the start of a text. -/
def time? (cs : List Char) : Option (List Char) := do
  let (_, rest) ← number? 24 cs
  let (_, rest) ← after? ':' rest >>= number? 60
  let (_, rest) ← after? ':' rest >>= number? 60
  return fraction rest

/-- A number of two digits, if it is not above a bound. -/
def twoDigits (bound : Nat) (a b : Char) : Bool :=
  a.isDigit && b.isDigit && ofDigits [a, b] ≤ bound

/-- Whether a text is a zone. -/
def isZone : List Char → Bool
  | ['Z'] => true
  | [sign, a, b, colon, c, d] =>
    (sign == '+' || sign == '-') && colon == ':' && twoDigits 24 a b && twoDigits 60 c d
  | _ => false

end Timestamp

open Timestamp in
/-- Whether a text is a date, or a date with a time. -/
def isTimestamp (cs : List Char) : Bool :=
  match date? cs with
  | none => false
  | some [] => true
  | some (c :: cs) =>
    if c = 'T' ∨ c = 't' then (time? cs).any isZone
    else c == ' ' && (time? (cs.dropWhile (· == ' '))).any List.isEmpty

end Yaml
end Kotlet

/-!
# Descriptors

A descriptor writes the type of a field or method. Values of the types `long` and `double` take two
slots, all others one.

* `fieldType?` : the field type at the start of a text, with its slots and what comes after it;
* `descriptorSlots?` : the slots of the arguments and of the result of a method;
* `slotSize` : the slots of a field.
-/

namespace Kotlet
namespace ClassFile

/-- What stands after the next semicolon. -/
def afterSemicolon? : List Char → Option (List Char)
  | [] => none
  | c :: cs => if c = ';' then some cs else afterSemicolon? cs

/-- The slots of the field type at the start of a text, and what comes after it. -/
def fieldType? : List Char → Option (Nat × List Char)
  | [] => none
  | c :: cs =>
    match c with
    | 'B' | 'C' | 'F' | 'I' | 'S' | 'Z' => some (1, cs)
    | 'J' | 'D' => some (2, cs)
    | 'L' => (afterSemicolon? cs).map fun rest => (1, rest)
    | '[' => (fieldType? cs).map fun p => (1, p.2)
    | _ => none

/-- The slots of argument types up to the closing parenthesis, and what comes after it; there are
fewer types than `turns`. -/
def argumentSlots? : Nat → Nat → List Char → Option (Nat × List Char)
  | 0, _, _ => none
  | _, _, [] => none
  | turns + 1, slots, c :: cs =>
    if c = ')' then some (slots, cs)
    else
      match fieldType? (c :: cs) with
      | none => none
      | some (n, rest) => argumentSlots? turns (slots + n) rest

/-- The slots of a result type. -/
def resultSlots? (cs : List Char) : Option Nat :=
  if cs = ['V'] then some 0
  else
    match fieldType? cs with
    | some (n, []) => some n
    | _ => none

/-- The slots of the arguments and of the result of a method. -/
def descriptorSlots? (desc : String) : Option (Nat × Nat) :=
  match desc.toList with
  | '(' :: cs =>
    match argumentSlots? (cs.length + 1) 0 cs with
    | none => none
    | some (args, rest) => (resultSlots? rest).map fun result => (args, result)
  | _ => none

/-- The slots of a field. -/
def slotSize (desc : String) : Nat := if desc = "J" ∨ desc = "D" then 2 else 1

end ClassFile
end Kotlet

/-!
# UTF-16 code units

* `charUnits`, `units` : the code units of a character and of a string;
* `surrogatePair` : the two units of a character beyond U+FFFF;
* `compareByUnits` : the order of strings as sequences of code units.
-/

namespace Kotlet

/-- The high and the low surrogate of the code point `n`, which is at least U+10000. -/
def surrogatePair (n : Nat) : Nat × Nat :=
  (0xd800 + (n - 0x10000) / 0x400, 0xdc00 + (n - 0x10000) % 0x400)

/-- The code units of a character. -/
def charUnits (c : Char) : List Nat :=
  if c.toNat < 0x10000 then [c.toNat]
  else [(surrogatePair c.toNat).1, (surrogatePair c.toNat).2]

/-- The code units of a string. -/
def units (s : String) : List Nat := s.toList.flatMap charUnits

/-- Lexicographic order, a proper start coming first. -/
def compareUnits : List Nat → List Nat → Ordering
  | [], [] => .eq
  | [], _ :: _ => .lt
  | _ :: _, [] => .gt
  | a :: as, b :: bs =>
    if a < b then .lt else if b < a then .gt else compareUnits as bs

/-- The order of two strings by their code units. -/
def compareByUnits (s t : String) : Ordering := compareUnits (units s) (units t)

end Kotlet

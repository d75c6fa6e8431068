/-!
# Character sets

A set of characters is kept as the ascending bounds of its runs: the bound at an even position
opens a run, the one at an odd position is the first code point past it. A character belongs to
the set exactly when an odd number of bounds lie at or below its code point.

* `CharSet.rank` : how many bounds are at most a code point, by halving;
* `CharSet.contains` : membership.
-/

namespace Kotlet

/-- A set of characters, given by the ascending bounds of its runs. -/
structure CharSet where
  /-- Where runs open (even positions) and end (odd positions). -/
  bounds : Array Nat

namespace CharSet

/-- The number of bounds at most `n`, known to lie between `lo` and `hi`; `steps` halvings are
made at most. -/
def rankBetween (bounds : Array Nat) (n : Nat) : Nat → Nat → Nat → Nat
  | 0, lo, _ => lo
  | steps + 1, lo, hi =>
    if lo < hi then
      let mid := (lo + hi) / 2
      if bounds.getD mid 0 ≤ n then rankBetween bounds n steps (mid + 1) hi
      else rankBetween bounds n steps lo mid
    else lo

/-- The number of bounds of `s` that are at most `n`. -/
def rank (s : CharSet) (n : Nat) : Nat :=
  rankBetween s.bounds n (s.bounds.size.log2 + 1) 0 s.bounds.size

/-- Whether `c` belongs to `s`. -/
def contains (s : CharSet) (c : Char) : Bool :=
  s.rank c.toNat % 2 == 1

end CharSet

end Kotlet

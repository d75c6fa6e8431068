import Kotlet.Token.Scan

/-!
# Templates in string literals

The literal of a string token is cut into the characters that stand for themselves and the
templates between them: `$name`, or an expression between `$` with an opening brace and the brace
that closes it.

* `Piece` : a character, a template, or an opening brace that is never closed;
* `bracedBody?` : what stands before the closing brace, and what comes after it;
* `pieces` : the pieces of a literal in order.
-/

namespace Kotlet

namespace Template

/-- A part of a string literal. -/
inductive Piece where
  /-- A character that stands for itself. -/
  | char (c : Char)
  /-- A template: the text of an expression. -/
  | code (text : List Char)
  /-- A template without a closing brace; everything after it belongs to it. -/
  | unclosed
  deriving DecidableEq, Inhabited

/-- Whether `c` can start a name after `$`. -/
def startsName (c : Char) : Bool := c == '_' || isLetter c

/-- Whether `c` can go on a name after `$`. -/
def continuesName (c : Char) : Bool := startsName c || isDecimalDigit c

/-- Reads up to the brace that closes the braces open so far: `depth` of them besides the first.
`body` holds what was read, the last character first. -/
def bracedBody? (depth : Nat) (body : List Char) : List Char → Option (List Char × List Char)
  | [] => none
  | c :: cs =>
    if c = '{' then bracedBody? (depth + 1) (c :: body) cs
    else if c = '}' then
      match depth with
      | 0 => some (body.reverse, cs)
      | depth + 1 => bracedBody? depth (c :: body) cs
    else bracedBody? depth (c :: body) cs

/-- What stands before the closing brace, with the rest behind it. -/
theorem eq_append_of_bracedBody? {depth : Nat} {body cs code rest : List Char}
    (h : bracedBody? depth body cs = some (code, rest)) :
    ∃ own, cs = own ++ '}' :: rest ∧ code = body.reverse ++ own := by
  induction cs generalizing depth body with
  | nil => cases h
  | cons c cs ih =>
    have hstep {depth : Nat} (h : bracedBody? depth (c :: body) cs = some (code, rest)) :
        ∃ own, c :: cs = own ++ '}' :: rest ∧ code = body.reverse ++ own := by
      obtain ⟨own, rfl, rfl⟩ := ih h
      exact ⟨c :: own, rfl, by simp⟩
    unfold bracedBody? at h
    split at h
    · exact hstep h
    · split at h
      · rename_i hc
        split at h
        · cases h
          exact ⟨[], by rw [hc]; rfl, by simp⟩
        · exact hstep h
      · exact hstep h

/-- What stands before the closing brace is followed by less than the whole. -/
theorem length_of_bracedBody? {depth : Nat} {body cs code rest : List Char}
    (h : bracedBody? depth body cs = some (code, rest)) : rest.length < cs.length := by
  obtain ⟨own, rfl, -⟩ := eq_append_of_bracedBody? h
  simp only [List.length_append, List.length_cons]
  omega

/-- Leaving a first part out never makes a list longer. -/
theorem length_dropWhile_le (p : Char → Bool) (cs : List Char) :
    (cs.dropWhile p).length ≤ cs.length := by
  induction cs with
  | nil => simp
  | cons c cs ih =>
    rw [List.dropWhile_cons]
    split
    · exact Nat.le_succ_of_le ih
    · exact Nat.le_refl _

/-- Reads the pieces of a literal; `acc` holds those before, the last one first. -/
def piecesFrom (acc : List Piece) : List Char → List Piece
  | [] => acc.reverse
  | [c] => (.char c :: acc).reverse
  | c :: d :: cs =>
    if c = '$' then
      if d = '{' then
        match _h : bracedBody? 0 [] cs with
        | none => (.unclosed :: acc).reverse
        | some (code, rest) => piecesFrom (.code code :: acc) rest
      else if startsName d then
        piecesFrom (.code (d :: cs.takeWhile continuesName) :: acc) (cs.dropWhile continuesName)
      else piecesFrom (.char c :: acc) (d :: cs)
    else piecesFrom (.char c :: acc) (d :: cs)
termination_by cs => cs.length
decreasing_by
  · have := length_of_bracedBody? _h
    simp only [List.length_cons]
    omega
  · have := length_dropWhile_le continuesName cs
    simp only [List.length_cons]
    omega
  · simp
  · simp

/-- The pieces of a literal. -/
def pieces (literal : List Char) : List Piece := piecesFrom [] literal

end Template

end Kotlet

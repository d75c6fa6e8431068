import Kotlet.Proofs.Syntax.Written.Literal

/-!
# Quoted texts

A text between quotes, with its escapes, is a string literal that stands for the text. The character
that marks escaped dollar signs is the exception: where the text holds it already, it is taken for
one of them.

* `quoted` : a text as a string literal;
* `shownDollars` : what it stands for;
* `scan_quoted`, `joinPieces_quoted` : how it is scanned, and how the token is read;
* `Expr.parse_quoted` : both.
-/

namespace Kotlet

open Token (escapedDollar Inside)

/-- A text as a string literal. -/
def quoted (text : String) : String := "\"" ++ String.join (text.toList.map escapeLiteral) ++ "\""

/-- A character as it is shown: the mark of escaped dollar signs is a dollar sign. -/
def shownDollar (c : Char) : Char := if c = escapedDollar then '$' else c

theorem shownDollar_ne (c : Char) : shownDollar c ≠ escapedDollar := by
  unfold shownDollar
  split
  · decide
  · assumption

/-- A text as it is shown. -/
def shownDollars (text : String) : String := String.ofList (text.toList.map shownDollar)

/-- A text is shown as it is exactly if the mark does not occur in it. -/
theorem shownDollars_eq_iff {text : String} : shownDollars text = text ↔ escapedDollar ∉ text.toList := by
  rw [shownDollars, ← String.toList_inj, String.toList_ofList]
  constructor
  · intro h hmem
    rw [← h] at hmem
    obtain ⟨c, -, hc⟩ := List.mem_map.mp hmem
    exact shownDollar_ne c hc
  · intro h
    refine List.map_congr_left (g := id) (fun c hc => if_neg ?_) |>.trans (List.map_id _)
    rintro rfl
    exact h hc

namespace Written

open Grammar Parse

/-- A character of a text as the scanner gives it to the parser. -/
def markDollar (c : Char) : Char := if c = '$' then escapedDollar else c

theorem markDollar_ne (c : Char) : markDollar c ≠ '$' := by
  unfold markDollar
  split
  · decide
  · assumption

theorem shownDollar_comp_markDollar : shownDollar ∘ markDollar = shownDollar := by
  funext c
  unfold markDollar
  by_cases hc : c = '$'
  · subst hc
    rfl
  · simp [hc]

theorem inside_quoted (cs : List Char) :
    Inside (cs.flatMap fun c => (escapeLiteral c).toList) (cs.map markDollar) := by
  induction cs with
  | nil => exact .nil
  | cons c cs ih => exact inside_escapeLiteral.append ih

theorem scan_quoted (text : String) : ∃ tok, Token.scan (quoted text).toList = .ok [tok] ∧
    tok.kind = .string ∧ tok.literal = .text (String.ofList (text.toList.map markDollar)) := by
  obtain ⟨_, ⟨tok, rfl, hkind, hliteral⟩, hscan⟩ := (writes_string (inside_quoted text.toList)).scan
  refine ⟨tok, ?_, hkind, hliteral⟩
  rw [← hscan]
  congr 1
  simp [quoted, String.toList_append, List.flatMap_map]

/-- Where no dollar sign is left, every character stands for itself. -/
theorem pieces_of_plain {cs : List Char} (h : ∀ c ∈ cs, c ≠ '$') :
    Template.pieces cs = cs.map .char := by
  suffices ∀ acc, Template.piecesFrom acc cs = acc.reverse ++ cs.map .char from this []
  induction cs with
  | nil => simp [Template.piecesFrom]
  | cons c cs ih =>
    intro acc
    rw [piecesFrom_char (h c List.mem_cons_self), ih fun d hd => h d (List.mem_cons_of_mem _ hd)]
    simp

theorem joinPieces_chars (template : List Char → Except Diagnostic Expr) (tok : Token) (cs text : List Char)
    (size : Nat) (splices : List Splice) : joinPieces template tok text size splices (cs.map .char) =
      .ok (.str (.ofToken tok) (String.ofList
        ((text.reverse ++ cs).map shownDollar)) splices.reverse) := by
  induction cs generalizing text size with
  | nil =>
    rw [List.map_nil, List.append_nil]
    rfl
  | cons c cs ih =>
    rw [List.map_cons, joinPieces, ih]
    simp

/-- A quoted text is one string token, which is read as a literal without templates. -/
theorem read_quoted (text : String) : ∃ tok, Token.scan (quoted text).toList = .ok [tok] ∧
    tok.kind = .string ∧ Expr.parse [tok] = .ok (.str (.ofToken tok) (shownDollars text) []) := by
  obtain ⟨tok, hscan, hkind, hliteral⟩ := scan_quoted text
  have hplain : ∀ c ∈ text.toList.map markDollar, c ≠ '$' := by
    simpa using fun c _ => markDollar_ne c
  have hread : stringAt (templateDepth [tok]) tok (.str (.ofToken tok) (shownDollars text) []) := by
    rw [stringAt, hliteral, Token.Literal.toText, String.toList_ofList, pieces_of_plain hplain, joinPieces_chars]
    simp [shownDollars, shownDollar_comp_markDollar]
  exact ⟨tok, hscan, hkind, parse_of_stringAt hkind hread⟩

end Written

/-- A quoted text is one string token, which is read as a literal without templates. It stands for the
text exactly if that does not hold the mark of escaped dollar signs, which is shown as one of them. -/
theorem Expr.parse_quoted (text : String) : ∃ tok, Token.scan (quoted text).toList = .ok [tok] ∧
    tok.kind = .string ∧ Expr.parse [tok] = .ok (.str (.ofToken tok) (shownDollars text) []) ∧
      (shownDollars text = text ↔ escapedDollar ∉ text.toList) := by
  obtain ⟨tok, hscan, hkind, hparse⟩ := Written.read_quoted text
  exact ⟨tok, hscan, hkind, hparse, shownDollars_eq_iff⟩

/-- The text that is nothing but the mark is read as a dollar sign. -/
theorem Expr.quoted_mark_lost : ¬ ∃ tok, Token.scan (quoted "\ue000").toList = .ok [tok] ∧
    ∃ m, Expr.parse [tok] = .ok (.str m "\ue000" []) := by
  rintro ⟨tok, hscan, m, hparse⟩
  obtain ⟨tok', hscan', -, hparse'⟩ := Written.read_quoted "\ue000"
  obtain rfl : tok' = tok := by simpa using hscan'.symm.trans hscan
  obtain ⟨-, htext⟩ : Mark.ofToken tok' = m ∧ shownDollars "\ue000" = "\ue000" := by
    simpa using Except.ok.inj (hparse'.symm.trans hparse)
  exact absurd htext (by decide +kernel)

end Kotlet

import Kotlet.Proofs.Emit.Program
import Kotlet.Proofs.Eval.Soundness
import Kotlet.Proofs.Syntax.Quoted

/-!
# Texts and their templates

The literal of a string token is cut into characters and templates. The characters make up the text of
the string literal, in which every template has a place: putting the templates back at their places
gives the literal, and that is how values are put there when a program is run or compiled.

* `Part` : a character or a template of a literal, as it is spelled;
* `exists_parts_of_piecesFrom` : a literal without an open template is made of parts;
* `Spliced` : the templates that the parts become, with their places;
* `insertAt` : a text with other texts put into it;
* `Splits` : a literal with its parts, its text and its templates;
* `interpolate_eq`, `appendSplices_eq` : where places are in order, values are put there;
* `Parse.stringLiteral_splits` : string tokens and accepted programs.
-/

namespace Kotlet

/-- The place of a template. -/
def Splice.offset : Splice → Int
  | .mk offset _ => offset

/-- The expression of a template. -/
def Splice.expr : Splice → Expr
  | .mk _ e => e

namespace Template

/-- A part of a literal. -/
inductive Part where
  /-- A character that stands for itself. -/
  | char (c : Char)
  /-- A name behind a dollar sign. -/
  | bare (name : List Char)
  /-- An expression in braces behind a dollar sign. -/
  | braced (code : List Char)

namespace Part

/-- How a part is spelled. -/
def spelling : Part → List Char
  | char c => [c]
  | bare name => '$' :: name
  | braced code => '$' :: '{' :: (code ++ ['}'])

/-- The piece that a part is. -/
def piece : Part → Piece
  | char c => .char c
  | bare name => .code name
  | braced code => .code code

/-- The expression of a template. -/
def code? : Part → Option (List Char)
  | char _ => none
  | bare name => some name
  | braced code => some code

/-- The whole of a template. -/
def span? : Part → Option (List Char)
  | char _ => none
  | p => some p.spelling

/-- The character of the text that a part is. -/
def kept? : Part → Option Char
  | char c => some (shownDollar c)
  | _ => none

theorem kept?_char (c : Char) : (char c).kept? = some (shownDollar c) := rfl

/-- A part with the mark of escaped dollar signs shown outside of templates. -/
def shown : Part → List Char
  | char c => [shownDollar c]
  | p => p.spelling

/-- A name behind a dollar sign starts like a name, and goes on like one. -/
def Proper : Part → Prop
  | bare name => (∃ c ∈ name.head?, startsName c = true) ∧ ∀ c ∈ name, continuesName c = true
  | _ => True

end Part

/-! ## The parts of a literal -/

/-- A literal without an open template is made of parts. -/
theorem exists_parts_of_piecesFrom {acc : List Piece} {cs : List Char}
    (h : .unclosed ∉ piecesFrom acc cs) : ∃ parts : List Part,
      piecesFrom acc cs = acc.reverse ++ parts.map Part.piece ∧ parts.flatMap Part.spelling = cs ∧
        ∀ p ∈ parts, p.Proper := by
  fun_induction piecesFrom acc cs with
  | case1 acc => exact ⟨[], by simp, rfl, nofun⟩
  | case2 acc c => exact ⟨[.char c], by simp [Part.piece], rfl, by simp [Part.Proper]⟩
  | case3 acc => simp at h
  | case4 acc cs code rest hbody ih =>
    obtain ⟨parts, hparts, rfl, hproper⟩ := ih h
    obtain ⟨own, rfl, hown⟩ := eq_append_of_bracedBody? hbody
    obtain rfl : code = own := hown
    refine ⟨.braced code :: parts, by simp [hparts, Part.piece], by simp [Part.spelling], ?_⟩
    simpa [Part.Proper] using hproper
  | case5 acc d cs hd hname ih =>
    obtain ⟨parts, hparts, hcs, hproper⟩ := ih h
    refine ⟨.bare (d :: cs.takeWhile continuesName) :: parts, by simp [hparts, Part.piece],
      by simp [Part.spelling, hcs, List.takeWhile_append_dropWhile], ?_⟩
    have hall : ∀ c ∈ cs.takeWhile continuesName, continuesName c = true :=
      List.all_eq_true.mp List.all_takeWhile
    refine List.forall_mem_cons.mpr ⟨⟨⟨d, rfl, hname⟩, List.forall_mem_cons.mpr ⟨?_, hall⟩⟩, hproper⟩
    simp [continuesName, hname]
  | case6 acc d cs hd hname ih =>
    obtain ⟨parts, hparts, hcs, hproper⟩ := ih h
    refine ⟨.char '$' :: parts, by simp [hparts, Part.piece], by simp [Part.spelling, hcs], ?_⟩
    simpa [Part.Proper] using hproper
  | case7 acc c d cs _ ih =>
    obtain ⟨parts, hparts, hcs, hproper⟩ := ih h
    refine ⟨.char c :: parts, by simp [hparts, Part.piece], by simp [Part.spelling, hcs], ?_⟩
    simpa [Part.Proper] using hproper

/-! ## The text and the templates -/

/-- The templates that parts become, the first of them at the place `n` or behind it. -/
inductive Spliced (template : List Char → Except Diagnostic Expr) : Nat → List Part → List Splice → Prop where
  | nil {n : Nat} : Spliced template n [] []
  | char {n : Nat} {c : Char} {parts : List Part} {splices : List Splice}
    (h : Spliced template (n + 1) parts splices) : Spliced template n (.char c :: parts) splices
  | code {n : Nat} {p : Part} {code : List Char} {e : Expr} {parts : List Part} {splices : List Splice}
    (hp : p.code? = some code) (he : template code = .ok e) (h : Spliced template n parts splices) :
    Spliced template n (p :: parts) (.mk n e :: splices)

/-- A string literal is made of its parts. -/
theorem spliced_of_joinPieces {template : List Char → Except Diagnostic Expr} {tok : Token}
    {parts : List Part} {text : List Char} {size : Nat} {splices : List Splice} {e : Expr}
    (h : Parse.joinPieces template tok text size splices (parts.map Part.piece) = .ok e) :
    ∃ added, e = .str (.ofToken tok)
        (String.ofList (text.reverse.map shownDollar ++ parts.filterMap Part.kept?))
        (splices.reverse ++ added) ∧ Spliced template size parts added := by
  induction parts generalizing text size splices with
  | nil =>
    cases h
    exact ⟨[], by simp; rfl, .nil⟩
  | cons p parts ih =>
    have hcode {code : List Char} (hp : p.code? = some code) (hkept : p.kept? = none)
        (h : Parse.joinPieces template tok text size splices (.code code :: parts.map Part.piece) = .ok e) :
        ∃ added, e = .str (.ofToken tok)
            (String.ofList (text.reverse.map shownDollar ++ (p :: parts).filterMap Part.kept?))
            (splices.reverse ++ added) ∧ Spliced template size (p :: parts) added := by
      unfold Parse.joinPieces at h
      split at h
      · cases h
      · rename_i x hx
        obtain ⟨added, rfl, hadded⟩ := ih h
        exact ⟨.mk size x :: added, by simp [hkept], .code hp hx hadded⟩
    cases p with
    | char c =>
      obtain ⟨added, rfl, hadded⟩ := ih h
      exact ⟨added, by simp [Part.kept?], .char hadded⟩
    | bare name => exact hcode rfl rfl h
    | braced code => exact hcode rfl rfl h

/-- The expressions of the templates are read from the parts. -/
theorem Spliced.codes {template : List Char → Except Diagnostic Expr} {n : Nat} {parts : List Part}
    {splices : List Splice} (h : Spliced template n parts splices) :
    List.Forall₂ (fun s code => template code = .ok s.expr) splices (parts.filterMap Part.code?) := by
  induction h with
  | nil => exact .nil
  | char _ ih =>
    rw [List.filterMap_cons_none rfl]
    exact ih
  | code hp he _ ih =>
    rw [List.filterMap_cons_some hp]
    exact .cons he ih

/-- The templates of a text of `size` characters are in order, from the place `pos` on. -/
def InOrder (size pos : Nat) (splices : List Splice) : Prop :=
  (splices.map Splice.offset).Pairwise (· ≤ ·) ∧
    ∀ o ∈ splices.map Splice.offset, (pos : Int) ≤ o ∧ o ≤ size

theorem inOrder_cons {size pos : Nat} {offset : Int} {e : Expr} {splices : List Splice} :
    InOrder size pos (.mk offset e :: splices) ↔
      ((pos : Int) ≤ offset ∧ offset ≤ size) ∧ InOrder size offset.toNat splices := by
  simp only [InOrder, List.map_cons, List.pairwise_cons, List.forall_mem_cons, Splice.offset]
  constructor
  · rintro ⟨⟨hle, hpairwise⟩, hbounds, hall⟩
    exact ⟨hbounds, hpairwise, fun o ho => ⟨by have := hle o ho; omega, (hall o ho).2⟩⟩
  · rintro ⟨hbounds, hpairwise, hall⟩
    exact ⟨⟨fun o ho => by have := (hall o ho).1; omega, hpairwise⟩, hbounds,
      fun o ho => ⟨by have := (hall o ho).1; omega, (hall o ho).2⟩⟩

/-- The first template is in the text that is left, and the others are in the text that it leaves. -/
theorem InOrder.step {pos : Nat} {rest : List Char} {offset : Int} {e : Expr} {splices : List Splice}
    (h : InOrder (pos + rest.length) pos (.mk offset e :: splices)) :
    ¬ (offset < pos ∨ pos + rest.length < offset) ∧
      InOrder (pos + (offset - pos).toNat + (rest.drop (offset - pos).toNat).length)
        (pos + (offset - pos).toNat) splices := by
  obtain ⟨hbounds, hrest⟩ := inOrder_cons.mp h
  have hstep : pos + (offset - pos).toNat = offset.toNat := by omega
  have hsize : offset.toNat + (rest.drop (offset - pos).toNat).length = pos + rest.length := by
    rw [List.length_drop]
    omega
  rw [hstep, hsize]
  exact ⟨by omega, hrest⟩

theorem Spliced.inOrder {template : List Char → Except Diagnostic Expr} {n : Nat} {parts : List Part}
    {splices : List Splice} (h : Spliced template n parts splices) :
    InOrder (n + (parts.filterMap Part.kept?).length) n splices := by
  induction h with
  | nil => exact ⟨.nil, by simp⟩
  | char _ ih =>
    obtain ⟨hpairwise, hall⟩ := ih
    refine ⟨hpairwise, fun o ho => ?_⟩
    have hbounds := hall o ho
    rw [List.filterMap_cons_some (Part.kept?_char _), List.length_cons]
    omega
  | @code n p code e parts splices hp he _ ih =>
    have hkept : p.kept? = none := by cases p <;> first | rfl | cases hp
    rw [List.filterMap_cons_none hkept]
    exact inOrder_cons.mpr ⟨⟨Int.le_refl _, by omega⟩, ih⟩

/-! ## Putting the templates back -/

/-- A text with other texts put into it: `rest` is what is left of it from the place `pos` on. -/
def insertAt (pos : Nat) (rest : List Char) : List (Int × List Char) → List Char
  | [] => rest
  | (offset, s) :: more =>
    let step := (offset - pos).toNat
    rest.take step ++ s ++ insertAt (pos + step) (rest.drop step) more

/-- What comes later leaves the first character where it is. -/
theorem insertAt_cons {pos : Nat} {c : Char} {rest : List Char} {more : List (Int × List Char)}
    (h : ∀ x ∈ more.head?, (pos : Int) < x.1) :
    insertAt pos (c :: rest) more = c :: insertAt (pos + 1) rest more := by
  cases more with
  | nil => rfl
  | cons x more =>
    obtain ⟨offset, s⟩ := x
    have hlt : (pos : Int) < offset := h _ rfl
    obtain ⟨k, hk⟩ : ∃ k, (offset - pos).toNat = k + 1 := ⟨(offset - pos).toNat - 1, by omega⟩
    have hk' : (offset - (pos + 1 : Nat)).toNat = k := by omega
    simp only [insertAt, hk, hk', List.take_succ_cons, List.drop_succ_cons, List.cons_append]
    rw [Nat.add_assoc, Nat.add_comm 1 k]

/-- The templates put back at their places make up the parts as they are shown. -/
theorem Spliced.insertAt_eq {template : List Char → Except Diagnostic Expr} {n : Nat} {parts : List Part}
    {splices : List Splice} (h : Spliced template n parts splices) :
    insertAt n (parts.filterMap Part.kept?)
        ((splices.map Splice.offset).zip (parts.filterMap Part.span?)) =
      parts.flatMap Part.shown := by
  induction h with
  | nil => rfl
  | @char n c parts splices h ih =>
    rw [List.filterMap_cons_some (Part.kept?_char c), List.filterMap_cons_none rfl, insertAt_cons, ih]
    · rfl
    · intro x hx
      have hmem := List.of_mem_zip (List.mem_of_mem_head? hx)
      have := (h.inOrder.2 _ hmem.1).1
      omega
  | @code n p code e parts splices hp he _ ih =>
    obtain ⟨hkept, hspan, hshown⟩ : p.kept? = none ∧ p.span? = some p.spelling ∧ p.shown = p.spelling := by
      cases p with
      | char c => cases hp
      | _ => exact ⟨rfl, rfl, rfl⟩
    rw [List.filterMap_cons_none hkept, List.filterMap_cons_some hspan, List.flatMap_cons, ← ih, hshown]
    simp [insertAt, Splice.offset]

/-- A literal, the text and the templates of the string literal that it becomes, and its parts. -/
structure Splits (template : List Char → Except Diagnostic Expr) (literal text : List Char)
    (splices : List Splice) (parts : List Part) : Prop where
  pieces : pieces literal = parts.map Part.piece
  spelled : parts.flatMap Part.spelling = literal
  proper : ∀ p ∈ parts, p.Proper
  codes : List.Forall₂ (fun s code => template code = .ok s.expr) splices (parts.filterMap Part.code?)
  inOrder : InOrder text.length 0 splices
  putBack : insertAt 0 text ((splices.map Splice.offset).zip (parts.filterMap Part.span?)) =
    parts.flatMap Part.shown

/-- A literal that is read as a string literal is split into its parts. -/
theorem splits_of_joinPieces {template : List Char → Except Diagnostic Expr} {tok : Token}
    {literal : List Char} {e : Expr}
    (h : Parse.joinPieces template tok [] 0 [] (pieces literal) = .ok e) :
    ∃ text splices parts, e = .str (.ofToken tok) text splices ∧
      Splits template literal text.toList splices parts := by
  obtain ⟨parts, hparts, hspelled, hproper⟩ :=
    exists_parts_of_piecesFrom (Written.unclosed_notMem_of_joinPieces h)
  have hpieces : pieces literal = parts.map Part.piece := hparts
  rw [hpieces] at h
  obtain ⟨splices, rfl, hspliced⟩ := spliced_of_joinPieces h
  refine ⟨_, splices, parts, rfl, hpieces, hspelled, hproper, hspliced.codes, ?_, ?_⟩
  · simpa using hspliced.inOrder
  · simpa using hspliced.insertAt_eq

end Template

/-! ## Values in their places -/

open Template

namespace Eval

/-- The texts of values, one after another. -/
def showAll (run : Expr → Eval Value) (tok : Token) : List Expr → Eval (List (List Char))
  | [] => return []
  | e :: es => do
    let text ← shown tok (← run e)
    return text.toList :: (← showAll run tok es)

/-- Where the templates are in order, their values are put at their places: no place is refused. -/
theorem interpolate_eq {run : Expr → Eval Value} {tok : Token} {splices : List Splice} {pos : Nat}
    {rest : List Char} (acc : String) (h : InOrder (pos + rest.length) pos splices) :
    interpolate run tok pos rest acc splices = do
      let texts ← showAll run tok (splices.map Splice.expr)
      return acc ++ String.ofList (insertAt pos rest ((splices.map Splice.offset).zip texts)) := by
  induction splices generalizing pos rest acc with
  | nil => rfl
  | cons s splices ih =>
    obtain ⟨offset, e⟩ := s
    obtain ⟨hinside, hrest⟩ := h.step
    rw [interpolate]
    simp only [if_neg hinside, pure_bind, ih _ hrest, List.map_cons, showAll, bind_assoc, insertAt,
      Splice.offset, Splice.expr, List.zip_cons_cons]
    simp [String.append_assoc]

end Eval

namespace Emit

/-- Appends a text from the place `pos` on, without a look at the order of the places. -/
def appendAll (pos : Nat) (rest : List Char) : List (Int × Piece) → Emit Unit
  | [] => appendChars rest
  | (offset, p) :: more => do
    let step := (offset - pos).toNat
    appendChars (rest.take step)
    append (← printable p).printDescriptor
    appendAll (pos + step) (rest.drop step) more

/-- Where the templates are in order, no place is refused. -/
theorem appendSplices_eq {tok : Token} {splices : List Splice} {pos : Nat} {rest : List Char}
    (h : InOrder (pos + rest.length) pos splices) :
    appendSplices tok pos rest (Splice.pieces splices) = appendAll pos rest (Splice.pieces splices) := by
  induction splices generalizing pos rest with
  | nil => rfl
  | cons s splices ih =>
    obtain ⟨offset, e⟩ := s
    obtain ⟨hinside, hrest⟩ := h.step
    rw [Splice.pieces, appendSplices, appendAll]
    simp only [if_neg hinside, ih hrest]

end Emit

/-! ## String tokens and programs -/

/-- No run of an accepted program refuses the place of a template. -/
theorem Checked.OfText.fault_ne_badOffset {text : Text} {c : Checked} (h : c.OfText text) {fuel : Nat}
    {f : Fault} (hf : c.fault? fuel = some f) (n : Int) : f.message ≠ (Fault.Cause.badOffset n).message :=
  (h.typed.expected_of_fault hf).message_ne rfl

/-- Neither does the class of an accepted program. -/
theorem Checked.OfText.error_ne_badOffset {text : Text} {c : Checked} (h : c.OfText text) {unit : String}
    {major : UInt16} {source : SourceNote} {d : Diagnostic}
    (hd : ((⟨unit, major, source, false⟩ : Generator).generate c).1 = .error d) (n : Int) (tok : Token) :
    d ≠ (EmitError.badOffset n).toDiagnostic tok := by
  have hcode : d.code = .formatLimit := (h.typed.classOf ⟨unit, major, source, false⟩).1 d hd
  rintro rfl
  have hinternal : Code.internalFault = Code.formatLimit := hcode
  exact absurd hinternal (by decide)

/-- The literal of a string token is split into characters and templates. The templates of the string
literal are in order inside its text, put back there they make up the literal, and values are put there
in their stead. So no place is refused when an accepted program is run or compiled. -/
theorem Parse.stringLiteral_splits :
    (∀ (ctx : Context) (tok : Token) (ts ts' : List Token) (e : Expr),
      stringLiteral tok ctx ts = .ok (e, ts') →
        ∃ text splices parts, e = .str (.ofToken tok) text splices ∧
          Splits (ctx.template tok) tok.literal.toText.toList text.toList splices parts ∧
          (∀ run, Eval.interpolate run tok 0 text.toList "" splices = do
            let texts ← Eval.showAll run tok (splices.map Splice.expr)
            return String.ofList (insertAt 0 text.toList ((splices.map Splice.offset).zip texts))) ∧
          Emit.appendSplices tok 0 text.toList (Splice.pieces splices) =
            Emit.appendAll 0 text.toList (Splice.pieces splices)) ∧
      ∀ input c, Checked.OfText input c →
        (∀ fuel f, c.fault? fuel = some f → ∀ n, f.message ≠ (Fault.Cause.badOffset n).message) ∧
          ∀ unit major source d, ((⟨unit, major, source, false⟩ : Generator).generate c).1 = .error d →
            ∀ n tok, d ≠ (EmitError.badOffset n).toDiagnostic tok := by
  refine ⟨fun ctx tok ts ts' e h => ?_, fun _ c h =>
    ⟨fun fuel f hf => h.fault_ne_badOffset hf, fun unit major source d hd => h.error_ne_badOffset hd⟩⟩
  obtain ⟨text, splices, parts, rfl, hsplits⟩ := splits_of_joinPieces (of_stringLiteral h).2
  have horder : InOrder (0 + text.toList.length) 0 splices := by
    rw [Nat.zero_add]
    exact hsplits.inOrder
  refine ⟨text, splices, parts, rfl, hsplits, fun run => ?_, Emit.appendSplices_eq horder⟩
  simpa using Eval.interpolate_eq "" horder

/-- Both kinds of templates side by side, an escaped dollar sign and one that starts nothing. -/
theorem Parse.stringLiteral_splits_adjacent :
    (∃ tok e, Token.scan "\"$ä$x$\x7bx + 1\x7d\\$5$\"" = .ok [tok] ∧
      stringLiteral tok (contextOf [tok]) [] = .ok (e, []) ∧
      ∃ text splices parts, e = .str (.ofToken tok) text splices ∧
        Splits ((contextOf [tok]).template tok) tok.literal.toText.toList text.toList splices parts ∧
        (∀ run, Eval.interpolate run tok 0 text.toList "" splices = do
          let texts ← Eval.showAll run tok (splices.map Splice.expr)
          return String.ofList (insertAt 0 text.toList ((splices.map Splice.offset).zip texts))) ∧
        Emit.appendSplices tok 0 text.toList (Splice.pieces splices) =
          Emit.appendAll 0 text.toList (Splice.pieces splices)) ∧
      ∃ c : Checked, c.OfText "val x = 1\nprintln(\"$x$\x7bx + 1\x7d\")" ∧
        ∀ fuel f, c.fault? fuel = some f → ∀ n, f.message ≠ (Fault.Cause.badOffset n).message := by
  have hread : (Written.stringOf? "\"$ä$x$\x7bx + 1\x7d\\$5$\"").isSome = true := by decide +kernel
  have hchecked : (Checked.ofText? "val x = 1\nprintln(\"$x$\x7bx + 1\x7d\")").isSome = true := by
    decide +kernel
  obtain ⟨c, hc⟩ := Option.isSome_iff_exists.mp hchecked
  have htext := Checked.ofText_of_eq_some hc
  obtain ⟨⟨tok, e⟩, hp⟩ := Option.isSome_iff_exists.mp hread
  obtain ⟨hscan, he⟩ := Written.of_stringOf? hp
  exact ⟨⟨tok, e, hscan, he, stringLiteral_splits.1 _ _ _ _ _ he⟩, c, htext, (stringLiteral_splits.2 _ c htext).1⟩

end Kotlet

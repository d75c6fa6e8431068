import Kotlet.Proofs.Parse.Nodes
import Kotlet.Proofs.Syntax.Written.Expr
import Kotlet.Proofs.Token.Spelling

/-!
# Written string literals

A string literal is written with its escapes, and with its templates in braces at their places.

* `Bit` : a character or a template, with what is written for it and what that stands for;
* `bits_of_joinPieces`, `weave_bits` : a string literal is made of bits, and so is its text;
* `inside_bits`, `pieces_bits`, `joinPieces_bits` : the written text is read as the same bits;
* `PlainTemplates` : string tokens whose templates hold no strings;
* `keepsStrings` : string literals can be written again;
* `stringOf?` : a text that is one string literal.
-/

namespace Kotlet
namespace Written

open Token (Kind Scans Free IsSpelling Inside escaped? escapedDollar)
open Grammar Parse

/-! ## Scanned tokens -/

theorem not_fixed {k : Kind} (hfixed : ¬ (Infix k ∨ Step k)) {string : Token → Prop} {lexeme : Text}
    {literal : Token.Literal} {line col : Nat} (hname : k = .ident → IsName literal.toText)
    (hstring : k = .string → string ⟨k, lexeme, literal, line, col⟩) :
    Legible string ⟨k, lexeme, literal, line, col⟩ :=
  ⟨hname, fun h => absurd h hfixed, hstring⟩

instance : DecidablePred Step := fun k => by unfold Step; infer_instance

theorem lexeme_of_fixed? {cs : List Char} {l : Token.Lexeme} (h : Token.fixed? cs = some l) :
    (Infix l.kind ∨ Step l.kind → String.ofList l.chars = l.kind.text) ∧ l.kind ≠ .ident ∧ l.kind ≠ .string := by
  have hchar {a : Char} {k : Kind} (hk : Token.fixedChar? a = some k) :
      (Infix k ∨ Step k → String.ofList [a] = k.text) ∧ k ≠ .ident ∧ k ≠ .string := by
    unfold Token.fixedChar? at hk
    split at hk <;> cases hk <;> decide
  have hpair {a b : Char} {k : Kind} (hk : Token.fixedPair? a b = some k) :
      (Infix k ∨ Step k → String.ofList [a, b] = k.text) ∧ k ≠ .ident ∧ k ≠ .string := by
    unfold Token.fixedPair? at hk
    split at hk <;> cases hk <;> decide
  unfold Token.fixed? at h
  split at h
  · cases h
  · obtain ⟨k, hk, rfl⟩ := Option.map_eq_some_iff.mp h
    exact hchar hk
  · split at h
    · rename_i k hk
      cases h
      exact hpair hk
    · obtain ⟨k, hk, rfl⟩ := Option.map_eq_some_iff.mp h
      exact hchar hk

/-- The tokens of a scanned text can be written again if its strings can. -/
theorem legible_of_scan {string : Token → Prop} {text : Text} {tokens : List Token}
    (h : Token.scan text = .ok tokens) (hstring : ∀ t ∈ tokens, t.kind = .string → string t) :
    ∀ t ∈ tokens, Legible string t := by
  suffices ∀ t ∈ tokens, Legible (fun _ => True) t from
    fun t ht => ⟨(this t ht).name, (this t ht).shown, hstring t ht⟩
  refine Token.forall_of_scanFrom (fun prev c cs l spelling line col hl hspelling => ?_) h (by simp)
  have hnumber {negative : Bool} {ds : List Char} (hn : Token.number negative ds = .ok l) :
      Legible (fun _ => True) ⟨l.kind, spelling, l.literal, line, col⟩ := by
    have hk := Token.number_kind hn
    exact not_fixed (by rw [hk]; decide) (by simp [hk]) fun _ => trivial
  unfold Token.readLexeme at hl
  split at hl
  · cases hl
    have hk := Token.stringBody_kind ['"'] [] cs
    exact not_fixed (by rw [hk]; decide) (by simp [hk]) fun _ => trivial
  · split at hl
    · exact hnumber hl
    · split at hl
      · rename_i l' hfixed
        cases hl
        obtain ⟨hlexeme, hident, -⟩ := lexeme_of_fixed? hfixed
        refine ⟨fun hk => absurd hk hident, fun hk => ?_, fun _ => trivial⟩
        rw [Token.shown, Text.shown, hspelling]
        exact hlexeme hk
      · split at hl
        · rename_i hstarts
          cases hl
          have hfixed : ¬ (Infix (Token.word (c :: cs)).kind ∨ Step (Token.word (c :: cs)).kind) :=
            Token.ofWord_cases (P := fun k => ¬ (Infix k ∨ Step k)) (by decide) (by decide) _
          have hcontinues : Token.continuesWord c = true := by simp [Token.continuesWord, hstarts]
          refine not_fixed hfixed (fun hk => ⟨⟨?_, fun d hd => ?_⟩, hk⟩) fun _ => trivial
          · simp [Token.word, Token.Literal.toText, List.takeWhile_cons_of_pos hcontinues, hstarts]
          · have hmem : d ∈ (c :: cs).takeWhile Token.continuesWord := by
              simpa [Token.word, Token.Literal.toText] using hd
            exact List.all_eq_true.mp List.all_takeWhile d hmem
        · split at hl
          · exact hnumber hl
          · cases hl

/-! ## Bits -/

/-- A part of a string literal. -/
inductive Bit where
  /-- A character that stands for itself. -/
  | char (c : Char)
  /-- A template. -/
  | code (e : Expr)

namespace Bit

/-- A template as it is written. -/
def braced (code : List Char) : List Char := '$' :: '{' :: (code ++ ['}'])

/-- What is written between the quotes. -/
def written : Bit → List Char
  | char c => (escapeLiteral c).toList
  | code e => braced e.format.toList

/-- What the token that is written stands for. -/
def value : Bit → List Char
  | char c => [if c = '$' then escapedDollar else c]
  | code e => braced e.format.toList

/-- The piece that is read. -/
def piece : Bit → Template.Piece
  | char c => .char (if c = '$' then escapedDollar else c)
  | code e => .code e.format.toList

/-- The characters of a literal. -/
def chars : List Bit → List Char
  | [] => []
  | char c :: bits => c :: chars bits
  | code _ :: bits => chars bits

/-- The templates of a literal with their places, the first of which is `n`. -/
def splices (n : Nat) : List Bit → List Splice
  | [] => []
  | char _ :: bits => splices (n + 1) bits
  | code e :: bits => .mk n e :: splices n bits

end Bit

/-- Whether a bit can be written: a dollar sign is shown as itself, and no template holds a quote. -/
def Bit.Writable : Bit → Prop
  | .char c => c ≠ escapedDollar
  | .code e => Neat false e.format.toList

/-! ## The text of a literal -/

/-- A string literal is made of bits. -/
theorem bits_of_joinPieces {template : List Char → Except Diagnostic Expr} {tok : Token}
    {ps : List Template.Piece} {text : List Char} {size : Nat} {splices : List Splice} {e : Expr}
    (h : joinPieces template tok text size splices ps = .ok e) : ∃ bits : List Bit,
      e = .str (.ofToken tok) (String.ofList
        ((text.reverse.map fun c => if c = escapedDollar then '$' else c) ++ Bit.chars bits))
        (splices.reverse ++ Bit.splices size bits) ∧
      (∀ c, .char c ∈ bits → c ≠ escapedDollar) ∧
      (∀ x, .code x ∈ bits → ∃ code, .code code ∈ ps ∧ template code = .ok x) ∧
      ∀ code, .code code ∈ ps → ∃ x, .code x ∈ bits ∧ template code = .ok x := by
  induction ps generalizing text size splices with
  | nil =>
    cases h
    exact ⟨[], by simp [Bit.chars, Bit.splices], nofun, nofun, nofun⟩
  | cons p ps ih =>
    cases p with
    | char c =>
      obtain ⟨bits, rfl, hchars, hcodes, hread⟩ := ih h
      refine ⟨.char (if c = escapedDollar then '$' else c) :: bits, by simp [Bit.chars, Bit.splices],
        fun d hd => ?_, fun x hx => ?_, fun code hcode => ?_⟩
      · rcases List.mem_cons.mp hd with hd | hd
        · cases hd
          split
          · decide
          · assumption
        · exact hchars d hd
      · obtain ⟨code, hcode, hx⟩ := hcodes x (by simpa using hx)
        exact ⟨code, List.mem_cons_of_mem _ hcode, hx⟩
      · obtain ⟨x, hx, hcode⟩ := hread code (by simpa using hcode)
        exact ⟨x, List.mem_cons_of_mem _ hx, hcode⟩
    | code code =>
      unfold joinPieces at h
      split at h
      · cases h
      · rename_i x hx
        obtain ⟨bits, rfl, hchars, hcodes, hread⟩ := ih h
        refine ⟨.code x :: bits, by simp [Bit.chars, Bit.splices], fun d hd => hchars d (by simpa using hd),
          fun y hy => ?_, fun code' hcode' => ?_⟩
        · rcases List.mem_cons.mp hy with hy | hy
          · cases hy
            exact ⟨code, List.mem_cons_self, hx⟩
          · obtain ⟨code, hcode, hy⟩ := hcodes y hy
            exact ⟨code, List.mem_cons_of_mem _ hcode, hy⟩
        · rcases List.mem_cons.mp hcode' with hcode' | hcode'
          · cases hcode'
            exact ⟨x, List.mem_cons_self, hx⟩
          · obtain ⟨y, hy, hcode⟩ := hread code' hcode'
            exact ⟨y, List.mem_cons_of_mem _ hy, hcode⟩
    | unclosed => cases h

theorem unclosed_notMem_of_joinPieces {template : List Char → Except Diagnostic Expr} {tok : Token}
    {ps : List Template.Piece} {text : List Char} {size : Nat} {splices : List Splice} {e : Expr}
    (h : joinPieces template tok text size splices ps = .ok e) : .unclosed ∉ ps := by
  induction ps generalizing text size splices with
  | nil => exact List.not_mem_nil
  | cons p ps ih =>
    cases p with
    | char c => simpa using ih h
    | code code =>
      unfold joinPieces at h
      split at h
      · cases h
      · simpa using ih h
    | unclosed => cases h

/-- No template stands before the place where those of the bits begin. -/
theorem spliceAt_splices {i n : Nat} (h : i < n) (bits : List Bit) :
    spliceAt i (Splice.formats (Bit.splices n bits)) = ("", Splice.formats (Bit.splices n bits)) := by
  induction bits generalizing n with
  | nil => rfl
  | cons b bits ih =>
    cases b with
    | char c => exact ih (Nat.lt_succ_of_lt h)
    | code e =>
      have hne : ¬ (n : Int) = i := by omega
      rw [Bit.splices, Splice.formats, spliceAt, if_neg hne]

theorem weave_code (acc s : String) (i : Int) (splices : List (Int × String)) (cs : List Char) :
    weave acc i ((i, s) :: splices) cs = weave (acc ++ ("$\x7b" ++ s ++ "\x7d")) i splices cs := by
  cases cs with
  | nil => simp [weave, spliceAt, String.append_assoc]
  | cons c cs => simp [weave, spliceAt, String.append_assoc]

/-- The inside of a literal is written bit by bit. -/
theorem weave_bits (acc : String) (n : Nat) (bits : List Bit) :
    weave acc n (Splice.formats (Bit.splices n bits)) (Bit.chars bits) =
      acc ++ String.ofList (bits.flatMap Bit.written) := by
  induction bits generalizing acc n with
  | nil => simp [weave, Bit.chars, Bit.splices, Splice.formats, spliceAt]
  | cons b bits ih =>
    cases b with
    | char c =>
      have hstep := ih (acc ++ escapeLiteral c) (n + 1)
      rw [Bit.chars, Bit.splices, weave, spliceAt_splices (Nat.lt_succ_self n)]
      simpa [Bit.written, String.append_assoc] using hstep
    | code e =>
      have hstep := ih (acc ++ ("$\x7b" ++ e.format ++ "\x7d")) n
      rw [Bit.chars, Bit.splices, Splice.formats, weave_code, hstep, String.append_assoc]
      congr 1
      rw [← String.toList_inj]
      simp [Bit.written, Bit.braced, String.toList_append]

/-! ## Reading it again -/

theorem not_special_of_bracesAfter {cs : List Char} {d d' : Nat} (h : bracesAfter false d cs = some d') {c : Char}
    (hc : c ∈ cs) : c ≠ '"' ∧ c ≠ '\\' := by
  obtain ⟨as, bs, rfl⟩ := List.append_of_mem hc
  cases has : bracesAfter false d as with
  | none => simp [has] at h
  | some d => constructor <;> rintro rfl <;> simp [has, braceStep] at h

theorem inside_of_plain {cs : List Char} (h : ∀ c ∈ cs, c ≠ '"' ∧ c ≠ '\\') : Inside cs cs := by
  induction cs with
  | nil => exact .nil
  | cons c cs ih =>
    obtain ⟨hquote, hslash⟩ := h c List.mem_cons_self
    exact .plain hquote hslash (ih fun d hd => h d (List.mem_cons_of_mem _ hd))

theorem inside_escapeLiteral {c : Char} : Inside (escapeLiteral c).toList [if c = '$' then escapedDollar else c] := by
  unfold escapeLiteral
  split
  · exact .escape rfl .nil
  · exact .escape rfl .nil
  · exact .escape rfl .nil
  · exact .escape rfl .nil
  · exact .escape rfl .nil
  · rename_i hquote hslash _ _ hdollar
    rw [if_neg hdollar, String.toList_singleton]
    exact .plain hquote hslash .nil

/-- What is written between the quotes stands for the values of the bits. -/
theorem inside_bits {bits : List Bit} (h : ∀ b ∈ bits, b.Writable) :
    Inside (bits.flatMap Bit.written) (bits.flatMap Bit.value) := by
  induction bits with
  | nil => exact .nil
  | cons b bits ih =>
    rw [List.flatMap_cons, List.flatMap_cons]
    refine .append ?_ (ih fun b hb => h b (List.mem_cons_of_mem _ hb))
    cases b with
    | char c => exact inside_escapeLiteral
    | code e =>
      have hneat : Neat false e.format.toList := h _ List.mem_cons_self
      refine inside_of_plain fun c hc => ?_
      simp only [Bit.written, Bit.braced, List.mem_cons, List.mem_append, List.not_mem_nil, or_false] at hc
      rcases hc with rfl | rfl | hc | rfl
      · decide
      · decide
      · exact not_special_of_bracesAfter (hneat 0) hc
      · decide

theorem bracedBody?_of_neat {cs : List Char} {d d' : Nat} (h : bracesAfter false d cs = some d')
    (body rest : List Char) : Template.bracedBody? d body (cs ++ rest) =
      Template.bracedBody? d' (cs.reverse ++ body) rest := by
  induction cs generalizing d body with
  | nil =>
    cases h
    rfl
  | cons c cs ih =>
    rw [bracesAfter_cons, braceStep] at h
    rw [List.cons_append, List.reverse_cons, List.append_assoc, List.singleton_append]
    simp only [Bool.false_eq_true, if_false] at h
    by_cases hopen : c = '{'
    · subst hopen
      rw [← ih (by simpa using h), Template.bracedBody?.eq_def]
      simp
    · by_cases hclose : c = '}'
      · subst hclose
        cases d with
        | zero => simp at h
        | succ d =>
          rw [← ih (by simpa using h), Template.bracedBody?.eq_def]
          simp
      · rw [if_neg hopen, if_neg hclose] at h
        split_ifs at h
        · cases h
        · cases h
        · rw [← ih h]
          simp [Template.bracedBody?, hopen, hclose]

theorem piecesFrom_char {c : Char} (hc : c ≠ '$') (acc : List Template.Piece) (cs : List Char) :
    Template.piecesFrom acc (c :: cs) = Template.piecesFrom (.char c :: acc) cs := by
  cases cs with
  | nil => simp [Template.piecesFrom]
  | cons d cs => rw [Template.piecesFrom, if_neg hc]

theorem piecesFrom_body {cs code rest : List Char} (h : Template.bracedBody? 0 [] cs = some (code, rest))
    (acc : List Template.Piece) :
    Template.piecesFrom acc ('$' :: '{' :: cs) = Template.piecesFrom (.code code :: acc) rest := by
  rw [Template.piecesFrom, if_pos rfl, if_pos rfl]
  split
  · rename_i hnone
    rw [h] at hnone
    cases hnone
  · rename_i code' rest hsome
    rw [h] at hsome
    cases hsome
    rfl

theorem piecesFrom_braced {code : List Char} (h : Neat false code) (acc : List Template.Piece) (cs : List Char) :
    Template.piecesFrom acc (Bit.braced code ++ cs) = Template.piecesFrom (.code code :: acc) cs := by
  have hbody : Template.bracedBody? 0 [] (code ++ '}' :: cs) = some (code, cs) := by
    rw [bracedBody?_of_neat (h 0)]
    simp [Template.bracedBody?]
  have htext : Bit.braced code ++ cs = '$' :: '{' :: (code ++ '}' :: cs) := by simp [Bit.braced]
  rw [htext, piecesFrom_body hbody]

/-- The values of the bits are cut into the bits again. -/
theorem piecesFrom_bits {bits : List Bit} (h : ∀ b ∈ bits, b.Writable) (acc : List Template.Piece)
    (rest : List Char) : Template.piecesFrom acc (bits.flatMap Bit.value ++ rest) =
      Template.piecesFrom ((bits.map Bit.piece).reverse ++ acc) rest := by
  induction bits generalizing acc with
  | nil => rfl
  | cons b bits ih =>
    have htail := ih fun b hb => h b (List.mem_cons_of_mem _ hb)
    rw [List.flatMap_cons, List.append_assoc]
    cases b with
    | char c =>
      have hc : (if c = '$' then escapedDollar else c) ≠ '$' := by
        split
        · decide
        · assumption
      rw [Bit.value, List.singleton_append, piecesFrom_char hc, htail]
      simp [Bit.piece]
    | code e =>
      rw [Bit.value, piecesFrom_braced (h _ List.mem_cons_self), htail]
      simp [Bit.piece]

theorem pieces_bits {bits : List Bit} (h : ∀ b ∈ bits, b.Writable) :
    Template.pieces (bits.flatMap Bit.value) = bits.map Bit.piece := by
  have hall := piecesFrom_bits h [] []
  rw [List.append_nil] at hall
  rw [Template.pieces, hall]
  simp [Template.piecesFrom]

/-- Bits that differ only as far as it does not show. -/
inductive Bit.Like : Bit → Bit → Prop where
  | char (c : Char) : Like (.char c) (.char c)
  | code {e e' : Expr} (h : Alike e e') : Like (.code e) (.code e')

/-- The pieces of the bits make up a literal of bits like them. -/
theorem joinPieces_bits {template : List Char → Except Diagnostic Expr} (tok : Token) {bits : List Bit}
    (hbits : ∀ b ∈ bits, b.Writable)
    (h : ∀ e, .code e ∈ bits → ∃ e', template e.format.toList = .ok e' ∧ Alike e e') :
    ∃ bits' : List Bit, List.Forall₂ Bit.Like bits bits' ∧ ∀ text size splices,
      joinPieces template tok text size splices (bits.map Bit.piece) = .ok (.str (.ofToken tok) (String.ofList
        ((text.reverse.map fun c => if c = escapedDollar then '$' else c) ++ Bit.chars bits))
        (splices.reverse ++ Bit.splices size bits')) := by
  induction bits with
  | nil => exact ⟨[], .nil, fun _ _ _ => by simp [joinPieces, Bit.chars, Bit.splices]⟩
  | cons b bits ih =>
    obtain ⟨bits', hlike, hjoin⟩ := ih (fun b hb => hbits b (List.mem_cons_of_mem _ hb))
      fun e he => h e (List.mem_cons_of_mem _ he)
    cases b with
    | char c =>
      have hc : c ≠ escapedDollar := hbits _ List.mem_cons_self
      have hshown : (if (if c = '$' then escapedDollar else c) = escapedDollar then '$'
          else if c = '$' then escapedDollar else c) = c := by
        split_ifs <;> simp_all
      refine ⟨.char c :: bits', .cons (.char c) hlike, fun text size splices => ?_⟩
      rw [List.map_cons, Bit.piece, joinPieces, hjoin]
      simp only [List.reverse_cons, List.map_append, List.map_cons, List.map_nil, hshown, List.append_assoc,
        List.singleton_append, Bit.chars, Bit.splices]
    | code e =>
      obtain ⟨e', he', halike⟩ := h e List.mem_cons_self
      refine ⟨.code e' :: bits', .cons (.code halike) hlike, fun text size splices => ?_⟩
      rw [List.map_cons, Bit.piece, joinPieces, he']
      simp only [hjoin]
      simp [Bit.chars, Bit.splices]

theorem splices_of_like {bits bits' : List Bit} (h : List.Forall₂ Bit.Like bits bits') (n : Nat) :
    Splice.outlines (Bit.splices n bits') = Splice.outlines (Bit.splices n bits) ∧
      Splice.formats (Bit.splices n bits') = Splice.formats (Bit.splices n bits) := by
  induction h generalizing n with
  | nil => exact ⟨rfl, rfl⟩
  | cons hb _ ih =>
    cases hb with
    | char c => exact ih (n + 1)
    | code halike =>
      obtain ⟨houtlines, hformats⟩ := ih n
      simp [Bit.splices, Splice.outlines, Splice.formats, houtlines, hformats, halike.outline, halike.format]

/-! ## Templates -/

/-- No template of a string holds a string. -/
def PlainTemplates (t : Token) : Prop :=
  ∀ code : List Char, .code code ∈ Template.pieces t.literal.toText.toList →
    ∀ ts, Token.scan code = .ok ts → ∀ u ∈ ts, u.kind ≠ .string

/-- Whether a piece of a string is no template that holds a string. -/
def isPlain : Template.Piece → Bool
  | .code code => (Token.scan code).toOption.all fun ts => ts.all fun u => u.kind ≠ .string
  | _ => true

theorem all_isPlain_iff {t : Token} :
    (Template.pieces t.literal.toText.toList).all isPlain = true ↔ PlainTemplates t := by
  rw [List.all_eq_true]
  constructor
  · intro h code hcode ts hscan
    have hplain := h _ hcode
    simpa [isPlain, hscan, Except.toOption] using hplain
  · intro h piece hpiece
    cases piece with
    | code code =>
      cases hscan : Token.scan code with
      | error d => simp [isPlain, hscan, Except.toOption]
      | ok ts => simpa [isPlain, hscan, Except.toOption] using h code hpiece ts hscan
    | _ => rfl

instance : DecidablePred PlainTemplates := fun _ => decidable_of_iff _ all_isPlain_iff

/-- The expression of a template without strings can be written again. -/
theorem renders_template {depth : Nat} {tok : Token} {code : List Char} {e : Expr}
    (h : templateWithin depth tok code = .ok e) (hplain : ∀ ts, Token.scan code = .ok ts → ∀ u ∈ ts, u.kind ≠ .string)
    (lit' : Token → Expr → Prop) : Renders false true Expr.format Alike (IsExpr lit' maxDepth) e := by
  obtain ⟨inner, n, -, hscan, hwhole⟩ := of_templateWithin h
  have hlegible : ∀ t ∈ inner, Legible (fun _ => False) t :=
    legible_of_scan hscan fun t ht hk => hplain inner hscan t ht hk
  have hstrings : KeepsStrings false (fun _ => False) (stringAt n) lit' := fun _ _ _ hfalse _ => hfalse.elim
  cases hwhole with
  | mk _ he _ => exact keeps_expr hstrings maxDepth (fun t ht => hlegible t (by simp [ht])) he

/-- A text that is read as an expression is read so inside a template. -/
theorem templateWithin_of_writes {depth : Nat} {signed : Bool} {code : List Char} {P : Expr → Prop}
    (h : Writes signed code fun us => ∃ e, IsExpr (stringAt depth) maxDepth us e ∧ P e) (tok : Token) :
    ∃ e, templateWithin (depth + 1) tok code = .ok e ∧ P e := by
  obtain ⟨us, ⟨e, he, hP⟩, hscan⟩ := h.scan
  have hwhole : IsWhole (stringAt depth) maxDepth ([] ++ (us ++ [])) e := .mk lineEnds_nil he lineEnds_nil
  rw [List.nil_append, List.append_nil] at hwhole
  have hrun : wholeExpr ⟨endToken us, us.length, templateWithin depth⟩ us = .ok (e, []) :=
    wholeExpr_of_isWhole (endToken_kind us) hwhole (Nat.le_refl _)
  refine ⟨e, ?_, hP⟩
  unfold templateWithin
  simp only [hscan]
  rw [hrun]

theorem templateWithin_of_renders {depth : Nat} {e : Expr}
    (h : Renders false true Expr.format Alike (IsExpr (stringAt depth) maxDepth) e) (tok : Token) :
    ∃ e', templateWithin (depth + 1) tok e.format.toList = .ok e' ∧ Alike e e' :=
  templateWithin_of_writes h.2 tok

/-! ## Literals -/

theorem neat_of_newline_notMem {cs : List Char} (h : '\n' ∉ cs) : Neat true cs :=
  neat_of_chars fun c hc d => by
    have hne : c ≠ '\n' := fun heq => h (heq ▸ hc)
    simp [braceStep, hne]

theorem newline_notMem_escapeLiteral (c : Char) : '\n' ∉ (escapeLiteral c).toList := by
  unfold escapeLiteral
  split <;> simp_all [eq_comm]

theorem newline_notMem_bits {bits : List Bit} (h : ∀ b ∈ bits, b.Writable) :
    '\n' ∉ bits.flatMap Bit.written := by
  intro hmem
  obtain ⟨b, hb, hnewline⟩ := List.mem_flatMap.mp hmem
  cases b with
  | char c =>
    exact newline_notMem_escapeLiteral c hnewline
  | code e =>
    have hneat : Neat false e.format.toList := h _ hb
    simp [Bit.written, Bit.braced, hneat.newline_notMem] at hnewline

/-- A string token that is read as a literal is parsed as it on its own. -/
theorem parse_of_stringAt {t : Token} {e : Expr} (ht : t.kind = .string) (h : stringAt (templateDepth [t]) t e) :
    Expr.parse [t] = .ok e := by
  have hunary : IsUnary (Parse.literal (contextOf [t])) 255 [t] e := isUnary_of_isPrimary (.string ht h)
  have hexpr : IsExpr (Parse.literal (contextOf [t])) maxDepth [t] e := .one (.one (.one (.one hunary)))
  exact Expr.parse_eq_ok_iff.mpr (.mk lineEnds_nil hexpr lineEnds_nil)

/-- A string literal is written bit by bit, between quotes. -/
theorem format_bits (t : Token) (bits : List Bit) :
    (Expr.str (.ofToken t) (String.ofList (Bit.chars bits)) (Bit.splices 0 bits)).format.toList =
      '"' :: (bits.flatMap Bit.written ++ ['"']) := by
  have hweave : weave "" 0 (Splice.formats (Bit.splices 0 bits)) (Bit.chars bits) =
      "" ++ String.ofList (bits.flatMap Bit.written) := weave_bits "" 0 bits
  simp [Expr.format, hweave, String.toList_append]

/-- A string literal whose templates hold no strings is made of bits that can be written. -/
theorem bits_of_stringAt {depth : Nat} {t : Token} {e : Expr} (hplain : PlainTemplates t) (he : stringAt depth t e) :
    ∃ bits : List Bit, e = .str (.ofToken t) (String.ofList (Bit.chars bits)) (Bit.splices 0 bits) ∧
      (∀ b ∈ bits, b.Writable) ∧ ∀ lit' x, .code x ∈ bits →
        Renders false true Expr.format Alike (IsExpr lit' maxDepth) x := by
  obtain ⟨bits, rfl, hchars, hcodes, -⟩ := bits_of_joinPieces he
  have hrenders (lit' : Token → Expr → Prop) (x : Expr) (hx : .code x ∈ bits) :
      Renders false true Expr.format Alike (IsExpr lit' maxDepth) x := by
    obtain ⟨code, hcode, hread⟩ := hcodes x hx
    exact renders_template hread (hplain code hcode) _
  refine ⟨bits, rfl, fun b hb => ?_, hrenders⟩
  cases b with
  | char c => exact hchars c hb
  | code x => exact (hrenders (fun _ _ => False) x hb).1

/-- A token that stands for the values of bits that can be written is read as bits like them. -/
theorem stringAt_bits {depth : Nat} {bits : List Bit} (hwritable : ∀ b ∈ bits, b.Writable)
    (hrenders : ∀ x, .code x ∈ bits → Renders false true Expr.format Alike (IsExpr (stringAt depth) maxDepth) x)
    {t : Token} (hliteral : t.literal = .text (String.ofList (bits.flatMap Bit.value))) :
    ∃ bits', List.Forall₂ Bit.Like bits bits' ∧ stringAt (depth + 1) t
      (.str (.ofToken t) (String.ofList (Bit.chars bits)) (Bit.splices 0 bits')) := by
  obtain ⟨bits', hlike, hjoin⟩ := joinPieces_bits t hwritable
    fun x hx => templateWithin_of_renders (hrenders x hx) t
  refine ⟨bits', hlike, ?_⟩
  rw [stringAt, hliteral, Token.Literal.toText, String.toList_ofList, pieces_bits hwritable, hjoin]
  simp

/-- A string literal whose templates hold no strings can be written again. -/
theorem keepsStrings (depth depth' : Nat) :
    KeepsStrings true PlainTemplates (stringAt depth) (stringAt (depth' + 1)) := by
  intro t e _ hplain he
  obtain ⟨bits, rfl, hwritable, hrenders⟩ := bits_of_stringAt hplain he
  rw [Renders, format_bits]
  refine ⟨rfl, neat_of_newline_notMem (by simp [newline_notMem_bits hwritable]),
    ((writes_string (inside_bits hwritable)).mono ?_).toSigned⟩
  rintro _ ⟨t', rfl, hk, hliteral⟩
  obtain ⟨bits', hlike, hread⟩ := stringAt_bits hwritable (hrenders (stringAt depth')) hliteral
  obtain ⟨houtlines, hformats⟩ := splices_of_like hlike 0
  refine ⟨_, ⟨t', rfl, hk, hread⟩, ?_, ?_, rfl⟩
  · simp [Expr.outline, houtlines]
  · simp [Expr.format, hformats]

/-- The string literal that a text is, with its token. -/
def stringOf? (text : Text) : Option (Token × Expr) :=
  match Token.scan text with
  | .ok [tok] => (stringLiteral tok (contextOf [tok]) []).toOption.map fun r => (tok, r.1)
  | _ => none

theorem of_stringOf? {text : Text} {tok : Token} {e : Expr} (h : stringOf? text = some (tok, e)) :
    Token.scan text = .ok [tok] ∧ stringLiteral tok (contextOf [tok]) [] = .ok (e, []) := by
  unfold stringOf? at h
  split at h
  · rename_i tok' hscan
    cases he : stringLiteral tok' (contextOf [tok']) [] with
    | error d => simp [he, Except.toOption] at h
    | ok r =>
      obtain ⟨e', rest⟩ := r
      obtain ⟨rfl, rfl⟩ : tok' = tok ∧ e' = e := by simpa [he, Except.toOption] using h
      obtain rfl : [] = rest := (of_stringLiteral he).1
      exact ⟨hscan, he⟩
  · cases h

end Written
end Kotlet

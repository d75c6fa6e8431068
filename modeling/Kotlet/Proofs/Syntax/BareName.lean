import Kotlet.Proofs.Syntax.Written.Literal

/-!
# Names behind dollar signs

A dollar sign with the beginning of a name behind it starts a template. The name begins where a word
can begin, and takes the word that would be scanned there. A decimal digit of another script goes on
a name, though, but no word: right behind the word it is taken too, and then the template is not a
token.

* `startsName_eq`, `continuesName_eq` : the characters of names and of words;
* `pieces_append_dollar` : a literal is split in front of every dollar sign outside of braces;
* `scan_word`, `scan_overlong` : the text of a name is scanned as one token, or not at all;
* `Bare` : what a name takes of a text, compared with the word at its beginning;
* `pieces_bare` : what stands behind a dollar sign outside of braces.
-/

namespace Kotlet
namespace Template

open Token (startsWord continuesWord isNumeral word wordToken)
open Written (piecesFrom_char piecesFrom_body)

variable {c d : Char} {cs before rest : List Char}

/-! ## Characters -/

theorem isAlpha_of_large (h : 0x80 ≤ c.toNat) : c.isAlpha = false := by
  have hlarge : 0x80 ≤ c.val.toNat := h
  delta Char.isAlpha Char.isUpper Char.isLower
  simp [UInt32.le_iff_toNat_le]
  omega

/-- Names begin like words. -/
theorem startsName_eq (c : Char) : startsName c = startsWord c := by
  unfold startsName startsWord isLetter
  by_cases h : c.toNat < 0x80
  · simp [h, Nat.not_le.mpr h, Bool.or_comm]
  · simp [h, Nat.not_lt.mp h, isAlpha_of_large (Nat.not_lt.mp h)]

theorem isDecimalDigit_of_isNumeral (h : isNumeral c = true) : isDecimalDigit c = true := by
  simp only [isNumeral, Bool.and_eq_true, decide_eq_true_eq] at h
  have hnine : c.toNat ≤ '9'.toNat := UInt32.le_iff_toNat_le.mp h.2
  have hsmall : c.toNat < 0x80 := Nat.lt_of_le_of_lt hnine (by decide)
  rw [isDecimalDigit, if_pos hsmall, Char.isDigit]
  exact Bool.and_eq_true_iff.mpr ⟨decide_eq_true h.1, decide_eq_true h.2⟩

/-- Names go on like words, and with the decimal digits of all scripts. -/
theorem continuesName_eq (c : Char) : continuesName c = (continuesWord c || isDecimalDigit c) := by
  unfold continuesName continuesWord
  rw [startsName_eq]
  cases hnumeral : isNumeral c with
  | false => simp
  | true => simp [isDecimalDigit_of_isNumeral hnumeral]

theorem continuesName_of_continuesWord (h : continuesWord c = true) : continuesName c = true := by
  rw [continuesName_eq, h, Bool.true_or]

/-! ## Splitting in front of a dollar sign -/

theorem piecesFrom_acc (acc : List Piece) (cs : List Char) :
    piecesFrom acc cs = acc.reverse ++ pieces cs := by
  suffices ∀ acc cs (more : List Piece), piecesFrom (acc ++ more) cs = more.reverse ++ piecesFrom acc cs from
    this [] cs acc
  intro acc cs more
  fun_induction piecesFrom acc cs with
  | case1 acc => simp [piecesFrom]
  | case2 acc c => simp [piecesFrom]
  | case3 acc cs hbody =>
    rw [piecesFrom, if_pos rfl, if_pos rfl]
    split <;> simp_all
  | case4 acc cs code rest hbody ih => rw [piecesFrom_body hbody, ← List.cons_append, ih]
  | case5 acc d cs hd hname ih => rw [piecesFrom, if_pos rfl, if_neg hd, if_pos hname, ← List.cons_append, ih]
  | case6 acc d cs hd hname ih => rw [piecesFrom, if_pos rfl, if_neg hd, if_neg hname, ← List.cons_append, ih]
  | case7 acc c d cs hc ih => rw [piecesFrom_char hc, ← List.cons_append, ih]

theorem bracedBody?_append {depth : Nat} {body code : List Char} (h : bracedBody? depth body cs = some (code, rest))
    (ds : List Char) : bracedBody? depth body (cs ++ ds) = some (code, rest ++ ds) := by
  induction cs generalizing depth body with
  | nil => cases h
  | cons c cs ih =>
    rw [bracedBody?.eq_def] at h
    rw [List.cons_append, bracedBody?.eq_def]
    simp only at h ⊢
    split at h
    · rename_i hopen
      rw [if_pos hopen]
      exact ih h
    · rename_i hopen
      rw [if_neg hopen]
      split at h
      · rename_i hclose
        rw [if_pos hclose]
        cases depth with
        | zero =>
          cases h
          rfl
        | succ depth => exact ih h
      · rename_i hclose
        rw [if_neg hclose]
        exact ih h

theorem piecesFrom_bare (hd : startsWord d = true) (acc : List Piece) (cs : List Char) :
    piecesFrom acc ('$' :: d :: cs) =
      piecesFrom (.code (d :: cs.takeWhile continuesName) :: acc) (cs.dropWhile continuesName) := by
  have hbrace : d ≠ '{' := by
    rintro rfl
    exact absurd hd (by decide)
  rw [piecesFrom, if_pos rfl, if_neg hbrace, if_pos (startsName_eq d ▸ hd)]

/-- A dollar sign that starts no template. -/
theorem piecesFrom_dollar (hd : startsWord d = false) (hbrace : d ≠ '{') (acc : List Piece) (cs : List Char) :
    piecesFrom acc ('$' :: d :: cs) = piecesFrom (.char '$' :: acc) (d :: cs) := by
  have hname : ¬ startsName d = true := by simp [startsName_eq, hd]
  rw [piecesFrom, if_pos rfl, if_neg hbrace, if_neg hname]

theorem takeWhile_append_cons {q : Char → Bool} (hc : q c = false) (cs rest : List Char) :
    (cs ++ c :: rest).takeWhile q = cs.takeWhile q ∧
      (cs ++ c :: rest).dropWhile q = cs.dropWhile q ++ c :: rest := by
  induction cs with
  | nil => simp [hc]
  | cons d cs ih => cases hd : q d <;> simp [hd, ih]

/-- A literal is split in front of every dollar sign that stands outside of braces. -/
theorem pieces_append_dollar (h : .unclosed ∉ pieces before) (rest : List Char) :
    pieces (before ++ '$' :: rest) = pieces before ++ pieces ('$' :: rest) := by
  suffices ∀ acc, .unclosed ∉ piecesFrom acc before →
      piecesFrom acc (before ++ '$' :: rest) = piecesFrom acc before ++ pieces ('$' :: rest) from this [] h
  clear h
  intro acc hclosed
  fun_induction piecesFrom acc before with
  | case1 acc => exact piecesFrom_acc acc _
  | case2 acc c =>
    by_cases hc : c = '$'
    · subst hc
      exact (piecesFrom_dollar (by decide) (by decide) acc rest).trans (piecesFrom_acc _ _)
    · exact (piecesFrom_char hc acc _).trans (piecesFrom_acc _ _)
  | case3 acc => simp at hclosed
  | case4 acc cs code tail hbody ih =>
    rw [List.cons_append, List.cons_append, piecesFrom_body (bracedBody?_append hbody _), ih hclosed]
  | case5 acc d cs hd hname ih =>
    obtain ⟨htake, hdrop⟩ := takeWhile_append_cons (q := continuesName) (c := '$') (by decide) cs rest
    rw [List.cons_append, List.cons_append, piecesFrom_bare (startsName_eq d ▸ hname), htake, hdrop]
    exact ih hclosed
  | case6 acc d cs hd hname ih =>
    rw [startsName_eq, Bool.not_eq_true] at hname
    rw [List.cons_append, List.cons_append, piecesFrom_dollar hname hd]
    exact ih hclosed
  | case7 acc c d cs hc ih =>
    rw [List.cons_append, piecesFrom_char hc]
    exact ih hclosed

/-! ## Scanning a name -/

/-- A longer run of characters goes on where the shorter one ends. -/
theorem takeWhile_of_imp {p q : Char → Bool} (hpq : ∀ c, p c = true → q c = true) (cs : List Char) :
    cs.takeWhile q = cs.takeWhile p ++ (cs.dropWhile p).takeWhile q ∧
      cs.dropWhile q = (cs.dropWhile p).dropWhile q := by
  have hall : ∀ c ∈ cs.takeWhile p, q c = true := fun c hc =>
    hpq c (List.all_eq_true.mp List.all_takeWhile c hc)
  constructor
  · conv_lhs => rw [← List.takeWhile_append_dropWhile (p := p) (l := cs)]
    exact List.takeWhile_append_of_pos hall
  · conv_lhs => rw [← List.takeWhile_append_dropWhile (p := p) (l := cs)]
    exact List.dropWhile_append_of_pos hall

theorem scan_word (hd : startsWord d = true) (hcs : ∀ c ∈ cs, continuesWord c = true) :
    Token.scan (.ofChars (d :: cs)) = .ok [wordToken (String.ofList (d :: cs)) .start] := by
  have hspelling : Token.IsSpelling (String.ofList (d :: cs)) := by
    simpa [Token.IsSpelling, hd, continuesWord] using hcs
  have hend (ended : Bool) (p : Pos) : Token.Scans ended p (.ofChars []) [] := Token.scans_nil
  simpa using Token.scan_of_scans (Token.Scans.word hspelling (hend _ _) Token.free_nil)

/-- A digit that goes on a name but no word. -/
structure Foreign (c : Char) : Prop where
  digit : isDecimalDigit c = true
  noWord : continuesWord c = false

theorem Foreign.large (h : Foreign c) : 0x80 ≤ c.toNat := by
  by_contra hsmall
  have hdigit := h.digit
  have hword := h.noWord
  rw [isDecimalDigit, if_pos (Nat.not_le.mp hsmall)] at hdigit
  have hnumeral : isNumeral c = true := hdigit
  simp [continuesWord, hnumeral] at hword

theorem Foreign.readLexeme (h : Foreign c) (prev : Option Token.Kind) (cs : List Char) :
    Token.readLexeme prev c cs = .error (.unexpected c) := by
  have hlarge := h.large
  obtain ⟨hstart, hnumeral⟩ := Bool.or_eq_false_iff.mp h.noWord
  have hquote : c ≠ '"' := by rintro rfl; revert hlarge; decide
  have hminus : c ≠ '-' := by rintro rfl; revert hlarge; decide
  have hchar : Token.fixedChar? c = none := by
    unfold Token.fixedChar?
    split <;> first | rfl | (exfalso; revert hlarge; decide)
  have hpair (d : Char) : Token.fixedPair? c d = none := by
    unfold Token.fixedPair?
    split <;> first | rfl | (exfalso; revert hlarge; decide)
  have hfixed : Token.fixed? (c :: cs) = none := by cases cs <;> simp [Token.fixed?, hchar, hpair]
  unfold Token.readLexeme
  rw [if_neg hquote, if_neg fun hm => hminus hm.1, hfixed]
  simp [hstart, hnumeral]

theorem Foreign.startsToken (h : Foreign c) (cs : List Char) : Token.StartsToken c cs := by
  have hlarge := h.large
  refine ⟨?_, ?_⟩
  · by_contra hblank
    simp only [Token.isBlank, Bool.not_eq_false, Bool.or_eq_true, beq_iff_eq] at hblank
    obtain (rfl | rfl) | rfl := hblank <;> (revert hlarge; decide)
  · rintro rfl
    exact absurd hlarge (by decide)

theorem scan_overlong (hd : startsWord d = true) (hcs : ∀ c ∈ cs, continuesWord c = true) (hc : Foreign c)
    (rest : List Char) : Token.scan (.ofChars (d :: (cs ++ c :: rest))) =
      .error ((Token.ScanError.unexpected c).toDiagnostic (Pos.start.after (d :: cs))) := by
  have hword : ∀ e ∈ d :: cs, continuesWord e = true := by simpa [continuesWord, hd] using hcs
  have hend : ∀ e ∈ (c :: rest).head?, continuesWord e = false := by simpa using hc.noWord
  obtain ⟨htake, hdrop⟩ := Token.takeWhile_append_of_free hword hend
  have hread := Token.readLexeme_of_startsWord hd none (cs ++ c :: rest)
  rw [word, ← List.cons_append, htake, hdrop] at hread
  have htext : Text.ofChars (d :: (cs ++ c :: rest)) = .ofChars (d :: cs) ++ .ofChars (c :: rest) :=
    Text.ofChars_append (d :: cs) (c :: rest)
  let turn : Token.Turn none .start :=
    ⟨[], .ofChars (d :: cs), .ofChars (c :: rest), d, cs ++ c :: rest, _,
      by
        rw [List.nil_append, ← htext, Text.chars_ofChars]
        exact Token.skipGap_of_startsToken (Token.startsToken_of_startsWord hd _),
      hread, Text.chars_ofChars _, Text.chars_ofChars _⟩
  rw [Token.scan, htext]
  refine (@Token.scanFrom_turn _ [] _ turn).trans ?_
  -- the digit stands behind the word
  have hnext : turn.next = Pos.start.after (d :: cs) :=
    congrArg Pos.start.after (Text.chars_ofChars (d :: cs))
  have hsteps : List.length (Text.ofChars (d :: cs) ++ Text.ofChars (c :: rest)) =
      (cs.length + (c :: rest).length) + 1 := by
    simp only [List.length_append, Text.length_ofChars, List.length_cons]
    omega
  rw [hsteps, Token.scanFrom, Text.chars_ofChars, Token.skipGap_of_startsToken (hc.startsToken _)]
  simp only [hc.readLexeme]
  exact congrArg (fun q => Except.error ((Token.ScanError.unexpected c).toDiagnostic q)) hnext

/-! ## Names and words -/

/-- What the name at the beginning of a text takes, and what it leaves. -/
structure Bare (text name rest : List Char) : Prop where
  split : text = name ++ rest
  /-- It takes the word that is scanned there, unless a digit of another script goes on. -/
  eq_word_iff : name = (word text).chars ↔ ∀ c ∈ (word text).rest.head?, isDecimalDigit c = false
  /-- The word is one token, an identifier or a reserved word. -/
  token : name = (word text).chars → ∃ tok, Token.scan name = .ok [tok] ∧ tok.lexeme = name ∧
    (tok.kind = .ident ∨ tok.kind.isKeyword = true ∨ tok.kind.isTypeName = true)
  /-- With such a digit it is none. -/
  overlong : ∀ c ∈ (word text).rest.head?, isDecimalDigit c = true → Token.scan name =
    .error ((Token.ScanError.unexpected c).toDiagnostic (Pos.start.after (word text).chars))
  /-- What is left does not go on the name. -/
  left : ∀ c ∈ rest.head?, continuesName c = false

theorem kind_ofWord (w : String) : Token.Kind.ofWord w = .ident ∨ (Token.Kind.ofWord w).isKeyword = true ∨
    (Token.Kind.ofWord w).isTypeName = true :=
  Token.ofWord_cases (P := fun k => k = .ident ∨ k.isKeyword = true ∨ k.isTypeName = true) (.inl rfl)
    (by decide) w

/-- What no longer satisfies a predicate stands first behind those that do. -/
theorem head?_dropWhile {q : Char → Bool} (cs : List Char) : ∀ c ∈ (cs.dropWhile q).head?, q c = false := by
  intro c hc
  simpa [Option.mem_def.mp hc] using List.head?_dropWhile_not q cs

theorem bare_takeWhile (hd : startsWord d = true) (cs : List Char) :
    Bare (d :: cs) (d :: cs.takeWhile continuesName) (cs.dropWhile continuesName) := by
  have hgoes : continuesWord d = true := by simp [continuesWord, hd]
  have hchars : (word (d :: cs)).chars = d :: cs.takeWhile continuesWord := by simp [word, hgoes]
  have hrest : (word (d :: cs)).rest = cs.dropWhile continuesWord := by simp [word, hgoes]
  have hall : ∀ c ∈ cs.takeWhile continuesWord, continuesWord c = true := fun c hc =>
    List.all_eq_true.mp List.all_takeWhile c hc
  have hstops := head?_dropWhile (q := continuesWord) cs
  obtain ⟨htake, -⟩ := takeWhile_of_imp (fun c => continuesName_of_continuesWord (c := c)) cs
  refine ⟨by simp, ?_, fun hname => ?_, ?_, head?_dropWhile cs⟩
  · rw [hchars, hrest, htake]
    cases hmore : cs.dropWhile continuesWord with
    | nil => simp
    | cons c more =>
      have hc : continuesWord c = false := hstops c (by simp [hmore])
      cases hdigit : isDecimalDigit c <;> simp [continuesName_eq, hc, hdigit]
  · rw [hname, hchars]
    exact ⟨_, scan_word hd hall, Text.ofString_ofList _, kind_ofWord _⟩
  · intro c hc hdigit
    rw [hrest] at hc
    obtain ⟨more, hmore⟩ : ∃ more, cs.dropWhile continuesWord = c :: more := List.head?_eq_some_iff.mp hc
    have hforeign : Foreign c := ⟨hdigit, hstops c hc⟩
    have hgoes' : continuesName c = true := by simp [continuesName_eq, hdigit]
    rw [hchars, htake, hmore, List.takeWhile_cons_of_pos hgoes']
    exact scan_overlong hd hall hforeign _

/-- Outside of braces, a dollar sign with the beginning of a word behind it is a template, whose name
takes that word and no more, unless a decimal digit of another script stands right behind the word. The
name is then no token. What stands behind the name stands for itself up to the next dollar sign. -/
theorem pieces_bare (h : .unclosed ∉ pieces before) (hd : startsWord d = true) (cs : List Char) :
    (∀ prev, Token.readLexeme prev d cs = .ok (word (d :: cs))) ∧
      ∃ name rest, Bare (d :: cs) name rest ∧
        pieces (before ++ '$' :: d :: cs) = pieces before ++ .code name :: pieces rest ∧
        ∀ c more, rest = c :: more → c ≠ '$' → pieces rest = .char c :: pieces more := by
  refine ⟨fun prev => Token.readLexeme_of_startsWord hd prev cs, _, _, bare_takeWhile hd cs, ?_, ?_⟩
  · have hname : pieces ('$' :: d :: cs) = .code (d :: cs.takeWhile continuesName) ::
        pieces (cs.dropWhile continuesName) := (piecesFrom_bare hd [] cs).trans (piecesFrom_acc _ _)
    rw [pieces_append_dollar h, hname]
  · rintro c more hrest hc
    rw [hrest]
    exact (piecesFrom_char hc [] more).trans (piecesFrom_acc _ _)

/-- Letters of any script go on a word and a name, and a blank goes on neither. -/
theorem pieces_bare_umlaut : .unclosed ∉ pieces "${1}: ".toList ∧ startsWord 'g' = true ∧
    ∃ name rest, Bare "größe2 cm".toList name rest ∧
      pieces "${1}: $größe2 cm".toList = pieces "${1}: ".toList ++ .code name :: pieces rest := by
  have hclosed : .unclosed ∉ pieces "${1}: ".toList := by decide +kernel
  obtain ⟨-, name, rest, hbare, hpieces, -⟩ := pieces_bare hclosed (d := 'g') (by decide) "röße2 cm".toList
  exact ⟨hclosed, by decide, name, rest, hbare, hpieces⟩

/-- The digit three of the Arabic script is taken as a part of the name, where no token goes on. -/
theorem bare_name_overlong : ¬ ∀ before d cs, .unclosed ∉ pieces before → startsWord d = true →
    ∃ name rest, name = (word (d :: cs)).chars ∧ (∃ tok, Token.scan name = .ok [tok]) ∧
      pieces (before ++ '$' :: d :: cs) = pieces before ++ .code name :: pieces rest := by
  intro h
  obtain ⟨name, rest, hname, -, hpieces⟩ := h [] 'x' ['\u0663'] (by simp [pieces, piecesFrom]) (by decide)
  have hsplit : pieces ['$', 'x', '\u0663'] = [.code ['x', '\u0663']] := by decide +kernel
  have hword : (word ['x', '\u0663']).chars = ['x'] := by decide +kernel
  rw [List.nil_append, hsplit, hname, hword] at hpieces
  simp [pieces, piecesFrom] at hpieces

end Template
end Kotlet

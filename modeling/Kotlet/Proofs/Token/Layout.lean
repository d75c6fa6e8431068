import Kotlet.Text.Glyph
import Kotlet.Token.Scan

/-!
# Scanned texts and their tokens

Scanning loses nothing: a text is made of the spellings of its tokens and of the gaps between them,
and each token stands where it says.

* `Blanks`, `LineComment`, `Gap.Between` : what may stand between tokens;
* `Placed`, `layout` : a token with the gap before it, and the text of several;
* `lineAfter`, `columnAfter` : places counted in the text before them;
* `eq_append_of_skipGap`, `eq_append_of_readLexeme` : what the two steps of the scanner take away;
* `Turn`, `scanFrom_turn`, `turn_of_scanFrom` : how a text is cut where a token is read;
* `laid_of_scan` : whole texts.

A stray byte is one glyph, so it counts as one character. The spellings of strings keep it.
-/

namespace Kotlet

/-! ## Places -/

namespace Pos

theorem after_append (p : Pos) (cs ds : List Char) : p.after (cs ++ ds) = (p.after cs).after ds :=
  List.foldl_append

/-- Places go down the lines, and to the right on a line. -/
theorem line_lt_or_of_after (p : Pos) (cs : List Char) :
    p.line < (p.after cs).line ∨ (p.after cs).line = p.line ∧ (p.after cs).col = p.col + cs.length := by
  induction cs generalizing p with
  | nil => exact .inr ⟨rfl, rfl⟩
  | cons c cs ih =>
    have htail := ih (p.next c)
    change p.line < ((p.next c).after cs).line ∨ ((p.next c).after cs).line = p.line ∧
      ((p.next c).after cs).col = p.col + (cs.length + 1)
    by_cases hc : c = '\n'
    · have hline : (p.next c).line = p.line + 1 := by simp [next, hc]
      omega
    · have hline : (p.next c).line = p.line := by simp [next, hc]
      have hcol : (p.next c).col = p.col + 1 := by simp [next, hc]
      omega

/-- No place comes twice. -/
theorem after_cons_ne (p : Pos) (c : Char) (cs : List Char) : p.after (c :: cs) ≠ p := by
  intro h
  have hmoved := p.line_lt_or_of_after (c :: cs)
  rw [h, List.length_cons] at hmoved
  omega

end Pos

/-- The line after a text that starts on the first one. -/
def lineAfter (text : Text) : Nat := 1 + text.count (.char '\n')

/-- The column after a text: what stands behind its last line feed counts. -/
def columnAfter (text : Text) : Nat := 1 + (text.reverse.takeWhile (· ≠ .char '\n')).length

theorem Glyph.toChar_eq_newline {g : Glyph} : g.toChar = '\n' ↔ g = .char '\n' := by
  cases g with
  | char c => simp [Glyph.toChar]
  | stray b => simp [Glyph.toChar, replacementChar]

/-- The scanner counts lines and columns as they are. -/
theorem Pos.after_start (text : Text) :
    Pos.start.after text.chars = ⟨lineAfter text, columnAfter text⟩ := by
  suffices h : ∀ reversed : Text, Pos.start.after (Text.chars reversed.reverse) =
      ⟨lineAfter reversed.reverse, columnAfter reversed.reverse⟩ by
    simpa using h text.reverse
  intro reversed
  induction reversed with
  | nil => rfl
  | cons g text ih =>
    have hchars : Text.chars (g :: text).reverse = Text.chars text.reverse ++ [g.toChar] := by
      simp [Text.chars]
    rw [hchars, Pos.after_append, ih]
    change Pos.next _ g.toChar = _
    by_cases hg : g = .char '\n'
    · subst hg
      simp [Pos.next, Glyph.toChar, lineAfter, columnAfter]
      omega
    · have hne : g.toChar ≠ '\n' := fun h => hg (Glyph.toChar_eq_newline.mp h)
      simp [Pos.next, hne, hg, lineAfter, columnAfter]
      omega

namespace Token

/-! ## Gaps -/

/-- Blanks and closed block comments. -/
inductive Blanks : List Char → Prop where
  | nil : Blanks []
  | blank {c : Char} {cs : List Char} (hc : isBlank c = true) (h : Blanks cs) : Blanks (c :: cs)
  | comment {body cs : List Char} (hbody : ¬ ['*', '/'] <:+: body) (h : Blanks cs) :
    Blanks ('/' :: '*' :: (body ++ '*' :: '/' :: cs))

/-- A comment up to the end of its line. -/
def LineComment (cs : List Char) : Prop := ∃ body, cs = '/' :: '/' :: body ∧ '\n' ∉ body

/-- What may stand between two tokens, of which the second is of the kind `next`, if there is one:
blanks and closed comments, and a comment up to the end of the line only where the line ends. -/
def Between (next : Option Kind) (cs : List Char) : Prop :=
  ∃ blanks comment, cs = blanks ++ comment ∧ Blanks blanks ∧
    (comment = [] ∨ LineComment comment ∧ ∀ k, next = some k → k = .newline)

/-- A gap that is followed by a text. -/
def Ahead (cs rest : List Char) : Prop :=
  ∃ blanks comment, cs = blanks ++ comment ∧ Blanks blanks ∧
    (comment = [] ∨ LineComment comment ∧ ∀ c, rest.head? = some c → c = '\n')

/-- What is skipped from where the reader of a gap stands. -/
def Gap.Skips : Gap → List Char → List Char → Prop
  | .blank, cs, rest => Ahead cs rest
  | .line, cs, rest => '\n' ∉ cs ∧ ∀ c, rest.head? = some c → c = '\n'
  | .block _, cs, rest => ∃ body after, cs = body ++ '*' :: '/' :: after ∧
    ¬ ['*', '/'] <:+: body ∧ Ahead after rest

theorem Ahead.blank {c : Char} {cs rest : List Char} (hc : isBlank c = true) (h : Ahead cs rest) :
    Ahead (c :: cs) rest := by
  obtain ⟨blanks, comment, rfl, hb, hcomment⟩ := h
  exact ⟨c :: blanks, comment, rfl, .blank hc hb, hcomment⟩

theorem Ahead.comment {body cs rest : List Char} (hbody : ¬ ['*', '/'] <:+: body)
    (h : Ahead cs rest) : Ahead ('/' :: '*' :: (body ++ '*' :: '/' :: cs)) rest := by
  obtain ⟨blanks, comment, rfl, hb, hcomment⟩ := h
  exact ⟨'/' :: '*' :: (body ++ '*' :: '/' :: blanks), comment, by simp, .comment hbody hb, hcomment⟩

/-- A comment goes on until both of its closing characters stand together. -/
theorem not_closed_cons {c : Char} {body : List Char} (hbody : ¬ ['*', '/'] <:+: body)
    (hopen : ∀ cs, c = '*' → body ≠ '/' :: cs) : ¬ ['*', '/'] <:+: c :: body := by
  rw [List.infix_cons_iff]
  rintro (⟨cs, h⟩ | h)
  · obtain ⟨rfl, rfl⟩ : '*' = c ∧ '/' :: cs = body := by simpa using h
    exact hopen cs rfl rfl
  · exact hbody h

/-- What is skipped is a gap, and the place after it is counted on. -/
theorem eq_append_of_skipGap {gap : Gap} {p q : Pos} {cs rest : List Char}
    (h : skipGap gap p cs = .ok (q, rest)) :
    ∃ skipped, cs = skipped ++ rest ∧ q = p.after skipped ∧ gap.Skips skipped rest := by
  fun_induction skipGap gap p cs with
  | case1 p cs ih =>
    obtain ⟨skipped, rfl, hq, hno, hrest⟩ := ih h
    refine ⟨'/' :: '/' :: skipped, rfl, hq, [], _, rfl, .nil, .inr ⟨⟨skipped, rfl, hno⟩, hrest⟩⟩
  | case2 p cs ih =>
    obtain ⟨skipped, rfl, hq, body, after, rfl, hbody, hafter⟩ := ih h
    exact ⟨'/' :: '*' :: (body ++ '*' :: '/' :: after), rfl, hq, .comment hbody hafter⟩
  | case3 p c cs _ _ hc ih =>
    obtain ⟨skipped, rfl, hq, hgap⟩ := ih h
    exact ⟨c :: skipped, rfl, hq, .blank hc hgap⟩
  | case4 p c cs =>
    cases h
    exact ⟨[], rfl, rfl, [], [], rfl, .nil, .inl rfl⟩
  | case5 p cs =>
    cases h
    exact ⟨[], rfl, rfl, List.not_mem_nil, fun c hc => by simpa using hc.symm⟩
  | case6 p c cs hc ih =>
    obtain ⟨skipped, rfl, hq, hno, hrest⟩ := ih h
    exact ⟨c :: skipped, rfl, hq, by simp [hno, Ne.symm hc], hrest⟩
  | case7 opened p cs ih =>
    obtain ⟨skipped, rfl, hq, hgap⟩ := ih h
    exact ⟨'*' :: '/' :: skipped, rfl, hq, [], skipped, rfl, by simp, hgap⟩
  | case8 opened p c cs hopen ih =>
    obtain ⟨skipped, rfl, hq, body, after, rfl, hbody, hafter⟩ := ih h
    refine ⟨c :: (body ++ '*' :: '/' :: after), rfl, hq, c :: body, after, rfl,
      not_closed_cons hbody fun ds hc hds => ?_, hafter⟩
    subst hds
    exact hopen _ hc rfl
  | case9 => cases h
  | case10 gap p hopen =>
    cases h
    refine ⟨[], rfl, rfl, ?_⟩
    cases gap with
    | blank => exact ⟨[], [], rfl, .nil, .inl rfl⟩
    | line => exact ⟨List.not_mem_nil, by simp⟩
    | block opened => exact (hopen opened rfl).elim

/-! ## Lexemes -/

theorem eq_append_of_fixed? {cs : List Char} {l : Lexeme} (h : fixed? cs = some l) :
    cs = l.chars ++ l.rest := by
  unfold fixed? at h
  split at h
  · cases h
  · obtain ⟨k, -, rfl⟩ := Option.map_eq_some_iff.mp h
    rfl
  · split at h
    · cases h
      rfl
    · obtain ⟨k, -, rfl⟩ := Option.map_eq_some_iff.mp h
      rfl

theorem eq_append_of_stringBody (spelled value cs : List Char) :
    spelled.reverse ++ cs = (stringBody spelled value cs).chars ++ (stringBody spelled value cs).rest := by
  fun_induction stringBody spelled value cs <;> simp_all

/-- A number is spelled with its digits. -/
theorem eq_of_number {negative : Bool} {cs : List Char} {l : Lexeme}
    (h : number negative cs = .ok l) : ∃ value, l = ⟨.int,
      if negative then '-' :: cs.takeWhile isNumeral else cs.takeWhile isNumeral, .int value,
      cs.dropWhile isNumeral⟩ := by
  unfold number at h
  dsimp only at h
  split at h
  · cases h
  · generalize (if negative = true then -(numeralValue (cs.takeWhile isNumeral) : Int)
      else numeralValue (cs.takeWhile isNumeral)) = value at h
    split at h
    · exact ⟨_, (Except.ok.inj h).symm⟩
    · cases h

theorem eq_append_of_number {negative : Bool} {cs : List Char} {l : Lexeme}
    (h : number negative cs = .ok l) :
    (if negative then '-' :: cs else cs) = l.chars ++ l.rest := by
  obtain ⟨value, rfl⟩ := eq_of_number h
  have hsplit : cs.takeWhile isNumeral ++ cs.dropWhile isNumeral = cs :=
    List.takeWhile_append_dropWhile
  cases negative <;> simp [hsplit]

/-- A lexeme is the beginning of the text. -/
theorem eq_append_of_readLexeme {prev : Option Kind} {c : Char} {cs : List Char} {l : Lexeme}
    (h : readLexeme prev c cs = .ok l) : c :: cs = l.chars ++ l.rest := by
  unfold readLexeme at h
  split at h
  · rename_i hc
    cases h
    rw [hc]
    exact eq_append_of_stringBody ['"'] [] cs
  · split at h
    · rename_i hc
      have hnumber := eq_append_of_number h
      rw [hc.1]
      exact hnumber
    · split at h
      · rename_i l' hl
        cases h
        exact eq_append_of_fixed? hl
      · split at h
        · cases h
          exact (List.takeWhile_append_dropWhile).symm
        · split at h
          · exact eq_append_of_number h
          · cases h

/-- Two characters that stand together as a token are both of it. -/
theorem chars_of_fixed? {c : Char} {cs : List Char} {l : Lexeme} (h : fixed? (c :: cs) = some l) :
    ∃ ds, l.chars = c :: ds := by
  unfold fixed? at h
  split at h
  · cases h
  · obtain ⟨k, -, rfl⟩ := Option.map_eq_some_iff.mp h
    rename_i heq
    cases heq
    exact ⟨[], rfl⟩
  · rename_i heq
    cases heq
    split at h
    · cases h
      exact ⟨[_], rfl⟩
    · obtain ⟨k, -, rfl⟩ := Option.map_eq_some_iff.mp h
      exact ⟨[], rfl⟩

theorem length_spelled_le_of_stringBody (spelled value cs : List Char) :
    spelled.length ≤ (stringBody spelled value cs).chars.length := by
  fun_induction stringBody spelled value cs <;> simp_all <;> omega

/-- A lexeme is made of a character at least. -/
theorem chars_ne_nil_of_readLexeme {prev : Option Kind} {c : Char} {cs : List Char} {l : Lexeme}
    (h : readLexeme prev c cs = .ok l) : l.chars ≠ [] := by
  have hnumber {negative : Bool} {ds : List Char} (hds : negative = true ∨ ds.head?.any isNumeral)
      (h : number negative ds = .ok l) : l.chars ≠ [] := by
    obtain ⟨value, rfl⟩ := eq_of_number h
    rcases hds with rfl | hds
    · exact List.cons_ne_nil _ _
    · cases ds with
      | nil => cases hds
      | cons d ds =>
        have hd : isNumeral d = true := hds
        cases negative <;> simp [hd]
  unfold readLexeme at h
  split at h
  · cases h
    have hlen := length_spelled_le_of_stringBody ['"'] [] cs
    exact List.ne_nil_of_length_pos hlen
  · split at h
    · exact hnumber (.inl rfl) h
    · split at h
      · rename_i l' hl
        cases h
        obtain ⟨ds, hds⟩ := chars_of_fixed? hl
        simp [hds]
      · split at h
        · rename_i hc
          cases h
          simp [word, continuesWord, hc]
        · split at h
          · rename_i hc
            have hdigit : (c :: cs).head?.any isNumeral = true := hc
            exact hnumber (.inr hdigit) h
          · cases h

/-- The end of a line is a token of its own. -/
theorem kind_of_newline {prev : Option Kind} {cs : List Char} {l : Lexeme}
    (h : readLexeme prev '\n' cs = .ok l) : l.kind = .newline := by
  have hfixed : fixed? ('\n' :: cs) = some (fixed .newline ['\n'] cs) := by
    cases cs <;> rfl
  unfold readLexeme at h
  rw [if_neg (by decide), if_neg (fun hc => absurd hc.1 (by decide)), hfixed] at h
  cases h
  rfl

/-! ## Turns -/

/-- What stands behind a gap is found by its place. -/
theorem skipTo_append (p : Pos) (gap rest : Text) :
    skipTo (p.after (Text.chars gap)) p (gap ++ rest) = rest := by
  induction gap generalizing p with
  | nil => cases rest <;> simp [skipTo, Text.chars, Pos.after]
  | cons g gap ih =>
    have hne : p ≠ p.after (g.toChar :: Text.chars gap) := (p.after_cons_ne g.toChar _).symm
    exact (if_neg hne).trans (ih (p.next g.toChar))

/-- A text is cut where its characters are. -/
theorem exists_of_chars_eq_append {text : Text} {cs ds : List Char} (h : text.chars = cs ++ ds) :
    ∃ before after : Text, text = before ++ after ∧ before.chars = cs ∧ after.chars = ds := by
  obtain ⟨before, after, rfl, hbefore, hafter⟩ := List.map_eq_append_iff.mp h
  exact ⟨before, after, rfl, hbefore, hafter⟩

/-- One turn of the scanner at the place `p`, after a token of the kind `prev`: a gap is skipped, and
a lexeme is read that starts with the character `head`. -/
structure Turn (prev : Option Kind) (p : Pos) where
  gap : Text
  spelling : Text
  rest : Text
  head : Char
  tail : List Char
  lexeme : Lexeme
  skips : skipGap .blank p (Text.chars (gap ++ (spelling ++ rest))) =
    .ok (p.after gap.chars, head :: tail)
  reads : readLexeme prev head tail = .ok lexeme
  spelled : spelling.chars = lexeme.chars
  behind : rest.chars = lexeme.rest

namespace Turn

variable {prev : Option Kind} {p : Pos} (turn : Turn prev p)

/-- The text that is scanned. -/
def text : Text := turn.gap ++ (turn.spelling ++ turn.rest)

/-- Where the token stands. -/
def place : Pos := p.after turn.gap.chars

/-- The token that is found. -/
def token : Token :=
  ⟨turn.lexeme.kind, turn.spelling, turn.lexeme.literal, turn.place.line, turn.place.col⟩

/-- Where scanning goes on. -/
def next : Pos := turn.place.after turn.spelling.chars

theorem ahead : Ahead turn.gap.chars (turn.head :: turn.tail) := by
  obtain ⟨skipped, hskipped, -, hgap⟩ := eq_append_of_skipGap turn.skips
  obtain rfl : turn.gap.chars = skipped := by
    refine (List.append_left_inj (turn.head :: turn.tail)).mp ?_
    rw [← hskipped, eq_append_of_readLexeme turn.reads, ← turn.spelled, ← turn.behind]
    simp [Text.chars]
  exact hgap

theorem spelling_ne_nil : turn.spelling ≠ [] := by
  intro hnil
  have hchars : turn.lexeme.chars = [] := by rw [← turn.spelled, hnil]; rfl
  exact chars_ne_nil_of_readLexeme turn.reads hchars

/-- Fewer glyphs are left. -/
theorem length_rest_lt : turn.rest.length < turn.text.length := by
  have hpos := List.length_pos_iff.mpr turn.spelling_ne_nil
  simp only [text, List.length_append]
  omega

end Turn

section

variable {steps : Nat} {acc tokens : List Token} {p : Pos}

/-- The scanner goes on behind a token that it reads. -/
theorem scanFrom_turn (turn : Turn (acc.head?.map Token.kind) p) :
    scanFrom (steps + 1) acc p turn.text turn.text.chars =
      scanFrom steps (turn.token :: acc) turn.next turn.rest turn.rest.chars := by
  have hlength : turn.spelling.chars.length = turn.spelling.length := List.length_map _
  have htext : skipTo (p.after turn.gap.chars) p turn.text = turn.spelling ++ turn.rest :=
    skipTo_append p turn.gap (turn.spelling ++ turn.rest)
  have hskips : skipGap .blank p turn.text.chars = _ := turn.skips
  simp only [scanFrom, hskips, turn.reads, htext, ← turn.spelled, ← turn.behind, hlength,
    List.take_left, List.drop_left]
  rfl

/-- A turn is made, or nothing but a gap is left. -/
theorem turn_of_scanFrom {text : Text} (h : scanFrom (steps + 1) acc p text text.chars = .ok tokens) :
    (∃ turn : Turn (acc.head?.map Token.kind) p, text = turn.text ∧
      scanFrom steps (turn.token :: acc) turn.next turn.rest turn.rest.chars = .ok tokens) ∨
    Ahead text.chars [] ∧ tokens = acc.reverse := by
  have hrun := h
  unfold scanFrom at hrun
  split at hrun
  · cases hrun
  · rename_i q hskip
    obtain ⟨skipped, htext, -, hgap⟩ := eq_append_of_skipGap hskip
    rw [List.append_nil] at htext
    exact .inr ⟨htext ▸ hgap, (Except.ok.inj hrun).symm⟩
  · rename_i q c cs hskip
    split at hrun
    · cases hrun
    · rename_i l hread
      obtain ⟨skipped, htext, hq, -⟩ := eq_append_of_skipGap hskip
      obtain ⟨gap, ahead, rfl, rfl, hahead⟩ := exists_of_chars_eq_append htext
      obtain ⟨spelling, rest, rfl, hspelling, hrest⟩ :=
        exists_of_chars_eq_append (hahead.trans (eq_append_of_readLexeme hread))
      let turn : Turn (acc.head?.map Token.kind) p :=
        ⟨gap, spelling, rest, c, cs, l, hq ▸ hskip, hread, hspelling, hrest⟩
      exact .inl ⟨turn, rfl, (scanFrom_turn turn).symm.trans h⟩

end

/-! ## Whole texts -/

/-- A token with the gap before it. -/
structure Placed where
  gap : Text
  token : Token

/-- The text of some tokens, with a gap at its end. -/
def layout (placed : List Placed) (last : Text) : Text :=
  (placed.flatMap fun x => x.gap ++ x.token.lexeme) ++ last

/-- The token stands where it says behind `before`, and what stands before it is a gap. -/
structure Placed.Fits (before : List Placed) (x : Placed) : Prop where
  gap : Between (some x.token.kind) x.gap.chars
  nonempty : x.token.lexeme ≠ []
  line : x.token.line = lineAfter (layout before x.gap)
  col : x.token.col = columnAfter (layout before x.gap)

theorem layout_snoc (placed : List Placed) (x : Placed) (last : Text) :
    layout (placed ++ [x]) last = layout placed x.gap ++ x.token.lexeme ++ last := by
  simp [layout]

theorem Ahead.between {cs rest : List Char} {next : Option Kind} (h : Ahead cs rest)
    (hnext : ∀ k, next = some k → ∃ c, rest.head? = some c ∧ (c = '\n' → k = .newline)) :
    Between next cs := by
  obtain ⟨blanks, comment, rfl, hblanks, hcomment⟩ := h
  refine ⟨blanks, comment, rfl, hblanks, hcomment.imp_right fun hline => ⟨hline.1, fun k hk => ?_⟩⟩
  obtain ⟨c, hc, hkind⟩ := hnext k hk
  exact hkind (hline.2 c hc)

/-- The token of a turn with the gap before it. -/
def Turn.placed {prev : Option Kind} {p : Pos} (turn : Turn prev p) : Placed :=
  ⟨turn.gap, turn.token⟩

/-- A token that is found behind some others fits. -/
theorem Turn.fits {prev : Option Kind} {placed : List Placed}
    (turn : Turn prev (Pos.start.after (layout placed []).chars)) : turn.placed.Fits placed := by
  have hplace : turn.place =
      ⟨lineAfter (layout placed turn.gap), columnAfter (layout placed turn.gap)⟩ := by
    rw [← Pos.after_start, place, ← Pos.after_append]
    simp [layout, Text.chars]
  refine ⟨turn.ahead.between fun k hk => ⟨turn.head, rfl, fun hhead => ?_⟩, turn.spelling_ne_nil,
    congrArg Pos.line hplace, congrArg Pos.col hplace⟩
  cases hk
  exact kind_of_newline (hhead ▸ turn.reads)

/-- The last of some tokens fits behind the others, and these fit as before. -/
theorem fits_snoc {placed : List Placed} {y : Placed}
    (hfits : ∀ before x after, placed = before ++ x :: after → x.Fits before)
    (hy : y.Fits placed) (before : List Placed) (x : Placed) (after : List Placed)
    (h : placed ++ [y] = before ++ x :: after) : x.Fits before := by
  rcases List.eq_nil_or_concat after with rfl | ⟨after, z, rfl⟩
  · obtain ⟨rfl, hyx⟩ := List.append_inj' h rfl
    cases hyx
    exact hy
  · have h' : placed ++ [y] = (before ++ x :: after) ++ [z] := by simpa using h
    exact hfits before x after (List.append_inj' h' rfl).1

/-- Scanning goes on behind some tokens that fit. -/
theorem laid_of_scanFrom {steps : Nat} {acc : List Token} {p : Pos} {text : Text}
    {tokens : List Token} (h : scanFrom steps acc p text text.chars = .ok tokens)
    (hsteps : text.length < steps) (placed : List Placed)
    (hacc : acc.reverse = placed.map Placed.token) (hp : p = Pos.start.after (layout placed []).chars)
    (hfits : ∀ before x after, placed = before ++ x :: after → x.Fits before) :
    ∃ (all : List Placed) (last : Text), all.map Placed.token = tokens ∧
      layout all last = layout placed [] ++ text ∧ Between none last.chars ∧
      ∀ before x after, all = before ++ x :: after → x.Fits before := by
  induction steps generalizing acc p text placed with
  | zero => omega
  | succ steps ih =>
    subst hp
    rcases turn_of_scanFrom h with ⟨turn, rfl, hrest⟩ | ⟨hgap, rfl⟩
    · have hlength := turn.length_rest_lt
      obtain ⟨all, last, htokens, hlayout, hlast, hall⟩ := ih hrest (by omega)
        (placed ++ [turn.placed]) (by simp [hacc, Turn.placed])
        (by
          rw [Turn.next, Turn.place, ← Pos.after_append, ← Pos.after_append, layout_snoc]
          simp [layout, Text.chars, Turn.placed, Turn.token])
        (fits_snoc hfits turn.fits)
      refine ⟨all, last, htokens, ?_, hlast, hall⟩
      rw [hlayout, layout_snoc]
      simp [layout, Turn.placed, Turn.token, Turn.text]
    · exact ⟨placed, text, hacc.symm, by simp [layout], hgap.between (by simp), hfits⟩

/-- Scanning loses nothing: a text that is scanned is laid out with its tokens, which keep the bytes
of their spellings. -/
theorem laid_of_scan {text : Text} {tokens : List Token} (h : scan text = .ok tokens) :
    ∃ (placed : List Placed) (last : Text), placed.map Placed.token = tokens ∧
      layout placed last = text ∧ Between none last.chars ∧
      ∀ before x after, placed = before ++ x :: after → x.Fits before := by
  obtain ⟨placed, last, htokens, hlayout, hrest⟩ :=
    laid_of_scanFrom h (Nat.lt_succ_self _) [] rfl rfl (by simp)
  exact ⟨placed, last, htokens, hlayout, hrest⟩

/-- A string over two lines, both kinds of comments and a stray byte. -/
def twoLines : Text :=
  Text.ofString "x /* a\n*/ = \"b\nc" ++ [.stray 0xff] ++ Text.ofString "\" + -1 // d\n"

theorem laid_of_scan_twoLines : ∃ tokens, scan twoLines = .ok tokens ∧
    tokens.map (fun t => (t.lexeme, t.line, t.col)) = [(Text.ofString "x", 1, 1),
      (Text.ofString "=", 2, 4), (Text.ofString "\"b\nc" ++ [.stray 0xff] ++ Text.ofString "\"", 2, 6),
      (Text.ofString "+", 3, 5), (Text.ofString "-1", 3, 7), (Text.ofString "\n", 3, 14)] ∧
    ∃ (placed : List Placed) (last : Text), placed.map Placed.token = tokens ∧
      layout placed last = twoLines ∧ Between none last.chars ∧
      ∀ before x after, placed = before ++ x :: after → x.Fits before := by
  have hplaces : (scan twoLines).toOption.map
      (fun tokens => tokens.map fun t => (t.lexeme, t.line, t.col)) = some [(Text.ofString "x", 1, 1),
        (Text.ofString "=", 2, 4),
        (Text.ofString "\"b\nc" ++ [.stray 0xff] ++ Text.ofString "\"", 2, 6),
        (Text.ofString "+", 3, 5), (Text.ofString "-1", 3, 7), (Text.ofString "\n", 3, 14)] := by
    decide +kernel
  cases hscan : scan twoLines with
  | error d =>
    rw [hscan] at hplaces
    cases hplaces
  | ok tokens =>
    rw [hscan] at hplaces
    exact ⟨tokens, rfl, Option.some.inj hplaces, laid_of_scan hscan⟩

end Token

end Kotlet

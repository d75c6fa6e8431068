import Kotlet.Proofs.Token.Forward
import Mathlib.Data.List.Forall2

/-!
# Tokens with blanks between them

What a token is depends on its spelling and on the tokens before it, not on what stands between
them: a text whose tokens are written again with one blank between any two has the same tokens.

* `respaced` : the spellings of tokens, one blank between any two;
* `Apart` : what may stand behind a lexeme in place of the text that was there;
* `readLexeme_apart` : the lexeme is read the same there;
* `scan_respaced` : whole texts.
-/

namespace Kotlet
namespace Token

/-- The spellings of tokens with one blank between any two. -/
def respaced (ts : List Token) : Text := List.intercalate [.char ' '] (ts.map Token.lexeme)

/-- What may stand behind a lexeme in place of `rest`: nothing or a blank. A blank would become a
part of a literal without a closing quote, which has no text behind it. -/
def Apart (rest new : List Char) : Prop := new = [] ∨ rest ≠ [] ∧ ∃ cs, new = ' ' :: cs

variable {prev : Option Kind} {c : Char} {cs rest new : List Char} {l : Lexeme} {p : Pos}

theorem Apart.free (h : Apart rest new) : Free new := by
  rcases h with rfl | ⟨-, cs, rfl⟩
  · exact free_nil
  · exact free_cons (by decide) (by decide)

theorem Apart.eq_blank (h : Apart rest new) : ∀ d ∈ new.head?, d = ' ' := by
  rcases h with rfl | ⟨-, cs, rfl⟩ <;> simp

theorem Apart.eq_nil (h : Apart [] new) : new = [] := h.resolve_right fun hrest => hrest.1 rfl

/-! ## Lexemes -/

/-- Of the tokens before, only whether the last one ends an operand matters. -/
theorem readLexeme_congr {prev' : Option Kind}
    (h : prev.any Kind.endsOperand = prev'.any Kind.endsOperand) :
    readLexeme prev c cs = readLexeme prev' c cs := by
  unfold readLexeme
  rw [h]

/-- A backslash before a character that it does not escape stands for itself. -/
theorem stringBody_backslash {e : Char} (he : escaped? e = none) (spelled before : List Char) :
    stringBody spelled before ('\\' :: e :: cs) =
      stringBody ('\\' :: spelled) ('\\' :: before) (e :: cs) := by
  rw [stringBody.eq_def]
  simp [he]

/-- A string literal ends where its closing quote stands, whatever comes behind it. -/
theorem stringBody_apart (spelled before cs : List Char) :
    ∃ own, cs = own ++ (stringBody spelled before cs).rest ∧ (cs ≠ [] → own ≠ []) ∧
      ∀ new, Apart (stringBody spelled before cs).rest new →
        stringBody spelled before (own ++ new) = { stringBody spelled before cs with rest := new } := by
  fun_induction stringBody spelled before cs with
  | case1 spelled before =>
    refine ⟨[], rfl, by simp, fun new hnew => ?_⟩
    rw [hnew.eq_nil]
    rfl
  | case2 spelled before cs =>
    exact ⟨['"'], rfl, by simp, fun new _ => by rw [List.singleton_append, stringBody_quote]; simp⟩
  | case3 spelled before =>
    -- a backslash is the last character of the text
    refine ⟨['\\'], rfl, by simp, fun new hnew => ?_⟩
    rw [hnew.eq_nil]
    rfl
  | case4 spelled before e rest x he _ ih =>
    obtain ⟨own, hown, -, hnew⟩ := ih
    refine ⟨'\\' :: e :: own, by simpa using hown, by simp, fun new h => ?_⟩
    rw [List.cons_append, List.cons_append, stringBody_escape he, hnew new h]
  | case5 spelled before e rest he _ ih =>
    obtain ⟨own, hown, hne, hnew⟩ := ih
    obtain ⟨d, own, rfl⟩ := List.exists_cons_of_ne_nil (hne (List.cons_ne_nil _ _))
    obtain ⟨rfl, hrest⟩ := List.cons.inj hown
    refine ⟨'\\' :: e :: own, by simpa using hrest, by simp, fun new h => ?_⟩
    rw [List.cons_append, List.cons_append, stringBody_backslash he]
    exact hnew new h
  | case6 spelled before c cs hquote hslash ih =>
    obtain ⟨own, hown, -, hnew⟩ := ih
    refine ⟨c :: own, by simpa using hown, by simp, fun new h => ?_⟩
    rw [List.cons_append, stringBody_plain hquote hslash, hnew new h]

/-- A number ends where its digits do. -/
theorem number_apart {negative : Bool} (h : number negative cs = .ok l) (hnew : Free new) :
    number negative (cs.takeWhile isNumeral ++ new) = .ok { l with rest := new } := by
  have hnumeral : ∀ d ∈ new.head?, isNumeral d = false ∧ startsWord d = false := fun d hd => by
    have hfree := (hnew d hd).1
    simp only [continuesWord, Bool.or_eq_false_iff] at hfree
    exact hfree.symm
  have hdigits : ∀ d ∈ cs.takeWhile isNumeral, isNumeral d = true :=
    List.all_eq_true.mp List.all_takeWhile
  obtain ⟨htake, hdrop⟩ := takeWhile_append_of_free hdigits fun d hd => (hnumeral d hd).1
  have hhead : new.head?.filter startsWord = none := by
    simpa using fun d hd => (hnumeral d hd).2
  unfold number at h ⊢
  simp only [htake, hdrop, hhead] at h ⊢
  split at h
  · cases h
  · generalize (if negative = true then -(numeralValue (cs.takeWhile isNumeral) : Int)
      else numeralValue (cs.takeWhile isNumeral)) = value at h ⊢
    split at h
    · rename_i hrange
      obtain rfl := Except.ok.inj h
      exact if_pos hrange
    · cases h

theorem word_apart (cs : List Char) (hnew : Free new) :
    word (cs.takeWhile continuesWord ++ new) = { word cs with rest := new } := by
  have hword : ∀ d ∈ cs.takeWhile continuesWord, continuesWord d = true :=
    List.all_eq_true.mp List.all_takeWhile
  obtain ⟨htake, hdrop⟩ := takeWhile_append_of_free hword fun d hd => (hnew d hd).1
  simp only [word, htake, hdrop]

/-- No fixed token ends with a blank. -/
theorem fixedPair?_blank (c : Char) : fixedPair? c ' ' = none := by
  unfold fixedPair?
  split <;> simp_all

theorem fixed?_apart (h : fixed? (c :: cs) = some l) (hnew : ∀ d ∈ new.head?, d = ' ') :
    fixed? (l.chars ++ new) = some { l with rest := new } := by
  have hchar {k : Kind} (hk : fixedChar? c = some k) : fixed? (c :: new) = some (fixed k [c] new) := by
    cases new with
    | nil => simp [fixed?, hk]
    | cons d new =>
      obtain rfl : d = ' ' := hnew d rfl
      simp [fixed?, fixedPair?_blank, hk]
  cases cs with
  | nil =>
    obtain ⟨k, hk, rfl⟩ := Option.map_eq_some_iff.mp h
    exact hchar hk
  | cons d cs =>
    rw [fixed?] at h
    split at h
    · rename_i k hk
      cases h
      simp [fixed, fixed?, hk]
    · obtain ⟨k, hk, rfl⟩ := Option.map_eq_some_iff.mp h
      exact hchar hk

/-- What is behind the first character of a lexeme starts as it did, or with a blank. -/
theorem Apart.head (h : Apart rest new) (own : List Char) :
    ∀ d ∈ (own ++ new).head?, d = ' ' ∨ d ∈ (own ++ rest).head? := by
  cases own with
  | nil => exact fun d hd => .inl (h.eq_blank d hd)
  | cons e own => exact fun d hd => .inr hd

/-- A lexeme is read the same whatever was behind it, when nothing or a blank takes its place. -/
theorem readLexeme_apart (h : readLexeme prev c cs = .ok l) (hnew : Apart l.rest new) :
    ∃ own, l.chars = c :: own ∧ cs = own ++ l.rest ∧
      readLexeme prev c (own ++ new) = .ok { l with rest := new } := by
  have hall := eq_append_of_readLexeme h
  obtain ⟨d, own, hown⟩ := List.exists_cons_of_ne_nil (chars_ne_nil_of_readLexeme h)
  rw [hown] at hall
  obtain ⟨rfl, hcs⟩ := List.cons.inj hall
  refine ⟨own, hown, hcs, ?_⟩
  have hdigit : (own ++ new).head?.any isNumeral = true → cs.head?.any isNumeral = true := by
    simp only [Option.any_eq_true]
    rintro ⟨d, hd, hnumeral⟩
    rcases hnew.head own d hd with rfl | hd
    · cases hnumeral
    · exact ⟨d, hcs ▸ hd, hnumeral⟩
  unfold readLexeme at h ⊢
  split at h
  · rename_i hquote
    obtain rfl := Except.ok.inj h
    rw [if_pos hquote]
    obtain ⟨own', hown', -, hread⟩ := stringBody_apart ['"'] [] cs
    rw [← List.append_cancel_right (hown'.symm.trans hcs), hread new hnew]
  · rename_i hquote
    rw [if_neg hquote]
    split at h
    · rename_i hminus
      have hnumber := number_apart h hnew.free
      obtain ⟨value, rfl⟩ := eq_of_number h
      obtain rfl : cs.takeWhile isNumeral = own := (List.cons.inj hown).2
      obtain ⟨d, ds, hds⟩ : ∃ d ds, cs.takeWhile isNumeral = d :: ds := by
        cases cs with
        | nil => cases hminus.2.1
        | cons d ds => exact ⟨d, _, List.takeWhile_cons_of_pos hminus.2.1⟩
      have hd : isNumeral d = true :=
        List.all_eq_true.mp List.all_takeWhile d (hds ▸ List.mem_cons_self)
      rw [if_pos ⟨hminus.1, by simp [hds, hd], hminus.2.2⟩, hnumber]
    · rename_i hminus
      rw [if_neg fun hm => hminus ⟨hm.1, hdigit hm.2.1, hm.2.2⟩]
      split at h
      · rename_i l' hl
        obtain rfl := Except.ok.inj h
        rw [← List.cons_append, ← hown, fixed?_apart hl hnew.eq_blank]
      · split at h
        · rename_i hword
          obtain rfl := Except.ok.inj h
          have hapart := word_apart (c :: cs) hnew.free
          rw [show (c :: cs).takeWhile continuesWord = c :: own from hown, List.cons_append] at hapart
          simp only [fixed?_of_startsWord hword, hword, if_true, hapart]
        · split at h
          · rename_i hword hnumeral
            obtain ⟨value, hl⟩ := eq_of_number h
            have htake : (c :: cs).takeWhile isNumeral = c :: own := by
              rw [hl] at hown
              exact hown
            have hnumber := number_apart h hnew.free
            rw [htake, List.cons_append] at hnumber
            obtain ⟨-, -, -, -, -, hfixed⟩ := not_other_of_isNumeral hnumeral (own ++ new)
            simp only [hfixed, hword, hnumeral, Bool.false_eq_true, if_false, if_true, hnumber]
          · cases h

/-! ## Texts -/

/-- Behind a gap stands a token. -/
theorem startsToken_of_skipGap {gap : Gap} {q : Pos} (h : skipGap gap p cs = .ok (q, c :: rest)) :
    StartsToken c rest := by
  fun_induction skipGap gap p cs with
  | case1 _ _ ih => exact ih h
  | case2 _ _ ih => exact ih h
  | case3 _ _ _ _ _ _ ih => exact ih h
  | case4 p d ds hline hblock hblank =>
    cases h
    refine ⟨by simpa using hblank, fun hc e he => ?_⟩
    obtain ⟨ds, rfl⟩ : ∃ ds, rest = e :: ds := ⟨rest.tail, (List.cons_head?_tail he).symm⟩
    exact ⟨fun hline' => hline _ hc (by rw [hline']), fun hblock' => hblock _ hc (by rw [hblock'])⟩
  | case5 =>
    cases h
    exact ⟨by decide, fun hc => absurd hc (by decide)⟩
  | case6 _ _ _ _ ih => exact ih h
  | case7 _ _ _ ih => exact ih h
  | case8 _ _ _ _ _ ih => exact ih h
  | case9 => cases h
  | case10 => cases h

theorem StartsToken.apart {own : List Char} (h : StartsToken c (own ++ rest)) (hnew : Apart rest new) :
    StartsToken c (own ++ new) := by
  refine ⟨h.1, fun hc d hd => ?_⟩
  rcases hnew.head own d hd with rfl | hd
  · decide
  · exact h.2 hc d hd

/-- The first spelling with what is behind it. -/
theorem exists_of_respaced_cons (t : Token) (ts : List Token) :
    ∃ new : Text, respaced (t :: ts) = t.lexeme ++ new ∧
      (ts = [] ∧ new = [] ∨ ts ≠ [] ∧ new = .char ' ' :: respaced ts) := by
  cases ts with
  | nil => exact ⟨[], by simp [respaced], .inl ⟨rfl, rfl⟩⟩
  | cons u ts =>
    refine ⟨_, ?_, .inr ⟨List.cons_ne_nil _ _, rfl⟩⟩
    simp [respaced, List.intercalate_cons_cons]

/-- The tokens that scanning goes on with are those of their own spellings, from any place on. -/
theorem scans_respaced {steps : Nat} {acc tokens : List Token} {text : Text}
    (h : scanFrom steps acc p text text.chars = .ok tokens) :
    ∃ ts, tokens = acc.reverse ++ ts ∧ (text = [] → ts = []) ∧ ∀ q, ∃ us,
      Scans ((acc.head?.map Token.kind).any Kind.endsOperand) q (respaced ts) us ∧
      List.Forall₂ (fun t u => t.agrees u = true) ts us := by
  induction steps generalizing acc p text with
  | zero =>
    cases h
    exact ⟨[], by simp, fun _ => rfl, fun q => ⟨[], scans_nil, .nil⟩⟩
  | succ steps ih =>
    rcases turn_of_scanFrom h with ⟨turn, rfl, hrest⟩ | ⟨-, rfl⟩
    · obtain ⟨ts, rfl, hnil, hscans⟩ := ih hrest
      refine ⟨turn.token :: ts, by simp, ?_, fun q => ?_⟩
      · intro htext
        have hspelling : turn.spelling = [] := by
          simp only [Turn.text, List.append_eq_nil_iff] at htext
          exact htext.2.1
        exact absurd hspelling turn.spelling_ne_nil
      obtain ⟨new, hlist, hnew⟩ := exists_of_respaced_cons turn.token ts
      have hapart : Apart turn.lexeme.rest new.chars := by
        rcases hnew with ⟨-, rfl⟩ | ⟨hne, rfl⟩
        · exact .inl rfl
        · refine .inr ⟨fun hbehind => hne (hnil ?_), _, rfl⟩
          rw [← turn.behind] at hbehind
          exact List.map_eq_nil_iff.mp hbehind
      have hbehind : ∃ us, Scans turn.lexeme.kind.endsOperand (q.after turn.lexeme.chars) new us ∧
          List.Forall₂ (fun t u => t.agrees u = true) ts us := by
        rcases hnew with ⟨rfl, rfl⟩ | ⟨-, rfl⟩
        · exact ⟨[], scans_nil, .nil⟩
        · obtain ⟨us, hus, hagree⟩ := hscans ((q.after turn.lexeme.chars).next ' ')
          exact ⟨us, hus.blank rfl, hagree⟩
      obtain ⟨us, hus, hagree⟩ := hbehind
      obtain ⟨own, hown, htail, hread⟩ := readLexeme_apart turn.reads hapart
      have hstart := startsToken_of_skipGap turn.skips
      rw [htail] at hstart
      have hchars : Text.chars (turn.spelling ++ new) = turn.head :: (own ++ new.chars) := by
        have happend : Text.chars (turn.spelling ++ new) = turn.spelling.chars ++ new.chars :=
          List.map_append
        rw [happend, turn.spelled, hown, List.cons_append]
      have htoken := Scans.token (l := { turn.lexeme with rest := new.chars }) hus
        (fun prev hprev => (readLexeme_congr hprev).trans hread) (hstart.apart hapart) hchars
        turn.spelled rfl
      refine ⟨⟨turn.lexeme.kind, turn.spelling, turn.lexeme.literal, q.line, q.col⟩ :: us, ?_,
        .cons (by simp [agrees, Turn.token]) hagree⟩
      rw [hlist]
      exact htoken
    · exact ⟨[], by simp, fun _ => rfl, fun q => ⟨[], scans_nil, .nil⟩⟩

/-- A text whose tokens are written again with one blank between any two has the same tokens. -/
theorem scan_respaced {text : Text} {tokens : List Token} (h : scan text = .ok tokens) :
    ∃ respelled, scan (respaced tokens) = .ok respelled ∧
      List.Forall₂ (fun t u => t.agrees u = true) tokens respelled := by
  obtain ⟨ts, rfl, -, hscans⟩ := scans_respaced h
  obtain ⟨us, hus, hagree⟩ := hscans .start
  exact ⟨us, scan_of_scans hus, hagree⟩

/-- Minus signs behind operands and before digits, a comment, and a stray byte in a string without a
closing quote. -/
theorem scan_respaced_minus : ∃ tokens,
    scan (Text.ofString "x-1/*-*/- -1\n\"\\\"// " ++ [.stray 0xff]) = .ok tokens ∧
    respaced tokens = Text.ofString "x - 1 - -1 \n \"\\\"// " ++ [.stray 0xff] ∧
    ∃ respelled, scan (respaced tokens) = .ok respelled ∧
      List.Forall₂ (fun t u => t.agrees u = true) tokens respelled := by
  have hrespaced : (scan (Text.ofString "x-1/*-*/- -1\n\"\\\"// " ++ [.stray 0xff])).toOption.map respaced =
      some (Text.ofString "x - 1 - -1 \n \"\\\"// " ++ [.stray 0xff]) := by
    decide +kernel
  cases hscan : scan (Text.ofString "x-1/*-*/- -1\n\"\\\"// " ++ [.stray 0xff]) with
  | error d =>
    rw [hscan] at hrespaced
    cases hrespaced
  | ok tokens =>
    rw [hscan] at hrespaced
    exact ⟨tokens, rfl, Option.some.inj hrespaced, scan_respaced hscan⟩

end Token
end Kotlet

import Kotlet.Proofs.Token.Layout
import Mathlib.Data.List.TakeWhile

/-!
# Scanning text that is written

How scanning goes on at the beginning of a text, from what is known of the rest: one lemma for each
thing that can be written.

* `Scans` : the tokens that come of a text, at a place, after an operand or not;
* `Free` : texts that can stand behind a word or a number without becoming a part of it;
* `Scans.blanks`, `Scans.char`, `Scans.pair`, `Scans.word`, `Scans.integer`, `Scans.string` : blanks
  and each kind of tokens;
* `scan_of_scans` : whole texts.
-/

namespace Kotlet
namespace Token

/-- From the place `p` on, these tokens are scanned, where `ended` tells whether the token before
ends an operand. -/
def Scans (ended : Bool) (p : Pos) (text : Text) (ts : List Token) : Prop :=
  ∀ steps acc, (acc.head?.map Token.kind).any Kind.endsOperand = ended → text.length < steps →
    scanFrom steps acc p text text.chars = .ok (acc.reverse ++ ts)

/-- A text that can stand behind a word, a number or a type. -/
def Free (cs : List Char) : Prop := ∀ c ∈ cs.head?, continuesWord c = false ∧ c ≠ '='

theorem free_nil : Free [] := nofun

theorem free_cons {c : Char} {cs : List Char} (h : continuesWord c = false) (h' : c ≠ '=') :
    Free (c :: cs) := by
  simpa [Free] using ⟨h, h'⟩

variable {ended : Bool} {p : Pos} {c : Char} {cs rest : List Char} {text : Text} {ts : List Token}

theorem scans_nil : Scans ended p [] [] := by
  intro steps acc _ hsteps
  obtain ⟨steps, rfl⟩ : ∃ n, steps = n + 1 := ⟨steps - 1, by simp at hsteps; omega⟩
  simp [scanFrom, skipGap, Text.chars]

theorem scan_of_scans (h : Scans false .start text ts) : scan text = .ok ts := by
  simpa [scan] using h (text.length + 1) [] rfl (by omega)

/-! ## Blanks -/

theorem skipGap_blank (hc : isBlank c = true) : skipGap .blank p (c :: cs) = skipGap .blank (p.next c) cs := by
  have hslash : c ≠ '/' := by rintro rfl; cases hc
  rw [skipGap.eq_def]
  split
  · rename_i heq
    cases heq
    exact absurd rfl hslash
  · rename_i heq
    cases heq
    exact absurd rfl hslash
  · rename_i heq
    cases heq
    exact if_pos hc
  all_goals simp_all

theorem Scans.blank (h : Scans ended (p.next c) text ts) (hc : isBlank c = true) :
    Scans ended p (.char c :: text) ts := by
  intro steps acc hacc hsteps
  rw [List.length_cons] at hsteps
  obtain ⟨steps, rfl⟩ : ∃ n, steps = n + 1 := ⟨steps - 1, by omega⟩
  rw [← h (steps + 1) acc hacc (by omega)]
  have hskip : skipGap .blank p (Text.chars (.char c :: text)) = skipGap .blank (p.next c) text.chars :=
    skipGap_blank hc
  cases hrun : skipGap .blank (p.next c) text.chars with
  | error d => simp only [scanFrom, hskip, hrun]
  | ok x =>
    obtain ⟨q, behind⟩ := x
    -- the blank is not where the token stands
    obtain ⟨skipped, -, rfl, -⟩ := eq_append_of_skipGap hrun
    have hplace : skipTo ((p.next c).after skipped) p (.char c :: text) =
        skipTo ((p.next c).after skipped) (p.next c) text :=
      if_neg (p.after_cons_ne c skipped).symm
    cases behind <;> simp only [scanFrom, hskip, hrun, hplace]

theorem Scans.blanks {g : List Char} (h : Scans ended (p.after g) text ts)
    (hg : ∀ c ∈ g, isBlank c = true) : Scans ended p (.ofChars g ++ text) ts := by
  induction g generalizing p with
  | nil => exact h
  | cons c g ih =>
    have htail := ih (p := p.next c) h fun d hd => hg d (List.mem_cons_of_mem _ hd)
    exact htail.blank (hg c List.mem_cons_self)

/-! ## Tokens -/

/-- Whether a token starts here, and not a gap. -/
def StartsToken (c : Char) (cs : List Char) : Prop :=
  isBlank c = false ∧ (c = '/' → ∀ d ∈ cs.head?, d ≠ '/' ∧ d ≠ '*')

theorem skipGap_of_startsToken (h : StartsToken c cs) : skipGap .blank p (c :: cs) = .ok (p, c :: cs) := by
  obtain ⟨hblank, hslash⟩ := h
  rw [skipGap.eq_def]
  split
  · rename_i heq
    cases heq
    exact absurd rfl (hslash rfl '/' rfl).1
  · rename_i heq
    cases heq
    exact absurd rfl (hslash rfl '*' rfl).2
  · rename_i heq
    cases heq
    exact if_neg (by simp [hblank])
  all_goals simp_all

/-- Scanning goes on behind a token. -/
theorem Scans.token {l : Lexeme} {spelling rest : Text}
    (h : Scans l.kind.endsOperand (p.after l.chars) rest ts)
    (hread : ∀ prev, Option.any Kind.endsOperand prev = ended → readLexeme prev c cs = .ok l)
    (hstart : StartsToken c cs) (hcs : Text.chars (spelling ++ rest) = c :: cs)
    (hspelling : spelling.chars = l.chars) (hrest : rest.chars = l.rest) :
    Scans ended p (spelling ++ rest) (⟨l.kind, spelling, l.literal, p.line, p.col⟩ :: ts) := by
  intro steps acc hacc hsteps
  let turn : Turn (acc.head?.map Token.kind) p :=
    ⟨[], spelling, rest, c, cs, l, by rw [List.nil_append, hcs]; exact skipGap_of_startsToken hstart,
      hread _ hacc, hspelling, hrest⟩
  have hlength : rest.length < (spelling ++ rest).length := turn.length_rest_lt
  obtain ⟨steps, rfl⟩ : ∃ n, steps = n + 1 := ⟨steps - 1, by omega⟩
  have hgo := h steps (turn.token :: acc) rfl (by omega)
  rw [← hspelling, List.reverse_cons, List.append_assoc] at hgo
  exact (scanFrom_turn turn).trans hgo

/-- A token without stray bytes. -/
theorem Scans.lexeme {l : Lexeme} (h : Scans l.kind.endsOperand (p.after l.chars) (.ofChars l.rest) ts)
    (hread : ∀ prev, Option.any Kind.endsOperand prev = ended → readLexeme prev c cs = .ok l)
    (hstart : StartsToken c cs) : Scans ended p (.ofChars (c :: cs))
      (⟨l.kind, .ofString (String.ofList l.chars), l.literal, p.line, p.col⟩ :: ts) := by
  obtain ⟨prev, hprev⟩ : ∃ prev, Option.any Kind.endsOperand prev = ended := by
    cases ended with
    | false => exact ⟨none, rfl⟩
    | true => exact ⟨some .int, rfl⟩
  have hcs := eq_append_of_readLexeme (hread prev hprev)
  have hchars : Text.chars (.ofChars l.chars ++ .ofChars l.rest) = c :: cs := by
    rw [← Text.ofChars_append, Text.chars_ofChars, hcs]
  have htoken := h.token hread hstart hchars (Text.chars_ofChars _) (Text.chars_ofChars _)
  rwa [hcs, Text.ofChars_append, Text.ofString_ofList]

/-! ## Fixed tokens -/

/-- No number starts here: a minus sign before a digit would begin one. -/
theorem not_negative {prev : Option Kind} (h : c = '-' → cs.head?.any isNumeral = false) :
    ¬ (c = '-' ∧ cs.head?.any isNumeral ∧ ¬ prev.any Kind.endsOperand) := by
  rintro ⟨hc, hd, -⟩
  rw [h hc] at hd
  cases hd

theorem Scans.char {k : Kind} (h : Scans k.endsOperand (p.next c) (.ofChars rest) ts)
    (hk : fixedChar? c = some k) (hpair : ∀ d ∈ rest.head?, fixedPair? c d = none)
    (hminus : c = '-' → rest.head?.any isNumeral = false)
    (hslash : c = '/' → ∀ d ∈ rest.head?, d ≠ '/' ∧ d ≠ '*') :
    Scans ended p (.ofChars (c :: rest)) (.plain k (String.singleton c) p.line p.col :: ts) := by
  have hquote : c ≠ '"' := by rintro rfl; cases hk
  have hblank : isBlank c = false := by
    unfold fixedChar? at hk
    split at hk <;> first | rfl | cases hk
  have hfixed : fixed? (c :: rest) = some (fixed k [c] rest) := by
    cases rest with
    | nil => simp [fixed?, hk]
    | cons d rest => simp [fixed?, hpair d rfl, hk]
  refine Scans.lexeme (l := fixed k [c] rest) h (fun prev _ => ?_) ⟨hblank, hslash⟩
  unfold readLexeme
  rw [if_neg hquote, if_neg (not_negative hminus), hfixed]

theorem Scans.pair {d : Char} {k : Kind}
    (h : Scans k.endsOperand ((p.next c).next d) (.ofChars rest) ts) (hk : fixedPair? c d = some k) :
    Scans ended p (.ofChars (c :: d :: rest)) (.plain k (String.ofList [c, d]) p.line p.col :: ts) := by
  have hchars : c ≠ '"' ∧ isBlank c = false ∧ (c = '/' → d ≠ '/' ∧ d ≠ '*') ∧
      (c = '-' → isNumeral d = false) := by
    unfold fixedPair? at hk
    split at hk <;> first | decide | cases hk
  obtain ⟨hquote, hblank, hslash, hminus⟩ := hchars
  have hfixed : fixed? (c :: d :: rest) = some (fixed k [c, d] rest) := by simp [fixed?, hk]
  refine Scans.lexeme (l := fixed k [c, d] rest) h (fun prev _ => ?_)
    ⟨hblank, fun hc e he => by cases he; exact hslash hc⟩
  unfold readLexeme
  rw [if_neg hquote, if_neg (not_negative fun hc => by simp [hminus hc]), hfixed]

/-- Tokens that were found stay the first ones. -/
theorem exists_of_scanFrom {steps : Nat} {acc : List Token} {tokens : List Token}
    (h : scanFrom steps acc p text text.chars = .ok tokens) : ∃ ts, tokens = acc.reverse ++ ts := by
  induction steps generalizing acc p text with
  | zero =>
    cases h
    exact ⟨[], (List.append_nil _).symm⟩
  | succ steps ih =>
    rcases turn_of_scanFrom h with ⟨turn, -, hrest⟩ | ⟨-, rfl⟩
    · obtain ⟨ts, rfl⟩ := ih hrest
      exact ⟨turn.token :: ts, by simp⟩
    · exact ⟨[], (List.append_nil _).symm⟩

/-- The first token of a text that starts with one. -/
theorem exists_of_scan {t : Token} {l : Lexeme} (h : scan text = .ok (t :: ts))
    (hcs : text.chars = c :: cs) (hstart : StartsToken c cs) (hread : readLexeme none c cs = .ok l) :
    t.kind = l.kind ∧ t.literal = l.literal := by
  rcases turn_of_scanFrom h with ⟨turn, rfl, hrest⟩ | ⟨-, hnil⟩
  · have hskips : skipGap .blank .start turn.text.chars = _ := turn.skips
    rw [hcs, skipGap_of_startsToken hstart] at hskips
    obtain ⟨rfl, rfl⟩ := List.cons.inj (Prod.mk.inj (Except.ok.inj hskips)).2
    obtain rfl := Except.ok.inj (hread.symm.trans turn.reads)
    obtain ⟨us, hus⟩ := exists_of_scanFrom hrest
    cases hus
    exact ⟨rfl, rfl⟩
  · cases hnil

/-- What starts with an equals sign is `=` or `==`. -/
theorem kind_of_scan_assign {t : Token} (h : scan (Text.ofChars ('=' :: cs)) = .ok (t :: ts)) :
    t.kind = .assign ∨ t.kind = .eq := by
  have hfixed : ∃ l, fixed? ('=' :: cs) = some l ∧ (l.kind = .assign ∨ l.kind = .eq) := by
    cases cs with
    | nil => exact ⟨_, rfl, .inl rfl⟩
    | cons d cs =>
      by_cases hd : d = '='
      · subst hd
        exact ⟨_, rfl, .inr rfl⟩
      · have hpair : fixedPair? '=' d = none := by
          unfold fixedPair?
          split <;> simp_all
        exact ⟨fixed .assign ['='] (d :: cs), by simp [fixed?, hpair, fixedChar?], .inl rfl⟩
  obtain ⟨l, hl, hkind⟩ := hfixed
  have hread : readLexeme none '=' cs = .ok l := by
    unfold readLexeme
    rw [if_neg (by decide), if_neg fun hminus => absurd hminus.1 (by decide), hl]
  have hfirst := exists_of_scan h (Text.chars_ofChars _)
    ⟨rfl, fun hslash => absurd hslash (by decide)⟩ hread
  exact hfirst.1 ▸ hkind

/-! ## Words -/

/-- A word with the token that it becomes. -/
def wordToken (w : String) (p : Pos) : Token := ⟨Kind.ofWord w, w, .text w, p.line, p.col⟩

/-- A word that can be written: it starts like one and goes on like one. -/
def IsSpelling (w : String) : Prop :=
  w.toList.head?.any startsWord = true ∧ ∀ c ∈ w.toList, continuesWord c = true

instance (w : String) : Decidable (IsSpelling w) :=
  decidable_of_iff (w.toList.head?.any startsWord = true ∧ w.toList.all continuesWord = true)
    (by rw [List.all_eq_true, IsSpelling])

theorem takeWhile_append_of_free {q : Char → Bool} {own : List Char} (hown : ∀ c ∈ own, q c = true)
    (hrest : ∀ c ∈ rest.head?, q c = false) :
    (own ++ rest).takeWhile q = own ∧ (own ++ rest).dropWhile q = rest := by
  rw [List.takeWhile_append_of_pos hown, List.dropWhile_append_of_pos hown]
  cases rest with
  | nil => simp
  | cons c rest =>
    have hc : ¬ q c = true := by simp [hrest c rfl]
    rw [List.takeWhile_cons_of_neg hc, List.dropWhile_cons_of_neg hc]
    simp

/-- What starts a word starts no other token. -/
theorem fixed?_of_startsWord (hc : startsWord c = true) : fixed? (c :: cs) = none := by
  have hchar : fixedChar? c = none := by
    unfold fixedChar?
    split <;> first | rfl | (exfalso; revert hc; decide)
  cases cs with
  | nil => simp [fixed?, hchar]
  | cons d cs =>
    have hpair : fixedPair? c d = none := by
      unfold fixedPair?
      split <;> first | rfl | (exfalso; revert hc; decide)
    simp [fixed?, hpair, hchar]

theorem startsToken_of_startsWord (hc : startsWord c = true) (cs : List Char) : StartsToken c cs := by
  refine ⟨?_, ?_⟩
  · by_contra hblank
    simp only [isBlank, Bool.not_eq_false, Bool.or_eq_true, beq_iff_eq] at hblank
    obtain (rfl | rfl) | rfl := hblank <;> (revert hc; decide)
  · rintro rfl
    exact absurd hc (by decide)

theorem readLexeme_of_startsWord (hc : startsWord c = true) (prev : Option Kind) (cs : List Char) :
    readLexeme prev c cs = .ok (word (c :: cs)) := by
  have hquote : c ≠ '"' := by rintro rfl; revert hc; decide
  have hminus : c ≠ '-' := by rintro rfl; revert hc; decide
  unfold readLexeme
  rw [if_neg hquote, if_neg fun hm => hminus hm.1, fixed?_of_startsWord hc]
  exact if_pos hc

theorem Scans.word {w : String} (hw : IsSpelling w)
    (h : Scans (Kind.ofWord w).endsOperand (p.after w.toList) (.ofChars rest) ts) (hrest : Free rest) :
    Scans ended p (.ofChars (w.toList ++ rest)) (wordToken w p :: ts) := by
  obtain ⟨hhead, hall⟩ := hw
  obtain ⟨c, cs, hcs⟩ : ∃ c cs, w.toList = c :: cs := by
    cases hcs : w.toList with
    | nil => simp [hcs] at hhead
    | cons c cs => exact ⟨c, cs, rfl⟩
  have hc : startsWord c = true := by simpa [hcs] using hhead
  obtain ⟨htake, hdrop⟩ := takeWhile_append_of_free hall fun d hd => (hrest d hd).1
  have hword : Token.word (c :: (cs ++ rest)) = ⟨Kind.ofWord w, w.toList, .text w, rest⟩ := by
    rw [← List.cons_append, ← hcs]
    simp [Token.word, htake, hdrop]
  have hread (prev : Option Kind) :
      readLexeme prev c (cs ++ rest) = .ok ⟨Kind.ofWord w, w.toList, .text w, rest⟩ :=
    hword ▸ readLexeme_of_startsWord hc prev (cs ++ rest)
  have htoken : Scans ended p (.ofChars (c :: (cs ++ rest))) _ :=
    h.lexeme (fun prev _ => hread prev) (startsToken_of_startsWord hc _)
  rw [hcs, List.cons_append]
  simpa [wordToken] using htoken

/-! ## Numbers -/

theorem isNumeral_of_mem_toDigits {n : Nat} (hc : c ∈ Nat.toDigits 10 n) : isNumeral c = true := by
  have hdigit := Nat.isDigit_of_mem_toDigits (by decide) (by decide) hc
  simp only [Char.isDigit, ge_iff_le, Bool.and_eq_true, decide_eq_true_eq] at hdigit
  simp only [isNumeral, Bool.and_eq_true, decide_eq_true_eq]
  exact hdigit

theorem numeralValue_toDigits (n : Nat) : numeralValue (Nat.toDigits 10 n) = n := by
  have hvalue : Nat.ofDigitChars 10 (Nat.toDigits 10 n) 0 = n := Nat.ofDigitChars_ten_toDigits
  simpa [numeralValue, Nat.ofDigitChars, Nat.mul_comm] using hvalue

/-- What starts a number starts no other token. -/
theorem not_other_of_isNumeral (hc : isNumeral c = true) (cs : List Char) :
    c ≠ '"' ∧ c ≠ '-' ∧ c ≠ '/' ∧ isBlank c = false ∧ startsWord c = false ∧
      fixed? (c :: cs) = none := by
  have hword : startsWord c = false := by
    simp only [isNumeral, Bool.and_eq_true, decide_eq_true_eq, Char.le_def, UInt32.le_iff_toNat_le] at hc
    have hlow : 48 ≤ c.toNat := hc.1
    have hhigh : c.toNat ≤ 57 := hc.2
    have hunder : c ≠ '_' := by rintro rfl; revert hhigh; decide
    delta startsWord Char.isAlpha Char.isUpper Char.isLower
    simp [UInt32.le_iff_toNat_le, hunder]
    omega
  have hchar : fixedChar? c = none := by
    unfold fixedChar?
    split <;> first | rfl | (exfalso; revert hc; decide)
  have hpair (d : Char) : fixedPair? c d = none := by
    unfold fixedPair?
    split <;> first | rfl | (exfalso; revert hc; decide)
  refine ⟨?_, ?_, ?_, ?_, hword, ?_⟩
  · rintro rfl; revert hc; decide
  · rintro rfl; revert hc; decide
  · rintro rfl; revert hc; decide
  · by_contra hblank
    simp only [isBlank, Bool.not_eq_false, Bool.or_eq_true, beq_iff_eq] at hblank
    obtain (rfl | rfl) | rfl := hblank <;> (revert hc; decide)
  · cases cs <;> simp [fixed?, hchar, hpair]

theorem number_of_toDigits (negative : Bool) {m : Nat} (hrest : Free rest)
    (hlow : -0x80000000 ≤ if negative then -(m : Int) else m)
    (hhigh : (if negative then -(m : Int) else m) ≤ 0x7fffffff) :
    number negative (Nat.toDigits 10 m ++ rest) = .ok ⟨.int,
      if negative then '-' :: Nat.toDigits 10 m else Nat.toDigits 10 m,
      .int (Int32.ofInt (if negative then -(m : Int) else m)), rest⟩ := by
  have hnumeral : ∀ d ∈ rest.head?, isNumeral d = false := fun d hd => by
    have hfree := (hrest d hd).1
    simp only [continuesWord, Bool.or_eq_false_iff] at hfree
    exact hfree.2
  have hdigits : ∀ d ∈ Nat.toDigits 10 m, isNumeral d = true := fun d => isNumeral_of_mem_toDigits
  obtain ⟨htake, hdrop⟩ := takeWhile_append_of_free hdigits hnumeral
  have hhead : rest.head?.filter startsWord = none := by
    cases rest with
    | nil => rfl
    | cons d rest =>
      have hfree := (hrest d rfl).1
      simp only [continuesWord, Bool.or_eq_false_iff] at hfree
      simp [hfree.1]
  unfold number
  simp only [htake, hdrop, hhead, numeralValue_toDigits]
  exact if_pos ⟨hlow, hhigh⟩

theorem toList_toString (n : Int) : (toString n).toList =
    if n < 0 then '-' :: Nat.toDigits 10 n.natAbs else Nat.toDigits 10 n.natAbs := by
  cases n with
  | ofNat m =>
    change (Nat.repr m).toList = _
    simp [Nat.toList_repr]
  | negSucc m =>
    change ("-" ++ Nat.repr (m + 1)).toList = _
    simp [String.toList_append, Nat.toList_repr]

theorem Scans.integer {n : Int32}
    (h : Scans true (p.after (toString n.toInt).toList) (.ofChars rest) ts)
    (hended : n < 0 → ended = false) (hrest : Free rest) :
    Scans ended p (.ofChars ((toString n.toInt).toList ++ rest))
      (⟨.int, toString n.toInt, .int n, p.line, p.col⟩ :: ts) := by
  have hlow := n.le_toInt
  have hhigh := n.toInt_lt
  obtain ⟨d, ds, hds⟩ := List.exists_cons_of_ne_nil
    (Nat.toDigits_ne_nil (n := n.toInt.natAbs) (b := 10))
  have hd : isNumeral d = true := isNumeral_of_mem_toDigits (hds ▸ List.mem_cons_self)
  have hlist := toList_toString n.toInt
  by_cases hneg : n < 0
  · have hlt : n.toInt < 0 := Int32.lt_iff_toInt_lt.mp hneg
    have hvalue : -(n.toInt.natAbs : Int) = n.toInt := by omega
    rw [if_pos hlt] at hlist
    have hlexeme : String.ofList ('-' :: Nat.toDigits 10 n.toInt.natAbs) = toString n.toInt := by
      rw [← hlist, String.ofList_toList]
    have hnumber := number_of_toDigits true (m := n.toInt.natAbs) hrest
      (by simp only [if_true, hvalue]; omega) (by simp only [if_true, hvalue]; omega)
    simp only [if_true, hvalue, Int32.ofInt_toInt] at hnumber
    rw [hlist] at h ⊢
    have hread (prev : Option Kind) (hprev : Option.any Kind.endsOperand prev = ended) :
        readLexeme prev '-' (Nat.toDigits 10 n.toInt.natAbs ++ rest) =
          .ok ⟨.int, '-' :: Nat.toDigits 10 n.toInt.natAbs, .int n, rest⟩ := by
      rw [hended hneg] at hprev
      unfold readLexeme
      rw [if_neg (by decide), if_pos ⟨rfl, by simp [hds, hd], by simp [hprev]⟩, hnumber]
    rw [← hlexeme]
    exact Scans.lexeme (l := ⟨.int, '-' :: Nat.toDigits 10 n.toInt.natAbs, .int n, rest⟩) h hread
      ⟨by decide, fun hc => absurd hc (by decide)⟩
  · have hlt : ¬ n.toInt < 0 := fun hlt => hneg (Int32.lt_iff_toInt_lt.mpr hlt)
    have hvalue : (n.toInt.natAbs : Int) = n.toInt := by omega
    rw [if_neg hlt] at hlist
    have hlexeme : String.ofList (Nat.toDigits 10 n.toInt.natAbs) = toString n.toInt := by
      rw [← hlist, String.ofList_toList]
    have hnumber := number_of_toDigits false (m := n.toInt.natAbs) hrest
      (by simp only [Bool.false_eq_true, if_false, hvalue]; omega)
      (by simp only [Bool.false_eq_true, if_false, hvalue]; omega)
    simp only [Bool.false_eq_true, if_false, hvalue, Int32.ofInt_toInt] at hnumber
    obtain ⟨hquote, hminus, hslash, hblank, hword, hfixed⟩ :=
      not_other_of_isNumeral hd (ds ++ rest)
    rw [hlist] at h ⊢
    rw [hds] at h hnumber hlexeme ⊢
    have hread (prev : Option Kind) :
        readLexeme prev d (ds ++ rest) = .ok ⟨.int, d :: ds, .int n, rest⟩ := by
      unfold readLexeme
      rw [if_neg hquote, if_neg fun hm => hminus hm.1, hfixed]
      simp only [hword, hd, Bool.false_eq_true, if_false, if_true]
      exact hnumber
    rw [← hlexeme]
    exact Scans.lexeme (l := ⟨.int, d :: ds, .int n, rest⟩) h (fun prev _ => hread prev)
      ⟨hblank, fun hc => absurd hc hslash⟩

/-! ## Strings -/

/-- How the inside of a string literal is written, and what it stands for. -/
inductive Inside : List Char → List Char → Prop where
  | nil : Inside [] []
  | plain {c : Char} {cs value : List Char} (hquote : c ≠ '"') (hslash : c ≠ '\\')
    (h : Inside cs value) : Inside (c :: cs) (c :: value)
  | escape {e c : Char} {cs value : List Char} (he : escaped? e = some c) (h : Inside cs value) :
    Inside ('\\' :: e :: cs) (c :: value)

theorem Inside.append {ds value value' : List Char} (h : Inside cs value) (h' : Inside ds value') :
    Inside (cs ++ ds) (value ++ value') := by
  induction h with
  | nil => exact h'
  | plain hquote hslash _ ih => exact .plain hquote hslash ih
  | escape he _ ih => exact .escape he ih

theorem stringBody_quote (spelled before : List Char) : stringBody spelled before ('"' :: rest) =
    ⟨.string, spelled.reverse ++ ['"'], .text (String.ofList before.reverse), rest⟩ := by
  rw [stringBody.eq_def]
  simp

theorem stringBody_plain (hquote : c ≠ '"') (hslash : c ≠ '\\') (spelled before : List Char) :
    stringBody spelled before (c :: cs) = stringBody (c :: spelled) (c :: before) cs := by
  rw [stringBody.eq_def]
  simp [hquote, hslash]

theorem stringBody_escape {e : Char} (he : escaped? e = some c) (spelled before : List Char) :
    stringBody spelled before ('\\' :: e :: cs) =
      stringBody (e :: '\\' :: spelled) (c :: before) cs := by
  rw [stringBody.eq_def]
  simp [he]

theorem stringBody_of_inside {value : List Char} (h : Inside cs value) (spelled before : List Char) :
    stringBody spelled before (cs ++ '"' :: rest) = ⟨.string, spelled.reverse ++ cs ++ ['"'],
      .text (String.ofList (before.reverse ++ value)), rest⟩ := by
  induction h generalizing spelled before with
  | nil => simp [stringBody_quote]
  | plain hquote hslash _ ih =>
    rw [List.cons_append, stringBody_plain hquote hslash, ih]
    simp
  | escape he _ ih =>
    rw [List.cons_append, List.cons_append, stringBody_escape he, ih]
    simp

theorem Scans.string {value : List Char} (hinside : Inside cs value)
    (h : Scans true (p.after ('"' :: (cs ++ ['"']))) (.ofChars rest) ts) :
    Scans ended p (.ofChars ('"' :: (cs ++ '"' :: rest)))
      (⟨.string, String.ofList ('"' :: (cs ++ ['"'])), .text (String.ofList value), p.line, p.col⟩ :: ts) :=
  Scans.lexeme (l := ⟨.string, '"' :: (cs ++ ['"']), .text (String.ofList value), rest⟩) h
    (fun prev _ => by
      unfold readLexeme
      rw [if_pos rfl, stringBody_of_inside hinside]
      simp) ⟨by decide, fun hc => absurd hc (by decide)⟩

end Token
end Kotlet

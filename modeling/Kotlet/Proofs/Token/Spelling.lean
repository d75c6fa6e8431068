import Kotlet.Proofs.Token.Layout

/-!
# How scanned tokens are spelled

* `Token.Kind.isOperator` : the kinds whose tokens have one spelling, which trees keep;
* `Token.Spelled` : an operator is spelled as its kind says, and a name is made of word characters;
* `Token.spelled_of_scan` : so are all tokens of a scanned text;
* `Token.eq_stringBody_of_readLexeme`, `Token.length_stringBody` : strings are longer than their literals.
-/

namespace Kotlet

namespace Token

/-- The kinds of the operators that trees keep as they are written. -/
def Kind.isOperator (k : Kind) : Bool :=
  [plus, minus, times, slash, percent, eq, notEq, lt, gt, le, ge, and, or, plusAssign, minusAssign,
    timesAssign, slashAssign].contains k

/-- An operator has the spelling of its kind, and a name is made of word characters. -/
structure Spelled (t : Token) : Prop where
  operator : t.kind.isOperator = true → t.shown = t.kind.text
  word : t.kind = .ident → ∀ c ∈ t.literal.toText.toList, continuesWord c = true

theorem spelled_of_kind {t : Token} (ho : t.kind.isOperator = false) (hi : t.kind ≠ .ident) :
    Spelled t :=
  ⟨fun h => by simp [ho] at h, fun h => absurd h hi⟩

theorem spelled_plain {k : Kind} {line col : Nat} (hi : k ≠ .ident) :
    Spelled (plain k k.text line col) :=
  ⟨fun _ => by simp [plain, shown], fun h => absurd h hi⟩

/-- What `Spelled` says of the token that a lexeme becomes. -/
structure Lexeme.Spelled (l : Lexeme) : Prop where
  operator : l.kind.isOperator = true → String.ofList l.chars = l.kind.text
  word : l.kind = .ident → ∀ c ∈ l.literal.toText.toList, continuesWord c = true

/-! ## Lexemes -/

theorem Lexeme.spelled_of_kind {l : Lexeme} (ho : l.kind.isOperator = false) (hi : l.kind ≠ .ident) :
    l.Spelled :=
  ⟨fun h => by simp [ho] at h, fun h => absurd h hi⟩

theorem fixedChar?_spelled {a : Char} {k : Kind} (h : fixedChar? a = some k) :
    (k.isOperator = true → String.ofList [a] = k.text) ∧ k ≠ .ident := by
  unfold fixedChar? at h
  split at h <;> cases h <;> decide

theorem fixedPair?_spelled {a b : Char} {k : Kind} (h : fixedPair? a b = some k) :
    (k.isOperator = true → String.ofList [a, b] = k.text) ∧ k ≠ .ident := by
  unfold fixedPair? at h
  split at h <;> cases h <;> decide

theorem fixed_spelled {k : Kind} {chars rest : List Char}
    (h : (k.isOperator = true → String.ofList chars = k.text) ∧ k ≠ .ident) :
    (fixed k chars rest).Spelled :=
  ⟨h.1, fun hi => absurd hi h.2⟩

theorem fixed?_spelled {cs : List Char} {l : Lexeme} (h : fixed? cs = some l) : l.Spelled := by
  unfold fixed? at h
  split at h
  · cases h
  · obtain ⟨k, hk, rfl⟩ := Option.map_eq_some_iff.mp h
    exact fixed_spelled (fixedChar?_spelled hk)
  · split at h
    · rename_i k hk
      cases h
      exact fixed_spelled (fixedPair?_spelled hk)
    · obtain ⟨k, hk, rfl⟩ := Option.map_eq_some_iff.mp h
      exact fixed_spelled (fixedChar?_spelled hk)

theorem stringBody_kind (spelled value cs : List Char) :
    (stringBody spelled value cs).kind = .string := by
  fun_induction stringBody spelled value cs <;> simp_all

theorem number_kind {negative : Bool} {cs : List Char} {l : Lexeme} (h : number negative cs = .ok l) :
    l.kind = .int := by
  unfold number at h
  dsimp only at h
  repeat' split at h
  all_goals cases h <;> rfl

/-- A word is a name or one of the reserved words. -/
theorem ofWord_cases {P : Kind → Prop} (hident : P .ident)
    (htable : ∀ p ∈ Kind.keywords ++ Kind.typeNames, P p.2) (word : String) : P (Kind.ofWord word) := by
  unfold Kind.ofWord
  cases h : (Kind.keywords ++ Kind.typeNames).lookup word with
  | none => exact hident
  | some k =>
    obtain ⟨before, after, heq, -⟩ := List.lookup_eq_some_iff.mp h
    exact htable (word, k) (by rw [heq]; simp)

/-- A word that is reserved is no operator. -/
theorem ofWord_not_operator (word : String) : (Kind.ofWord word).isOperator = false :=
  ofWord_cases (P := fun k => k.isOperator = false) rfl (by decide) word

theorem word_spelled (cs : List Char) : (word cs).Spelled := by
  refine ⟨fun h => ?_, fun _ c hc => ?_⟩
  · have hno := ofWord_not_operator (String.ofList (cs.takeWhile continuesWord))
    change (Kind.ofWord (String.ofList (cs.takeWhile continuesWord))).isOperator = true at h
    rw [hno] at h
    cases h
  · have hmem : c ∈ cs.takeWhile continuesWord := by simpa [word, Literal.toText] using hc
    exact List.all_eq_true.mp (List.all_takeWhile (p := continuesWord)) c hmem

theorem readLexeme_spelled {prev : Option Kind} {c : Char} {cs : List Char} {l : Lexeme}
    (h : readLexeme prev c cs = .ok l) : l.Spelled := by
  unfold readLexeme at h
  split at h
  · cases h
    have hk := stringBody_kind ['"'] [] cs
    exact Lexeme.spelled_of_kind (by rw [hk]; rfl) (by rw [hk]; decide)
  · split at h
    · have hk := number_kind h
      exact Lexeme.spelled_of_kind (by rw [hk]; rfl) (by rw [hk]; decide)
    · split at h
      · rename_i l' hl
        cases h
        exact fixed?_spelled hl
      · split at h
        · cases h
          exact word_spelled _
        · split at h
          · have hk := number_kind h
            exact Lexeme.spelled_of_kind (by rw [hk]; rfl) (by rw [hk]; decide)
          · cases h

/-! ## Strings -/

/-- A string literal is shorter than its spelling, which has a quote before it at least. -/
theorem length_stringBody (spelled value cs : List Char) :
    (stringBody spelled value cs).literal.toText.length + spelled.length ≤
      (stringBody spelled value cs).chars.length + value.length := by
  fun_induction stringBody spelled value cs <;> simp_all [Literal.toText] <;> omega

theorem fixedChar?_ne_string {a : Char} {k : Kind} (h : fixedChar? a = some k) : k ≠ .string := by
  unfold fixedChar? at h
  split at h <;> cases h <;> decide

theorem fixedPair?_ne_string {a b : Char} {k : Kind} (h : fixedPair? a b = some k) : k ≠ .string := by
  unfold fixedPair? at h
  split at h <;> cases h <;> decide

theorem fixed?_ne_string {cs : List Char} {l : Lexeme} (h : fixed? cs = some l) : l.kind ≠ .string := by
  unfold fixed? at h
  split at h
  · cases h
  · obtain ⟨k, hk, rfl⟩ := Option.map_eq_some_iff.mp h
    exact fixedChar?_ne_string hk
  · split at h
    · rename_i k hk
      cases h
      exact fixedPair?_ne_string hk
    · obtain ⟨k, hk, rfl⟩ := Option.map_eq_some_iff.mp h
      exact fixedChar?_ne_string hk

/-- Only a quote starts a string. -/
theorem eq_stringBody_of_readLexeme {prev : Option Kind} {a : Char} {cs : List Char} {l : Lexeme}
    (h : readLexeme prev a cs = .ok l) (hk : l.kind = .string) : l = stringBody ['"'] [] cs := by
  unfold readLexeme at h
  split at h
  · exact (Except.ok.inj h).symm
  · split at h
    · exact nomatch (number_kind h).symm.trans hk
    · split at h
      · rename_i l' hl
        cases h
        exact absurd hk (fixed?_ne_string hl)
      · split at h
        · cases h
          exact absurd hk (ofWord_cases (P := (· ≠ .string)) (by decide) (by decide) _)
        · split at h
          · exact nomatch (number_kind h).symm.trans hk
          · cases h

/-! ## Texts -/

/-- What holds of every token that is read holds of all tokens. -/
theorem forall_of_scanFrom {P : Token → Prop} (hread : ∀ prev c cs l (spelling : Text) line col,
    readLexeme prev c cs = .ok l → spelling.chars = l.chars →
    P ⟨l.kind, spelling, l.literal, line, col⟩) {steps : Nat} {acc : List Token} {p : Pos}
    {text : Text} {tokens : List Token} (h : scanFrom steps acc p text text.chars = .ok tokens)
    (hacc : ∀ t ∈ acc, P t) : ∀ t ∈ tokens, P t := by
  induction steps generalizing acc p text with
  | zero =>
    cases h
    simpa using hacc
  | succ steps ih =>
    rcases turn_of_scanFrom h with ⟨turn, -, hrest⟩ | ⟨-, rfl⟩
    · refine ih hrest fun t ht => ?_
      rcases List.mem_cons.mp ht with rfl | ht
      · exact hread _ _ _ _ _ _ _ turn.reads turn.spelled
      · exact hacc t ht
    · simpa using hacc

/-- All tokens of a scanned text are spelled as their kinds say. -/
theorem spelled_of_scan {text : Text} {tokens : List Token} (h : scan text = .ok tokens) :
    ∀ t ∈ tokens, Spelled t := by
  refine forall_of_scanFrom (fun _ _ _ l spelling _ _ hl hspelling => ?_) h (by simp)
  have hspelled := readLexeme_spelled hl
  refine ⟨fun ho => ?_, hspelled.word⟩
  rw [shown, Text.shown, hspelling]
  exact hspelled.operator ho

end Token

end Kotlet

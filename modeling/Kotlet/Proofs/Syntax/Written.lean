import Kotlet.Proofs.Parse.Grammar
import Kotlet.Proofs.Token.Forward
import Kotlet.Syntax.Format
import Mathlib.Data.List.Forall2

/-!
# Written text

What a text becomes wherever it is written, put together from what its parts become.

* `Neat` : texts without line ends, and without quotes and open braces where no strings may stand;
* `Writes` : the tokens that a text is scanned into, whatever stands before and behind it;
* `Writes.lone`, `Writes.spaced`, `Writes.word`, `Writes.append` and their kin : texts from their parts;
* `Renders`, `renders_type`, `renders_param` : what is read as something like what was written.

A text that may start with a negative number is `signed`: an operand before it would take the minus
sign for an operator.
-/

namespace Kotlet
namespace Written

open Token (Kind Scans Free IsSpelling fixedChar? fixedPair? continuesWord startsWord isNumeral)
open Grammar

theorem lineEnds_nil : LineEnds [] := nofun

/-! ## Formats -/

theorem format_int (m : Mark) (n : Int32) : (Expr.int m n).format = toString n.toInt := by
  rw [Expr.format]

theorem format_printLine (tok : Token) (level : Nat) :
    (Stmt.print tok true none).format level = "println()" := by
  simp [Stmt.format]

/-! ## Neat texts -/

/-- How many braces are open after a character, of `d` before it. Where strings may stand, only line
ends count. -/
def braceStep (strings : Bool) (d : Nat) (c : Char) : Option Nat :=
  if c = '\n' then none
  else if strings then some d
  else if c = '{' then some (d + 1)
  else if c = '}' then (if d = 0 then none else some (d - 1))
  else if c = '"' ∨ c = '\\' then none
  else some d

/-- How many braces are open after a text. -/
def bracesAfter (strings : Bool) : Nat → List Char → Option Nat
  | d, [] => some d
  | d, c :: cs => (braceStep strings d c).bind fun d => bracesAfter strings d cs

variable {strings : Bool}

@[simp] theorem bracesAfter_nil (d : Nat) : bracesAfter strings d [] = some d := rfl

@[simp] theorem bracesAfter_cons (d : Nat) (c : Char) (cs : List Char) :
    bracesAfter strings d (c :: cs) = (braceStep strings d c).bind fun d => bracesAfter strings d cs :=
  rfl

@[simp] theorem bracesAfter_append (d : Nat) (cs ds : List Char) : bracesAfter strings d (cs ++ ds) =
    (bracesAfter strings d cs).bind fun d => bracesAfter strings d ds := by
  induction cs generalizing d with
  | nil => rfl
  | cons c cs ih =>
    rw [List.cons_append, bracesAfter_cons, bracesAfter_cons]
    cases braceStep strings d c with
    | none => rfl
    | some d => exact ih d

/-- A text that closes the braces that it opens. -/
def Neat (strings : Bool) (cs : List Char) : Prop := ∀ d, bracesAfter strings d cs = some d

theorem neat_of_chars {cs : List Char} (h : ∀ c ∈ cs, ∀ d, braceStep strings d c = some d) :
    Neat strings cs := by
  intro d
  induction cs with
  | nil => rfl
  | cons c cs ih =>
    rw [bracesAfter_cons, h c List.mem_cons_self]
    exact ih fun e he => h e (List.mem_cons_of_mem _ he)

theorem braceStep_of_ne {c : Char} (h : c ∉ ['\n', '{', '}', '"', '\\']) (d : Nat) :
    braceStep strings d c = some d := by
  simp only [List.mem_cons, List.not_mem_nil, or_false, not_or] at h
  simp [braceStep, h]

theorem braceStep_of_continuesWord {c : Char} (h : continuesWord c = true) (d : Nat) :
    braceStep strings d c = some d := by
  refine braceStep_of_ne (fun hc => ?_) d
  revert h
  simp only [List.mem_cons, List.not_mem_nil, or_false] at hc
  rcases hc with rfl | rfl | rfl | rfl | rfl <;> decide

theorem neat_word {w : String} (h : IsSpelling w) : Neat strings w.toList :=
  neat_of_chars fun c hc => braceStep_of_continuesWord (h.2 c hc)

theorem neat_integer (n : Int) : Neat strings (toString n).toList := by
  have hdigits (m : Nat) : Neat strings (Nat.toDigits 10 m) := neat_of_chars fun c hc =>
    braceStep_of_continuesWord (by simp [continuesWord, Token.isNumeral_of_mem_toDigits hc])
  rw [Token.toList_toString]
  split
  · intro d
    simp [braceStep, hdigits _ d]
  · exact hdigits _

theorem Neat.braces {cs : List Char} (h : Neat strings cs) : Neat strings ('{' :: (cs ++ ['}'])) := by
  intro d
  cases strings with
  | true => simp [braceStep, h d]
  | false => simp [braceStep, h (d + 1)]

theorem Neat.newline_notMem {cs : List Char} (h : Neat strings cs) : '\n' ∉ cs := by
  intro hmem
  obtain ⟨as, bs, rfl⟩ := List.append_of_mem hmem
  have hd := h 0
  cases has : bracesAfter strings 0 as <;> simp [has, braceStep] at hd

/-! ## What a text is scanned into -/

/-- A token that is its own spelling. -/
structure Is (k : Kind) (w : String) (t : Token) : Prop where
  kind : t.kind = k
  shown : t.shown = w
  literal : t.literal = .text w

theorem is_plain (k : Kind) (w : String) (line col : Nat) : Is k w (.plain k w line col) :=
  ⟨rfl, Text.shown_ofString w, rfl⟩

/-- A token that is its own spelling, and what comes behind it. -/
def First (k : Kind) (w : String) (R : List Token → Prop) (us : List Token) : Prop :=
  ∃ t vs, us = t :: vs ∧ Is k w t ∧ R vs

/-- Two parts of a list of tokens. -/
def Then (R S : List Token → Prop) (us : List Token) : Prop := ∃ vs ws, us = vs ++ ws ∧ R vs ∧ S ws

/-- Wherever the text stands, it is scanned into tokens in `R`. -/
def Writes (signed : Bool) (text : List Char) (R : List Token → Prop) : Prop :=
  ∀ (p : Pos) (rest : List Char) (ts : List Token), Free rest →
    (∀ b, Scans b (p.after text) (.ofChars rest) ts) →
      ∃ us, R us ∧ ∀ b, (signed = true → b = false) → Scans b p (.ofChars (text ++ rest)) (us ++ ts)

variable {signed signed' : Bool} {text text' : List Char} {R S : List Token → Prop} {c : Char} {k : Kind}

theorem Writes.mono (h : Writes signed text R) (hRS : ∀ us, R us → S us) : Writes signed text S := by
  intro p rest ts hrest hts
  obtain ⟨us, hus, hscans⟩ := h p rest ts hrest hts
  exact ⟨us, hRS us hus, hscans⟩

theorem Writes.of_eq (h : Writes signed text R) (heq : text' = text) : Writes signed text' R := heq ▸ h

theorem Writes.toSigned (h : Writes signed text R) : Writes true text R := by
  intro p rest ts hrest hts
  obtain ⟨us, hus, hscans⟩ := h p rest ts hrest hts
  exact ⟨us, hus, fun b hb => hscans b fun _ => hb rfl⟩

/-- A whole text. -/
theorem Writes.scan (h : Writes signed text R) : ∃ us, R us ∧ Token.scan (.ofChars text) = .ok us := by
  obtain ⟨us, hus, hscans⟩ := h .start [] [] Token.free_nil fun _ => Token.scans_nil
  refine ⟨us, hus, ?_⟩
  have hfalse := hscans false fun _ => rfl
  rw [List.append_nil, List.append_nil] at hfalse
  exact Token.scan_of_scans hfalse

theorem free_append (h : Free text) {rest : List Char} (hrest : Free rest) : Free (text ++ rest) := by
  cases text with
  | nil => exact hrest
  | cons c cs => exact h

theorem writes_nil : Writes false [] (· = []) :=
  fun _ _ _ _ hts => ⟨[], rfl, fun b _ => hts b⟩

theorem Writes.append (h : Writes signed text R) (h' : Writes false text' S) (hfree : Free text') :
    Writes signed (text ++ text') (Then R S) := by
  intro p rest ts hrest hts
  rw [Pos.after_append] at hts
  obtain ⟨ws, hws, hscans'⟩ := h' _ rest ts hrest hts
  obtain ⟨vs, hvs, hscans⟩ := h p _ _ (free_append hfree hrest) fun b => hscans' b nofun
  refine ⟨vs ++ ws, ⟨vs, ws, rfl, hvs, hws⟩, fun b hb => ?_⟩
  rw [List.append_assoc, List.append_assoc]
  exact hscans b hb

theorem Writes.blank (h : Writes signed text R) : Writes signed (' ' :: text) R := by
  intro p rest ts hrest hts
  obtain ⟨us, hus, hscans⟩ := h _ rest ts hrest hts
  exact ⟨us, hus, fun b hb => (hscans b hb).blank rfl⟩

/-! ## Fixed tokens -/

/-- A character that begins no other token before the next one. -/
def Apart (c d : Char) : Prop :=
  fixedPair? c d = none ∧ (c = '-' → isNumeral d = false) ∧ (c = '/' → d ≠ '/' ∧ d ≠ '*')

theorem Writes.char (h : Writes signed text R) (hk : fixedChar? c = some k)
    (hs : signed = true → k.endsOperand = false)
    (hnext : ∀ rest, Free rest → ∀ d ∈ (text ++ rest).head?, Apart c d) :
    Writes false (c :: text) (First k (String.singleton c) R) := by
  intro p rest ts hrest hts
  obtain ⟨us, hus, hscans⟩ := h _ rest ts hrest hts
  have hapart := hnext rest hrest
  have hnumeral (hc : c = '-') : (text ++ rest).head?.any isNumeral = false := by
    cases hd : (text ++ rest).head? with
    | none => rfl
    | some d => exact (hapart d hd).2.1 hc
  exact ⟨_ :: us, ⟨_, us, rfl, is_plain k _ p.line p.col, hus⟩, fun b _ =>
    (hscans k.endsOperand hs).char hk (fun d hd => (hapart d hd).1) hnumeral
      fun hc d hd => (hapart d hd).2.2 hc⟩

/-- The characters that are tokens of their own whatever comes behind. -/
def lone? (c : Char) : Option Kind :=
  if c ∈ ['\n', ',', ':', '(', ')', '{', '}', '[', ']'] then fixedChar? c else none

theorem apart_of_lone (h : lone? c = some k) (d : Char) : Apart c d := by
  unfold lone? at h
  split at h
  · rename_i hc
    simp only [List.mem_cons, List.not_mem_nil, or_false] at hc
    rcases hc with rfl | rfl | rfl | rfl | rfl | rfl | rfl | rfl | rfl <;> exact ⟨rfl, nofun, nofun⟩
  · cases h

theorem Writes.lone (h : Writes signed text R) (hk : lone? c = some k)
    (hs : signed = true → k.endsOperand = false) :
    Writes false (c :: text) (First k (String.singleton c) R) := by
  refine h.char ?_ hs fun _ _ d _ => apart_of_lone hk d
  unfold lone? at hk
  split at hk
  · exact hk
  · cases hk

/-- A character before a blank. -/
theorem Writes.spaced (h : Writes signed text R) (hk : fixedChar? c = some k)
    (hs : signed = true → k.endsOperand = false) :
    Writes false (c :: ' ' :: text) (First k (String.singleton c) R) := by
  refine h.blank.char hk hs fun rest _ d hd => ?_
  obtain rfl : ' ' = d := by simpa using hd
  unfold fixedChar? at hk
  split at hk <;> first | exact ⟨rfl, by decide, by decide⟩ | cases hk

theorem apart_of_ne_assign {d : Char} (hc : c = '!' ∨ c = '<' ∨ c = '>') (hd : d ≠ '=') : Apart c d := by
  have hpair : fixedPair? c d = none := by
    unfold fixedPair?
    split <;> first | rfl | exact absurd rfl hd | (exfalso; revert hc; decide)
  rcases hc with rfl | rfl | rfl <;> exact ⟨hpair, nofun, nofun⟩

theorem Writes.pair {d : Char} (h : Writes signed text R) (hk : fixedPair? c d = some k)
    (hs : signed = true → k.endsOperand = false) :
    Writes false (c :: d :: text) (First k (String.ofList [c, d]) R) := by
  intro p rest ts hrest hts
  obtain ⟨us, hus, hscans⟩ := h _ rest ts hrest hts
  exact ⟨_ :: us, ⟨_, us, rfl, is_plain k _ p.line p.col, hus⟩,
    fun b _ => Scans.pair (hscans k.endsOperand hs) hk⟩

/-! ## Words and numbers -/

theorem Writes.word {w : String} (h : Writes signed text R) (hw : IsSpelling w) (hfree : Free text)
    (hs : signed = true → (Kind.ofWord w).endsOperand = false) :
    Writes false (w.toList ++ text) (First (Kind.ofWord w) w R) := by
  intro p rest ts hrest hts
  rw [Pos.after_append] at hts
  obtain ⟨us, hus, hscans⟩ := h _ rest ts hrest hts
  refine ⟨Token.wordToken w p :: us, ⟨_, us, rfl, is_plain _ w p.line p.col, hus⟩, fun b _ => ?_⟩
  rw [List.append_assoc]
  exact Scans.word hw (hscans _ hs) (free_append hfree hrest)

/-- A reserved word before a blank. -/
theorem Writes.keyword {w : String} (h : Writes signed text R) (hw : IsSpelling w)
    (hs : signed = true → (Kind.ofWord w).endsOperand = false) :
    Writes false (w.toList ++ ' ' :: text) (First (Kind.ofWord w) w R) :=
  h.blank.word hw (Token.free_cons rfl (by decide)) hs

theorem writes_integer (n : Int32) :
    Writes true (toString n.toInt).toList fun us => ∃ t, us = [t] ∧ t.kind = .int ∧ t.literal = .int n := by
  intro p rest ts hrest hts
  exact ⟨[_], ⟨_, rfl, rfl, rfl⟩, fun b hb => (hts true).integer (fun _ => hb rfl) hrest⟩

theorem writes_string {cs value : List Char} (h : Token.Inside cs value) :
    Writes false ('"' :: (cs ++ ['"'])) fun us =>
      ∃ t, us = [t] ∧ t.kind = .string ∧ t.literal = .text (String.ofList value) := by
  intro p rest ts hrest hts
  refine ⟨[⟨.string, String.ofList ('"' :: (cs ++ ['"'])), .text (String.ofList value), p.line, p.col⟩],
    ⟨_, rfl, rfl, rfl⟩, fun b _ => ?_⟩
  rw [List.cons_append, List.append_assoc]
  exact Scans.string h (hts true)

/-! ## Things that are written -/

/-- The text of something is neat, and it is read as something like it. -/
def Renders {α : Type} (strings signed : Bool) (format : α → String) (Like : α → α → Prop) (R : Reading α)
    (a : α) : Prop :=
  Neat strings (format a).toList ∧
    Writes signed (format a).toList fun us => ∃ b, R us b ∧ Like a b

/-- Things between commas. -/
theorem writes_separated {α : Type} {item : Reading α} {Like : α → α → Prop} {format : α → String}
    {comma : List Token → Prop} {as : List α} (hcomma : ∀ t, t.kind = .comma → comma [t]) (hne : as ≠ [])
    (h : ∀ a ∈ as, Renders strings signed format Like item a) :
    Neat strings ([',', ' '].intercalate (as.map (String.toList ∘ format))) ∧
      Writes signed ([',', ' '].intercalate (as.map (String.toList ∘ format))) fun us =>
        ∃ bs, Separated comma item us bs ∧ List.Forall₂ Like as bs := by
  induction as with
  | nil => exact absurd rfl hne
  | cons a as ih =>
    obtain ⟨hneat, hwrites⟩ := h a List.mem_cons_self
    cases as with
    | nil =>
      refine ⟨by simpa using hneat, (hwrites.mono ?_).of_eq (by simp)⟩
      rintro us ⟨b, hb, hlike⟩
      exact ⟨[b], .one hb, .cons hlike .nil⟩
    | cons a' as =>
      obtain ⟨hneat', hwrites'⟩ := ih (List.cons_ne_nil _ _) fun x hx => h x (List.mem_cons_of_mem _ hx)
      rw [List.map_cons, List.map_cons, List.intercalate_cons_cons, ← List.map_cons]
      refine ⟨fun d => ?_, ((hwrites.append (hwrites'.spaced (c := ',') rfl fun _ => rfl)
        (Token.free_cons rfl (by decide))).mono ?_).of_eq (by simp)⟩
      · have hrest := hneat' d
        rw [List.append_assoc, bracesAfter_append, Function.comp_apply, hneat d]
        simpa [braceStep] using hrest
      · rintro _ ⟨us, _, rfl, ⟨b, hb, hlike⟩, t, vs, rfl, ht, bs, hbs, hlikes⟩
        exact ⟨b :: bs, .more hb (hcomma t ht.kind) hbs, .cons hlike hlikes⟩

/-! ## Types -/

theorem exists_of_separated {α : Type} {comma : List Token → Prop} {item : Reading α} {us : List Token}
    {as : List α} (h : Separated comma item us as) {a : α} (ha : a ∈ as) : ∃ vs, vs.Sublist us ∧ item vs a := by
  induction h with
  | one h =>
    obtain rfl := List.mem_singleton.mp ha
    exact ⟨_, .refl _, h⟩
  | @more ts cs us _ _ h _ _ ih =>
    rcases List.mem_cons.mp ha with rfl | ha
    · exact ⟨ts, List.sublist_append_left _ _, h⟩
    · obtain ⟨vs, hvs, hitem⟩ := ih ha
      exact ⟨vs, (hvs.trans (List.sublist_append_right _ _)).trans (List.sublist_append_right _ _), hitem⟩

theorem ne_assign_of_isSpelling {w : String} (hw : IsSpelling w) (cs : List Char) :
    ∀ d ∈ (w.toList ++ cs).head?, d ≠ '=' := by
  intro d hd
  have hhead := hw.1
  cases hcs : w.toList with
  | nil => simp [hcs] at hhead
  | cons c w =>
    rw [hcs] at hd hhead
    obtain rfl : c = d := by simpa using hd
    have hc : startsWord c = true := by simpa using hhead
    rintro rfl
    revert hc
    decide

theorem scalar_text {k : Kind} {s : Scalar} (h : Parse.scalar? k = some s) :
    IsSpelling s.text ∧ Parse.scalar? (Kind.ofWord s.text) = some s := by
  unfold Parse.scalar? at h
  split at h <;> cases h <;> exact ⟨by decide, by decide⟩

/-- The type of an array or list. -/
theorem writes_collection {w : String} {s : Scalar} (hw : IsSpelling w) (hs : IsSpelling s.text) :
    Neat strings (w ++ "<" ++ s.text ++ ">").toList ∧ Writes false (w ++ "<" ++ s.text ++ ">").toList
      (First (Kind.ofWord w) w (First .lt "<" (First (Kind.ofWord s.text) s.text (First .gt ">" (· = []))))) := by
  have hclose : Writes false ['>'] (First .gt ">" (· = [])) :=
    writes_nil.char rfl nofun fun rest hrest d hd => apart_of_ne_assign (by simp) (hrest d hd).2
  have hopen : Writes false ('<' :: (s.text.toList ++ ['>'])) _ :=
    (hclose.word hs (Token.free_cons rfl (by decide)) nofun).char rfl nofun fun rest _ d hd =>
      apart_of_ne_assign (by simp) (ne_assign_of_isSpelling hs ('>' :: rest) d (by rwa [List.append_assoc] at hd))
  refine ⟨fun d => ?_, (hopen.word hw (Token.free_cons rfl (by decide)) nofun).of_eq
    (by simp [String.toList_append])⟩
  simp [String.toList_append, neat_word hw d, neat_word hs d, braceStep]

theorem texts_eq_map (tys : List Ty) : Ty.texts tys = tys.map Ty.text := by
  induction tys with
  | nil => rfl
  | cons ty tys ih => rw [Ty.texts, ih, List.map_cons]

/-- The text of a type is read as the type. -/
theorem renders_type {us : List Token} {ty : Ty} (h : IsType us ty) :
    Renders strings false Ty.text Eq IsType ty := by
  suffices Neat strings ty.text.toList ∧ Writes false ty.text.toList fun vs => IsType vs ty from
    ⟨this.1, this.2.mono fun _ h => ⟨ty, h, rfl⟩⟩
  induction hn : us.length using Nat.strong_induction_on generalizing us ty with
  | _ n ih =>
    cases h with
    | scalar hs =>
      obtain ⟨hspelling, hkind⟩ := scalar_text hs
      refine ⟨neat_word hspelling, ((writes_nil.word hspelling Token.free_nil nofun).mono ?_).of_eq
        (by simp [Ty.text])⟩
      rintro _ ⟨t, _, rfl, ht, rfl⟩
      exact .scalar (by rw [ht.kind, hkind])
    | array _ _ he hs _ =>
      obtain ⟨hspelling, hkind⟩ := scalar_text he
      obtain ⟨hneat, hwrites⟩ : Neat strings _ ∧ _ := writes_collection (w := "Array")
        (by decide) hspelling
      refine ⟨hneat, hwrites.mono ?_⟩
      rintro _ ⟨a, _, rfl, ha, l, _, rfl, hl, e, _, rfl, he, g, _, rfl, hg, rfl⟩
      exact .array ha.kind hl.kind (by rw [he.kind, hkind]) hs hg.kind
    | list _ _ he hs _ =>
      obtain ⟨hspelling, hkind⟩ := scalar_text he
      obtain ⟨hneat, hwrites⟩ : Neat strings _ ∧ _ := writes_collection (w := "MutableList")
        (by decide) hspelling
      refine ⟨hneat, hwrites.mono ?_⟩
      rintro _ ⟨a, _, rfl, ha, l, _, rfl, hl, e, _, rfl, he, g, _, rfl, hg, rfl⟩
      exact .list ha.kind hl.kind (by rw [he.kind, hkind]) hs hg.kind
    | @thunk _ _ _ rs r _ _ _ hr =>
      simp only [List.length_cons] at hn
      obtain ⟨hneat, hwrites⟩ := ih rs.length (by omega) hr rfl
      have hresult := (hwrites.blank.pair (c := '-') (d := '>') rfl nofun).blank.lone (c := ')') rfl nofun
      have hall := hresult.lone (c := '(') rfl nofun
      refine ⟨fun d => ?_, (hall.mono ?_).of_eq
        (by simp [Ty.text, Ty.texts, Ty.textOrUnit, String.toList_append])⟩
      · simp [Ty.text, Ty.texts, Ty.textOrUnit, String.toList_append, hneat d, braceStep]
      · rintro _ ⟨o, _, rfl, ho, c, _, rfl, hc, a, _, rfl, ha, hr⟩
        exact .thunk ho.kind hc.kind ha.kind hr
    | @fn _ _ _ ps rs params r _ hps _ _ hr =>
      simp only [List.length_cons, List.length_append] at hn
      obtain ⟨hneat, hwrites⟩ := ih rs.length (by omega) hr rfl
      have hne : params ≠ [] := by cases hps <;> exact List.cons_ne_nil _ _
      have hparams : ∀ p ∈ params, Renders strings false Ty.text Eq IsType p := by
        intro p hp
        obtain ⟨vs, hvs, htype⟩ := exists_of_separated hps hp
        have hlen := hvs.length_le
        obtain ⟨hneat, hwrites⟩ := ih vs.length (by omega) htype rfl
        exact ⟨hneat, hwrites.mono fun _ h => ⟨p, h, rfl⟩⟩
      obtain ⟨hneats, hseparated⟩ :=
        writes_separated (fun _ ht => Comma.mk ht) hne hparams
      have hresult := (hwrites.blank.pair (c := '-') (d := '>') rfl nofun).blank.lone (c := ')') rfl nofun
      have hall := (hseparated.append hresult (Token.free_cons rfl (by decide))).lone (c := '(') rfl nofun
      refine ⟨fun d => ?_, (hall.mono ?_).of_eq
        (by simp [Ty.text, texts_eq_map, Ty.textOrUnit, String.toList_append])⟩
      · simp [Ty.text, texts_eq_map, Ty.textOrUnit, String.toList_append, hneat d, hneats d, braceStep]
      · rintro _ ⟨o, _, rfl, ho, ps', _, rfl, ⟨params', hps', hlike⟩, c, _, rfl, hc, a, _, rfl, ha, hr⟩
        obtain rfl : params = params' := List.forall₂_eq_eq_eq ▸ hlike
        exact .fn ho.kind hps' hc.kind ha.kind hr

/-! ## Parameters -/

/-- A word that is no reserved one. -/
def IsName (w : String) : Prop := IsSpelling w ∧ Kind.ofWord w = .ident

/-- Parameters of one name and type. -/
def SameParam (p q : Param) : Prop := q.name.name = p.name.name ∧ q.ty = p.ty

theorem renders_param {us : List Token} {p : Param} (h : IsParam us p) (hname : IsName p.name.name) :
    Renders strings false Param.format SameParam IsParam p := by
  obtain ⟨hspelling, hkind⟩ := hname
  cases h with
  | bare ht =>
    refine ⟨neat_word hspelling, ((writes_nil.word hspelling Token.free_nil nofun).mono ?_).of_eq
      (List.append_nil _).symm⟩
    rintro _ ⟨u, _, rfl, hu, rfl⟩
    exact ⟨_, .bare (hu.kind.trans hkind), by simp [name, Ident.ofToken, hu.literal, Token.Literal.toText], rfl⟩
  | @typed t c ts ty ht hc hty =>
    obtain ⟨hneat, hwrites⟩ : Renders strings _ _ _ _ _ := renders_type hty
    refine ⟨fun d => ?_, (((hwrites.spaced (c := ':') rfl nofun).word hspelling
      (Token.free_cons rfl (by decide)) nofun).mono ?_).of_eq (by simp [Param.format, String.toList_append])⟩
    · simp [Param.format, String.toList_append, neat_word hspelling d, hneat d, braceStep]
    · rintro _ ⟨u, _, rfl, hu, c, _, rfl, hc, ty, hty, rfl⟩
      exact ⟨_, .typed (hu.kind.trans hkind) hc.kind hty,
        by simp [name, Ident.ofToken, hu.literal, Token.Literal.toText], rfl⟩

theorem SameParam.format {p q : Param} (h : SameParam p q) : q.format = p.format := by
  simp [Param.format, h.1, h.2]

theorem SameParam.outline {p q : Param} (h : SameParam p q) : q.outline = p.outline := by
  simp [Param.outline, h.1, h.2]

theorem map_eq_of_forall₂ {α β : Type} {Like : α → α → Prop} {f : α → β} {as bs : List α}
    (h : List.Forall₂ Like as bs) (hf : ∀ a b, Like a b → f b = f a) : bs.map f = as.map f := by
  induction h with
  | nil => rfl
  | cons hab _ ih => rw [List.map_cons, List.map_cons, hf _ _ hab, ih]

end Written
end Kotlet

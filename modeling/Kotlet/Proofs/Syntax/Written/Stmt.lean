import Kotlet.Proofs.Parse.StatementsComplete
import Kotlet.Proofs.Syntax.Written.Literal

/-!
# Written statements

The text of a statement that was read is read as a statement like it, on as many lines as it takes.

* `SameStmt`, `RendersStmt` : statements of one outline and one text, and those that can be written again;
* `writes_condition` .. `writes_params` : what stands in the parentheses of a statement;
* `renders_simple` : statements that hold no others, on one line;
* `renders_block`, `writes_elsePart` : statements in braces, and what comes after `else`;
* `renders_stmt` : all statements.
-/

namespace Kotlet
namespace Written

open Token (Kind Scans Free IsSpelling free_cons free_nil)
open Grammar

/-! ## Likeness -/

/-- Whether a statement is an `if`. -/
def isIf : Stmt → Bool
  | .ifElse _ _ _ _ => true
  | _ => false

/-- Statements of one outline and one text. -/
structure SameStmt (s s' : Stmt) : Prop where
  outline : s'.outline = s.outline
  format : ∀ level, s'.format level = s.format level
  isIf : isIf s' = isIf s

/-- A text that ends with its line unfinished. -/
def Ends (text : List Char) : Prop := ∃ cs c, text = cs ++ [c] ∧ c ≠ '\n'

theorem Ends.append {text : List Char} (h : Ends text) (before : List Char) : Ends (before ++ text) := by
  obtain ⟨cs, c, rfl, hc⟩ := h
  exact ⟨before ++ cs, c, (List.append_assoc _ _ _).symm, hc⟩

theorem ends_of_neat {strings : Bool} {text : List Char} (h : Neat strings text) (hne : text ≠ []) : Ends text := by
  refine ⟨text.dropLast, text.getLast hne, (List.dropLast_append_getLast hne).symm, fun hlast => ?_⟩
  exact h.newline_notMem (hlast ▸ List.getLast_mem hne)

/-- At every level of indentation the statement is written as what is read as a statement like it. -/
def RendersStmt (S' : Reading Stmt) (s : Stmt) : Prop :=
  ∀ level, Ends (s.format level).toList ∧
    Writes false (s.format level).toList fun us => ∃ s', S' us s' ∧ SameStmt s s'

variable {string : Token → Prop} {E E' : Reading Expr} {S' : Reading Stmt} {text : List Char}
  {R : List Token → Prop} {signed : Bool}

/-- A statement on one line. -/
theorem rendersStmt_of_line {s : Stmt} (line : List Char) (hline : ∀ level, (s.format level).toList = line)
    (hneat : Neat true line) (hne : line ≠ [])
    (hwrites : Writes false line fun us => ∃ s', S' us s' ∧ SameStmt s s') : RendersStmt S' s := by
  intro level
  rw [hline level]
  exact ⟨ends_of_neat hneat hne, hwrites⟩

/-! ## Parts of statements -/

/-- The type of a variable as it is written. -/
def typeText : Option Ty → String
  | none => ""
  | some ty => ": " ++ ty.text

theorem writes_typePart (ty : Option Ty) (h : ∀ t, ty = some t → ∃ us, IsType us t) :
    Neat true (typeText ty).toList ∧ Free (typeText ty).toList ∧
      Writes false (typeText ty).toList fun us => IsTypePart us ty := by
  cases ty with
  | none => exact ⟨fun _ => rfl, free_nil, writes_nil.mono fun us hus => hus ▸ .none⟩
  | some ty =>
    obtain ⟨us, hus⟩ := h ty rfl
    obtain ⟨hneat, hwrites⟩ : Renders true _ _ _ _ _ := renders_type hus
    have htext : (typeText (some ty)).toList = ':' :: ' ' :: ty.text.toList := by
      simp [typeText, String.toList_append]
    rw [htext]
    refine ⟨fun d => ?_, free_cons rfl (by decide), (hwrites.spaced (c := ':') rfl nofun).mono ?_⟩
    · simp [hneat d, braceStep]
    · rintro _ ⟨c, vs, rfl, hc, ty, hty, rfl⟩
      exact .some hc.kind hty

section Parts

variable (hE : Keeps true (Legible string) E E')
include hE

theorem writes_condition {ts : List Token} {e : Expr} (hts : ∀ t ∈ ts, Legible string t)
    (h : IsCondition E ts e) : Neat true e.format.toList ∧
      Writes false ('(' :: (e.format.toList ++ [')'])) fun us => ∃ e', IsCondition E' us e' ∧ Alike e e' := by
  cases h with
  | mk _ _ he _ _ =>
    obtain ⟨hneat, hwrites⟩ := hE (fun t ht => hts t (by simp [ht])) he
    refine ⟨hneat, ((hwrites.append (writes_nil.lone (c := ')') rfl nofun) (free_cons rfl (by decide))).lone
      rfl fun _ => rfl).mono ?_⟩
    rintro _ ⟨o, _, rfl, ho, us, _, rfl, ⟨e', he', halike⟩, c, _, rfl, hc, rfl⟩
    exact ⟨e', .mk ho.kind lineEnds_nil he' lineEnds_nil hc.kind, halike⟩

/-- A target, an operator and a value. -/
theorem writes_assignment {ts us : List Token} {t : Target} {e : Expr} {k : Kind} (hk : Infix k)
    (hts : ∀ t ∈ ts, Legible string t) (ht : IsTarget E ts t) (hus : ∀ t ∈ us, Legible string t) (he : E us e) :
    Neat true (t.format ++ " " ++ k.text ++ " " ++ e.format).toList ∧
      Writes false (t.format ++ " " ++ k.text ++ " " ++ e.format).toList fun ws =>
        ∃ vs q us t' e', ws = vs ++ q :: us ∧ Is k k.text q ∧ IsTarget E' vs t' ∧ E' us e' ∧
          SameText Target.outline Target.format t t' ∧ Alike e e' := by
  obtain ⟨hneat, hwrites⟩ := renders_target hE hts ht
  obtain ⟨hneat', hwrites'⟩ := hE hus he
  refine ⟨fun d => ?_, ((hwrites.append (writes_operator hwrites' hk).blank (free_cons rfl (by decide))).mono ?_).of_eq
    (by simp [String.toList_append])⟩
  · simp [String.toList_append, hneat d, neat_operator hk d, hneat' d, braceStep]
  · rintro _ ⟨vs, _, rfl, ⟨t', ht', hsame⟩, q, us, rfl, hq, e', he', halike⟩
    exact ⟨vs, q, us, t', e', rfl, hq, ht', he', hsame, halike⟩

/-- The value of a variable as it is written. -/
def valueText : Option Expr → String
  | none => ""
  | some e => " = " ++ e.format

omit hE in
theorem infix_assign : Infix .assign := by decide

theorem writes_valuePart {value : Option Expr}
    (h : ∀ e, value = some e → ∃ us, (∀ t ∈ us, Legible string t) ∧ E us e) :
    Neat true (valueText value).toList ∧ Free (valueText value).toList ∧
      Writes false (valueText value).toList fun us => ∃ value', IsValuePart E' us value' ∧
        value'.map Expr.outline = value.map Expr.outline ∧ valueText value' = valueText value := by
  cases value with
  | none => exact ⟨fun _ => rfl, free_nil, writes_nil.mono fun us hus => ⟨none, hus ▸ .none, rfl, rfl⟩⟩
  | some e =>
    obtain ⟨us, hus, he⟩ := h e rfl
    obtain ⟨hneat, hwrites⟩ := hE hus he
    have htext : (valueText (some e)).toList = ' ' :: '=' :: ' ' :: e.format.toList := by
      simp [valueText, String.toList_append]
    rw [htext]
    refine ⟨fun d => ?_, free_cons rfl (by decide), (writes_operator hwrites infix_assign).blank.mono ?_⟩
    · simp [hneat d, braceStep]
    · rintro _ ⟨q, vs, rfl, hq, e', he', halike⟩
      exact ⟨some e', .some hq.kind lineEnds_nil he', by simp [halike.outline], by simp [valueText, halike.format]⟩

theorem writes_header {ts : List Token} {x : Header} (hts : ∀ t ∈ ts, Legible string t) (h : IsHeader E ts x) :
    Writes true x.format.toList fun us =>
      ∃ x', IsHeader E' us x' ∧ SameText Header.outline Header.format x x' := by
  cases h with
  | each he =>
    obtain ⟨-, hwrites⟩ := hE hts he
    refine hwrites.mono ?_
    rintro us ⟨e', he', halike⟩
    exact ⟨.each e', .each he', halike.outline, halike.format⟩
  | @range d us vs ws first last step hfirst _ hlast hstep =>
    obtain ⟨-, hwrites⟩ := hE (fun t ht => hts t (by simp [ht])) hfirst
    obtain ⟨-, hwrites'⟩ := hE (fun t ht => hts t (by simp [ht])) hlast
    cases hstep with
    | none =>
      refine ((hwrites.append (hwrites'.pair (c := '.') (d := '.') rfl fun _ => rfl) (free_cons rfl
        (by decide))).mono ?_).of_eq (by simp [Header.format, Range.format, String.toList_append])
      rintro _ ⟨us, _, rfl, ⟨first', hfirst', halike⟩, o, vs, rfl, ho, last', hlast', halike'⟩
      have hrange := IsHeader.range hfirst' ho.kind hlast' .none
      rw [List.append_nil] at hrange
      refine ⟨_, hrange, ?_, ?_⟩
      · simp [Header.outline, Range.outline, halike.outline, halike'.outline]
      · simp [Header.format, Range.format, halike.format, halike'.format]
    | @some _ _ s _ hs =>
      obtain ⟨-, hwrites''⟩ := hE (fun t ht => hts t (by simp [ht])) hs
      have hspelling : IsSpelling "step" := by decide
      have htail := hwrites'.append (hwrites''.keyword hspelling fun _ => rfl).blank (free_cons rfl (by decide))
      refine ((hwrites.append (htail.pair (c := '.') (d := '.') rfl fun _ => rfl) (free_cons rfl
        (by decide))).mono ?_).of_eq (by simp [Header.format, Range.format, String.toList_append])
      rintro _ ⟨us, _, rfl, ⟨first', hfirst', halike⟩, o, _, rfl, ho, vs, _, rfl, ⟨last', hlast', halike'⟩,
        k, ws, rfl, hk, s', hs', halike''⟩
      refine ⟨_, .range hfirst' ho.kind hlast' (.some hk.kind hs'), ?_, ?_⟩
      · simp [Header.outline, Range.outline, halike.outline, halike'.outline, halike''.outline]
      · simp [Header.format, Range.format, halike.format, halike'.format, halike''.format]

end Parts

/-! ### Parameters of functions -/

theorem isParam_of_areParams {ts : List Token} {ps : List Param} (h : AreParams ts ps) {p : Param} (hp : p ∈ ps) :
    ∃ us, us.Sublist ts ∧ IsParam us p ∧ p.ty ≠ none := by
  induction h with
  | nil => cases hp
  | @last us g q h hty hg =>
    obtain rfl := List.mem_singleton.mp hp
    exact ⟨us, List.sublist_append_left _ _, h, hty⟩
  | @more c us g g' vs q qs h hty hg hc hg' _ ih =>
    rcases List.mem_cons.mp hp with rfl | hp
    · exact ⟨us, List.sublist_append_left _ _, h, hty⟩
    · obtain ⟨ws, hws, hparam⟩ := ih hp
      exact ⟨ws, hws.trans ((((List.sublist_append_right g' vs).cons c).trans (List.sublist_append_right g _)).trans
        (List.sublist_append_right us _)), hparam⟩

theorem areParams_of_separated {ts : List Token} {ps : List Param} (h : Separated CommaLines IsParam ts ps)
    (hty : ∀ p ∈ ps, p.ty ≠ none) : AreParams ts ps := by
  induction h with
  | @one us p h => exact List.append_nil us ▸ .last h (hty p (by simp)) lineEnds_nil
  | @more us cs vs p ps h hc _ ih =>
    cases hc with
    | mk hc hg =>
      exact .more (g := []) h (hty p (by simp)) lineEnds_nil hc hg (ih fun q hq => hty q (by simp [hq]))

theorem writes_params {ts : List Token} {ps : List Param} (hts : ∀ t ∈ ts, Legible string t)
    (h : AreParams ts ps) : Writes false (formatParams ps).toList fun us =>
      ∃ ps', AreParams us ps' ∧ List.Forall₂ SameParam ps ps' := by
  by_cases hne : ps = []
  · subst hne
    refine (writes_nil.mono fun us hus => ?_).of_eq (by simp [formatParams])
    subst hus
    exact ⟨[], .nil, .nil⟩
  · have hparam (p : Param) (hp : p ∈ ps) : Renders true false Param.format SameParam IsParam p := by
      obtain ⟨us, hus, hparam, -⟩ := isParam_of_areParams h hp
      exact renders_param hparam (isName_of_isParam (fun t ht => hts t (hus.subset ht)) hparam)
    obtain ⟨-, hwrites⟩ := writes_separated (fun _ ht => CommaLines.mk ht lineEnds_nil) hne hparam
    refine (hwrites.mono ?_).of_eq (by simp [formatParams])
    rintro us ⟨ps', hps', hsame⟩
    refine ⟨ps', areParams_of_separated hps' fun q hq => ?_, hsame⟩
    have htypes := map_eq_of_forall₂ (f := Param.ty) hsame fun _ _ h => h.2
    obtain ⟨p, hp, hpq⟩ := List.mem_map.mp (htypes ▸ List.mem_map_of_mem hq)
    obtain ⟨-, -, -, hty⟩ := isParam_of_areParams h hp
    exact hpq ▸ hty

/-! ## Statements on one line -/

section Simple

variable (hE : Keeps true (Legible string) E E')
include hE

omit hE in
theorem format_decl (k : Token) (isMutable : Bool) (n : Ident) (ty : Option Ty) (value : Option Expr) (level : Nat) :
    (Stmt.decl k isMutable n ty value).format level =
      (if isMutable then "var " else "val ") ++ n.name ++ typeText ty ++ valueText value := by
  cases ty <;> cases value <;> simp [Stmt.format, typeText, valueText]

omit hE in
theorem word_of_decl {k : Kind} (hk : k ∈ [.kwVar, .kwVal]) : ∃ w, IsSpelling w ∧ Kind.ofWord w = k ∧
    (if k = .kwVar then "var " else "val ") = w ++ " " := by
  simp only [List.mem_cons, List.not_mem_nil, or_false] at hk
  rcases hk with rfl | rfl
  · exact ⟨"var", by decide, by decide, by decide⟩
  · exact ⟨"val", by decide, by decide, by decide⟩

theorem renders_decl {k n : Token} {ty : Option Ty} {value : Option Expr} (hk : k.kind ∈ [.kwVar, .kwVal])
    (hn : IsName n.literal.toText) (hty : ∀ t, ty = some t → ∃ us, IsType us t)
    (hv : ∀ e, value = some e → ∃ us, (∀ t ∈ us, Legible string t) ∧ E us e) :
    RendersStmt (IsStatement E' S') (.decl k (k.kind == .kwVar) (name n) ty value) := by
  obtain ⟨hspelling, hident⟩ := hn
  obtain ⟨w, hw, hkind, htext⟩ := word_of_decl hk
  obtain ⟨hneat, hfree, hwrites⟩ := writes_typePart ty hty
  obtain ⟨hneat', hfree', hwrites'⟩ := writes_valuePart hE hv
  have hline := (((hwrites.append hwrites' hfree').word hspelling (free_append hfree hfree') nofun).keyword hw nofun)
  refine rendersStmt_of_line (w.toList ++ ' ' :: (n.literal.toText.toList ++
    ((typeText ty).toList ++ (valueText value).toList))) (fun level => ?_) (fun d => ?_) (by simp) (hline.mono ?_)
  · simp [format_decl, htext, name, Ident.ofToken, String.toList_append]
  · simp [neat_word hw d, neat_word hspelling d, hneat d, hneat' d, braceStep]
  · rintro _ ⟨k', _, rfl, hk', i, _, rfl, hi, vs, us, rfl, hty', value', hvalue', houtline, hformat⟩
    have hk'' : k'.kind = k.kind := hk'.kind.trans hkind
    refine ⟨_, .decl (hk'' ▸ hk) (hi.kind.trans hident) hty' hvalue', ?_, fun level => ?_, rfl⟩
    · simp [Stmt.outline, hk'', name_of_is hi, houtline]; rfl
    · simp [format_decl, hk'', name_of_is hi, hformat]; rfl

theorem renders_assign {q : Token} {ts vs : List Token} {t : Target} {e : Expr} (hts : ∀ t ∈ ts, Legible string t)
    (ht : IsTarget E ts t) (hvs : ∀ t ∈ vs, Legible string t) (he : E vs e) :
    RendersStmt (IsStatement E' S') (.assign q t e) := by
  obtain ⟨hneat, hwrites⟩ := writes_assignment hE infix_assign hts ht hvs he
  refine rendersStmt_of_line _ (fun level => by simp [Stmt.format, Kind.text]) hneat (by simp [String.toList_append])
    (hwrites.mono ?_)
  rintro _ ⟨vs, q, us, t', e', rfl, hq, ht', he', hsame, halike⟩
  refine ⟨_, .assign ht' hq.kind lineEnds_nil he', ?_, fun level => ?_, rfl⟩
  · simp [Stmt.outline, hsame.1, halike.outline]
  · simp [Stmt.format, hsame.2, halike.format]

theorem renders_compound {q : Token} {ts vs : List Token} {t : Target} {e : Expr} (hts : ∀ t ∈ ts, Legible string t)
    (ht : IsTarget E ts t) (hq : q.kind ∈ [.plusAssign, .minusAssign, .timesAssign, .slashAssign])
    (hlegible : Legible string q) (hvs : ∀ t ∈ vs, Legible string t) (he : E vs e) :
    RendersStmt (IsStatement E' S') (.compound q t q.shown e) := by
  have hkinds : ∀ k ∈ [Kind.plusAssign, .minusAssign, .timesAssign, .slashAssign], Infix k := by decide
  have hlexeme := hlegible.shown (.inl (hkinds _ hq))
  obtain ⟨hneat, hwrites⟩ := writes_assignment hE (hkinds _ hq) hts ht hvs he
  refine rendersStmt_of_line _ (fun level => by rw [hlexeme]; rfl) hneat (by simp [String.toList_append])
    (hwrites.mono ?_)
  rintro _ ⟨vs, q', us, t', e', rfl, hq', ht', he', hsame, halike⟩
  refine ⟨_, .compound ht' (hq'.kind ▸ hq) lineEnds_nil he', ?_, fun level => ?_, rfl⟩
  · simp [Stmt.outline, hq'.shown, hlexeme, hsame.1, halike.outline]
  · simp [Stmt.format, hq'.shown, hlexeme, hsame.2, halike.format]

theorem renders_after {i op : Token} {ts : List Token} {t : Target} (hts : ∀ t ∈ i :: ts, Legible string t)
    (ht : IsTarget E (i :: ts) t) (hop : Step op.kind) (hlegible : Legible string op) :
    RendersStmt (IsStatement E' S') (.selfOp i (.mk (.ofToken op) op.shown false t)) := by
  obtain ⟨hneat, hwrites⟩ := renders_incDec_after hE hts hlegible hop ht
  refine rendersStmt_of_line _ (fun level => rfl) hneat ?_ (hwrites.mono ?_)
  · have hlexeme := hlegible.shown (.inr hop)
    simp only [Step, List.mem_cons, List.not_mem_nil, or_false] at hop
    rcases hop with hop | hop <;> simp [IncDec.format, hlexeme, hop, Kind.text]
  · rintro _ ⟨o, vs, t', rfl, ho, ht', houtline, hformat⟩
    obtain ⟨j, us, rfl⟩ := List.exists_cons_of_ne_nil ht'.ne_nil
    exact ⟨_, .after ht' ho, houtline, fun level => hformat, rfl⟩

theorem renders_before {op : Token} {ts : List Token} {t : Target} (hts : ∀ t ∈ ts, Legible string t)
    (hop : Step op.kind) (hlegible : Legible string op) (ht : IsTarget E ts t) :
    RendersStmt (IsStatement E' S') (.selfOp op (.mk (.ofToken op) op.shown true t)) := by
  obtain ⟨hneat, hwrites⟩ := renders_incDec_before hE hts hlegible hop ht
  refine rendersStmt_of_line _ (fun level => rfl) hneat ?_ (hwrites.mono ?_)
  · have hlexeme := hlegible.shown (.inr hop)
    simp only [Step, List.mem_cons, List.not_mem_nil, or_false] at hop
    rcases hop with hop | hop <;> simp [IncDec.format, hlexeme, hop, Kind.text]
  · rintro _ ⟨o, vs, t', rfl, ho, ht', houtline, hformat⟩
    exact ⟨_, .before ho ht', houtline, fun level => hformat, rfl⟩

theorem renders_callStmt {i : Token} {ts : List Token} {x : Call} (hts : ∀ t ∈ i :: ts, Legible string t)
    (hx : IsCall E (i :: ts) x) : RendersStmt (IsStatement E' S') (.call i x) := by
  obtain ⟨hneat, hwrites⟩ := renders_call hE hts hx
  refine rendersStmt_of_line _ (fun level => rfl) hneat ?_ (hwrites.mono ?_)
  · cases hx
    simp [Call.format]
  · rintro us ⟨x', hx', houtline, hformat⟩
    cases hx' with
    | mk hf ho hes => exact ⟨_, .call (.mk hf ho hes), houtline, fun level => hformat, rfl⟩

omit hE in
theorem word_of_print {k : Kind} (hk : k ∈ [.kwPrint, .kwPrintln]) : ∃ w, IsSpelling w ∧ Kind.ofWord w = k ∧
    (if k = .kwPrintln then "println(" else "print(") = w ++ "(" := by
  simp only [List.mem_cons, List.not_mem_nil, or_false] at hk
  rcases hk with rfl | rfl
  · exact ⟨"print", by decide, by decide, by decide⟩
  · exact ⟨"println", by decide, by decide, by decide⟩

theorem renders_print {k : Token} {ts : List Token} {e : Expr} (hts : ∀ t ∈ ts, Legible string t)
    (hk : k.kind ∈ [.kwPrint, .kwPrintln]) (he : IsCondition E ts e) :
    RendersStmt (IsStatement E' S') (.print k (k.kind == .kwPrintln) (some e)) := by
  obtain ⟨w, hw, hkind, htext⟩ := word_of_print hk
  obtain ⟨hneat, hwrites⟩ := writes_condition hE hts he
  refine rendersStmt_of_line (w.toList ++ '(' :: (e.format.toList ++ [')'])) (fun level => ?_)
    (fun d => ?_) (by simp) ((hwrites.word hw (free_cons rfl (by decide)) nofun).mono ?_)
  · simp [Stmt.format, htext, String.toList_append]
  · simp [neat_word hw d, hneat d, braceStep]
  · rintro _ ⟨k', us, rfl, hk', e', he', halike⟩
    have hk'' : k'.kind = k.kind := hk'.kind.trans hkind
    refine ⟨_, .print (hk'' ▸ hk) he', ?_, fun level => ?_, rfl⟩
    · simp [Stmt.outline, Expr.optOutline, hk'', halike.outline]
    · simp [Stmt.format, hk'', halike.format]

omit hE in
theorem renders_printEmpty {k : Token} : RendersStmt (IsStatement E' S') (.print k true none) := by
  have hw : IsSpelling "println" := by decide
  have hline := ((writes_nil.lone (c := ')') rfl nofun).lone (c := '(') rfl nofun).word hw
    (free_cons rfl (by decide)) nofun
  refine rendersStmt_of_line ("println()".toList) (fun level => by simp [format_printLine])
    (fun d => by simp [braceStep]) (by simp) (hline.mono ?_)
  rintro _ ⟨k', _, rfl, hk', o, _, rfl, ho, c, _, rfl, hc, rfl⟩
  exact ⟨_, .printEmpty hk'.kind ho.kind lineEnds_nil hc.kind, rfl, fun _ => rfl, rfl⟩

omit hE in
/-- A statement that is a reserved word. -/
theorem renders_word {w : String} {s : Stmt} (hw : IsSpelling w) (hformat : ∀ level, s.format level = w)
    (h : ∀ k, k.kind = Kind.ofWord w → ∃ s', S' [k] s' ∧ SameStmt s s') : RendersStmt S' s := by
  refine rendersStmt_of_line _ (fun level => by rw [hformat]) (neat_word hw) ?_
    (((writes_nil.word hw free_nil nofun).mono ?_).of_eq (List.append_nil _).symm)
  · intro hnil
    have hhead := hw.1
    simp [hnil] at hhead
  · rintro _ ⟨k, _, rfl, hk, rfl⟩
    exact h k hk.kind

theorem renders_returnValue {k : Token} {ts : List Token} {e : Expr} (hts : ∀ t ∈ ts, Legible string t) (he : E ts e) :
    RendersStmt (IsStatement E' S') (.ret k (some e)) := by
  have hw : IsSpelling "return" := by decide
  obtain ⟨hneat, hwrites⟩ := hE hts he
  refine rendersStmt_of_line ("return".toList ++ ' ' :: e.format.toList) (fun level => ?_) (fun d => ?_) (by simp)
    ((hwrites.keyword hw fun _ => rfl).mono ?_)
  · simp [Stmt.format, String.toList_append]
  · simp [hneat d, braceStep]
  · rintro _ ⟨k', us, rfl, hk', e', he', halike⟩
    refine ⟨_, .retValue hk'.kind he', ?_, fun level => ?_, rfl⟩
    · simp [Stmt.outline, Expr.optOutline, halike.outline]
    · simp [Stmt.format, halike.format]

end Simple

/-! ## Blocks -/

/-- Blocks of one outline and one text. -/
structure SameBlock (b b' : Block) : Prop where
  outline : b'.outline = b.outline
  format : ∀ level, b'.format level = b.format level

theorem outlines_of_same {ss ss' : List Stmt} (h : List.Forall₂ SameStmt ss ss') :
    Stmt.outlines ss' = Stmt.outlines ss := by
  induction h with
  | nil => rfl
  | cons hs _ ih => simp [Stmt.outlines, hs.outline, ih]

theorem formatLines_of_same {ss ss' : List Stmt} (h : List.Forall₂ SameStmt ss ss') (level : Nat) :
    Stmt.formatLines level ss' = Stmt.formatLines level ss := by
  induction h with
  | nil => rfl
  | cons hs _ ih => simp [Stmt.formatLines, hs.format, ih]

theorem Writes.blanks (h : Writes signed text R) (n : Nat) : Writes signed (List.replicate n ' ' ++ text) R := by
  induction n with
  | zero => exact h
  | succ n ih => exact ih.blank

theorem separators_nil : Separators [] := nofun

theorem separators_newline {t : Token} (ht : t.kind = .newline) : Separators [t] := by
  intro u hu
  rw [List.mem_singleton.mp hu, ht]
  rfl

/-- Statements on lines of their own. -/
theorem writes_lines {ss : List Stmt} (h : ∀ s ∈ ss, RendersStmt S' s) (level : Nat) :
    Writes false (String.join (Stmt.formatLines level ss)).toList fun us =>
      ∃ ss', AreStmts S' us ss' ∧ List.Forall₂ SameStmt ss ss' := by
  induction ss with
  | nil =>
    refine (writes_nil.mono fun us hus => ?_).of_eq (by simp [Stmt.formatLines])
    subst hus
    exact ⟨[], .nil, .nil⟩
  | cons s ss ih =>
    obtain ⟨-, hwrites⟩ := h s List.mem_cons_self level
    have hrest := (ih fun t ht => h t (List.mem_cons_of_mem _ ht)).lone (c := '\n') rfl nofun
    have hall := (hwrites.append hrest (free_cons rfl (by decide))).blanks (4 * level)
    refine (hall.mono ?_).of_eq (by simp [Stmt.formatLines, indentation, String.toList_append, -String.toList_join])
    rintro _ ⟨us, _, rfl, ⟨s', hs', hsame⟩, n, vs, rfl, hn, ss', hss', hsames⟩
    exact ⟨s' :: ss', .more hs' (separators_newline hn.kind) (List.cons_ne_nil _ _) hss', .cons hsame hsames⟩

theorem exists_of_areStmts {S : Reading Stmt} {ts : List Token} {ss : List Stmt} (h : AreStmts S ts ss)
    {s : Stmt} (hs : s ∈ ss) : ∃ us, us.Sublist ts ∧ S us s := by
  induction h with
  | nil => cases hs
  | last h =>
    obtain rfl := List.mem_singleton.mp hs
    exact ⟨_, .refl _, h⟩
  | @more us seps vs _ _ h _ _ _ ih =>
    rcases List.mem_cons.mp hs with rfl | hs
    · exact ⟨us, List.sublist_append_left _ _, h⟩
    · obtain ⟨ws, hws, hs⟩ := ih hs
      exact ⟨ws, (hws.trans (List.sublist_append_right seps vs)).trans (List.sublist_append_right us _), hs⟩

section Nested

variable {S : Reading Stmt} (hS : ∀ us s, (∀ t ∈ us, Legible string t) → S us s → RendersStmt S' s)
include hS

theorem renders_of_areStmts {ts : List Token} {ss : List Stmt} (hts : ∀ t ∈ ts, Legible string t)
    (h : AreStmts S ts ss) : ∀ s ∈ ss, RendersStmt S' s := by
  intro s hs
  obtain ⟨us, hus, hread⟩ := exists_of_areStmts h hs
  exact hS us s (fun t ht => hts t (hus.subset ht)) hread

theorem renders_block {ts : List Token} {b : Block} (hts : ∀ t ∈ ts, Legible string t) (h : IsBlock S ts b)
    (level : Nat) : Ends (b.format level).toList ∧
      Writes false (b.format level).toList fun us => ∃ b', IsBlock S' us b' ∧ SameBlock b b' := by
  cases h with
  | @mk o c seps us ss _ _ hs _ =>
    have hrenders := renders_of_areStmts hS (fun t ht => hts t (by simp [ht])) hs
    cases ss with
    | nil =>
      have hline := (writes_nil.lone (c := '}') rfl nofun).lone (c := '{') rfl nofun
      refine ⟨⟨['{'], '}', by simp [Block.format], by decide⟩, (hline.mono ?_).of_eq (by simp [Block.format])⟩
      rintro _ ⟨o, _, rfl, ho, c, _, rfl, hc, rfl⟩
      exact ⟨.mk o [] c, .mk ho.kind separators_nil .nil hc.kind, rfl, fun _ => rfl⟩
    | cons s ss =>
      have hclose := (writes_nil.lone (c := '}') rfl nofun).blanks (4 * level)
      have hfree : Free (List.replicate (4 * level) ' ' ++ ['}']) := by
        cases 4 * level with
        | zero => exact free_cons rfl (by decide)
        | succ n => exact free_cons rfl (by decide)
      have hlines := (writes_lines hrenders (level + 1)).append hclose hfree
      have htext : (Block.format level (.mk o (s :: ss) c)).toList = '{' :: '\n' ::
          ((String.join (Stmt.formatLines (level + 1) (s :: ss))).toList ++
            (List.replicate (4 * level) ' ' ++ ['}'])) := by
        simp [Block.format, indentation, String.toList_append, -String.toList_join]
      rw [htext]
      refine ⟨⟨_, '}', by simp only [← List.append_assoc, ← List.cons_append]; rfl, by decide⟩,
        ((hlines.lone (c := '\n') rfl nofun).lone (c := '{') rfl nofun).mono ?_⟩
      rintro _ ⟨o', _, rfl, ho, n, _, rfl, hn, us, _, rfl, ⟨ss', hss', hsame⟩, c', _, rfl, hc, rfl⟩
      obtain ⟨s', rest, -, -, rfl⟩ := List.forall₂_cons_left_iff.mp hsame
      refine ⟨.mk o' (s' :: rest) c', .mk ho.kind (separators_newline hn.kind) hss' hc.kind, ?_, fun level => ?_⟩
      · simp [Block.outline, outlines_of_same hsame]
      · simp [Block.format, formatLines_of_same hsame]

/-! ## What comes after the first branch -/

omit hS in
/-- Exactly the statements that start with `if` are such, and it is their token. -/
def Heads (S : Reading Stmt) : Prop := ∀ us s, S us s → ∃ i ts, us = i :: ts ∧
  (i.kind = .kwIf ↔ isIf s = true) ∧ (isIf s = true → s.tok = i)

/-- What is written after the first branch of an `if`. -/
def elseText (level : Nat) : Option Block → String
  | none => ""
  | some b => " else " ++ (if b.isChained then b.formatChained level else b.format level)

/-- What comes after a first branch, of one outline and one text. -/
structure SameElse (b b' : Option Block) : Prop where
  outline : b'.map Block.outline = b.map Block.outline
  format : ∀ level, elseText level b' = elseText level b

omit hS in
theorem isChained_of_isBlock (hheads : Heads S) {ts : List Token} {b : Block} (h : IsBlock S ts b) :
    b.isChained = false := by
  cases h with
  | @mk o c seps us ss ho _ hs _ =>
    unfold Block.isChained
    split
    · rename_i tok nested cond a b' close heq
      cases heq
      obtain ⟨vs, -, hread⟩ := exists_of_areStmts hs List.mem_cons_self
      obtain ⟨i, ts, rfl, hkind, htok⟩ := hheads vs _ hread
      have hif : i.kind = .kwIf := hkind.mpr rfl
      rw [beq_eq_false_iff_ne]
      rintro rfl
      rw [← htok rfl] at hif
      simp [Stmt.tok, ho] at hif
    · rfl

omit hS in
theorem isChained_of_isIf {s : Stmt} (h : isIf s = true) (close : Token) :
    (Block.mk s.tok [s] close).isChained = true := by
  cases s with
  | ifElse => simp [Block.isChained, Stmt.tok]
  | _ => cases h

omit hS in
theorem formatChained_singleton (tok close : Token) (s : Stmt) (level : Nat) :
    (Block.mk tok [s] close).formatChained level = s.format level := by
  simp [Block.formatChained, Stmt.formatChain]

theorem writes_elsePart (hheads : Heads S) (hheads' : Heads S') {ts : List Token} {b : Option Block}
    (hts : ∀ t ∈ ts, Legible string t) (h : IsElsePart S ts b) (level : Nat) :
    (b = none ∨ Ends (elseText level b).toList) ∧ Free (elseText level b).toList ∧
      Writes false (elseText level b).toList fun us => ∃ b', IsElsePart S' us b' ∧ SameElse b b' := by
  have hspelling : IsSpelling "else" := by decide
  cases h with
  | none => exact ⟨.inl rfl, free_nil, writes_nil.mono fun us hus => ⟨none, hus ▸ .none, rfl, fun _ => rfl⟩⟩
  | @block e g g' bs b _ _ _ hb =>
    obtain ⟨hends, hwrites⟩ := renders_block hS (fun t ht => hts t (by simp [ht])) hb level
    have htext : (elseText level (some b)).toList = ' ' :: ("else".toList ++ ' ' :: (b.format level).toList) := by
      simp [elseText, isChained_of_isBlock hheads hb, String.toList_append]
    rw [htext]
    refine ⟨.inr (hends.append (' ' :: ("else".toList ++ [' ']))), free_cons rfl (by decide),
      (hwrites.keyword hspelling nofun).blank.mono ?_⟩
    rintro _ ⟨e', us, rfl, he, b', hb', hsame⟩
    refine ⟨some b', .block (g := []) lineEnds_nil he.kind lineEnds_nil hb', ?_, fun level => ?_⟩
    · simp [hsame.outline]
    · simp [elseText, isChained_of_isBlock hheads hb, isChained_of_isBlock hheads' hb', hsame.format]
  | @chained e i g g' us s _ _ _ hi hs =>
    obtain ⟨hends, hwrites⟩ := hS _ _ (fun t ht => hts t (List.mem_append_right _ (List.mem_cons_of_mem _
      (List.mem_append_right _ ht)))) hs level
    obtain ⟨i', us', heq, hkind, -⟩ := hheads _ _ hs
    cases heq
    have hif : isIf s = true := hkind.mp hi
    have htext : (elseText level (some (.mk s.tok [s] s.tok))).toList =
        ' ' :: ("else".toList ++ ' ' :: (s.format level).toList) := by
      simp [elseText, isChained_of_isIf hif, formatChained_singleton, String.toList_append]
    rw [htext]
    refine ⟨.inr (hends.append (' ' :: ("else".toList ++ [' ']))), free_cons rfl (by decide),
      (hwrites.keyword hspelling nofun).blank.mono ?_⟩
    rintro _ ⟨e', us, rfl, he, s', hs', hsame⟩
    have hif' : isIf s' = true := hsame.isIf.trans hif
    obtain ⟨j, vs, rfl, hkind', -⟩ := hheads' _ _ hs'
    refine ⟨_, .chained (g := []) lineEnds_nil he.kind lineEnds_nil (hkind'.mpr hif') hs', ?_, fun level => ?_⟩
    · simp [Block.outline, Stmt.outlines, hsame.outline]
    · simp [elseText, isChained_of_isIf hif, isChained_of_isIf hif', formatChained_singleton, hsame.format]

end Nested

/-! ## Statements that hold others -/

theorem format_ifElse (k : Token) (c : Expr) (a : Block) (b : Option Block) (level : Nat) :
    (Stmt.ifElse k c a b).format level = "if (" ++ c.format ++ ") " ++ a.format level ++ elseText level b := by
  cases b <;> simp [Stmt.format, elseText, String.append_assoc]

theorem outline_ifElse (k : Token) (c : Expr) (a : Block) (b : Option Block) :
    (Stmt.ifElse k c a b).outline = outlineNode "if" (c.outline :: a.outline :: (b.map Block.outline).toList) := by
  cases b <;> simp [Stmt.outline]

section Holding

variable (hE : Keeps true (Legible string) E E') {S : Reading Stmt}
  (hS : ∀ us s, (∀ t ∈ us, Legible string t) → S us s → RendersStmt S' s)
include hE hS

theorem renders_ifElse (hheads : Heads S) (hheads' : Heads S') {k : Token} {cs as bs : List Token} {cond : Expr}
    {a : Block} {b : Option Block} (hcs : ∀ t ∈ cs, Legible string t) (hcond : IsCondition E cs cond)
    (has : ∀ t ∈ as, Legible string t) (ha : IsBlock S as a) (hbs : ∀ t ∈ bs, Legible string t)
    (hb : IsElsePart S bs b) : RendersStmt (IsStatement E' S') (.ifElse k cond a b) := by
  intro level
  have hspelling : IsSpelling "if" := by decide
  obtain ⟨-, hwrites⟩ := writes_condition hE hcs hcond
  obtain ⟨hends, hblock⟩ := renders_block hS has ha level
  obtain ⟨hends', hfree, helse⟩ := writes_elsePart hS hheads hheads' hbs hb level
  have hall := (hwrites.append (hblock.append helse hfree).blank (free_cons rfl (by decide))).keyword hspelling nofun
  have htext : ((Stmt.ifElse k cond a b).format level).toList = "if".toList ++ ' ' ::
      ('(' :: (cond.format.toList ++ [')']) ++ ' ' :: ((a.format level).toList ++ (elseText level b).toList)) := by
    simp [format_ifElse, String.toList_append]
  rw [htext]
  refine ⟨?_, hall.mono ?_⟩
  · have htail : Ends ((a.format level).toList ++ (elseText level b).toList) := by
      rcases hends' with rfl | hends'
      · simpa [elseText] using hends
      · exact hends'.append _
    exact ((htail.append [' ']).append ('(' :: (cond.format.toList ++ [')']))).append ("if".toList ++ [' '])
  · rintro _ ⟨k', _, rfl, hk', vs, _, rfl, ⟨cond', hcond', halike⟩, ws, us, rfl, ⟨a', ha', hsame⟩, b', hb', hsame'⟩
    refine ⟨_, .ifElse hk'.kind hcond' lineEnds_nil ha' hb', ?_, fun level => ?_, rfl⟩
    · simp [outline_ifElse, halike.outline, hsame.outline, hsame'.outline]
    · simp [format_ifElse, halike.format, hsame.format, hsame'.format]

theorem renders_whileLoop {k : Token} {cs bs : List Token} {cond : Expr} {b : Block}
    (hcs : ∀ t ∈ cs, Legible string t) (hcond : IsCondition E cs cond) (hbs : ∀ t ∈ bs, Legible string t)
    (hb : IsBlock S bs b) : RendersStmt (IsStatement E' S') (.whileLoop k cond b) := by
  intro level
  have hspelling : IsSpelling "while" := by decide
  obtain ⟨-, hwrites⟩ := writes_condition hE hcs hcond
  obtain ⟨hends, hblock⟩ := renders_block hS hbs hb level
  have hall := (hwrites.append hblock.blank (free_cons rfl (by decide))).keyword hspelling nofun
  have htext : ((Stmt.whileLoop k cond b).format level).toList = "while".toList ++ ' ' ::
      ('(' :: (cond.format.toList ++ [')']) ++ ' ' :: (b.format level).toList) := by
    simp [Stmt.format, String.toList_append]
  rw [htext]
  refine ⟨((hends.append [' ']).append ('(' :: (cond.format.toList ++ [')']))).append ("while".toList ++ [' ']),
    hall.mono ?_⟩
  rintro _ ⟨k', _, rfl, hk', vs, us, rfl, ⟨cond', hcond', halike⟩, b', hb', hsame⟩
  refine ⟨_, .whileLoop hk'.kind hcond' lineEnds_nil hb', ?_, fun level => ?_, rfl⟩
  · simp [Stmt.outline, halike.outline, hsame.outline]
  · simp [Stmt.format, halike.format, hsame.format]

theorem renders_forLoop {k x : Token} {hs bs : List Token} {h : Header} {b : Block}
    (hx : IsName x.literal.toText) (hhs : ∀ t ∈ hs, Legible string t) (hh : IsHeader E hs h)
    (hbs : ∀ t ∈ bs, Legible string t) (hb : IsBlock S bs b) :
    RendersStmt (IsStatement E' S') (.forLoop k (name x) h b) := by
  intro level
  obtain ⟨hname, hident⟩ := hx
  have hfor : IsSpelling "for" := by decide
  have hin : IsSpelling "in" := by decide
  obtain ⟨hends, hblock⟩ := renders_block hS hbs hb level
  have hheader := (writes_header hE hhs hh).append (hblock.spaced (c := ')') rfl nofun) (free_cons rfl (by decide))
  have hall := (((hheader.keyword hin fun _ => rfl).blank.word hname (free_cons rfl (by decide)) nofun).lone
    (c := '(') rfl nofun).keyword hfor nofun
  have htext : ((Stmt.forLoop k (name x) h b).format level).toList = "for".toList ++ ' ' :: '(' ::
      (x.literal.toText.toList ++ ' ' :: ("in".toList ++ ' ' :: (h.format.toList ++ ')' :: ' ' ::
        (b.format level).toList))) := by
    simp [Stmt.format, name, Ident.ofToken, String.toList_append]
  rw [htext]
  refine ⟨(((((hends.append [')', ' ']).append h.format.toList).append ("in".toList ++ [' '])).append
    (x.literal.toText.toList ++ [' '])).append ("for".toList ++ [' ', '('])) |> fun h => by simpa using h, hall.mono ?_⟩
  rintro _ ⟨k', _, rfl, hk', o, _, rfl, ho, x', _, rfl, hx', i, _, rfl, hi, vs, _, rfl, ⟨h', hh', hsame⟩,
    c, us, rfl, hc, b', hb', hsame'⟩
  refine ⟨_, .forLoop hk'.kind ho.kind (hx'.kind.trans hident) hi.kind hh' hc.kind lineEnds_nil hb', ?_,
    fun level => ?_, rfl⟩
  · simp [Stmt.outline, name_of_is hx', hsame.1, hsame'.outline]
    rfl
  · simp [Stmt.format, name_of_is hx', hsame.2, hsame'.format]
    rfl

omit hE hS in
theorem format_function (k : Token) (n : Ident) (ps : List Param) (r : Ty) (b : Block) (level : Nat) :
    (Stmt.function (.mk k n ps r b)).format level = "fun " ++ n.name ++ "(" ++ formatParams ps ++ ")" ++
      typeText (if r = .unit then none else some r) ++ " " ++ b.format level := by
  rw [Stmt.format, FunDecl.format]
  split <;> simp [typeText, String.append_assoc]

omit hE in
theorem renders_function {k n : Token} {ps bs : List Token} {params : List Param} {r : Ty} {b : Block}
    (hn : IsName n.literal.toText) (hps : ∀ t ∈ ps, Legible string t) (hparams : AreParams ps params)
    (hdistinct : (params.map fun p => p.name.name).Nodup) (hr : r ≠ .unit → ∃ us, IsType us r)
    (hbs : ∀ t ∈ bs, Legible string t) (hb : IsBlock S bs b) :
    RendersStmt (IsStatement E' S') (.function (.mk k (name n) params r b)) := by
  intro level
  obtain ⟨hname, hident⟩ := hn
  have hfun : IsSpelling "fun" := by decide
  obtain ⟨hends, hblock⟩ := renders_block hS hbs hb level
  obtain ⟨-, hfree, htype⟩ := writes_typePart (if r = .unit then none else some r) fun t ht => by
    split at ht
    · cases ht
    · cases ht
      exact hr ‹_›
  have htail := (htype.append hblock.blank (free_cons rfl (by decide))).lone (c := ')') rfl nofun
  have hall := ((((writes_params hps hparams).append htail (free_cons rfl (by decide))).lone (c := '(') rfl
    nofun).word hname (free_cons rfl (by decide)) nofun).keyword hfun nofun
  have htext : ((Stmt.function (.mk k (name n) params r b)).format level).toList = "fun".toList ++ ' ' ::
      (n.literal.toText.toList ++ '(' :: ((formatParams params).toList ++ ')' ::
        ((typeText (if r = .unit then none else some r)).toList ++ ' ' :: (b.format level).toList))) := by
    simp [format_function, name, Ident.ofToken, String.toList_append]
  rw [htext]
  refine ⟨?_, hall.mono ?_⟩
  · have hclose := (hends.append [' ']).append (')' :: (typeText (if r = .unit then none else some r)).toList)
    have hopen := (hclose.append (formatParams params).toList).append (n.literal.toText.toList ++ ['('])
    simpa using hopen.append ("fun".toList ++ [' '])
  · rintro _ ⟨k', _, rfl, hk', n', _, rfl, hn', o, _, rfl, ho, vs, _, rfl, ⟨params', hparams', hsame⟩,
      c, _, rfl, hc, ts, us, rfl, hty, b', hb', hsame'⟩
    have hnames := map_eq_of_forall₂ (f := fun p : Param => p.name.name) hsame fun _ _ h => h.1
    have hresult : (if r = .unit then none else some r : Option Ty).getD .unit = r := by
      split
      · exact Eq.symm ‹_›
      · rfl
    have hread : IsStatement E' S' _ _ := .function hk'.kind (hn'.kind.trans hident) ho.kind lineEnds_nil hparams'
      (hnames ▸ hdistinct) hc.kind hty lineEnds_nil hb'
    rw [hresult] at hread
    refine ⟨_, hread, ?_, fun level => ?_, rfl⟩
    · simp [Stmt.outline, FunDecl.outline, outlineParams, name_of_is hn', hsame'.outline,
        map_eq_of_forall₂ hsame fun _ _ h => h.outline]
      rfl
    · simp [format_function, formatParams, name_of_is hn', hsame'.format,
        map_eq_of_forall₂ hsame fun _ _ h => h.format]
      rfl

/-- A statement can be written again if those inside it can. -/
theorem renders_statement (hheads : Heads S) (hheads' : Heads S') {ts : List Token} {s : Stmt}
    (hts : ∀ t ∈ ts, Legible string t) (h : IsStatement E S ts s) : RendersStmt (IsStatement E' S') s := by
  cases h with
  | @decl k n us vs ty value hk hn hty hv =>
    refine renders_decl hE hk ((hts n (by simp)).name hn) (fun t ht => ?_) fun e he => ?_
    · cases hty with
      | none => cases ht
      | some _ hty =>
        cases ht
        exact ⟨_, hty⟩
    · cases hv with
      | none => cases he
      | some _ _ hv =>
        cases he
        exact ⟨_, fun t ht => hts t (by simp [ht]), hv⟩
  | @splitDecl k n c q us g vs ty value hk hn _ _ hty _ hv =>
    refine renders_decl hE hk ((hts n (by simp)).name hn) (fun t ht => ?_) fun e he => ?_
    · cases ht
      exact ⟨_, hty⟩
    · cases he
      exact ⟨_, fun t ht => hts t (by simp [ht]), hv⟩
  | assign ht _ _ hv =>
    exact renders_assign hE (fun t ht => hts t (by simp [ht])) ht (fun t ht => hts t (by simp [ht])) hv
  | compound ht hq _ hv =>
    exact renders_compound hE (fun t ht => hts t (by simp [ht])) ht hq (hts _ (by simp))
      (fun t ht => hts t (by simp [ht])) hv
  | after ht hop => exact renders_after hE (fun t ht => hts t (List.mem_append_left _ ht)) ht hop (hts _ (by simp))
  | before hop ht => exact renders_before hE (fun t ht => hts t (by simp [ht])) hop (hts _ (by simp)) ht
  | call hc => exact renders_callStmt hE hts hc
  | print hk he => exact renders_print hE (fun t ht => hts t (by simp [ht])) hk he
  | printEmpty _ _ _ _ => exact renders_printEmpty
  | ret _ =>
    have hw : IsSpelling "return" := by decide
    exact renders_word hw (fun _ => rfl) fun k hk => ⟨.ret k none, .ret hk, rfl, fun _ => rfl, rfl⟩
  | retValue _ he => exact renders_returnValue hE (fun t ht => hts t (by simp [ht])) he
  | brk _ =>
    have hw : IsSpelling "break" := by decide
    exact renders_word hw (fun _ => rfl) fun k hk => ⟨.brk k, .brk hk, rfl, fun _ => rfl, rfl⟩
  | cont _ =>
    have hw : IsSpelling "continue" := by decide
    exact renders_word hw (fun _ => rfl) fun k hk => ⟨.cont k, .cont hk, rfl, fun _ => rfl, rfl⟩
  | block hb =>
    intro level
    obtain ⟨hends, hwrites⟩ := renders_block hS hts hb level
    refine ⟨hends, hwrites.mono ?_⟩
    rintro us ⟨b', hb', hsame⟩
    exact ⟨.block b', .block hb', hsame.outline, hsame.format, rfl⟩
  | ifElse _ hcond _ ha hb =>
    exact renders_ifElse hE hS hheads hheads' (fun t ht => hts t (by simp [ht])) hcond
      (fun t ht => hts t (by simp [ht])) ha (fun t ht => hts t (by simp [ht])) hb
  | whileLoop _ hcond _ hb =>
    exact renders_whileLoop hE hS (fun t ht => hts t (by simp [ht])) hcond (fun t ht => hts t (by simp [ht])) hb
  | @forLoop k o x i c hs g bs y b _ _ hx _ hh _ _ hb =>
    exact renders_forLoop hE hS ((hts x (by simp)).name hx) (fun t ht => hts t (by simp [ht])) hh
      (fun t ht => hts t (by simp [ht])) hb
  | @function k n o c g ps us g' bs params result b _ hn _ _ hps hdistinct _ hr _ hb =>
    refine renders_function hS ((hts n (by simp)).name hn) (fun t ht => hts t (by simp [ht])) hps hdistinct
      (fun hne => ?_) (fun t ht => hts t (by simp [ht])) hb
    cases hr with
    | none => exact absurd rfl hne
    | some _ hty => exact ⟨_, hty⟩

end Holding

/-! ## All statements -/

/-- Exactly what starts with `if` is an `if`. -/
theorem heads_isStatement {S : Reading Stmt} : Heads (IsStatement E S) := by
  intro us s h
  have hother (hstart : Parse.StartsWith (· ≠ .kwIf) us) (hs : isIf s = false) :
      ∃ i ts, us = i :: ts ∧ (i.kind = .kwIf ↔ isIf s = true) ∧ (isIf s = true → s.tok = i) := by
    obtain ⟨i, ts, rfl, hi⟩ := hstart
    exact ⟨i, ts, rfl, by simp [hi, hs], by simp [hs]⟩
  have htarget {vs : List Token} {t : Target} (ht : IsTarget E vs t) : Parse.StartsWith (· ≠ .kwIf) vs :=
    (Parse.startsWith_of_isTarget ht).mono fun k hk => by rw [hk]; decide
  have hkinds {i : Token} {ts : List Token} {kinds : List Kind} (hi : i.kind ∈ kinds) (hno : .kwIf ∉ kinds) :
      Parse.StartsWith (· ≠ .kwIf) (i :: ts) := Parse.startsWith_cons fun heq => hno (heq ▸ hi)
  have hkind {i : Token} {ts : List Token} {k : Kind} (hi : i.kind = k) (hk : k ≠ .kwIf) :
      Parse.StartsWith (· ≠ .kwIf) (i :: ts) := Parse.startsWith_cons fun heq => hk (hi ▸ heq)
  cases h with
  | decl hk _ _ _ => exact hother (hkinds hk (by decide)) rfl
  | splitDecl hk _ _ _ _ _ _ => exact hother (hkinds hk (by decide)) rfl
  | assign ht _ _ _ => exact hother ((htarget ht).append _) rfl
  | compound ht _ _ _ => exact hother ((htarget ht).append _) rfl
  | after ht _ => exact hother ((htarget ht).append _) rfl
  | before hop _ => exact hother (hkinds hop (by decide)) rfl
  | call hc =>
    cases hc with
    | mk hf _ _ => exact hother (hkind hf (by decide)) rfl
  | print hk _ => exact hother (hkinds hk (by decide)) rfl
  | printEmpty hk _ _ _ => exact hother (hkind hk (by decide)) rfl
  | ret hk => exact hother (hkind hk (by decide)) rfl
  | retValue hk _ => exact hother (hkind hk (by decide)) rfl
  | brk hk => exact hother (hkind hk (by decide)) rfl
  | cont hk => exact hother (hkind hk (by decide)) rfl
  | block hb =>
    cases hb with
    | mk ho _ _ _ => exact hother (hkind ho (by decide)) rfl
  | ifElse hk _ _ _ _ => exact ⟨_, _, rfl, by simp [hk, isIf], fun _ => rfl⟩
  | whileLoop hk _ _ _ => exact hother (hkind hk (by decide)) rfl
  | forLoop hk _ _ _ _ _ _ _ => exact hother (hkind hk (by decide)) rfl
  | function hk _ _ _ _ _ _ _ _ _ => exact hother (hkind hk (by decide)) rfl

theorem heads_isStmt (n : Nat) : Heads (IsStmt E n) := by
  cases n with
  | zero => exact fun _ _ h => False.elim h
  | succ n => exact heads_isStatement

theorem renders_stmt (hE : Keeps true (Legible string) E E') (n : Nat) :
    ∀ us s, (∀ t ∈ us, Legible string t) → IsStmt E n us s → RendersStmt (IsStmt E' n) s := by
  induction n with
  | zero => exact fun _ _ _ h => False.elim h
  | succ n ih => exact fun us s hus h => renders_statement hE ih (heads_isStmt n) (heads_isStmt n) hus h

end Written
end Kotlet

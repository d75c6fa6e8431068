import Kotlet.Proofs.Parse.Complete
import Kotlet.Proofs.Syntax.Written

/-!
# Written expressions

The text of an expression that was read is read as an expression like it, in the tier of its own
operator and with no more expressions inside each other than before.

* `Alike`, `SameText` : trees that differ in their tokens only, as far as their texts show it;
* `Legible` : the tokens that names, operators and strings can be written again from;
* `renders_target` .. `renders_primary` : what stands between operators, one lemma for each form;
* `rank`, `tier` : the tier that an operator belongs to, and the rule for that tier;
* `Fits`, `Holds` : expressions that can be written in their own tier, and below an operator;
* `keeps_expr` : all expressions.
-/

namespace Kotlet
namespace Written

open Token (Kind Scans Free IsSpelling fixedChar? fixedPair? free_cons free_nil)
open Grammar

/-! ## Likeness -/

/-- Expressions of one outline, one text and one operator. -/
structure Alike (e e' : Expr) : Prop where
  outline : e'.outline = e.outline
  format : e'.format = e.format
  operator : e'.binaryOperator? = e.binaryOperator?

/-- Trees of one outline and one text. -/
def SameText {α : Type} (outline format : α → String) (a b : α) : Prop :=
  outline b = outline a ∧ format b = format a

theorem outlines_eq_map (es : List Expr) : Expr.outlines es = es.map Expr.outline := by
  induction es with
  | nil => rfl
  | cons e es ih => rw [Expr.outlines, ih, List.map_cons]

theorem formats_eq_map (es : List Expr) : Expr.formats es = es.map Expr.format := by
  induction es with
  | nil => rfl
  | cons e es ih => rw [Expr.formats, ih, List.map_cons]

/-- The binary operators, and those of assignments. -/
def Infix (k : Kind) : Prop :=
  k ∈ [.plus, .minus, .times, .slash, .percent, .eq, .notEq, .lt, .gt, .le, .ge, .and, .or, .assign,
    .plusAssign, .minusAssign, .timesAssign, .slashAssign]

instance : DecidablePred Infix := fun k => by unfold Infix; infer_instance

/-- `++` and `--`. -/
def Step (k : Kind) : Prop := k ∈ [.increment, .decrement]

/-- What can be written again of the tokens that trees are made of. -/
structure Legible (string : Token → Prop) (t : Token) : Prop where
  name : t.kind = .ident → IsName t.literal.toText
  shown : Infix t.kind ∨ Step t.kind → t.shown = t.kind.text
  string : t.kind = .string → string t

variable {strings signed : Bool} {text : List Char} {R : List Token → Prop} {k : Kind}

theorem writes_operator (h : Writes signed text R) (hk : Infix k) :
    Writes false (k.text.toList ++ ' ' :: text) (First k k.text R) := by
  simp only [Infix, List.mem_cons, List.not_mem_nil, or_false] at hk
  rcases hk with rfl | rfl | rfl | rfl | rfl | rfl | rfl | rfl | rfl | rfl | rfl | rfl | rfl | rfl | rfl | rfl |
    rfl | rfl
  -- In the order of the kinds, by whether they are spelled with one character or with two.
  iterate 5 exact h.spaced rfl fun _ => rfl
  iterate 2 exact h.blank.pair rfl fun _ => rfl
  iterate 2 exact h.spaced rfl fun _ => rfl
  iterate 4 exact h.blank.pair rfl fun _ => rfl
  · exact h.spaced rfl fun _ => rfl
  iterate 4 exact h.blank.pair rfl fun _ => rfl

theorem writes_step (h : Writes false text R) (hk : Step k) :
    Writes false (k.text.toList ++ text) (First k k.text R) := by
  simp only [Step, List.mem_cons, List.not_mem_nil, or_false] at hk
  rcases hk with rfl | rfl <;> exact h.pair rfl nofun

theorem neat_step (hk : Step k) : Neat strings k.text.toList := by
  intro d
  simp only [Step, List.mem_cons, List.not_mem_nil, or_false] at hk
  rcases hk with rfl | rfl <;> simp [Kind.text, braceStep]

theorem neat_operator (hk : Infix k) : Neat strings k.text.toList := by
  intro d
  simp only [Infix, List.mem_cons, List.not_mem_nil, or_false] at hk
  rcases hk with rfl | rfl | rfl | rfl | rfl | rfl | rfl | rfl | rfl | rfl | rfl | rfl | rfl | rfl | rfl | rfl |
    rfl | rfl <;> simp [Kind.text, braceStep]

theorem free_step (hk : Step k) : Free k.text.toList := by
  simp only [Step, List.mem_cons, List.not_mem_nil, or_false] at hk
  rcases hk with rfl | rfl <;> exact free_cons rfl (by decide)

/-! ## What stands between operators -/

/-- Expressions that the one rule reads from good tokens are read by the other when they are written. -/
def Keeps (strings : Bool) (good : Token → Prop) (E E' : Reading Expr) : Prop :=
  ∀ ⦃ts e⦄, (∀ t ∈ ts, good t) → E ts e → Renders strings true Expr.format Alike E' e

section Primary

variable {string : Token → Prop} {E E' : Reading Expr} (hE : Keeps strings (Legible string) E E')
include hE

omit hE in
theorem name_of_is {w : String} {t : Token} (h : Is (Kind.ofWord w) w t) : (Grammar.name t).name = w := by
  simp [Grammar.name, Ident.ofToken, h.literal, Token.Literal.toText]

theorem renders_target {ts : List Token} {t : Target} (hts : ∀ u ∈ ts, Legible string u)
    (h : IsTarget E ts t) :
    Renders strings false Target.format (SameText Target.outline Target.format) (IsTarget E') t := by
  cases h with
  | @name i hi =>
    obtain ⟨hspelling, hkind⟩ := (hts i (by simp)).name hi
    refine ⟨neat_word hspelling, ((writes_nil.word hspelling free_nil nofun).mono ?_).of_eq
      (List.append_nil _).symm⟩
    rintro _ ⟨u, _, rfl, hu, rfl⟩
    exact ⟨_, .name (hu.kind.trans hkind), name_of_is hu, name_of_is hu⟩
  | @element i b c g us g' e hi _ _ he _ _ =>
    obtain ⟨hspelling, hkind⟩ := (hts i (by simp)).name hi
    obtain ⟨hneat, hwrites⟩ := hE (fun t ht => hts t (by simp [ht])) he
    have hindex := (hwrites.append (writes_nil.lone (c := ']') rfl nofun) (free_cons rfl (by decide))).lone
      (c := '[') rfl fun _ => rfl
    refine ⟨fun d => ?_, ((hindex.word hspelling (free_cons rfl (by decide)) nofun).mono ?_).of_eq
      (by simp [Target.format, String.toList_append]; rfl)⟩
    · have hword : Neat strings _ := neat_word hspelling
      simp [Target.format, String.toList_append, Grammar.name, Ident.ofToken, hword d, hneat d, braceStep]
    · rintro _ ⟨u, _, rfl, hu, b, _, rfl, hb, us, _, rfl, ⟨e', he', halike⟩, c, _, rfl, hc, rfl⟩
      refine ⟨.element (.ofToken b) (Grammar.name u) e', .element (hu.kind.trans hkind) hb.kind
        lineEnds_nil he' lineEnds_nil hc.kind, ?_, ?_⟩
      · simp [Target.outline, name_of_is hu, halike.outline]; rfl
      · simp [Target.format, name_of_is hu, halike.format]; rfl

/-- Expressions with commas between them that are good one by one. -/
theorem renders_of_separated {ts : List Token} {es : List Expr} (hts : ∀ t ∈ ts, Legible string t)
    (h : Separated LinesCommaLines E ts es) {e : Expr} (he : e ∈ es) :
    Renders strings true Expr.format Alike E' e := by
  obtain ⟨vs, hvs, he⟩ := exists_of_separated h he
  exact hE (fun t ht => hts t (hvs.subset ht)) he

omit hE in
theorem linesCommaLines_singleton {t : Token} (ht : t.kind = .comma) : LinesCommaLines [t] :=
  .mk lineEnds_nil ht lineEnds_nil

theorem writes_elements {ts : List Token} {es : List Expr} (hts : ∀ t ∈ ts, Legible string t)
    (h : Separated LinesCommaLines E ts es) :
    Neat strings ([',', ' '].intercalate (es.map (String.toList ∘ Expr.format))) ∧
      Writes true ([',', ' '].intercalate (es.map (String.toList ∘ Expr.format)) ++ [')']) fun us =>
        ∃ vs t es', us = vs ++ [t] ∧ t.kind = .rparen ∧ Separated LinesCommaLines E' vs es' ∧
          List.Forall₂ Alike es es' := by
  have hne : es ≠ [] := by cases h <;> exact List.cons_ne_nil _ _
  obtain ⟨hneat, hwrites⟩ := writes_separated (fun _ => linesCommaLines_singleton) hne
    fun e => renders_of_separated hE hts h
  refine ⟨hneat, (hwrites.append (writes_nil.lone (c := ')') rfl nofun) (free_cons rfl (by decide))).mono ?_⟩
  rintro _ ⟨vs, _, rfl, ⟨es', hes', halike⟩, t, _, rfl, ht, rfl⟩
  exact ⟨vs, t, es', rfl, ht.kind, hes', halike⟩

theorem writes_arguments {ts : List Token} {es : List Expr} (hts : ∀ t ∈ ts, Legible string t)
    (h : AreArguments E ts es) :
    Neat strings ([',', ' '].intercalate (es.map (String.toList ∘ Expr.format))) ∧
      Writes true ([',', ' '].intercalate (es.map (String.toList ∘ Expr.format)) ++ [')']) fun us =>
        ∃ es', AreArguments E' us es' ∧ List.Forall₂ Alike es es' := by
  cases h with
  | none _ _ =>
    refine ⟨fun d => rfl, ((writes_nil.lone (c := ')') rfl nofun).mono ?_).toSigned⟩
    rintro _ ⟨t, _, rfl, ht, rfl⟩
    exact ⟨[], .none lineEnds_nil ht.kind, .nil⟩
  | some _ hes _ _ =>
    obtain ⟨hneat, hwrites⟩ := writes_elements hE (fun t ht => hts t (by simp [ht])) hes
    refine ⟨hneat, hwrites.mono ?_⟩
    rintro _ ⟨vs, t, es', rfl, ht, hes', halike⟩
    exact ⟨es', .some lineEnds_nil hes' lineEnds_nil ht, halike⟩

theorem renders_call {ts : List Token} {x : Call} (hts : ∀ t ∈ ts, Legible string t) (h : IsCall E ts x) :
    Renders strings false Call.format (SameText Call.outline Call.format) (IsCall E') x := by
  cases h with
  | @mk f o us es hf _ hes =>
    obtain ⟨hspelling, hkind⟩ := (hts f (by simp)).name hf
    obtain ⟨hneat, hwrites⟩ := writes_arguments hE (fun t ht => hts t (by simp [ht])) hes
    refine ⟨fun d => ?_, (((hwrites.lone (c := '(') rfl fun _ => rfl).word hspelling (free_cons rfl (by decide))
      nofun).mono ?_).of_eq (by simp [Call.format, formats_eq_map, String.toList_append]; rfl)⟩
    · have hword : Neat strings _ := neat_word hspelling
      simp [Call.format, formats_eq_map, String.toList_append, Grammar.name, Ident.ofToken, hword d, hneat d, braceStep]
    · rintro _ ⟨f', _, rfl, hf', o, vs, rfl, ho, es', hes', halike⟩
      refine ⟨_, .mk (hf'.kind.trans hkind) ho.kind hes', ?_, ?_⟩
      · simp [Call.outline, name_of_is hf', outlines_eq_map, map_eq_of_forall₂ halike fun _ _ h => h.outline]
        rfl
      · simp [Call.format, name_of_is hf', formats_eq_map, map_eq_of_forall₂ halike fun _ _ h => h.format]
        rfl

omit hE in
theorem isName_of_isParam {ts : List Token} {p : Param} (hts : ∀ t ∈ ts, Legible string t)
    (h : IsParam ts p) : IsName p.name.name := by
  cases h with
  | bare ht => exact (hts _ (by simp)).name ht
  | typed ht _ _ => exact (hts _ (by simp)).name ht

omit hE in
theorem writes_separatedParams {ts : List Token} {ps : List Param} (hts : ∀ t ∈ ts, Legible string t)
    (h : Separated CommaLines IsParam ts ps) :
    Neat strings ([',', ' '].intercalate (ps.map (String.toList ∘ Param.format))) ∧
      Writes false ([',', ' '].intercalate (ps.map (String.toList ∘ Param.format))) fun us =>
        ∃ ps', Separated CommaLines IsParam us ps' ∧ List.Forall₂ SameParam ps ps' := by
  have hne : ps ≠ [] := by cases h <;> exact List.cons_ne_nil _ _
  refine writes_separated (fun _ ht => CommaLines.mk ht lineEnds_nil) hne fun p hp => ?_
  obtain ⟨vs, hvs, hparam⟩ := exists_of_separated h hp
  exact renders_param hparam (isName_of_isParam (fun t ht => hts t (hvs.subset ht)) hparam)

theorem writes_body {ts : List Token} {e : Expr} (hts : ∀ t ∈ ts, Legible string t) (h : IsBody E ts e) :
    Neat strings e.format.toList ∧ Writes true (e.format.toList ++ [' ', '}']) fun us =>
      ∃ e', IsBody E' us e' ∧ Alike e e' := by
  cases h with
  | mk _ he _ _ =>
    obtain ⟨hneat, hwrites⟩ := hE (fun t ht => hts t (by simp [ht])) he
    refine ⟨hneat, (hwrites.append (writes_nil.lone (c := '}') rfl nofun).blank (free_cons rfl (by decide))).mono ?_⟩
    rintro _ ⟨us, _, rfl, ⟨e', he', halike⟩, c, _, rfl, hc, rfl⟩
    exact ⟨e', .mk lineEnds_nil he' lineEnds_nil hc.kind, halike⟩

theorem renders_lambda {ts : List Token} {l : Lambda} (hts : ∀ t ∈ ts, Legible string t) (h : IsLambda E ts l) :
    Renders strings false Lambda.format (SameText Lambda.outline Lambda.format) (IsLambda E') l := by
  cases h with
  | @thunk b a g us e _ _ _ he =>
    obtain ⟨hneat, hwrites⟩ := writes_body hE (fun t ht => hts t (by simp [ht])) he
    have harrow := hwrites.blank.pair (c := '-') (d := '>') rfl fun _ => rfl
    have hinside : Neat strings (' ' :: '-' :: '>' :: ' ' :: (e.format.toList ++ [' '])) := fun d => by
      simp [hneat d, braceStep]
    refine ⟨?_, ((harrow.blank.lone (c := '{') rfl (by simp)).mono ?_).of_eq
      (by simp [Lambda.format, String.toList_append])⟩
    · simpa [Lambda.format, String.toList_append] using hinside.braces
    · rintro _ ⟨b, _, rfl, hb, a, _, rfl, ha, e', he', halike⟩
      refine ⟨_, .thunk hb.kind lineEnds_nil ha.kind he', ?_, ?_⟩
      · simp [Lambda.outline, halike.outline]
      · simp [Lambda.format, halike.format]
  | @mk b a g ps us params e _ _ hps hdistinct _ he =>
    obtain ⟨hneat, hwrites⟩ := writes_body hE (fun t ht => hts t (by simp [ht])) he
    have hne : params ≠ [] := by cases hps <;> exact List.cons_ne_nil _ _
    obtain ⟨hneats, hseparated⟩ : Neat strings _ ∧ _ := writes_separatedParams (fun t ht => hts t (by simp [ht])) hps
    have harrow := hwrites.blank.pair (c := '-') (d := '>') rfl fun _ => rfl
    have hall := (hseparated.append harrow.blank (free_cons rfl (by decide))).blank.lone (c := '{') rfl (by simp)
    have hinside : Neat strings (' ' :: ([',', ' '].intercalate (params.map (String.toList ∘ Param.format)) ++
        ' ' :: '-' :: '>' :: ' ' :: (e.format.toList ++ [' ']))) := fun d => by
      simp [hneats d, hneat d, braceStep]
    refine ⟨?_, (hall.mono ?_).of_eq (by simp [Lambda.format, formatParams, hne, String.toList_append])⟩
    · simpa [Lambda.format, formatParams, hne, String.toList_append] using hinside.braces
    · rintro _ ⟨b, _, rfl, hb, vs, _, rfl, ⟨params', hparams', hsame⟩, a, _, rfl, ha, e', he', halike⟩
      have hnames := map_eq_of_forall₂ (f := fun p : Param => p.name.name) hsame fun _ _ h => h.1
      refine ⟨_, .mk hb.kind lineEnds_nil hparams' (hnames ▸ hdistinct) ha.kind he', ?_, ?_⟩
      · simp [Lambda.outline, outlineParams, halike.outline, map_eq_of_forall₂ hsame fun _ _ h => h.outline]
      · have hne' : params' ≠ [] := by rintro rfl; exact hne (List.forall₂_nil_right_iff.mp hsame)
        simp [Lambda.format, formatParams, hne, hne', halike.format,
          map_eq_of_forall₂ hsame fun _ _ h => h.format]

theorem renders_incDec_before {op : Token} {ts : List Token} {t : Target} (hts : ∀ u ∈ ts, Legible string u)
    (hop : Legible string op) (hstep : Step op.kind) (h : IsTarget E ts t) :
    Neat strings (IncDec.mk (.ofToken op) op.shown true t).format.toList ∧
      Writes false (IncDec.mk (.ofToken op) op.shown true t).format.toList fun us =>
        ∃ o vs t', us = o :: vs ∧ Step o.kind ∧ IsTarget E' vs t' ∧ SameText IncDec.outline IncDec.format
          (.mk (.ofToken op) op.shown true t) (.mk (.ofToken o) o.shown true t') := by
  have hlexeme := hop.shown (.inr hstep)
  obtain ⟨hneat, hwrites⟩ := renders_target hE hts h
  refine ⟨fun d => ?_, ((writes_step hwrites hstep).mono ?_).of_eq
    (by simp [IncDec.format, hlexeme, String.toList_append])⟩
  · simp [IncDec.format, hlexeme, String.toList_append, neat_step hstep d, hneat d]
  · rintro _ ⟨o, vs, rfl, ho, t', ht', hsame⟩
    refine ⟨o, vs, t', rfl, ho.kind ▸ hstep, ht', ?_, ?_⟩
    · simp [IncDec.outline, ho.shown, hlexeme, hsame.1]
    · simp [IncDec.format, ho.shown, hlexeme, hsame.2]

theorem renders_incDec_after {op : Token} {ts : List Token} {t : Target} (hts : ∀ u ∈ ts, Legible string u)
    (hop : Legible string op) (hstep : Step op.kind) (h : IsTarget E ts t) :
    Neat strings (IncDec.mk (.ofToken op) op.shown false t).format.toList ∧
      Writes false (IncDec.mk (.ofToken op) op.shown false t).format.toList fun us =>
        ∃ o vs t', us = vs ++ [o] ∧ Step o.kind ∧ IsTarget E' vs t' ∧ SameText IncDec.outline IncDec.format
          (.mk (.ofToken op) op.shown false t) (.mk (.ofToken o) o.shown false t') := by
  have hlexeme := hop.shown (.inr hstep)
  obtain ⟨hneat, hwrites⟩ := renders_target hE hts h
  refine ⟨fun d => ?_, ((hwrites.append (writes_step writes_nil hstep) ?_).mono ?_).of_eq
    (by simp [IncDec.format, hlexeme, String.toList_append])⟩
  · simp [IncDec.format, hlexeme, String.toList_append, neat_step hstep d, hneat d]
  · rw [List.append_nil]
    exact free_step hstep
  · rintro _ ⟨vs, _, rfl, ⟨t', ht', hsame⟩, o, _, rfl, ho, rfl⟩
    refine ⟨o, vs, t', rfl, ho.kind ▸ hstep, ht', ?_, ?_⟩
    · simp [IncDec.outline, ho.shown, hlexeme, hsame.1]
    · simp [IncDec.format, ho.shown, hlexeme, hsame.2]

omit hE in
theorem literalName_of_literalOf? {kind : CollectionKind} {k : Kind} (hk : literalOf? k = some kind) :
    IsSpelling kind.literalName ∧ literalOf? (Kind.ofWord kind.literalName) = some kind := by
  cases kind <;> exact ⟨by decide, by decide⟩

omit hE in
theorem name_of_sizedOf? (kind : CollectionKind) :
    IsSpelling kind.name ∧ sizedOf? (Kind.ofWord kind.name) = some kind := by
  cases kind <;> exact ⟨by decide, by decide⟩

variable {lit lit' : Token → Expr → Prop}

/-- What string tokens stand for can be written again. -/
def KeepsStrings (strings : Bool) (string : Token → Prop) (lit lit' : Token → Expr → Prop) : Prop :=
  ∀ t e, t.kind = .string → string t → lit t e → e.binaryOperator? = none ∧
    Renders strings true Expr.format Alike (fun us e' => ∃ t', us = [t'] ∧ t'.kind = .string ∧ lit' t' e') e

omit hE in
theorem Renders.of_sameText {α : Type} {outline format : α → String} {R' : Reading α} {x : α} (make : α → Expr)
    (h : Renders strings false format (SameText outline format) R' x)
    (houtline : ∀ y, (make y).outline = outline y) (hformat : ∀ y, (make y).format = format y)
    (hoperator : ∀ y, (make y).binaryOperator? = none) (hR : ∀ us y, R' us y → IsPrimary lit' E' us (make y)) :
    Renders strings true Expr.format Alike (IsPrimary lit' E') (make x) := by
  rw [Renders, hformat]
  refine ⟨h.1, (h.2.mono ?_).toSigned⟩
  rintro us ⟨y, hy, hsame⟩
  exact ⟨make y, hR us y hy, by rw [houtline, houtline, hsame.1], by rw [hformat, hformat, hsame.2],
    by rw [hoperator, hoperator]⟩

/-- A collection of a size is written with its lambda behind the parentheses. -/
theorem renders_sized {ts us : List Token} {k : Token} {kind : CollectionKind} {size : Expr} {l : Lambda}
    (hts : ∀ t ∈ ts, Legible string t) (hsize : E ts size) (hus : ∀ t ∈ us, Legible string t)
    (hl : IsLambda E us l) :
    Renders strings true Expr.format Alike (IsPrimary lit' E') (.sized (.ofToken k) kind size l) := by
  obtain ⟨hspelling, hkind⟩ := name_of_sizedOf? kind
  obtain ⟨hneat, hwrites⟩ := hE hts hsize
  obtain ⟨hneat', hwrites'⟩ := renders_lambda hE hus hl
  have hall := (hwrites.append (hwrites'.spaced (c := ')') rfl nofun) (free_cons rfl (by decide))).lone
    (c := '(') rfl fun _ => rfl
  refine ⟨fun d => ?_, ((hall.word hspelling (free_cons rfl (by decide)) nofun).mono ?_).toSigned.of_eq
    (by simp [Expr.format, String.toList_append])⟩
  · have hword : Neat strings _ := neat_word hspelling
    simp [Expr.format, String.toList_append, hword d, hneat d, hneat' d, braceStep]
  · rintro _ ⟨k', _, rfl, hk', o, _, rfl, ho, vs, _, rfl, ⟨size', hsize', halike⟩, c, ws, rfl, hc, l', hl', hsame⟩
    refine ⟨_, .trailing (by rw [hk'.kind, hkind]) ho.kind lineEnds_nil hsize' lineEnds_nil hc.kind hl', ?_, ?_, rfl⟩
    · simp [Expr.outline, halike.outline, hsame.1]
    · simp [Expr.format, halike.format, hsame.2]

/-- What stands between operators can be written again, but for parentheses. -/
theorem renders_primary (hlit : KeepsStrings strings string lit lit') {ts : List Token} {e : Expr}
    (hts : ∀ t ∈ ts, Legible string t) (h : IsPrimary lit E ts e) :
    (∃ us, (∀ t ∈ us, Legible string t) ∧ E us e) ∨
      (e.binaryOperator? = none ∧ Renders strings true Expr.format Alike (IsPrimary lit' E') e) := by
  cases h with
  | @int t ht =>
    refine .inr ⟨rfl, neat_integer _, (writes_integer (number t)).mono ?_⟩
    rintro _ ⟨u, rfl, hu, hvalue⟩
    have hn : number u = number t := by simp [number, hvalue]
    exact ⟨_, .int hu, by simp [Expr.outline, hn], by simp [format_int, hn], rfl⟩
  | true _ =>
    have hspelling : IsSpelling "true" := by decide
    refine .inr ⟨rfl, neat_word hspelling, ((writes_nil.word hspelling free_nil
      fun h => absurd h Bool.false_ne_true).mono ?_).toSigned.of_eq (List.append_nil _).symm⟩
    rintro _ ⟨u, _, rfl, hu, rfl⟩
    exact ⟨_, .true hu.kind, rfl, rfl, rfl⟩
  | false _ =>
    have hspelling : IsSpelling "false" := by decide
    refine .inr ⟨rfl, neat_word hspelling, ((writes_nil.word hspelling free_nil
      fun h => absurd h Bool.false_ne_true).mono ?_).toSigned.of_eq (List.append_nil _).symm⟩
    rintro _ ⟨u, _, rfl, hu, rfl⟩
    exact ⟨_, .false hu.kind, rfl, rfl, rfl⟩
  | @string t _ ht he =>
    obtain ⟨hoperator, hneat, hwrites⟩ := hlit t e ht ((hts t (by simp)).string ht) he
    refine .inr ⟨hoperator, hneat, hwrites.mono ?_⟩
    rintro _ ⟨e', ⟨u, rfl, hu, he'⟩, halike⟩
    exact ⟨e', .string hu he', halike⟩
  | parens _ _ he _ _ => exact .inl ⟨_, fun t ht => hts t (by simp [ht]), he⟩
  | before hop ht =>
    obtain ⟨hneat, hwrites⟩ := renders_incDec_before hE (fun t ht => hts t (by simp [ht])) (hts _ (by simp)) hop ht
    refine .inr ⟨rfl, hneat, (hwrites.mono ?_).toSigned⟩
    rintro _ ⟨o, vs, t', rfl, ho, ht', houtline, hformat⟩
    exact ⟨_, .before ho ht', houtline, hformat, rfl⟩
  | read ht => exact .inr ⟨rfl, (renders_target hE hts ht).of_sameText .read (fun _ => rfl) (fun _ => rfl)
      (fun _ => rfl) fun _ _ => .read⟩
  | after ht hop =>
    obtain ⟨hneat, hwrites⟩ := renders_incDec_after hE (fun t ht => hts t (by simp [ht])) (hts _ (by simp)) hop ht
    refine .inr ⟨rfl, hneat, (hwrites.mono ?_).toSigned⟩
    rintro _ ⟨o, vs, t', rfl, ho, ht', houtline, hformat⟩
    exact ⟨_, .after ht' ho, houtline, hformat, rfl⟩
  | call hc => exact .inr ⟨rfl, (renders_call hE hts hc).of_sameText .call (fun _ => rfl) (fun _ => rfl)
      (fun _ => rfl) fun _ _ => .call⟩
  | lambda hl => exact .inr ⟨rfl, (renders_lambda hE hts hl).of_sameText .lambda (fun _ => rfl) (fun _ => rfl)
      (fun _ => rfl) fun _ _ => .lambda⟩
  | @collection k o c g us g' kind es hk _ _ hes _ _ =>
    obtain ⟨hspelling, hkind⟩ := literalName_of_literalOf? hk
    obtain ⟨hneat, hwrites⟩ := writes_elements hE (fun t ht => hts t (by simp [ht])) hes
    refine .inr ⟨rfl, fun d => ?_, (((hwrites.lone (c := '(') rfl fun _ => rfl).word hspelling
      (free_cons rfl (by decide)) fun h => absurd h Bool.false_ne_true).mono ?_).toSigned.of_eq
      (by simp [Expr.format, formats_eq_map, String.toList_append])⟩
    · have hword : Neat strings _ := neat_word hspelling
      simp [Expr.format, formats_eq_map, String.toList_append, hword d, hneat d, braceStep]
    · rintro _ ⟨k', _, rfl, hk', o, _, rfl, ho, vs, t, es', rfl, ht, hes', halike⟩
      refine ⟨_, .collection (by rw [hk'.kind, hkind]) ho.kind lineEnds_nil hes' lineEnds_nil ht, ?_, ?_, rfl⟩
      · simp [Expr.outline, outlines_eq_map, map_eq_of_forall₂ halike fun _ _ h => h.outline]
      · simp [Expr.format, formats_eq_map, map_eq_of_forall₂ halike fun _ _ h => h.format]
  | @sized k o c g us g' cs ls h kind size l hk _ _ hsize _ _ hl _ _ =>
    exact .inr ⟨rfl, renders_sized hE (fun t ht => hts t (by simp [ht])) hsize (fun t ht => hts t (by simp [ht])) hl⟩
  | @trailing k o c g us g' ls kind size l hk _ _ hsize _ _ hl =>
    exact .inr ⟨rfl, renders_sized hE (fun t ht => hts t (by simp [ht])) hsize (fun t ht => hts t (by simp [ht])) hl⟩

end Primary

/-! ## Tiers -/

/-- The tier of the operator of an expression; what has none binds tightest. -/
def rank (e : Expr) : Nat := (e.binaryOperator?.map precedence).getD 10

/-- The rule for a tier, with at most `m` expressions inside each other. -/
def tier (lit : Token → Expr → Prop) (m : Nat) : Nat → Reading Expr
  | 1 => IsLogical (IsUnary lit m)
  | 2 => IsComparison (IsUnary lit m)
  | 3 => IsSum (IsUnary lit m)
  | 4 => IsProduct (IsUnary lit m)
  | _ => IsUnary lit m

variable {lit lit' : Token → Expr → Prop} {string : Token → Prop} {n m p q : Nat}

theorem tier_of_le (hp : 1 ≤ p) (hpq : p ≤ q) {us : List Token} {e : Expr} (h : tier lit m q us e) :
    tier lit m p us e := by
  induction q, hpq using Nat.le_induction with
  | base => exact h
  | succ q hq ih =>
    refine ih ?_
    obtain rfl | rfl | rfl | rfl | hlarge : q = 1 ∨ q = 2 ∨ q = 3 ∨ q = 4 ∨ 4 < q := by omega
    · exact .one h
    · exact .one h
    · exact .one h
    · exact .one h
    · obtain ⟨r, rfl⟩ : ∃ r, q = r + 5 := ⟨q - 5, by omega⟩
      exact h

theorem rank_pos (e : Expr) : 1 ≤ rank e := by
  unfold rank
  cases e.binaryOperator? with
  | none => decide
  | some op =>
    rw [Option.map_some, Option.getD_some]
    unfold precedence
    repeat' split
    all_goals decide

/-- A left operand may be of the same tier, but for comparisons; a right one binds tighter. -/
theorem needsParens_eq (hp : p ≤ 5) (isRight : Bool) (e : Expr) : needsParens p isRight e =
    decide (rank e < if isRight then p + 1 else if p = 2 then 3 else p) := by
  have hequality : precedence "==" = 2 := by decide
  unfold needsParens rank
  cases e.binaryOperator? with
  | none =>
    cases isRight with
    | true => simp; omega
    | false => simp; split <;> omega
  | some op =>
    rw [Bool.eq_iff_iff]
    cases isRight with
    | true => simp [hequality]; omega
    | false => simp [hequality]; split <;> omega

/-- The expression can be written in its own tier, with at most `n` expressions inside each other. -/
def Fits (strings : Bool) (lit' : Token → Expr → Prop) (n : Nat) (e : Expr) : Prop :=
  ∀ m, n ≤ m → Renders strings true Expr.format Alike (tier lit' m (rank e)) e

/-- It can be written below an operator of a tier: in parentheses, one expression inside another less
can be left. -/
structure Holds (strings : Bool) (lit' : Token → Expr → Prop) (p n : Nat) (e : Expr) : Prop where
  fits : Fits strings lit' n e
  parens : rank e < p → ∃ m, n = m + 1 ∧ Fits strings lit' m e

theorem Fits.mono {e : Expr} (h : Fits strings lit' n e) (hnm : n ≤ m) : Fits strings lit' m e :=
  fun k hk => h k (Nat.le_trans hnm hk)

theorem Holds.mono {e : Expr} (h : Holds strings lit' q n e) (hpq : p ≤ q) : Holds strings lit' p n e :=
  ⟨h.fits, fun hlt => h.parens (Nat.lt_of_lt_of_le hlt hpq)⟩

/-- What fits is read as an expression. -/
theorem Fits.renders {e : Expr} (h : Fits strings lit' n e) (hnm : n ≤ m) :
    Renders strings true Expr.format Alike (IsExpr lit' (m + 1)) e := by
  obtain ⟨hneat, hwrites⟩ := h m hnm
  refine ⟨hneat, hwrites.mono ?_⟩
  rintro us ⟨e', he', halike⟩
  exact ⟨e', tier_of_le (p := 1) (Nat.le_refl 1) (rank_pos e) he', halike⟩

/-- An operand is written as the rule for its place reads it. -/
theorem Holds.renders {e : Expr} (h : Holds strings lit' p n e) (hp : 1 ≤ p) (hnm : n ≤ m) :
    Neat strings (parenthesized (decide (rank e < p)) e.format).toList ∧
      Writes true (parenthesized (decide (rank e < p)) e.format).toList fun us =>
        ∃ e', tier lit' m p us e' ∧ Alike e e' := by
  by_cases hlt : rank e < p
  · obtain ⟨k, rfl, hfits⟩ := h.parens hlt
    obtain ⟨j, rfl⟩ : ∃ j, m = j + 1 := ⟨m - 1, by omega⟩
    obtain ⟨hneat, hwrites⟩ := hfits.renders (Nat.le_of_succ_le_succ hnm)
    have hall := (hwrites.append (writes_nil.lone (c := ')') rfl nofun) (free_cons rfl (by decide))).lone
      (c := '(') rfl fun _ => rfl
    rw [decide_eq_true hlt]
    refine ⟨fun d => ?_, (hall.mono ?_).toSigned.of_eq (by simp [parenthesized, String.toList_append])⟩
    · simp [parenthesized, String.toList_append, hneat d, braceStep]
    · rintro _ ⟨o, _, rfl, ho, us, _, rfl, ⟨e', he', halike⟩, c, _, rfl, hc, rfl⟩
      have hprimary : IsPrimary lit' (IsExpr lit' (j + 1)) (o :: ([] ++ (us ++ ([] ++ [c])))) e' :=
        .parens ho.kind lineEnds_nil he' lineEnds_nil hc.kind
      exact ⟨e', tier_of_le (q := p + 5) hp (by omega) (isUnary_of_isPrimary hprimary), halike⟩
  · obtain ⟨hneat, hwrites⟩ := h.fits m hnm
    rw [decide_eq_false hlt]
    refine ⟨hneat, hwrites.mono ?_⟩
    rintro us ⟨e', he', halike⟩
    exact ⟨e', tier_of_le hp (Nat.le_of_not_lt hlt) he', halike⟩

/-! ## Binary operators -/

/-- A form of binary expressions. -/
structure IsBinary (make : Mark → String → Expr → Expr → Expr) : Prop where
  operator : ∀ m op l r, (make m op l r).binaryOperator? = some op
  outline : ∀ m op l r, (make m op l r).outline = outlineNode op [l.outline, r.outline]
  format : ∀ m op l r, (make m op l r).format =
    parenthesized (needsParens (precedence op) false l) l.format ++ " " ++ op ++ " "
      ++ parenthesized (needsParens (precedence op) true r) r.format

theorem isBinary_arith : IsBinary .arith := ⟨fun _ _ _ _ => rfl, fun _ _ _ _ => rfl, fun _ _ _ _ => rfl⟩

theorem isBinary_compare : IsBinary .compare := ⟨fun _ _ _ _ => rfl, fun _ _ _ _ => rfl, fun _ _ _ _ => rfl⟩

theorem isBinary_logic : IsBinary .logic := ⟨fun _ _ _ _ => rfl, fun _ _ _ _ => rfl, fun _ _ _ _ => rfl⟩

theorem needsParens_of_alike {e e' : Expr} (h : Alike e e') (p : Nat) (isRight : Bool) :
    needsParens p isRight e' = needsParens p isRight e := by
  rw [needsParens, h.operator, needsParens]

theorem holds_binary {make : Mark → String → Expr → Expr → Expr} (hmake : IsBinary make) {op : Token} {l r : Expr}
    (hop : op.shown = op.kind.text) (hkind : Infix op.kind) (hp : precedence op.kind.text = p) (hp' : p ≤ 4)
    (hl : Holds strings lit' (if p = 2 then 3 else p) n l) (hr : Holds strings lit' (p + 1) n r)
    (build : ∀ m vs l' o us r', tier lit' m (if p = 2 then 3 else p) vs l' → tier lit' m (p + 1) us r' →
      o.kind = op.kind → tier lit' m p (vs ++ o :: us) (make (.ofToken o) o.shown l' r')) :
    Holds strings lit' p n (make (.ofToken op) op.shown l r) := by
  have hrank (m : Mark) (l r : Expr) : rank (make m op.shown l r) = p := by simp [rank, hmake.operator, hop, hp]
  have hpos : 1 ≤ p := hrank (.ofToken op) l r ▸ rank_pos _
  refine ⟨fun m hm => ?_, fun hlt => absurd hlt (by simp [hrank])⟩
  obtain ⟨hneat, hwrites⟩ := hl.renders (by split <;> omega) hm
  obtain ⟨hneat', hwrites'⟩ := hr.renders (by omega) hm
  have hall := hwrites.append (writes_operator hwrites' hkind).blank (free_cons rfl (by decide))
  have htext : (make (.ofToken op) op.shown l r).format.toList =
      (parenthesized (decide (rank l < if p = 2 then 3 else p)) l.format).toList ++
        ' ' :: (op.kind.text.toList ++ ' ' :: (parenthesized (decide (rank r < p + 1)) r.format).toList) := by
    simp [hmake.format, hop, hp, needsParens_eq (Nat.le_succ_of_le hp'), String.toList_append]
  rw [Renders, htext, hrank]
  refine ⟨fun d => ?_, hall.mono ?_⟩
  · have hright := hneat' d
    generalize (parenthesized (decide (rank r < p + 1)) r.format).toList = right at hright ⊢
    simp [hneat d, hright, neat_operator hkind d, braceStep]
  · rintro _ ⟨vs, _, rfl, ⟨l', hl', halike⟩, o, us, rfl, ho, r', hr', halike'⟩
    refine ⟨_, build m vs l' o us r' hl' hr' ho.kind, ?_, ?_, ?_⟩
    · simp [hmake.outline, ho.shown, hop, halike.outline, halike'.outline]
    · simp [hmake.format, ho.shown, hop, halike.format, halike'.format, needsParens_of_alike halike,
        needsParens_of_alike halike']
    · simp [hmake.operator, ho.shown, hop]

/-- Chains group to the left, so a left operand of the same tier needs no parentheses. -/
theorem holds_chain {kinds : List Kind} {make : Mark → String → Expr → Expr → Expr} {operand : Reading Expr}
    (hmake : IsBinary make) (hkinds : ∀ k ∈ kinds, Infix k ∧ precedence k.text = p) (hp : p ≤ 4) (hp' : p ≠ 2)
    (htier : ∀ m, tier lit' m p = Chain kinds make (tier lit' m (p + 1)))
    (hoperand : ∀ us x, (∀ t ∈ us, Legible string t) → operand us x → Holds strings lit' (p + 1) n x)
    {ts : List Token} {e : Expr} (hts : ∀ t ∈ ts, Legible string t) (h : Chain kinds make operand ts e) :
    Holds strings lit' p n e := by
  induction h with
  | one h => exact (hoperand _ _ hts h).mono (Nat.le_succ p)
  | @more op ts g us l r _ hop hg hr ih =>
    obtain ⟨hkind, hprec⟩ := hkinds _ hop
    have hl := ih fun t ht => hts t (by simp [ht])
    refine holds_binary hmake ((hts op (by simp)).shown (.inl hkind)) hkind hprec hp (by rwa [if_neg hp'])
      (hoperand _ _ (fun t ht => hts t (by simp [ht])) hr) fun m vs l' o us r' hl' hr' ho => ?_
    rw [if_neg hp'] at hl'
    rw [htier] at hl' ⊢
    exact .more hl' (ho ▸ hop) lineEnds_nil hr'

theorem holds_sum {operand : Reading Expr}
    (hoperand : ∀ us x, (∀ t ∈ us, Legible string t) → operand us x → Holds strings lit' 5 n x)
    {ts : List Token} {e : Expr} (hts : ∀ t ∈ ts, Legible string t) (h : IsSum operand ts e) :
    Holds strings lit' 3 n e :=
  holds_chain isBinary_arith (by decide) (by decide) (by decide) (fun _ => rfl)
    (fun _ _ hus hx => holds_chain isBinary_arith (by decide) (by decide) (by decide) (fun _ => rfl)
      hoperand hus hx) hts h

theorem holds_comparison {operand : Reading Expr}
    (hoperand : ∀ us x, (∀ t ∈ us, Legible string t) → operand us x → Holds strings lit' 5 n x)
    {ts : List Token} {e : Expr} (hts : ∀ t ∈ ts, Legible string t) (h : IsComparison operand ts e) :
    Holds strings lit' 2 n e := by
  cases h with
  | one h => exact (holds_sum hoperand hts h).mono (by decide)
  | @two op vs g us l r hl hop hg hr =>
    have hkinds : ∀ k ∈ [Kind.eq, .notEq, .lt, .gt, .le, .ge], Infix k ∧ precedence k.text = 2 := by decide
    obtain ⟨hkind, hprec⟩ := hkinds _ hop
    exact holds_binary isBinary_compare ((hts op (by simp)).shown (.inl hkind)) hkind hprec (by decide)
      (holds_sum hoperand (fun t ht => hts t (by simp [ht])) hl)
      (holds_sum hoperand (fun t ht => hts t (by simp [ht])) hr)
      fun m vs l' o us r' hl' hr' ho => .two hl' (ho ▸ hop) lineEnds_nil hr'

theorem holds_logical {operand : Reading Expr}
    (hoperand : ∀ us x, (∀ t ∈ us, Legible string t) → operand us x → Holds strings lit' 5 n x)
    {ts : List Token} {e : Expr} (hts : ∀ t ∈ ts, Legible string t) (h : IsLogical operand ts e) :
    Holds strings lit' 1 n e :=
  holds_chain isBinary_logic (by decide) (by decide) (by decide) (fun _ => rfl)
    (fun _ _ => holds_comparison hoperand) hts h

/-! ## Expressions -/

/-- A text of which an expression is read starts with no equals sign. -/
theorem ne_assign_of_writes (h : Writes signed text R)
    (hR : ∀ us, R us → Parse.StartsWith Parse.startsExpr us) : ∃ c cs, text = c :: cs ∧ c ≠ '=' := by
  obtain ⟨us, hus, hscan⟩ := h.scan
  obtain ⟨t, vs, rfl, ht⟩ := hR us hus
  cases text with
  | nil => cases hscan
  | cons c cs =>
    refine ⟨c, cs, rfl, ?_⟩
    rintro rfl
    rcases Token.kind_of_scan_assign hscan with hk | hk <;> exact absurd (hk ▸ ht) (by decide)

theorem keeps_of_holds (h : ∀ us x, (∀ t ∈ us, Legible string t) → IsExpr lit n us x →
    ∃ k, n = k + 1 ∧ Fits strings lit' k x) (hnm : n ≤ m) :
    Keeps strings (Legible string) (IsExpr lit n) (IsExpr lit' m) := by
  intro us x hus hx
  obtain ⟨k, rfl, hfits⟩ := h us x hus hx
  obtain ⟨j, rfl⟩ : ∃ j, m = j + 1 := ⟨m - 1, by omega⟩
  exact hfits.renders (Nat.le_of_succ_le_succ hnm)

theorem holds_not {bang : Token} {x : Expr} (h : Holds strings lit' 5 n x) :
    Holds strings lit' 5 (n + 1) (.not (.ofToken bang) x) := by
  refine ⟨fun m hnm => ?_, fun hlt => absurd hlt (by simp [rank, Expr.binaryOperator?])⟩
  obtain ⟨j, rfl⟩ : ∃ j, m = j + 1 := ⟨m - 1, by omega⟩
  obtain ⟨hneat, hwrites⟩ := h.renders (by decide) (Nat.le_of_succ_le_succ hnm)
  have hparens : needsParens unaryPrecedence false x = decide (rank x < 5) := needsParens_eq (by decide) false x
  obtain ⟨c, cs, htext, hc⟩ := ne_assign_of_writes hwrites fun us hus => by
    obtain ⟨e', he', -⟩ := hus
    exact Parse.startsWith_of_isUnary he'
  have hall := hwrites.char (c := '!') rfl (fun _ => rfl) fun rest _ d hd => apart_of_ne_assign (.inl rfl) ?_
  · refine ⟨fun d => ?_, (hall.mono ?_).toSigned.of_eq (by simp [Expr.format, hparens, String.toList_append])⟩
    · simp [Expr.format, hparens, String.toList_append, hneat d, braceStep]
    · rintro _ ⟨o, us, rfl, ho, x', hx', halike⟩
      refine ⟨_, .inr ⟨o, us, x', ho.kind, hx', rfl, rfl⟩, ?_, ?_, rfl⟩
      · simp [Expr.outline, halike.outline]
      · simp [Expr.format, halike.format, needsParens_of_alike halike]
  · rw [htext] at hd
    obtain rfl : c = d := by simpa using hd
    exact hc

variable (hlit : KeepsStrings strings string lit lit')
include hlit

/-- A primary expression can be written again; without its parentheses it is what stands inside. -/
theorem holds_primary (hinner : ∀ us x, (∀ t ∈ us, Legible string t) → IsExpr lit n us x →
    ∃ k, n = k + 1 ∧ Fits strings lit' k x) {ts : List Token} {e : Expr} (hts : ∀ t ∈ ts, Legible string t)
    (h : IsPrimary lit (IsExpr lit n) ts e) : Holds strings lit' 5 n e := by
  by_cases hparens : ∃ us, (∀ t ∈ us, Legible string t) ∧ IsExpr lit n us e
  · obtain ⟨us, hus, he⟩ := hparens
    obtain ⟨k, rfl, hfits⟩ := hinner us e hus he
    exact ⟨hfits.mono (Nat.le_succ k), fun _ => ⟨k, rfl, hfits⟩⟩
  · have hbare (m : Nat) (hnm : n ≤ m) :=
      (renders_primary (keeps_of_holds hinner hnm) hlit hts h).resolve_left hparens
    have hrank : rank e = 10 := by simp [rank, (hbare n (Nat.le_refl n)).1]
    refine ⟨fun m hnm => ?_, fun hlt => absurd hlt (by simp [hrank])⟩
    obtain ⟨-, hneat, hwrites⟩ := hbare m hnm
    rw [hrank]
    refine ⟨hneat, hwrites.mono ?_⟩
    rintro us ⟨e', he', halike⟩
    exact ⟨e', isUnary_of_isPrimary he', halike⟩

theorem holds_unary (n : Nat) : ∀ ts e, (∀ t ∈ ts, Legible string t) → IsUnary lit n ts e →
    Holds strings lit' 5 n e := by
  induction n with
  | zero => exact fun ts e hts h => holds_primary hlit (fun _ _ _ => False.elim) hts h
  | succ n ih =>
    rintro ts e hts (h | ⟨bang, us, x, _, hx, rfl, rfl⟩)
    · exact holds_primary hlit (fun us x hus hx => ⟨n, rfl, (holds_logical ih hus hx).fits⟩) hts h
    · exact holds_not (ih us x (fun t ht => hts t (by simp [ht])) hx)

/-- Expressions are written as what is read as expressions like them, and none goes deeper. -/
theorem keeps_expr (n : Nat) : Keeps strings (Legible string) (IsExpr lit n) (IsExpr lit' n) := by
  refine keeps_of_holds (fun us x hus hx => ?_) (Nat.le_refl n)
  cases n with
  | zero => exact False.elim hx
  | succ n => exact ⟨n, rfl, (holds_logical (holds_unary hlit n) hus hx).fits⟩

end Written
end Kotlet

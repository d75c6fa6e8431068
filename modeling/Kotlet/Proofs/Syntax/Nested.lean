import Kotlet.Proofs.Syntax.Written.Literal

/-!
# Strings inside templates

The string literals inside the templates of a string are written with their quotes as they are, so the
first of them ends the outer literal: what comes before it is a string with an open template.

* `Broken` : texts in which a quote comes before the braces are closed;
* `NeatOrBroken`, `tells_primary`, `tells_expr` : an expression is written neatly, or it holds a string;
* `exists_first_broken`, `not_stringAt_of_open` : what a literal with a broken template is scanned as is
  no literal;
* `Survives` : the text of a string literal is a literal like it;
* `Parse.survives_iff` : string literals whose templates hold no strings survive, and no others.
-/

namespace Kotlet
namespace Written

open Token (Kind IsSpelling Inside escapedDollar)
open Grammar Parse

/-! ## Quotes inside open braces -/

/-- A quote comes before the braces that are open at the start are closed. -/
def Broken (cs : List Char) : Prop :=
  ∃ pre post, cs = pre ++ '"' :: post ∧ ∀ d, ∃ d', bracesAfter false d pre = some d'

variable {P Q : Prop} {cs ds : List Char}

theorem broken_quote (cs : List Char) : Broken ('"' :: cs) := ⟨[], cs, rfl, fun d => ⟨d, rfl⟩⟩

theorem Broken.append (h : Broken cs) (ds : List Char) : Broken (cs ++ ds) := by
  obtain ⟨pre, post, rfl, hpre⟩ := h
  exact ⟨pre, post ++ ds, by simp, hpre⟩

theorem Broken.after (h : Broken ds) (hcs : Neat false cs) : Broken (cs ++ ds) := by
  obtain ⟨pre, post, rfl, hpre⟩ := h
  exact ⟨cs ++ pre, post, by simp, fun d => by simpa [hcs d] using hpre d⟩

theorem Broken.brace (h : Broken cs) : Broken ('{' :: cs) := by
  obtain ⟨pre, post, rfl, hpre⟩ := h
  exact ⟨'{' :: pre, post, rfl, fun d => by simpa [braceStep] using hpre (d + 1)⟩

theorem Broken.not_neat (h : Broken cs) : ¬ Neat false cs := by
  intro hneat
  obtain ⟨pre, post, rfl, hpre⟩ := h
  obtain ⟨d, hd⟩ := hpre 0
  have hall := hneat 0
  simp [hd, braceStep] at hall

/-- The text is neat where `P` holds, and broken otherwise. -/
inductive NeatOrBroken (P : Prop) (cs : List Char) : Prop where
  | neat (hp : P) (h : Neat false cs)
  | broken (h : Broken cs)

theorem NeatOrBroken.mono (h : NeatOrBroken P cs) (hPQ : P → Q) : NeatOrBroken Q cs := by
  cases h with
  | neat hp h => exact .neat (hPQ hp) h
  | broken h => exact .broken h

theorem NeatOrBroken.append (h : NeatOrBroken P cs) (h' : NeatOrBroken Q ds) :
    NeatOrBroken (P ∧ Q) (cs ++ ds) := by
  cases h with
  | broken h => exact .broken (h.append ds)
  | neat hp h =>
    cases h' with
    | broken h' => exact .broken (h'.after h)
    | neat hq h' => exact .neat ⟨hp, hq⟩ fun d => by simp [h d, h' d]

/-- What stands before and behind a text and is neat itself makes no difference. -/
theorem NeatOrBroken.within {p s : List Char} (h : NeatOrBroken P cs) (hp : Neat false p) (hs : Neat false s) :
    NeatOrBroken P (p ++ (cs ++ s)) := by
  cases h with
  | neat hP h => exact .neat hP fun d => by simp [hp d, h d, hs d]
  | broken h => exact .broken ((h.append s).after hp)

theorem NeatOrBroken.braces (h : NeatOrBroken P cs) : NeatOrBroken P ('{' :: (cs ++ ['}'])) := by
  cases h with
  | neat hp h => exact .neat hp h.braces
  | broken h => exact .broken (h.append _).brace

theorem NeatOrBroken.parenthesized {s : String} (h : NeatOrBroken P s.toList) (b : Bool) :
    NeatOrBroken P (parenthesized b s).toList := by
  cases b with
  | false => exact h
  | true =>
    have hparens := h.within (p := ['(']) (s := [')']) (fun _ => rfl) fun _ => rfl
    simpa [Kotlet.parenthesized, String.toList_append] using hparens

/-! ## Tokens without strings -/

/-- No token is a string. -/
def Stringless (ts : List Token) : Prop := ∀ t ∈ ts, t.kind ≠ .string

@[simp] theorem stringless_nil : Stringless [] := nofun

@[simp] theorem stringless_cons {t : Token} {ts : List Token} :
    Stringless (t :: ts) ↔ t.kind ≠ .string ∧ Stringless ts := List.forall_mem_cons

@[simp] theorem stringless_append {ts us : List Token} :
    Stringless (ts ++ us) ↔ Stringless ts ∧ Stringless us := List.forall_mem_append

theorem stringless_of_lineEnds {ts : List Token} (h : LineEnds ts) : Stringless ts := fun t ht => by simp [h t ht]

theorem ne_string_of_scalar? {k : Kind} {s : Scalar} (h : scalar? k = some s) : k ≠ .string := by
  rintro rfl
  cases h

theorem ne_string_of_infix {k : Kind} (h : Infix k) : k ≠ .string := by
  rintro rfl
  exact absurd h (by decide)

theorem ne_string_of_step {k : Kind} (h : Step k) : k ≠ .string := by
  rintro rfl
  exact absurd h (by decide)

theorem stringless_of_separated {α : Type} {comma : List Token → Prop} {item : Reading α} {ts : List Token}
    {as : List α} (h : Separated comma item ts as) (hcomma : ∀ cs, comma cs → Stringless cs)
    (hitem : ∀ us a, us.Sublist ts → item us a → Stringless us) : Stringless ts := by
  induction h with
  | one h => exact hitem _ _ (.refl _) h
  | @more ts cs us a as h hc _ ih =>
    have htail : us.Sublist (ts ++ (cs ++ us)) :=
      (List.sublist_append_right cs us).trans (List.sublist_append_right ts _)
    exact stringless_append.mpr ⟨hitem ts a (List.sublist_append_left _ _) h,
      stringless_append.mpr ⟨hcomma cs hc, ih fun vs b hvs => hitem vs b (hvs.trans htail)⟩⟩

theorem stringless_of_isType {ts : List Token} {ty : Ty} (h : IsType ts ty) : Stringless ts := by
  induction hn : ts.length using Nat.strong_induction_on generalizing ts ty with
  | _ n ih =>
    cases h with
    | scalar h => simpa using ne_string_of_scalar? h
    | array ha hl he _ hg => simp [ha, hl, ne_string_of_scalar? he, hg]
    | list ha hl he _ hg => simp [ha, hl, ne_string_of_scalar? he, hg]
    | @thunk _ _ _ rs _ ho hc ha hr =>
      have hresult := ih rs.length (by simp at hn; omega) hr rfl
      simp [ho, hc, ha, hresult]
    | @fn _ _ _ ps rs _ _ ho hps hc ha hr =>
      simp only [List.length_cons, List.length_append] at hn
      have hresult := ih rs.length (by omega) hr rfl
      have hparams : Stringless ps := by
        refine stringless_of_separated hps ?_ fun us p hus hp => ?_
        · rintro _ ⟨hcomma⟩
          simp [hcomma]
        · have hlen := hus.length_le
          exact ih us.length (by omega) hp rfl
      simp [ho, hparams, hc, ha, hresult]

theorem stringless_of_isParam {ts : List Token} {p : Param} (h : IsParam ts p) : Stringless ts := by
  cases h with
  | bare ht => simp [ht]
  | typed ht hc hty => simp [ht, hc, stringless_of_isType hty]

theorem stringless_of_params {ts : List Token} {ps : List Param} (h : Separated CommaLines IsParam ts ps) :
    Stringless ts := by
  refine stringless_of_separated h ?_ fun _ _ _ => stringless_of_isParam
  rintro _ ⟨hcomma, hg⟩
  simp [hcomma, stringless_of_lineEnds hg]

/-! ## What expressions show of their strings -/

/-- Expressions that are read from good tokens are written neatly, or there is a string among the
tokens. -/
def Tells (good : Token → Prop) (E : Reading Expr) : Prop :=
  ∀ ⦃ts e⦄, (∀ t ∈ ts, good t) → E ts e → NeatOrBroken (Stringless ts) e.format.toList

section Primary

variable {string : Token → Prop} {E : Reading Expr} (hE : Tells (Legible string) E)
include hE

theorem tells_target {ts : List Token} {t : Target} (hts : ∀ u ∈ ts, Legible string u) (h : IsTarget E ts t) :
    NeatOrBroken (Stringless ts) t.format.toList := by
  cases h with
  | @name i hi =>
    exact .neat (by simp [hi]) (neat_word ((hts i (by simp)).name hi).1)
  | @element i b c g us g' e hi hb hg he hg' hc =>
    have hname : Neat false (Grammar.name i).name.toList := neat_word ((hts i (by simp)).name hi).1
    have hindex := hE (fun t ht => hts t (by simp [ht])) he
    have hall := hindex.within (p := (Grammar.name i).name.toList ++ ['[']) (s := [']'])
      (fun d => by simp [hname d, braceStep]) fun _ => rfl
    have htext : (Target.element (.ofToken b) (Grammar.name i) e).format.toList =
        ((Grammar.name i).name.toList ++ ['[']) ++ (e.format.toList ++ [']']) := by
      simp [Target.format, String.toList_append]
    rw [htext]
    exact hall.mono fun hus => by
      simp [hi, hb, hc, hus, stringless_of_lineEnds hg, stringless_of_lineEnds hg']

theorem tells_elements {ts : List Token} {es : List Expr} (hts : ∀ t ∈ ts, Legible string t)
    (h : Separated LinesCommaLines E ts es) :
    NeatOrBroken (Stringless ts) ([',', ' '].intercalate (es.map (String.toList ∘ Expr.format))) := by
  induction h with
  | one h => simpa using hE hts h
  | @more ts cs us e es h hc hs ih =>
    have hfirst := hE (fun t ht => hts t (by simp [ht])) h
    have hrest := (ih fun t ht => hts t (by simp [ht])).within (p := [',', ' ']) (s := [])
      (fun _ => rfl) fun _ => rfl
    have hcomma : Stringless cs := by
      obtain ⟨hg, hcomma, hg'⟩ := hc
      simp [hcomma, stringless_of_lineEnds hg, stringless_of_lineEnds hg']
    obtain ⟨e', es, rfl⟩ : ∃ e' es', es = e' :: es' := by cases hs <;> exact ⟨_, _, rfl⟩
    have htext : [',', ' '].intercalate ((e :: e' :: es).map (String.toList ∘ Expr.format)) = e.format.toList ++
        ([',', ' '] ++ ([',', ' '].intercalate ((e' :: es).map (String.toList ∘ Expr.format)) ++ [])) := by
      simp [List.intercalate_cons_cons]
    rw [htext]
    exact (hfirst.append hrest).mono fun h => by simp [h, hcomma]

theorem tells_arguments {ts : List Token} {es : List Expr} (hts : ∀ t ∈ ts, Legible string t)
    (h : AreArguments E ts es) :
    NeatOrBroken (Stringless ts) ([',', ' '].intercalate (es.map (String.toList ∘ Expr.format))) := by
  cases h with
  | none hg hc => exact .neat (by simp [hc, stringless_of_lineEnds hg]) fun _ => rfl
  | some hg hes hg' hc =>
    exact (tells_elements hE (fun t ht => hts t (by simp [ht])) hes).mono fun hts => by
      simp [hts, hc, stringless_of_lineEnds hg, stringless_of_lineEnds hg']

theorem tells_call {ts : List Token} {x : Call} (hts : ∀ t ∈ ts, Legible string t) (h : IsCall E ts x) :
    NeatOrBroken (Stringless ts) x.format.toList := by
  cases h with
  | @mk f o us es hf ho hes =>
    have hname : Neat false (Grammar.name f).name.toList := neat_word ((hts f (by simp)).name hf).1
    have hall := (tells_arguments hE (fun t ht => hts t (by simp [ht])) hes).within
      (p := (Grammar.name f).name.toList ++ ['(']) (s := [')'])
      (fun d => by simp [hname d, braceStep]) fun _ => rfl
    have htext : (Call.mk (.ofToken o) (Grammar.name f) es).format.toList =
        ((Grammar.name f).name.toList ++ ['(']) ++
          ([',', ' '].intercalate (es.map (String.toList ∘ Expr.format)) ++ [')']) := by
      simp [Call.format, formats_eq_map, String.toList_append]
    rw [htext]
    exact hall.mono fun hus => by simp [hf, ho, hus]

theorem tells_body {ts : List Token} {e : Expr} (hts : ∀ t ∈ ts, Legible string t) (h : IsBody E ts e) :
    NeatOrBroken (Stringless ts) e.format.toList := by
  cases h with
  | mk hg he hg' hc =>
    exact (hE (fun t ht => hts t (by simp [ht])) he).mono fun hts => by
      simp [hts, hc, stringless_of_lineEnds hg, stringless_of_lineEnds hg']

omit hE in
/-- A lambda is neat or broken as its body is. -/
theorem tells_lambda_of_body {m : Mark} {params : List Param} {e : Expr}
    (hparams : Neat false (if params = [] then "" else formatParams params ++ " ").toList)
    (h : NeatOrBroken P e.format.toList) : NeatOrBroken P (Lambda.mk m params e []).format.toList := by
  have hall := (h.within (p := ' ' :: ((if params = [] then "" else formatParams params ++ " ").toList ++
    ['-', '>', ' '])) (s := [' ']) (fun d => by simp [hparams d, braceStep]) fun _ => rfl).braces
  simpa [Lambda.format, String.toList_append] using hall

theorem tells_lambda {ts : List Token} {l : Lambda} (hts : ∀ t ∈ ts, Legible string t) (h : IsLambda E ts l) :
    NeatOrBroken (Stringless ts) l.format.toList := by
  cases h with
  | thunk hb hg ha he =>
    have hbody := tells_body hE (fun t ht => hts t (by simp [ht])) he
    exact (tells_lambda_of_body (fun _ => rfl) hbody).mono fun hus => by
      simp [hb, ha, hus, stringless_of_lineEnds hg]
  | @mk b a g ps us params e hb hg hps hdistinct ha he =>
    have hbody := tells_body hE (fun t ht => hts t (by simp [ht])) he
    obtain ⟨hneat, -⟩ : Neat false _ ∧ _ := writes_separatedParams (fun t ht => hts t (by simp [ht])) hps
    refine (tells_lambda_of_body (fun d => ?_) hbody).mono fun hus => by
      simp [hb, ha, hus, stringless_of_lineEnds hg, stringless_of_params hps]
    split
    · rfl
    · simp [formatParams, String.toList_append, hneat d, braceStep]

theorem tells_incDec {op : Token} {ts : List Token} {t : Target} (hts : ∀ u ∈ ts, Legible string u)
    (hop : Legible string op) (hstep : Step op.kind) (h : IsTarget E ts t) (before : Bool) :
    NeatOrBroken (Stringless ts) (IncDec.mk (.ofToken op) op.shown before t).format.toList := by
  have hlexeme := hop.shown (.inr hstep)
  have htarget := tells_target hE hts h
  cases before with
  | true =>
    have hall := htarget.within (s := []) (neat_step hstep) fun _ => rfl
    simpa [IncDec.format, hlexeme, String.toList_append] using hall
  | false =>
    have hall := htarget.within (p := []) (fun _ => rfl) (neat_step hstep)
    simpa [IncDec.format, hlexeme, String.toList_append] using hall

theorem tells_sized {ts us : List Token} {k : Token} {kind : CollectionKind} {size : Expr} {l : Lambda}
    (hts : ∀ t ∈ ts, Legible string t) (hsize : E ts size) (hus : ∀ t ∈ us, Legible string t)
    (hl : IsLambda E us l) : NeatOrBroken (Stringless ts ∧ Stringless us)
      (Expr.sized (.ofToken k) kind size l).format.toList := by
  have hname : Neat false kind.name.toList := neat_word (name_of_sizedOf? kind).1
  have hsize := (hE hts hsize).within (p := kind.name.toList ++ ['(']) (s := [')', ' '])
    (fun d => by simp [hname d, braceStep]) fun _ => rfl
  have hall := hsize.append (tells_lambda hE hus hl)
  simpa [Expr.format, String.toList_append] using hall

variable {lit : Token → Expr → Prop} (hlit : ∀ t e, t.kind = .string → lit t e → Broken e.format.toList)
include hlit

theorem tells_primary {ts : List Token} {e : Expr} (hts : ∀ t ∈ ts, Legible string t)
    (h : IsPrimary lit E ts e) : NeatOrBroken (Stringless ts) e.format.toList := by
  cases h with
  | @int t ht => exact .neat (by simp [ht]) (by simpa [format_int] using neat_integer (number t).toInt)
  | true ht => exact .neat (by simp [ht]) (neat_word (w := "true") (by decide))
  | false ht => exact .neat (by simp [ht]) (neat_word (w := "false") (by decide))
  | string ht he => exact .broken (hlit _ _ ht he)
  | parens ho hg he hg' hc =>
    exact (hE (fun t ht => hts t (by simp [ht])) he).mono fun hts => by
      simp [ho, hc, hts, stringless_of_lineEnds hg, stringless_of_lineEnds hg']
  | before hop ht =>
    exact (tells_incDec hE (fun t ht => hts t (by simp [ht])) (hts _ (by simp)) hop ht true).mono fun hts => by
      simp [ne_string_of_step hop, hts]
  | read ht => exact tells_target hE hts ht
  | after ht hop =>
    exact (tells_incDec hE (fun t ht => hts t (by simp [ht])) (hts _ (by simp)) hop ht false).mono fun hts => by
      simp [ne_string_of_step hop, hts]
  | call hc => exact tells_call hE hts hc
  | lambda hl => exact tells_lambda hE hts hl
  | @collection k o c g us g' kind es hk ho hg hes hg' hc =>
    have hname : Neat false kind.literalName.toList := neat_word (literalName_of_literalOf? hk).1
    have hkind : k.kind ≠ .string := by
      intro hk'
      simp [hk', literalOf?] at hk
    have hall := (tells_elements hE (fun t ht => hts t (by simp [ht])) hes).within
      (p := kind.literalName.toList ++ ['(']) (s := [')']) (fun d => by simp [hname d, braceStep]) fun _ => rfl
    have htext : (Expr.collection (.ofToken k) kind es).format.toList = (kind.literalName.toList ++ ['(']) ++
        ([',', ' '].intercalate (es.map (String.toList ∘ Expr.format)) ++ [')']) := by
      simp [Expr.format, formats_eq_map, String.toList_append]
    rw [htext]
    exact hall.mono fun hus => by
      simp [hkind, ho, hc, hus, stringless_of_lineEnds hg, stringless_of_lineEnds hg']
  | @sized k o c g us g' cs ls h kind size l hk ho hg hsize hg' hcs hl hh hc =>
    have hkind : k.kind ≠ .string := by
      intro hk'
      simp [hk', sizedOf?] at hk
    have hcomma : Stringless cs := by
      obtain ⟨hcomma, hg⟩ := hcs
      simp [hcomma, stringless_of_lineEnds hg]
    exact (tells_sized hE (fun t ht => hts t (by simp [ht])) hsize (fun t ht => hts t (by simp [ht])) hl).mono
      fun h => by
        simp [hkind, ho, hc, h, hcomma, stringless_of_lineEnds hg, stringless_of_lineEnds hg',
          stringless_of_lineEnds hh]
  | @trailing k o c g us g' ls kind size l hk ho hg hsize hg' hc hl =>
    have hkind : k.kind ≠ .string := by
      intro hk'
      simp [hk', sizedOf?] at hk
    exact (tells_sized hE (fun t ht => hts t (by simp [ht])) hsize (fun t ht => hts t (by simp [ht])) hl).mono
      fun h => by
        simp [hkind, ho, hc, h, stringless_of_lineEnds hg, stringless_of_lineEnds hg']

end Primary

section Operators

variable {string : Token → Prop} {operand : Reading Expr} (hoperand : Tells (Legible string) operand)

theorem tells_binary {make : Mark → String → Expr → Expr → Expr} (hmake : IsBinary make) {op : Token} {l r : Expr}
    (hop : op.shown = op.kind.text) (hkind : Infix op.kind) (hl : NeatOrBroken P l.format.toList)
    (hr : NeatOrBroken Q r.format.toList) :
    NeatOrBroken (P ∧ Q) (make (.ofToken op) op.shown l r).format.toList := by
  have hright := (hr.parenthesized (needsParens (precedence op.kind.text) true r)).within (s := [])
    (p := ' ' :: (op.kind.text.toList ++ [' '])) (fun d => by simp [neat_operator hkind d, braceStep])
    fun _ => rfl
  have hall := (hl.parenthesized (needsParens (precedence op.kind.text) false l)).append hright
  simpa [hmake.format, hop, String.toList_append] using hall

include hoperand in
theorem tells_chain {kinds : List Kind} {make : Mark → String → Expr → Expr → Expr} (hmake : IsBinary make)
    (hkinds : ∀ k ∈ kinds, Infix k) : Tells (Legible string) (Chain kinds make operand) := by
  intro ts e hts h
  induction h with
  | one h => exact hoperand hts h
  | @more op ts g us l r _ hop hg hr ih =>
    have hkind := hkinds _ hop
    have hl := ih fun t ht => hts t (by simp [ht])
    have hr := hoperand (fun t ht => hts t (by simp [ht])) hr
    exact (tells_binary hmake ((hts op (by simp)).shown (.inl hkind)) hkind hl hr).mono fun h => by
      simp [h, ne_string_of_infix hkind, stringless_of_lineEnds hg]

include hoperand in
theorem tells_logical : Tells (Legible string) (IsLogical operand) := by
  have hsum : Tells (Legible string) (IsSum operand) :=
    tells_chain (tells_chain hoperand isBinary_arith (by decide)) isBinary_arith (by decide)
  refine tells_chain (fun ts e hts h => ?_) isBinary_logic (by decide)
  cases h with
  | one h => exact hsum hts h
  | @two op _ g us l r hl hop hg hr =>
    have hkinds : ∀ k ∈ [Kind.eq, .notEq, .lt, .gt, .le, .ge], Infix k := by decide
    have hkind := hkinds _ hop
    have hl := hsum (fun t ht => hts t (by simp [ht])) hl
    have hr := hsum (fun t ht => hts t (by simp [ht])) hr
    exact (tells_binary isBinary_compare ((hts op (by simp)).shown (.inl hkind)) hkind hl hr).mono
      fun h => by simp [h, ne_string_of_infix hkind, stringless_of_lineEnds hg]

end Operators

variable {string : Token → Prop} {lit : Token → Expr → Prop}

theorem tells_unary (hlit : ∀ t e, t.kind = .string → lit t e → Broken e.format.toList) (n : Nat) :
    Tells (Legible string) (IsUnary lit n) := by
  induction n with
  | zero => exact fun ts e hts h => tells_primary (fun _ _ _ => False.elim) hlit hts h
  | succ n ih =>
    rintro ts e hts (h | ⟨bang, us, x, hbang, hx, rfl, rfl⟩)
    · exact tells_primary (tells_logical ih) hlit hts h
    · have hinner := ((ih (fun t ht => hts t (by simp [ht])) hx).parenthesized
        (needsParens unaryPrecedence false x)).within (p := ['!']) (s := []) (fun _ => rfl) fun _ => rfl
      have hall : NeatOrBroken (Stringless us) (Expr.not (.ofToken bang) x).format.toList := by
        simpa [Expr.format, String.toList_append] using hinner
      exact hall.mono fun hus => by simp [hbang, hus]

/-- An expression is written neatly, or there is a string among its tokens. -/
theorem tells_expr (hlit : ∀ t e, t.kind = .string → lit t e → Broken e.format.toList) (n : Nat) :
    Tells (Legible string) (IsExpr lit n) := by
  cases n with
  | zero => exact fun _ _ _ h => h.elim
  | succ n => exact tells_logical (tells_unary hlit n)

/-! ## Literals with broken templates -/

/-- The first bit that cannot be written. -/
theorem exists_first_broken {bits : List Bit} (hbits : ∀ b ∈ bits, b.Writable ∨ ∃ e, b = .code e ∧ Broken e.format.toList) :
    (∀ b ∈ bits, b.Writable) ∨ ∃ before e after, bits = before ++ .code e :: after ∧
      (∀ b ∈ before, b.Writable) ∧ Broken e.format.toList := by
  induction bits with
  | nil => exact .inl nofun
  | cons b bits ih =>
    rcases hbits b List.mem_cons_self with hb | ⟨e, rfl, he⟩
    · rcases ih fun c hc => hbits c (List.mem_cons_of_mem _ hc) with hall | ⟨before, e, after, rfl, hbefore, he⟩
      · exact .inl (List.forall_mem_cons.mpr ⟨hb, hall⟩)
      · exact .inr ⟨b :: before, e, after, rfl, List.forall_mem_cons.mpr ⟨hb, hbefore⟩, he⟩
    · exact .inr ⟨[], e, bits, rfl, nofun, he⟩

/-- The first token of a text that starts with a string. -/
theorem literal_of_scan_string {cs value rest : List Char} {t : Token} {ts : List Token} (h : Inside cs value)
    (hscan : Token.scan (.ofChars ('"' :: (cs ++ '"' :: rest))) = .ok (t :: ts)) :
    t.literal = .text (String.ofList value) := by
  have hread : Token.readLexeme none '"' (cs ++ '"' :: rest) =
      .ok ⟨.string, '"' :: cs ++ ['"'], .text (String.ofList value), rest⟩ := by
    unfold Token.readLexeme
    rw [if_pos rfl, Token.stringBody_of_inside h]
    simp
  exact (Token.exists_of_scan hscan (Text.chars_ofChars _)
    ⟨rfl, fun hslash => absurd hslash (by decide)⟩ hread).2

theorem bracedBody?_of_open {cs : List Char} {d d' : Nat} (h : bracesAfter false d cs = some d') (body : List Char) :
    Template.bracedBody? d body cs = none := by
  have hall := bracedBody?_of_neat h body []
  rw [List.append_nil] at hall
  rw [hall, Template.bracedBody?]

/-- The token before a template that is not closed is no string literal. -/
theorem not_stringAt_of_open {depth : Nat} {t : Token} {bits : List Bit} {code : List Char} {d : Nat} {e : Expr}
    (hbits : ∀ b ∈ bits, b.Writable) (hcode : bracesAfter false 0 code = some d)
    (ht : t.literal = .text (String.ofList (bits.flatMap Bit.value ++ '$' :: '{' :: code))) :
    ¬ stringAt depth t e := by
  intro he
  have hunclosed : Template.pieces (bits.flatMap Bit.value ++ '$' :: '{' :: code) =
      bits.map Bit.piece ++ [.unclosed] := by
    rw [Template.pieces, piecesFrom_bits hbits, Template.piecesFrom, if_pos rfl, if_pos rfl]
    split
    · simp
    · rename_i hsome
      rw [bracedBody?_of_open hcode] at hsome
      cases hsome
  refine unclosed_notMem_of_joinPieces he ?_
  rw [ht, Token.Literal.toText, String.toList_ofList, hunclosed]
  simp

/-! ## Single tokens -/

section Single

variable {lit : Token → Expr → Prop} {E operand : Reading Expr} {t : Token} {e : Expr}

theorem lit_of_isPrimary (ht : t.kind = .string) (h : IsPrimary lit E [t] e) : lit t e := by
  generalize hts : [t] = ts at h
  -- Every other form has a token of another kind.
  have hmem : ∀ u ∈ ts, u.kind = .string := by
    subst hts
    simpa using ht
  cases h with
  | string _ he =>
    cases hts
    exact he
  | int hk => simp [hk] at hmem
  | true hk => simp [hk] at hmem
  | false hk => simp [hk] at hmem
  | parens hk _ _ _ _ => simp [hk] at hmem
  | before hop _ => exact absurd (hmem _ (by simp)) (ne_string_of_step hop)
  | after _ hop => exact absurd (hmem _ (by simp)) (ne_string_of_step hop)
  | read h => cases h with
    | name hk => simp [hk] at hmem
    | element hk _ _ _ _ _ => simp [hk] at hmem
  | call h => cases h with
    | mk hk _ _ => simp [hk] at hmem
  | lambda h => cases h with
    | thunk hk _ _ _ => simp [hk] at hmem
    | mk hk _ _ _ _ _ => simp [hk] at hmem
  | collection _ hk _ _ _ _ => simp [hk] at hmem
  | sized _ hk _ _ _ _ _ _ _ => simp [hk] at hmem
  | trailing _ hk _ _ _ _ _ => simp [hk] at hmem

theorem operand_of_chain {kinds : List Kind} {make : Mark → String → Expr → Expr → Expr}
    (hstarts : ∀ us x, operand us x → StartsWith startsExpr us) (h : Chain kinds make operand [t] e) :
    operand [t] e := by
  generalize hts : [t] = ts at h
  cases h with
  | one h => exact h
  | more hl _ _ _ =>
    obtain ⟨u, us, rfl, -⟩ := startsWith_of_chain hstarts hl
    simp at hts

theorem operand_of_logical (hstarts : ∀ us x, operand us x → StartsWith startsExpr us)
    (h : IsLogical operand [t] e) : operand [t] e := by
  have hproduct : ∀ us x, IsProduct operand us x → StartsWith startsExpr us :=
    fun _ _ => startsWith_of_chain hstarts
  have hsum : ∀ us x, IsSum operand us x → StartsWith startsExpr us :=
    fun _ _ => startsWith_of_chain hproduct
  have hcomparison : ∀ us x, IsComparison operand us x → StartsWith startsExpr us := by
    rintro _ _ (h | ⟨hl, _, _, _⟩)
    · exact hsum _ _ h
    · exact (hsum _ _ hl).append _
  have hone := operand_of_chain hcomparison h
  generalize hts : [t] = ts at hone
  cases hone with
  | one h =>
    subst hts
    exact operand_of_chain hstarts (operand_of_chain hproduct h)
  | two hl _ _ _ =>
    obtain ⟨u, us, rfl, -⟩ := hsum _ _ hl
    simp at hts

theorem lit_of_isUnary {n : Nat} (ht : t.kind = .string) (h : IsUnary lit n [t] e) : lit t e := by
  cases n with
  | zero => exact lit_of_isPrimary ht h
  | succ n =>
    obtain h | ⟨bang, us, x, hbang, -, hts, -⟩ := h
    · exact lit_of_isPrimary ht h
    · cases hts
      exact absurd (ht.symm.trans hbang) (by decide)

/-- A string token that is parsed on its own is parsed as its literal. -/
theorem stringAt_of_parse (ht : t.kind = .string) (h : Expr.parse [t] = .ok e) :
    stringAt (templateDepth [t]) t e := by
  have hwhole := Expr.parse_eq_ok_iff.mp h
  generalize hts : [t] = ts at hwhole
  cases hwhole with
  | @mk g us g' e hg he hg' =>
    have hmem : ∀ u ∈ g ++ (us ++ g'), u.kind = .string := by
      rw [← hts]
      simpa using ht
    have hnil {g : List Token} (hg : LineEnds g) (hmem : ∀ u ∈ g, u.kind = .string) : g = [] :=
      List.eq_nil_iff_forall_not_mem.mpr fun u hu => absurd ((hg u hu).symm.trans (hmem u hu)) (by decide)
    obtain rfl := hnil hg fun u hu => hmem u (by simp [hu])
    obtain rfl := hnil hg' fun u hu => hmem u (by simp [hu])
    rw [List.nil_append, List.append_nil] at hts
    subst hts
    exact lit_of_isUnary ht (operand_of_logical (fun _ _ => startsWith_of_isUnary) he)

end Single

/-! ## Literals that are written and read again -/

/-- A template is written neatly, or there is a string among its tokens. -/
theorem tells_template {depth : Nat} {t : Token} {code : List Char} {x : Expr}
    (h : templateWithin depth t code = .ok x) : ∃ inner, Token.scan code = .ok inner ∧
      NeatOrBroken (Stringless inner) x.format.toList := by
  obtain ⟨inner, n, -, hscan, hwhole⟩ := of_templateWithin h
  have hlegible : ∀ u ∈ inner, Legible (fun _ => True) u := legible_of_scan hscan fun _ _ _ => trivial
  refine ⟨inner, hscan, ?_⟩
  cases hwhole with
  | mk hg he hg' =>
    refine (tells_expr (fun u e _ he => ?_) maxDepth (fun u hu => hlegible u (by simp [hu])) he).mono fun hus => by
      simp [hus, stringless_of_lineEnds hg, stringless_of_lineEnds hg']
    obtain ⟨bits, rfl, -⟩ := bits_of_joinPieces he
    simpa [Expr.format, String.toList_append] using broken_quote _

/-- Templates at one place whose expressions look the same. -/
inductive SameSplice : Splice → Splice → Prop where
  | mk (offset : Int) {e e' : Expr} (h : Alike e e') : SameSplice (.mk offset e) (.mk offset e')

theorem sameSplices_of_like {bits bits' : List Bit} (h : List.Forall₂ Bit.Like bits bits') (n : Nat) :
    List.Forall₂ SameSplice (Bit.splices n bits) (Bit.splices n bits') := by
  induction h generalizing n with
  | nil => exact .nil
  | cons hb _ ih =>
    cases hb with
    | char c => exact ih (n + 1)
    | code halike => exact .cons (.mk n halike) (ih n)

/-- The string literal is written as a single string token, and that is parsed as a literal of its text
with templates like its own at their places. -/
def Survives (e : Expr) : Prop :=
  ∃ m text splices tok splices', e = .str m text splices ∧ Token.scan e.format.toList = .ok [tok] ∧
    tok.kind = .string ∧ Expr.parse [tok] = .ok (.str (.ofToken tok) text splices') ∧
      List.Forall₂ SameSplice splices splices'

theorem survives_of_plainTemplates {depth : Nat} {t : Token} {e : Expr} (he : stringAt depth t e)
    (hplain : PlainTemplates t) : Survives e := by
  obtain ⟨bits, rfl, hwritable, hrenders⟩ := bits_of_stringAt hplain he
  obtain ⟨_, ⟨tok, rfl, hkind, hliteral⟩, hscan⟩ := (writes_string (inside_bits hwritable)).scan
  obtain ⟨depth', hdepth⟩ : ∃ n, templateDepth [tok] = n + 1 :=
    ⟨max 1 tok.literal.toText.length - 1, by simp only [templateDepth, List.foldl_cons, List.foldl_nil]; omega⟩
  obtain ⟨bits', hlike, hread⟩ := stringAt_bits hwritable (hrenders (stringAt depth')) hliteral
  refine ⟨_, _, _, tok, _, rfl, ?_, hkind, parse_of_stringAt hkind (hdepth ▸ hread), sameSplices_of_like hlike 0⟩
  rw [format_bits, hscan]

theorem plainTemplates_of_survives {depth : Nat} {t : Token} {e : Expr} (he : stringAt depth t e)
    (h : Survives e) : PlainTemplates t := by
  obtain ⟨bits, rfl, hchars, hcodes, hread⟩ := bits_of_joinPieces he
  have htells (x : Expr) (hx : .code x ∈ bits) : ∃ ts, NeatOrBroken (Stringless ts) x.format.toList := by
    obtain ⟨code, -, hcode⟩ := hcodes x hx
    obtain ⟨ts, -, htells⟩ := tells_template hcode
    exact ⟨ts, htells⟩
  have hbits : ∀ b ∈ bits, b.Writable ∨ ∃ x, b = .code x ∧ Broken x.format.toList := by
    intro b hb
    cases b with
    | char c => exact .inl (hchars c hb)
    | code x =>
      obtain ⟨ts, hneat | hbroken⟩ := htells x hb
      · exact .inl ‹_›
      · exact .inr ⟨x, rfl, hbroken⟩
  obtain hall | ⟨before, x, after, rfl, hbefore, pre, post, hx, hpre⟩ := exists_first_broken hbits
  · intro code hcode ts hscan
    obtain ⟨x, hx, hcode⟩ := hread code hcode
    obtain ⟨ts', hscan', hneat | hbroken⟩ := tells_template hcode
    · obtain rfl : ts = ts' := Except.ok.inj (hscan.symm.trans hscan')
      assumption
    · exact absurd (hall _ hx) hbroken.not_neat
  · -- The first quote of that template ends the string that is scanned.
    exfalso
    obtain ⟨m, text, splices, tok, splices', -, hscan, hkind, hparse, -⟩ := h
    obtain ⟨d, hd⟩ := hpre 0
    have hinside : Inside (before.flatMap Bit.written ++ '$' :: '{' :: pre)
        (before.flatMap Bit.value ++ '$' :: '{' :: pre) :=
      (inside_bits hbefore).append (.plain (by decide) (by decide) (.plain (by decide) (by decide)
        (inside_of_plain fun c hc => not_special_of_bracesAfter hd hc)))
    have htext : (before ++ .code x :: after).flatMap Bit.written ++ ['"'] =
        (before.flatMap Bit.written ++ '$' :: '{' :: pre) ++ '"' ::
          (post ++ '}' :: (after.flatMap Bit.written ++ ['"'])) := by
      simp [Bit.written, Bit.braced, hx]
    simp only [List.reverse_nil, List.map_nil, List.nil_append] at hscan
    rw [format_bits, htext] at hscan
    have hliteral := literal_of_scan_string hinside hscan
    exact not_stringAt_of_open hbefore hd hliteral (stringAt_of_parse hkind hparse)

end Written

open Written

/-- A string literal survives exactly if no template of its token holds a string. The tokens of a text
and those of its templates are read in contexts of one depth or another. -/
theorem Parse.survives_iff {eof tok : Token} {limit depth : Nat} {ts ts' : List Token} {e : Expr}
    (h : stringLiteral tok ⟨eof, limit, templateWithin depth⟩ ts = .ok (e, ts')) :
    Survives e ↔ PlainTemplates tok := by
  have he : Grammar.stringAt depth tok e := (of_stringLiteral h).2
  exact ⟨plainTemplates_of_survives he, survives_of_plainTemplates he⟩

/-- A literal with a sum and an escaped quote survives. -/
theorem Parse.survives_sum : ∃ tok e, Token.scan "\"\\\"x\\\" + 1 = $\x7bx + 1\x7d\"" = .ok [tok] ∧
    stringLiteral tok (contextOf [tok]) [] = .ok (e, []) ∧ Survives e := by
  have hread : (stringOf? "\"\\\"x\\\" + 1 = $\x7bx + 1\x7d\"").any (fun p => PlainTemplates p.1) := by
    decide +kernel
  obtain ⟨⟨tok, e⟩, hp, hplain⟩ := (Option.any_eq_true _ _).mp hread
  obtain ⟨hscan, he⟩ := of_stringOf? hp
  exact ⟨tok, e, hscan, he, (survives_iff he).mpr (of_decide_eq_true hplain)⟩

/-- A literal is lost if a string stands in its template. -/
theorem Parse.nested_string_lost : ∃ tok e, Token.scan "\"$\x7b\\\"a\\\"\x7d\"" = .ok [tok] ∧
    stringLiteral tok (contextOf [tok]) [] = .ok (e, []) ∧ ¬ Survives e := by
  have hread : (stringOf? "\"$\x7b\\\"a\\\"\x7d\"").any (fun p => ¬ PlainTemplates p.1) := by
    decide +kernel
  obtain ⟨⟨tok, e⟩, hp, hnested⟩ := (Option.any_eq_true _ _).mp hread
  obtain ⟨hscan, he⟩ := of_stringOf? hp
  exact ⟨tok, e, hscan, he, fun h =>
    of_decide_eq_true hnested (plainTemplates_of_survives (of_stringLiteral he).2 h)⟩

end Kotlet

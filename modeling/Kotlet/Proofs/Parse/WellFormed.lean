import Kotlet.Parse.Stmt
import Kotlet.Proofs.Ends
import Kotlet.Proofs.Syntax.WellFormed
import Kotlet.Proofs.Token.Spelling

/-!
# What is parsed is well-formed

* `Parse.Gives` : a rule, run on spelled tokens, gives only results of a kind and leaves spelled
  tokens;
* `Gives.bind` and its kin : rules that are put together;
* one lemma for each rule of the grammar, from tokens and types to statements;
* `Program.wellFormed_of_parse` : a program that comes out of a scanned text is well-formed.
-/

namespace Kotlet

open Token (Spelled)

namespace Parse

/-- All tokens are spelled as their kinds say. -/
def AllSpelled (ts : List Token) : Prop := ∀ t ∈ ts, Spelled t

/-- What rules may rely on: the end is a token like others, and templates are well-formed. -/
structure Context.Sound (ctx : Context) : Prop where
  eof : Spelled ctx.eof
  template : ∀ tok text e, ctx.template tok text = .ok e → e.WellFormed

/-- On spelled tokens the rule gives only results in `P`, and leaves spelled tokens. -/
def Gives {α : Type} (x : Parser α) (P : α → Prop) : Prop :=
  ∀ ctx ts, ctx.Sound → AllSpelled ts →
    Ends x ctx ts (fun _ => True) fun a rest => P a ∧ AllSpelled rest

/-! ## Rules put together -/

section Rules

variable {α β : Type} {x : Parser α} {P P' : α → Prop} {Q : β → Prop}

theorem Gives.bind {f : α → Parser β} (h : Gives x P) (hf : ∀ a, P a → Gives (f a) Q) :
    Gives (x >>= f) Q := by
  intro ctx ts hc hs
  rw [ends_bind]
  exact (h ctx ts hc hs).mono fun a rest ha => hf a ha.1 ctx rest hc ha.2

theorem Gives.pure {a : α} (h : P a) : Gives (pure a) P := fun _ _ _ hs => ⟨h, hs⟩

theorem Gives.map {f : α → β} (h : Gives x P) (hf : ∀ a, P a → Q (f a)) : Gives (f <$> x) Q := by
  intro ctx ts hc hs
  rw [ends_map]
  exact (h ctx ts hc hs).mono fun a _ ha => ⟨hf a ha.1, ha.2⟩

theorem Gives.ite {c : Prop} [Decidable c] {y : Parser α} (hx : c → Gives x P)
    (hy : ¬ c → Gives y P) : Gives (if c then x else y) P := by
  by_cases h : c
  · rw [if_pos h]; exact hx h
  · rw [if_neg h]; exact hy h

theorem gives_throw (d : Diagnostic) : Gives (throw d : Parser α) P := fun _ _ _ _ => trivial

theorem gives_failAt (e : ParseError) (t : Token) : Gives (failAt e t : Parser α) P := gives_throw _

theorem gives_read : Gives (read : Parser Context) Context.Sound := fun _ _ hc hs => ⟨hc, hs⟩

theorem gives_get : Gives (get : Parser (List Token)) AllSpelled := fun _ _ _ hs => ⟨hs, hs⟩

theorem gives_set {ts : List Token} (h : AllSpelled ts) :
    Gives (set ts : Parser PUnit) fun _ => True := fun _ _ _ _ => ⟨trivial, h⟩

theorem gives_modify {f : List Token → List Token} (hf : ∀ ts, AllSpelled ts → AllSpelled (f ts)) :
    Gives (modify f : Parser PUnit) fun _ => True := fun _ ts _ hs => ⟨trivial, hf ts hs⟩

end Rules

/-! ## Tokens -/

theorem AllSpelled.tail {ts : List Token} (h : AllSpelled ts) : AllSpelled ts.tail :=
  fun t ht => h t (List.mem_of_mem_tail ht)

theorem AllSpelled.dropWhile {ts : List Token} (h : AllSpelled ts) (p : Token → Bool) :
    AllSpelled (ts.dropWhile p) :=
  fun t ht => h t (List.dropWhile_suffix p |>.subset ht)

theorem AllSpelled.getD {ts : List Token} (h : AllSpelled ts) {t : Token} (ht : Spelled t)
    (i : Nat) : Spelled (ts[i]?.getD t) := by
  cases hi : ts[i]? with
  | none => exact ht
  | some u => exact h u (List.mem_of_getElem? hi)

theorem gives_peek : Gives peek Spelled := by
  refine gives_get.bind fun ts hs => gives_read.bind fun ctx hc => .pure ?_
  rw [List.head?_eq_getElem?]
  exact hs.getD hc.eof 0

theorem gives_peekSecond : Gives peekSecond Spelled :=
  gives_get.bind fun _ hs => gives_read.bind fun _ hc => .pure (hs.getD hc.eof 1)

theorem gives_atEnd : Gives atEnd fun _ => True := gives_get.bind fun _ _ => .pure trivial

theorem gives_nextIs (k : Token.Kind) : Gives (nextIs k) fun _ => True :=
  gives_peek.bind fun _ _ => .pure trivial

theorem gives_advance : Gives advance Spelled :=
  gives_peek.bind fun _ ht => (gives_modify fun _ hs => hs.tail).bind fun _ _ => .pure ht

theorem gives_accept? (kinds : List Token.Kind) :
    Gives (accept? kinds) fun o => ∀ t, o = some t → Spelled t ∧ t.kind ∈ kinds := by
  refine gives_peek.bind fun t ht => Gives.ite (fun hk => ?_) fun _ => .pure (by simp)
  refine (gives_modify fun _ hs => hs.tail).bind fun _ _ => .pure ?_
  rintro _ ⟨⟩
  exact ⟨ht, by simpa using hk⟩

theorem gives_accept (k : Token.Kind) : Gives (accept k) fun _ => True :=
  (gives_accept? [k]).bind fun _ _ => .pure trivial

theorem gives_fail {α : Type} {P : α → Prop} (e : ParseError) : Gives (fail e : Parser α) P :=
  gives_peek.bind fun _ _ => gives_failAt _ _

theorem gives_expect (k : Token.Kind) (what : String) :
    Gives (expect k what) fun t => Spelled t ∧ t.kind = k := by
  refine (gives_accept? [k]).bind fun o ho => ?_
  cases o with
  | none => exact gives_fail _
  | some t => exact .pure ⟨(ho t rfl).1, by simpa using (ho t rfl).2⟩

theorem gives_skipNewlines : Gives skipNewlines fun _ => True :=
  gives_modify fun _ hs => hs.dropWhile _

theorem gives_skipSeparators : Gives skipSeparators fun _ => True :=
  gives_modify fun _ hs => hs.dropWhile _

theorem gives_ident (what : String) : Gives (ident what) fun id => IsWord id.name :=
  (gives_expect .ident what).bind fun _ ht => .pure (ht.1.word ht.2)

theorem gives_acceptElse : Gives acceptElse fun _ => True := by
  refine gives_get.bind fun before hb => gives_skipNewlines.bind fun _ _ => ?_
  refine (gives_accept _).bind fun _ _ => Gives.ite (fun _ => .pure trivial) fun _ => ?_
  exact (gives_set hb).bind fun _ _ => .pure trivial

/-! ## Types and parameters -/

theorem scalar?_known {k : Token.Kind} {s : Scalar} (h : scalar? k = some s) : s ≠ .unknown := by
  unfold scalar? at h
  split at h <;> cases h <;> decide

theorem gives_elementType : Gives elementType Scalar.isElement := by
  refine gives_peek.bind fun t _ => ?_
  cases hs : (scalar? t.kind).filter (· ≠ .unit) with
  | none => exact gives_fail _
  | some s =>
    rw [Option.filter_eq_some_iff] at hs
    exact gives_advance.bind fun _ _ => .pure ⟨by simpa using hs.2, scalar?_known hs.1⟩

theorem gives_closeTypeArgument : Gives closeTypeArgument fun _ => True := by
  have hclose : Gives (do let _ ← expect .gt "'>'") fun _ => True :=
    (gives_expect _ _).bind fun _ _ => .pure trivial
  refine gives_peek.bind fun t _ => Gives.ite (fun _ => ?_) fun _ => hclose
  refine (gives_modify fun ts hs => ?_).bind fun _ _ => hclose
  intro u hu
  rcases List.mem_cons.mp hu with rfl | hu
  · exact Token.spelled_plain (k := .gt) (by decide)
  · rcases List.mem_cons.mp hu with rfl | hu
    · exact Token.spelled_of_kind rfl nofun
    · exact hs.tail u hu

theorem gives_typesAfter {type : Parser Ty} (h : Gives type Ty.Complete) (turns : Nat) :
    ∀ acc, Ty.AllComplete acc → Gives (typesAfter type turns acc) Ty.AllComplete := by
  induction turns with
  | zero =>
    intro acc hacc
    exact .pure (by simpa [Ty.allComplete_iff] using hacc)
  | succ turns ih =>
    intro acc hacc
    refine h.bind fun t ht => (gives_accept _).bind fun b _ => Gives.ite (fun _ => ?_) fun _ => ?_
    · exact ih (t :: acc) ⟨ht, hacc⟩
    · refine .pure ?_
      rw [Ty.allComplete_iff] at hacc ⊢
      simpa [or_imp, forall_and] using ⟨hacc, ht⟩

theorem gives_typeWithin (depth : Nat) : Gives (typeWithin depth) Ty.Complete := by
  induction depth with
  | zero => exact gives_fail _
  | succ depth ih =>
    refine gives_peek.bind fun t _ => ?_
    extract_lets kind rest
    cases hs : scalar? kind with
    | some s => exact gives_advance.bind fun _ _ => .pure (scalar?_known hs)
    | none =>
      refine Gives.ite (fun _ => ?_) fun _ => Gives.ite (fun _ => ?_) fun _ => gives_fail _
      · refine gives_advance.bind fun _ _ => (gives_expect _ _).bind fun _ _ => ?_
        refine gives_elementType.bind fun s he => gives_closeTypeArgument.bind fun _ _ => .pure ?_
        split
        · exact he
        · exact he
      · refine gives_advance.bind fun _ _ => (gives_nextIs _).bind fun _ _ => ?_
        have hrest : ∀ params, Ty.AllComplete params → Gives (rest params) Ty.Complete := by
          intro params hps
          refine (gives_expect _ _).bind fun _ _ => (gives_expect _ _).bind fun _ _ => ?_
          exact ih.bind fun result hr => .pure ⟨hps, hr⟩
        refine Gives.ite (fun _ => (Gives.pure trivial).bind hrest) fun _ => ?_
        exact gives_read.bind fun _ _ => (gives_typesAfter ih _ [] trivial).bind hrest

theorem gives_type : Gives type Ty.Complete := gives_read.bind fun _ _ => gives_typeWithin _

theorem gives_parameter (required : Bool) : Gives (parameter required) fun p =>
    p.Complete ∧ (required = true → p.ty ≠ none) := by
  refine (gives_ident _).bind fun name _ => (gives_accept _).bind fun b _ => ?_
  refine Gives.ite (fun _ => ?_) fun _ => Gives.ite (fun _ => ?_) fun hr => ?_
  · refine gives_type.bind fun t ht => .pure ⟨?_, fun _ => by simp⟩
    rintro _ ⟨⟩
    exact ht
  · exact (gives_fail _ (P := fun _ => False)).bind fun _ h => h.elim
  · exact .pure ⟨by simp [Param.Complete], fun h => absurd h hr⟩

theorem gives_checkParams (ps : List Param) : Gives (checkParams ps) fun _ => True := by
  unfold checkParams
  split
  · exact gives_failAt _ _
  · exact .pure trivial

theorem gives_lambdaParams (turns : Nat) : ∀ acc : List Param, (∀ p ∈ acc, p.Complete) →
    Gives (lambdaParams turns acc) fun ps => ∀ p ∈ ps, p.Complete := by
  induction turns with
  | zero => exact fun acc hacc => .pure (by simpa using hacc)
  | succ turns ih =>
    intro acc hacc
    refine (gives_parameter _).bind fun p hp => (gives_accept _).bind fun _ _ => ?_
    have hcons : ∀ q ∈ p :: acc, q.Complete := by simpa using ⟨hp.1, hacc⟩
    refine Gives.ite (fun _ => ?_) fun _ => .pure fun q hq => hcons q (List.mem_reverse.mp hq)
    exact gives_skipNewlines.bind fun _ _ => ih (p :: acc) hcons

/-! ## String literals -/

/-- The templates before a place stand in order in the text before it. -/
theorem wellFormed_of_joinPieces {template : List Char → Except Diagnostic Expr} {tok : Token}
    (ht : ∀ code e, template code = .ok e → e.WellFormed) {pieces : List Template.Piece} :
    ∀ {text : List Char} {size : Nat} {s : List Splice} {e : Expr}, size = text.length →
      Splice.WellFormed size 0 s.reverse →
      joinPieces template tok text size s pieces = .ok e → e.WellFormed := by
  induction pieces with
  | nil =>
    rintro text size splices _ rfl hs ⟨⟩
    simpa [Expr.WellFormed] using hs
  | cons p rest ih =>
    intro text size splices e hsize hs h
    cases p with
    | char c => exact ih (by simp [hsize]) (Splice.wellFormed_grow hs) h
    | unclosed => cases h
    | code code =>
      unfold joinPieces at h
      split at h
      · cases h
      · rename_i e' he'
        refine ih hsize ?_ h
        rw [List.reverse_cons]
        exact Splice.wellFormed_snoc hs (Nat.zero_le _) (ht code e' he')

theorem gives_stringLiteral (tok : Token) : Gives (stringLiteral tok) Expr.WellFormed := by
  refine gives_read.bind fun ctx hc => ?_
  extract_lets template
  split
  · rename_i e he
    exact .pure (wellFormed_of_joinPieces (s := []) (hc.template tok) rfl trivial he)
  · exact gives_throw _

/-! ## Primary expressions -/

section Primary

variable {expr : Parser Expr} (he : Gives expr Expr.WellFormed)
include he

theorem gives_target : Gives (target expr) Target.WellFormed := by
  refine (gives_ident _).bind fun base _ => (gives_nextIs _).bind fun _ _ => ?_
  refine Gives.ite (fun _ => ?_) fun _ => .pure trivial
  refine gives_advance.bind fun _ _ => gives_skipNewlines.bind fun _ _ => ?_
  refine he.bind fun index hi => gives_skipNewlines.bind fun _ _ => ?_
  exact (gives_expect _ _).bind fun _ _ => .pure hi

theorem gives_argumentsAfter (turns : Nat) : ∀ acc, Expr.AllWellFormed acc →
    Gives (argumentsAfter expr turns acc) Expr.AllWellFormed := by
  induction turns with
  | zero =>
    intro acc hacc
    exact .pure (by simpa [Expr.allWellFormed_iff] using hacc)
  | succ turns ih =>
    intro acc hacc
    refine he.bind fun e hw => gives_skipNewlines.bind fun _ _ => (gives_accept _).bind fun _ _ => ?_
    refine Gives.ite (fun _ => ?_) fun _ => (gives_expect _ _).bind fun _ _ => .pure ?_
    · exact gives_skipNewlines.bind fun _ _ => ih (e :: acc) ⟨hw, hacc⟩
    · rw [Expr.allWellFormed_iff] at hacc ⊢
      simpa [or_imp, forall_and] using ⟨hacc, hw⟩

theorem gives_arguments : Gives (arguments expr) Expr.AllWellFormed := by
  refine gives_skipNewlines.bind fun _ _ => (gives_accept _).bind fun _ _ => ?_
  refine Gives.ite (fun _ => .pure trivial) fun _ => gives_read.bind fun _ _ => ?_
  exact gives_argumentsAfter he _ [] trivial

theorem gives_call : Gives (call expr) Call.WellFormed := by
  refine (gives_ident _).bind fun _ _ => (gives_expect _ _).bind fun _ _ => ?_
  exact (gives_arguments he).bind fun _ hargs => .pure hargs

theorem gives_prefixed : Gives (prefixed expr) IncDec.WellFormed :=
  gives_advance.bind fun _ _ => (gives_target he).bind fun _ ht => .pure ht

theorem gives_named : Gives (named expr) Expr.WellFormed := by
  refine gives_peekSecond.bind fun _ _ => Gives.ite (fun _ => ?_) fun _ => ?_
  · exact (gives_call he).bind fun _ hc => .pure hc
  · refine (gives_target he).bind fun t ht => (gives_accept? _).bind fun o _ => ?_
    cases o with
    | none => exact .pure ht
    | some op => exact .pure ht

theorem gives_lambda : Gives (lambda expr) Lambda.WellFormed := by
  refine gives_advance.bind fun _ _ => gives_skipNewlines.bind fun _ _ => ?_
  refine (gives_accept _).bind fun _ _ => ?_
  extract_lets rest
  have hrest : ∀ ps : List Param, (∀ p ∈ ps, p.Complete) → Gives (rest ps) Lambda.WellFormed := by
    intro ps hps
    refine (gives_checkParams ps).bind fun _ _ => gives_skipNewlines.bind fun _ _ => ?_
    refine he.bind fun body hb => gives_skipNewlines.bind fun _ _ => ?_
    exact (gives_expect _ _).bind fun _ _ => .pure ⟨hps, hb⟩
  refine Gives.ite (fun _ => (Gives.pure (by simp)).bind hrest) fun _ => ?_
  refine gives_read.bind fun _ _ => (gives_lambdaParams _ [] (by simp)).bind fun ps hps => ?_
  exact (gives_expect _ _).bind fun _ _ => (Gives.pure hps).bind hrest

theorem gives_collectionLiteral (kind : CollectionKind) :
    Gives (collectionLiteral kind expr) Expr.WellFormed := by
  refine gives_advance.bind fun _ _ => (gives_expect _ _).bind fun _ _ => ?_
  refine gives_skipNewlines.bind fun _ _ => (gives_nextIs _).bind fun _ _ => ?_
  refine Gives.ite (fun _ => ?_) fun _ => ?_
  · exact (gives_failAt _ _ (P := fun _ => False)).bind fun _ h => h.elim
  · exact (gives_arguments he).bind fun _ hargs => .pure hargs

theorem gives_generator : Gives (generator expr) Lambda.WellFormed :=
  (gives_nextIs _).bind fun _ _ => Gives.ite (fun _ => gives_lambda he) fun _ => gives_fail _

theorem gives_sizedConstructor (kind : CollectionKind) :
    Gives (sizedConstructor kind expr) Expr.WellFormed := by
  refine gives_advance.bind fun _ _ => (gives_expect _ _).bind fun _ _ => ?_
  refine gives_skipNewlines.bind fun _ _ => he.bind fun size hs => ?_
  refine gives_skipNewlines.bind fun _ _ => (gives_accept _).bind fun _ _ => ?_
  refine Gives.ite (fun _ => ?_) fun _ => ?_
  · refine gives_skipNewlines.bind fun _ _ => (gives_generator he).bind fun gen hg => ?_
    exact gives_skipNewlines.bind fun _ _ => (gives_expect _ _).bind fun _ _ => .pure ⟨hs, hg⟩
  · refine (gives_expect _ _).bind fun _ _ => (gives_generator he).bind fun gen hg => ?_
    exact .pure ⟨hs, hg⟩

theorem gives_parenthesized : Gives (parenthesized expr) Expr.WellFormed := by
  refine gives_advance.bind fun _ _ => gives_skipNewlines.bind fun _ _ => he.bind fun e hw => ?_
  exact gives_skipNewlines.bind fun _ _ => (gives_expect _ _).bind fun _ _ => .pure hw

theorem gives_primary : Gives (primary expr) Expr.WellFormed := by
  refine gives_peek.bind fun tok _ => ?_
  split
  · refine gives_advance.bind fun _ _ => ?_
    split
    · exact .pure trivial
    · exact .pure trivial
  · exact gives_advance.bind fun _ _ => .pure trivial
  · exact gives_advance.bind fun _ _ => .pure trivial
  · exact gives_advance.bind fun _ _ => gives_stringLiteral tok
  · exact gives_parenthesized he
  · exact (gives_prefixed he).bind fun _ h => .pure h
  · exact (gives_prefixed he).bind fun _ h => .pure h
  · exact gives_named he
  · exact (gives_lambda he).bind fun _ h => .pure h
  · exact gives_collectionLiteral he .array
  · exact gives_collectionLiteral he .list
  · exact gives_sizedConstructor he .array
  · exact gives_sizedConstructor he .list
  · exact gives_fail _

end Primary

/-! ## Operators -/

theorem gives_chainAfter {kinds : List Token.Kind} {make : Mark → String → Expr → Expr → Expr}
    {operand : Parser Expr} (ho : Gives operand Expr.WellFormed)
    (hmake : ∀ t, Spelled t → t.kind ∈ kinds → ∀ l r : Expr, l.WellFormed → r.WellFormed →
      (make (.ofToken t) t.shown l r).WellFormed) (turns : Nat) :
    ∀ left, left.WellFormed → Gives (chainAfter kinds make operand turns left) Expr.WellFormed := by
  induction turns with
  | zero => exact fun left hl => .pure hl
  | succ turns ih =>
    intro left hl
    refine (gives_accept? kinds).bind fun o hop => ?_
    cases o with
    | none => exact .pure hl
    | some op =>
      refine gives_skipNewlines.bind fun _ _ => ho.bind fun right hr => ih _ ?_
      exact hmake op (hop op rfl).1 (hop op rfl).2 left right hl hr

theorem gives_chain {kinds : List Token.Kind} {make : Mark → String → Expr → Expr → Expr}
    {operand : Parser Expr} (ho : Gives operand Expr.WellFormed)
    (hmake : ∀ t, Spelled t → t.kind ∈ kinds → ∀ l r : Expr, l.WellFormed → r.WellFormed →
      (make (.ofToken t) t.shown l r).WellFormed) :
    Gives (chain kinds make operand) Expr.WellFormed :=
  ho.bind fun _ hf => gives_read.bind fun _ _ => gives_chainAfter ho hmake _ _ hf

/-- What holds of the spellings of some operators holds of a token of their kinds. -/
theorem spelled_kinds {P : String → Prop} {kinds : List Token.Kind}
    (h : ∀ k ∈ kinds, k.isOperator = true ∧ P k.text) {t : Token} (ht : Spelled t)
    (hk : t.kind ∈ kinds) : P t.shown := by
  rw [ht.operator (h _ hk).1]
  exact (h _ hk).2

section Operators

variable {unary : Parser Expr} (hu : Gives unary Expr.WellFormed)
include hu

theorem gives_multiplicative : Gives (multiplicative unary) Expr.WellFormed :=
  gives_chain hu fun _ ht hk _ _ hl hr => ⟨spelled_kinds
    (P := fun op => (ArithOp.ofText? op).isSome = true) (by decide) ht hk, hl, hr⟩

theorem gives_additive : Gives (additive unary) Expr.WellFormed :=
  gives_chain (gives_multiplicative hu) fun _ ht hk _ _ hl hr => ⟨spelled_kinds
    (P := fun op => (ArithOp.ofText? op).isSome = true) (by decide) ht hk, hl, hr⟩

theorem gives_comparison : Gives (comparison unary) Expr.WellFormed := by
  refine (gives_additive hu).bind fun left hl => (gives_accept? _).bind fun o hop => ?_
  cases o with
  | none => exact .pure hl
  | some op =>
    refine gives_skipNewlines.bind fun _ _ => (gives_additive hu).bind fun right hr => .pure ?_
    exact ⟨spelled_kinds (P := fun op => (CompareOp.ofText? op).isSome = true) (by decide)
      (hop op rfl).1 (hop op rfl).2, hl, hr⟩

theorem gives_logical : Gives (logical unary) Expr.WellFormed :=
  gives_chain (gives_comparison hu) fun _ ht hk _ _ hl hr => ⟨spelled_kinds
    (P := fun op => op = "&&" ∨ op = "||") (by decide) ht hk, hl, hr⟩

end Operators

theorem gives_unary (inner : Option (Parser Expr)) {expr : Parser Expr}
    (hi : ∀ rule, inner = some rule → Gives rule Expr.WellFormed)
    (he : Gives expr Expr.WellFormed) : Gives (unary inner expr) Expr.WellFormed := by
  refine (gives_accept? _).bind fun o _ => ?_
  cases o with
  | none => exact gives_primary he
  | some bang =>
    cases inner with
    | none => exact gives_failAt _ _
    | some rule => exact (hi rule rfl).bind fun _ h => .pure h

theorem gives_level (depth : Nat) :
    Gives (level depth).expr Expr.WellFormed ∧ Gives (level depth).unary Expr.WellFormed := by
  induction depth with
  | zero => exact ⟨gives_fail _, gives_unary none nofun (gives_fail _)⟩
  | succ depth ih =>
    have hexpr := gives_logical ih.2
    refine ⟨hexpr, gives_unary (some (level depth).unary) ?_ hexpr⟩
    rintro _ ⟨⟩
    exact ih.2

theorem gives_expr : Gives expr Expr.WellFormed := (gives_level maxDepth).1

theorem gives_wholeExpr : Gives wholeExpr Expr.WellFormed := by
  refine gives_skipNewlines.bind fun _ _ => gives_expr.bind fun e he => ?_
  refine gives_skipNewlines.bind fun _ _ => gives_atEnd.bind fun _ _ => ?_
  exact Gives.ite (fun _ => .pure he) fun _ => gives_fail _

/-! ## Templates -/

theorem spelled_endToken (ts : List Token) : Spelled (endToken ts) := by
  unfold endToken
  split <;> exact Token.spelled_of_kind rfl nofun

theorem sound_of_template {limit : Nat} {template : Token → List Char → Except Diagnostic Expr}
    (ts : List Token) (h : ∀ tok text e, template tok text = .ok e → e.WellFormed) :
    Context.Sound ⟨endToken ts, limit, template⟩ :=
  ⟨spelled_endToken ts, h⟩

theorem wellFormed_of_templateWithin (depth : Nat) {tok : Token} {text : List Char} {e : Expr}
    (h : templateWithin depth tok text = .ok e) : e.WellFormed := by
  induction depth generalizing tok text e with
  | zero => cases h
  | succ depth ih =>
    unfold templateWithin at h
    dsimp only at h
    split at h
    · cases h
    · rename_i tokens hscan
      split at h
      · cases h
      · rename_i e' rest hrun
        cases h
        have hctx : Context.Sound ⟨endToken tokens, tokens.length, templateWithin depth⟩ :=
          sound_of_template tokens fun _ _ _ => ih
        exact ((gives_wholeExpr _ tokens hctx (Token.spelled_of_scan hscan)).of_ok hrun).1

theorem sound_contextOf (ts : List Token) : (contextOf ts).Sound :=
  sound_of_template ts fun _ _ _ => wellFormed_of_templateWithin _

theorem of_run {α : Type} {rule : Parser α} {P : α → Prop} (hr : Gives rule P) {ts : List Token}
    (hs : AllSpelled ts) {a : α} (h : run rule ts = .ok a) : P a := by
  unfold run at h
  split at h
  · rename_i a' rest hrun
    cases h
    exact ((hr _ ts (sound_contextOf ts) hs).of_ok hrun).1
  · cases h

/-! ## Simple statements -/

theorem gives_some {α : Type} {x : Parser α} {P : α → Prop} (h : Gives x P) :
    Gives (some <$> x) fun o => ∀ a, o = some a → P a := by
  refine h.map fun a ha => ?_
  rintro _ ⟨⟩
  exact ha

theorem gives_declaration : Gives declaration Stmt.WellFormed := by
  refine gives_advance.bind fun tok _ => (gives_ident _).bind fun name _ => ?_
  refine (gives_accept _).bind fun _ _ => ?_
  extract_lets afterType
  have htype : ∀ ty : Option Ty, (∀ t, ty = some t → t.Complete) →
      Gives (afterType ty) Stmt.WellFormed := by
    intro ty hty
    refine (gives_accept _).bind fun _ _ => ?_
    extract_lets afterValue
    have hvalue : ∀ value, Expr.WellFormedOption value → Gives (afterValue value) Stmt.WellFormed :=
      fun _ hv => .pure ⟨hty, hv⟩
    refine Gives.ite (fun _ => ?_) fun _ => (Gives.pure (by simp [Expr.WellFormedOption])).bind hvalue
    exact gives_skipNewlines.bind fun _ _ => (gives_some gives_expr).bind hvalue
  refine Gives.ite (fun _ => ?_) fun _ => (Gives.pure (by simp)).bind htype
  exact (gives_some gives_type).bind htype

theorem gives_printing : Gives printing Stmt.WellFormed := by
  refine gives_advance.bind fun tok _ => ?_
  extract_lets newline
  refine (gives_expect _ _).bind fun _ _ => gives_skipNewlines.bind fun _ _ => ?_
  refine (gives_nextIs _).bind fun _ _ => Gives.ite (fun _ => ?_) fun _ => ?_
  · exact gives_advance.bind fun _ _ => .pure nofun
  · refine gives_expr.bind fun value hv => gives_skipNewlines.bind fun _ _ => ?_
    refine (gives_expect _ _).bind fun _ _ => .pure ?_
    rintro _ ⟨⟩
    exact hv

theorem gives_returning : Gives returning Stmt.WellFormed := by
  refine gives_advance.bind fun tok _ => gives_peek.bind fun t _ => ?_
  extract_lets kind
  refine gives_atEnd.bind fun _ _ => Gives.ite (fun _ => ?_) fun _ => ?_
  · exact .pure nofun
  · refine gives_expr.bind fun e he => .pure ?_
    rintro _ ⟨⟩
    exact he

theorem gives_namedStmt : Gives namedStmt Stmt.WellFormed := by
  refine gives_peek.bind fun first _ => gives_peekSecond.bind fun _ _ => ?_
  refine Gives.ite (fun _ => (gives_call gives_expr).bind fun _ hc => .pure hc) fun _ => ?_
  refine (gives_target gives_expr).bind fun t ht => gives_peek.bind fun tok htok => ?_
  have hcompound (hk : tok.kind ∈ [.plusAssign, .minusAssign, .timesAssign, .slashAssign]) :
      Gives (do
        let _ ← advance
        skipNewlines
        return Stmt.compound tok t tok.shown (← expr)) Stmt.WellFormed := by
    have hop := spelled_kinds (P := fun op => (ArithOp.ofText? (compoundOperator op)).isSome = true)
      (by decide) htok hk
    refine gives_advance.bind fun _ _ => gives_skipNewlines.bind fun _ _ => ?_
    exact gives_expr.bind fun e he => .pure ⟨hop, ht, he⟩
  split
  · refine gives_advance.bind fun _ _ => gives_skipNewlines.bind fun _ _ => ?_
    exact gives_expr.bind fun e he => .pure ⟨ht, he⟩
  · exact hcompound (by simp [*])
  · exact hcompound (by simp [*])
  · exact hcompound (by simp [*])
  · exact hcompound (by simp [*])
  · exact gives_advance.bind fun _ _ => .pure ht
  · exact gives_advance.bind fun _ _ => .pure ht
  · exact gives_fail _

theorem gives_condition : Gives condition Expr.WellFormed := by
  refine (gives_expect _ _).bind fun _ _ => gives_skipNewlines.bind fun _ _ => ?_
  refine gives_expr.bind fun e he => gives_skipNewlines.bind fun _ _ => ?_
  exact (gives_expect _ _).bind fun _ _ => .pure he

theorem gives_header : Gives header Header.WellFormed := by
  refine gives_expr.bind fun first hf => (gives_accept? _).bind fun o _ => ?_
  cases o with
  | none => exact .pure hf
  | some dots =>
    refine gives_expr.bind fun last hl => (gives_accept _).bind fun _ _ => ?_
    extract_lets rest
    have hrest : ∀ step, Expr.WellFormedOption step → Gives (rest step) Header.WellFormed :=
      fun _ hs => .pure ⟨hf, hl, hs⟩
    refine Gives.ite (fun _ => ?_) fun _ => (Gives.pure nofun).bind hrest
    exact (gives_some gives_expr).bind hrest

theorem gives_functionParams (turns : Nat) :
    ∀ acc : List Param, (∀ p ∈ acc, ∃ t, p.ty = some t ∧ t.Complete) →
      Gives (functionParams turns acc) fun ps => ∀ p ∈ ps, ∃ t, p.ty = some t ∧ t.Complete := by
  induction turns with
  | zero => exact fun acc hacc => .pure fun p hp => hacc p (List.mem_reverse.mp hp)
  | succ turns ih =>
    intro acc hacc
    refine (gives_nextIs _).bind fun _ _ => Gives.ite (fun _ => ?_) fun _ => ?_
    · exact .pure fun p hp => hacc p (List.mem_reverse.mp hp)
    · refine (gives_parameter true).bind fun p hp => gives_skipNewlines.bind fun _ _ => ?_
      have hcons : ∀ q ∈ p :: acc, ∃ t, q.ty = some t ∧ t.Complete := by
        intro q hq
        rcases List.mem_cons.mp hq with rfl | hq
        · obtain ⟨t, ht⟩ := Option.ne_none_iff_exists'.mp (hp.2 rfl)
          exact ⟨t, ht, hp.1 t ht⟩
        · exact hacc q hq
      refine (gives_accept _).bind fun _ _ => Gives.ite (fun _ => ?_) fun _ => .pure ?_
      · exact gives_skipNewlines.bind fun _ _ => ih (p :: acc) hcons
      · exact fun q hq => hcons q (List.mem_reverse.mp hq)

/-! ## Statements that hold others -/

section Nested

variable {stmt : Parser Stmt} (hs : Gives stmt Stmt.WellFormed)
include hs

theorem gives_stmtsAfter (turns : Nat) : ∀ acc, Stmt.AllWellFormed acc →
    Gives (stmtsAfter stmt turns acc) Stmt.AllWellFormed := by
  induction turns with
  | zero => exact fun acc hacc => .pure (by simpa [Stmt.allWellFormed_iff] using hacc)
  | succ turns ih =>
    intro acc hacc
    refine (gives_nextIs _).bind fun _ _ => Gives.ite (fun _ => ?_) fun _ => ?_
    · exact .pure (by simpa [Stmt.allWellFormed_iff] using hacc)
    refine gives_atEnd.bind fun _ _ => Gives.ite (fun _ => ?_) fun _ => ?_
    · exact (gives_fail _ (P := fun _ => False)).bind fun _ h => h.elim
    refine hs.bind fun s hw => (gives_nextIs _).bind fun _ _ => Gives.ite (fun _ => ?_) fun _ => ?_
    · refine .pure ?_
      rw [Stmt.allWellFormed_iff] at hacc ⊢
      simpa [or_imp, forall_and] using ⟨hacc, hw⟩
    refine gives_atEnd.bind fun _ _ => Gives.ite (fun _ => ?_) fun _ => ?_
    · exact (gives_fail _ (P := fun _ => False)).bind fun _ h => h.elim
    refine gives_peek.bind fun _ _ => Gives.ite (fun _ => ?_) fun _ => ?_
    · exact (gives_fail _ (P := fun _ => False)).bind fun _ h => h.elim
    · exact gives_skipSeparators.bind fun _ _ => ih (s :: acc) ⟨hw, hacc⟩

theorem gives_block : Gives (block stmt) Block.WellFormed := by
  refine (gives_expect _ _).bind fun _ _ => gives_skipSeparators.bind fun _ _ => ?_
  refine gives_read.bind fun _ _ => (gives_stmtsAfter hs _ [] trivial).bind fun ss hss => ?_
  exact gives_advance.bind fun _ _ => .pure hss

theorem gives_ifStmt : Gives (ifStmt stmt) Stmt.WellFormed := by
  refine gives_advance.bind fun tok _ => gives_condition.bind fun cond hc => ?_
  refine gives_skipNewlines.bind fun _ _ => (gives_block hs).bind fun thenB ht => ?_
  refine gives_acceptElse.bind fun _ _ => Gives.ite (fun _ => ?_) fun _ => .pure ⟨hc, ht, trivial⟩
  refine gives_skipNewlines.bind fun _ _ => (gives_nextIs _).bind fun _ _ => ?_
  refine Gives.ite (fun _ => ?_) fun _ => ?_
  · exact hs.bind fun nested hn => .pure ⟨hc, ht, hn, trivial⟩
  · exact (gives_block hs).bind fun elseB hb => .pure ⟨hc, ht, hb⟩

theorem gives_whileStmt : Gives (whileStmt stmt) Stmt.WellFormed := by
  refine gives_advance.bind fun tok _ => gives_condition.bind fun cond hc => ?_
  exact gives_skipNewlines.bind fun _ _ => (gives_block hs).bind fun body hb => .pure ⟨hc, hb⟩

theorem gives_forStmt : Gives (forStmt stmt) Stmt.WellFormed := by
  refine gives_advance.bind fun tok _ => (gives_expect _ _).bind fun _ _ => ?_
  refine (gives_ident _).bind fun x _ => (gives_expect _ _).bind fun _ _ => ?_
  refine gives_header.bind fun h hh => (gives_expect _ _).bind fun _ _ => ?_
  exact gives_skipNewlines.bind fun _ _ => (gives_block hs).bind fun body hb => .pure ⟨hh, hb⟩

theorem gives_functionStmt : Gives (functionStmt stmt) Stmt.WellFormed := by
  refine gives_advance.bind fun tok _ => (gives_ident _).bind fun name hn => ?_
  refine (gives_expect _ _).bind fun _ _ => gives_skipNewlines.bind fun _ _ => ?_
  refine gives_read.bind fun _ _ => (gives_functionParams _ [] (by simp)).bind fun ps hps => ?_
  refine (gives_expect _ _).bind fun _ _ => (gives_checkParams ps).bind fun _ _ => ?_
  refine (gives_accept _).bind fun _ _ => ?_
  extract_lets rest
  have hrest : ∀ result : Ty, result.Complete → Gives (rest result) Stmt.WellFormed := by
    intro result hr
    refine gives_skipNewlines.bind fun _ _ => (gives_block hs).bind fun body hb => ?_
    exact .pure ⟨hn, hps, hr, hb⟩
  have hunit : Ty.Complete Ty.unit := by
    unfold Ty.unit Ty.Complete
    decide
  exact Gives.ite (fun _ => gives_type.bind hrest) fun _ => (Gives.pure hunit).bind hrest

theorem gives_statement : Gives (statement stmt) Stmt.WellFormed := by
  refine gives_peek.bind fun t _ => ?_
  split
  · exact gives_declaration
  · exact gives_declaration
  · exact gives_ifStmt hs
  · exact gives_whileStmt hs
  · exact gives_forStmt hs
  · exact gives_functionStmt hs
  · exact gives_returning
  · exact gives_advance.bind fun _ _ => .pure trivial
  · exact gives_advance.bind fun _ _ => .pure trivial
  · exact gives_printing
  · exact gives_printing
  · exact (gives_block hs).bind fun _ hb => .pure hb
  · exact (gives_prefixed gives_expr).bind fun _ h => .pure h
  · exact (gives_prefixed gives_expr).bind fun _ h => .pure h
  · exact gives_namedStmt
  · exact gives_fail _

end Nested

theorem gives_stmtWithin (depth : Nat) : Gives (stmtWithin depth) Stmt.WellFormed := by
  induction depth with
  | zero => exact gives_fail _
  | succ depth ih => exact gives_statement ih

/-! ## Programs -/

theorem gives_programAfter {stmt : Parser Stmt} (hs : Gives stmt Stmt.WellFormed) (turns : Nat) :
    ∀ acc, Stmt.AllWellFormed acc →
      Gives (programAfter stmt turns acc) Stmt.AllWellFormed := by
  induction turns with
  | zero => exact fun acc hacc => .pure (by simpa [Stmt.allWellFormed_iff] using hacc)
  | succ turns ih =>
    intro acc hacc
    refine gives_atEnd.bind fun _ _ => Gives.ite (fun _ => ?_) fun _ => ?_
    · exact .pure (by simpa [Stmt.allWellFormed_iff] using hacc)
    refine hs.bind fun s hw => gives_atEnd.bind fun _ _ => Gives.ite (fun _ => ?_) fun _ => ?_
    · refine .pure ?_
      rw [Stmt.allWellFormed_iff] at hacc ⊢
      simpa [or_imp, forall_and] using ⟨hacc, hw⟩
    refine gives_peek.bind fun _ _ => Gives.ite (fun _ => ?_) fun _ => ?_
    · exact (gives_fail _ (P := fun _ => False)).bind fun _ h => h.elim
    · exact gives_skipSeparators.bind fun _ _ => ih (s :: acc) ⟨hw, hacc⟩

theorem gives_program : Gives program Stmt.AllWellFormed := by
  refine gives_skipSeparators.bind fun _ _ => gives_read.bind fun _ _ => ?_
  exact gives_programAfter (gives_stmtWithin _) _ [] trivial

end Parse

/-- A program that comes out of a scanned text is well-formed. -/
theorem Program.wellFormed_of_parse {text : Text} {tokens : List Token} {p : Program}
    (hs : Token.scan text = .ok tokens) (hp : Program.parse tokens = .ok p) : p.WellFormed := by
  unfold Program.parse at hp
  cases hrun : Parse.run Parse.program tokens with
  | error d => rw [hrun] at hp; cases hp
  | ok stmts =>
    rw [hrun] at hp
    cases hp
    exact Parse.of_run Parse.gives_program (Token.spelled_of_scan hs) hrun

end Kotlet

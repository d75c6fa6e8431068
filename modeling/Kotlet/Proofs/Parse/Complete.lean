import Kotlet.Proofs.Parse.Sound

/-!
# What is derived is parsed

A rule of the parser takes as many tokens as the grammar wants, provided that the token behind them
would not go on.

* `tightness`, `Stops` : which tokens go on with an operand, and tokens that do not;
* `Accepts` : a rule of the parser gives what the grammar reads;
* `accepts_primary`, `accepts_chain`, `accepts_level` : expressions from the inside out;
* `Expr.parse_eq_ok_iff` : the parser accepts what the grammar derives, and nothing else.
-/

namespace Kotlet
namespace Parse

open Grammar

variable {ctx : Context} {ts rest : List Token} {t : Token}

/-! ## Types -/

theorem elementType_of_scalar {s : Scalar} (h : scalar? t.kind = some s) (hs : s ≠ .unit) :
    elementType ctx (t :: ts) = .ok (s, ts) := by
  unfold elementType
  rw [bind_of_ok (a := t) rfl, h]
  simp only [Option.filter_some, ne_eq, hs, not_false_eq_true, decide_true, if_true]
  rfl

theorem closeTypeArgument_of_kind (h : t.kind = .gt) :
    closeTypeArgument ctx (t :: ts) = .ok ((), ts) := by
  unfold closeTypeArgument
  rw [bind_of_ok (a := t) rfl]
  simp only [h, reduceCtorEq, if_false]
  rw [bind_of_ok (expect_of_kind h)]
  rfl

theorem typesAfter_of_separated (hc : ctx.eof.kind = .eof) {type : Parser Ty} {us : List Token}
    {tys : List Ty} (h : Separated Comma IsType us tys) {n : Nat} (hn : us.length ≤ n)
    (htype : ∀ vs ty rest, IsType vs ty → vs.length ≤ n → type ctx (vs ++ rest) = .ok (ty, rest))
    {turns : Nat} (hturns : tys.length ≤ turns) (acc : List Ty) (hrest : HeadIs (· ≠ .comma) rest) :
    typesAfter type turns acc ctx (us ++ rest) = .ok (acc.reverse ++ tys, rest) := by
  induction h generalizing turns acc with
  | @one ts ty h =>
    obtain ⟨turns, rfl⟩ := Nat.exists_eq_succ_of_ne_zero (Nat.ne_of_gt hturns)
    unfold typesAfter
    rw [bind_of_ok (htype _ _ _ h hn), bind_of_ok (accept_of_head hc (by decide) hrest),
      if_neg (by decide)]
    simp [pure_eq_ok]
  | @more ts cs us ty tys h hcs hs ih =>
    obtain ⟨c, rfl, hcomma⟩ : ∃ c, cs = [c] ∧ c.kind = .comma := by
      cases hcs with
      | mk hcomma => exact ⟨_, rfl, hcomma⟩
    simp only [List.length_append, List.length_cons] at hn hturns
    obtain ⟨turns, rfl⟩ := Nat.exists_eq_succ_of_ne_zero (Nat.ne_of_gt (Nat.lt_of_lt_of_le
      (Nat.succ_pos _) hturns))
    unfold typesAfter
    rw [List.append_assoc, List.append_assoc, bind_of_ok (htype _ _ _ h (by omega)),
      List.singleton_append, bind_of_ok (accept_of_kind hcomma), if_pos rfl,
      ih (by omega) (by omega) (ty :: acc)]
    simp

theorem comma_ne_nil {cs : List Token} (h : Comma cs) : cs ≠ [] := by
  cases h
  exact List.cons_ne_nil _ _

theorem scalar?_eq_none {k : Token.Kind} (h : k = .tyArray ∨ k = .tyMutableList ∨ k = .lparen) :
    scalar? k = none := by
  rcases h with rfl | rfl | rfl <;> rfl

/-- The rest of an array or list type. It ends with a token of its own or with half of one. -/
theorem typeWithin_of_collection {depth : Nat} {a l e : Token} {s : Scalar}
    (ha : a.kind = .tyArray ∨ a.kind = .tyMutableList) (hl : l.kind = .lt)
    (he : scalar? e.kind = some s) (hs : s ≠ .unit)
    (hclose : closeTypeArgument ctx ts = .ok ((), rest)) :
    typeWithin (depth + 1) ctx (a :: l :: e :: ts) =
      .ok (if a.kind = .tyMutableList then .list s else .array s, rest) := by
  unfold typeWithin
  rw [bind_of_ok (a := a) rfl]
  dsimp only
  rw [scalar?_eq_none (ha.imp_right .inl)]
  dsimp only
  rw [if_pos ha, bind_of_ok advance_cons, bind_of_ok (expect_of_kind hl),
    bind_of_ok (elementType_of_scalar he hs), bind_of_ok hclose]
  rfl

theorem startsWith_of_isType {us : List Token} {ty : Ty} (h : IsType us ty) :
    StartsWith (· ≠ .rparen) us := by
  cases h with
  | scalar h =>
    refine startsWith_cons fun hk => ?_
    rw [hk] at h
    cases h
  | array ha _ _ _ _ => exact startsWith_cons (by simp [ha])
  | list ha _ _ _ _ => exact startsWith_cons (by simp [ha])
  | thunk ho _ _ _ => exact startsWith_cons (by simp [ho])
  | fn ho _ _ _ _ => exact startsWith_cons (by simp [ho])

/-- A function type without parameters goes on with its result. -/
theorem typeWithin_of_thunk {depth : Nat} {o c a : Token} {r : Ty} (ho : o.kind = .lparen)
    (hcl : c.kind = .rparen) (ha : a.kind = .arrow) (hr : typeWithin depth ctx ts = .ok (r, rest)) :
    typeWithin (depth + 1) ctx (o :: c :: a :: ts) = .ok (.fn [] (some r), rest) := by
  unfold typeWithin
  rw [bind_of_ok (a := o) rfl, scalar?_eq_none (.inr (.inr ho))]
  dsimp only
  rw [if_neg (by simp [ho]), if_pos ho, bind_of_ok advance_cons, bind_of_ok (nextIs_of_kind hcl),
    if_pos rfl, bind_of_ok (pure_eq_ok.mpr ⟨rfl, rfl⟩), bind_of_ok (expect_of_kind hcl),
    bind_of_ok (expect_of_kind ha), bind_of_ok hr]
  rfl

/-- A function type goes on with its result behind its parameters. -/
theorem typeWithin_of_fn (hc : ctx.eof.kind = .eof) {depth : Nat} {o c a : Token} {ps : List Token}
    {params : List Ty} {r : Ty} (ho : o.kind = .lparen) (hps : Separated Comma IsType ps params)
    (hparam : ∀ vs ty rest, IsType vs ty → vs.length ≤ ps.length →
      typeWithin depth ctx (vs ++ rest) = .ok (ty, rest))
    (hn : ps.length + 1 ≤ ctx.limit) (hcl : c.kind = .rparen) (ha : a.kind = .arrow)
    (hr : typeWithin depth ctx ts = .ok (r, rest)) :
    typeWithin (depth + 1) ctx (o :: (ps ++ c :: a :: ts)) = .ok (.fn params (some r), rest) := by
  have hlen := hps.length_le fun _ => comma_ne_nil
  have hfirst : HeadIs (· ≠ .rparen) (ps ++ c :: a :: ts) :=
    (startsWith_of_separated hps fun _ _ => startsWith_of_isType).headIs _
  have hparams : typesAfter (typeWithin depth) ctx.limit [] ctx (ps ++ c :: a :: ts) =
      .ok (params, c :: a :: ts) :=
    typesAfter_of_separated hc hps (Nat.le_refl _) hparam (by omega) []
      (headIs_cons.mpr (by simp [hcl]))
  unfold typeWithin
  rw [bind_of_ok (a := o) rfl, scalar?_eq_none (.inr (.inr ho))]
  dsimp only
  rw [if_neg (by simp [ho]), if_pos ho, bind_of_ok advance_cons,
    bind_of_ok (nextIs_of_head hc (by decide) hfirst), if_neg (by decide),
    bind_of_ok (a := ctx) rfl, bind_of_ok hparams, bind_of_ok (expect_of_kind hcl),
    bind_of_ok (expect_of_kind ha), bind_of_ok hr]
  rfl

theorem typeWithin_of_isType (hc : ctx.eof.kind = .eof) {depth : Nat} {us : List Token} {ty : Ty}
    (h : IsType us ty) (hdepth : us.length ≤ depth) (hn : us.length ≤ ctx.limit) :
    typeWithin depth ctx (us ++ rest) = .ok (ty, rest) := by
  induction depth generalizing us ty rest with
  | zero => cases h <;> simp at hdepth
  | succ depth ih =>
    cases h with
    | @scalar t s h =>
      unfold typeWithin
      rw [List.singleton_append, bind_of_ok (a := t) rfl]
      dsimp only
      rw [h]
      rfl
    | array ha hl he hs hg =>
      refine (typeWithin_of_collection (.inl ha) hl he hs (closeTypeArgument_of_kind hg)).trans ?_
      rw [if_neg (by simp [ha])]
      rfl
    | list ha hl he hs hg =>
      refine (typeWithin_of_collection (.inr ha) hl he hs (closeTypeArgument_of_kind hg)).trans ?_
      rw [if_pos ha]
      rfl
    | thunk ho hcl ha hr =>
      simp only [List.length_cons] at hdepth hn
      exact typeWithin_of_thunk ho hcl ha (ih hr (by omega) (by omega))
    | fn ho hps hcl ha hr =>
      simp only [List.length_append, List.length_cons] at hdepth hn
      simp only [List.cons_append, List.append_assoc]
      exact typeWithin_of_fn hc ho hps (fun vs ty rest hvs hlen => ih hvs (by omega) (by omega))
        (by omega) hcl ha (ih hr (by omega) (by omega))

theorem type_of_isType (hc : ctx.eof.kind = .eof) {us : List Token} {ty : Ty} (h : IsType us ty)
    (hn : us.length ≤ ctx.limit) : type ctx (us ++ rest) = .ok (ty, rest) := by
  unfold type
  rw [bind_of_ok (a := ctx) rfl]
  exact typeWithin_of_isType hc h (Nat.le_succ_of_le hn) hn

/-! ## Parameters -/

theorem parameter_of_isParam (hc : ctx.eof.kind = .eof) {us : List Token} {p : Param}
    (h : IsParam us p) (hn : us.length ≤ ctx.limit) (hrest : HeadIs (· ≠ .colon) rest) :
    parameter false ctx (us ++ rest) = .ok (p, rest) := by
  unfold parameter
  cases h with
  | bare ht =>
    rw [List.singleton_append, bind_of_ok (ident_of_kind ht),
      bind_of_ok (accept_of_head hc (by decide) hrest), if_neg (by decide), if_neg (by decide)]
    rfl
  | typed ht hcol hty =>
    simp only [List.length_cons] at hn
    rw [List.cons_append, List.cons_append, bind_of_ok (ident_of_kind ht),
      bind_of_ok (accept_of_kind hcol), if_pos rfl, bind_of_ok (type_of_isType hc hty (by omega))]
    rfl

theorem startsWith_of_isParam {us : List Token} {p : Param} (h : IsParam us p) :
    StartsWith (· = .ident) us := by
  cases h with
  | bare ht => exact startsWith_cons ht
  | typed ht _ _ => exact startsWith_cons ht

theorem lambdaParams_of_separated (hc : ctx.eof.kind = .eof) {us : List Token} {ps : List Param}
    (h : Separated CommaLines IsParam us ps) (hn : us.length ≤ ctx.limit) {turns : Nat}
    (hturns : ps.length ≤ turns) (acc : List Param) (hrest : HeadIs (· = .arrow) rest) :
    lambdaParams turns acc ctx (us ++ rest) = .ok (acc.reverse ++ ps, rest) := by
  induction h generalizing turns acc with
  | @one ts p h =>
    obtain ⟨turns, rfl⟩ := Nat.exists_eq_succ_of_ne_zero (Nat.ne_of_gt hturns)
    have hcomma : HeadIs (· ≠ .comma) rest := hrest.mono fun k hk => by simp [hk]
    have hcolon : HeadIs (· ≠ .colon) rest := hrest.mono fun k hk => by simp [hk]
    unfold lambdaParams
    rw [bind_of_ok (parameter_of_isParam hc h hn hcolon),
      bind_of_ok (accept_of_head hc (by decide) hcomma), if_neg (by decide)]
    simp [pure_eq_ok]
  | @more ts cs us p ps h hcs hs ih =>
    obtain ⟨c, g, rfl, hcomma, hg⟩ : ∃ c g, cs = c :: g ∧ c.kind = .comma ∧ LineEnds g := by
      cases hcs with
      | mk hcomma hg => exact ⟨_, _, rfl, hcomma, hg⟩
    simp only [List.length_append, List.length_cons] at hn hturns
    obtain ⟨turns, rfl⟩ := Nat.exists_eq_succ_of_ne_zero (Nat.ne_of_gt (Nat.lt_of_lt_of_le
      (Nat.succ_pos _) hturns))
    have hnext : HeadIs (· ≠ .newline) (us ++ rest) :=
      ((startsWith_of_separated hs fun _ _ => startsWith_of_isParam).mono
        fun k hk => by simp [hk]).headIs _
    unfold lambdaParams
    simp only [List.append_assoc, List.cons_append]
    rw [bind_of_ok (parameter_of_isParam hc h (by omega) (headIs_cons.mpr (by simp [hcomma]))),
      bind_of_ok (accept_of_kind hcomma), if_pos rfl, bind_of_ok (skipNewlines_append hg hnext),
      ih (by omega) (by omega) (p :: acc)]
    simp

/-! ## Where operands end -/

/-- How tightly a token goes on with what stands before it: 0 if it never does. -/
@[grind =] def tightness : Token.Kind → Nat
  | .and | .or => 1
  | .eq | .notEq | .lt | .gt | .le | .ge => 2
  | .plus | .minus => 3
  | .times | .slash | .percent => 4
  | .increment | .decrement | .lparen => 5
  | .lbracket => 6
  | _ => 0

/-- Behind an operand of a tier stand no tokens that would go on with it. -/
abbrev Stops (n : Nat) (ts : List Token) : Prop := HeadIs (fun k => tightness k < n) ts

/-- The kinds that primary expressions start with. -/
def startsPrimary (k : Token.Kind) : Prop :=
  k ∈ [.int, .kwTrue, .kwFalse, .string, .lparen, .increment, .decrement, .ident, .lbrace, .kwArrayOf,
    .kwMutableListOf, .tyArray, .tyMutableList]

/-- The kinds that expressions start with. -/
def startsExpr (k : Token.Kind) : Prop := k = .bang ∨ startsPrimary k

instance : DecidablePred startsPrimary := fun k => by unfold startsPrimary; infer_instance

instance : DecidablePred startsExpr := fun k => by unfold startsExpr; infer_instance

/-- Where nothing goes on that is as tight as `n`, the rule gives what the grammar reads. -/
structure Accepts (ctx : Context) (rule : Parser Expr) (n : Nat) (R : Reading Expr) : Prop where
  starts : ∀ us e, R us e → StartsWith startsExpr us
  accepts : ∀ us e rest, R us e → us.length ≤ ctx.limit → Stops n rest →
    rule ctx (us ++ rest) = .ok (e, rest)

theorem startsExpr_ne {k k' : Token.Kind} (h : startsExpr k) (hk' : ¬ startsExpr k') : k ≠ k' :=
  fun heq => hk' (heq ▸ h)

theorem stops_append {g : List Token} (hg : LineEnds g) (ht : tightness t.kind = 0) :
    Stops 1 (g ++ t :: rest) := by
  cases g with
  | nil => exact headIs_cons.mpr (by simp [ht])
  | cons u g => exact headIs_cons.mpr (by simp [hg u List.mem_cons_self, tightness])

/-! ## Primary expressions -/

theorem linesCommaLines_ne_nil {cs : List Token} (h : LinesCommaLines cs) : cs ≠ [] := by
  cases h
  simp

theorem commaLines_ne_nil {cs : List Token} (h : CommaLines cs) : cs ≠ [] := by
  cases h
  simp

section Starts

variable {E : Reading Expr}

theorem startsWith_of_isLambda {us : List Token} {l : Lambda} (h : IsLambda E us l) :
    StartsWith (· = .lbrace) us := by
  cases h with
  | thunk hb _ _ _ => exact startsWith_cons hb
  | mk hb _ _ _ _ _ => exact startsWith_cons hb

theorem startsPrimary_of_literalOf? {k : Token.Kind} {kind : CollectionKind}
    (h : literalOf? k = some kind) : startsPrimary k := by
  unfold literalOf? at h
  split at h <;> first | decide | cases h

theorem startsPrimary_of_sizedOf? {k : Token.Kind} {kind : CollectionKind}
    (h : sizedOf? k = some kind) : startsPrimary k := by
  unfold sizedOf? at h
  split at h <;> first | decide | cases h

theorem startsWith_of_isTarget {us : List Token} {x : Target} (h : IsTarget E us x) :
    StartsWith (· = .ident) us := by
  cases h with
  | name ht => exact startsWith_cons ht
  | element ht _ _ _ _ _ => exact startsWith_cons ht

theorem startsWith_of_isPrimary {lit : Token → Expr → Prop} {us : List Token} {e : Expr}
    (h : IsPrimary lit E us e) : StartsWith startsPrimary us := by
  cases h with
  | int ht => exact startsWith_cons (by rw [ht]; decide)
  | true ht => exact startsWith_cons (by rw [ht]; decide)
  | false ht => exact startsWith_cons (by rw [ht]; decide)
  | string ht _ => exact startsWith_cons (by rw [ht]; decide)
  | parens ho _ _ _ _ => exact startsWith_cons (by rw [ho]; decide)
  | before hop _ =>
    simp only [List.mem_cons, List.not_mem_nil, or_false] at hop
    exact startsWith_cons (by rcases hop with hop | hop <;> rw [hop] <;> decide)
  | read ht => exact (startsWith_of_isTarget ht).mono fun k hk => by rw [hk]; decide
  | after ht _ => exact ((startsWith_of_isTarget ht).mono fun k hk => by rw [hk]; decide).append _
  | call hcall =>
    cases hcall with
    | mk hf _ _ => exact startsWith_cons (by rw [hf]; decide)
  | lambda hl => exact (startsWith_of_isLambda hl).mono fun k hk => by rw [hk]; decide
  | collection hk _ _ _ _ _ => exact startsWith_cons (startsPrimary_of_literalOf? hk)
  | sized hk _ _ _ _ _ _ _ _ => exact startsWith_cons (startsPrimary_of_sizedOf? hk)
  | trailing hk _ _ _ _ _ _ => exact startsWith_cons (startsPrimary_of_sizedOf? hk)

end Starts

section Primary

variable (hc : ctx.eof.kind = .eof) {expr : Parser Expr} {E : Reading Expr}
  (he : Accepts ctx expr 1 E)
include hc he

omit hc in
/-- An expression between line ends, before a token that does not go on. -/
theorem enclosed {g us g' : List Token} {e : Expr} (hg : LineEnds g) (h : E us e)
    (hn : us.length ≤ ctx.limit) (hg' : LineEnds g') (ht : tightness t.kind = 0)
    (hline : t.kind ≠ .newline) (rest : List Token) :
    skipNewlines ctx (g ++ (us ++ (g' ++ t :: rest))) = .ok ((), us ++ (g' ++ t :: rest)) ∧
      expr ctx (us ++ (g' ++ t :: rest)) = .ok (e, g' ++ t :: rest) ∧
      skipNewlines ctx (g' ++ t :: rest) = .ok ((), t :: rest) := by
  have hstarts : HeadIs (· ≠ .newline) (us ++ (g' ++ t :: rest)) :=
    ((he.starts us e h).mono fun k hk => startsExpr_ne hk (by decide)).headIs _
  exact ⟨skipNewlines_append hg hstarts, he.accepts us e _ h hn (stops_append hg' ht),
    skipNewlines_append hg' (headIs_cons.mpr hline)⟩

theorem target_of_isTarget {us : List Token} {x : Target} (h : IsTarget E us x)
    (hn : us.length ≤ ctx.limit) (hrest : Stops 6 rest) :
    target expr ctx (us ++ rest) = .ok (x, rest) := by
  unfold target
  cases h with
  | name ht =>
    have hopen : HeadIs (· ≠ .lbracket) rest := hrest.mono fun k hk heq => by simp [heq, tightness] at hk
    rw [List.singleton_append, bind_of_ok (ident_of_kind ht),
      bind_of_ok (nextIs_of_head hc (by decide) hopen), if_neg (by decide)]
    rfl
  | @element i o c g ts g' e hi ho hg hts hg' hcl =>
    simp only [List.length_append, List.length_cons] at hn
    obtain ⟨hskip, hexpr, hskip'⟩ := enclosed he hg hts (by omega) hg' (t := c) (by simp [hcl, tightness])
      (by simp [hcl]) rest
    simp only [List.cons_append, List.append_assoc, List.nil_append]
    rw [bind_of_ok (ident_of_kind hi), bind_of_ok (nextIs_of_kind ho), if_pos rfl,
      bind_of_ok advance_cons, bind_of_ok hskip, bind_of_ok hexpr, bind_of_ok hskip',
      bind_of_ok (expect_of_kind hcl)]
    rfl

theorem argumentsAfter_of_separated {us : List Token} {es : List Expr}
    (h : Separated LinesCommaLines E us es) (hn : us.length ≤ ctx.limit) {turns : Nat}
    (hturns : es.length ≤ turns) (acc : List Expr) {g : List Token} (hg : LineEnds g)
    (ht : t.kind = .rparen) (rest : List Token) :
    argumentsAfter expr turns acc ctx (us ++ (g ++ t :: rest)) = .ok (acc.reverse ++ es, rest) := by
  induction h generalizing turns acc with
  | @one ts e h =>
    obtain ⟨turns, rfl⟩ := Nat.exists_eq_succ_of_ne_zero (Nat.ne_of_gt hturns)
    obtain ⟨-, hexpr, hskip⟩ := enclosed he hg h hn hg (t := t) (by simp [ht, tightness]) (by simp [ht]) rest
    unfold argumentsAfter
    rw [bind_of_ok hexpr, bind_of_ok hskip,
      bind_of_ok (accept_of_head hc (by decide) (headIs_cons.mpr (by simp [ht]))), if_neg (by decide),
      bind_of_ok (expect_of_kind ht)]
    simp [pure_eq_ok]
  | @more ts cs us e es h hcs hs ih =>
    obtain ⟨g₁, c, g₂, rfl, hg₁, hcomma, hg₂⟩ :
        ∃ g₁ c g₂, cs = g₁ ++ c :: g₂ ∧ LineEnds g₁ ∧ c.kind = .comma ∧ LineEnds g₂ := by
      cases hcs with
      | mk hg₁ hcomma hg₂ => exact ⟨_, _, _, rfl, hg₁, hcomma, hg₂⟩
    simp only [List.length_append, List.length_cons] at hn hturns
    obtain ⟨turns, rfl⟩ := Nat.exists_eq_succ_of_ne_zero (Nat.ne_of_gt (Nat.lt_of_lt_of_le
      (Nat.succ_pos _) hturns))
    obtain ⟨-, hexpr, hskip⟩ := enclosed he hg₁ h (by omega) hg₁ (t := c)
      (by simp [hcomma, tightness]) (by simp [hcomma]) (g₂ ++ (us ++ (g ++ t :: rest)))
    have hnext : HeadIs (· ≠ .newline) (us ++ (g ++ t :: rest)) :=
      ((startsWith_of_separated hs he.starts).mono fun k hk => startsExpr_ne hk (by decide)).headIs _
    unfold argumentsAfter
    simp only [List.append_assoc, List.cons_append]
    rw [bind_of_ok hexpr, bind_of_ok hskip, bind_of_ok (accept_of_kind hcomma), if_pos rfl,
      bind_of_ok (skipNewlines_append hg₂ hnext), ih (by omega) (by omega) (e :: acc)]
    simp

theorem arguments_of_areArguments {us : List Token} {es : List Expr} (h : AreArguments E us es)
    (hn : us.length ≤ ctx.limit) : arguments expr ctx (us ++ rest) = .ok (es, rest) := by
  unfold arguments
  cases h with
  | none hg hcl =>
    rw [List.append_assoc, List.singleton_append,
      bind_of_ok (skipNewlines_append hg (headIs_cons.mpr (by simp [hcl]))),
      bind_of_ok (accept_of_kind hcl), if_pos rfl]
    rfl
  | @some c g ts g' es hg hes hg' hcl =>
    simp only [List.length_append, List.length_cons] at hn
    have hlen := hes.length_le fun _ => linesCommaLines_ne_nil
    have hstarts := startsWith_of_separated hes he.starts
    simp only [List.append_assoc, List.singleton_append]
    rw [bind_of_ok (skipNewlines_append hg
        ((hstarts.mono fun k hk => startsExpr_ne hk (by decide)).headIs _)),
      bind_of_ok (accept_of_head hc (by decide)
        ((hstarts.mono fun k hk => startsExpr_ne hk (by decide)).headIs _)), if_neg (by decide),
      bind_of_ok (a := ctx) rfl, argumentsAfter_of_separated hc he hes (by omega) (by omega) [] hg' hcl]
    rfl

theorem call_of_isCall {us : List Token} {c : Call} (h : IsCall E us c) (hn : us.length ≤ ctx.limit)
    (rest : List Token) : call expr ctx (us ++ rest) = .ok (c, rest) := by
  unfold call
  cases h with
  | mk hf ho hes =>
    simp only [List.length_cons] at hn
    rw [List.cons_append, List.cons_append, bind_of_ok (ident_of_kind hf), bind_of_ok (expect_of_kind ho),
      bind_of_ok (arguments_of_areArguments hc he hes (by omega))]
    rfl

omit hc in
theorem body_of_isBody {b : Token} {params : List Param} {us : List Token} {e : Expr}
    (h : IsBody E us e) (hn : us.length ≤ ctx.limit)
    (hdistinct : (params.map fun p => p.name.name).Nodup) : (do
      checkParams params
      skipNewlines
      let body ← expr
      skipNewlines
      let _ ← expect .rbrace "'\x7d'"
      return .mk (.ofToken b) params body [] : Parser Lambda) ctx (us ++ rest) =
        .ok (.mk (.ofToken b) params e [], rest) := by
  cases h with
  | @mk c g ts g' e hg hts hg' hcl =>
    simp only [List.length_append, List.length_cons] at hn
    obtain ⟨hskip, hexpr, hskip'⟩ := enclosed he hg hts (by omega) hg' (t := c) (by simp [hcl, tightness])
      (by simp [hcl]) rest
    simp only [List.append_assoc, List.singleton_append]
    rw [bind_of_ok ((checkParams_eq_ok (u := ())).mpr ⟨hdistinct, rfl⟩), bind_of_ok hskip, bind_of_ok hexpr,
      bind_of_ok hskip', bind_of_ok (expect_of_kind hcl)]
    rfl

theorem lambda_of_isLambda {us : List Token} {l : Lambda} (h : IsLambda E us l)
    (hn : us.length ≤ ctx.limit) (rest : List Token) : lambda expr ctx (us ++ rest) = .ok (l, rest) := by
  unfold lambda
  cases h with
  | thunk hb hg ha hbody =>
    simp only [List.length_append, List.length_cons] at hn
    simp only [List.cons_append, List.append_assoc]
    rw [bind_of_ok advance_cons,
      bind_of_ok (skipNewlines_append hg (headIs_cons.mpr (by simp [ha]))),
      bind_of_ok (accept_of_kind ha), if_pos rfl, bind_of_ok (pure_eq_ok.mpr ⟨rfl, rfl⟩)]
    exact body_of_isBody he hbody (by omega) List.nodup_nil
  | mk hb hg hps hdistinct ha hbody =>
    simp only [List.length_append, List.length_cons] at hn
    have hlen := hps.length_le fun _ => commaLines_ne_nil
    have hstarts := startsWith_of_separated hps fun _ _ => startsWith_of_isParam
    simp only [List.cons_append, List.append_assoc]
    rw [bind_of_ok advance_cons,
      bind_of_ok (skipNewlines_append hg ((hstarts.mono fun k hk => by simp [hk]).headIs _)),
      bind_of_ok (accept_of_head hc (by decide) ((hstarts.mono fun k hk => by simp [hk]).headIs _)),
      if_neg (by decide), bind_of_ok (a := ctx) rfl,
      bind_of_ok (lambdaParams_of_separated hc hps (by omega) (by omega) [] (headIs_cons.mpr ha)),
      bind_of_ok (expect_of_kind ha), bind_of_ok (pure_eq_ok.mpr ⟨rfl, rfl⟩)]
    exact body_of_isBody he hbody (by omega) hdistinct

theorem generator_of_isLambda {us : List Token} {l : Lambda} (h : IsLambda E us l)
    (hn : us.length ≤ ctx.limit) : generator expr ctx (us ++ rest) = .ok (l, rest) := by
  have hopen : ∃ b ts, us = b :: ts ∧ b.kind = .lbrace := by
    cases h with
    | thunk hb _ _ _ => exact ⟨_, _, rfl, hb⟩
    | mk hb _ _ _ _ _ => exact ⟨_, _, rfl, hb⟩
  have hlambda := lambda_of_isLambda hc he h hn rest
  obtain ⟨b, ts, rfl, hb⟩ := hopen
  unfold generator
  rw [List.cons_append] at hlambda ⊢
  rw [bind_of_ok (nextIs_of_kind hb), if_pos rfl, hlambda]

/-- The rule for a collection whose elements are written out. -/
theorem collectionLiteral_of_separated {k o c : Token} {g ts g' : List Token} {es : List Expr}
    (kind : CollectionKind) (ho : o.kind = .lparen) (hg : LineEnds g)
    (hes : Separated LinesCommaLines E ts es) (hg' : LineEnds g') (hcl : c.kind = .rparen)
    (hn : (ts ++ (g' ++ [c])).length ≤ ctx.limit) :
    collectionLiteral kind expr ctx (k :: o :: (g ++ (ts ++ (g' ++ c :: rest)))) =
      .ok (.collection (.ofToken k) kind es, rest) := by
  have hstarts := startsWith_of_separated hes he.starts
  have hargs : arguments expr ctx (ts ++ (g' ++ [c]) ++ rest) = .ok (es, rest) :=
    arguments_of_areArguments hc he (.some (g := []) (by simp [LineEnds]) hes hg' hcl) hn
  simp only [List.append_assoc, List.singleton_append] at hargs
  unfold collectionLiteral
  rw [bind_of_ok advance_cons, bind_of_ok (expect_of_kind ho),
    bind_of_ok (skipNewlines_append hg
      ((hstarts.mono fun k hk => startsExpr_ne hk (by decide)).headIs _)),
    bind_of_ok (nextIs_of_head hc (by decide)
      ((hstarts.mono fun k hk => startsExpr_ne hk (by decide)).headIs _)), if_neg (by decide)]
  dsimp only
  rw [bind_of_ok hargs]
  rfl

theorem sizedConstructor_of_sized {k o c : Token} {g ts g' cs ls h : List Token} {size : Expr}
    {l : Lambda} (kind : CollectionKind) (ho : o.kind = .lparen) (hg : LineEnds g) (hsize : E ts size)
    (hg' : LineEnds g') (hcs : CommaLines cs) (hl : IsLambda E ls l) (hh : LineEnds h)
    (hcl : c.kind = .rparen) (hts : ts.length ≤ ctx.limit) (hls : ls.length ≤ ctx.limit) :
    sizedConstructor kind expr ctx (k :: o :: (g ++ (ts ++ (g' ++ (cs ++ (ls ++ (h ++ c :: rest))))))) =
      .ok (.sized (.ofToken k) kind size l, rest) := by
  obtain ⟨comma, d, rfl, hcomma, hd⟩ :
      ∃ comma d, cs = comma :: d ∧ comma.kind = .comma ∧ LineEnds d := by
    cases hcs with
    | mk hcomma hd => exact ⟨_, _, rfl, hcomma, hd⟩
  have hbrace : HeadIs (· ≠ .newline) (ls ++ (h ++ c :: rest)) :=
    ((startsWith_of_isLambda hl).mono fun k hk => by simp [hk]).headIs _
  obtain ⟨hskip, hexpr, hskip'⟩ := enclosed he hg hsize hts hg' (t := comma)
    (by simp [hcomma, tightness]) (by simp [hcomma]) (d ++ (ls ++ (h ++ c :: rest)))
  unfold sizedConstructor
  rw [List.cons_append, bind_of_ok advance_cons, bind_of_ok (expect_of_kind ho), bind_of_ok hskip,
    bind_of_ok hexpr, bind_of_ok hskip', bind_of_ok (accept_of_kind hcomma), if_pos rfl,
    bind_of_ok (skipNewlines_append hd hbrace), bind_of_ok (generator_of_isLambda hc he hl hls),
    bind_of_ok (skipNewlines_append hh (headIs_cons.mpr (by simp [hcl]))),
    bind_of_ok (expect_of_kind hcl)]
  rfl

theorem sizedConstructor_of_trailing {k o c : Token} {g ts g' ls : List Token} {size : Expr}
    {l : Lambda} (kind : CollectionKind) (ho : o.kind = .lparen) (hg : LineEnds g) (hsize : E ts size)
    (hg' : LineEnds g') (hcl : c.kind = .rparen) (hl : IsLambda E ls l)
    (hts : ts.length ≤ ctx.limit) (hls : ls.length ≤ ctx.limit) :
    sizedConstructor kind expr ctx (k :: o :: (g ++ (ts ++ (g' ++ c :: (ls ++ rest))))) =
      .ok (.sized (.ofToken k) kind size l, rest) := by
  obtain ⟨hskip, hexpr, hskip'⟩ := enclosed he hg hsize hts hg' (t := c)
    (by simp [hcl, tightness]) (by simp [hcl]) (ls ++ rest)
  unfold sizedConstructor
  rw [bind_of_ok advance_cons, bind_of_ok (expect_of_kind ho), bind_of_ok hskip, bind_of_ok hexpr,
    bind_of_ok hskip',
    bind_of_ok (accept_of_head hc (by decide) (headIs_cons.mpr (by simp [hcl]))), if_neg (by decide),
    bind_of_ok (expect_of_kind hcl), bind_of_ok (generator_of_isLambda hc he hl hls)]
  rfl

omit he in
/-- The second token of a target before no parenthesis is none. -/
theorem peekSecond_of_isTarget {us : List Token} {x : Target} (h : IsTarget E us x)
    (hopen : HeadIs (· ≠ .lparen) rest) :
    ∃ t, peekSecond ctx (us ++ rest) = .ok (t, us ++ rest) ∧ t.kind ≠ .lparen := by
  cases h with
  | name ht =>
    refine ⟨_, rfl, ?_⟩
    cases rest with
    | nil => simp [hc]
    | cons t rest => exact headIs_cons.mp hopen
  | element ht hb _ _ _ _ => exact ⟨_, rfl, by simp [hb]⟩

theorem named_of_read {us : List Token} {x : Target} (h : IsTarget E us x)
    (hn : us.length ≤ ctx.limit) (hrest : Stops 5 rest) :
    named expr ctx (us ++ rest) = .ok (.read x, rest) := by
  have hne {k : Token.Kind} (hk : tightness k = 5) : HeadIs (· ≠ k) rest :=
    hrest.mono fun k' hk' heq => by simp [heq, hk] at hk'
  obtain ⟨t, hpeek, ht⟩ := peekSecond_of_isTarget hc h (hne rfl)
  have hpost : HeadIs (· ∉ [.increment, .decrement]) rest := fun t ht => by
    simp only [List.mem_cons, List.not_mem_nil, or_false, not_or]
    exact ⟨hne rfl t ht, hne rfl t ht⟩
  unfold named
  rw [bind_of_ok hpeek, if_neg ht,
    bind_of_ok (target_of_isTarget hc he h hn (hrest.mono fun _ hk => Nat.lt_succ_of_lt hk)),
    bind_of_ok (accept?_of_head hc (by decide) hpost)]
  rfl

theorem named_of_after {op : Token} {us : List Token} {x : Target} (h : IsTarget E us x)
    (hn : us.length ≤ ctx.limit) (hop : op.kind ∈ [.increment, .decrement]) :
    named expr ctx (us ++ op :: rest) = .ok (.incDec (.mk (.ofToken op) op.shown false x), rest) := by
  have hkind : op.kind = .increment ∨ op.kind = .decrement := by simpa using hop
  have hopen : HeadIs (· ≠ .lparen) (op :: rest) :=
    headIs_cons.mpr (by rcases hkind with h | h <;> simp [h])
  have hstops : Stops 6 (op :: rest) :=
    headIs_cons.mpr (by rcases hkind with h | h <;> simp [h, tightness])
  obtain ⟨t, hpeek, ht⟩ := peekSecond_of_isTarget hc h hopen
  unfold named
  rw [bind_of_ok hpeek, if_neg ht, bind_of_ok (target_of_isTarget hc he h hn hstops),
    bind_of_ok (accept?_of_mem hop)]
  rfl

theorem prefixed_of_isTarget {op : Token} {us : List Token} {x : Target} (h : IsTarget E us x)
    (hn : us.length ≤ ctx.limit) (hrest : Stops 6 rest) :
    prefixed expr ctx (op :: (us ++ rest)) = .ok (.mk (.ofToken op) op.shown true x, rest) := by
  unfold prefixed
  rw [bind_of_ok advance_cons, bind_of_ok (target_of_isTarget hc he h hn hrest)]
  rfl

omit hc he in
theorem stringLiteral_of_literal {t : Token} {e : Expr} (h : literal ctx t e) :
    stringLiteral t ctx ts = .ok (e, ts) := by
  unfold stringLiteral
  rw [bind_of_ok (a := ctx) rfl]
  unfold literal at h
  rw [h]
  rfl

omit hc he in
/-- What starts with a name is read by the rule for names. -/
theorem primary_of_ident {us : List Token} (h : StartsWith (· = .ident) us) :
    primary expr ctx us = named expr ctx us := by
  obtain ⟨t, us, rfl, ht⟩ := h
  unfold primary
  rw [bind_of_ok (a := t) rfl]
  simp only [ht]

omit hc he in
theorem primary_of_literalOf? {k : Token} {kind : CollectionKind} (h : literalOf? k.kind = some kind) :
    primary expr ctx (k :: ts) = collectionLiteral kind expr ctx (k :: ts) := by
  unfold primary
  rw [bind_of_ok (a := k) rfl]
  unfold literalOf? at h
  split at h <;> first | (rename_i hk; cases h; simp only [hk]) | cases h

omit hc he in
theorem primary_of_sizedOf? {k : Token} {kind : CollectionKind} (h : sizedOf? k.kind = some kind) :
    primary expr ctx (k :: ts) = sizedConstructor kind expr ctx (k :: ts) := by
  unfold primary
  rw [bind_of_ok (a := k) rfl]
  unfold sizedOf? at h
  split at h <;> first | (rename_i hk; cases h; simp only [hk]) | cases h

theorem primary_of_isPrimary {us : List Token} {e : Expr} (h : IsPrimary (literal ctx) E us e)
    (hn : us.length ≤ ctx.limit) (hrest : Stops 5 rest) :
    primary expr ctx (us ++ rest) = .ok (e, rest) := by
  cases h with
  | @int t ht =>
    unfold primary
    rw [List.singleton_append, bind_of_ok (a := t) rfl]
    simp only [ht]
    rw [bind_of_ok advance_cons]
    unfold number
    cases t.literal <;> rfl
  | @true t ht =>
    unfold primary
    rw [List.singleton_append, bind_of_ok (a := t) rfl]
    simp only [ht]
    rfl
  | @false t ht =>
    unfold primary
    rw [List.singleton_append, bind_of_ok (a := t) rfl]
    simp only [ht]
    rfl
  | @string t e ht hlit =>
    unfold primary
    rw [List.singleton_append, bind_of_ok (a := t) rfl]
    simp only [ht]
    rw [bind_of_ok advance_cons, stringLiteral_of_literal hlit]
  | @parens o c g ts g' e ho hg hts hg' hcl =>
    simp only [List.length_append, List.length_cons] at hn
    obtain ⟨hskip, hexpr, hskip'⟩ := enclosed he hg hts (by omega) hg' (t := c)
      (by simp [hcl, tightness]) (by simp [hcl]) rest
    unfold primary
    simp only [List.cons_append, List.append_assoc, List.nil_append]
    rw [bind_of_ok (a := o) rfl]
    simp only [ho]
    unfold parenthesized
    rw [bind_of_ok advance_cons, bind_of_ok hskip, bind_of_ok hexpr, bind_of_ok hskip',
      bind_of_ok (expect_of_kind hcl)]
    rfl
  | @before op ts x hop ht =>
    have hkind : op.kind = .increment ∨ op.kind = .decrement := by simpa using hop
    have hprefixed : prefixed expr ctx (op :: (ts ++ rest)) =
        .ok (.mk (.ofToken op) op.shown true x, rest) :=
      prefixed_of_isTarget hc he ht (Nat.le_of_succ_le hn)
        (hrest.mono fun _ hk => Nat.lt_succ_of_lt hk)
    unfold primary
    rw [List.cons_append, bind_of_ok (a := op) rfl]
    rcases hkind with hk | hk
    · simp only [hk]
      rw [bind_of_ok hprefixed]
      rfl
    · simp only [hk]
      rw [bind_of_ok hprefixed]
      rfl
  | @read ts x ht =>
    rw [primary_of_ident ((startsWith_of_isTarget ht).append _)]
    exact named_of_read hc he ht hn hrest
  | @after op ts x ht hop =>
    rw [List.length_append] at hn
    rw [List.append_assoc, List.singleton_append,
      primary_of_ident ((startsWith_of_isTarget ht).append _)]
    exact named_of_after hc he ht (by omega) hop
  | @call ts c hcall =>
    cases hcall with
    | @mk f o ts es hf ho hes =>
      have hcall := call_of_isCall hc he (.mk hf ho hes) hn rest
      rw [List.cons_append, List.cons_append] at hcall ⊢
      rw [primary_of_ident (startsWith_cons hf)]
      unfold named
      rw [bind_of_ok (a := o) rfl, if_pos ho, bind_of_ok hcall]
      rfl
  | @lambda ts l hl =>
    have hlambda := lambda_of_isLambda hc he hl hn rest
    obtain ⟨b, us, rfl, hb⟩ := startsWith_of_isLambda hl
    unfold primary
    rw [List.cons_append] at hlambda ⊢
    rw [bind_of_ok (a := b) rfl]
    simp only [hb]
    rw [bind_of_ok hlambda]
    rfl
  | @collection k o c g ts g' kind es hk ho hg hes hg' hcl =>
    simp only [List.length_append, List.length_cons] at hn
    simp only [List.cons_append, List.append_assoc, List.nil_append]
    rw [primary_of_literalOf? hk]
    exact collectionLiteral_of_separated hc he kind ho hg hes hg' hcl
      (by simp only [List.length_append, List.length_cons]; omega)
  | @sized k o c g ts g' cs ls h kind size l hk ho hg hsize hg' hcs hl hh hcl =>
    simp only [List.length_append, List.length_cons] at hn
    simp only [List.cons_append, List.append_assoc, List.nil_append]
    rw [primary_of_sizedOf? hk]
    exact sizedConstructor_of_sized hc he kind ho hg hsize hg' hcs hl hh hcl (by omega) (by omega)
  | @trailing k o c g ts g' ls kind size l hk ho hg hsize hg' hcl hl =>
    simp only [List.length_append, List.length_cons] at hn
    simp only [List.cons_append, List.append_assoc]
    rw [primary_of_sizedOf? hk]
    exact sizedConstructor_of_trailing hc he kind ho hg hsize hg' hcl hl (by omega) (by omega)

end Primary

/-! ## Operators -/

section Operators

variable (hc : ctx.eof.kind = .eof) {kinds : List Token.Kind}
  {make : Mark → String → Expr → Expr → Expr} {operand unary : Parser Expr} {R : Reading Expr}

theorem startsWith_of_chain (hstarts : ∀ us e, R us e → StartsWith startsExpr us) {us : List Token}
    {e : Expr} (h : Chain kinds make R us e) : StartsWith startsExpr us := by
  induction h with
  | one h => exact hstarts _ _ h
  | more _ _ _ _ ih => exact ih.append _

include hc

omit hc in
/-- A chain is parsed operand by operand: behind each of them the rule goes on with the turns left. -/
theorem chain_of_chain {n : Nat} (ho : Accepts ctx operand (n + 1) R)
    (hkinds : ∀ k ∈ kinds, tightness k = n) {us : List Token} {e : Expr}
    (h : Chain kinds make R us e) (hlen : us.length ≤ ctx.limit) (hrest : Stops (n + 1) rest) :
    ∃ turns, ctx.limit ≤ turns + us.length ∧
      chain kinds make operand ctx (us ++ rest) = chainAfter kinds make operand turns e ctx rest := by
  induction h generalizing rest with
  | @one ts e h =>
    refine ⟨ctx.limit, Nat.le_add_right _ _, ?_⟩
    unfold chain
    rw [bind_of_ok (ho.accepts _ _ _ h hlen hrest), bind_of_ok (a := ctx) rfl]
  | @more op ts g us l r hl hop hg hr ih =>
    simp only [List.length_append, List.length_cons] at hlen
    have hstops : Stops (n + 1) (op :: (g ++ (us ++ rest))) :=
      headIs_cons.mpr (by rw [hkinds _ hop]; exact Nat.lt_succ_self n)
    have hnext : HeadIs (· ≠ .newline) (us ++ rest) :=
      ((ho.starts us r hr).mono fun k hk => startsExpr_ne hk (by decide)).headIs _
    obtain ⟨turns, hturns, hchain⟩ := ih (by omega) hstops
    obtain ⟨turns, rfl⟩ : ∃ m, turns = m + 1 := ⟨turns - 1, by omega⟩
    refine ⟨turns, by simp only [List.length_append, List.length_cons]; omega, ?_⟩
    rw [List.append_assoc, List.cons_append, List.append_assoc, hchain, chainAfter,
      bind_of_ok (accept?_of_mem hop)]
    dsimp only
    rw [bind_of_ok (skipNewlines_append hg hnext),
      bind_of_ok (ho.accepts _ _ _ hr (by omega) hrest)]

theorem accepts_chain {n : Nat} (ho : Accepts ctx operand (n + 1) R)
    (hkinds : ∀ k ∈ kinds, tightness k = n) (hn : 0 < n) :
    Accepts ctx (chain kinds make operand) n (Chain kinds make R) := by
  refine ⟨fun us e => startsWith_of_chain ho.starts, fun us e rest h hlen hrest => ?_⟩
  obtain ⟨turns, -, hchain⟩ :=
    chain_of_chain ho hkinds h hlen (hrest.mono fun _ hk => Nat.lt_succ_of_lt hk)
  have hnone : HeadIs (· ∉ kinds) rest := hrest.mono fun k hk hmem => by
    rw [hkinds k hmem] at hk
    exact Nat.lt_irrefl n hk
  have heof : .eof ∉ kinds := fun hmem => by
    have := hkinds _ hmem
    simp only [tightness] at this
    omega
  rw [hchain]
  cases turns with
  | zero => rfl
  | succ turns =>
    rw [chainAfter, bind_of_ok (accept?_of_head hc heof hnone)]
    rfl

variable (hu : Accepts ctx unary 5 R)
include hu

theorem accepts_additive : Accepts ctx (additive unary) 3 (IsSum R) :=
  accepts_chain hc (accepts_chain hc hu (by decide) (by decide)) (by decide) (by decide)

theorem accepts_comparison : Accepts ctx (comparison unary) 2 (IsComparison R) := by
  have hsum := accepts_additive hc hu
  constructor
  · intro us e h
    cases h with
    | one h => exact hsum.starts _ _ h
    | two hl _ _ _ => exact (hsum.starts _ _ hl).append _
  · intro us e rest h hlen hrest
    unfold comparison
    cases h with
    | one h =>
      have hnone : HeadIs (· ∉ [.eq, .notEq, .lt, .gt, .le, .ge]) rest := hrest.mono fun k hk hmem => by
        have : ∀ k ∈ [Token.Kind.eq, .notEq, .lt, .gt, .le, .ge], tightness k = 2 := by decide
        rw [this k hmem] at hk
        exact Nat.lt_irrefl 2 hk
      rw [bind_of_ok (hsum.accepts _ _ _ h hlen (hrest.mono fun _ hk => Nat.lt_succ_of_lt hk)),
        bind_of_ok (accept?_of_head hc (by decide) hnone)]
      rfl
    | @two op ts g us l r hl hop hg hr =>
      simp only [List.length_append, List.length_cons] at hlen
      have hstops : Stops 3 (op :: (g ++ (us ++ rest))) := by
        have : ∀ k ∈ [Token.Kind.eq, .notEq, .lt, .gt, .le, .ge], tightness k < 3 := by decide
        exact headIs_cons.mpr (this _ hop)
      have hnext : HeadIs (· ≠ .newline) (us ++ rest) :=
        ((hsum.starts us r hr).mono fun k hk => startsExpr_ne hk (by decide)).headIs _
      simp only [List.append_assoc, List.cons_append]
      rw [bind_of_ok (hsum.accepts _ _ _ hl (by omega) hstops), bind_of_ok (accept?_of_mem hop)]
      dsimp only
      rw [bind_of_ok (skipNewlines_append hg hnext),
        bind_of_ok (hsum.accepts _ _ _ hr (by omega) (hrest.mono fun _ hk => Nat.lt_succ_of_lt hk))]
      rfl

theorem accepts_logical : Accepts ctx (logical unary) 1 (IsLogical R) :=
  accepts_chain hc (accepts_comparison hc hu) (by decide) (by decide)

end Operators

theorem startsWith_of_isUnary {lit : Token → Expr → Prop} {n : Nat} {us : List Token} {e : Expr}
    (h : IsUnary lit n us e) : StartsWith startsExpr us := by
  cases n with
  | zero => exact (startsWith_of_isPrimary h).mono fun _ => .inr
  | succ n =>
    obtain h | ⟨bang, us, x, hbang, -, rfl, -⟩ := h
    · exact (startsWith_of_isPrimary h).mono fun _ => .inr
    · exact startsWith_cons (by rw [hbang]; decide)

theorem unary_of_isPrimary (hc : ctx.eof.kind = .eof) {inner : Option (Parser Expr)}
    {expr : Parser Expr} {E : Reading Expr} (he : Accepts ctx expr 1 E) {us : List Token} {e : Expr}
    (h : IsPrimary (literal ctx) E us e) (hn : us.length ≤ ctx.limit) (hrest : Stops 5 rest) :
    unary inner expr ctx (us ++ rest) = .ok (e, rest) := by
  have hbang : HeadIs (· ∉ [.bang]) (us ++ rest) := by
    refine ((startsWith_of_isPrimary h).mono fun k hk hmem => ?_).headIs _
    rw [List.mem_singleton.mp hmem] at hk
    exact absurd hk (by decide)
  unfold unary
  rw [bind_of_ok (accept?_of_head hc (by decide) hbang)]
  exact primary_of_isPrimary hc he h hn hrest

/-- Expressions with few others inside are parsed as they are derived. -/
theorem accepts_level (hc : ctx.eof.kind = .eof) (n : Nat) :
    Accepts ctx (level n).expr 1 (IsExpr (literal ctx) n) ∧
      Accepts ctx (level n).unary 5 (IsUnary (literal ctx) n) := by
  induction n with
  | zero =>
    have hnone : Accepts ctx (fail .tooDeep) 1 fun _ _ => False := ⟨nofun, nofun⟩
    refine ⟨hnone, fun us e => startsWith_of_isUnary, fun us e rest h hn hrest => ?_⟩
    change unary none (fail .tooDeep) ctx (us ++ rest) = _
    exact unary_of_isPrimary hc hnone h hn hrest
  | succ n ih =>
    have hexpr := accepts_logical hc ih.2
    refine ⟨hexpr, fun us e => startsWith_of_isUnary, fun us e rest h hn hrest => ?_⟩
    change unary (some (level n).unary) (logical (level n).unary) ctx (us ++ rest) = _
    obtain h | ⟨bang, us, x, hbang, hx, rfl, rfl⟩ := h
    · exact unary_of_isPrimary hc hexpr h hn hrest
    · unfold unary
      rw [List.cons_append]
      rw [bind_of_ok (accept?_of_mem (by simp [hbang]))]
      dsimp only
      rw [bind_of_ok (ih.2.accepts _ _ _ hx (Nat.le_of_succ_le hn) hrest)]
      rfl

theorem accepts_expr (hc : ctx.eof.kind = .eof) :
    Accepts ctx expr 1 (IsExpr (literal ctx) maxDepth) := (accepts_level hc maxDepth).1

theorem wholeExpr_of_isWhole (hc : ctx.eof.kind = .eof) {us : List Token} {e : Expr}
    (h : IsWhole (literal ctx) maxDepth us e) (hn : us.length ≤ ctx.limit) :
    wholeExpr ctx us = .ok (e, []) := by
  have he := accepts_expr hc
  cases h with
  | @mk g ts g' e hg hts hg' =>
    simp only [List.length_append] at hn
    have hfirst : HeadIs (· ≠ .newline) (ts ++ g') :=
      ((he.starts _ _ hts).mono fun k hk => startsExpr_ne hk (by decide)).headIs _
    have hstops : Stops 1 g' := fun t ht => by
      rw [hg' t (List.mem_of_head? ht)]
      decide
    have hlast : skipNewlines ctx g' = .ok ((), []) := by
      have hnil : HeadIs (· ≠ .newline) [] := headIs_nil
      have hskip : skipNewlines ctx (g' ++ []) = .ok ((), []) := skipNewlines_append hg' hnil
      simpa using hskip
    unfold wholeExpr
    rw [bind_of_ok (skipNewlines_append hg hfirst), bind_of_ok (he.accepts _ _ _ hts (by omega) hstops),
      bind_of_ok hlast]
    rfl

/-- Tokens are one expression for the parser exactly if the grammar derives it from them. -/
theorem wholeExpr_eq_ok_iff (hc : ctx.eof.kind = .eof) {us : List Token} {e : Expr}
    (hn : us.length ≤ ctx.limit) :
    (∃ rest, wholeExpr ctx us = .ok (e, rest)) ↔ IsWhole (literal ctx) maxDepth us e :=
  ⟨fun ⟨_, h⟩ => (of_wholeExpr hc hn h).2, fun h => ⟨[], wholeExpr_of_isWhole hc h hn⟩⟩

end Parse

open Grammar

/-- Tokens are parsed as the grammar derives them. -/
theorem Expr.parse_eq_ok_iff {tokens : List Token} {e : Expr} : Expr.parse tokens = .ok e ↔
    IsWhole (Parse.literal (Parse.contextOf tokens)) Parse.maxDepth tokens e := by
  rw [← Parse.wholeExpr_eq_ok_iff (Parse.endToken_kind tokens) (Nat.le_refl _)]
  unfold Expr.parse Parse.run
  cases h : Parse.wholeExpr (Parse.contextOf tokens) tokens with
  | error d => simp
  | ok p =>
    obtain ⟨e', rest⟩ := p
    simp

end Kotlet

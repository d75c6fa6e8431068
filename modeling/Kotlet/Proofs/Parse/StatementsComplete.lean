import Kotlet.Proofs.Parse.Complete
import Kotlet.Proofs.Parse.Statements

/-!
# Derived statements are parsed

A statement ends where a separator, a closing brace or the end of the input comes, and no `else` of
its own is left.

* `typeWithin_of_split` : types whose last `>=` is split;
* `Closes` : what may stand behind a statement;
* `statement_of_isStatement` : a statement, given those inside it;
* `Program.parse_iff_isProgram` : the parser accepts what the grammar derives, and nothing else.
-/

namespace Kotlet
namespace Parse

open Grammar

variable {ctx : Context} {ts rest : List Token} {t : Token}

/-! ## Split types -/

theorem closeTypeArgument_of_split {q : Token} (hq : q.kind = .ge) :
    closeTypeArgument ctx (q :: ts) = .ok ((), secondHalf q :: ts) := by
  unfold closeTypeArgument
  rw [bind_of_ok (a := q) rfl]
  simp only [hq, if_true]
  rfl

/-- A type whose last token is the first half of a `>=` leaves the other half. -/
theorem typeWithin_of_split (hc : ctx.eof.kind = .eof) {depth : Nat} {us : List Token} {q : Token}
    {ty : Ty} (h : IsType (us ++ [firstHalf q]) ty) (hq : q.kind = .ge) (hdepth : us.length < depth)
    (hn : us.length < ctx.limit) :
    typeWithin depth ctx (us ++ q :: rest) = .ok (ty, secondHalf q :: rest) := by
  induction depth generalizing us ty with
  | zero => omega
  | succ depth ih =>
    generalize hwhole : us ++ [firstHalf q] = whole at h
    -- the last token of a longer type is that of its result
    have hlast {rs : List Token} {r : Ty} (before : List Token) (hr : IsType rs r)
        (heq : us ++ [firstHalf q] = before ++ rs) :
        ∃ vs, rs = vs ++ [firstHalf q] ∧ us = before ++ vs := by
      rcases List.eq_nil_or_concat rs with rfl | ⟨vs, t, rfl⟩
      · cases hr
      · rw [List.concat_eq_append, ← List.append_assoc] at heq
        obtain ⟨rfl, ht⟩ := List.append_inj' heq rfl
        cases ht
        exact ⟨vs, List.concat_eq_append, rfl⟩
    cases h with
    | scalar h =>
      obtain ⟨rfl, ht⟩ := List.append_inj' (hwhole.trans (List.nil_append _).symm) rfl
      cases ht
      cases h
    | @array a l e g s ha hl he hs hg =>
      obtain ⟨rfl, -⟩ : us = [a, l, e] ∧ _ := List.append_inj' hwhole rfl
      refine (typeWithin_of_collection (.inl ha) hl he hs (closeTypeArgument_of_split hq)).trans ?_
      rw [if_neg (by simp [ha])]
    | @list a l e g s ha hl he hs hg =>
      obtain ⟨rfl, -⟩ : us = [a, l, e] ∧ _ := List.append_inj' hwhole rfl
      refine (typeWithin_of_collection (.inr ha) hl he hs (closeTypeArgument_of_split hq)).trans ?_
      rw [if_pos ha]
    | @thunk o c a rs r ho hcl ha hr =>
      obtain ⟨vs, rfl, rfl⟩ := hlast [o, c, a] hr hwhole
      simp only [List.length_append, List.length_cons, List.length_nil] at hdepth hn
      exact typeWithin_of_thunk ho hcl ha (@ih vs r hr (by omega) (by omega))
    | @fn o c a ps rs params r ho hps hcl ha hr =>
      obtain ⟨vs, rfl, rfl⟩ := hlast (o :: (ps ++ [c, a])) hr (by simpa using hwhole)
      simp only [List.length_append, List.length_cons] at hdepth hn
      simp only [List.cons_append, List.append_assoc, List.nil_append]
      exact typeWithin_of_fn hc ho hps
        (fun vs ty rest hvs hlen => typeWithin_of_isType hc hvs (by omega) (by omega))
        (by omega) hcl ha (ih hr (by omega) (by omega))

theorem type_of_split (hc : ctx.eof.kind = .eof) {us : List Token} {q : Token} {ty : Ty}
    (h : IsType (us ++ [firstHalf q]) ty) (hq : q.kind = .ge) (hn : us.length < ctx.limit) :
    type ctx (us ++ q :: rest) = .ok (ty, secondHalf q :: rest) := by
  unfold type
  rw [bind_of_ok (a := ctx) rfl]
  exact typeWithin_of_split hc h hq (Nat.lt_succ_of_lt hn) hn

/-! ## Where statements end -/

/-- The kinds that statements start with. -/
def startsStmt (k : Token.Kind) : Prop :=
  k ∈ [.kwVar, .kwVal, .kwIf, .kwWhile, .kwFor, .kwFun, .kwReturn, .kwBreak, .kwContinue, .kwPrint,
    .kwPrintln, .lbrace, .increment, .decrement, .ident]

instance : DecidablePred startsStmt := fun k => by unfold startsStmt; infer_instance

/-- What may stand behind a statement: a separator or a closing brace, and behind line ends no
`else`. -/
structure Closes (ts : List Token) : Prop where
  head : HeadIs (fun k => k = .newline ∨ k = .semicolon ∨ k = .rbrace) ts
  noElse : HeadIs (· ≠ .kwElse) (ts.dropWhile fun t => t.kind == .newline)

theorem Closes.headIs {P : Token.Kind → Prop} (h : Closes ts) (hnewline : P .newline)
    (hsemicolon : P .semicolon) (hrbrace : P .rbrace) : HeadIs P ts :=
  h.head.mono fun k hk => by
    rcases hk with rfl | rfl | rfl
    · exact hnewline
    · exact hsemicolon
    · exact hrbrace

theorem Closes.stops (h : Closes ts) : Stops 1 ts :=
  h.headIs (by decide) (by decide) (by decide)

theorem closes_rbrace (ht : t.kind = .rbrace) : Closes (t :: ts) where
  head := headIs_cons.mpr (by simp [ht])
  noElse := by simp [HeadIs, ht]

theorem closes_nil : Closes [] := ⟨headIs_nil, headIs_nil⟩

/-- Behind separators no `else` comes if none comes behind all of them. -/
theorem closes_separators {seps : List Token} (hseps : Separators seps) (hne : seps ≠ [])
    (hrest : HeadIs (fun k => k ≠ .newline ∧ k ≠ .kwElse) rest) : Closes (seps ++ rest) := by
  have hkind {u : Token} (hu : u ∈ seps) : u.kind = .newline ∨ u.kind = .semicolon := by
    simpa [isSeparator] using hseps u hu
  have hhead : HeadIs (fun k => k = .newline ∨ k = .semicolon ∨ k = .rbrace) (seps ++ rest) := by
    obtain ⟨q, qs, rfl⟩ := List.exists_cons_of_ne_nil hne
    exact headIs_cons.mpr ((hkind List.mem_cons_self).imp_right .inl)
  refine ⟨hhead, ?_⟩
  clear hne hseps hhead
  induction seps with
  | nil =>
    cases rest with
    | nil => exact headIs_nil
    | cons t rest =>
      obtain ⟨hnewline, helse⟩ := headIs_cons.mp hrest
      rw [List.nil_append, List.dropWhile_cons_of_neg (by simp [hnewline])]
      exact headIs_cons.mpr helse
  | cons u us ih =>
    rcases hkind List.mem_cons_self with hu | hu
    · rw [List.cons_append, List.dropWhile_cons_of_pos (by simp [hu])]
      exact ih fun hv => hkind (List.mem_cons_of_mem _ hv)
    · rw [List.cons_append, List.dropWhile_cons_of_neg (by simp [hu])]
      exact headIs_cons.mpr (by simp [hu])

section Statements

variable (hc : ctx.eof.kind = .eof)
include hc

/-! ## Simple statements -/

theorem starts_expr {us : List Token} {e : Expr} (h : IsExpr (literal ctx) maxDepth us e) :
    StartsWith startsExpr us := (accepts_expr hc).starts us e h

/-- Behind line ends an expression is parsed up to where nothing goes on. -/
theorem expr_of_isExpr {us : List Token} {e : Expr} (h : IsExpr (literal ctx) maxDepth us e)
    (hn : us.length ≤ ctx.limit) (hrest : Stops 1 rest) : expr ctx (us ++ rest) = .ok (e, rest) :=
  (accepts_expr hc).accepts us e rest h hn hrest

theorem skipNewlines_of_isExpr {g us : List Token} {e : Expr} (hg : LineEnds g)
    (h : IsExpr (literal ctx) maxDepth us e) :
    skipNewlines ctx (g ++ (us ++ rest)) = .ok ((), us ++ rest) :=
  skipNewlines_append hg (((starts_expr hc h).mono fun _ hk => startsExpr_ne hk (by decide)).headIs _)

theorem valuePart_of_isValuePart {us : List Token} {value : Option Expr} (make : Option Expr → Stmt)
    (h : IsValuePart (IsExpr (literal ctx) maxDepth) us value) (hn : us.length ≤ ctx.limit)
    (hrest : Closes rest) : (do
      let value ←
        if ← accept .assign then do
          skipNewlines
          some <$> expr
        else pure none
      return make value : Parser Stmt) ctx (us ++ rest) = .ok (make value, rest) := by
  cases h with
  | none =>
    rw [List.nil_append, bind_of_ok (accept_of_head hc (by decide)
      (hrest.headIs (by decide) (by decide) (by decide))), if_neg (by decide)]
    rfl
  | @some q g ts e hq hg he =>
    simp only [List.length_cons, List.length_append] at hn
    simp only [List.cons_append, List.append_assoc]
    rw [bind_of_ok (accept_of_kind hq), if_pos rfl, bind_of_ok (skipNewlines_of_isExpr hc hg he),
      bind_of_ok (map_eq_ok.mpr ⟨e, expr_of_isExpr hc he (by omega) hrest.stops, rfl⟩)]
    rfl

omit hc in
theorem headIs_of_isValuePart {P : Token.Kind → Prop} {us : List Token} {value : Option Expr}
    (h : IsValuePart (IsExpr (literal ctx) maxDepth) us value) (hrest : Closes rest)
    (hassign : P .assign) (hnewline : P .newline) (hsemicolon : P .semicolon) (hrbrace : P .rbrace) :
    HeadIs P (us ++ rest) := by
  cases h with
  | none => exact hrest.headIs hnewline hsemicolon hrbrace
  | some hq _ _ => exact headIs_cons.mpr (by rw [hq]; exact hassign)

theorem declaration_of_decl {k n : Token} {ts vs : List Token} {ty : Option Ty} {value : Option Expr}
    (hn : n.kind = .ident) (hty : IsTypePart ts ty)
    (hv : IsValuePart (IsExpr (literal ctx) maxDepth) vs value)
    (hlen : ts.length + vs.length ≤ ctx.limit) (hrest : Closes rest) :
    declaration ctx (k :: n :: (ts ++ (vs ++ rest))) =
      .ok (.decl k (k.kind == .kwVar) (name n) ty value, rest) := by
  unfold declaration
  rw [bind_of_ok advance_cons, bind_of_ok (ident_of_kind hn)]
  have hvalue := valuePart_of_isValuePart hc
    (fun value => .decl k (k.kind == .kwVar) (name n) ty value) hv (by omega) hrest
  cases hty with
  | none =>
    have hcolon := headIs_of_isValuePart (P := (· ≠ .colon)) hv hrest (by decide) (by decide)
      (by decide) (by decide)
    rw [List.nil_append, bind_of_ok (accept_of_head hc (by decide) hcolon), if_neg (by decide),
      bind_of_ok (pure_eq_ok.mpr ⟨rfl, rfl⟩)]
    exact hvalue
  | some hcol htype =>
    rw [List.length_cons] at hlen
    rw [List.cons_append, bind_of_ok (accept_of_kind hcol), if_pos rfl,
      bind_of_ok (map_eq_ok.mpr ⟨_, type_of_isType hc htype (by omega), rfl⟩)]
    exact hvalue

theorem declaration_of_splitDecl {k n c q : Token} {us g vs : List Token} {ty : Ty} {value : Expr}
    (hn : n.kind = .ident) (hcol : c.kind = .colon) (hq : q.kind = .ge)
    (hty : IsType (us ++ [firstHalf q]) ty) (hg : LineEnds g)
    (hv : IsExpr (literal ctx) maxDepth vs value)
    (hlen : us.length + (g.length + vs.length) < ctx.limit) (hrest : Closes rest) :
    declaration ctx (k :: n :: c :: (us ++ q :: (g ++ (vs ++ rest)))) =
      .ok (.decl k (k.kind == .kwVar) (name n) (some ty) (some value), rest) := by
  unfold declaration
  rw [bind_of_ok advance_cons, bind_of_ok (ident_of_kind hn), bind_of_ok (accept_of_kind hcol),
    if_pos rfl, bind_of_ok (map_eq_ok.mpr ⟨_, type_of_split hc hty hq (by omega), rfl⟩)]
  have hpart : IsValuePart (IsExpr (literal ctx) maxDepth) (secondHalf q :: (g ++ vs)) (some value) :=
    .some rfl hg hv
  have hvalue := valuePart_of_isValuePart hc
    (fun value => .decl k (k.kind == .kwVar) (name n) (some ty) value) hpart
    (by simp only [List.length_cons, List.length_append]; omega) hrest
  simpa using hvalue

theorem condition_of_isCondition {us : List Token} {e : Expr}
    (h : IsCondition (IsExpr (literal ctx) maxDepth) us e) (hn : us.length ≤ ctx.limit) :
    condition ctx (us ++ rest) = .ok (e, rest) := by
  unfold condition
  cases h with
  | mk ho hg he hg' hcl =>
    simp only [List.length_cons, List.length_append] at hn
    obtain ⟨hskip, hexpr, hskip'⟩ := enclosed (accepts_expr hc) hg he (by omega) hg'
      (t := _) (by rw [hcl]; rfl) (by simp [hcl]) rest
    simp only [List.cons_append, List.append_assoc, List.nil_append]
    rw [bind_of_ok (expect_of_kind ho), bind_of_ok hskip, bind_of_ok hexpr, bind_of_ok hskip',
      bind_of_ok (expect_of_kind hcl)]
    rfl

theorem printing_of_isCondition (k : Token) {us : List Token} {e : Expr}
    (h : IsCondition (IsExpr (literal ctx) maxDepth) us e) (hn : us.length ≤ ctx.limit)
    (rest : List Token) :
    printing ctx (k :: (us ++ rest)) = .ok (.print k (k.kind == .kwPrintln) (some e), rest) := by
  unfold printing
  cases h with
  | @mk o c g ts g' e ho hg he hg' hcl =>
    simp only [List.length_cons, List.length_append] at hn
    obtain ⟨hskip, hexpr, hskip'⟩ := enclosed (accepts_expr hc) hg he (by omega) hg'
      (t := c) (by rw [hcl]; rfl) (by simp [hcl]) rest
    have hopen : HeadIs (· ≠ .rparen) (ts ++ (g' ++ c :: rest)) :=
      ((starts_expr hc he).mono fun _ hk => startsExpr_ne hk (by decide)).headIs _
    simp only [List.cons_append, List.append_assoc, List.nil_append]
    rw [bind_of_ok advance_cons, bind_of_ok (expect_of_kind ho), bind_of_ok hskip,
      bind_of_ok (nextIs_of_head hc (by decide) hopen), Bool.and_false, if_neg (by decide),
      bind_of_ok hexpr, bind_of_ok hskip', bind_of_ok (expect_of_kind hcl)]
    rfl

omit hc in
theorem printing_of_empty {k o c : Token} {g : List Token} (hk : k.kind = .kwPrintln)
    (ho : o.kind = .lparen) (hg : LineEnds g) (hcl : c.kind = .rparen) :
    printing ctx (k :: o :: (g ++ c :: rest)) = .ok (.print k true none, rest) := by
  unfold printing
  rw [bind_of_ok advance_cons, bind_of_ok (expect_of_kind ho),
    bind_of_ok (skipNewlines_append hg (headIs_cons.mpr (by simp [hcl]))),
    bind_of_ok (nextIs_of_kind hcl)]
  simp only [hk, beq_self_eq_true, Bool.and_self, if_true]
  rw [bind_of_ok advance_cons]
  rfl

omit hc in
theorem returning_of_none {k : Token} (hrest : Closes rest) :
    returning ctx (k :: rest) = .ok (.ret k none, rest) := by
  unfold returning
  rw [bind_of_ok advance_cons, bind_of_ok rfl, bind_of_ok rfl]
  cases rest with
  | nil => rfl
  | cons t rest =>
    have ht : (isSeparator t.kind || t.kind == .rbrace) = true := by
      rcases headIs_cons.mp hrest.head with ht | ht | ht <;> simp [ht, isSeparator]
    rw [if_pos (by simpa [Bool.or_assoc] using ht)]
    rfl

theorem returning_of_isExpr {k : Token} {us : List Token} {e : Expr}
    (h : IsExpr (literal ctx) maxDepth us e) (hn : us.length ≤ ctx.limit) (hrest : Closes rest) :
    returning ctx (k :: (us ++ rest)) = .ok (.ret k (some e), rest) := by
  have hexpr := expr_of_isExpr hc h hn hrest.stops
  obtain ⟨t, us, rfl, ht⟩ := starts_expr hc h
  have hgo : (isSeparator t.kind || t.kind == .rbrace) = false := by
    have hnewline : t.kind ≠ .newline := startsExpr_ne ht (by decide)
    have hsemicolon : t.kind ≠ .semicolon := startsExpr_ne ht (by decide)
    have hrbrace : t.kind ≠ .rbrace := startsExpr_ne ht (by decide)
    simp [isSeparator, hnewline, hsemicolon, hrbrace]
  unfold returning
  rw [bind_of_ok advance_cons, bind_of_ok rfl, bind_of_ok rfl, if_neg (by simpa using hgo),
    bind_of_ok hexpr]
  rfl

theorem namedStmt_of_call {i : Token} {us : List Token} {c : Call}
    (h : IsCall (IsExpr (literal ctx) maxDepth) (i :: us) c) (hn : us.length < ctx.limit) :
    namedStmt ctx (i :: (us ++ rest)) = .ok (.call i c, rest) := by
  have hcall : call expr ctx (i :: (us ++ rest)) = .ok (c, rest) :=
    call_of_isCall hc (accepts_expr hc) h hn rest
  cases h with
  | @mk _ o ts es hf ho hes =>
    unfold namedStmt
    rw [bind_of_ok (a := i) rfl, bind_of_ok (a := o) rfl, if_pos ho, bind_of_ok hcall]
    rfl

/-- What is known where a target stands before a token that makes it a statement. -/
theorem target_before {i : Token} {us : List Token} {x : Target} (q : Token)
    (h : IsTarget (IsExpr (literal ctx) maxDepth) (i :: us) x) (hn : us.length < ctx.limit)
    (hq : q.kind ∈ [.assign, .plusAssign, .minusAssign, .timesAssign, .slashAssign, .increment,
      .decrement]) (us' : List Token) :
    (∃ t, peekSecond ctx (i :: (us ++ q :: us')) = .ok (t, i :: (us ++ q :: us')) ∧
      t.kind ≠ .lparen) ∧ target expr ctx (i :: (us ++ q :: us')) = .ok (x, q :: us') := by
  have hkind : tightness q.kind < 6 ∧ q.kind ≠ .lparen := by
    simp only [List.mem_cons, List.not_mem_nil, or_false] at hq
    rcases hq with h | h | h | h | h | h | h <;> rw [h] <;> decide
  have htight : HeadIs (fun k => tightness k < 6) (q :: us') := headIs_cons.mpr hkind.1
  have hparen : HeadIs (fun k => k ≠ .lparen) (q :: us') := headIs_cons.mpr hkind.2
  have hpeek := peekSecond_of_isTarget hc h hparen
  have htarget := target_of_isTarget hc (accepts_expr hc) h hn htight
  rw [List.cons_append] at hpeek htarget
  exact ⟨hpeek, htarget⟩

theorem namedStmt_of_assign {i q : Token} {us g vs : List Token} {x : Target} {value : Expr}
    (h : IsTarget (IsExpr (literal ctx) maxDepth) (i :: us) x) (hq : q.kind = .assign)
    (hg : LineEnds g) (hv : IsExpr (literal ctx) maxDepth vs value)
    (hn : us.length + vs.length < ctx.limit) (hrest : Closes rest) :
    namedStmt ctx (i :: (us ++ q :: (g ++ (vs ++ rest)))) = .ok (.assign q x value, rest) := by
  obtain ⟨⟨t, hpeek, ht⟩, htarget⟩ := target_before hc q h (by omega) (by simp [hq]) (g ++ (vs ++ rest))
  unfold namedStmt
  rw [bind_of_ok (a := i) rfl, bind_of_ok hpeek, if_neg ht, bind_of_ok htarget, bind_of_ok (a := q) rfl]
  simp only [hq]
  rw [bind_of_ok advance_cons, bind_of_ok (skipNewlines_of_isExpr hc hg hv),
    bind_of_ok (expr_of_isExpr hc hv (by omega) hrest.stops)]
  rfl

theorem namedStmt_of_compound {i q : Token} {us g vs : List Token} {x : Target} {value : Expr}
    (h : IsTarget (IsExpr (literal ctx) maxDepth) (i :: us) x)
    (hq : q.kind ∈ [.plusAssign, .minusAssign, .timesAssign, .slashAssign])
    (hg : LineEnds g) (hv : IsExpr (literal ctx) maxDepth vs value)
    (hn : us.length + vs.length < ctx.limit) (hrest : Closes rest) :
    namedStmt ctx (i :: (us ++ q :: (g ++ (vs ++ rest)))) =
      .ok (.compound q x q.shown value, rest) := by
  have hrun : (do
      let _ ← advance
      skipNewlines
      return .compound q x q.shown (← expr) : Parser Stmt) ctx (q :: (g ++ (vs ++ rest))) =
        .ok (.compound q x q.shown value, rest) := by
    rw [bind_of_ok advance_cons, bind_of_ok (skipNewlines_of_isExpr hc hg hv),
      bind_of_ok (expr_of_isExpr hc hv (by omega) hrest.stops)]
    rfl
  simp only [List.mem_cons, List.not_mem_nil, or_false] at hq
  obtain ⟨⟨t, hpeek, ht⟩, htarget⟩ := target_before hc q h (by omega) (by simp; grind)
    (g ++ (vs ++ rest))
  unfold namedStmt
  rw [bind_of_ok (a := i) rfl, bind_of_ok hpeek, if_neg ht, bind_of_ok htarget, bind_of_ok (a := q) rfl]
  rcases hq with hq | hq | hq | hq <;> simp only [hq] <;> exact hrun

theorem namedStmt_of_after {i q : Token} {us : List Token} {x : Target}
    (h : IsTarget (IsExpr (literal ctx) maxDepth) (i :: us) x)
    (hq : q.kind ∈ [.increment, .decrement]) (hn : us.length < ctx.limit) :
    namedStmt ctx (i :: (us ++ q :: rest)) =
      .ok (.selfOp i (.mk (.ofToken q) q.shown false x), rest) := by
  simp only [List.mem_cons, List.not_mem_nil, or_false] at hq
  obtain ⟨⟨t, hpeek, ht⟩, htarget⟩ := target_before hc q h hn (by simp; grind) rest
  unfold namedStmt
  rw [bind_of_ok (a := i) rfl, bind_of_ok hpeek, if_neg ht, bind_of_ok htarget, bind_of_ok (a := q) rfl]
  rcases hq with hq | hq <;> simp only [hq] <;> rfl

theorem header_of_isHeader {us : List Token} {x : Header}
    (h : IsHeader (IsExpr (literal ctx) maxDepth) us x) (hn : us.length ≤ ctx.limit)
    (ht : t.kind = .rparen) : header ctx (us ++ t :: rest) = .ok (x, t :: rest) := by
  have hstops : Stops 1 (t :: rest) := headIs_cons.mpr (by rw [ht]; decide)
  unfold header
  cases h with
  | each he =>
    rw [bind_of_ok (expr_of_isExpr hc he hn hstops),
      bind_of_ok (accept?_of_head hc (by decide) (headIs_cons.mpr (by simp [ht])))]
    rfl
  | @range d ts us vs first last step hfirst hd hlast hstep =>
    simp only [List.length_append, List.length_cons] at hn
    simp only [List.append_assoc, List.cons_append]
    have hsteps : HeadIs (fun k => tightness k < 1) (vs ++ t :: rest) := by
      cases hstep with
      | none => exact hstops
      | some hs _ => exact headIs_cons.mpr (by rw [hs]; decide)
    rw [bind_of_ok (expr_of_isExpr hc hfirst (by omega) (headIs_cons.mpr (by rw [hd]; decide))),
      bind_of_ok (accept?_of_mem (by simp [hd]))]
    dsimp only
    rw [bind_of_ok (expr_of_isExpr hc hlast (by omega) hsteps)]
    cases hstep with
    | none =>
      rw [List.nil_append, bind_of_ok (accept_of_head hc (by decide) (headIs_cons.mpr (by simp [ht]))),
        if_neg (by decide), bind_of_ok (pure_eq_ok.mpr ⟨rfl, rfl⟩)]
      rfl
    | some hs he =>
      rw [List.length_cons] at hn
      rw [List.cons_append, bind_of_ok (accept_of_kind hs), if_pos rfl,
        bind_of_ok (map_eq_ok.mpr ⟨_, expr_of_isExpr hc he (by omega) hstops, rfl⟩)]
      rfl

/-- A parameter with a type is one where types are required. -/
theorem parameter_of_required {us : List Token} {p : Param} (h : IsParam us p) (hty : p.ty ≠ none)
    (hn : us.length ≤ ctx.limit) : parameter true ctx (us ++ rest) = .ok (p, rest) := by
  unfold parameter
  cases h with
  | bare ht => exact absurd rfl hty
  | typed ht hcol htype =>
    simp only [List.length_cons] at hn
    rw [List.cons_append, List.cons_append, bind_of_ok (ident_of_kind ht),
      bind_of_ok (accept_of_kind hcol), if_pos rfl, bind_of_ok (type_of_isType hc htype (by omega))]
    rfl

omit hc in
/-- Parameters start with a name, if there are any. -/
theorem headIs_of_areParams {P : Token.Kind → Prop} {us : List Token} {ps : List Param}
    (h : AreParams us ps) (hident : P .ident) (hrest : HeadIs P rest) : HeadIs P (us ++ rest) := by
  have hparam {vs : List Token} {p : Param} (hp : IsParam vs p) (rest : List Token) :
      HeadIs P (vs ++ rest) :=
    ((startsWith_of_isParam hp).mono fun k hk => by rw [hk]; exact hident).headIs _
  cases h with
  | nil => exact hrest
  | last hp _ _ =>
    rw [List.append_assoc]
    exact hparam hp _
  | more hp _ _ _ _ _ =>
    rw [List.append_assoc]
    exact hparam hp _

theorem functionParams_of_areParams {us : List Token} {ps : List Param} (h : AreParams us ps)
    (hn : us.length ≤ ctx.limit) {turns : Nat} (hturns : ps.length < turns) (acc : List Param)
    (ht : t.kind = .rparen) :
    functionParams turns acc ctx (us ++ t :: rest) = .ok (acc.reverse ++ ps, t :: rest) := by
  have hopen {vs : List Token} {p : Param} (hp : IsParam vs p) (rest : List Token) :
      HeadIs (· ≠ .rparen) (vs ++ rest) :=
    ((startsWith_of_isParam hp).mono fun _ hk => by simp [hk]).headIs _
  induction h generalizing turns acc with
  | nil =>
    obtain ⟨turns, rfl⟩ := Nat.exists_eq_succ_of_ne_zero (Nat.ne_of_gt hturns)
    unfold functionParams
    rw [List.nil_append, bind_of_ok (nextIs_of_kind ht), if_pos rfl]
    simp [pure_eq_ok]
  | @last ts g p hp hty hg =>
    obtain ⟨turns, rfl⟩ := Nat.exists_eq_succ_of_ne_zero (Nat.ne_of_gt (Nat.zero_lt_of_lt hturns))
    rw [List.length_append] at hn
    unfold functionParams
    rw [List.append_assoc, bind_of_ok (nextIs_of_head hc (by decide) (hopen hp _)), if_neg (by decide),
      bind_of_ok (parameter_of_required hc hp hty (by omega)),
      bind_of_ok (skipNewlines_append hg (headIs_cons.mpr (by simp [ht]))),
      bind_of_ok (accept_of_head hc (by decide) (headIs_cons.mpr (by simp [ht]))), if_neg (by decide)]
    simp [pure_eq_ok]
  | @more c ts g g' us p ps hp hty hg hcom hg' hps ih =>
    obtain ⟨turns, rfl⟩ := Nat.exists_eq_succ_of_ne_zero (Nat.ne_of_gt (Nat.zero_lt_of_lt hturns))
    simp only [List.length_append, List.length_cons] at hn hturns
    have hnext : HeadIs (· ≠ .newline) (us ++ t :: rest) :=
      headIs_of_areParams hps (by decide) (headIs_cons.mpr (by simp [ht]))
    unfold functionParams
    simp only [List.append_assoc, List.cons_append]
    rw [bind_of_ok (nextIs_of_head hc (by decide) (hopen hp _)), if_neg (by decide),
      bind_of_ok (parameter_of_required hc hp hty (by omega)),
      bind_of_ok (skipNewlines_append hg (headIs_cons.mpr (by simp [hcom]))),
      bind_of_ok (accept_of_kind hcom), if_pos rfl, bind_of_ok (skipNewlines_append hg' hnext),
      ih (by omega) (by omega) (p :: acc)]
    simp

/-! ## Statements that hold others -/

section Nested

variable {stmt : Parser Stmt} {S : Reading Stmt} {n : Nat}
  (hstarts : ∀ us s, S us s → StartsWith startsStmt us)
  (hs : ∀ us s rest, S us s → us.length ≤ n → us.length ≤ ctx.limit → Closes rest →
    stmt ctx (us ++ rest) = .ok (s, rest))

omit hc in
theorem skipSeparators_append {seps : List Token} (hseps : Separators seps)
    (hrest : HeadIs (fun k => isSeparator k = false) rest) :
    skipSeparators ctx (seps ++ rest) = .ok ((), rest) := by
  have hdrop : rest.dropWhile (fun t => isSeparator t.kind) = rest := by
    cases rest with
    | nil => rfl
    | cons t rest => exact List.dropWhile_cons_of_neg (by simp [headIs_cons.mp hrest])
  change Except.ok ((), (seps ++ rest).dropWhile fun t => isSeparator t.kind) = _
  rw [List.dropWhile_append_of_pos hseps, hdrop]

omit hc in
include hstarts in
/-- Statements start like the first of them. -/
theorem headIs_of_areStmts {P : Token.Kind → Prop} {us : List Token} {ss : List Stmt}
    (h : AreStmts S us ss) (hP : ∀ k, startsStmt k → P k) (hrest : HeadIs P rest) :
    HeadIs P (us ++ rest) := by
  cases h with
  | nil => exact hrest
  | last h => exact ((hstarts _ _ h).mono hP).headIs _
  | more h _ _ _ =>
    rw [List.append_assoc]
    exact ((hstarts _ _ h).mono hP).headIs _

omit hc in
theorem startsStmt_ne {k k' : Token.Kind} (h : startsStmt k) (hk' : ¬ startsStmt k') : k ≠ k' :=
  fun heq => hk' (heq ▸ h)

omit hc in
theorem isSeparator_of_startsStmt {k : Token.Kind} (h : startsStmt k) : isSeparator k = false := by
  have hnewline : k ≠ .newline := startsStmt_ne h (by decide)
  have hsemicolon : k ≠ .semicolon := startsStmt_ne h (by decide)
  simp [isSeparator, hnewline, hsemicolon]

omit hc in
include hstarts in
/-- Behind a statement and separators other statements come, or what ends them. -/
theorem closes_of_areStmts {seps us : List Token} {ss : List Stmt} (hseps : Separators seps)
    (hne : seps ≠ []) (h : AreStmts S us ss) (hrest : HeadIs (fun k => k ≠ .newline ∧ k ≠ .kwElse) rest) :
    Closes (seps ++ (us ++ rest)) :=
  closes_separators hseps hne (headIs_of_areStmts hstarts h
    (fun _ hk => ⟨startsStmt_ne hk (by decide), startsStmt_ne hk (by decide)⟩) hrest)

omit hc in
include hstarts in
theorem skipSeparators_of_areStmts {seps us : List Token} {ss : List Stmt} (hseps : Separators seps)
    (h : AreStmts S us ss) (ctx : Context) (hrest : HeadIs (fun k => isSeparator k = false) rest) :
    skipSeparators ctx (seps ++ (us ++ rest)) = .ok ((), us ++ rest) :=
  skipSeparators_append hseps (headIs_of_areStmts hstarts h (fun _ => isSeparator_of_startsStmt) hrest)

include hstarts hs

theorem stmtsAfter_of_areStmts {us : List Token} {ss : List Stmt} (h : AreStmts S us ss)
    (hlen : us.length ≤ n) (hn : us.length ≤ ctx.limit) {turns : Nat} (hturns : us.length < turns)
    (acc : List Stmt) (ht : t.kind = .rbrace) :
    stmtsAfter stmt turns acc ctx (us ++ t :: rest) = .ok (acc.reverse ++ ss, t :: rest) := by
  have hopen {vs : List Token} {s : Stmt} (hvs : S vs s) (rest : List Token) :
      nextIs .rbrace ctx (vs ++ rest) = .ok (false, vs ++ rest) ∧
        atEnd ctx (vs ++ rest) = .ok (false, vs ++ rest) := by
    obtain ⟨u, vs, rfl, hu⟩ := hstarts _ _ hvs
    exact ⟨nextIs_of_head hc (by decide) (headIs_cons.mpr (startsStmt_ne hu (by decide))), rfl⟩
  induction h generalizing turns acc with
  | nil =>
    obtain ⟨turns, rfl⟩ := Nat.exists_eq_succ_of_ne_zero (Nat.ne_of_gt (Nat.zero_lt_of_lt hturns))
    unfold stmtsAfter
    rw [List.nil_append, bind_of_ok (nextIs_of_kind ht), if_pos rfl]
    simp [pure_eq_ok]
  | @last ts s h =>
    obtain ⟨turns, rfl⟩ := Nat.exists_eq_succ_of_ne_zero (Nat.ne_of_gt (Nat.zero_lt_of_lt hturns))
    obtain ⟨hnext, hend⟩ := hopen h (t :: rest)
    unfold stmtsAfter
    rw [bind_of_ok hnext, if_neg (by decide), bind_of_ok hend, if_neg (by decide)]
    dsimp only
    rw [bind_of_ok (hs _ _ _ h hlen hn (closes_rbrace ht)), bind_of_ok (nextIs_of_kind ht), if_pos rfl]
    simp [pure_eq_ok]
  | @more ts seps us s ss h hseps hne hss ih =>
    obtain ⟨turns, rfl⟩ := Nat.exists_eq_succ_of_ne_zero (Nat.ne_of_gt (Nat.zero_lt_of_lt hturns))
    simp only [List.length_append] at hlen hn hturns
    have hpos := List.length_pos_iff.mpr hne
    obtain ⟨hnext, hend⟩ := hopen h (seps ++ (us ++ t :: rest))
    have hcloses : Closes (seps ++ (us ++ t :: rest)) :=
      closes_of_areStmts hstarts hseps hne hss (headIs_cons.mpr (by simp [ht]))
    have hskip : skipSeparators ctx (seps ++ (us ++ t :: rest)) = .ok ((), us ++ t :: rest) :=
      skipSeparators_of_areStmts hstarts hseps hss ctx (headIs_cons.mpr (by rw [ht]; rfl))
    have hstmt := hs _ _ _ h (by omega) (by omega) hcloses
    have hrest := @ih (by omega) (by omega) turns (by omega) (s :: acc)
    obtain ⟨q, qs, rfl⟩ := List.exists_cons_of_ne_nil hne
    rw [List.cons_append] at hskip
    have hq : isSeparator q.kind = true := hseps q List.mem_cons_self
    have hbrace : q.kind ≠ .rbrace := fun hk => by rw [hk] at hq; cases hq
    unfold stmtsAfter
    simp only [List.append_assoc]
    rw [bind_of_ok hnext, if_neg (by decide), bind_of_ok hend, if_neg (by decide)]
    rw [bind_of_ok hstmt, List.cons_append,
      bind_of_ok (nextIs_of_head hc (by decide) (headIs_cons.mpr hbrace)), if_neg (by decide),
      bind_of_ok (a := false) rfl, if_neg (by decide)]
    rw [bind_of_ok (a := q) rfl, if_neg (by simp [hq])]
    rw [bind_of_ok hskip, hrest]
    simp

theorem block_of_isBlock {us : List Token} {b : Block} (h : IsBlock S us b) (hlen : us.length ≤ n + 1)
    (hn : us.length ≤ ctx.limit) (rest : List Token) :
    block stmt ctx (us ++ rest) = .ok (b, rest) := by
  cases h with
  | @mk o c seps ts ss ho hseps hss hcl =>
    simp only [List.length_append, List.length_cons] at hlen hn
    have hskip : skipSeparators ctx (seps ++ (ts ++ c :: rest)) = .ok ((), ts ++ c :: rest) :=
      skipSeparators_of_areStmts hstarts hseps hss ctx (headIs_cons.mpr (by rw [hcl]; rfl))
    unfold block
    simp only [List.cons_append, List.append_assoc, List.nil_append]
    rw [bind_of_ok (expect_of_kind ho), bind_of_ok hskip, bind_of_ok (a := ctx) rfl,
      bind_of_ok (stmtsAfter_of_areStmts hc hstarts hs hss (by omega) (by omega) (by omega) [] hcl),
      bind_of_ok advance_cons]
    rfl

omit hc hstarts hs in
theorem startsWith_of_isBlock {us : List Token} {b : Block} (h : IsBlock S us b) :
    StartsWith (· = .lbrace) us := by
  cases h with
  | mk ho _ _ _ => exact startsWith_cons ho

omit hc hstarts hs in
/-- Behind line ends comes the block. -/
theorem skipNewlines_of_isBlock {g us : List Token} {b : Block} (hg : LineEnds g) (h : IsBlock S us b) :
    skipNewlines ctx (g ++ (us ++ rest)) = .ok ((), us ++ rest) :=
  skipNewlines_append hg (((startsWith_of_isBlock h).mono fun _ hk => by simp [hk]).headIs _)

omit hstarts hs in
theorem acceptElse_of_closes (hrest : Closes rest) : acceptElse ctx rest = .ok (false, rest) := by
  have hskip : skipNewlines ctx rest = .ok ((), rest.dropWhile fun t => t.kind == .newline) := rfl
  unfold acceptElse
  rw [bind_of_ok (a := rest) rfl, bind_of_ok hskip,
    bind_of_ok (accept_of_head hc (by decide) hrest.noElse), if_neg (by decide)]
  rfl

omit hc hstarts hs in
theorem acceptElse_of_kind {g : List Token} {e : Token} (hg : LineEnds g) (he : e.kind = .kwElse) :
    acceptElse ctx (g ++ e :: rest) = .ok (true, rest) := by
  unfold acceptElse
  rw [bind_of_ok (a := g ++ e :: rest) rfl,
    bind_of_ok (skipNewlines_append hg (headIs_cons.mpr (by simp [he]))),
    bind_of_ok (accept_of_kind he), if_pos rfl]
  rfl

theorem ifStmt_of_ifElse {k : Token} {cs g as bs : List Token} {cond : Expr} {a : Block}
    {b : Option Block} (hcond : IsCondition (IsExpr (literal ctx) maxDepth) cs cond) (hg : LineEnds g)
    (ha : IsBlock S as a) (hb : IsElsePart S bs b)
    (hlen : as.length + bs.length ≤ n) (hn : cs.length + (as.length + bs.length) ≤ ctx.limit)
    (hrest : Closes rest) :
    ifStmt stmt ctx (k :: (cs ++ (g ++ (as ++ (bs ++ rest))))) = .ok (.ifElse k cond a b, rest) := by
  unfold ifStmt
  rw [bind_of_ok advance_cons, bind_of_ok (condition_of_isCondition hc hcond (by omega)),
    bind_of_ok (skipNewlines_of_isBlock hg ha),
    bind_of_ok (block_of_isBlock hc hstarts hs ha (by omega) (by omega) _)]
  cases hb with
  | none =>
    rw [List.nil_append, bind_of_ok (acceptElse_of_closes hc hrest), if_neg (by decide)]
    rfl
  | @block e g g' bs b hg he hg' hb =>
    simp only [List.length_append, List.length_cons] at hlen hn
    simp only [List.append_assoc, List.cons_append]
    rw [bind_of_ok (acceptElse_of_kind hg he), if_pos rfl, bind_of_ok (skipNewlines_of_isBlock hg' hb),
      bind_of_ok (nextIs_of_head hc (by decide)
        (((startsWith_of_isBlock hb).mono fun _ hk => by simp [hk]).headIs _)), if_neg (by decide),
      bind_of_ok (block_of_isBlock hc hstarts hs hb (by omega) (by omega) _)]
    rfl
  | @chained e i g g' ts s hg he hg' hi hs' =>
    simp only [List.length_append, List.length_cons] at hlen hn
    simp only [List.append_assoc, List.cons_append]
    have hstmt : stmt ctx (i :: (ts ++ rest)) = .ok (s, rest) :=
      hs (i :: ts) s rest hs' (by simp only [List.length_cons]; omega)
        (by simp only [List.length_cons]; omega) hrest
    rw [bind_of_ok (acceptElse_of_kind hg he), if_pos rfl,
      bind_of_ok (skipNewlines_append hg' (headIs_cons.mpr (by simp [hi]))),
      bind_of_ok (nextIs_of_kind hi), if_pos rfl, bind_of_ok hstmt]
    rfl

theorem whileStmt_of_whileLoop {k : Token} {cs g bs : List Token} {cond : Expr} {b : Block}
    (hcond : IsCondition (IsExpr (literal ctx) maxDepth) cs cond) (hg : LineEnds g)
    (hb : IsBlock S bs b) (hlen : bs.length ≤ n) (hn : cs.length + bs.length ≤ ctx.limit) :
    whileStmt stmt ctx (k :: (cs ++ (g ++ (bs ++ rest)))) = .ok (.whileLoop k cond b, rest) := by
  unfold whileStmt
  rw [bind_of_ok advance_cons, bind_of_ok (condition_of_isCondition hc hcond (by omega)),
    bind_of_ok (skipNewlines_of_isBlock hg hb),
    bind_of_ok (block_of_isBlock hc hstarts hs hb (by omega) (by omega) _)]
  rfl

theorem forStmt_of_forLoop {k o x i c : Token} {us g bs : List Token} {y : Header} {b : Block}
    (ho : o.kind = .lparen) (hx : x.kind = .ident) (hi : i.kind = .kwIn)
    (hh : IsHeader (IsExpr (literal ctx) maxDepth) us y) (hcl : c.kind = .rparen) (hg : LineEnds g)
    (hb : IsBlock S bs b) (hlen : bs.length ≤ n) (hn : us.length + bs.length ≤ ctx.limit) :
    forStmt stmt ctx (k :: o :: x :: i :: (us ++ c :: (g ++ (bs ++ rest)))) =
      .ok (.forLoop k (name x) y b, rest) := by
  unfold forStmt
  rw [bind_of_ok advance_cons, bind_of_ok (expect_of_kind ho), bind_of_ok (ident_of_kind hx),
    bind_of_ok (expect_of_kind hi), bind_of_ok (header_of_isHeader hc hh (by omega) hcl),
    bind_of_ok (expect_of_kind hcl), bind_of_ok (skipNewlines_of_isBlock hg hb),
    bind_of_ok (block_of_isBlock hc hstarts hs hb (by omega) (by omega) _)]
  rfl

omit hc hstarts hs in
theorem AreParams.length_le {us : List Token} {ps : List Param} (h : AreParams us ps) :
    ps.length ≤ us.length := by
  have hpos {vs : List Token} {p : Param} (hp : IsParam vs p) : 0 < vs.length := by
    cases hp <;> exact Nat.succ_pos _
  induction h with
  | nil => exact Nat.le_refl _
  | last hp _ _ =>
    have := hpos hp
    simp only [List.length_append, List.length_cons, List.length_nil]
    omega
  | more hp _ _ _ _ _ ih =>
    have := hpos hp
    simp only [List.length_append, List.length_cons]
    omega

theorem functionStmt_of_function {k x o c : Token} {g ps ts g' bs : List Token} {params : List Param}
    {result : Option Ty} {b : Block} (hx : x.kind = .ident) (ho : o.kind = .lparen) (hg : LineEnds g)
    (hps : AreParams ps params) (hdistinct : (params.map fun p => p.name.name).Nodup)
    (hcl : c.kind = .rparen) (hr : IsTypePart ts result) (hg' : LineEnds g') (hb : IsBlock S bs b)
    (hlen : bs.length ≤ n) (hn : ps.length + (ts.length + bs.length) ≤ ctx.limit) :
    functionStmt stmt ctx (k :: x :: o :: (g ++ (ps ++ c :: (ts ++ (g' ++ (bs ++ rest)))))) =
      .ok (.function (.mk k (name x) params (result.getD .unit) b), rest) := by
  have hparams := AreParams.length_le hps
  have hopen : HeadIs (· ≠ .newline) (ps ++ c :: (ts ++ (g' ++ (bs ++ rest)))) :=
    headIs_of_areParams hps (by decide) (headIs_cons.mpr (by simp [hcl]))
  have hread : functionParams (ctx.limit + 1) [] ctx (ps ++ c :: (ts ++ (g' ++ (bs ++ rest)))) =
      .ok (params, c :: (ts ++ (g' ++ (bs ++ rest)))) :=
    functionParams_of_areParams hc hps (by omega) (by omega) [] hcl
  unfold functionStmt
  rw [bind_of_ok advance_cons, bind_of_ok (ident_of_kind hx), bind_of_ok (expect_of_kind ho),
    bind_of_ok (skipNewlines_append hg hopen), bind_of_ok (a := ctx) rfl,
    bind_of_ok hread, bind_of_ok (expect_of_kind hcl),
    bind_of_ok ((checkParams_eq_ok (u := ())).mpr ⟨hdistinct, rfl⟩)]
  cases hr with
  | none =>
    have hbrace : HeadIs (· ≠ .colon) (g' ++ (bs ++ rest)) := by
      cases g' with
      | nil => exact ((startsWith_of_isBlock hb).mono fun _ hk => by simp [hk]).headIs _
      | cons t g' => exact headIs_cons.mpr (by simp [hg' t List.mem_cons_self])
    rw [List.nil_append, bind_of_ok (accept_of_head hc (by decide) hbrace), if_neg (by decide),
      bind_of_ok (pure_eq_ok.mpr ⟨rfl, rfl⟩)]
    dsimp only
    rw [bind_of_ok (skipNewlines_of_isBlock hg' hb),
      bind_of_ok (block_of_isBlock hc hstarts hs hb (by omega) (by omega) _)]
    rfl
  | some hcol hty =>
    rw [List.length_cons] at hn
    rw [List.cons_append, bind_of_ok (accept_of_kind hcol), if_pos rfl,
      bind_of_ok (type_of_isType hc hty (by omega))]
    dsimp only
    rw [bind_of_ok (skipNewlines_of_isBlock hg' hb),
      bind_of_ok (block_of_isBlock hc hstarts hs hb (by omega) (by omega) _)]
    rfl

omit hc hstarts hs in
theorem startsWith_of_isStatement {us : List Token} {s : Stmt}
    (h : IsStatement (IsExpr (literal ctx) maxDepth) S us s) : StartsWith startsStmt us := by
  have hmem {k : Token} {us : List Token} {kinds : List Token.Kind} (hk : k.kind ∈ kinds)
      (hkinds : ∀ k ∈ kinds, startsStmt k) : StartsWith startsStmt (k :: us) :=
    startsWith_cons (hkinds _ hk)
  have htarget {us : List Token} {x : Target} (hx : IsTarget (IsExpr (literal ctx) maxDepth) us x) :
      StartsWith startsStmt us := (startsWith_of_isTarget hx).mono fun k hk => by rw [hk]; decide
  cases h with
  | decl hk | splitDecl hk | print hk => exact hmem hk (by decide)
  | before hop => exact hmem hop (by decide)
  | assign hx | compound hx => exact (htarget hx).append _
  | after hx => exact (htarget hx).append _
  | call hcall =>
    cases hcall with
    | mk hf _ _ => exact startsWith_cons (by rw [hf]; decide)
  | block hb => exact (startsWith_of_isBlock hb).mono fun k hk => by rw [hk]; decide
  | printEmpty hk | ret hk | retValue hk | brk hk | cont hk | ifElse hk | whileLoop hk | forLoop hk
  | function hk => exact startsWith_cons (by rw [hk]; decide)

/-- The kind of the first token tells which rule reads a statement. -/
theorem statement_of_isStatement {us : List Token} {s : Stmt}
    (h : IsStatement (IsExpr (literal ctx) maxDepth) S us s) (hlen : us.length ≤ n + 1)
    (hn : us.length ≤ ctx.limit) (hrest : Closes rest) :
    statement stmt ctx (us ++ rest) = .ok (s, rest) := by
  have hpeek {t : Token} {ts : List Token} : peek ctx (t :: ts) = .ok (t, t :: ts) := rfl
  unfold statement
  cases h with
  | @decl k x ts vs ty value hk hx hty hv =>
    simp only [List.length_cons, List.length_append] at hn
    simp only [List.cons_append, List.append_assoc]
    have hrun := declaration_of_decl (k := k) hc hx hty hv (by omega) hrest
    rw [bind_of_ok hpeek]
    simp only [List.mem_cons, List.not_mem_nil, or_false] at hk
    rcases hk with hk | hk <;> simp only [hk] at hrun ⊢ <;> exact hrun
  | @splitDecl k x c q us g vs ty value hk hx hcol hq hty hg hv =>
    simp only [List.length_cons, List.length_append] at hn
    simp only [List.cons_append, List.append_assoc]
    have hrun := declaration_of_splitDecl (k := k) hc hx hcol hq hty hg hv (by omega) hrest
    rw [bind_of_ok hpeek]
    simp only [List.mem_cons, List.not_mem_nil, or_false] at hk
    rcases hk with hk | hk <;> simp only [hk] at hrun ⊢ <;> exact hrun
  | @assign q ts g vs x value hx hq hg hv =>
    obtain ⟨i, ts, rfl, hi⟩ := startsWith_of_isTarget hx
    simp only [List.length_cons, List.length_append] at hn
    simp only [List.cons_append, List.append_assoc]
    rw [bind_of_ok hpeek]
    simp only [hi]
    exact namedStmt_of_assign hc hx hq hg hv (by omega) hrest
  | @compound q ts g vs x value hx hq hg hv =>
    obtain ⟨i, ts, rfl, hi⟩ := startsWith_of_isTarget hx
    simp only [List.length_cons, List.length_append] at hn
    simp only [List.cons_append, List.append_assoc]
    rw [bind_of_ok hpeek]
    simp only [hi]
    exact namedStmt_of_compound hc hx hq hg hv (by omega) hrest
  | @after i op ts x hx hop =>
    obtain ⟨_, _, heq, hi⟩ := startsWith_of_isTarget hx
    cases heq
    simp only [List.length_cons, List.length_append] at hn
    simp only [List.cons_append, List.append_assoc, List.nil_append]
    rw [bind_of_ok hpeek]
    simp only [hi]
    exact namedStmt_of_after hc hx hop (by omega)
  | @before op ts x hop hx =>
    rw [List.length_cons] at hn
    have hrun : (do
        let e ← prefixed expr
        return .selfOp e.mark.tok e : Parser Stmt) ctx (op :: (ts ++ rest)) =
          .ok (.selfOp op (.mk (.ofToken op) op.shown true x), rest) := by
      rw [bind_of_ok (prefixed_of_isTarget hc (accepts_expr hc) hx (by omega)
        (hrest.headIs (by decide) (by decide) (by decide)))]
      rfl
    rw [List.cons_append, bind_of_ok hpeek]
    simp only [List.mem_cons, List.not_mem_nil, or_false] at hop
    rcases hop with hop | hop <;> simp only [hop] <;> exact hrun
  | @call i ts c hcall =>
    rw [List.length_cons] at hn
    rw [List.cons_append, bind_of_ok hpeek]
    have hi : i.kind = .ident := by
      cases hcall with
      | mk hf _ _ => exact hf
    simp only [hi]
    exact namedStmt_of_call hc hcall (by omega)
  | @print k ts e hk he =>
    rw [List.length_cons] at hn
    have hrun := printing_of_isCondition hc k he (by omega) rest
    rw [List.cons_append, bind_of_ok hpeek]
    simp only [List.mem_cons, List.not_mem_nil, or_false] at hk
    rcases hk with hk | hk <;> simp only [hk] at hrun ⊢ <;> exact hrun
  | printEmpty hk ho hg hcl =>
    simp only [List.cons_append, List.append_assoc, List.nil_append]
    rw [bind_of_ok hpeek]
    simp only [hk]
    exact printing_of_empty hk ho hg hcl
  | @ret k hk =>
    rw [List.singleton_append, bind_of_ok hpeek]
    simp only [hk]
    exact returning_of_none hrest
  | @retValue k ts e hk he =>
    rw [List.length_cons] at hn
    rw [List.cons_append, bind_of_ok hpeek]
    simp only [hk]
    exact returning_of_isExpr hc he (by omega) hrest
  | brk hk | cont hk =>
    rw [List.singleton_append, bind_of_ok hpeek]
    simp only [hk]
    rfl
  | block hb =>
    have hblock := block_of_isBlock hc hstarts hs hb hlen hn rest
    obtain ⟨o, us, rfl, ho⟩ := startsWith_of_isBlock hb
    rw [List.cons_append] at hblock ⊢
    rw [bind_of_ok hpeek]
    simp only [ho]
    rw [bind_of_ok hblock]
    rfl
  | @ifElse k cs g as bs cond a b hk hcond hg ha hb =>
    simp only [List.length_cons, List.length_append] at hlen hn
    simp only [List.cons_append, List.append_assoc]
    rw [bind_of_ok hpeek]
    simp only [hk]
    exact ifStmt_of_ifElse hc hstarts hs hcond hg ha hb (by omega) (by omega) hrest
  | @whileLoop k cs g bs cond b hk hcond hg hb =>
    simp only [List.length_cons, List.length_append] at hlen hn
    simp only [List.cons_append, List.append_assoc]
    rw [bind_of_ok hpeek]
    simp only [hk]
    exact whileStmt_of_whileLoop hc hstarts hs hcond hg hb (by omega) (by omega)
  | @forLoop k o x i c vs g bs y b hk ho hx hi hh hcl hg hb =>
    simp only [List.length_cons, List.length_append] at hlen hn
    simp only [List.cons_append, List.append_assoc]
    rw [bind_of_ok hpeek]
    simp only [hk]
    exact forStmt_of_forLoop hc hstarts hs ho hx hi hh hcl hg hb (by omega) (by omega)
  | @function k x o c g ps ts g' bs params result b hk hx ho hg hps hdistinct hcl hr hg' hb =>
    simp only [List.length_cons, List.length_append] at hlen hn
    simp only [List.cons_append, List.append_assoc]
    rw [bind_of_ok hpeek]
    simp only [hk]
    exact functionStmt_of_function hc hstarts hs hx ho hg hps hdistinct hcl hr hg' hb (by omega)
      (by omega)

end Nested

/-! ## Whole programs -/

omit hc in
theorem startsWith_of_isStmt {n : Nat} {us : List Token} {s : Stmt}
    (h : IsStmt (IsExpr (literal ctx) maxDepth) n us s) : StartsWith startsStmt us := by
  cases n with
  | zero => exact h.elim
  | succ n => exact startsWith_of_isStatement h

/-- Every statement takes a token more than those inside it, so its tokens bound how deep they lie. -/
theorem stmtWithin_of_isStmt {n m : Nat} {us : List Token} {s : Stmt}
    (h : IsStmt (IsExpr (literal ctx) maxDepth) n us s) (hm : us.length ≤ m)
    (hn : us.length ≤ ctx.limit) (hrest : Closes rest) :
    stmtWithin m ctx (us ++ rest) = .ok (s, rest) := by
  induction n generalizing m us s rest with
  | zero => exact h.elim
  | succ n ih =>
    cases m with
    | zero => exact absurd (List.eq_nil_of_length_eq_zero (Nat.le_zero.mp hm)) h.ne_nil
    | succ m =>
      exact statement_of_isStatement hc (fun _ _ => startsWith_of_isStmt)
        (fun us s rest h hm hn hrest => ih h hm hn hrest) h hm hn hrest

theorem programAfter_of_areStmts {n : Nat} {us : List Token} {ss : List Stmt}
    (h : AreStmts (IsStmt (IsExpr (literal ctx) maxDepth) n) us ss) (hn : us.length ≤ ctx.limit)
    {turns m : Nat} (hturns : us.length < turns) (hm : us.length ≤ m) (acc : List Stmt) :
    programAfter (stmtWithin m) turns acc ctx us = .ok (acc.reverse ++ ss, []) := by
  have hend {vs : List Token} {s : Stmt}
      (hvs : IsStmt (IsExpr (literal ctx) maxDepth) n vs s) (rest : List Token) :
      atEnd ctx (vs ++ rest) = .ok (false, vs ++ rest) := by
    obtain ⟨u, vs, rfl, -⟩ := startsWith_of_isStmt hvs
    rfl
  induction h generalizing turns acc with
  | nil =>
    obtain ⟨turns, rfl⟩ := Nat.exists_eq_succ_of_ne_zero (Nat.ne_of_gt (Nat.zero_lt_of_lt hturns))
    unfold programAfter
    rw [bind_of_ok (a := true) rfl, if_pos rfl]
    simp [pure_eq_ok]
  | @last ts s h =>
    obtain ⟨turns, rfl⟩ := Nat.exists_eq_succ_of_ne_zero (Nat.ne_of_gt (Nat.zero_lt_of_lt hturns))
    have hstart := hend h []
    have hstmt := stmtWithin_of_isStmt hc h hm hn closes_nil
    rw [List.append_nil] at hstart hstmt
    unfold programAfter
    rw [bind_of_ok hstart, if_neg (by decide), bind_of_ok hstmt, bind_of_ok (a := true) rfl, if_pos rfl]
    simp [pure_eq_ok]
  | @more ts seps us s ss h hseps hne hss ih =>
    obtain ⟨turns, rfl⟩ := Nat.exists_eq_succ_of_ne_zero (Nat.ne_of_gt (Nat.zero_lt_of_lt hturns))
    simp only [List.length_append] at hn hturns hm
    have hpos := List.length_pos_iff.mpr hne
    have hcloses := closes_of_areStmts (fun _ _ => startsWith_of_isStmt) hseps hne hss headIs_nil
    have hskip := skipSeparators_of_areStmts (fun _ _ => startsWith_of_isStmt) hseps hss ctx headIs_nil
    rw [List.append_nil] at hcloses hskip
    have hstmt := stmtWithin_of_isStmt (m := m) hc h (by omega) (by omega) hcloses
    have hrest := @ih (by omega) turns (by omega) (by omega) (s :: acc)
    obtain ⟨q, qs, rfl⟩ := List.exists_cons_of_ne_nil hne
    rw [List.cons_append] at hskip
    have hq : isSeparator q.kind = true := hseps q List.mem_cons_self
    unfold programAfter
    rw [bind_of_ok (hend h _), if_neg (by decide), bind_of_ok hstmt, List.cons_append,
      bind_of_ok (a := false) rfl, if_neg (by decide), bind_of_ok (a := q) rfl, if_neg (by simp [hq])]
    dsimp only
    rw [bind_of_ok hskip, hrest]
    simp

end Statements

theorem program_of_isProgram (hc : ctx.eof.kind = .eof) {us : List Token} {ss : List Stmt}
    (h : IsProgram (IsExpr (literal ctx) maxDepth) us ss) (hn : us.length ≤ ctx.limit) :
    program ctx us = .ok (ss, []) := by
  cases h with
  | mk hseps hss =>
    rw [List.length_append] at hn
    have hnil : HeadIs (fun k => isSeparator k = false) [] := headIs_nil
    have hskip := skipSeparators_of_areStmts (fun _ _ => startsWith_of_isStmt) hseps hss ctx hnil
    rw [List.append_nil] at hskip
    unfold program
    rw [bind_of_ok hskip, bind_of_ok (a := ctx) rfl]
    exact programAfter_of_areStmts hc hss (by omega) (by omega) (by omega) []

end Parse

open Grammar

/-- The parser accepts the tokens that the grammar derives a program from, and nothing else. -/
theorem Program.parse_iff_isProgram {tokens : List Token} {p : Program} :
    Program.parse tokens = .ok p ↔ p.file = "" ∧
      IsProgram (IsExpr (Parse.literal (Parse.contextOf tokens)) Parse.maxDepth) tokens p.stmts := by
  constructor
  · intro h
    refine ⟨?_, Program.isProgram_of_parse h⟩
    unfold Program.parse at h
    cases hrun : Parse.run Parse.program tokens with
    | error d => rw [hrun] at h; cases h
    | ok ss => rw [hrun] at h; cases h; rfl
  · obtain ⟨file, ss⟩ := p
    rintro ⟨rfl, h⟩
    unfold Program.parse Parse.run
    rw [Parse.program_of_isProgram (Parse.endToken_kind tokens) h (Nat.le_refl _)]
    rfl

end Kotlet

import Kotlet.Parse.Stmt
import Kotlet.Proofs.Parse.Sound

/-!
# The grammar of statements

* `IsCondition`, `IsHeader`, `AreParams` : what stands in the parentheses of a statement;
* `AreStmts`, `IsBlock` : statements with separators between them, and in braces;
* `IsStatement`, `IsStmt` : statements, given those inside, and those of a depth;
* `IsProgram` : whole programs;
* `reads_stmtWithin`, `isProgram_of_parse` : what is parsed is derived.

Only a declaration can go on behind a type whose last `>=` is split: its second half gives the value.
-/

namespace Kotlet
namespace Grammar

/-- Line ends and semicolons. -/
def Separators (ts : List Token) : Prop := ∀ t ∈ ts, Parse.isSeparator t.kind = true

section Statements

variable (expr : Reading Expr) (inner : Reading Stmt)

/-- An expression in parentheses. -/
inductive IsCondition : List Token → Expr → Prop where
  | mk {o c : Token} {g ts g' : List Token} {e : Expr} (ho : o.kind = .lparen) (hg : LineEnds g)
    (he : expr ts e) (hg' : LineEnds g') (hc : c.kind = .rparen) :
    IsCondition (o :: (g ++ (ts ++ (g' ++ [c])))) e

/-- The type of a variable, if it is written. -/
inductive IsTypePart : List Token → Option Ty → Prop where
  | none : IsTypePart [] none
  | some {c : Token} {ts : List Token} {ty : Ty} (hc : c.kind = .colon) (hty : IsType ts ty) :
    IsTypePart (c :: ts) (some ty)

/-- The value of a variable, if it is written. -/
inductive IsValuePart : List Token → Option Expr → Prop where
  | none : IsValuePart [] none
  | some {q : Token} {g ts : List Token} {e : Expr} (hq : q.kind = .assign) (hg : LineEnds g)
    (he : expr ts e) : IsValuePart (q :: (g ++ ts)) (some e)

/-- The step of a range, if it is written. -/
inductive IsStepPart : List Token → Option Expr → Prop where
  | none : IsStepPart [] none
  | some {s : Token} {ts : List Token} {e : Expr} (hs : s.kind = .kwStep) (he : expr ts e) :
    IsStepPart (s :: ts) (some e)

/-- What a loop runs over. -/
inductive IsHeader : List Token → Header → Prop where
  | each {ts : List Token} {e : Expr} (he : expr ts e) : IsHeader ts (.each e)
  | range {d : Token} {ts us vs : List Token} {first last : Expr} {step : Option Expr}
    (hfirst : expr ts first) (hd : d.kind = .dotDot) (hlast : expr us last)
    (hstep : IsStepPart expr vs step) :
    IsHeader (ts ++ d :: (us ++ vs)) (.range (.mk (.ofToken d) first last step))

/-- The parameters of a function, up to the parenthesis behind them. A comma may come last. -/
inductive AreParams : List Token → List Param → Prop where
  | nil : AreParams [] []
  | last {ts g : List Token} {p : Param} (h : IsParam ts p) (hty : p.ty ≠ none) (hg : LineEnds g) :
    AreParams (ts ++ g) [p]
  | more {c : Token} {ts g g' us : List Token} {p : Param} {ps : List Param} (h : IsParam ts p)
    (hty : p.ty ≠ none) (hg : LineEnds g) (hc : c.kind = .comma) (hg' : LineEnds g')
    (hps : AreParams us ps) : AreParams (ts ++ (g ++ c :: (g' ++ us))) (p :: ps)

/-- Statements with separators between them, and maybe at the end. -/
inductive AreStmts : List Token → List Stmt → Prop where
  | nil : AreStmts [] []
  | last {ts : List Token} {s : Stmt} (h : inner ts s) : AreStmts ts [s]
  | more {ts seps us : List Token} {s : Stmt} {ss : List Stmt} (h : inner ts s)
    (hseps : Separators seps) (hne : seps ≠ []) (hs : AreStmts us ss) :
    AreStmts (ts ++ (seps ++ us)) (s :: ss)

/-- Statements in braces. -/
inductive IsBlock : List Token → Block → Prop where
  | mk {o c : Token} {seps ts : List Token} {ss : List Stmt} (ho : o.kind = .lbrace)
    (hseps : Separators seps) (hs : AreStmts inner ts ss) (hc : c.kind = .rbrace) :
    IsBlock (o :: (seps ++ (ts ++ [c]))) (.mk o ss c)

/-- What comes after the first branch of an `if`. A following `if` is a block of its own. -/
inductive IsElsePart : List Token → Option Block → Prop where
  | none : IsElsePart [] none
  | block {e : Token} {g g' bs : List Token} {b : Block} (hg : LineEnds g) (he : e.kind = .kwElse)
    (hg' : LineEnds g') (hb : IsBlock inner bs b) : IsElsePart (g ++ e :: (g' ++ bs)) (some b)
  | chained {e i : Token} {g g' ts : List Token} {s : Stmt} (hg : LineEnds g) (he : e.kind = .kwElse)
    (hg' : LineEnds g') (hi : i.kind = .kwIf) (hs : inner (i :: ts) s) :
    IsElsePart (g ++ e :: (g' ++ i :: ts)) (some (.mk s.tok [s] s.tok))

/-- A statement, given those inside it. -/
inductive IsStatement : List Token → Stmt → Prop where
  | decl {k n : Token} {ts vs : List Token} {ty : Option Ty} {value : Option Expr}
    (hk : k.kind ∈ [.kwVar, .kwVal]) (hn : n.kind = .ident) (hty : IsTypePart ts ty)
    (hv : IsValuePart expr vs value) :
    IsStatement (k :: n :: (ts ++ vs)) (.decl k (k.kind == .kwVar) (name n) ty value)
  | splitDecl {k n c q : Token} {us g vs : List Token} {ty : Ty} {value : Expr}
    (hk : k.kind ∈ [.kwVar, .kwVal]) (hn : n.kind = .ident) (hc : c.kind = .colon) (hq : q.kind = .ge)
    (hty : IsType (us ++ [Parse.firstHalf q]) ty) (hg : LineEnds g) (hv : expr vs value) :
    IsStatement (k :: n :: c :: (us ++ q :: (g ++ vs)))
      (.decl k (k.kind == .kwVar) (name n) (some ty) (some value))
  | assign {q : Token} {ts g vs : List Token} {t : Target} {value : Expr} (ht : IsTarget expr ts t)
    (hq : q.kind = .assign) (hg : LineEnds g) (hv : expr vs value) :
    IsStatement (ts ++ q :: (g ++ vs)) (.assign q t value)
  | compound {q : Token} {ts g vs : List Token} {t : Target} {value : Expr} (ht : IsTarget expr ts t)
    (hq : q.kind ∈ [.plusAssign, .minusAssign, .timesAssign, .slashAssign]) (hg : LineEnds g)
    (hv : expr vs value) : IsStatement (ts ++ q :: (g ++ vs)) (.compound q t q.shown value)
  | after {i op : Token} {ts : List Token} {t : Target} (ht : IsTarget expr (i :: ts) t)
    (hop : op.kind ∈ [.increment, .decrement]) :
    IsStatement (i :: ts ++ [op]) (.selfOp i (.mk (.ofToken op) op.shown false t))
  | before {op : Token} {ts : List Token} {t : Target} (hop : op.kind ∈ [.increment, .decrement])
    (ht : IsTarget expr ts t) :
    IsStatement (op :: ts) (.selfOp op (.mk (.ofToken op) op.shown true t))
  | call {i : Token} {ts : List Token} {c : Call} (hc : IsCall expr (i :: ts) c) :
    IsStatement (i :: ts) (.call i c)
  | print {k : Token} {ts : List Token} {e : Expr} (hk : k.kind ∈ [.kwPrint, .kwPrintln])
    (he : IsCondition expr ts e) : IsStatement (k :: ts) (.print k (k.kind == .kwPrintln) (some e))
  | printEmpty {k o c : Token} {g : List Token} (hk : k.kind = .kwPrintln) (ho : o.kind = .lparen)
    (hg : LineEnds g) (hc : c.kind = .rparen) :
    IsStatement (k :: o :: (g ++ [c])) (.print k true none)
  | ret {k : Token} (hk : k.kind = .kwReturn) : IsStatement [k] (.ret k none)
  | retValue {k : Token} {ts : List Token} {e : Expr} (hk : k.kind = .kwReturn) (he : expr ts e) :
    IsStatement (k :: ts) (.ret k (some e))
  | brk {k : Token} (hk : k.kind = .kwBreak) : IsStatement [k] (.brk k)
  | cont {k : Token} (hk : k.kind = .kwContinue) : IsStatement [k] (.cont k)
  | block {ts : List Token} {b : Block} (hb : IsBlock inner ts b) : IsStatement ts (.block b)
  | ifElse {k : Token} {cs g as bs : List Token} {cond : Expr} {a : Block} {b : Option Block}
    (hk : k.kind = .kwIf) (hcond : IsCondition expr cs cond) (hg : LineEnds g)
    (ha : IsBlock inner as a) (hb : IsElsePart inner bs b) :
    IsStatement (k :: (cs ++ (g ++ (as ++ bs)))) (.ifElse k cond a b)
  | whileLoop {k : Token} {cs g bs : List Token} {cond : Expr} {b : Block} (hk : k.kind = .kwWhile)
    (hcond : IsCondition expr cs cond) (hg : LineEnds g) (hb : IsBlock inner bs b) :
    IsStatement (k :: (cs ++ (g ++ bs))) (.whileLoop k cond b)
  | forLoop {k o x i c : Token} {hs g bs : List Token} {h : Header} {b : Block} (hk : k.kind = .kwFor)
    (ho : o.kind = .lparen) (hx : x.kind = .ident) (hi : i.kind = .kwIn) (hh : IsHeader expr hs h)
    (hc : c.kind = .rparen) (hg : LineEnds g) (hb : IsBlock inner bs b) :
    IsStatement (k :: o :: x :: i :: (hs ++ c :: (g ++ bs))) (.forLoop k (name x) h b)
  | function {k n o c : Token} {g ps ts g' bs : List Token} {params : List Param} {result : Option Ty}
    {b : Block} (hk : k.kind = .kwFun) (hn : n.kind = .ident) (ho : o.kind = .lparen)
    (hg : LineEnds g) (hps : AreParams ps params)
    (hdistinct : (params.map fun p => p.name.name).Nodup) (hc : c.kind = .rparen)
    (hr : IsTypePart ts result) (hg' : LineEnds g') (hb : IsBlock inner bs b) :
    IsStatement (k :: n :: o :: (g ++ (ps ++ c :: (ts ++ (g' ++ bs)))))
      (.function (.mk k (name n) params (result.getD .unit) b))

end Statements

/-- A statement in which at most `n` statements lie inside each other. -/
def IsStmt (expr : Reading Expr) : Nat → Reading Stmt
  | 0, _, _ => False
  | n + 1, ts, s => IsStatement expr (IsStmt expr n) ts s

theorem IsTarget.ne_nil {expr : Reading Expr} {ts : List Token} {t : Target}
    (h : IsTarget expr ts t) : ts ≠ [] := by
  cases h <;> exact List.cons_ne_nil _ _

theorem IsStatement.ne_nil {expr : Reading Expr} {inner : Reading Stmt} {ts : List Token} {s : Stmt}
    (h : IsStatement expr inner ts s) : ts ≠ [] := by
  cases h with
  | assign ht | compound ht => simp
  | block hb => cases hb; exact List.cons_ne_nil _ _
  | _ => exact List.cons_ne_nil _ _

theorem IsStmt.ne_nil {expr : Reading Expr} {n : Nat} {ts : List Token} {s : Stmt}
    (h : IsStmt expr n ts s) : ts ≠ [] := by
  cases n with
  | zero => exact h.elim
  | succ n => exact IsStatement.ne_nil h

/-- Statements between separators. -/
inductive IsProgram (expr : Reading Expr) : List Token → List Stmt → Prop where
  | mk {seps ts : List Token} {ss : List Stmt} {n : Nat} (hseps : Separators seps)
    (hs : AreStmts (IsStmt expr n) ts ss) : IsProgram expr (seps ++ ts) ss

end Grammar

namespace Parse

open Grammar

variable {ctx : Context} (hc : ctx.eof.kind = .eof)
include hc

/-! ## Simple statements -/

section Simple

theorem of_valuePart {ts rest : List Token} {make : Option Expr → Stmt} {s : Stmt}
    (hn : ts.length ≤ ctx.limit) (h : (do
      let value ←
        if ← accept .assign then do
          skipNewlines
          some <$> expr
        else pure none
      return make value : Parser Stmt) ctx ts = .ok (s, rest)) :
    ∃ us value, ts = us ++ rest ∧ s = make value ∧
      IsValuePart (IsExpr (literal ctx) maxDepth) us value ∧
      (value = none → ∀ t vs, rest = t :: vs → t.kind ≠ .assign) := by
  rw [bind_eq_ok] at h
  obtain ⟨b, _, hassign, h⟩ := h
  obtain ⟨q, rfl, rfl, hq⟩ | ⟨rfl, rfl⟩ := of_accept hc hassign (by decide)
  · rw [if_pos rfl] at h
    simp only [bind_eq_ok, map_eq_ok, pure_eq_ok] at h
    obtain ⟨_, _, hskip, _, _, ⟨e, hexpr, rfl⟩, rfl, rfl⟩ := h
    obtain ⟨g, rfl, hg⟩ := of_skipNewlines hskip
    simp only [List.length_append, List.length_cons] at hn
    obtain ⟨us, rfl, hus⟩ := reads_expr hc _ _ _ (by omega) hexpr
    exact ⟨_, _, by simp, rfl, .some hq hg hus, nofun⟩
  · rw [if_neg (by decide)] at h
    simp only [bind_eq_ok, pure_eq_ok] at h
    obtain ⟨_, _, ⟨rfl, rfl⟩, rfl, rfl⟩ := h
    refine ⟨[], none, rfl, rfl, .none, ?_⟩
    rintro - t vs rfl
    exact ne_of_accept hassign

/-- What is left behind a type that is split goes on with the value of a declaration. -/
theorem of_declaration {k : Token} {ts rest : List Token} {s : Stmt}
    (hk : k.kind ∈ [.kwVar, .kwVal]) (hn : (k :: ts).length ≤ ctx.limit) {inner : Reading Stmt}
    (h : declaration ctx (k :: ts) = .ok (s, rest)) :
    ∃ us, k :: ts = us ++ rest ∧ IsStatement (IsExpr (literal ctx) maxDepth) inner us s := by
  unfold declaration at h
  rw [bind_eq_ok] at h
  obtain ⟨_, _, hadv, h⟩ := h
  obtain ⟨rfl, rfl⟩ := of_advance hadv
  rw [bind_eq_ok] at h
  obtain ⟨id, _, hid, h⟩ := h
  obtain ⟨n, rfl, hname, rfl⟩ := of_ident hc hid
  simp only [List.length_cons] at hn
  rw [bind_eq_ok] at h
  obtain ⟨b, _, hcolon, h⟩ := h
  obtain ⟨c, rfl, rfl, hcol⟩ | ⟨rfl, rfl⟩ := of_accept hc hcolon (by decide)
  · rw [if_pos rfl, bind_eq_ok] at h
    obtain ⟨_, _, hsome, h⟩ := h
    obtain ⟨ty, htype, rfl⟩ := map_eq_ok.mp hsome
    rw [List.length_cons] at hn
    have hty := of_type hc (by omega) htype
    have hlen := hty.length_le
    obtain ⟨us, value, rfl, rfl, hus, hnone⟩ := of_valuePart hc (by omega) h
    cases hty with
    | whole ts hts => exact ⟨_, by simp, .decl hk hname (.some hcol hts) hus⟩
    | @split ts vs q hq hts hrest =>
      cases hus with
      | none => exact absurd rfl (hnone rfl _ _ hrest)
      | some hassign hg he =>
        cases hrest
        exact ⟨_, by simp, .splitDecl hk hname hcol hq hts hg he⟩
  · rw [if_neg (by decide), bind_eq_ok] at h
    obtain ⟨_, _, hnone, h⟩ := h
    obtain ⟨rfl, rfl⟩ := pure_eq_ok.mp hnone
    obtain ⟨us, value, rfl, rfl, hus, -⟩ := of_valuePart hc (by omega) h
    exact ⟨_, by simp, .decl hk hname .none hus⟩

theorem of_condition {ts rest : List Token} {e : Expr} (hn : ts.length ≤ ctx.limit)
    (h : condition ctx ts = .ok (e, rest)) :
    ∃ us, ts = us ++ rest ∧ IsCondition (IsExpr (literal ctx) maxDepth) us e := by
  unfold condition at h
  simp only [bind_eq_ok, pure_eq_ok] at h
  obtain ⟨o, _, hopen, _, _, hskip, e, _, hexpr, _, _, hskip', c, _, hclose, rfl, rfl⟩ := h
  obtain ⟨rfl, ho⟩ := of_expect hc hopen (by decide)
  obtain ⟨g, rfl, hg⟩ := of_skipNewlines hskip
  simp only [List.length_cons, List.length_append] at hn
  obtain ⟨us, rfl, hus⟩ := reads_expr hc _ _ _ (by omega) hexpr
  obtain ⟨g', rfl, hg'⟩ := of_skipNewlines hskip'
  obtain ⟨rfl, hcl⟩ := of_expect hc hclose (by decide)
  exact ⟨_, by simp, .mk ho hg hus hg' hcl⟩

theorem of_printing {k : Token} {ts rest : List Token} {s : Stmt}
    (hk : k.kind ∈ [.kwPrint, .kwPrintln]) (hn : (k :: ts).length ≤ ctx.limit) {inner : Reading Stmt}
    (h : printing ctx (k :: ts) = .ok (s, rest)) :
    ∃ us, k :: ts = us ++ rest ∧ IsStatement (IsExpr (literal ctx) maxDepth) inner us s := by
  unfold printing at h
  rw [bind_eq_ok] at h
  obtain ⟨_, _, hadv, h⟩ := h
  obtain ⟨rfl, rfl⟩ := of_advance hadv
  rw [bind_eq_ok] at h
  obtain ⟨o, _, hopen, h⟩ := h
  obtain ⟨rfl, ho⟩ := of_expect hc hopen (by decide)
  rw [bind_eq_ok] at h
  obtain ⟨_, _, hskip, h⟩ := h
  obtain ⟨g, rfl, hg⟩ := of_skipNewlines hskip
  rw [bind_eq_ok] at h
  obtain ⟨b, _, hnext, h⟩ := h
  obtain ⟨rfl, hb⟩ := of_nextIs hc hnext (by decide)
  simp only [List.length_cons, List.length_append] at hn
  split at h
  · rename_i hempty
    obtain ⟨hln, hclose⟩ := (Bool.and_eq_true _ _).mp hempty
    obtain ⟨c, us, rfl, hcl⟩ := hb hclose
    simp only [bind_eq_ok, pure_eq_ok] at h
    obtain ⟨_, _, hadv, rfl, rfl⟩ := h
    obtain ⟨-, rfl⟩ := of_advance hadv
    rw [hln]
    exact ⟨_, by simp, .printEmpty (beq_iff_eq.mp hln) ho hg hcl⟩
  · simp only [bind_eq_ok, pure_eq_ok] at h
    obtain ⟨e, _, hexpr, _, _, hskip', c, _, hclose, rfl, rfl⟩ := h
    obtain ⟨us, rfl, hus⟩ := reads_expr hc _ _ _ (by omega) hexpr
    obtain ⟨g', rfl, hg'⟩ := of_skipNewlines hskip'
    obtain ⟨rfl, hcl⟩ := of_expect hc hclose (by decide)
    exact ⟨_, by simp, .print hk (.mk ho hg hus hg' hcl)⟩

theorem of_returning {k : Token} {ts rest : List Token} {s : Stmt} (hk : k.kind = .kwReturn)
    (hn : (k :: ts).length ≤ ctx.limit) {inner : Reading Stmt}
    (h : returning ctx (k :: ts) = .ok (s, rest)) :
    ∃ us, k :: ts = us ++ rest ∧ IsStatement (IsExpr (literal ctx) maxDepth) inner us s := by
  unfold returning at h
  simp only [bind_eq_ok] at h
  obtain ⟨_, _, hadv, t, _, hpeek, b, _, hend, h⟩ := h
  obtain ⟨rfl, rfl⟩ := of_advance hadv
  obtain ⟨-, rfl⟩ := peek_eq_ok.mp hpeek
  obtain ⟨-, rfl⟩ := atEnd_eq_ok.mp hend
  split at h
  · obtain ⟨rfl, rfl⟩ := pure_eq_ok.mp h
    exact ⟨[_], rfl, .ret hk⟩
  · simp only [bind_eq_ok, pure_eq_ok] at h
    obtain ⟨e, _, hexpr, rfl, rfl⟩ := h
    obtain ⟨us, rfl, hus⟩ := reads_expr hc _ _ _ (Nat.le_of_succ_le hn) hexpr
    exact ⟨_ :: us, rfl, .retValue hk hus⟩

theorem of_namedStmt {i : Token} {ts rest : List Token} {s : Stmt}
    (hn : (i :: ts).length ≤ ctx.limit) {inner : Reading Stmt}
    (h : namedStmt ctx (i :: ts) = .ok (s, rest)) :
    ∃ us, i :: ts = us ++ rest ∧ IsStatement (IsExpr (literal ctx) maxDepth) inner us s := by
  unfold namedStmt at h
  rw [bind_eq_ok] at h
  obtain ⟨first, _, hfirst, h⟩ := h
  obtain ⟨rfl, rfl⟩ := peek_eq_ok.mp hfirst
  rw [bind_eq_ok] at h
  obtain ⟨second, _, hsecond, h⟩ := h
  obtain ⟨-, rfl⟩ := peekSecond_eq_ok.mp hsecond
  have he := reads_expr hc
  split at h
  · simp only [bind_eq_ok, pure_eq_ok] at h
    obtain ⟨c, _, hcall, rfl, rfl⟩ := h
    obtain ⟨us, heq, hus⟩ := reads_call hc he _ _ _ hn hcall
    cases hus with
    | mk hf ho hes =>
      cases heq
      exact ⟨_, rfl, .call (.mk hf ho hes)⟩
  · simp only [bind_eq_ok] at h
    obtain ⟨t, mid, htarget, q, mid', hpeek, h⟩ := h
    obtain ⟨us, heq, hus⟩ := reads_target hc he _ _ _ hn htarget
    obtain ⟨us, rfl⟩ : ∃ vs, us = i :: vs := by
      cases hus <;> cases heq <;> exact ⟨_, rfl⟩
    obtain rfl : ts = us ++ mid := List.tail_eq_of_cons_eq heq
    simp only [List.length_cons, List.length_append] at hn
    have hcons (hk : q.kind ≠ .eof) : ∃ vs, mid = q :: vs := (of_peek hc hpeek hk).2
    obtain ⟨-, hmid⟩ := peek_eq_ok.mp hpeek
    subst hmid
    refine Ends.of_ok (?_ : Ends _ ctx mid (fun _ => True) fun s rest =>
      ∃ vs, i :: (us ++ mid) = vs ++ rest ∧
        IsStatement (IsExpr (literal ctx) maxDepth) inner vs s) h
    have hvalue {make : Expr → Stmt} (hk : q.kind ≠ .eof) (hmake : ∀ g vs e, LineEnds g →
        IsExpr (literal ctx) maxDepth vs e →
        IsStatement (IsExpr (literal ctx) maxDepth) inner (i :: us ++ q :: (g ++ vs)) (make e)) :
        Ends (do
          let _ ← advance
          skipNewlines
          return make (← expr) : Parser Stmt) ctx mid (fun _ => True) fun s rest =>
            ∃ vs, i :: (us ++ mid) = vs ++ rest ∧
              IsStatement (IsExpr (literal ctx) maxDepth) inner vs s := by
      obtain ⟨vs, rfl⟩ := hcons hk
      refine ends_of_ok fun s rest hrun => ?_
      simp only [bind_eq_ok, pure_eq_ok] at hrun
      obtain ⟨_, _, hadv, _, _, hskip, e, _, hexpr, rfl, rfl⟩ := hrun
      obtain ⟨-, rfl⟩ := of_advance hadv
      obtain ⟨g, rfl, hg⟩ := of_skipNewlines hskip
      simp only [List.length_cons, List.length_append] at hn
      obtain ⟨ws, rfl, hws⟩ := he _ _ _ (by omega) hexpr
      exact ⟨_, by simp, hmake g ws e hg hws⟩
    have hcompound (hk : q.kind ∈ [.plusAssign, .minusAssign, .timesAssign, .slashAssign]) :
        Ends (do
          let _ ← advance
          skipNewlines
          return .compound q t q.shown (← expr) : Parser Stmt) ctx mid (fun _ => True)
          fun s rest => ∃ vs, i :: (us ++ mid) = vs ++ rest ∧
            IsStatement (IsExpr (literal ctx) maxDepth) inner vs s :=
      hvalue (fun heof => by simp [heof] at hk) fun g vs e hg hv => .compound hus hk hg hv
    have hafter (hk : q.kind ∈ [.increment, .decrement]) :
        Ends (do
          let _ ← advance
          return .selfOp i (.mk (.ofToken q) q.shown false t) : Parser Stmt) ctx mid (fun _ => True)
          fun s rest => ∃ vs, i :: (us ++ mid) = vs ++ rest ∧
            IsStatement (IsExpr (literal ctx) maxDepth) inner vs s := by
      obtain ⟨vs, rfl⟩ := hcons (fun heof => by simp [heof] at hk)
      exact ⟨i :: us ++ [q], by simp, .after hus hk⟩
    split
    · rename_i hk
      exact hvalue (by simp [hk]) fun g vs e hg hv => .assign hus hk hg hv
    · exact hcompound (by simp [*])
    · exact hcompound (by simp [*])
    · exact hcompound (by simp [*])
    · exact hcompound (by simp [*])
    · exact hafter (by simp [*])
    · exact hafter (by simp [*])
    · exact ends_of_ok fun _ _ hrun => absurd hrun fail_ne_ok

theorem of_header {ts rest : List Token} {x : Header} (hn : ts.length ≤ ctx.limit)
    (h : header ctx ts = .ok (x, rest)) :
    ∃ us, ts = us ++ rest ∧ IsHeader (IsExpr (literal ctx) maxDepth) us x := by
  unfold header at h
  rw [bind_eq_ok] at h
  obtain ⟨first, _, hfirst, h⟩ := h
  obtain ⟨us, rfl, hus⟩ := reads_expr hc _ _ _ hn hfirst
  rw [bind_eq_ok] at h
  obtain ⟨o, _, hdots, h⟩ := h
  obtain ⟨d, rfl, rfl, hd⟩ | ⟨rfl, rfl⟩ := of_accept? hc hdots (by decide)
  · rw [bind_eq_ok] at h
    obtain ⟨last, _, hlast, h⟩ := h
    simp only [List.length_append, List.length_cons] at hn
    obtain ⟨vs, rfl, hvs⟩ := reads_expr hc _ _ _ (by omega) hlast
    rw [bind_eq_ok] at h
    obtain ⟨b, _, hstep, h⟩ := h
    rw [List.length_append] at hn
    obtain ⟨s, rfl, rfl, hs⟩ | ⟨rfl, rfl⟩ := of_accept hc hstep (by decide)
    · rw [if_pos rfl] at h
      simp only [bind_eq_ok, map_eq_ok, pure_eq_ok] at h
      obtain ⟨_, _, ⟨e, hexpr, rfl⟩, rfl, rfl⟩ := h
      rw [List.length_cons] at hn
      obtain ⟨ws, rfl, hws⟩ := reads_expr hc _ _ _ (by omega) hexpr
      exact ⟨_, by simp, .range hus (by simpa using hd) hvs (.some hs hws)⟩
    · rw [if_neg (by decide)] at h
      simp only [bind_eq_ok, pure_eq_ok] at h
      obtain ⟨_, _, ⟨rfl, rfl⟩, rfl, rfl⟩ := h
      exact ⟨_, by simp, .range hus (by simpa using hd) hvs .none⟩
  · obtain ⟨rfl, rfl⟩ := pure_eq_ok.mp h
    exact ⟨us, rfl, .each hus⟩

omit hc in
/-- Behind a token that was split no line ends. -/
theorem Split.of_skipNewlines {u : Unit} {ts rest : List Token} (hts : Split ts)
    (h : skipNewlines ctx ts = .ok (u, rest)) : rest = ts := by
  obtain ⟨t, vs, rfl⟩ := hts
  cases h
  rfl

omit hc in
theorem ty_of_parameter {ts rest : List Token} {p : Param}
    (h : parameter true ctx ts = .ok (p, rest)) : p.ty ≠ none := by
  unfold parameter at h
  simp only [bind_eq_ok] at h
  obtain ⟨id, _, -, b, _, -, h⟩ := h
  split at h
  · simp only [bind_eq_ok, pure_eq_ok] at h
    obtain ⟨ty, _, -, rfl, -⟩ := h
    simp
  · exact absurd trivial (of_unless h).1

theorem of_functionParams {turns : Nat} {acc : List Param} {ts rest : List Token} {ps : List Param}
    (hn : ts.length ≤ ctx.limit) (hturns : ts.length < turns)
    (h : functionParams turns acc ctx ts = .ok (ps, rest)) :
    (∃ us as, ts = us ++ rest ∧ ps = acc.reverse ++ as ∧ AreParams us as) ∨ Split rest := by
  induction turns generalizing acc ts with
  | zero => omega
  | succ turns ih =>
    unfold functionParams at h
    rw [bind_eq_ok] at h
    obtain ⟨b, _, hnext, h⟩ := h
    obtain ⟨-, rfl⟩ := nextIs_eq_ok.mp hnext
    split at h
    · obtain ⟨rfl, rfl⟩ := pure_eq_ok.mp h
      exact .inl ⟨[], [], rfl, by simp, .nil⟩
    · simp only [bind_eq_ok] at h
      obtain ⟨p, mid, hparam, _, _, hskip, b, _, hcomma, h⟩ := h
      have hty := ty_of_parameter hparam
      cases of_parameter hc hn hparam with
      | whole us hus =>
        obtain ⟨g, rfl, hg⟩ := of_skipNewlines hskip
        obtain ⟨c, rfl, rfl, hcom⟩ | ⟨rfl, rfl⟩ := of_accept hc hcomma (by decide)
        · rw [if_pos rfl, bind_eq_ok] at h
          obtain ⟨_, _, hskip', h⟩ := h
          obtain ⟨g', rfl, hg'⟩ := of_skipNewlines hskip'
          simp only [List.length_append, List.length_cons] at hn hturns
          obtain ⟨vs, as, rfl, rfl, hvs⟩ | hsplit := ih (by omega) (by omega) h
          · exact .inl ⟨_, p :: as, by simp, by simp, .more hus hty hg hcom hg' hvs⟩
          · exact .inr hsplit
        · rw [if_neg (by decide)] at h
          obtain ⟨rfl, rfl⟩ := pure_eq_ok.mp h
          exact .inl ⟨us ++ g, [p], by simp, by simp, .last hus hty hg⟩
      | split us hq hus hrest =>
        subst hrest
        obtain rfl := (Split.of_skipNewlines ⟨_, _, rfl⟩ hskip)
        obtain ⟨c, -, hcons, hcom⟩ | ⟨rfl, rfl⟩ := of_accept hc hcomma (by decide)
        · cases hcons
          cases hcom
        · rw [if_neg (by decide)] at h
          obtain ⟨rfl, rfl⟩ := pure_eq_ok.mp h
          exact .inr ⟨_, _, rfl⟩

end Simple

/-! ## Statements that hold others -/

section Nested

variable {stmt : Parser Stmt} {S : Reading Stmt} (hs : Reads ctx stmt S)
include hs

omit hc hs in
theorem of_skipSeparators {u : Unit} {ts rest : List Token}
    (h : skipSeparators ctx ts = .ok (u, rest)) : ∃ seps, ts = seps ++ rest ∧ Separators seps := by
  cases h
  refine ⟨ts.takeWhile fun t => isSeparator t.kind, List.takeWhile_append_dropWhile.symm, ?_⟩
  exact fun t ht => List.all_eq_true.mp List.all_takeWhile t ht

omit hc hs in
theorem of_skipSeparators_cons {q : Token} {u : Unit} {ts rest : List Token}
    (hq : isSeparator q.kind = true) (h : skipSeparators ctx (q :: ts) = .ok (u, rest)) :
    ∃ seps, q :: ts = seps ++ rest ∧ Separators seps ∧ seps ≠ [] := by
  have htail : skipSeparators ctx ts = .ok (u, rest) := by
    rw [← h]
    change Except.ok ((), ts.dropWhile fun t => isSeparator t.kind) =
      Except.ok ((), (q :: ts).dropWhile fun t => isSeparator t.kind)
    simp [hq]
  obtain ⟨seps, rfl, hseps⟩ := of_skipSeparators htail
  refine ⟨q :: seps, rfl, fun t ht => ?_, List.cons_ne_nil _ _⟩
  rcases List.mem_cons.mp ht with rfl | ht
  · exact hq
  · exact hseps t ht

omit hs in
/-- Behind a statement and in front of the next one stands a separator, at least. -/
theorem of_separated {α : Type} {e : ParseError} {k : Parser α} {a : α} {ts rest : List Token}
    (h : (do
      if !isSeparator (← peek).kind then fail e
      skipSeparators
      k) ctx ts = .ok (a, rest)) :
    ∃ seps mid, ts = seps ++ mid ∧ Separators seps ∧ seps ≠ [] ∧ k ctx mid = .ok (a, rest) := by
  rw [bind_eq_ok] at h
  obtain ⟨q, _, hpeek, h⟩ := h
  obtain ⟨hsep, h⟩ := of_unless h
  have hq : isSeparator q.kind = true := by simpa using hsep
  obtain ⟨rfl, vs, rfl⟩ := of_peek hc hpeek fun heof => by simp [heof, isSeparator] at hq
  rw [bind_eq_ok] at h
  obtain ⟨_, mid, hskip, h⟩ := h
  obtain ⟨seps, heq, hseps, hne⟩ := of_skipSeparators_cons hq hskip
  exact ⟨seps, mid, heq, hseps, hne, h⟩

theorem of_stmtsAfter {turns : Nat} {acc : List Stmt} {ts rest : List Token} {ss : List Stmt}
    (hn : ts.length ≤ ctx.limit) (hturns : ts.length < turns)
    (h : stmtsAfter stmt turns acc ctx ts = .ok (ss, rest)) :
    ∃ us as c vs, ts = us ++ rest ∧ rest = c :: vs ∧ c.kind = .rbrace ∧ ss = acc.reverse ++ as ∧
      AreStmts S us as := by
  induction turns generalizing acc ts with
  | zero => omega
  | succ turns ih =>
    unfold stmtsAfter at h
    rw [bind_eq_ok] at h
    obtain ⟨b, _, hnext, h⟩ := h
    obtain ⟨rfl, hb⟩ := of_nextIs hc hnext (by decide)
    split at h
    · rename_i hclose
      obtain ⟨rfl, rfl⟩ := pure_eq_ok.mp h
      obtain ⟨c, vs, rfl, hcl⟩ := hb hclose
      exact ⟨[], [], c, vs, rfl, rfl, hcl, by simp, .nil⟩
    · rw [bind_eq_ok] at h
      obtain ⟨b, _, hend, h⟩ := h
      obtain ⟨-, rfl⟩ := atEnd_eq_ok.mp hend
      replace h := (of_unless h).2
      rw [bind_eq_ok] at h
      obtain ⟨s, mid, hstmt, h⟩ := h
      obtain ⟨us, rfl, hus⟩ := hs _ _ _ hn hstmt
      rw [bind_eq_ok] at h
      obtain ⟨b, _, hnext', h⟩ := h
      obtain ⟨rfl, hb'⟩ := of_nextIs hc hnext' (by decide)
      split at h
      · rename_i hclose
        obtain ⟨rfl, rfl⟩ := pure_eq_ok.mp h
        obtain ⟨c, vs, rfl, hcl⟩ := hb' hclose
        exact ⟨us, [s], c, vs, rfl, rfl, hcl, by simp, .last hus⟩
      · rw [bind_eq_ok] at h
        obtain ⟨b, _, hend', h⟩ := h
        obtain ⟨-, rfl⟩ := atEnd_eq_ok.mp hend'
        replace h := (of_unless h).2
        obtain ⟨seps, mid, rfl, hseps, hne, h⟩ := of_separated hc h
        have hlen : 0 < seps.length := List.length_pos_iff.mpr hne
        simp only [List.length_append] at hn hturns
        obtain ⟨ws, as, c, vs, rfl, rfl, hcl, rfl, hws⟩ := ih (by omega) (by omega) h
        exact ⟨us ++ (seps ++ ws), s :: as, c, vs, by simp, rfl, hcl, by simp,
          .more hus hseps hne hws⟩

theorem of_block {ts rest : List Token} {b : Block} (hn : ts.length ≤ ctx.limit)
    (h : block stmt ctx ts = .ok (b, rest)) : ∃ us, ts = us ++ rest ∧ IsBlock S us b := by
  unfold block at h
  simp only [bind_eq_ok, pure_eq_ok, read_eq_ok] at h
  obtain ⟨o, _, hopen, _, _, hskip, _, _, ⟨rfl, rfl⟩, ss, _, hstmts, c, _, hadv, rfl, rfl⟩ := h
  obtain ⟨rfl, ho⟩ := of_expect hc hopen (by decide)
  obtain ⟨seps, rfl, hseps⟩ := of_skipSeparators hskip
  simp only [List.length_cons, List.length_append] at hn
  obtain ⟨us, as, c, vs, rfl, rfl, hcl, hss, hus⟩ := of_stmtsAfter hc hs (by omega) (by omega) hstmts
  obtain ⟨rfl, rfl⟩ := of_advance hadv
  rw [List.reverse_nil, List.nil_append] at hss
  subst hss
  exact ⟨_, by simp, .mk ho hseps hus hcl⟩

omit hs in
theorem of_acceptElse {b : Bool} {ts rest : List Token} (h : acceptElse ctx ts = .ok (b, rest)) :
    (∃ g e, b = true ∧ ts = g ++ e :: rest ∧ LineEnds g ∧ e.kind = .kwElse) ∨
      b = false ∧ ts = rest := by
  unfold acceptElse at h
  rw [bind_eq_ok] at h
  obtain ⟨before, mid, hget, h⟩ := h
  obtain ⟨rfl, rfl⟩ := ok_eq_ok.mp hget
  rw [bind_eq_ok] at h
  obtain ⟨_, _, hskip, h⟩ := h
  obtain ⟨g, heq, hg⟩ := of_skipNewlines hskip
  rw [bind_eq_ok] at h
  obtain ⟨b', _, helse, h⟩ := h
  obtain ⟨e, rfl, rfl, he⟩ | ⟨rfl, rfl⟩ := of_accept hc helse (by decide)
  · rw [if_pos rfl] at h
    obtain ⟨rfl, rfl⟩ := pure_eq_ok.mp h
    exact .inl ⟨g, e, rfl, heq, hg, he⟩
  · rw [if_neg (by decide), bind_eq_ok] at h
    obtain ⟨_, _, hset, h⟩ := h
    obtain ⟨-, rfl⟩ := ok_eq_ok.mp hset
    obtain ⟨rfl, rfl⟩ := pure_eq_ok.mp h
    exact .inr ⟨rfl, rfl⟩

/-- What comes after the first branch of an `if`. -/
theorem of_elsePart (hne : ∀ us s, S us s → us ≠ []) {k : Token} {cond : Expr} {a : Block}
    {ts rest : List Token} {s : Stmt} (hn : ts.length ≤ ctx.limit) (h : (do
      if ← acceptElse then
        skipNewlines
        if ← nextIs .kwIf then
          let nested ← stmt
          return .ifElse k cond a (some (.mk nested.tok [nested] nested.tok))
        return .ifElse k cond a (some (← block stmt))
      return .ifElse k cond a none : Parser Stmt) ctx ts = .ok (s, rest)) :
    ∃ us b, ts = us ++ rest ∧ s = .ifElse k cond a b ∧ IsElsePart S us b := by
  rw [bind_eq_ok] at h
  obtain ⟨b, _, helse, h⟩ := h
  obtain ⟨g, e, rfl, rfl, hg, he⟩ | ⟨rfl, rfl⟩ := of_acceptElse hc helse
  · rw [if_pos rfl, bind_eq_ok] at h
    obtain ⟨_, _, hskip, h⟩ := h
    obtain ⟨g', rfl, hg'⟩ := of_skipNewlines hskip
    simp only [List.length_cons, List.length_append] at hn
    rw [bind_eq_ok] at h
    obtain ⟨b, _, hnext, h⟩ := h
    obtain ⟨rfl, hb⟩ := of_nextIs hc hnext (by decide)
    split at h
    · rename_i hif
      obtain ⟨i, us, rfl, hi⟩ := hb hif
      simp only [bind_eq_ok, pure_eq_ok] at h
      obtain ⟨nested, _, hstmt, rfl, rfl⟩ := h
      obtain ⟨vs, heq, hvs⟩ := hs _ _ _ (by omega) hstmt
      obtain ⟨i', vs, rfl⟩ := List.exists_cons_of_ne_nil (hne _ _ hvs)
      obtain ⟨rfl, rfl⟩ := List.cons.inj heq
      exact ⟨_, _, by simp, rfl, .chained hg he hg' hi hvs⟩
    · simp only [bind_eq_ok, pure_eq_ok] at h
      obtain ⟨b, _, hblock, rfl, rfl⟩ := h
      obtain ⟨us, rfl, hus⟩ := of_block hc hs (by omega) hblock
      exact ⟨_, some b, by simp, rfl, .block hg he hg' hus⟩
  · rw [if_neg (by decide)] at h
    obtain ⟨rfl, rfl⟩ := pure_eq_ok.mp h
    exact ⟨[], none, rfl, rfl, .none⟩

theorem of_ifStmt (hne : ∀ us s, S us s → us ≠ []) {k : Token} {ts rest : List Token} {s : Stmt}
    (hk : k.kind = .kwIf) (hn : (k :: ts).length ≤ ctx.limit)
    (h : ifStmt stmt ctx (k :: ts) = .ok (s, rest)) :
    ∃ us, k :: ts = us ++ rest ∧ IsStatement (IsExpr (literal ctx) maxDepth) S us s := by
  unfold ifStmt at h
  rw [bind_eq_ok] at h
  obtain ⟨_, _, hadv, h⟩ := h
  obtain ⟨rfl, rfl⟩ := of_advance hadv
  rw [bind_eq_ok] at h
  obtain ⟨cond, _, hcondition, h⟩ := h
  obtain ⟨cs, rfl, hcs⟩ := of_condition hc (Nat.le_of_succ_le hn) hcondition
  rw [bind_eq_ok] at h
  obtain ⟨_, _, hskip, h⟩ := h
  obtain ⟨g, rfl, hg⟩ := of_skipNewlines hskip
  rw [bind_eq_ok] at h
  obtain ⟨a, _, hblock, h⟩ := h
  simp only [List.length_cons, List.length_append] at hn
  obtain ⟨as, rfl, has⟩ := of_block hc hs (by omega) hblock
  rw [List.length_append] at hn
  obtain ⟨bs, b, rfl, rfl, hbs⟩ := of_elsePart hc hs hne (by omega) h
  exact ⟨_, by simp, .ifElse hk hcs hg has hbs⟩

theorem of_whileStmt {k : Token} {ts rest : List Token} {s : Stmt} (hk : k.kind = .kwWhile)
    (hn : (k :: ts).length ≤ ctx.limit) (h : whileStmt stmt ctx (k :: ts) = .ok (s, rest)) :
    ∃ us, k :: ts = us ++ rest ∧ IsStatement (IsExpr (literal ctx) maxDepth) S us s := by
  unfold whileStmt at h
  simp only [bind_eq_ok, pure_eq_ok] at h
  obtain ⟨_, _, hadv, cond, _, hcondition, _, _, hskip, b, _, hblock, rfl, rfl⟩ := h
  obtain ⟨rfl, rfl⟩ := of_advance hadv
  obtain ⟨cs, rfl, hcs⟩ := of_condition hc (Nat.le_of_succ_le hn) hcondition
  obtain ⟨g, rfl, hg⟩ := of_skipNewlines hskip
  simp only [List.length_cons, List.length_append] at hn
  obtain ⟨bs, rfl, hbs⟩ := of_block hc hs (by omega) hblock
  exact ⟨_, by simp, .whileLoop hk hcs hg hbs⟩

theorem of_forStmt {k : Token} {ts rest : List Token} {s : Stmt} (hk : k.kind = .kwFor)
    (hn : (k :: ts).length ≤ ctx.limit) (h : forStmt stmt ctx (k :: ts) = .ok (s, rest)) :
    ∃ us, k :: ts = us ++ rest ∧ IsStatement (IsExpr (literal ctx) maxDepth) S us s := by
  unfold forStmt at h
  simp only [bind_eq_ok, pure_eq_ok] at h
  obtain ⟨_, _, hadv, o, _, hopen, x, _, hid, i, _, hin, y, _, hheader, c, _, hclose, _, _, hskip,
    b, _, hblock, rfl, rfl⟩ := h
  obtain ⟨rfl, rfl⟩ := of_advance hadv
  obtain ⟨rfl, ho⟩ := of_expect hc hopen (by decide)
  obtain ⟨x, rfl, hx, rfl⟩ := of_ident hc hid
  obtain ⟨rfl, hi⟩ := of_expect hc hin (by decide)
  simp only [List.length_cons] at hn
  obtain ⟨us, rfl, hus⟩ := of_header hc (by omega) hheader
  obtain ⟨rfl, hcl⟩ := of_expect hc hclose (by decide)
  obtain ⟨g, rfl, hg⟩ := of_skipNewlines hskip
  simp only [List.length_cons, List.length_append] at hn
  obtain ⟨bs, rfl, hbs⟩ := of_block hc hs (by omega) hblock
  exact ⟨_, by simp, .forLoop hk ho hx hi hus hcl hg hbs⟩

/-- A result type that is split would leave no brace. -/
theorem of_functionStmt {k : Token} {ts rest : List Token} {s : Stmt} (hk : k.kind = .kwFun)
    (hn : (k :: ts).length ≤ ctx.limit) (h : functionStmt stmt ctx (k :: ts) = .ok (s, rest)) :
    ∃ us, k :: ts = us ++ rest ∧ IsStatement (IsExpr (literal ctx) maxDepth) S us s := by
  unfold functionStmt at h
  simp only [bind_eq_ok, read_eq_ok, checkParams_eq_ok] at h
  obtain ⟨_, _, hadv, id, _, hid, o, _, hopen, _, _, hskip, _, _, ⟨rfl, rfl⟩, params, _, hparams,
    c, _, hclose, _, _, ⟨hdistinct, rfl⟩, colon, _, hcolon, h⟩ := h
  obtain ⟨rfl, rfl⟩ := of_advance hadv
  obtain ⟨n, rfl, hname, rfl⟩ := of_ident hc hid
  obtain ⟨rfl, ho⟩ := of_expect hc hopen (by decide)
  obtain ⟨g, rfl, hg⟩ := of_skipNewlines hskip
  obtain ⟨rfl, hcl⟩ := of_expect hc hclose (by decide)
  simp only [List.length_cons, List.length_append] at hn
  obtain ⟨ps, as, rfl, hps, hparamsRead⟩ | hsplit := of_functionParams hc (by omega) (by omega) hparams
  · rw [List.reverse_nil, List.nil_append] at hps
    subst hps
    simp only [List.length_append, List.length_cons] at hn
    obtain ⟨d, rfl, rfl, hd⟩ | ⟨rfl, rfl⟩ := of_accept hc hcolon (by decide)
    · rw [if_pos rfl] at h
      simp only [bind_eq_ok, pure_eq_ok] at h
      obtain ⟨ty, mid, htype, _, _, hskip', b, _, hblock, rfl, rfl⟩ := h
      rw [List.length_cons] at hn
      obtain ⟨us, rfl, hus⟩ | hsplit := (of_type hc (by omega) htype).eq_append_or_split
      · obtain ⟨g', rfl, hg'⟩ := of_skipNewlines hskip'
        simp only [List.length_append] at hn
        obtain ⟨bs, rfl, hbs⟩ := of_block hc hs (by omega) hblock
        exact ⟨_, by simp, .function hk hname ho hg hparamsRead hdistinct hcl (.some hd hus) hg' hbs⟩
      · obtain rfl := hsplit.of_skipNewlines hskip'
        have hlen := (of_type hc (by omega) htype).length_le
        obtain ⟨bs, rfl, hbs⟩ := of_block hc hs (by omega) hblock
        cases hbs with
        | mk hopen => cases hopen.symm.trans hsplit.ne_cons
    · rw [if_neg (by decide)] at h
      simp only [bind_eq_ok, pure_eq_ok] at h
      obtain ⟨_, _, ⟨rfl, rfl⟩, _, _, hskip', b, _, hblock, rfl, rfl⟩ := h
      obtain ⟨g', rfl, hg'⟩ := of_skipNewlines hskip'
      rw [List.length_append] at hn
      obtain ⟨bs, rfl, hbs⟩ := of_block hc hs (by omega) hblock
      exact ⟨_, by simp, .function hk hname ho hg hparamsRead hdistinct hcl .none hg' hbs⟩
  · cases hcl.symm.trans hsplit.ne_cons

/-- The kind of the first token tells which rule reads a statement. -/
theorem reads_statement (hne : ∀ us s, S us s → us ≠ []) :
    Reads ctx (statement stmt) (IsStatement (IsExpr (literal ctx) maxDepth) S) := by
  intro ts rest s hn h
  unfold statement at h
  rw [bind_eq_ok] at h
  obtain ⟨t, mid, hpeek, h⟩ := h
  have hcons (hk : t.kind ≠ .eof) : ∃ us, ts = t :: us ∧ mid = t :: us := by
    obtain ⟨rfl, us, rfl⟩ := of_peek hc hpeek hk
    exact ⟨us, rfl, rfl⟩
  refine Ends.of_ok (?_ : Ends _ ctx mid (fun _ => True) fun s rest =>
    ∃ us, ts = us ++ rest ∧ IsStatement (IsExpr (literal ctx) maxDepth) S us s) h
  have hdeclaration (hk : t.kind ∈ [.kwVar, .kwVal]) :
      Ends declaration ctx mid (fun _ => True) fun s rest =>
        ∃ us, ts = us ++ rest ∧ IsStatement (IsExpr (literal ctx) maxDepth) S us s := by
    obtain ⟨us, rfl, rfl⟩ := hcons fun heof => by simp [heof] at hk
    exact ends_of_ok fun s rest => of_declaration hc hk hn
  have hprinting (hk : t.kind ∈ [.kwPrint, .kwPrintln]) :
      Ends printing ctx mid (fun _ => True) fun s rest =>
        ∃ us, ts = us ++ rest ∧ IsStatement (IsExpr (literal ctx) maxDepth) S us s := by
    obtain ⟨us, rfl, rfl⟩ := hcons fun heof => by simp [heof] at hk
    exact ends_of_ok fun s rest => of_printing hc hk hn
  have hprefixed (hop : t.kind ∈ [.increment, .decrement]) :
      Ends (do
        let e ← prefixed expr
        return .selfOp e.mark.tok e : Parser Stmt) ctx mid (fun _ => True) fun s rest =>
          ∃ us, ts = us ++ rest ∧ IsStatement (IsExpr (literal ctx) maxDepth) S us s := by
    obtain ⟨us, rfl, rfl⟩ := hcons fun heof => by simp [heof] at hop
    refine ends_of_ok fun s rest hrun => ?_
    simp only [bind_eq_ok, pure_eq_ok] at hrun
    obtain ⟨x, _, hx, rfl, rfl⟩ := hrun
    obtain ⟨vs, target, rfl, rfl, hvs⟩ := of_prefixed hc (reads_expr hc) hn hx
    exact ⟨t :: vs, rfl, .before hop hvs⟩
  split
  · exact hdeclaration (by simp [*])
  · exact hdeclaration (by simp [*])
  · rename_i hk
    obtain ⟨us, rfl, rfl⟩ := hcons (by simp [hk])
    exact ends_of_ok fun s rest => of_ifStmt hc hs hne hk hn
  · rename_i hk
    obtain ⟨us, rfl, rfl⟩ := hcons (by simp [hk])
    exact ends_of_ok fun s rest => of_whileStmt hc hs hk hn
  · rename_i hk
    obtain ⟨us, rfl, rfl⟩ := hcons (by simp [hk])
    exact ends_of_ok fun s rest => of_forStmt hc hs hk hn
  · rename_i hk
    obtain ⟨us, rfl, rfl⟩ := hcons (by simp [hk])
    exact ends_of_ok fun s rest => of_functionStmt hc hs hk hn
  · rename_i hk
    obtain ⟨us, rfl, rfl⟩ := hcons (by simp [hk])
    exact ends_of_ok fun s rest => of_returning hc hk hn
  · rename_i hk
    obtain ⟨us, rfl, rfl⟩ := hcons (by simp [hk])
    exact ⟨[t], rfl, .brk hk⟩
  · rename_i hk
    obtain ⟨us, rfl, rfl⟩ := hcons (by simp [hk])
    exact ⟨[t], rfl, .cont hk⟩
  · exact hprinting (by simp [*])
  · exact hprinting (by simp [*])
  · rename_i hk
    obtain ⟨us, rfl, rfl⟩ := hcons (by simp [hk])
    refine ends_of_ok fun s rest hrun => ?_
    simp only [bind_eq_ok, pure_eq_ok] at hrun
    obtain ⟨b, _, hblock, rfl, rfl⟩ := hrun
    obtain ⟨vs, heq, hvs⟩ := of_block hc hs hn hblock
    exact ⟨vs, heq, .block hvs⟩
  · exact hprefixed (by simp [*])
  · exact hprefixed (by simp [*])
  · rename_i hk
    obtain ⟨us, rfl, rfl⟩ := hcons (by simp [hk])
    exact ends_of_ok fun s rest => of_namedStmt hc hn
  · exact ends_of_ok fun _ _ hrun => absurd hrun fail_ne_ok

end Nested

/-! ## Whole programs -/

/-- Statements with few others inside are read in the tokens that they take. -/
theorem reads_stmtWithin (n : Nat) :
    Reads ctx (stmtWithin n) (IsStmt (IsExpr (literal ctx) maxDepth) n) := by
  induction n with
  | zero => exact fun _ _ _ _ h => absurd h fail_ne_ok
  | succ n ih => exact reads_statement hc ih fun _ _ => IsStmt.ne_nil

theorem of_programAfter {stmt : Parser Stmt} {S : Reading Stmt} (hs : Reads ctx stmt S)
    {turns : Nat} {acc : List Stmt} {ts rest : List Token} {ss : List Stmt}
    (hn : ts.length ≤ ctx.limit) (hturns : ts.length < turns)
    (h : programAfter stmt turns acc ctx ts = .ok (ss, rest)) :
    rest = [] ∧ ∃ as, ss = acc.reverse ++ as ∧ AreStmts S ts as := by
  induction turns generalizing acc ts with
  | zero => omega
  | succ turns ih =>
    unfold programAfter at h
    rw [bind_eq_ok] at h
    obtain ⟨b, _, hend, h⟩ := h
    obtain ⟨hb, rfl⟩ := atEnd_eq_ok.mp hend
    split at h
    · rename_i hnil
      rw [hnil] at hb
      obtain rfl := List.isEmpty_iff.mp hb
      obtain ⟨rfl, rfl⟩ := pure_eq_ok.mp h
      exact ⟨rfl, [], by simp, .nil⟩
    · rw [bind_eq_ok] at h
      obtain ⟨s, mid, hstmt, h⟩ := h
      obtain ⟨us, rfl, hus⟩ := hs _ _ _ hn hstmt
      rw [bind_eq_ok] at h
      obtain ⟨b', _, hend', h⟩ := h
      obtain ⟨hb', rfl⟩ := atEnd_eq_ok.mp hend'
      split at h
      · rename_i hnil
        rw [hnil] at hb'
        obtain rfl := List.isEmpty_iff.mp hb'
        obtain ⟨rfl, rfl⟩ := pure_eq_ok.mp h
        exact ⟨rfl, [s], by simp, by simpa using .last hus⟩
      · obtain ⟨seps, mid, rfl, hseps, hne, h⟩ := of_separated hc h
        have hlen : 0 < seps.length := List.length_pos_iff.mpr hne
        simp only [List.length_append] at hn hturns
        obtain ⟨rfl, as, rfl, hws⟩ := ih (by omega) (by omega) h
        exact ⟨rfl, s :: as, by simp, .more hus hseps hne hws⟩

theorem of_program {ts rest : List Token} {ss : List Stmt} (hn : ts.length ≤ ctx.limit)
    (h : program ctx ts = .ok (ss, rest)) :
    IsProgram (IsExpr (literal ctx) maxDepth) ts ss := by
  unfold program at h
  simp only [bind_eq_ok, read_eq_ok] at h
  obtain ⟨_, _, hskip, _, _, ⟨rfl, rfl⟩, h⟩ := h
  obtain ⟨seps, rfl, hseps⟩ := of_skipSeparators hskip
  rw [List.length_append] at hn
  obtain ⟨-, as, has, hread⟩ := of_programAfter hc (reads_stmtWithin hc _) (by omega) (by omega) h
  rw [List.reverse_nil, List.nil_append] at has
  subst has
  exact .mk hseps hread

end Parse

open Grammar

/-- What is parsed as a program is derived by the grammar. -/
theorem Program.isProgram_of_parse {tokens : List Token} {p : Program}
    (h : Program.parse tokens = .ok p) :
    IsProgram (IsExpr (Parse.literal (Parse.contextOf tokens)) Parse.maxDepth) tokens p.stmts := by
  unfold Program.parse Parse.run at h
  cases hprogram : Parse.program (Parse.contextOf tokens) tokens with
  | error d =>
    rw [hprogram] at h
    cases h
  | ok result =>
    rw [hprogram] at h
    cases h
    exact Parse.of_program (Parse.endToken_kind _) (Nat.le_refl _) hprogram

end Kotlet

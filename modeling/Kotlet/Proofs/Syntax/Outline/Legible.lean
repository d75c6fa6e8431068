import Kotlet.Proofs.Accepted
import Kotlet.Proofs.Syntax.Written.Literal

/-!
# Trees that can be told from their outlines

* `Expr.Legible`, `Stmt.Legible` : trees with proper names, operators and types;
* `Yields` : what is read has a property, if its tokens were scanned;
* `yields_expr`, `yields_stmt`, `Program.OfText.legible` : all trees of source texts are legible.
-/

namespace Kotlet

open Written (IsName)

/-- A parameter with a proper name and type. -/
def Param.Legible (p : Param) : Prop := IsName p.name.name ∧ p.Complete

mutual

/-- An expression with proper names, operators and types. -/
def Expr.Legible : Expr → Prop
  | .int _ _ => True
  | .bool _ _ => True
  | .str _ _ splices => Splice.AllLegible splices
  | .read t => t.Legible
  | .arith _ op l r => op ∈ ["+", "-", "*", "/", "%"] ∧ l.Legible ∧ r.Legible
  | .compare _ op l r => op ∈ ["==", "!=", "<", ">", "<=", ">="] ∧ l.Legible ∧ r.Legible
  | .logic _ op l r => op ∈ ["&&", "||"] ∧ l.Legible ∧ r.Legible
  | .not _ e => e.Legible
  | .incDec e => e.Legible
  | .collection _ _ es => Expr.AllLegible es
  | .sized _ _ size gen => size.Legible ∧ gen.Legible
  | .lambda l => l.Legible
  | .call c => c.Legible
  | .range _ => False

/-- Legible expressions. -/
def Expr.AllLegible : List Expr → Prop
  | [] => True
  | e :: es => e.Legible ∧ Expr.AllLegible es

/-- Templates with legible expressions. -/
def Splice.AllLegible : List Splice → Prop
  | [] => True
  | .mk _ e :: ss => e.Legible ∧ Splice.AllLegible ss

/-- A legible target. -/
def Target.Legible : Target → Prop
  | .name id => IsName id.name
  | .element _ base i => IsName base.name ∧ i.Legible

/-- A legible increment or decrement. -/
def IncDec.Legible : IncDec → Prop
  | .mk _ op _ t => op ∈ ["++", "--"] ∧ t.Legible

/-- A legible lambda. -/
def Lambda.Legible : Lambda → Prop
  | .mk _ ps body _ => (∀ p ∈ ps, p.Legible) ∧ body.Legible

/-- A legible call. -/
def Call.Legible : Call → Prop
  | .mk _ f args => IsName f.name ∧ Expr.AllLegible args

end

/-- An expression that is absent or legible. -/
def Expr.LegibleOption (value : Option Expr) : Prop := ∀ e, value = some e → e.Legible

/-- A legible loop header. -/
def Header.Legible : Header → Prop
  | .range (.mk _ a b step) => a.Legible ∧ b.Legible ∧ Expr.LegibleOption step
  | .each e => e.Legible

mutual

/-- A statement with proper names, operators and types. -/
def Stmt.Legible : Stmt → Prop
  | .decl _ _ name ty value => IsName name.name ∧ (∀ t, ty = some t → t.Complete) ∧ Expr.LegibleOption value
  | .assign _ t v => t.Legible ∧ v.Legible
  | .compound _ t op v => op ∈ ["+=", "-=", "*=", "/="] ∧ t.Legible ∧ v.Legible
  | .selfOp _ e => e.Legible
  | .print _ _ value => Expr.LegibleOption value
  | .ifElse _ c a none => c.Legible ∧ a.Legible
  | .ifElse _ c a (some b) => c.Legible ∧ a.Legible ∧ b.Legible
  | .whileLoop _ c b => c.Legible ∧ b.Legible
  | .forLoop _ x h b => IsName x.name ∧ h.Legible ∧ b.Legible
  | .function f => f.Legible
  | .call _ c => c.Legible
  | .ret _ value => Expr.LegibleOption value
  | .brk _ => True
  | .cont _ => True
  | .block b => b.Legible

/-- Legible statements. -/
def Stmt.AllLegible : List Stmt → Prop
  | [] => True
  | s :: ss => s.Legible ∧ Stmt.AllLegible ss

/-- A legible block. -/
def Block.Legible : Block → Prop
  | .mk _ ss _ => Stmt.AllLegible ss

/-- A legible function. -/
def FunDecl.Legible : FunDecl → Prop
  | .mk _ name ps result body => IsName name.name ∧ (∀ p ∈ ps, p.Legible) ∧ result.Complete ∧ body.Legible

end

theorem Expr.allLegible_iff {es : List Expr} : Expr.AllLegible es ↔ ∀ e ∈ es, e.Legible := by
  induction es with
  | nil => simp [Expr.AllLegible]
  | cons e es ih => simp [Expr.AllLegible, ih]

theorem Stmt.allLegible_iff {ss : List Stmt} : Stmt.AllLegible ss ↔ ∀ s ∈ ss, s.Legible := by
  induction ss with
  | nil => simp [Stmt.AllLegible]
  | cons s ss ih => simp [Stmt.AllLegible, ih]

theorem Splice.allLegible_iff {ss : List Splice} :
    Splice.AllLegible ss ↔ ∀ offset e, Splice.mk offset e ∈ ss → e.Legible := by
  induction ss with
  | nil => simp [Splice.AllLegible]
  | cons s ss ih =>
    obtain ⟨offset, e⟩ := s
    rw [Splice.AllLegible, ih]
    constructor
    · rintro ⟨he, hss⟩ offset' e' hmem
      rcases List.mem_cons.mp hmem with heq | hmem
      · cases heq
        exact he
      · exact hss offset' e' hmem
    · exact fun h => ⟨h offset e List.mem_cons_self, fun offset' e' hmem => h offset' e' (List.mem_cons_of_mem _ hmem)⟩

/-! ## What is read -/

namespace Outline

open Grammar Parse
open Written (Infix Step legible_of_scan)

/-- A token of a scanned text. -/
abbrev Lettered (t : Token) : Prop := Written.Legible (fun _ => True) t

/-- What the rule reads from scanned tokens has the property. -/
def Yields {α : Type} (R : Reading α) (P : α → Prop) : Prop := ∀ ⦃ts a⦄, (∀ t ∈ ts, Lettered t) → R ts a → P a

theorem shown_mem {kinds : List Token.Kind} {ops : List String} {t : Token} (ht : Lettered t)
    (hkind : t.kind ∈ kinds) (hall : ∀ k ∈ kinds, (Infix k ∨ Step k) ∧ k.text ∈ ops) : t.shown ∈ ops := by
  rw [ht.shown (hall _ hkind).1]
  exact (hall _ hkind).2

theorem forall_of_separated {α : Type} {comma : List Token → Prop} {item : Reading α} {P : α → Prop}
    {ts : List Token} {as : List α} (h : Separated comma item ts as)
    (hitem : ∀ us a, us.Sublist ts → item us a → P a) : ∀ a ∈ as, P a := by
  induction h with
  | one h => simpa using hitem _ _ (.refl _) h
  | @more ts cs us a as h hc _ ih =>
    have htail : us.Sublist (ts ++ (cs ++ us)) :=
      (List.sublist_append_right cs us).trans (List.sublist_append_right ts _)
    exact List.forall_mem_cons.mpr
      ⟨hitem ts a (List.sublist_append_left _ _) h, ih fun vs b hvs => hitem vs b (hvs.trans htail)⟩

theorem yields_separated {α : Type} {comma : List Token → Prop} {item : Reading α} {P : α → Prop}
    (hitem : Yields item P) : Yields (Separated comma item) fun as => ∀ a ∈ as, P a :=
  fun _ _ hts h => forall_of_separated h fun _ _ hus ha => hitem (fun t ht => hts t (hus.subset ht)) ha

theorem complete_of_isType {ts : List Token} {ty : Ty} (h : IsType ts ty) : ty.Complete := by
  induction hn : ts.length using Nat.strong_induction_on generalizing ts ty with
  | _ n ih =>
    cases h with
    | scalar h => exact scalar?_known h
    | array ha hl he hs hg | list ha hl he hs hg => exact ⟨hs, scalar?_known he⟩
    | @thunk _ _ _ rs _ ho hc ha hr => exact ⟨trivial, ih rs.length (by simp at hn; omega) hr rfl⟩
    | @fn _ _ _ ps rs _ _ ho hps hc ha hr =>
      simp only [List.length_cons, List.length_append] at hn
      have hresult := ih rs.length (by omega) hr rfl
      refine ⟨Ty.allComplete_iff.mpr (forall_of_separated hps fun us p hus hp => ?_), hresult⟩
      have hlen := hus.length_le
      exact ih us.length (by omega) hp rfl

theorem yields_param : Yields IsParam Param.Legible := by
  intro ts p hts h
  cases h with
  | bare ht => exact ⟨(hts _ (by simp)).name ht, nofun⟩
  | typed ht hc hty =>
    refine ⟨(hts _ (by simp)).name ht, ?_⟩
    rintro t ⟨⟩
    exact complete_of_isType hty

section Primary

variable {E : Reading Expr} (hE : Yields E Expr.Legible)
include hE

theorem yields_target : Yields (IsTarget E) Target.Legible := by
  intro ts x hts h
  cases h with
  | name ht => exact (hts _ (by simp)).name ht
  | element ht hb hg he hg' hc => exact ⟨(hts _ (by simp)).name ht, hE (fun t ht => hts t (by simp [ht])) he⟩

theorem yields_arguments : Yields (AreArguments E) Expr.AllLegible := by
  intro ts es hts h
  cases h with
  | none hg hc => trivial
  | some hg hes hg' hc =>
    exact Expr.allLegible_iff.mpr (yields_separated hE (fun t ht => hts t (by simp [ht])) hes)

theorem yields_call : Yields (IsCall E) Call.Legible := by
  intro ts c hts h
  cases h with
  | mk hf ho hes => exact ⟨(hts _ (by simp)).name hf, yields_arguments hE (fun t ht => hts t (by simp [ht])) hes⟩

theorem yields_body : Yields (IsBody E) Expr.Legible := by
  intro ts e hts h
  cases h with
  | mk hg he hg' hc => exact hE (fun t ht => hts t (by simp [ht])) he

theorem yields_lambda : Yields (IsLambda E) Lambda.Legible := by
  intro ts l hts h
  cases h with
  | thunk hb hg ha he =>
    have hbody := yields_body hE (fun t ht => hts t (by simp [ht])) he
    exact ⟨List.forall_mem_nil _, hbody⟩
  | mk hb hg hps hdistinct ha he =>
    have hparams := yields_separated yields_param (fun t ht => hts t (by simp [ht])) hps
    have hbody := yields_body hE (fun t ht => hts t (by simp [ht])) he
    exact ⟨hparams, hbody⟩

theorem yields_primary {lit : Token → Expr → Prop} (hlit : ∀ t e, lit t e → e.Legible) :
    Yields (IsPrimary lit E) Expr.Legible := by
  intro ts e hts h
  have hstep {t : Token} (ht : t ∈ ts) (hkind : t.kind ∈ [.increment, .decrement]) : t.shown ∈ ["++", "--"] :=
    shown_mem (hts t ht) hkind (by decide)
  cases h with
  | int | true | false => trivial
  | string ht he => exact hlit _ _ he
  | parens ho hg he hg' hc => exact hE (fun t ht => hts t (by simp [ht])) he
  | before hop ht => exact ⟨hstep (by simp) hop, yields_target hE (fun t ht => hts t (by simp [ht])) ht⟩
  | read ht => exact yields_target hE hts ht
  | after ht hop => exact ⟨hstep (by simp) hop, yields_target hE (fun t ht => hts t (by simp [ht])) ht⟩
  | call hc => exact yields_call hE hts hc
  | lambda hl => exact yields_lambda hE hts hl
  | collection hk ho hg hes hg' hc =>
    exact Expr.allLegible_iff.mpr (yields_separated hE (fun t ht => hts t (by simp [ht])) hes)
  | sized hk ho hg hsize hg' hcs hl hh hc =>
    exact ⟨hE (fun t ht => hts t (by simp [ht])) hsize, yields_lambda hE (fun t ht => hts t (by simp [ht])) hl⟩
  | trailing hk ho hg hsize hg' hc hl =>
    exact ⟨hE (fun t ht => hts t (by simp [ht])) hsize, yields_lambda hE (fun t ht => hts t (by simp [ht])) hl⟩

end Primary

theorem yields_chain {kinds : List Token.Kind} {make : Mark → String → Expr → Expr → Expr}
    {operand : Reading Expr} (ops : List String) (hkinds : ∀ k ∈ kinds, (Infix k ∨ Step k) ∧ k.text ∈ ops)
    (hmake : ∀ m op l r, op ∈ ops → l.Legible → r.Legible → (make m op l r).Legible)
    (hoperand : Yields operand Expr.Legible) : Yields (Chain kinds make operand) Expr.Legible := by
  intro ts e hts h
  induction h with
  | one h => exact hoperand hts h
  | more hl hop hg hr ih =>
    exact hmake _ _ _ _ (shown_mem (hts _ (by simp)) hop hkinds) (ih fun t ht => hts t (by simp [ht]))
      (hoperand (fun t ht => hts t (by simp [ht])) hr)

theorem yields_logical {unary : Reading Expr} (h : Yields unary Expr.Legible) :
    Yields (IsLogical unary) Expr.Legible := by
  have hproduct : Yields (IsProduct unary) Expr.Legible :=
    yields_chain ["+", "-", "*", "/", "%"] (by decide) (fun _ _ _ _ h hl hr => ⟨h, hl, hr⟩) h
  have hsum : Yields (IsSum unary) Expr.Legible :=
    yields_chain ["+", "-", "*", "/", "%"] (by decide) (fun _ _ _ _ h hl hr => ⟨h, hl, hr⟩)
      hproduct
  refine yields_chain ["&&", "||"] (by decide) (fun _ _ _ _ h hl hr => ⟨h, hl, hr⟩) ?_
  intro ts e hts hcomparison
  cases hcomparison with
  | one h => exact hsum hts h
  | two hl hop hg hr =>
    exact ⟨shown_mem (hts _ (by simp)) hop (by decide), hsum (fun t ht => hts t (by simp [ht])) hl,
      hsum (fun t ht => hts t (by simp [ht])) hr⟩

theorem yields_expr {lit : Token → Expr → Prop} (hlit : ∀ t e, lit t e → e.Legible) (n : Nat) :
    Yields (IsExpr lit n) Expr.Legible := by
  have hunary (n : Nat) : Yields (IsUnary lit n) Expr.Legible := by
    induction n with
    | zero => exact yields_primary (fun _ _ _ h => h.elim) hlit
    | succ n ih =>
      rintro ts e hts (h | ⟨bang, us, x, hbang, hx, rfl, rfl⟩)
      · exact yields_primary (yields_logical ih) hlit hts h
      · have hoperand : x.Legible := ih (fun t ht => hts t (List.mem_cons_of_mem _ ht)) hx
        exact hoperand
  cases n with
  | zero => exact fun _ _ _ h => h.elim
  | succ n => exact yields_logical (hunary n)

theorem legible_of_stringAt {depth : Nat} {t : Token} {e : Expr} (h : stringAt depth t e) : e.Legible := by
  induction depth using Nat.strong_induction_on generalizing t e with
  | _ depth ih =>
    obtain ⟨text, all, rfl, hall⟩ := tok_of_joinPieces h
    refine Splice.allLegible_iff.mpr fun offset x hx => ?_
    rcases hall _ hx with hx | ⟨_, code, y, heq, -, hy⟩
    · cases hx
    · cases heq
      obtain ⟨inner, n, rfl, hscan, hwhole⟩ := of_templateWithin hy
      have hinner : ∀ t ∈ inner, Lettered t := legible_of_scan hscan fun _ _ _ => trivial
      cases hwhole with
      | mk hg he hg' =>
        exact yields_expr (fun u z hu => ih n (Nat.lt_succ_self n) hu) _ (fun t ht => hinner t (by simp [ht])) he

section Statements

variable {E : Reading Expr} {S : Reading Stmt}

section

variable (hE : Yields E Expr.Legible)
include hE

theorem yields_condition : Yields (IsCondition E) Expr.Legible := by
  intro ts e hts h
  cases h with
  | mk ho hg he hg' hc => exact hE (fun t ht => hts t (by simp [ht])) he

theorem yields_valuePart : Yields (IsValuePart E) Expr.LegibleOption := by
  intro ts value hts h
  cases h with
  | none => exact nofun
  | some hq hg he =>
    have hvalue := hE (fun t ht => hts t (by simp [ht])) he
    rintro _ ⟨⟩
    exact hvalue

theorem yields_stepPart : Yields (IsStepPart E) Expr.LegibleOption := by
  intro ts step hts h
  cases h with
  | none => exact nofun
  | some hs he =>
    have hstep := hE (fun t ht => hts t (by simp [ht])) he
    rintro _ ⟨⟩
    exact hstep

theorem yields_header : Yields (IsHeader E) Header.Legible := by
  intro ts h hts hh
  cases hh with
  | each he => exact hE hts he
  | range hfirst hd hlast hstep =>
    exact ⟨hE (fun t ht => hts t (by simp [ht])) hfirst, hE (fun t ht => hts t (by simp [ht])) hlast,
      yields_stepPart hE (fun t ht => hts t (by simp [ht])) hstep⟩

end

theorem complete_of_isTypePart {ts : List Token} {ty : Option Ty} (h : IsTypePart ts ty) :
    ∀ t, ty = some t → t.Complete := by
  cases h with
  | none => exact nofun
  | some hc hty =>
    rintro _ ⟨⟩
    exact complete_of_isType hty

theorem yields_params : Yields AreParams fun ps => ∀ p ∈ ps, p.Legible := by
  intro ts ps hts h
  induction h with
  | nil => exact List.forall_mem_nil _
  | last h =>
    have hparam := yields_param (fun t ht => hts t (by simp [ht])) h
    simpa using hparam
  | more h _ _ _ _ _ ih =>
    have hfirst := yields_param (fun t ht => hts t (by simp [ht])) h
    exact List.forall_mem_cons.mpr ⟨hfirst, ih fun t ht => hts t (by simp [ht])⟩

section

variable (hS : Yields S Stmt.Legible)
include hS

theorem yields_stmts : Yields (AreStmts S) Stmt.AllLegible := by
  intro ts ss hts h
  induction h with
  | nil => trivial
  | last h => exact ⟨hS hts h, trivial⟩
  | more h _ _ _ ih => exact ⟨hS (fun t ht => hts t (by simp [ht])) h, ih fun t ht => hts t (by simp [ht])⟩

theorem yields_block : Yields (IsBlock S) Block.Legible := by
  intro ts b hts h
  cases h with
  | mk ho hseps hs hc => exact yields_stmts hS (fun t ht => hts t (by simp [ht])) hs

theorem yields_elsePart : Yields (IsElsePart S) fun b => ∀ c, b = some c → c.Legible := by
  intro ts b hts h
  cases h with
  | none => exact nofun
  | block hg he hg' hb =>
    have hblock := yields_block hS (fun t ht => hts t (by simp [ht])) hb
    rintro _ ⟨⟩
    exact hblock
  | chained hg he hg' hi hs =>
    have hstmt := hS (fun t ht => hts t (by
      rcases List.mem_cons.mp ht with rfl | ht <;> simp [*])) hs
    rintro _ ⟨⟩
    exact ⟨hstmt, trivial⟩

end

theorem yields_statement (hE : Yields E Expr.Legible) (hS : Yields S Stmt.Legible) :
    Yields (IsStatement E S) Stmt.Legible := by
  intro ts s hts h
  have hstep {t : Token} (ht : t ∈ ts) (hkind : t.kind ∈ [.increment, .decrement]) : t.shown ∈ ["++", "--"] :=
    shown_mem (hts t ht) hkind (by decide)
  have hvalue {e : Expr} (he : e.Legible) : Expr.LegibleOption (some e) := by
    rintro _ ⟨⟩
    exact he
  cases h with
  | decl hk hn hty hv =>
    exact ⟨(hts _ (by simp)).name hn, complete_of_isTypePart hty,
      yields_valuePart hE (fun t ht => hts t (by simp [ht])) hv⟩
  | splitDecl hk hn hc hq hty hg hv =>
    refine ⟨(hts _ (by simp)).name hn, ?_, hvalue (hE (fun t ht => hts t (by simp [ht])) hv)⟩
    rintro _ ⟨⟩
    exact complete_of_isType hty
  | assign ht hq hg hv =>
    exact ⟨yields_target hE (fun t ht => hts t (by simp [ht])) ht, hE (fun t ht => hts t (by simp [ht])) hv⟩
  | compound ht hq hg hv =>
    exact ⟨shown_mem (hts _ (by simp)) hq (by decide), yields_target hE (fun t ht => hts t (by simp [ht])) ht,
      hE (fun t ht => hts t (by simp [ht])) hv⟩
  | after ht hop =>
    exact ⟨hstep (by simp) hop, yields_target hE (fun t ht => hts t (List.mem_append_left _ ht)) ht⟩
  | before hop ht => exact ⟨hstep (by simp) hop, yields_target hE (fun t ht => hts t (by simp [ht])) ht⟩
  | call hc => exact yields_call hE hts hc
  | print hk he => exact hvalue (yields_condition hE (fun t ht => hts t (by simp [ht])) he)
  | printEmpty | ret => exact nofun
  | retValue hk he => exact hvalue (hE (fun t ht => hts t (by simp [ht])) he)
  | brk | cont => trivial
  | block hb => exact yields_block hS hts hb
  | @ifElse _ _ _ _ _ _ _ b hk hcond hg ha hb =>
    have hc := yields_condition hE (fun t ht => hts t (by simp [ht])) hcond
    have hthen := yields_block hS (fun t ht => hts t (by simp [ht])) ha
    have helse := yields_elsePart hS (fun t ht => hts t (by simp [ht])) hb
    cases b with
    | none => exact ⟨hc, hthen⟩
    | some b => exact ⟨hc, hthen, helse b rfl⟩
  | whileLoop hk hcond hg hb =>
    exact ⟨yields_condition hE (fun t ht => hts t (by simp [ht])) hcond,
      yields_block hS (fun t ht => hts t (by simp [ht])) hb⟩
  | forLoop hk ho hx hi hh hc hg hb =>
    exact ⟨(hts _ (by simp)).name hx, yields_header hE (fun t ht => hts t (by simp [ht])) hh,
      yields_block hS (fun t ht => hts t (by simp [ht])) hb⟩
  | @function _ _ _ _ _ _ _ _ _ _ result _ hk hn ho hg hps hdistinct hc hr hg' hb =>
    have hresult : (result.getD .unit).Complete := by
      cases result with
      | none => exact Scalar.noConfusion
      | some t => exact complete_of_isTypePart hr t rfl
    exact ⟨(hts _ (by simp)).name hn, yields_params (fun t ht => hts t (by simp [ht])) hps, hresult,
      yields_block hS (fun t ht => hts t (by simp [ht])) hb⟩

theorem yields_stmt (hE : Yields E Expr.Legible) (n : Nat) : Yields (IsStmt E n) Stmt.Legible := by
  induction n with
  | zero => exact fun _ _ _ h => h.elim
  | succ n ih => exact yields_statement hE ih

end Statements

end Outline

/-- The statements of a source text are legible. -/
theorem Program.OfText.legible {text : Text} {p : Program} (h : p.OfText text) : Stmt.AllLegible p.stmts := by
  obtain ⟨tokens, q, file, hscan, hparse, rfl⟩ := h
  have hlettered : ∀ t ∈ tokens, Outline.Lettered t := Written.legible_of_scan hscan fun _ _ _ => trivial
  have hread := Program.isProgram_of_parse hparse
  change Grammar.IsProgram (Grammar.IsExpr (Grammar.stringAt (Parse.templateDepth tokens)) Parse.maxDepth) _ _ at hread
  cases hread with
  | mk hseps hs =>
    refine Outline.yields_stmts (Outline.yields_stmt ?_ _) (fun t ht => hlettered t (by simp [ht])) hs
    exact Outline.yields_expr (fun _ _ => Outline.legible_of_stringAt) Parse.maxDepth

end Kotlet

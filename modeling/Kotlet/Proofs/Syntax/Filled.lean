import Kotlet.Proofs.Syntax.Outline.Legible

/-!
# Collections have elements

* `Expr.Filled`, `Stmt.Filled` : trees in which no collection is written without elements;
* `Fills` : what is read has a property, whatever the tokens are;
* `fills_expr`, `fills_stmt`, `Program.OfText.filled` : all trees that are read are filled.
-/

namespace Kotlet

mutual

/-- No collection in the expression is written without elements. -/
def Expr.Filled : Expr → Prop
  | .int _ _ => True
  | .bool _ _ => True
  | .str _ _ splices => Splice.AllFilled splices
  | .read t => t.Filled
  | .arith _ _ l r => l.Filled ∧ r.Filled
  | .compare _ _ l r => l.Filled ∧ r.Filled
  | .logic _ _ l r => l.Filled ∧ r.Filled
  | .not _ e => e.Filled
  | .incDec e => e.Filled
  | .collection _ _ es => es ≠ [] ∧ Expr.AllFilled es
  | .sized _ _ size gen => size.Filled ∧ gen.Filled
  | .lambda l => l.Filled
  | .call c => c.Filled
  | .range _ => True

/-- Expressions without empty collections. -/
def Expr.AllFilled : List Expr → Prop
  | [] => True
  | e :: es => e.Filled ∧ Expr.AllFilled es

/-- Templates without empty collections. -/
def Splice.AllFilled : List Splice → Prop
  | [] => True
  | .mk _ e :: ss => e.Filled ∧ Splice.AllFilled ss

/-- A target without empty collections. -/
def Target.Filled : Target → Prop
  | .name _ => True
  | .element _ _ i => i.Filled

/-- An increment or decrement without empty collections. -/
def IncDec.Filled : IncDec → Prop
  | .mk _ _ _ t => t.Filled

/-- A lambda without empty collections. -/
def Lambda.Filled : Lambda → Prop
  | .mk _ _ body _ => body.Filled

/-- A call without empty collections. -/
def Call.Filled : Call → Prop
  | .mk _ _ args => Expr.AllFilled args

end

/-- An expression that is absent or without empty collections. -/
def Expr.FilledOption (value : Option Expr) : Prop := ∀ e, value = some e → e.Filled

/-- A loop header without empty collections. -/
def Header.Filled : Header → Prop
  | .range (.mk _ a b step) => a.Filled ∧ b.Filled ∧ Expr.FilledOption step
  | .each e => e.Filled

mutual

/-- No collection in the statement is written without elements. -/
def Stmt.Filled : Stmt → Prop
  | .decl _ _ _ _ value => Expr.FilledOption value
  | .assign _ t v => t.Filled ∧ v.Filled
  | .compound _ t _ v => t.Filled ∧ v.Filled
  | .selfOp _ e => e.Filled
  | .print _ _ value => Expr.FilledOption value
  | .ifElse _ c a none => c.Filled ∧ a.Filled
  | .ifElse _ c a (some b) => c.Filled ∧ a.Filled ∧ b.Filled
  | .whileLoop _ c b => c.Filled ∧ b.Filled
  | .forLoop _ _ h b => h.Filled ∧ b.Filled
  | .function f => f.Filled
  | .call _ c => c.Filled
  | .ret _ value => Expr.FilledOption value
  | .brk _ => True
  | .cont _ => True
  | .block b => b.Filled

/-- Statements without empty collections. -/
def Stmt.AllFilled : List Stmt → Prop
  | [] => True
  | s :: ss => s.Filled ∧ Stmt.AllFilled ss

/-- A block without empty collections. -/
def Block.Filled : Block → Prop
  | .mk _ ss _ => Stmt.AllFilled ss

/-- A function without empty collections. -/
def FunDecl.Filled : FunDecl → Prop
  | .mk _ _ _ _ body => body.Filled

end

theorem Expr.allFilled_iff {es : List Expr} : Expr.AllFilled es ↔ ∀ e ∈ es, e.Filled := by
  induction es with
  | nil => simp [Expr.AllFilled]
  | cons e es ih => simp [Expr.AllFilled, ih]

theorem Stmt.allFilled_iff {ss : List Stmt} : Stmt.AllFilled ss ↔ ∀ s ∈ ss, s.Filled := by
  induction ss with
  | nil => simp [Stmt.AllFilled]
  | cons s ss ih => simp [Stmt.AllFilled, ih]

theorem Splice.allFilled_of {ss : List Splice} (h : ∀ offset e, Splice.mk offset e ∈ ss → e.Filled) :
    Splice.AllFilled ss := by
  induction ss with
  | nil => trivial
  | cons s ss ih =>
    obtain ⟨offset, e⟩ := s
    exact ⟨h offset e List.mem_cons_self, ih fun offset' e' hmem => h offset' e' (List.mem_cons_of_mem _ hmem)⟩

/-! ## What is read -/

namespace Outline

open Grammar Parse

/-- What the rule reads has the property, whatever the tokens are. -/
def Fills {α : Type} (R : Reading α) (P : α → Prop) : Prop := ∀ ⦃ts a⦄, R ts a → P a

theorem fills_separated {α : Type} {comma : List Token → Prop} {item : Reading α} {P : α → Prop}
    (hitem : Fills item P) : Fills (Separated comma item) fun as => as ≠ [] ∧ ∀ a ∈ as, P a :=
  fun _ _ h => ⟨by cases h <;> exact List.cons_ne_nil _ _, forall_of_separated h fun _ _ _ ha => hitem ha⟩

section Primary

variable {E : Reading Expr} (hE : Fills E Expr.Filled)
include hE

theorem fills_target : Fills (IsTarget E) Target.Filled := by
  intro ts x h
  cases h with
  | name ht => trivial
  | element ht hb hg he hg' hc => exact hE he

theorem fills_call : Fills (IsCall E) Call.Filled := by
  intro ts c h
  obtain ⟨hf, ho, hes⟩ := h
  cases hes with
  | none hg hc => trivial
  | some hg hes hg' hc => exact Expr.allFilled_iff.mpr (fills_separated hE hes).2

theorem fills_lambda : Fills (IsLambda E) Lambda.Filled := by
  intro ts l h
  have hbody {us : List Token} {e : Expr} (h : IsBody E us e) : e.Filled := by
    obtain ⟨hg, he, hg', hc⟩ := h
    exact hE he
  cases h with
  | thunk hb hg ha he => exact hbody he
  | mk hb hg hps hdistinct ha he => exact hbody he

theorem fills_primary {lit : Token → Expr → Prop} (hlit : ∀ t e, lit t e → e.Filled) :
    Fills (IsPrimary lit E) Expr.Filled := by
  intro ts e h
  cases h with
  | int | true | false => trivial
  | string ht he => exact hlit _ _ he
  | parens ho hg he hg' hc => exact hE he
  | before hop ht => exact fills_target hE ht
  | read ht => exact fills_target hE ht
  | after ht hop => exact fills_target hE ht
  | call hc => exact fills_call hE hc
  | lambda hl => exact fills_lambda hE hl
  | collection hk ho hg hes hg' hc =>
    obtain ⟨hne, hall⟩ := fills_separated hE hes
    exact ⟨hne, Expr.allFilled_iff.mpr hall⟩
  | sized hk ho hg hsize hg' hcs hl hh hc => exact ⟨hE hsize, fills_lambda hE hl⟩
  | trailing hk ho hg hsize hg' hc hl => exact ⟨hE hsize, fills_lambda hE hl⟩

end Primary

theorem fills_chain {kinds : List Token.Kind} {make : Mark → String → Expr → Expr → Expr}
    {operand : Reading Expr} (hmake : ∀ m op l r, l.Filled → r.Filled → (make m op l r).Filled)
    (hoperand : Fills operand Expr.Filled) : Fills (Chain kinds make operand) Expr.Filled := by
  intro ts e h
  induction h with
  | one h => exact hoperand h
  | more hl hop hg hr ih => exact hmake _ _ _ _ ih (hoperand hr)

theorem fills_logical {unary : Reading Expr} (h : Fills unary Expr.Filled) :
    Fills (IsLogical unary) Expr.Filled := by
  have hsum : Fills (IsSum unary) Expr.Filled :=
    fills_chain (fun _ _ _ _ hl hr => ⟨hl, hr⟩) (fills_chain (fun _ _ _ _ hl hr => ⟨hl, hr⟩) h)
  refine fills_chain (fun _ _ _ _ hl hr => ⟨hl, hr⟩) fun ts e hcomparison => ?_
  cases hcomparison with
  | one h => exact hsum h
  | two hl hop hg hr => exact ⟨hsum hl, hsum hr⟩

theorem fills_expr {lit : Token → Expr → Prop} (hlit : ∀ t e, lit t e → e.Filled) (n : Nat) :
    Fills (IsExpr lit n) Expr.Filled := by
  have hunary (n : Nat) : Fills (IsUnary lit n) Expr.Filled := by
    induction n with
    | zero => exact fills_primary (fun _ _ h => h.elim) hlit
    | succ n ih =>
      rintro ts e (h | ⟨bang, us, x, hbang, hx, rfl, rfl⟩)
      · exact fills_primary (fills_logical ih) hlit h
      · have hoperand : x.Filled := ih hx
        exact hoperand
  cases n with
  | zero => exact fun _ _ h => h.elim
  | succ n => exact fills_logical (hunary n)

theorem filled_of_stringAt {depth : Nat} {t : Token} {e : Expr} (h : stringAt depth t e) : e.Filled := by
  induction depth using Nat.strong_induction_on generalizing t e with
  | _ depth ih =>
    obtain ⟨text, all, rfl, hall⟩ := tok_of_joinPieces h
    refine Splice.allFilled_of fun offset x hx => ?_
    rcases hall _ hx with hx | ⟨_, code, y, heq, -, hy⟩
    · cases hx
    · cases heq
      obtain ⟨inner, n, rfl, -, hg, he, hg'⟩ := of_templateWithin hy
      exact fills_expr (fun u z hu => ih n (Nat.lt_succ_self n) hu) _ he

section Statements

variable {E : Reading Expr} {S : Reading Stmt} (hE : Fills E Expr.Filled) (hS : Fills S Stmt.Filled)

include hE in
theorem fills_header : Fills (IsHeader E) Header.Filled := by
  intro ts h hh
  cases hh with
  | each he => exact hE he
  | range hfirst hd hlast hstep =>
    refine ⟨hE hfirst, hE hlast, ?_⟩
    cases hstep with
    | none => exact nofun
    | some hs he =>
      rintro _ ⟨⟩
      exact hE he

include hS in
theorem fills_stmts : Fills (AreStmts S) Stmt.AllFilled := by
  intro ts ss h
  induction h with
  | nil => trivial
  | last h => exact ⟨hS h, trivial⟩
  | more h _ _ _ ih => exact ⟨hS h, ih⟩

include hS in
theorem fills_block : Fills (IsBlock S) Block.Filled := by
  intro ts b h
  obtain ⟨ho, hseps, hs, hc⟩ := h
  exact fills_stmts hS hs

include hS in
theorem fills_elsePart : Fills (IsElsePart S) fun b => ∀ c, b = some c → c.Filled := by
  intro ts b h
  cases h with
  | none => exact nofun
  | block hg he hg' hb =>
    rintro _ ⟨⟩
    exact fills_block hS hb
  | chained hg he hg' hi hs =>
    rintro _ ⟨⟩
    exact ⟨hS hs, trivial⟩

include hE hS in
theorem fills_statement : Fills (IsStatement E S) Stmt.Filled := by
  intro ts s h
  have hvalue {e : Expr} (he : e.Filled) : Expr.FilledOption (some e) := by
    rintro _ ⟨⟩
    exact he
  have hcondition {us : List Token} {e : Expr} (h : IsCondition E us e) : e.Filled := by
    obtain ⟨ho, hg, he, hg', hc⟩ := h
    exact hE he
  cases h with
  | decl hk hn hty hv =>
    cases hv with
    | none => exact nofun
    | some hq hg he => exact hvalue (hE he)
  | splitDecl hk hn hc hq hty hg hv => exact hvalue (hE hv)
  | assign ht hq hg hv => exact ⟨fills_target hE ht, hE hv⟩
  | compound ht hq hg hv => exact ⟨fills_target hE ht, hE hv⟩
  | after ht hop => exact fills_target hE ht
  | before hop ht => exact fills_target hE ht
  | call hc => exact fills_call hE hc
  | print hk he => exact hvalue (hcondition he)
  | printEmpty | ret => exact nofun
  | retValue hk he => exact hvalue (hE he)
  | brk | cont => trivial
  | block hb => exact fills_block hS hb
  | @ifElse _ _ _ _ _ _ _ b hk hcond hg ha hb =>
    have helse := fills_elsePart hS hb
    cases b with
    | none => exact ⟨hcondition hcond, fills_block hS ha⟩
    | some b => exact ⟨hcondition hcond, fills_block hS ha, helse b rfl⟩
  | whileLoop hk hcond hg hb => exact ⟨hcondition hcond, fills_block hS hb⟩
  | forLoop hk ho hx hi hh hc hg hb => exact ⟨fills_header hE hh, fills_block hS hb⟩
  | function hk hn ho hg hps hdistinct hc hr hg' hb => exact fills_block hS hb

include hE in
theorem fills_stmt (n : Nat) : Fills (IsStmt E n) Stmt.Filled := by
  induction n with
  | zero => exact fun _ _ h => h.elim
  | succ n ih => exact fills_statement hE ih

end Statements

end Outline

/-- No collection of a source text is written without elements. -/
theorem Program.OfText.filled {text : Text} {p : Program} (h : p.OfText text) : Stmt.AllFilled p.stmts := by
  obtain ⟨tokens, q, file, -, hparse, rfl⟩ := h
  have hread := Program.isProgram_of_parse hparse
  change Grammar.IsProgram (Grammar.IsExpr (Grammar.stringAt (Parse.templateDepth tokens)) Parse.maxDepth) _ _ at hread
  obtain ⟨hseps, hs⟩ := hread
  refine Outline.fills_stmts (Outline.fills_stmt ?_ _) hs
  exact Outline.fills_expr (fun _ _ => Outline.filled_of_stringAt) Parse.maxDepth

end Kotlet

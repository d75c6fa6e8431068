import Kotlet.Operator
import Kotlet.Syntax
import Kotlet.Token.Scan

/-!
# Well-formed trees

What the grammar guarantees of a tree before anything is checked, and later stages rely on.

* `Ty.Complete` : a type that can be written: function types have results, and collections hold
  neither `Unit` nor what has no name;
* `Expr.WellFormed` : operators exist, templates stand in order inside their text, written types are
  complete;
* `Stmt.WellFormed`, `Program.WellFormed` : the same for statements; functions have names made of
  word characters and parameters with types.
-/

namespace Kotlet

/-- Whether a collection can hold elements of a scalar type. -/
def Scalar.isElement (s : Scalar) : Prop := s ≠ .unit ∧ s ≠ .unknown

mutual

/-- A type that can be written. -/
def Ty.Complete : Ty → Prop
  | .scalar s => s ≠ .unknown
  | .array s => s.isElement
  | .list s => s.isElement
  | .fn params result => Ty.AllComplete params ∧ Ty.CompleteOption result

/-- Types that can be written. -/
def Ty.AllComplete : List Ty → Prop
  | [] => True
  | t :: ts => t.Complete ∧ Ty.AllComplete ts

/-- A type that is there and can be written. -/
def Ty.CompleteOption : Option Ty → Prop
  | none => False
  | some t => t.Complete

end

theorem Ty.allComplete_iff {ts : List Ty} : Ty.AllComplete ts ↔ ∀ t ∈ ts, t.Complete := by
  induction ts with
  | nil => simp [Ty.AllComplete]
  | cons t ts ih => simp [Ty.AllComplete, ih]

theorem CollectionKind.complete_ty (k : CollectionKind) {s : Scalar} (h : s.isElement) :
    (k.ty s).Complete := by
  cases k <;> exact h

theorem Ty.Complete.of_element? {t : Ty} {s : Scalar} (h : t.Complete) (hs : t.element? = some s) :
    s.isElement := by
  cases t with
  | array e => obtain rfl := Option.some.inj hs; exact h
  | list e => obtain rfl := Option.some.inj hs; exact h
  | scalar e => cases hs
  | fn params result => cases hs

/-- A parameter whose type, if one is written, is complete. -/
def Param.Complete (p : Param) : Prop := ∀ t, p.ty = some t → t.Complete

/-! ## Expressions -/

mutual

/-- An expression that the grammar admits. -/
def Expr.WellFormed : Expr → Prop
  | .int _ _ => True
  | .bool _ _ => True
  | .str _ text splices => Splice.WellFormed text.toList.length 0 splices
  | .read t => t.WellFormed
  | .arith _ op l r => (ArithOp.ofText? op).isSome = true ∧ l.WellFormed ∧ r.WellFormed
  | .compare _ op l r => (CompareOp.ofText? op).isSome = true ∧ l.WellFormed ∧ r.WellFormed
  | .logic _ op l r => (op = "&&" ∨ op = "||") ∧ l.WellFormed ∧ r.WellFormed
  | .not _ e => e.WellFormed
  | .incDec e => e.WellFormed
  | .collection _ _ es => Expr.AllWellFormed es
  | .sized _ _ size gen => size.WellFormed ∧ gen.WellFormed
  | .lambda l => l.WellFormed
  | .call c => c.WellFormed
  | .range _ => True

/-- Expressions that the grammar admits. -/
def Expr.AllWellFormed : List Expr → Prop
  | [] => True
  | e :: es => e.WellFormed ∧ Expr.AllWellFormed es

/-- Templates in order, from the place `pos` on, in a text of `size` characters. -/
def Splice.WellFormed (size pos : Nat) : List Splice → Prop
  | [] => True
  | .mk offset e :: splices =>
    (pos ≤ offset ∧ offset ≤ size) ∧ e.WellFormed ∧ Splice.WellFormed size offset.toNat splices

/-- A target that the grammar admits. -/
def Target.WellFormed : Target → Prop
  | .name _ => True
  | .element _ _ index => index.WellFormed

/-- An increment or decrement that the grammar admits. -/
def IncDec.WellFormed : IncDec → Prop
  | .mk _ _ _ target => target.WellFormed

/-- A lambda that the grammar admits. -/
def Lambda.WellFormed : Lambda → Prop
  | .mk _ params body _ => (∀ p ∈ params, p.Complete) ∧ body.WellFormed

/-- A call that the grammar admits. -/
def Call.WellFormed : Call → Prop
  | .mk _ _ args => Expr.AllWellFormed args

end

theorem Expr.allWellFormed_iff {es : List Expr} :
    Expr.AllWellFormed es ↔ ∀ e ∈ es, e.WellFormed := by
  induction es with
  | nil => simp [Expr.AllWellFormed]
  | cons e es ih => simp [Expr.AllWellFormed, ih]

theorem Splice.wellFormed_snoc {size pos : Nat} {splices : List Splice} {e : Expr}
    (h : Splice.WellFormed size pos splices) (hpos : pos ≤ size) (he : e.WellFormed) :
    Splice.WellFormed size pos (splices ++ [.mk size e]) := by
  induction splices generalizing pos with
  | nil => exact ⟨⟨by exact_mod_cast hpos, Int.le_refl _⟩, he, trivial⟩
  | cons s rest ih =>
    obtain ⟨offset, e'⟩ := s
    obtain ⟨hb, he', hrest⟩ := h
    exact ⟨hb, he', ih hrest (by omega)⟩

theorem Splice.wellFormed_grow {size pos : Nat} {splices : List Splice}
    (h : Splice.WellFormed size pos splices) : Splice.WellFormed (size + 1) pos splices := by
  induction splices generalizing pos with
  | nil => trivial
  | cons s rest ih =>
    obtain ⟨offset, e⟩ := s
    obtain ⟨hb, he, hrest⟩ := h
    exact ⟨⟨hb.1, by omega⟩, he, ih hrest⟩

/-! ## Statements -/

/-- An expression that is absent, or that the grammar admits. -/
def Expr.WellFormedOption (e : Option Expr) : Prop := ∀ x, e = some x → x.WellFormed

/-- A range that the grammar admits. -/
def Range.WellFormed : Range → Prop
  | .mk _ first last step => first.WellFormed ∧ last.WellFormed ∧ Expr.WellFormedOption step

/-- A loop header that the grammar admits. -/
def Header.WellFormed : Header → Prop
  | .range r => r.WellFormed
  | .each e => e.WellFormed

/-- A name made of word characters. -/
def IsWord (name : String) : Prop := ∀ c ∈ name.toList, Token.continuesWord c = true

mutual

/-- A statement that the grammar admits. -/
def Stmt.WellFormed : Stmt → Prop
  | .decl _ _ _ ty value => (∀ t, ty = some t → t.Complete) ∧ Expr.WellFormedOption value
  | .assign _ target value => target.WellFormed ∧ value.WellFormed
  | .compound _ target op value =>
    (ArithOp.ofText? (compoundOperator op)).isSome = true ∧ target.WellFormed ∧ value.WellFormed
  | .selfOp _ e => e.WellFormed
  | .print _ _ value => Expr.WellFormedOption value
  | .ifElse _ cond a b => cond.WellFormed ∧ a.WellFormed ∧ Block.WellFormedOption b
  | .whileLoop _ cond body => cond.WellFormed ∧ body.WellFormed
  | .forLoop _ _ header body => header.WellFormed ∧ body.WellFormed
  | .function f => f.WellFormed
  | .call _ c => c.WellFormed
  | .ret _ value => Expr.WellFormedOption value
  | .brk _ => True
  | .cont _ => True
  | .block b => b.WellFormed

/-- Statements that the grammar admits. -/
def Stmt.AllWellFormed : List Stmt → Prop
  | [] => True
  | s :: ss => s.WellFormed ∧ Stmt.AllWellFormed ss

/-- A block that the grammar admits. -/
def Block.WellFormed : Block → Prop
  | .mk _ ss _ => Stmt.AllWellFormed ss

/-- A block that is absent, or that the grammar admits. -/
def Block.WellFormedOption : Option Block → Prop
  | none => True
  | some b => b.WellFormed

/-- A function that the grammar admits. -/
def FunDecl.WellFormed : FunDecl → Prop
  | .mk _ name params result body =>
    IsWord name.name ∧ (∀ p ∈ params, ∃ t, p.ty = some t ∧ t.Complete) ∧ result.Complete ∧
      body.WellFormed

end

theorem Stmt.allWellFormed_iff {ss : List Stmt} :
    Stmt.AllWellFormed ss ↔ ∀ s ∈ ss, s.WellFormed := by
  induction ss with
  | nil => simp [Stmt.AllWellFormed]
  | cons s ss ih => simp [Stmt.AllWellFormed, ih]

/-- A program that the grammar admits. -/
def Program.WellFormed (p : Program) : Prop := Stmt.AllWellFormed p.stmts

end Kotlet

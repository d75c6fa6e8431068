import Kotlet.Syntax.Outline

/-!
# Trees without their tokens

What is left of a tree when its tokens are taken out, and what the typechecker learned. Two trees have
the same structure exactly if the same is left of them.

* `Expr.bare`, `Stmt.bare`, `Program.bare` : trees without tokens, types and symbols;
* `Stmt.hasBlank` : whether a variable is declared with the value `_`; if none is, filling can be undone;
* `Expr.outline_bare`, `Stmt.outline_bare`, `Program.outline_bare` : they have the same outlines.

A declaration without a value can be `filled`: it is then taken for one with the value `_`, which is a
name like any other.
-/

namespace Kotlet

/-- A name alone. -/
def Ident.bare (id : Ident) : Ident := ⟨default, id.name, none, none⟩

/-- A parameter without its token. -/
def Param.bare (p : Param) : Param := ⟨p.name.bare, p.ty⟩

/-! ## Expressions -/

mutual

/-- An expression without its tokens. -/
def Expr.bare : Expr → Expr
  | .int _ n => .int default n
  | .bool _ b => .bool default b
  | .str _ text splices => .str default text (Splice.bares splices)
  | .read t => .read t.bare
  | .arith _ op l r => .arith default op l.bare r.bare
  | .compare _ op l r => .compare default op l.bare r.bare
  | .logic _ op l r => .logic default op l.bare r.bare
  | .not _ e => .not default e.bare
  | .incDec e => .incDec e.bare
  | .collection _ k es => .collection default k (Expr.bares es)
  | .sized _ k size gen => .sized default k size.bare gen.bare
  | .lambda l => .lambda l.bare
  | .call c => .call c.bare
  | .range r => .range r.bare

/-- Expressions without their tokens. -/
def Expr.bares : List Expr → List Expr
  | [] => []
  | e :: es => e.bare :: Expr.bares es

/-- Templates without their tokens, at their places. -/
def Splice.bares : List Splice → List Splice
  | [] => []
  | .mk offset e :: ss => .mk offset e.bare :: Splice.bares ss

/-- A target without its tokens. -/
def Target.bare : Target → Target
  | .name id => .name id.bare
  | .element _ base i => .element default base.bare i.bare

/-- An increment or decrement without its tokens. -/
def IncDec.bare : IncDec → IncDec
  | .mk _ op before t => .mk default op before t.bare

/-- A lambda without its tokens. -/
def Lambda.bare : Lambda → Lambda
  | .mk _ ps body _ => .mk default (ps.map Param.bare) body.bare []

/-- A call without its tokens. -/
def Call.bare : Call → Call
  | .mk _ f args => .mk default f.bare (Expr.bares args)

/-- A range without its tokens. -/
def Range.bare : Range → Range
  | .mk _ a b none => .mk default a.bare b.bare none
  | .mk _ a b (some s) => .mk default a.bare b.bare (some s.bare)

end

/-- A loop header without its tokens. -/
def Header.bare : Header → Header
  | .range r => .range r.bare
  | .each e => .each e.bare

/-! ## Statements -/

/-- The name `_`. -/
def Expr.blank : Expr := .read (.name ⟨default, "_", none, none⟩)

/-- The value of a declaration, which may be filled in. -/
def Expr.declared (filled : Bool) : Option Expr → Option Expr
  | none => if filled then some .blank else none
  | some e => some e.bare

mutual

/-- A statement without its tokens, its declarations filled or not. -/
def Stmt.bare (filled : Bool) : Stmt → Stmt
  | .decl _ isMutable name ty value => .decl default isMutable name.bare ty (Expr.declared filled value)
  | .assign _ t v => .assign default t.bare v.bare
  | .compound _ t op v => .compound default t.bare op v.bare
  | .selfOp _ e => .selfOp default e.bare
  | .print _ newline value => .print default newline (value.map Expr.bare)
  | .ifElse _ c a none => .ifElse default c.bare (a.bare filled) none
  | .ifElse _ c a (some b) => .ifElse default c.bare (a.bare filled) (some (b.bare filled))
  | .whileLoop _ c b => .whileLoop default c.bare (b.bare filled)
  | .forLoop _ x h b => .forLoop default x.bare h.bare (b.bare filled)
  | .function f => .function (f.bare filled)
  | .call _ c => .call default c.bare
  | .ret _ value => .ret default (value.map Expr.bare)
  | .brk _ => .brk default
  | .cont _ => .cont default
  | .block b => .block (b.bare filled)

/-- Statements without their tokens. -/
def Stmt.bares (filled : Bool) : List Stmt → List Stmt
  | [] => []
  | s :: ss => s.bare filled :: Stmt.bares filled ss

/-- A block without its tokens. -/
def Block.bare (filled : Bool) : Block → Block
  | .mk _ ss _ => .mk default (Stmt.bares filled ss) default

/-- A function without its tokens. -/
def FunDecl.bare (filled : Bool) : FunDecl → FunDecl
  | .mk _ name ps result body => .mk default name.bare (ps.map Param.bare) result (body.bare filled)

end

/-- The statements of a program without their tokens. -/
def Program.bare (filled : Bool) (p : Program) : List Stmt := Stmt.bares filled p.stmts

/-! ## Filled declarations -/

mutual

/-- Whether a variable is declared with the value `_`. -/
def Stmt.hasBlank : Stmt → Bool
  | .decl _ _ _ _ (some (.read (.name x))) => x.name == "_"
  | .ifElse _ _ a none => a.hasBlank
  | .ifElse _ _ a (some b) => a.hasBlank || b.hasBlank
  | .whileLoop _ _ b => b.hasBlank
  | .forLoop _ _ _ b => b.hasBlank
  | .function f => f.hasBlank
  | .block b => b.hasBlank
  | _ => false

/-- Whether one of the statements declares a variable with the value `_`. -/
def Stmt.anyBlank : List Stmt → Bool
  | [] => false
  | s :: ss => s.hasBlank || Stmt.anyBlank ss

/-- Whether a variable of the block is declared with the value `_`. -/
def Block.hasBlank : Block → Bool
  | .mk _ ss _ => Stmt.anyBlank ss

/-- Whether a variable of the function is declared with the value `_`. -/
def FunDecl.hasBlank : FunDecl → Bool
  | .mk _ _ _ _ body => body.hasBlank

end

mutual

/-- The statement with its declarations emptied of the value `_`. -/
def Stmt.emptied : Stmt → Stmt
  | .decl tok isMutable name ty (some (.read (.name x))) =>
    .decl tok isMutable name ty (if x.name = "_" then none else some (.read (.name x)))
  | .ifElse tok c a none => .ifElse tok c a.emptied none
  | .ifElse tok c a (some b) => .ifElse tok c a.emptied (some b.emptied)
  | .whileLoop tok c b => .whileLoop tok c b.emptied
  | .forLoop tok x h b => .forLoop tok x h b.emptied
  | .function f => .function f.emptied
  | .block b => .block b.emptied
  | s => s

/-- The statements with their declarations emptied. -/
def Stmt.allEmptied : List Stmt → List Stmt
  | [] => []
  | s :: ss => s.emptied :: Stmt.allEmptied ss

/-- The block with its declarations emptied. -/
def Block.emptied : Block → Block
  | .mk tok ss close => .mk tok (Stmt.allEmptied ss) close

/-- The function with its declarations emptied. -/
def FunDecl.emptied : FunDecl → FunDecl
  | .mk tok name ps result body => .mk tok name ps result body.emptied

end

theorem Stmt.emptied_decl (tok : Token) (isMutable : Bool) (name : Ident) (ty : Option Ty) (value : Option Expr)
    (h : (Stmt.decl tok isMutable name ty value).hasBlank = false) :
    ((Stmt.decl tok isMutable name ty value).bare true).emptied = (Stmt.decl tok isMutable name ty value).bare false := by
  cases value with
  | none => simp [Stmt.bare, Expr.declared, Expr.blank, Stmt.emptied]
  | some e =>
    cases e with
    | read t =>
      cases t with
      | name x =>
        rw [Stmt.hasBlank, beq_eq_false_iff_ne] at h
        simp [Stmt.bare, Expr.declared, Expr.bare, Target.bare, Ident.bare, Stmt.emptied, h]
      | element => simp [Stmt.bare, Expr.declared, Expr.bare, Target.bare, Stmt.emptied]
    | _ => simp [Stmt.bare, Expr.declared, Expr.bare, Stmt.emptied]

mutual

/-- Where no variable is declared with the value `_`, what was filled can be emptied again. -/
theorem Stmt.emptied_bare : ∀ s : Stmt, s.hasBlank = false → (s.bare true).emptied = s.bare false
  | .decl tok isMutable name ty value, h => Stmt.emptied_decl tok isMutable name ty value h
  | .ifElse _ _ a none, h => by
    rw [Stmt.hasBlank] at h
    simp [Stmt.bare, Stmt.emptied, Block.emptied_bare a h]
  | .ifElse _ _ a (some b), h => by
    rw [Stmt.hasBlank, Bool.or_eq_false_iff] at h
    simp [Stmt.bare, Stmt.emptied, Block.emptied_bare a h.1, Block.emptied_bare b h.2]
  | .whileLoop _ _ b, h => by
    rw [Stmt.hasBlank] at h
    simp [Stmt.bare, Stmt.emptied, Block.emptied_bare b h]
  | .forLoop _ _ _ b, h => by
    rw [Stmt.hasBlank] at h
    simp [Stmt.bare, Stmt.emptied, Block.emptied_bare b h]
  | .function f, h => by
    rw [Stmt.hasBlank] at h
    simp [Stmt.bare, Stmt.emptied, FunDecl.emptied_bare f h]
  | .block b, h => by
    rw [Stmt.hasBlank] at h
    simp [Stmt.bare, Stmt.emptied, Block.emptied_bare b h]
  | .assign _ _ _, _ | .compound _ _ _ _, _ | .selfOp _ _, _ | .print _ _ _, _ | .call _ _, _ | .ret _ _, _
  | .brk _, _ | .cont _, _ => by simp [Stmt.bare, Stmt.emptied]

theorem Stmt.allEmptied_bares :
    ∀ ss : List Stmt, Stmt.anyBlank ss = false → Stmt.allEmptied (Stmt.bares true ss) = Stmt.bares false ss
  | [], _ => by simp [Stmt.bares, Stmt.allEmptied]
  | s :: ss, h => by
    rw [Stmt.anyBlank, Bool.or_eq_false_iff] at h
    simp [Stmt.bares, Stmt.allEmptied, Stmt.emptied_bare s h.1, Stmt.allEmptied_bares ss h.2]

theorem Block.emptied_bare : ∀ b : Block, b.hasBlank = false → (b.bare true).emptied = b.bare false
  | .mk _ ss _, h => by
    rw [Block.hasBlank] at h
    simp [Block.bare, Block.emptied, Stmt.allEmptied_bares ss h]

theorem FunDecl.emptied_bare : ∀ f : FunDecl, f.hasBlank = false → (f.bare true).emptied = f.bare false
  | .mk _ _ _ _ body, h => by
    rw [FunDecl.hasBlank] at h
    simp [FunDecl.bare, FunDecl.emptied, Block.emptied_bare body h]

end

/-! ## Outlines -/

@[simp] theorem outlineParams_bare (ps : List Param) : outlineParams (ps.map Param.bare) = outlineParams ps := by
  simp only [outlineParams, List.map_map]
  rfl

mutual

@[simp] theorem Expr.outline_bare : ∀ e : Expr, e.bare.outline = e.outline
  | .int _ _ => by simp [Expr.bare, Expr.outline]
  | .bool _ _ => by simp [Expr.bare, Expr.outline]
  | .str _ _ splices => by simp [Expr.bare, Expr.outline, Splice.outlines_bares splices]
  | .read t => by simp [Expr.bare, Expr.outline, Target.outline_bare t]
  | .arith _ _ l r => by simp [Expr.bare, Expr.outline, Expr.outline_bare l, Expr.outline_bare r]
  | .compare _ _ l r => by simp [Expr.bare, Expr.outline, Expr.outline_bare l, Expr.outline_bare r]
  | .logic _ _ l r => by simp [Expr.bare, Expr.outline, Expr.outline_bare l, Expr.outline_bare r]
  | .not _ e => by simp [Expr.bare, Expr.outline, Expr.outline_bare e]
  | .incDec e => by simp [Expr.bare, Expr.outline, IncDec.outline_bare e]
  | .collection _ _ es => by simp [Expr.bare, Expr.outline, Expr.outlines_bares es]
  | .sized _ _ size gen => by simp [Expr.bare, Expr.outline, Expr.outline_bare size, Lambda.outline_bare gen]
  | .lambda l => by simp [Expr.bare, Expr.outline, Lambda.outline_bare l]
  | .call c => by simp [Expr.bare, Expr.outline, Call.outline_bare c]
  | .range r => by simp [Expr.bare, Expr.outline, Range.outline_bare r]

theorem Expr.outlines_bares : ∀ es : List Expr, Expr.outlines (Expr.bares es) = Expr.outlines es
  | [] => rfl
  | e :: es => by simp [Expr.bares, Expr.outlines, Expr.outline_bare e, Expr.outlines_bares es]

theorem Splice.outlines_bares : ∀ ss : List Splice, Splice.outlines (Splice.bares ss) = Splice.outlines ss
  | [] => rfl
  | .mk _ e :: ss => by simp [Splice.bares, Splice.outlines, Expr.outline_bare e, Splice.outlines_bares ss]

@[simp] theorem Target.outline_bare : ∀ t : Target, t.bare.outline = t.outline
  | .name _ => by simp [Target.bare, Target.outline, Ident.bare]
  | .element _ _ i => by simp [Target.bare, Target.outline, Ident.bare, Expr.outline_bare i]

@[simp] theorem IncDec.outline_bare : ∀ e : IncDec, e.bare.outline = e.outline
  | .mk _ _ before t => by cases before <;> simp [IncDec.bare, IncDec.outline, Target.outline_bare t]

@[simp] theorem Lambda.outline_bare : ∀ l : Lambda, l.bare.outline = l.outline
  | .mk _ _ body _ => by simp [Lambda.bare, Lambda.outline, Expr.outline_bare body]

@[simp] theorem Call.outline_bare : ∀ c : Call, c.bare.outline = c.outline
  | .mk _ _ args => by simp [Call.bare, Call.outline, Ident.bare, Expr.outlines_bares args]

@[simp] theorem Range.outline_bare : ∀ r : Range, r.bare.outline = r.outline
  | .mk _ a b none => by simp [Range.bare, Range.outline, Expr.outline_bare a, Expr.outline_bare b]
  | .mk _ a b (some s) => by
    simp [Range.bare, Range.outline, Expr.outline_bare a, Expr.outline_bare b, Expr.outline_bare s]

end

@[simp] theorem Header.outline_bare (h : Header) : h.bare.outline = h.outline := by
  cases h <;> simp [Header.bare, Header.outline]

@[simp] theorem Expr.optOutline_bare (value : Option Expr) :
    Expr.optOutline (value.map Expr.bare) = Expr.optOutline value := by
  cases value <;> simp [Expr.optOutline]

/-- A declaration without a value is shown like one with the value `_`. -/
@[simp] theorem Expr.outline_declared (filled : Bool) (value : Option Expr) :
    ((Expr.declared filled value).map Expr.outline).getD "_" = (value.map Expr.outline).getD "_" := by
  cases value with
  | none => cases filled <;> simp [Expr.declared, Expr.blank, Expr.outline, Target.outline]
  | some e => simp [Expr.declared]

mutual

theorem Stmt.outline_bare (filled : Bool) : ∀ s : Stmt, (s.bare filled).outline = s.outline
  | .decl _ _ _ _ _ => by simp [Stmt.bare, Stmt.outline, Ident.bare]
  | .assign _ _ _ => by simp [Stmt.bare, Stmt.outline]
  | .compound _ _ _ _ => by simp [Stmt.bare, Stmt.outline]
  | .selfOp _ _ => by simp [Stmt.bare, Stmt.outline]
  | .print _ _ _ => by simp [Stmt.bare, Stmt.outline]
  | .ifElse _ _ a none => by simp [Stmt.bare, Stmt.outline, Block.outline_bare filled a]
  | .ifElse _ _ a (some b) => by
    simp [Stmt.bare, Stmt.outline, Block.outline_bare filled a, Block.outline_bare filled b]
  | .whileLoop _ _ b => by simp [Stmt.bare, Stmt.outline, Block.outline_bare filled b]
  | .forLoop _ _ _ b => by simp [Stmt.bare, Stmt.outline, Ident.bare, Block.outline_bare filled b]
  | .function f => by simp [Stmt.bare, Stmt.outline, FunDecl.outline_bare filled f]
  | .call _ _ => by simp [Stmt.bare, Stmt.outline]
  | .ret _ _ => by simp [Stmt.bare, Stmt.outline]
  | .brk _ => by simp [Stmt.bare, Stmt.outline]
  | .cont _ => by simp [Stmt.bare, Stmt.outline]
  | .block b => by simp [Stmt.bare, Stmt.outline, Block.outline_bare filled b]

theorem Stmt.outlines_bares (filled : Bool) :
    ∀ ss : List Stmt, Stmt.outlines (Stmt.bares filled ss) = Stmt.outlines ss
  | [] => by simp [Stmt.bares, Stmt.outlines]
  | s :: ss => by simp [Stmt.bares, Stmt.outlines, Stmt.outline_bare filled s, Stmt.outlines_bares filled ss]

theorem Block.outline_bare (filled : Bool) : ∀ b : Block, (b.bare filled).outline = b.outline
  | .mk _ ss _ => by simp [Block.bare, Block.outline, Stmt.outlines_bares filled ss]

theorem FunDecl.outline_bare (filled : Bool) : ∀ f : FunDecl, (f.bare filled).outline = f.outline
  | .mk _ _ _ _ body => by simp [FunDecl.bare, FunDecl.outline, Ident.bare, Block.outline_bare filled body]

end

/-- Programs of one structure have one outline. -/
theorem Program.outline_of_bare {filled : Bool} {p q : Program} (h : p.bare filled = q.bare filled) :
    p.outline = q.outline := by
  have houtlines := congrArg Stmt.outlines h
  rw [Program.bare, Program.bare, Stmt.outlines_bares, Stmt.outlines_bares] at houtlines
  rw [Program.outline, Program.outline, houtlines]

end Kotlet

import Kotlet.Proofs.Typing.Stmt

/-!
# Trees that keep their constants

When the stores of a checked tree leave its constants alone, said without the checker. A constant
without an initial value may be assigned once; which ones may have been assigned is followed along
the tree.

* `Expr.Steady` : expressions that store only to some variables;
* `Stmt.DeadEnd`, `Stmt.Restarts` : an `if` whose branches both leave what is around it, anywhere or
  inside a loop or function. The checker forgets there what was assigned;
* `Stmt.Assigns`, `FunDecl.Assigns` : statements and functions;
* `Stmt.ListAssigns.script` : the script of a program alone.
-/

namespace Kotlet

/-! ## Expressions -/

mutual

/-- The expression stores to no variables but those among `V`, and lambdas in it to none at all. -/
def Expr.Steady (V : List Symbol) : Expr → Prop
  | .int _ _ => True
  | .bool _ _ => True
  | .str _ _ splices => Splice.Steady V splices
  | .read t => t.Steady V
  | .arith _ _ a b => a.Steady V ∧ b.Steady V
  | .compare _ _ a b => a.Steady V ∧ b.Steady V
  | .logic _ _ a b => a.Steady V ∧ b.Steady V
  | .not _ e => e.Steady V
  | .incDec e => e.Steady V
  | .collection _ _ es => Expr.AllSteady V es
  | .sized _ _ size gen => size.Steady V ∧ gen.Steady
  | .lambda l => l.Steady
  | .call c => c.Steady V
  | .range _ => True

/-- Some expressions. -/
def Expr.AllSteady (V : List Symbol) : List Expr → Prop
  | [] => True
  | e :: es => e.Steady V ∧ Expr.AllSteady V es

/-- Templates. -/
def Splice.Steady (V : List Symbol) : List Splice → Prop
  | [] => True
  | .mk _ e :: splices => e.Steady V ∧ Splice.Steady V splices

/-- A target that is read. -/
def Target.Steady (V : List Symbol) : Target → Prop
  | .name _ => True
  | .element _ _ index => index.Steady V

/-- A target that is updated. -/
def Target.Varies (V : List Symbol) : Target → Prop
  | .name id => ∃ sym ∈ V, id.sym = some sym
  | .element _ _ index => index.Steady V

/-- An increment or decrement. -/
def IncDec.Steady (V : List Symbol) : IncDec → Prop
  | .mk _ _ _ target => target.Varies V

/-- A lambda. -/
def Lambda.Steady : Lambda → Prop
  | .mk _ _ body _ => body.Steady []

/-- The arguments of a call. -/
def Call.Steady (V : List Symbol) : Call → Prop
  | .mk _ _ args => Expr.AllSteady V args

end

/-- What a loop runs over. -/
def Header.Steady (V : List Symbol) : Header → Prop
  | .range (.mk _ first last step) =>
    first.Steady V ∧ last.Steady V ∧ ∀ e, step = some e → e.Steady V
  | .each e => e.Steady V

/-! ## Where the checker forgets -/

mutual

/-- Somewhere in the statement there is an `if` whose branches both leave what is around it. -/
def Stmt.DeadEnd : Stmt → Prop
  | .ifElse _ _ a b =>
    (a.alwaysJumps = true ∧ b.any Block.alwaysJumps = true) ∨ a.DeadEnd ∨ Block.DeadEndOption b
  | .whileLoop _ _ body => body.DeadEnd
  | .forLoop _ _ _ body => body.DeadEnd
  | .block b => b.DeadEnd
  | .function f => f.DeadEnd
  | _ => False

/-- Somewhere in some statements. -/
def Stmt.ListDeadEnd : List Stmt → Prop
  | [] => False
  | s :: ss => s.DeadEnd ∨ Stmt.ListDeadEnd ss

/-- Somewhere in a block. -/
def Block.DeadEnd : Block → Prop
  | .mk _ ss _ => Stmt.ListDeadEnd ss

/-- Somewhere in a block that may be absent. -/
def Block.DeadEndOption : Option Block → Prop
  | none => False
  | some b => b.DeadEnd

/-- Somewhere in a function. -/
def FunDecl.DeadEnd : FunDecl → Prop
  | .mk _ _ _ _ body => body.DeadEnd

end

mutual

/-- There is such an `if` inside a loop or a function, after which the program goes on. -/
def Stmt.Restarts : Stmt → Prop
  | .ifElse _ _ a b => a.Restarts ∨ Block.RestartsOption b
  | .whileLoop _ _ body => body.DeadEnd
  | .forLoop _ _ _ body => body.DeadEnd
  | .block b => b.Restarts
  | .function f => f.DeadEnd
  | _ => False

/-- In some statements. -/
def Stmt.ListRestarts : List Stmt → Prop
  | [] => False
  | s :: ss => s.Restarts ∨ Stmt.ListRestarts ss

/-- In a block. -/
def Block.Restarts : Block → Prop
  | .mk _ ss _ => Stmt.ListRestarts ss

/-- In a block that may be absent. -/
def Block.RestartsOption : Option Block → Prop
  | none => False
  | some b => b.Restarts

end

mutual

theorem Stmt.Restarts.deadEnd : (s : Stmt) → s.Restarts → s.DeadEnd
  | .ifElse _ _ a b, h => .inr (h.imp (Block.Restarts.deadEnd a) (Block.restartsOption_deadEnd b))
  | .whileLoop _ _ _, h => h
  | .forLoop _ _ _ _, h => h
  | .block b, h => Block.Restarts.deadEnd b h
  | .function _, h => h
  | .decl _ _ _ _ _, h => h.elim
  | .assign _ _ _, h => h.elim
  | .compound _ _ _ _, h => h.elim
  | .selfOp _ _, h => h.elim
  | .print _ _ _, h => h.elim
  | .call _ _, h => h.elim
  | .ret _ _, h => h.elim
  | .brk _, h => h.elim
  | .cont _, h => h.elim

theorem Stmt.listRestarts_deadEnd : (ss : List Stmt) → Stmt.ListRestarts ss → Stmt.ListDeadEnd ss
  | [], h => h.elim
  | s :: ss, h => h.imp (Stmt.Restarts.deadEnd s) (Stmt.listRestarts_deadEnd ss)

theorem Block.Restarts.deadEnd : (b : Block) → b.Restarts → b.DeadEnd
  | .mk _ ss _, h => Stmt.listRestarts_deadEnd ss h

theorem Block.restartsOption_deadEnd : (b : Option Block) → Block.RestartsOption b →
    Block.DeadEndOption b
  | none, h => h.elim
  | some b, h => Block.Restarts.deadEnd b h

end

mutual

instance Stmt.decidableDeadEnd : (s : Stmt) → Decidable s.DeadEnd
  | .ifElse _ _ a b =>
    have := a.decidableDeadEnd
    have := Block.decidableDeadEndOption b
    inferInstanceAs (Decidable ((a.alwaysJumps = true ∧ b.any Block.alwaysJumps = true) ∨
      a.DeadEnd ∨ Block.DeadEndOption b))
  | .whileLoop _ _ body => body.decidableDeadEnd
  | .forLoop _ _ _ body => body.decidableDeadEnd
  | .block b => b.decidableDeadEnd
  | .function f => f.decidableDeadEnd
  | .decl _ _ _ _ _ | .assign _ _ _ | .compound _ _ _ _ | .selfOp _ _ | .print _ _ _
  | .call _ _ | .ret _ _ | .brk _ | .cont _ => .isFalse id

instance Stmt.decidableListDeadEnd : (ss : List Stmt) → Decidable (Stmt.ListDeadEnd ss)
  | [] => .isFalse id
  | s :: ss =>
    have := s.decidableDeadEnd
    have := Stmt.decidableListDeadEnd ss
    inferInstanceAs (Decidable (s.DeadEnd ∨ Stmt.ListDeadEnd ss))

instance Block.decidableDeadEnd : (b : Block) → Decidable b.DeadEnd
  | .mk _ ss _ => Stmt.decidableListDeadEnd ss

instance Block.decidableDeadEndOption : (b : Option Block) → Decidable (Block.DeadEndOption b)
  | none => .isFalse id
  | some b => b.decidableDeadEnd

instance FunDecl.decidableDeadEnd : (f : FunDecl) → Decidable f.DeadEnd
  | .mk _ _ _ _ body => body.decidableDeadEnd

end

mutual

instance Stmt.decidableRestarts : (s : Stmt) → Decidable s.Restarts
  | .ifElse _ _ a b =>
    have := a.decidableRestarts
    have := Block.decidableRestartsOption b
    inferInstanceAs (Decidable (a.Restarts ∨ Block.RestartsOption b))
  | .whileLoop _ _ body => body.decidableDeadEnd
  | .forLoop _ _ _ body => body.decidableDeadEnd
  | .block b => b.decidableRestarts
  | .function f => f.decidableDeadEnd
  | .decl _ _ _ _ _ | .assign _ _ _ | .compound _ _ _ _ | .selfOp _ _ | .print _ _ _
  | .call _ _ | .ret _ _ | .brk _ | .cont _ => .isFalse id

instance Stmt.decidableListRestarts : (ss : List Stmt) → Decidable (Stmt.ListRestarts ss)
  | [] => .isFalse id
  | s :: ss =>
    have := s.decidableRestarts
    have := Stmt.decidableListRestarts ss
    inferInstanceAs (Decidable (s.Restarts ∨ Stmt.ListRestarts ss))

instance Block.decidableRestarts : (b : Block) → Decidable b.Restarts
  | .mk _ ss _ => Stmt.decidableListRestarts ss

instance Block.decidableRestartsOption : (b : Option Block) → Decidable (Block.RestartsOption b)
  | none => .isFalse id
  | some b => b.decidableRestarts

end

/-! ## Statements -/

/-- Variables that are no constants. -/
def mutables (Γ : List Symbol) : List Symbol := Γ.filter fun sym => !sym.constant

/-- What may have been assigned only grows, as far as `D` goes. -/
def Later (D : List SymbolId) (A A' : SymbolId → Prop) : Prop := ∀ id ∈ D, A id → A' id

/-- The constants that may be assigned inside a loop: none from outside, when it matters how often
they are. -/
def inside (once : Bool) (D : List SymbolId) : List SymbolId := if once then [] else D

/-- The variables after a statement. -/
def Stmt.declares (Γ : List Symbol) : Stmt → List Symbol
  | .decl _ _ name _ _ => name.sym.toList ++ Γ
  | _ => Γ

/-- The constants to be assigned after a statement. -/
def Stmt.leaves (D : List SymbolId) : Stmt → List SymbolId
  | .decl _ false name _ none => (name.sym.map Symbol.id).toList ++ D
  | _ => D

mutual

/-- The statement stores to variables of `Γ` alone, and to constants only where they are in `D` and
`A` tells that they are not assigned yet; afterwards `A'` tells. When `once` is false, nothing is
said of how often they are assigned. -/
def Stmt.Assigns (once : Bool) (Γ : List Symbol) (D : List SymbolId) (A A' : SymbolId → Prop) :
    Stmt → Prop
  | .decl _ isMutable name _ value =>
    (∃ sym, name.sym = some sym ∧ sym.constant = !isMutable ∧ ∀ x ∈ Γ, x.id ≠ sym.id) ∧
      (∀ e, value = some e → e.Steady (mutables Γ)) ∧ Later D A A'
  | .assign _ (.name id) value =>
    value.Steady (mutables Γ) ∧ Later D A A' ∧ ∃ sym ∈ Γ, id.sym = some sym ∧
      (sym.constant = true → sym.id ∈ D ∧ ¬ A sym.id ∧ (once = true → A' sym.id))
  | .assign _ (.element _ _ index) value =>
    index.Steady (mutables Γ) ∧ value.Steady (mutables Γ) ∧ Later D A A'
  | .compound _ target _ value =>
    target.Varies (mutables Γ) ∧ value.Steady (mutables Γ) ∧ Later D A A'
  | .selfOp _ e => e.Steady (mutables Γ) ∧ Later D A A'
  | .print _ _ value => (∀ e, value = some e → e.Steady (mutables Γ)) ∧ Later D A A'
  | .ifElse _ cond a b =>
    cond.Steady (mutables Γ) ∧ ∃ A₁ A₀ A₂ : SymbolId → Prop, a.Assigns once Γ D A A₁ ∧
      Later D A A₀ ∧ Block.AssignsOption once Γ D A₀ A₂ b ∧
      (a.alwaysJumps = false → Later D A₁ A') ∧
      (b.any Block.alwaysJumps = false → Later D A₂ A')
  | .whileLoop _ cond body =>
    cond.Steady (mutables Γ) ∧ Later D A A' ∧
      ∃ A₁, body.Assigns once Γ (inside once D) A A₁
  | .forLoop _ _ header body =>
    header.Steady (mutables Γ) ∧ Later D A A' ∧
      ∃ A₁, body.Assigns once Γ (inside once D) A A₁
  | .function f => f.Assigns ∧ Later D A A'
  | .call _ c => c.Steady (mutables Γ) ∧ Later D A A'
  | .ret _ value => (∀ e, value = some e → e.Steady (mutables Γ)) ∧ Later D A A'
  | .brk _ => Later D A A'
  | .cont _ => Later D A A'
  | .block b => b.Assigns once Γ D A A'

/-- Statements in order. -/
def Stmt.ListAssigns (once : Bool) (Γ : List Symbol) (D : List SymbolId) (A A' : SymbolId → Prop) :
    List Stmt → Prop
  | [] => Later D A A'
  | s :: ss => ∃ A₀ A₁ : SymbolId → Prop, Later D A A₀ ∧ s.Assigns once Γ D A₀ A₁ ∧
    Stmt.ListAssigns once (s.declares Γ) (s.leaves D) A₁ A' ss

/-- Statements in braces. -/
def Block.Assigns (once : Bool) (Γ : List Symbol) (D : List SymbolId) (A A' : SymbolId → Prop) :
    Block → Prop
  | .mk _ ss _ => Stmt.ListAssigns once Γ D A A' ss

/-- Statements in braces that may be absent. -/
def Block.AssignsOption (once : Bool) (Γ : List Symbol) (D : List SymbolId)
    (A A' : SymbolId → Prop) : Option Block → Prop
  | none => Later D A A'
  | some b => b.Assigns once Γ D A A'

/-- A function, whose constants are assigned once unless it restarts. -/
def FunDecl.Assigns : FunDecl → Prop
  | .mk _ _ _ _ body => ∀ once : Bool, (once = true → ¬ body.Restarts) →
    ∃ A', body.Assigns once [] [] (fun _ => False) A'

end

theorem Later.refl (D : List SymbolId) (A : SymbolId → Prop) : Later D A A := fun _ _ h => h

theorem Later.trans {D : List SymbolId} {A B C : SymbolId → Prop} (h : Later D A B)
    (h' : Later D B C) : Later D A C := fun id hid ha => h' id hid (h id hid ha)

theorem mem_mutables {Γ : List Symbol} {sym : Symbol} :
    sym ∈ mutables Γ ↔ sym ∈ Γ ∧ sym.constant = false := by
  simp [mutables]

section List

variable {once : Bool} {Γ : List Symbol} {D : List SymbolId} {A₀ A A' : SymbolId → Prop}

/-- Less may have been assigned before. -/
theorem Stmt.ListAssigns.earlier {ss : List Stmt} (hA : Later D A₀ A)
    (h : Stmt.ListAssigns once Γ D A A' ss) : Stmt.ListAssigns once Γ D A₀ A' ss := by
  cases ss with
  | nil => exact hA.trans h
  | cons s ss =>
    obtain ⟨A₁, A₂, h₁, hs, hss⟩ := h
    exact ⟨A₁, A₂, hA.trans h₁, hs, hss⟩

/-- Functions store nothing where they are declared, so the script does as well without them. -/
theorem Stmt.ListAssigns.script : ∀ {ss : List Stmt} {Γ : List Symbol} {D : List SymbolId}
    {A : SymbolId → Prop}, Stmt.ListAssigns once Γ D A A' ss →
    Stmt.ListAssigns once Γ D A A' (scriptOf ss)
  | [], _, _, _, h => h
  | s :: ss, Γ, D, A, h => by
    obtain ⟨A₁, A₂, h₁, hs, hss⟩ := h
    by_cases hfun : ∃ f, s = .function f
    · obtain ⟨f, rfl⟩ := hfun
      exact Stmt.ListAssigns.earlier (h₁.trans hs.2) hss.script
    · rw [scriptOf_cons_of_ne fun f hf => hfun ⟨f, hf⟩]
      exact ⟨A₁, A₂, h₁, hs, hss.script⟩

theorem Stmt.ListAssigns.function : ∀ {ss : List Stmt} {Γ : List Symbol} {D : List SymbolId}
    {A : SymbolId → Prop}, Stmt.ListAssigns once Γ D A A' ss → ∀ f ∈ functionsOf ss, f.Assigns
  | [], _, _, _, _ => by simp [functionsOf]
  | s :: ss, Γ, D, A, h => by
    obtain ⟨A₁, A₂, -, hs, hss⟩ := h
    intro f hf
    rw [functionsOf_cons, List.mem_append] at hf
    rcases hf with hf | hf
    · cases s with
      | function g =>
        rw [List.mem_singleton.mp hf]
        exact hs.1
      | _ => cases hf
    · exact hss.function f hf

end List

/-- A program whose functions and script keep their constants. -/
structure Checked.Assigns (c : Checked) : Prop where
  function : ∀ f ∈ c.functions, f.Assigns
  script : ∀ once : Bool, (once = true → ¬ Stmt.ListRestarts c.program.stmts) →
    ∃ A', Stmt.ListAssigns once [] [] (fun _ => False) A' c.program.script

end Kotlet

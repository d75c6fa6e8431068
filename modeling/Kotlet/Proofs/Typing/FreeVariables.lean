import Mathlib.Data.List.Nodup
import Kotlet.Proofs.Typing.Lexical

/-!
# Lambdas and their free variables

* `Expr.lambdas`, `Stmt.lambdas`, `Program.lambdas` : the lambdas of a piece, each in front of those inside;
* `Lambda.uses`, `Lambda.owns` : the symbols that the names in a lambda mean, and those of the parameters of
  the lambda and of the lambdas inside;
* `Lambda.CapturesFree` : the captures are the variables and parameters from outside, by first use;
* `Stmt.ids_lambdas` : what a lambda uses is used where the lambda stands.
-/

namespace Kotlet

/-! ## Lambdas -/

mutual

/-- The lambdas in an expression. -/
def Expr.lambdas : Expr → List Lambda
  | .int _ _ => []
  | .bool _ _ => []
  | .str _ _ splices => Splice.lambdas splices
  | .read t => t.lambdas
  | .arith _ _ l r => l.lambdas ++ r.lambdas
  | .compare _ _ l r => l.lambdas ++ r.lambdas
  | .logic _ _ l r => l.lambdas ++ r.lambdas
  | .not _ e => e.lambdas
  | .incDec e => e.lambdas
  | .collection _ _ es => Expr.listLambdas es
  | .sized _ _ size generator => size.lambdas ++ generator.lambdas
  | .lambda l => l.lambdas
  | .call c => c.lambdas
  | .range r => r.lambdas

/-- The lambdas in some expressions. -/
def Expr.listLambdas : List Expr → List Lambda
  | [] => []
  | e :: es => e.lambdas ++ Expr.listLambdas es

/-- The lambdas in an expression, if there is one. -/
def Expr.optionLambdas : Option Expr → List Lambda
  | none => []
  | some e => e.lambdas

/-- The lambdas in the templates of a string. -/
def Splice.lambdas : List Splice → List Lambda
  | [] => []
  | .mk _ e :: ss => e.lambdas ++ Splice.lambdas ss

/-- The lambdas in a target. -/
def Target.lambdas : Target → List Lambda
  | .name _ => []
  | .element _ _ index => index.lambdas

/-- The lambdas in an increment or decrement. -/
def IncDec.lambdas : IncDec → List Lambda
  | .mk _ _ _ t => t.lambdas

/-- A lambda and those in it. -/
def Lambda.lambdas : Lambda → List Lambda
  | .mk m ps body captures => .mk m ps body captures :: body.lambdas

/-- The lambdas in a call. -/
def Call.lambdas : Call → List Lambda
  | .mk _ _ args => Expr.listLambdas args

/-- The lambdas in a range. -/
def Range.lambdas : Range → List Lambda
  | .mk _ first last step => first.lambdas ++ last.lambdas ++ Expr.optionLambdas step

end

/-- The lambdas in the header of a loop. -/
def Header.lambdas : Header → List Lambda
  | .range r => r.lambdas
  | .each e => e.lambdas

mutual

/-- The lambdas in a statement. -/
def Stmt.lambdas : Stmt → List Lambda
  | .decl _ _ _ _ value => Expr.optionLambdas value
  | .assign _ target value => target.lambdas ++ value.lambdas
  | .compound _ target _ value => target.lambdas ++ value.lambdas
  | .selfOp _ e => e.lambdas
  | .print _ _ value => Expr.optionLambdas value
  | .ifElse _ cond a b => cond.lambdas ++ a.lambdas ++ Block.optionLambdas b
  | .whileLoop _ cond body => cond.lambdas ++ body.lambdas
  | .forLoop _ _ header body => header.lambdas ++ body.lambdas
  | .function f => f.lambdas
  | .call _ c => c.lambdas
  | .ret _ value => Expr.optionLambdas value
  | .brk _ => []
  | .cont _ => []
  | .block b => b.lambdas

/-- The lambdas in some statements. -/
def Stmt.listLambdas : List Stmt → List Lambda
  | [] => []
  | s :: ss => s.lambdas ++ Stmt.listLambdas ss

/-- The lambdas in a block. -/
def Block.lambdas : Block → List Lambda
  | .mk _ ss _ => Stmt.listLambdas ss

/-- The lambdas in a block, if there is one. -/
def Block.optionLambdas : Option Block → List Lambda
  | none => []
  | some b => b.lambdas

/-- The lambdas in a function. -/
def FunDecl.lambdas : FunDecl → List Lambda
  | .mk _ _ _ _ body => body.lambdas

end

/-- The lambdas of a program. -/
def Program.lambdas (p : Program) : List Lambda := Stmt.listLambdas p.stmts

/-- The place where a lambda stands. -/
def Lambda.tok (l : Lambda) : Token := l.mark.tok

/-! ## Free variables -/

/-- The symbols that some occurrences mean. -/
def meanings (os : List Occurrence) : List Symbol := os.filterMap fun o => o.id.sym

@[simp] theorem meanings_append (os us : List Occurrence) : meanings (os ++ us) = meanings os ++ meanings us :=
  List.filterMap_append

theorem meanings_cons {id : Ident} {view : List Ident} {sym : Symbol} (h : id.sym = some sym)
    (os : List Occurrence) : meanings (⟨id, view⟩ :: os) = sym :: meanings os :=
  List.filterMap_cons_some h

/-- The symbols that the names in a lambda mean, in the order of the text. -/
def Lambda.uses (l : Lambda) : List Symbol := meanings (l.occurrences [])

/-- The parameters of a lambda and of the lambdas inside. -/
def Lambda.owns (l : Lambda) : List Symbol := l.declarations.filterMap Ident.sym

/-- A lambda captures the variables and parameters that it uses and that neither it nor a lambda inside
owns, each once, by their first uses. -/
structure Lambda.CapturesFree (l : Lambda) : Prop where
  /-- Every name means something. -/
  resolved : ∀ o ∈ l.occurrences [], o.id.sym.isSome = true
  /-- No variable is listed twice. -/
  nodup : (l.captures.map Symbol.id).Nodup
  /-- A variable or parameter is listed if it is used and comes from outside; a function never is. -/
  mem_iff : ∀ sym, sym ∈ l.captures ↔ sym ∈ l.uses ∧ sym.isFunction = false ∧ sym ∉ l.owns
  /-- What is used first comes first. -/
  ordered : l.captures.Pairwise fun a b => l.uses.idxOf a < l.uses.idxOf b

/-! ## Uses do not depend on what is in view -/

mutual

theorem Expr.ids_view (view view' : List Ident) : ∀ e : Expr,
    (e.occurrences view).map Occurrence.id = (e.occurrences view').map Occurrence.id
  | .int _ _ => rfl
  | .bool _ _ => rfl
  | .str _ _ splices => Splice.ids_view view view' splices
  | .read t => t.ids_view view view'
  | .arith _ _ l r => by simp [Expr.occurrences, l.ids_view view view', r.ids_view view view']
  | .compare _ _ l r => by simp [Expr.occurrences, l.ids_view view view', r.ids_view view view']
  | .logic _ _ l r => by simp [Expr.occurrences, l.ids_view view view', r.ids_view view view']
  | .not _ e => e.ids_view view view'
  | .incDec e => e.ids_view view view'
  | .collection _ _ es => Expr.ids_view_list view view' es
  | .sized _ _ size generator => by
    simp [Expr.occurrences, size.ids_view view view', generator.ids_view view view']
  | .lambda l => l.ids_view view view'
  | .call c => c.ids_view view view'
  | .range r => r.ids_view view view'

theorem Expr.ids_view_list (view view' : List Ident) : ∀ es : List Expr,
    (Expr.listOccurrences view es).map Occurrence.id = (Expr.listOccurrences view' es).map Occurrence.id
  | [] => rfl
  | e :: es => by simp [Expr.listOccurrences, e.ids_view view view', Expr.ids_view_list view view' es]

theorem Expr.ids_view_option (view view' : List Ident) : ∀ e : Option Expr,
    (Expr.optionOccurrences view e).map Occurrence.id = (Expr.optionOccurrences view' e).map Occurrence.id
  | none => rfl
  | some e => e.ids_view view view'

theorem Splice.ids_view (view view' : List Ident) : ∀ ss : List Splice,
    (Splice.occurrences view ss).map Occurrence.id = (Splice.occurrences view' ss).map Occurrence.id
  | [] => rfl
  | .mk _ e :: ss => by simp [Splice.occurrences, e.ids_view view view', Splice.ids_view view view' ss]

theorem Target.ids_view (view view' : List Ident) : ∀ t : Target,
    (t.occurrences view).map Occurrence.id = (t.occurrences view').map Occurrence.id
  | .name _ => rfl
  | .element _ _ index => by simp [Target.occurrences, index.ids_view view view']

theorem IncDec.ids_view (view view' : List Ident) : ∀ e : IncDec,
    (e.occurrences view).map Occurrence.id = (e.occurrences view').map Occurrence.id
  | .mk _ _ _ t => t.ids_view view view'

theorem Lambda.ids_view (view view' : List Ident) : ∀ l : Lambda,
    (l.occurrences view).map Occurrence.id = (l.occurrences view').map Occurrence.id
  | .mk _ _ body _ => body.ids_view _ _

theorem Call.ids_view (view view' : List Ident) : ∀ c : Call,
    (c.occurrences view).map Occurrence.id = (c.occurrences view').map Occurrence.id
  | .mk _ _ args => by simp [Call.occurrences, Expr.ids_view_list view view' args]

theorem Range.ids_view (view view' : List Ident) : ∀ r : Range,
    (r.occurrences view).map Occurrence.id = (r.occurrences view').map Occurrence.id
  | .mk _ first last step => by
    simp [Range.occurrences, first.ids_view view view', last.ids_view view view',
      Expr.ids_view_option view view' step]

end

/-- What a lambda uses can be read off anywhere. -/
theorem Lambda.uses_eq (l : Lambda) (view : List Ident) : l.uses = meanings (l.occurrences view) := by
  have h (os : List Occurrence) : meanings os = (os.map Occurrence.id).filterMap Ident.sym := by
    rw [List.filterMap_map]
    rfl
  rw [Lambda.uses, h, h, l.ids_view [] view]

/-! ## What lambdas use is used where they stand -/

/-- The lambdas use only names that occur. -/
def UsedAmong (ls : List Lambda) (os : List Occurrence) : Prop :=
  ∀ l ∈ ls, l.uses ⊆ meanings os

theorem UsedAmong.append {ls ls' : List Lambda} {os os' : List Occurrence} (h : UsedAmong ls os)
    (h' : UsedAmong ls' os') : UsedAmong (ls ++ ls') (os ++ os') := by
  intro l hl sym hsym
  rw [meanings_append, List.mem_append]
  rcases List.mem_append.mp hl with hl | hl
  · exact .inl (h l hl hsym)
  · exact .inr (h' l hl hsym)

theorem UsedAmong.nil (os : List Occurrence) : UsedAmong [] os := fun _ hl => absurd hl List.not_mem_nil

theorem UsedAmong.cons {ls : List Lambda} {os : List Occurrence} (o : Occurrence) (h : UsedAmong ls os) :
    UsedAmong ls (o :: os) :=
  (UsedAmong.nil [o]).append h

mutual

theorem Expr.usedAmong (view : List Ident) : ∀ e : Expr, UsedAmong e.lambdas (e.occurrences view)
  | .int _ _ => .nil _
  | .bool _ _ => .nil _
  | .str _ _ splices => Splice.usedAmong view splices
  | .read t => t.usedAmong view
  | .arith _ _ l r => (l.usedAmong view).append (r.usedAmong view)
  | .compare _ _ l r => (l.usedAmong view).append (r.usedAmong view)
  | .logic _ _ l r => (l.usedAmong view).append (r.usedAmong view)
  | .not _ e => e.usedAmong view
  | .incDec e => e.usedAmong view
  | .collection _ _ es => Expr.usedAmong_list view es
  | .sized _ _ size generator => (size.usedAmong view).append (generator.usedAmong view)
  | .lambda l => l.usedAmong view
  | .call c => c.usedAmong view
  | .range r => r.usedAmong view

theorem Expr.usedAmong_list (view : List Ident) : ∀ es : List Expr,
    UsedAmong (Expr.listLambdas es) (Expr.listOccurrences view es)
  | [] => .nil _
  | e :: es => (e.usedAmong view).append (Expr.usedAmong_list view es)

theorem Expr.usedAmong_option (view : List Ident) : ∀ e : Option Expr,
    UsedAmong (Expr.optionLambdas e) (Expr.optionOccurrences view e)
  | none => .nil _
  | some e => e.usedAmong view

theorem Splice.usedAmong (view : List Ident) : ∀ ss : List Splice,
    UsedAmong (Splice.lambdas ss) (Splice.occurrences view ss)
  | [] => .nil _
  | .mk _ e :: ss => (e.usedAmong view).append (Splice.usedAmong view ss)

theorem Target.usedAmong (view : List Ident) : ∀ t : Target, UsedAmong t.lambdas (t.occurrences view)
  | .name _ => .nil _
  | .element _ base index => (index.usedAmong view).cons ⟨base, view⟩

theorem IncDec.usedAmong (view : List Ident) : ∀ e : IncDec, UsedAmong e.lambdas (e.occurrences view)
  | .mk _ _ _ t => t.usedAmong view

theorem Lambda.usedAmong (view : List Ident) : ∀ l : Lambda, UsedAmong l.lambdas (l.occurrences view)
  | .mk m ps body captures => by
    intro l hl
    rcases List.mem_cons.mp hl with rfl | hl
    · rw [Lambda.uses_eq _ view]
      exact List.Subset.refl _
    · exact body.usedAmong _ l hl

theorem Call.usedAmong (view : List Ident) : ∀ c : Call, UsedAmong c.lambdas (c.occurrences view)
  | .mk _ callee args => (Expr.usedAmong_list view args).cons ⟨callee, view⟩

theorem Range.usedAmong (view : List Ident) : ∀ r : Range, UsedAmong r.lambdas (r.occurrences view)
  | .mk _ first last step =>
    ((first.usedAmong view).append (last.usedAmong view)).append (Expr.usedAmong_option view step)

end

theorem Header.usedAmong (view : List Ident) : ∀ h : Header, UsedAmong h.lambdas (h.occurrences view)
  | .range r => r.usedAmong view
  | .each e => e.usedAmong view

mutual

theorem Stmt.usedAmong (view : List Ident) : ∀ s : Stmt, UsedAmong s.lambdas (s.occurrences view)
  | .decl _ _ _ _ value => Expr.usedAmong_option view value
  | .assign _ target value => (target.usedAmong view).append (value.usedAmong view)
  | .compound _ target _ value => (target.usedAmong view).append (value.usedAmong view)
  | .selfOp _ e => e.usedAmong view
  | .print _ _ value => Expr.usedAmong_option view value
  | .ifElse _ cond a b =>
    ((cond.usedAmong view).append (a.usedAmong view)).append (Block.usedAmong_option view b)
  | .whileLoop _ cond body => (cond.usedAmong view).append (body.usedAmong view)
  | .forLoop _ x header body => (header.usedAmong view).append (body.usedAmong (x :: view))
  | .function f => f.usedAmong
  | .call _ c => c.usedAmong view
  | .ret _ value => Expr.usedAmong_option view value
  | .brk _ => .nil _
  | .cont _ => .nil _
  | .block b => b.usedAmong view

theorem Stmt.usedAmong_list (view : List Ident) : ∀ ss : List Stmt,
    UsedAmong (Stmt.listLambdas ss) (Stmt.listOccurrences view ss)
  | [] => .nil _
  | s :: ss => (s.usedAmong view).append (Stmt.usedAmong_list (s.introduces ++ view) ss)

theorem Block.usedAmong (view : List Ident) : ∀ b : Block, UsedAmong b.lambdas (b.occurrences view)
  | .mk _ ss _ => Stmt.usedAmong_list view ss

theorem Block.usedAmong_option (view : List Ident) : ∀ b : Option Block,
    UsedAmong (Block.optionLambdas b) (Block.optionOccurrences view b)
  | none => .nil _
  | some b => b.usedAmong view

theorem FunDecl.usedAmong : ∀ f : FunDecl, UsedAmong f.lambdas f.occurrences
  | .mk _ _ ps _ body => body.usedAmong (paramNames ps).reverse

end

end Kotlet

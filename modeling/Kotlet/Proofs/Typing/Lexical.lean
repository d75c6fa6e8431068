import Kotlet.Typing.Stmt

/-!
# Lexical scoping

What a name means can be read off a tree without any types. A declaration is in view from its end on:
a variable to the end of the list of statements that declares it, a loop variable in the body of its
loop, a parameter in the body of its function or lambda. A function starts with nothing in view.

* `Occurrence` : a name that is used, with the declarations in view there, the innermost and latest
  one first;
* `Expr.occurrences`, `Stmt.occurrences` : the names that a piece uses, in the order of the text;
* `Expr.declarations`, `Stmt.declarations` : the names that it declares;
* `Sees`, `FunDecl.sees` : in view is what is around a piece and what the piece declares itself;
* `Occurrence.declaration?` : the declaration that an occurrence means: the first one of its name that
  is in view, else the function of that name;
* `Occurrence.plain` : an occurrence without what the checker learns;
* `Checked.Lexical` : names mean what lexical scoping says.
-/

namespace Kotlet

/-- A name that is used as a variable, as the base of an element or as what is called. -/
structure Occurrence where
  /-- The name, where it stands. -/
  id : Ident
  /-- The declarations in view there, the innermost and latest one first. -/
  view : List Ident

/-- Names of parameters. -/
def paramNames (ps : List Param) : List Ident := ps.map Param.name

/-! ## Expressions -/

mutual

/-- The names that an expression uses. -/
def Expr.occurrences (view : List Ident) : Expr → List Occurrence
  | .int _ _ => []
  | .bool _ _ => []
  | .str _ _ splices => Splice.occurrences view splices
  | .read t => t.occurrences view
  | .arith _ _ l r => l.occurrences view ++ r.occurrences view
  | .compare _ _ l r => l.occurrences view ++ r.occurrences view
  | .logic _ _ l r => l.occurrences view ++ r.occurrences view
  | .not _ e => e.occurrences view
  | .incDec e => e.occurrences view
  | .collection _ _ es => Expr.listOccurrences view es
  | .sized _ _ size generator => size.occurrences view ++ generator.occurrences view
  | .lambda l => l.occurrences view
  | .call c => c.occurrences view
  | .range r => r.occurrences view

/-- The names that some expressions use. -/
def Expr.listOccurrences (view : List Ident) : List Expr → List Occurrence
  | [] => []
  | e :: es => e.occurrences view ++ Expr.listOccurrences view es

/-- The names that an expression uses, if there is one. -/
def Expr.optionOccurrences (view : List Ident) : Option Expr → List Occurrence
  | none => []
  | some e => e.occurrences view

/-- The names that the templates of a string use. -/
def Splice.occurrences (view : List Ident) : List Splice → List Occurrence
  | [] => []
  | .mk _ e :: ss => e.occurrences view ++ Splice.occurrences view ss

/-- The names that a target uses. -/
def Target.occurrences (view : List Ident) : Target → List Occurrence
  | .name id => [⟨id, view⟩]
  | .element _ base index => ⟨base, view⟩ :: index.occurrences view

/-- The names that an increment or decrement uses. -/
def IncDec.occurrences (view : List Ident) : IncDec → List Occurrence
  | .mk _ _ _ t => t.occurrences view

/-- The names that a lambda uses, with its parameters in view. -/
def Lambda.occurrences (view : List Ident) : Lambda → List Occurrence
  | .mk _ ps body _ => body.occurrences ((paramNames ps).reverse ++ view)

/-- The names that a call uses. -/
def Call.occurrences (view : List Ident) : Call → List Occurrence
  | .mk _ callee args => ⟨callee, view⟩ :: Expr.listOccurrences view args

/-- The names that a range uses. -/
def Range.occurrences (view : List Ident) : Range → List Occurrence
  | .mk _ first last step =>
    first.occurrences view ++ last.occurrences view ++ Expr.optionOccurrences view step

end

mutual

/-- The parameters of the lambdas in an expression. -/
def Expr.declarations : Expr → List Ident
  | .int _ _ => []
  | .bool _ _ => []
  | .str _ _ splices => Splice.declarations splices
  | .read t => t.declarations
  | .arith _ _ l r => l.declarations ++ r.declarations
  | .compare _ _ l r => l.declarations ++ r.declarations
  | .logic _ _ l r => l.declarations ++ r.declarations
  | .not _ e => e.declarations
  | .incDec e => e.declarations
  | .collection _ _ es => Expr.listDeclarations es
  | .sized _ _ size generator => size.declarations ++ generator.declarations
  | .lambda l => l.declarations
  | .call c => c.declarations
  | .range r => r.declarations

/-- The parameters of the lambdas in some expressions. -/
def Expr.listDeclarations : List Expr → List Ident
  | [] => []
  | e :: es => e.declarations ++ Expr.listDeclarations es

/-- The parameters of the lambdas in an expression, if there is one. -/
def Expr.optionDeclarations : Option Expr → List Ident
  | none => []
  | some e => e.declarations

/-- The parameters of the lambdas in the templates of a string. -/
def Splice.declarations : List Splice → List Ident
  | [] => []
  | .mk _ e :: ss => e.declarations ++ Splice.declarations ss

/-- The parameters of the lambdas in a target. -/
def Target.declarations : Target → List Ident
  | .name _ => []
  | .element _ _ index => index.declarations

/-- The parameters of the lambdas in an increment or decrement. -/
def IncDec.declarations : IncDec → List Ident
  | .mk _ _ _ t => t.declarations

/-- The parameters of a lambda and of those in it. -/
def Lambda.declarations : Lambda → List Ident
  | .mk _ ps body _ => paramNames ps ++ body.declarations

/-- The parameters of the lambdas in a call. -/
def Call.declarations : Call → List Ident
  | .mk _ _ args => Expr.listDeclarations args

/-- The parameters of the lambdas in a range. -/
def Range.declarations : Range → List Ident
  | .mk _ first last step =>
    first.declarations ++ last.declarations ++ Expr.optionDeclarations step

end

/-! ## Statements -/

/-- The names that the header of a loop uses. -/
def Header.occurrences (view : List Ident) : Header → List Occurrence
  | .range r => r.occurrences view
  | .each e => e.occurrences view

/-- The parameters of the lambdas in the header of a loop. -/
def Header.declarations : Header → List Ident
  | .range r => r.declarations
  | .each e => e.declarations

/-- What a statement brings into view of those after it. -/
def Stmt.introduces : Stmt → List Ident
  | .decl _ _ name _ _ => [name]
  | _ => []

mutual

/-- The names that a statement uses. A variable is not in view in its own initial value, and a loop
variable is not in the header. -/
def Stmt.occurrences (view : List Ident) : Stmt → List Occurrence
  | .decl _ _ _ _ value => Expr.optionOccurrences view value
  | .assign _ target value => target.occurrences view ++ value.occurrences view
  | .compound _ target _ value => target.occurrences view ++ value.occurrences view
  | .selfOp _ e => e.occurrences view
  | .print _ _ value => Expr.optionOccurrences view value
  | .ifElse _ cond a b =>
    cond.occurrences view ++ a.occurrences view ++ Block.optionOccurrences view b
  | .whileLoop _ cond body => cond.occurrences view ++ body.occurrences view
  | .forLoop _ x header body => header.occurrences view ++ body.occurrences (x :: view)
  | .function f => f.occurrences
  | .call _ c => c.occurrences view
  | .ret _ value => Expr.optionOccurrences view value
  | .brk _ => []
  | .cont _ => []
  | .block b => b.occurrences view

/-- The names that some statements use, each with those before it in view. -/
def Stmt.listOccurrences (view : List Ident) : List Stmt → List Occurrence
  | [] => []
  | s :: ss => s.occurrences view ++ Stmt.listOccurrences (s.introduces ++ view) ss

/-- The names that a block uses. -/
def Block.occurrences (view : List Ident) : Block → List Occurrence
  | .mk _ ss _ => Stmt.listOccurrences view ss

/-- The names that a block uses, if there is one. -/
def Block.optionOccurrences (view : List Ident) : Option Block → List Occurrence
  | none => []
  | some b => b.occurrences view

/-- The names that a function uses. Nothing of what stands around it is in view. -/
def FunDecl.occurrences : FunDecl → List Occurrence
  | .mk _ _ ps _ body => body.occurrences (paramNames ps).reverse

end

mutual

/-- The names that a statement declares. -/
def Stmt.declarations : Stmt → List Ident
  | .decl _ _ name _ value => Expr.optionDeclarations value ++ [name]
  | .assign _ target value => target.declarations ++ value.declarations
  | .compound _ target _ value => target.declarations ++ value.declarations
  | .selfOp _ e => e.declarations
  | .print _ _ value => Expr.optionDeclarations value
  | .ifElse _ cond a b => cond.declarations ++ a.declarations ++ Block.optionDeclarations b
  | .whileLoop _ cond body => cond.declarations ++ body.declarations
  | .forLoop _ x header body => header.declarations ++ x :: body.declarations
  | .function f => f.name :: f.declarations
  | .call _ c => c.declarations
  | .ret _ value => Expr.optionDeclarations value
  | .brk _ => []
  | .cont _ => []
  | .block b => b.declarations

/-- The names that some statements declare. -/
def Stmt.listDeclarations : List Stmt → List Ident
  | [] => []
  | s :: ss => s.declarations ++ Stmt.listDeclarations ss

/-- The names that a block declares. -/
def Block.declarations : Block → List Ident
  | .mk _ ss _ => Stmt.listDeclarations ss

/-- The names that a block declares, if there is one. -/
def Block.optionDeclarations : Option Block → List Ident
  | none => []
  | some b => b.declarations

/-- The parameters and variables that a function declares. -/
def FunDecl.declarations : FunDecl → List Ident
  | .mk _ _ ps _ body => paramNames ps ++ body.declarations

end

/-- The parameters and variables that a statement declares; the name of a function is not among
them. -/
def Stmt.locals : Stmt → List Ident
  | .function f => f.declarations
  | s => s.declarations

/-- The names that a program uses. -/
def Program.occurrences (p : Program) : List Occurrence := Stmt.listOccurrences [] p.stmts

/-- The names that a program declares. -/
def Program.declarations (p : Program) : List Ident := Stmt.listDeclarations p.stmts

/-! ## What is in view -/

/-- In view of some occurrences is nothing but what is around them and what is declared among them. -/
def Sees (view declared : List Ident) (os : List Occurrence) : Prop :=
  ∀ o ∈ os, ∀ d ∈ o.view, d ∈ view ∨ d ∈ declared

section Sees

variable {view declared declared' : List Ident} {os os' : List Occurrence}

theorem Sees.nil (view declared : List Ident) : Sees view declared [] := fun _ ho => absurd ho List.not_mem_nil

theorem Sees.cons (id : Ident) (h : Sees view declared os) : Sees view declared (⟨id, view⟩ :: os) := by
  intro o ho d hd
  rcases List.mem_cons.mp ho with rfl | ho
  · exact .inl hd
  · exact h o ho d hd

/-- More names, among which some of the first ones may be in view. -/
theorem Sees.append (introduced : List Ident) (h : Sees view declared os)
    (h' : Sees (introduced ++ view) declared' os') (hi : introduced ⊆ declared) :
    Sees view (declared ++ declared') (os ++ os') := by
  intro o ho d hd
  rw [List.mem_append]
  rcases List.mem_append.mp ho with ho | ho
  · exact (h o ho d hd).imp_right .inl
  · rcases h' o ho d hd with hd | hd
    · exact (List.mem_append.mp hd).symm.imp_right fun hd => .inl (hi hd)
    · exact .inr (.inr hd)

theorem Sees.both (h : Sees view declared os) (h' : Sees view declared' os') :
    Sees view (declared ++ declared') (os ++ os') :=
  h.append [] h' (List.nil_subset _)

end Sees

mutual

theorem Expr.sees {view : List Ident} : (e : Expr) →
    Sees view e.declarations (e.occurrences view)
  | .int _ _ => Sees.nil _ _
  | .bool _ _ => Sees.nil _ _
  | .str _ _ splices => Splice.sees splices
  | .read t => t.sees
  | .arith _ _ l r => l.sees.both r.sees
  | .compare _ _ l r => l.sees.both r.sees
  | .logic _ _ l r => l.sees.both r.sees
  | .not _ e => Expr.sees e
  | .incDec e => e.sees
  | .collection _ _ es => Expr.sees_list es
  | .sized _ _ size generator => size.sees.both generator.sees
  | .lambda l => l.sees
  | .call c => c.sees
  | .range r => r.sees

theorem Expr.sees_list {view : List Ident} : (es : List Expr) →
    Sees view (Expr.listDeclarations es) (Expr.listOccurrences view es)
  | [] => Sees.nil _ _
  | e :: es => e.sees.both (Expr.sees_list es)

theorem Expr.sees_option {view : List Ident} : (e : Option Expr) →
    Sees view (Expr.optionDeclarations e) (Expr.optionOccurrences view e)
  | none => Sees.nil _ _
  | some e => e.sees

theorem Splice.sees {view : List Ident} : (ss : List Splice) →
    Sees view (Splice.declarations ss) (Splice.occurrences view ss)
  | [] => Sees.nil _ _
  | .mk _ e :: ss => e.sees.both (Splice.sees ss)

theorem Target.sees {view : List Ident} : (t : Target) →
    Sees view t.declarations (t.occurrences view)
  | .name id => (Sees.nil view []).cons id
  | .element _ base index => index.sees.cons base

theorem IncDec.sees {view : List Ident} : (e : IncDec) →
    Sees view e.declarations (e.occurrences view)
  | .mk _ _ _ t => t.sees

theorem Lambda.sees {view : List Ident} : (l : Lambda) →
    Sees view l.declarations (l.occurrences view)
  | .mk _ ps body _ =>
    (Sees.nil view (paramNames ps)).append (paramNames ps).reverse body.sees
      (List.reverse_subset.mpr (List.Subset.refl _))

theorem Call.sees {view : List Ident} : (c : Call) →
    Sees view c.declarations (c.occurrences view)
  | .mk _ callee args => (Expr.sees_list args).cons callee

theorem Range.sees {view : List Ident} : (r : Range) →
    Sees view r.declarations (r.occurrences view)
  | .mk _ first last step => (first.sees.both last.sees).both (Expr.sees_option step)

end

theorem Header.sees {view : List Ident} : (h : Header) →
    Sees view h.declarations (h.occurrences view)
  | .range r => r.sees
  | .each e => e.sees

theorem Stmt.introduces_subset (s : Stmt) : s.introduces ⊆ s.declarations := by
  cases s with
  | decl tok isMutable name ty value => exact List.subset_append_right _ _
  | _ => exact List.nil_subset _

mutual

theorem Stmt.sees {view : List Ident} : (s : Stmt) →
    Sees view s.declarations (s.occurrences view)
  | .decl _ _ name _ value => by
    simpa [Stmt.occurrences, Stmt.declarations] using
      (Expr.sees_option value).both (Sees.nil view [name])
  | .assign _ target value => target.sees.both value.sees
  | .compound _ target _ value => target.sees.both value.sees
  | .selfOp _ e => e.sees
  | .print _ _ value => Expr.sees_option value
  | .ifElse _ cond a b => (cond.sees.both a.sees).both (Block.sees_option b)
  | .whileLoop _ cond body => cond.sees.both body.sees
  | .forLoop _ x header body => by
    have hbody : Sees view (x :: body.declarations) (body.occurrences (x :: view)) :=
      (Sees.nil view [x]).append [x] body.sees (List.Subset.refl _)
    exact header.sees.both hbody
  | .function f => by
    have hf : Sees view f.declarations f.occurrences :=
      fun o ho d hd => .inr ((f.sees o ho d hd).resolve_left List.not_mem_nil)
    exact (Sees.nil view [f.name]).both hf
  | .call _ c => c.sees
  | .ret _ value => Expr.sees_option value
  | .brk _ => Sees.nil _ _
  | .cont _ => Sees.nil _ _
  | .block b => b.sees

theorem Stmt.sees_list {view : List Ident} : (ss : List Stmt) →
    Sees view (Stmt.listDeclarations ss) (Stmt.listOccurrences view ss)
  | [] => Sees.nil _ _
  | s :: ss => s.sees.append s.introduces (Stmt.sees_list ss) s.introduces_subset

theorem Block.sees {view : List Ident} : (b : Block) →
    Sees view b.declarations (b.occurrences view)
  | .mk _ ss _ => Stmt.sees_list ss

theorem Block.sees_option {view : List Ident} : (b : Option Block) →
    Sees view (Block.optionDeclarations b) (Block.optionOccurrences view b)
  | none => Sees.nil _ _
  | some b => b.sees

/-- In view in a function is only what it declares itself. -/
theorem FunDecl.sees : (f : FunDecl) → Sees [] f.declarations f.occurrences
  | .mk _ _ ps _ body => by
    have hbody : Sees ((paramNames ps).reverse ++ []) body.declarations
        (body.occurrences (paramNames ps).reverse) := by
      rw [List.append_nil]
      exact body.sees
    exact (Sees.nil [] (paramNames ps)).append _ hbody (List.reverse_subset.mpr (List.Subset.refl _))

end

/-! ## Meaning -/

/-- Whether a declaration is one of a name. -/
def Ident.isNamed (d : Ident) (name : String) : Bool := d.name == name

/-- The declaration that an occurrence means among some functions: the first one of its name that is
in view, else the function of that name, wherever it is declared. -/
def Occurrence.declaration? (functions : List FunDecl) (o : Occurrence) : Option Ident :=
  (o.view.find? fun d => d.isNamed o.id.name).or
    ((functions.map FunDecl.name).find? fun d => d.isNamed o.id.name)

/-- A name without what the checker learns. -/
def Ident.plain (id : Ident) : Ident := { id with sym := none, ty := none }

/-- An occurrence without what the checker learns. -/
def Occurrence.plain (o : Occurrence) : Occurrence := ⟨o.id.plain, o.view.map Ident.plain⟩

/-- Whether an occurrence means anything is no matter of what the checker learns. -/
theorem Occurrence.declaration?_eq_none {o o' : Occurrence} {fs fs' : List FunDecl}
    (ho : o'.plain = o.plain) (hfs : (fs'.map FunDecl.name).map Ident.plain =
      (fs.map FunDecl.name).map Ident.plain) :
    o'.declaration? fs' = none ↔ o.declaration? fs = none := by
  have hfind (ds : List Ident) (name : String) : ds.find? (fun d => d.isNamed name) = none ↔
      ∀ d ∈ ds.map Ident.plain, d.name ≠ name := by
    simp [Ident.isNamed, Ident.plain]
  have hname : o'.id.name = o.id.name := congrArg (fun o => o.id.name) ho
  have hview : o'.view.map Ident.plain = o.view.map Ident.plain := congrArg Occurrence.view ho
  unfold declaration?
  rw [Option.or_eq_none_iff, Option.or_eq_none_iff, hfind, hfind, hfind, hfind, hname, hview, hfs]

/-- In a checked program names mean what lexical scoping says. -/
structure Checked.Lexical (p : Program) (c : Checked) : Prop where
  /-- The same names are used as before, with the same declarations in view. -/
  uses : c.program.occurrences.map Occurrence.plain = p.occurrences.map Occurrence.plain
  /-- The same names are declared as before. -/
  declares : c.program.declarations.map Ident.plain = p.declarations.map Ident.plain
  /-- The same functions are declared as before. -/
  functions : (c.functions.map FunDecl.name).map Ident.plain =
    (p.functions.map FunDecl.name).map Ident.plain
  /-- Every occurrence has the symbol of the declaration that it means. -/
  resolved : ∀ o ∈ c.program.occurrences, ∃ d sym, o.declaration? c.functions = some d ∧
    d.sym = some sym ∧ o.id.sym = some sym
  /-- Every declaration has a symbol of its own. -/
  distinct : ∃ syms : List Symbol, c.program.declarations.map Ident.sym = syms.map some ∧
    (syms.map Symbol.id).Nodup
  /-- In a function no variable of the script is meant, and no local of another function. -/
  confined : ∀ before f after, c.program.stmts = before ++ .function f :: after →
    ∀ o ∈ f.occurrences, ∀ s ∈ before ++ after, ∀ d ∈ s.locals, o.id.sym ≠ d.sym

/-- In a program that is scoped lexically every name has a declaration. -/
theorem Checked.Lexical.declared {p : Program} {c : Checked} (h : c.Lexical p) {o : Occurrence}
    (ho : o ∈ p.occurrences) : o.declaration? p.functions ≠ none := by
  intro hnone
  have hplain : o.plain ∈ c.program.occurrences.map Occurrence.plain := by
    rw [h.uses]
    exact List.mem_map_of_mem ho
  obtain ⟨o', ho', heq⟩ := List.mem_map.mp hplain
  obtain ⟨d, sym, hd, -⟩ := h.resolved o' ho'
  rw [(Occurrence.declaration?_eq_none heq h.functions).mpr hnone] at hd
  cases hd

end Kotlet

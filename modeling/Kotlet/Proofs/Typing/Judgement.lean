import Kotlet.Typing.Stmt
import Kotlet.Proofs.Syntax.WellFormed

/-!
# Well-typed trees

When a tree whose types, symbols and captures are filled in makes sense, said without the checker.
A judgement is about a routine `r` with the variables `Γ`; the symbols that a tree declares inside
are numbered from `lo` up to `hi`, which no two trees share.

* `Symbol.Declares` : a symbol that is the variable of a number;
* `Ident.Holds`, `Ident.Denotes` : a name of a variable, and one of a variable or function;
* `Expr.Typed` : expressions; a lambda sees its parameters and what it captures, a generator sees
  all that is around it;
* `Stmt.Typed`, `FunDecl.Typed`, `Checked.Typed` : statements, functions and programs;
* `Expr.typed_le`, `Stmt.typed_le` : numbers only go up;
* `Context` : what is known of the variables of a routine.
-/

namespace Kotlet

/-- The types of the functions of a program, by name. -/
abbrev Signatures := String → Option Ty

/-- The symbol is the variable number `i` of the routine `r`. -/
structure Symbol.Declares (r i : Nat) (sym : Symbol) : Prop where
  id : sym.id = ⟨r, i⟩
  plain : sym.isFunction = false
  complete : sym.ty.Complete
  hasValue : sym.ty ≠ .unit

/-- Parameters with their symbols, which are numbered from `i` on. -/
def Param.Declare (r i : Nat) : List Param → List Symbol → Prop
  | [], [] => True
  | p :: ps, sym :: syms =>
    p.name.sym = some sym ∧ sym.Declares r i ∧ Param.Declare r (i + 1) ps syms
  | _, _ => False

theorem Param.Declare.length {r : Nat} : ∀ {ps : List Param} {syms : List Symbol} {lo : Nat},
    Param.Declare r lo ps syms → ps.length = syms.length
  | [], [], _, _ => rfl
  | _ :: _, _ :: _, _, h => congrArg (· + 1) (Param.Declare.length h.2.2)
  | [], _ :: _, _, h => h.elim
  | _ :: _, [], _, h => h.elim

/-- The name is that of a variable. -/
def Ident.Holds (Γ : List Symbol) (id : Ident) (t : Ty) : Prop :=
  ∃ sym ∈ Γ, id.sym = some sym ∧ sym.ty = t ∧ id.ty = some t

/-- The name is that of a variable or a function. -/
def Ident.Denotes (Φ : Signatures) (Γ : List Symbol) (id : Ident) (t : Ty) : Prop :=
  id.Holds Γ t ∨ ∃ sym, id.sym = some sym ∧ sym.isFunction = true ∧ sym.ty = t ∧
    Φ sym.name = some t ∧ id.ty = some t

/-! ## Expressions -/

mutual

/-- An expression of a type. -/
def Expr.Typed (Φ : Signatures) (r : Nat) (Γ : List Symbol) (lo hi : Nat) (t : Ty) : Expr → Prop
  | .int m _ => m.ty = some t ∧ t = .int ∧ lo = hi
  | .bool m _ => m.ty = some t ∧ t = .boolean ∧ lo = hi
  | .str m text splices =>
    m.ty = some t ∧ t = .string ∧ Splice.Typed Φ r Γ lo hi text.toList.length 0 splices
  | .read target => target.Typed Φ r Γ lo hi t
  | .arith m op a b =>
    m.ty = some t ∧ t = .int ∧ (ArithOp.ofText? op).isSome = true ∧
      ∃ mid, a.Typed Φ r Γ lo mid .int ∧ b.Typed Φ r Γ mid hi .int
  | .compare m op a b =>
    m.ty = some t ∧ t = .boolean ∧ (CompareOp.ofText? op).isSome = true ∧
      ∃ mid s, Typing.comparable op s s = true ∧ a.Typed Φ r Γ lo mid s ∧ b.Typed Φ r Γ mid hi s
  | .logic m op a b =>
    m.ty = some t ∧ t = .boolean ∧ (op = "&&" ∨ op = "||") ∧
      ∃ mid, a.Typed Φ r Γ lo mid .boolean ∧ b.Typed Φ r Γ mid hi .boolean
  | .not m e => m.ty = some t ∧ t = .boolean ∧ e.Typed Φ r Γ lo hi .boolean
  | .incDec e => t = .int ∧ e.Typed Φ r Γ lo hi
  | .collection m kind es =>
    m.ty = some t ∧ ∃ s : Scalar, s.isElement ∧ t = kind.ty s ∧ Expr.ElementsTyped Φ r Γ lo hi s es
  | .sized m kind size gen =>
    m.ty = some t ∧ ∃ (s : Scalar) (mid : Nat), s.isElement ∧ t = kind.ty s ∧
      size.Typed Φ r Γ lo mid .int ∧ gen.Generates Φ r Γ mid hi s
  | .lambda l => l.Typed Φ r Γ lo hi t
  | .call c => c.Typed Φ r Γ lo hi t
  | .range _ => False

/-- Elements of a collection. -/
def Expr.ElementsTyped (Φ : Signatures) (r : Nat) (Γ : List Symbol) (lo hi : Nat) (s : Scalar) :
    List Expr → Prop
  | [] => lo = hi
  | e :: es =>
    ∃ mid t, e.Typed Φ r Γ lo mid t ∧ t.assignable (.scalar s) = true ∧ t ≠ .unit ∧
      Expr.ElementsTyped Φ r Γ mid hi s es

/-- Arguments for parameters of some types. -/
def Expr.ArgsTyped (Φ : Signatures) (r : Nat) (Γ : List Symbol) (lo hi : Nat) :
    List Ty → List Expr → Prop
  | [], [] => lo = hi
  | want :: wants, e :: es =>
    ∃ mid t, e.Typed Φ r Γ lo mid t ∧ t.assignable want = true ∧ t ≠ .unit ∧
      Expr.ArgsTyped Φ r Γ mid hi wants es
  | _, _ => False

/-- Templates in order, from the place `pos` on, in a text of `size` characters. -/
def Splice.Typed (Φ : Signatures) (r : Nat) (Γ : List Symbol) (lo hi size pos : Nat) :
    List Splice → Prop
  | [] => lo = hi
  | .mk offset e :: splices =>
    (pos ≤ offset ∧ offset ≤ size) ∧ ∃ mid t, e.Typed Φ r Γ lo mid t ∧ t.printable = true ∧
      Splice.Typed Φ r Γ mid hi size offset.toNat splices

/-- A target that is read. -/
def Target.Typed (Φ : Signatures) (r : Nat) (Γ : List Symbol) (lo hi : Nat) (t : Ty) :
    Target → Prop
  | .name id => id.Denotes Φ Γ t ∧ lo = hi
  | .element m base index =>
    m.ty = some t ∧ ∃ (kind : CollectionKind) (s : Scalar), t = .scalar s ∧
      base.Holds Γ (kind.ty s) ∧ index.Typed Φ r Γ lo hi .int

/-- A target that is updated as a number. -/
def Target.Updates (Φ : Signatures) (r : Nat) (Γ : List Symbol) (lo hi : Nat) : Target → Prop
  | .name id => id.Holds Γ .int ∧ lo = hi
  | .element m base index =>
    m.ty = some .int ∧ ∃ kind : CollectionKind, base.Holds Γ (kind.ty .int) ∧
      index.Typed Φ r Γ lo hi .int

/-- An increment or decrement. -/
def IncDec.Typed (Φ : Signatures) (r : Nat) (Γ : List Symbol) (lo hi : Nat) : IncDec → Prop
  | .mk m _ _ target => m.ty = some .int ∧ target.Updates Φ r Γ lo hi

/-- A function value: its body sees the parameters and what is captured. -/
def Lambda.Typed (Φ : Signatures) (r : Nat) (Γ : List Symbol) (lo hi : Nat) (t : Ty) :
    Lambda → Prop
  | .mk m ps body caps =>
    m.ty = some t ∧ ∃ (syms : List Symbol) (result found : Ty), Param.Declare r lo ps syms ∧
      t = .fn (syms.map Symbol.ty) (some result) ∧ result.Complete ∧ (∀ c ∈ caps, c ∈ Γ) ∧
      (caps.map Symbol.id).Nodup ∧ body.Typed Φ r (syms ++ caps) (lo + syms.length) hi found ∧
      (found.assignable result = true ∨ result = .unit)

/-- A generator of elements: its body sees the index and all that is around it. -/
def Lambda.Generates (Φ : Signatures) (r : Nat) (Γ : List Symbol) (lo hi : Nat) (s : Scalar) :
    Lambda → Prop
  | .mk _ ps body _ =>
    ∃ (sym : Symbol) (found : Ty), Param.Declare r lo ps [sym] ∧ sym.ty = .int ∧
      body.Typed Φ r (sym :: Γ) (lo + 1) hi found ∧ found.assignable (.scalar s) = true ∧
      found ≠ .unit

/-- A call that has a result of a type. -/
def Call.Typed (Φ : Signatures) (r : Nat) (Γ : List Symbol) (lo hi : Nat) (t : Ty) : Call → Prop
  | .mk m callee args =>
    m.ty = some t ∧ t.Complete ∧ ∃ params, callee.Denotes Φ Γ (.fn params (some t)) ∧
      Expr.ArgsTyped Φ r Γ lo hi params args

end

section Numbers

variable {Φ : Signatures} {r : Nat}

mutual

/-- The symbols inside an expression are numbered upwards. -/
theorem Expr.typed_le {Γ : List Symbol} {lo hi : Nat} {t : Ty} :
    (e : Expr) → e.Typed Φ r Γ lo hi t → lo ≤ hi
  | .int _ _, h => Nat.le_of_eq h.2.2
  | .bool _ _, h => Nat.le_of_eq h.2.2
  | .str _ _ splices, h => Splice.typed_le splices h.2.2
  | .read target, h => Target.typed_le target h
  | .arith _ _ a b, h => by
    obtain ⟨-, -, -, mid, ha, hb⟩ := h
    exact Nat.le_trans (Expr.typed_le a ha) (Expr.typed_le b hb)
  | .compare _ _ a b, h => by
    obtain ⟨-, -, -, mid, s, -, ha, hb⟩ := h
    exact Nat.le_trans (Expr.typed_le a ha) (Expr.typed_le b hb)
  | .logic _ _ a b, h => by
    obtain ⟨-, -, -, mid, ha, hb⟩ := h
    exact Nat.le_trans (Expr.typed_le a ha) (Expr.typed_le b hb)
  | .not _ e, h => Expr.typed_le e h.2.2
  | .incDec e, h => IncDec.typed_le e h.2
  | .collection _ _ es, h => by
    obtain ⟨-, s, -, -, hes⟩ := h
    exact Expr.elementsTyped_le es hes
  | .sized _ _ size gen, h => by
    obtain ⟨-, s, mid, -, -, hsize, hgen⟩ := h
    exact Nat.le_trans (Expr.typed_le size hsize) (Lambda.generates_le gen hgen)
  | .lambda l, h => Lambda.typed_le l h
  | .call c, h => Call.typed_le c h
  | .range _, h => h.elim

theorem Expr.elementsTyped_le {Γ : List Symbol} {lo hi : Nat} {s : Scalar} :
    (es : List Expr) → Expr.ElementsTyped Φ r Γ lo hi s es → lo ≤ hi
  | [], h => Nat.le_of_eq h
  | e :: es, h => by
    obtain ⟨mid, t, he, -, -, hes⟩ := h
    exact Nat.le_trans (Expr.typed_le e he) (Expr.elementsTyped_le es hes)

theorem Expr.argsTyped_le {Γ : List Symbol} {lo hi : Nat} :
    (wants : List Ty) → (es : List Expr) → Expr.ArgsTyped Φ r Γ lo hi wants es → lo ≤ hi
  | [], [], h => Nat.le_of_eq h
  | [], _ :: _, h => h.elim
  | _ :: _, [], h => h.elim
  | _ :: wants, e :: es, h => by
    obtain ⟨mid, t, he, -, -, hes⟩ := h
    exact Nat.le_trans (Expr.typed_le e he) (Expr.argsTyped_le wants es hes)

theorem Splice.typed_le {Γ : List Symbol} {lo hi size pos : Nat} :
    (splices : List Splice) → Splice.Typed Φ r Γ lo hi size pos splices → lo ≤ hi
  | [], h => Nat.le_of_eq h
  | .mk _ e :: splices, h => by
    obtain ⟨-, mid, t, he, -, hss⟩ := h
    exact Nat.le_trans (Expr.typed_le e he) (Splice.typed_le splices hss)

theorem Target.typed_le {Γ : List Symbol} {lo hi : Nat} {t : Ty} :
    (target : Target) → target.Typed Φ r Γ lo hi t → lo ≤ hi
  | .name _, h => Nat.le_of_eq h.2
  | .element _ _ index, h => by
    obtain ⟨-, kind, s, -, -, hi⟩ := h
    exact Expr.typed_le index hi

theorem Target.updates_le {Γ : List Symbol} {lo hi : Nat} :
    (target : Target) → target.Updates Φ r Γ lo hi → lo ≤ hi
  | .name _, h => Nat.le_of_eq h.2
  | .element _ _ index, h => by
    obtain ⟨-, kind, -, hi⟩ := h
    exact Expr.typed_le index hi

theorem IncDec.typed_le {Γ : List Symbol} {lo hi : Nat} :
    (e : IncDec) → e.Typed Φ r Γ lo hi → lo ≤ hi
  | .mk _ _ _ target, h => Target.updates_le target h.2

theorem Lambda.typed_le {Γ : List Symbol} {lo hi : Nat} {t : Ty} :
    (l : Lambda) → l.Typed Φ r Γ lo hi t → lo ≤ hi
  | .mk _ _ body _, h => by
    obtain ⟨-, syms, result, found, -, -, -, -, -, hbody, -⟩ := h
    exact Nat.le_trans (Nat.le_add_right _ _) (Expr.typed_le body hbody)

theorem Lambda.generates_le {Γ : List Symbol} {lo hi : Nat} {s : Scalar} :
    (l : Lambda) → l.Generates Φ r Γ lo hi s → lo ≤ hi
  | .mk _ _ body _, h => by
    obtain ⟨sym, found, -, -, hbody, -⟩ := h
    exact Nat.le_trans (Nat.le_add_right _ _) (Expr.typed_le body hbody)

theorem Call.typed_le {Γ : List Symbol} {lo hi : Nat} {t : Ty} :
    (c : Call) → c.Typed Φ r Γ lo hi t → lo ≤ hi
  | .mk _ _ args, h => by
    obtain ⟨-, -, params, -, hargs⟩ := h
    exact Expr.argsTyped_le params args hargs

end

end Numbers

/-- Elements are arguments for parameters of one type. -/
theorem Expr.ElementsTyped.args {Φ : Signatures} {r : Nat} {Γ : List Symbol} {s : Scalar} :
    ∀ {es : List Expr} {lo hi : Nat}, Expr.ElementsTyped Φ r Γ lo hi s es →
      Expr.ArgsTyped Φ r Γ lo hi (es.map fun _ => .scalar s) es
  | [], _, _, h => h
  | _ :: _, _, _, ⟨mid, t, he, ha, hu, hes⟩ => ⟨mid, t, he, ha, hu, hes.args⟩

/-- An expression whose value can stand where `want` is wanted. -/
def Expr.Fits (Φ : Signatures) (r : Nat) (Γ : List Symbol) (lo hi : Nat) (want : Ty) (e : Expr) :
    Prop :=
  ∃ t, e.Typed Φ r Γ lo hi t ∧ t.assignable want = true ∧ t ≠ .unit

/-! ## Statements -/

/-- What a loop runs over, with the type of the elements. -/
def Header.Typed (Φ : Signatures) (r : Nat) (Γ : List Symbol) (lo hi : Nat) (t : Ty) :
    Header → Prop
  | .range (.mk _ first last step) =>
    t = .int ∧ ∃ a b, first.Typed Φ r Γ lo a .int ∧ last.Typed Φ r Γ a b .int ∧
      match step with
      | none => b = hi
      | some e => e.Typed Φ r Γ b hi .int ∧ ∀ m n, e = .int m n → 0 < n
  | .each e =>
    ∃ (kind : CollectionKind) (s : Scalar), s.isElement ∧ t = .scalar s ∧
      e.Typed Φ r Γ lo hi (kind.ty s)

/-- The variables after a statement. -/
def Stmt.extend (Γ : List Symbol) : Stmt → List Symbol
  | .decl _ _ name _ _ => name.sym.toList ++ Γ
  | _ => Γ

mutual

/-- A statement of a routine with a result, inside a loop or not. -/
def Stmt.Typed (Φ : Signatures) (r : Nat) (result : Ty) (inLoop : Bool) (Γ : List Symbol)
    (lo hi : Nat) : Stmt → Prop
  | .decl _ _ name _ value =>
    ∃ (mid : Nat) (sym : Symbol), name.sym = some sym ∧ sym.Declares r mid ∧ hi = mid + 1 ∧
      match value with
      | none => lo = mid
      | some e => e.Fits Φ r Γ lo mid sym.ty
  | .assign _ (.name id) value => ∃ t, id.Holds Γ t ∧ value.Fits Φ r Γ lo hi t
  | .assign _ (.element _ base index) value =>
    ∃ (kind : CollectionKind) (s : Scalar) (mid : Nat), base.Holds Γ (kind.ty s) ∧
      index.Typed Φ r Γ lo mid .int ∧ value.Fits Φ r Γ mid hi (.scalar s)
  | .compound _ target op value =>
    (ArithOp.ofText? (compoundOperator op)).isSome = true ∧
      ∃ mid, target.Updates Φ r Γ lo mid ∧ value.Typed Φ r Γ mid hi .int
  | .selfOp _ e => e.Typed Φ r Γ lo hi
  | .print _ _ none => lo = hi
  | .print _ _ (some e) => ∃ t, e.Typed Φ r Γ lo hi t ∧ t.printable = true
  | .ifElse _ cond a b =>
    ∃ m n, cond.Typed Φ r Γ lo m .boolean ∧ a.Typed Φ r result inLoop Γ m n ∧
      Block.TypedOption Φ r result inLoop Γ n hi b
  | .whileLoop _ cond body =>
    ∃ m, cond.Typed Φ r Γ lo m .boolean ∧ body.Typed Φ r result true Γ m hi
  | .forLoop _ x header body =>
    ∃ (mid : Nat) (sym : Symbol), x.sym = some sym ∧ sym.Declares r mid ∧
      header.Typed Φ r Γ lo mid sym.ty ∧ body.Typed Φ r result true (sym :: Γ) (mid + 1) hi
  | .function _ => False
  | .call _ c => ∃ t, c.Typed Φ r Γ lo hi t
  | .ret _ none => result = .unit ∧ lo = hi
  | .ret _ (some e) => result ≠ .unit ∧ e.Fits Φ r Γ lo hi result
  | .brk _ => inLoop = true ∧ lo = hi
  | .cont _ => inLoop = true ∧ lo = hi
  | .block b => b.Typed Φ r result inLoop Γ lo hi

/-- Statements in order. -/
def Stmt.ListTyped (Φ : Signatures) (r : Nat) (result : Ty) (inLoop : Bool) (Γ : List Symbol)
    (lo hi : Nat) : List Stmt → Prop
  | [] => lo = hi
  | s :: ss =>
    ∃ mid, s.Typed Φ r result inLoop Γ lo mid ∧
      Stmt.ListTyped Φ r result inLoop (s.extend Γ) mid hi ss

/-- Statements in braces. -/
def Block.Typed (Φ : Signatures) (r : Nat) (result : Ty) (inLoop : Bool) (Γ : List Symbol)
    (lo hi : Nat) : Block → Prop
  | .mk _ ss _ => Stmt.ListTyped Φ r result inLoop Γ lo hi ss

/-- Statements in braces that may be absent. -/
def Block.TypedOption (Φ : Signatures) (r : Nat) (result : Ty) (inLoop : Bool) (Γ : List Symbol)
    (lo hi : Nat) : Option Block → Prop
  | none => lo = hi
  | some b => b.Typed Φ r result inLoop Γ lo hi

end

section Numbers

variable {Φ : Signatures} {r : Nat}

theorem Expr.fits_le {Γ : List Symbol} {lo hi : Nat} {want : Ty} {e : Expr}
    (h : e.Fits Φ r Γ lo hi want) : lo ≤ hi := by
  obtain ⟨t, ht, -⟩ := h
  exact Expr.typed_le e ht

theorem Header.typed_le {Γ : List Symbol} {lo hi : Nat} {t : Ty} {header : Header}
    (h : header.Typed Φ r Γ lo hi t) : lo ≤ hi := by
  cases header with
  | range rg =>
    obtain ⟨m, first, last, step⟩ := rg
    obtain ⟨-, a, b, hf, hl, hs⟩ := h
    have hb := Nat.le_trans (Expr.typed_le first hf) (Expr.typed_le last hl)
    cases step with
    | none => exact Nat.le_trans hb (Nat.le_of_eq hs)
    | some e => exact Nat.le_trans hb (Expr.typed_le e hs.1)
  | each e =>
    obtain ⟨kind, s, -, -, he⟩ := h
    exact Expr.typed_le e he

mutual

/-- The symbols inside a statement are numbered upwards. -/
theorem Stmt.typed_le {result : Ty} {inLoop : Bool} {Γ : List Symbol} {lo hi : Nat} :
    (s : Stmt) → s.Typed Φ r result inLoop Γ lo hi → lo ≤ hi
  | .decl _ _ _ _ none, h => by
    obtain ⟨mid, sym, -, -, rfl, rfl⟩ := h
    exact Nat.le_succ _
  | .decl _ _ _ _ (some e), h => by
    obtain ⟨mid, sym, -, -, rfl, he⟩ := h
    exact Nat.le_succ_of_le (Expr.fits_le he)
  | .assign _ (.name _) _, h => by
    obtain ⟨t, -, hv⟩ := h
    exact Expr.fits_le hv
  | .assign _ (.element _ _ index) _, h => by
    obtain ⟨kind, s, mid, -, hi, hv⟩ := h
    exact Nat.le_trans (Expr.typed_le index hi) (Expr.fits_le hv)
  | .compound _ target _ value, h => by
    obtain ⟨-, mid, ht, hv⟩ := h
    exact Nat.le_trans (Target.updates_le target ht) (Expr.typed_le value hv)
  | .selfOp _ e, h => IncDec.typed_le e h
  | .print _ _ none, h => Nat.le_of_eq h
  | .print _ _ (some e), h => by
    obtain ⟨t, he, -⟩ := h
    exact Expr.typed_le e he
  | .ifElse _ cond a b, h => by
    obtain ⟨m, n, hc, ha, hb⟩ := h
    exact Nat.le_trans (Expr.typed_le cond hc)
      (Nat.le_trans (Block.typed_le a ha) (Block.typedOption_le b hb))
  | .whileLoop _ cond body, h => by
    obtain ⟨m, hc, hb⟩ := h
    exact Nat.le_trans (Expr.typed_le cond hc) (Block.typed_le body hb)
  | .forLoop _ _ header body, h => by
    obtain ⟨mid, sym, -, -, hh, hb⟩ := h
    exact Nat.le_trans (Header.typed_le hh)
      (Nat.le_trans (Nat.le_succ mid) (Block.typed_le body hb))
  | .function _, h => h.elim
  | .call _ c, h => by
    obtain ⟨t, hc⟩ := h
    exact Call.typed_le c hc
  | .ret _ none, h => Nat.le_of_eq h.2
  | .ret _ (some _), h => Expr.fits_le h.2
  | .brk _, h => Nat.le_of_eq h.2
  | .cont _, h => Nat.le_of_eq h.2
  | .block b, h => Block.typed_le b h

theorem Stmt.listTyped_le {result : Ty} {inLoop : Bool} {Γ : List Symbol} {lo hi : Nat} :
    (ss : List Stmt) → Stmt.ListTyped Φ r result inLoop Γ lo hi ss → lo ≤ hi
  | [], h => Nat.le_of_eq h
  | s :: ss, h => by
    obtain ⟨mid, hs, hss⟩ := h
    exact Nat.le_trans (Stmt.typed_le s hs) (Stmt.listTyped_le ss hss)

theorem Block.typed_le {result : Ty} {inLoop : Bool} {Γ : List Symbol} {lo hi : Nat} :
    (b : Block) → b.Typed Φ r result inLoop Γ lo hi → lo ≤ hi
  | .mk _ ss _, h => Stmt.listTyped_le ss h

theorem Block.typedOption_le {result : Ty} {inLoop : Bool} {Γ : List Symbol} {lo hi : Nat} :
    (b : Option Block) → Block.TypedOption Φ r result inLoop Γ lo hi b → lo ≤ hi
  | none, h => Nat.le_of_eq h
  | some b, h => Block.typed_le b h

end

end Numbers

/-! ## Contexts -/

/-- Variables of the routine `r` with numbers below `lo`, each with one symbol. -/
structure Context (r lo : Nat) (Γ : List Symbol) : Prop where
  routine : ∀ sym ∈ Γ, sym.id.routine = r
  below : ∀ sym ∈ Γ, sym.id.index < lo
  plain : ∀ sym ∈ Γ, sym.isFunction = false
  complete : ∀ sym ∈ Γ, sym.ty.Complete
  hasValue : ∀ sym ∈ Γ, sym.ty ≠ .unit
  unique : ∀ a ∈ Γ, ∀ b ∈ Γ, a.id = b.id → a = b

namespace Context

variable {r lo hi : Nat} {Γ : List Symbol}

theorem nil (r lo : Nat) : Context r lo [] := by
  constructor <;> simp

theorem mono (h : Context r lo Γ) (hle : lo ≤ hi) : Context r hi Γ :=
  { h with below := fun sym hs => Nat.lt_of_lt_of_le (h.below sym hs) hle }

theorem subset {Δ : List Symbol} (h : Context r lo Γ) (hs : ∀ sym ∈ Δ, sym ∈ Γ) : Context r lo Δ where
  routine sym hm := h.routine sym (hs sym hm)
  below sym hm := h.below sym (hs sym hm)
  plain sym hm := h.plain sym (hs sym hm)
  complete sym hm := h.complete sym (hs sym hm)
  hasValue sym hm := h.hasValue sym (hs sym hm)
  unique a ha b hb := h.unique a (hs a ha) b (hs b hb)

theorem cons (h : Context r lo Γ) {sym : Symbol} (hd : sym.Declares r lo) :
    Context r (lo + 1) (sym :: Γ) where
  routine := by simpa [hd.id] using h.routine
  below s hs := by
    rcases List.mem_cons.mp hs with rfl | hs
    · simp [hd.id]
    · exact Nat.lt_succ_of_lt (h.below s hs)
  plain := by simpa [hd.plain] using h.plain
  complete := by simpa [hd.complete] using h.complete
  hasValue := by simpa [hd.hasValue] using h.hasValue
  unique a ha b hb hab := by
    have hne : ∀ s ∈ Γ, s.id ≠ sym.id := fun s hs heq => by
      have := h.below s hs
      simp [heq, hd.id] at this
    rcases List.mem_cons.mp ha with ha | ha
    · rcases List.mem_cons.mp hb with hb | hb
      · rw [ha, hb]
      · exact absurd (ha ▸ hab.symm) (hne b hb)
    · rcases List.mem_cons.mp hb with hb | hb
      · exact absurd (hb ▸ hab) (hne a ha)
      · exact h.unique a ha b hb hab

theorem params (h : Context r lo Γ) {ps : List Param} {syms : List Symbol}
    (hp : Param.Declare r lo ps syms) : Context r (lo + syms.length) (syms ++ Γ) := by
  induction syms generalizing ps lo Γ with
  | nil => simpa using h
  | cons sym syms ih =>
    cases ps with
    | nil => exact hp.elim
    | cons p ps =>
      obtain ⟨-, hd, hrest⟩ := hp
      have hlast := ih (h.cons hd) hrest
      have hsub : ∀ s ∈ sym :: syms ++ Γ, s ∈ syms ++ sym :: Γ := by
        intro s hs
        simpa [or_left_comm] using hs
      have := hlast.subset hsub
      rwa [Nat.add_right_comm, Nat.add_assoc] at this

theorem extend (h : Context r lo Γ) {Φ : Signatures} {result : Ty} {inLoop : Bool} {s : Stmt}
    (hs : s.Typed Φ r result inLoop Γ lo hi) : Context r hi (s.extend Γ) := by
  cases s with
  | decl tok isMutable name ty value =>
    have hle : lo ≤ hi - 1 := by
      obtain ⟨mid, sym, -, -, rfl, hv⟩ := hs
      cases value with
      | none => exact Nat.le_of_eq hv
      | some e => exact Expr.fits_le hv
    obtain ⟨mid, sym, hsym, hd, rfl, -⟩ := hs
    rw [Stmt.extend, hsym]
    exact (h.mono hle).cons hd
  | _ => exact h.mono (Stmt.typed_le _ hs)

end Context

/-! ## Programs -/

/-- A function that is the routine `r`. -/
structure FunDecl.Typed (Φ : Signatures) (r : Nat) (f : FunDecl) : Prop where
  word : IsWord f.name.name
  complete : f.result.Complete
  body : ∃ syms hi, Param.Declare r 1 f.params syms ∧ f.paramTypes = syms.map Symbol.ty ∧
    Stmt.ListTyped Φ r f.result false syms (1 + syms.length) hi f.body.stmts
  returns : f.result ≠ .unit → listAlwaysReturns f.body.stmts = true

/-- The types of functions, by name. -/
def signatures (fs : List FunDecl) : Signatures := fun name =>
  (fs.find? fun f => f.name.name == name).map FunDecl.signature

/-- A program whose functions have names of their own and whose parts are well-typed. -/
structure Checked.Typed (c : Checked) : Prop where
  functions : c.functions = c.program.functions
  names : (c.functions.map fun f => f.name.name).Nodup
  routine : ∀ f ∈ c.functions, ∃ r, f.Typed (signatures c.functions) r
  script : ∃ hi, Stmt.ListTyped (signatures c.functions) 0 .unit false [] 0 hi c.program.script

end Kotlet

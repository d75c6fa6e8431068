import Kotlet.Mutation
import Kotlet.Proofs.Syntax.Filled

/-!
# Trees that differ in one place

* `Expr.Touched`, `Stmt.Touched` : a node with another operator, literal, text or name;
* `Expr.Holds`, `Stmt.Holds`, `Stmt.Encloses` : where expressions and statements lie directly inside a
  node;
* `Expr.Altered`, `Stmt.ListAltered`, `Program.Altered` : trees that differ in at most one such node, or
  by one statement that is taken away;
* `Program.Regular` : what reading a program guarantees; `Program.OfText.regular` says so;
* `Program.Altered.regular` : a change in one place keeps it.
-/

namespace Kotlet

open Mutation (arithOps compareOps logicOps compoundOps)

/-! ## Changes -/

/-- One node of an expression is changed; what lies inside it stays. Numbers change by at most ten,
characters to small letters, and variables to one of some names. -/
inductive Expr.Touched (names : List String) : Expr → Expr → Prop where
  | number (m : Mark) (n : Int32) {d : Int} (hd : -10 ≤ d ∧ d ≤ 10) :
    Touched names (.int m n) (.int m (n + Int32.ofInt d))
  | truth (m : Mark) (b : Bool) : Touched names (.bool m b) (.bool m (!b))
  | letter (m : Mark) (text : String) (splices : List Splice) {i : Nat} {c : Char}
    (hi : i < text.toList.length) (hc : 'a' ≤ c ∧ c ≤ 'z') :
    Touched names (.str m text splices) (.str m (String.ofList (text.toList.set i c)) splices)
  | name (id : Ident) {x : String} (hx : x ∈ names) :
    Touched names (.read (.name id)) (.read (.name { id with name := x }))
  | base (m : Mark) (base : Ident) (index : Expr) {x : String} (hx : x ∈ names) :
    Touched names (.read (.element m base index)) (.read (.element m { base with name := x } index))
  | counted (m : Mark) (op : String) (before : Bool) (id : Ident) {x : String} (hx : x ∈ names) :
    Touched names (.incDec (.mk m op before (.name id)))
      (.incDec (.mk m op before (.name { id with name := x })))
  | arith (m : Mark) (op : String) (l r : Expr) {op' : String} (hop : op' ∈ arithOps) :
    Touched names (.arith m op l r) (.arith m op' l r)
  | compare (m : Mark) (op : String) (l r : Expr) {op' : String} (hop : op' ∈ compareOps) :
    Touched names (.compare m op l r) (.compare m op' l r)
  | logic (m : Mark) (op : String) (l r : Expr) {op' : String} (hop : op' ∈ logicOps) :
    Touched names (.logic m op l r) (.logic m op' l r)

/-- Where an expression lies directly inside another. -/
inductive Expr.Holds : (Expr → Expr) → Prop where
  | arithLeft (m : Mark) (op : String) (r : Expr) : Holds fun e => .arith m op e r
  | arithRight (m : Mark) (op : String) (l : Expr) : Holds fun e => .arith m op l e
  | compareLeft (m : Mark) (op : String) (r : Expr) : Holds fun e => .compare m op e r
  | compareRight (m : Mark) (op : String) (l : Expr) : Holds fun e => .compare m op l e
  | logicLeft (m : Mark) (op : String) (r : Expr) : Holds fun e => .logic m op e r
  | logicRight (m : Mark) (op : String) (l : Expr) : Holds fun e => .logic m op l e
  | negated (m : Mark) : Holds fun e => .not m e
  | template (m : Mark) (text : String) (before after : List Splice) (offset : Int) :
    Holds fun e => .str m text (before ++ .mk offset e :: after)
  | index (m : Mark) (base : Ident) : Holds fun e => .read (.element m base e)
  | counted (m m' : Mark) (op : String) (before : Bool) (base : Ident) :
    Holds fun e => .incDec (.mk m op before (.element m' base e))
  | element (m : Mark) (kind : CollectionKind) (before after : List Expr) :
    Holds fun e => .collection m kind (before ++ e :: after)
  | size (m : Mark) (kind : CollectionKind) (generator : Lambda) :
    Holds fun e => .sized m kind e generator
  | generator (m m' : Mark) (kind : CollectionKind) (size : Expr) (params : List Param)
    (captures : List Symbol) : Holds fun e => .sized m kind size (.mk m' params e captures)
  | body (m : Mark) (params : List Param) (captures : List Symbol) :
    Holds fun e => .lambda (.mk m params e captures)
  | argument (m : Mark) (callee : Ident) (before after : List Expr) :
    Holds fun e => .call (.mk m callee (before ++ e :: after))

/-- Two expressions differ in one node at most. -/
inductive Expr.Altered (names : List String) : Expr → Expr → Prop where
  | nothing (e : Expr) : Altered names e e
  | here {e e' : Expr} (h : e.Touched names e') : Altered names e e'
  | inside {place : Expr → Expr} (hplace : Expr.Holds place) {e e' : Expr} (h : Altered names e e') :
    Altered names (place e) (place e')

/-- One statement is changed; the expressions and statements inside it stay. -/
inductive Stmt.Touched (names : List String) : Stmt → Stmt → Prop where
  | operator (tok : Token) (target : Target) (op : String) (value : Expr) {op' : String}
    (hop : op' ∈ compoundOps) : Touched names (.compound tok target op value) (.compound tok target op' value)
  | assigned (tok : Token) (id : Ident) (value : Expr) {x : String} (hx : x ∈ names) :
    Touched names (.assign tok (.name id) value) (.assign tok (.name { id with name := x }) value)
  | counted (tok : Token) (m : Mark) (op : String) (before : Bool) (id : Ident) {x : String}
    (hx : x ∈ names) : Touched names (.selfOp tok (.mk m op before (.name id)))
      (.selfOp tok (.mk m op before (.name { id with name := x })))

/-- Where an expression lies directly inside a statement. -/
inductive Stmt.Holds : (Expr → Stmt) → Prop where
  | initial (tok : Token) (isMutable : Bool) (name : Ident) (ty : Option Ty) :
    Holds fun e => .decl tok isMutable name ty (some e)
  | assigned (tok : Token) (target : Target) : Holds fun e => .assign tok target e
  | index (tok : Token) (m : Mark) (base : Ident) (value : Expr) :
    Holds fun e => .assign tok (.element m base e) value
  | operand (tok : Token) (target : Target) (op : String) : Holds fun e => .compound tok target op e
  | counted (tok : Token) (m m' : Mark) (op : String) (before : Bool) (base : Ident) :
    Holds fun e => .selfOp tok (.mk m op before (.element m' base e))
  | printed (tok : Token) (newline : Bool) : Holds fun e => .print tok newline (some e)
  | condition (tok : Token) (a : Block) (b : Option Block) : Holds fun e => .ifElse tok e a b
  | whileCondition (tok : Token) (body : Block) : Holds fun e => .whileLoop tok e body
  | first (tok : Token) (x : Ident) (m : Mark) (last : Expr) (step : Option Expr) (body : Block) :
    Holds fun e => .forLoop tok x (.range (.mk m e last step)) body
  | last (tok : Token) (x : Ident) (m : Mark) (first : Expr) (step : Option Expr) (body : Block) :
    Holds fun e => .forLoop tok x (.range (.mk m first e step)) body
  | step (tok : Token) (x : Ident) (m : Mark) (first last : Expr) (body : Block) :
    Holds fun e => .forLoop tok x (.range (.mk m first last (some e))) body
  | each (tok : Token) (x : Ident) (body : Block) : Holds fun e => .forLoop tok x (.each e) body
  | argument (tok : Token) (m : Mark) (callee : Ident) (before after : List Expr) :
    Holds fun e => .call tok (.mk m callee (before ++ e :: after))
  | result (tok : Token) : Holds fun e => .ret tok (some e)

/-- Where statements lie directly inside another. -/
inductive Stmt.Encloses : (List Stmt → Stmt) → Prop where
  | thenBranch (tok : Token) (cond : Expr) (brace close : Token) (b : Option Block) :
    Encloses fun ss => .ifElse tok cond (.mk brace ss close) b
  | elseBranch (tok : Token) (cond : Expr) (a : Block) (brace close : Token) :
    Encloses fun ss => .ifElse tok cond a (some (.mk brace ss close))
  | whileBody (tok : Token) (cond : Expr) (brace close : Token) :
    Encloses fun ss => .whileLoop tok cond (.mk brace ss close)
  | forBody (tok : Token) (x : Ident) (header : Header) (brace close : Token) :
    Encloses fun ss => .forLoop tok x header (.mk brace ss close)
  | functionBody (tok : Token) (name : Ident) (params : List Param) (result : Ty) (brace close : Token) :
    Encloses fun ss => .function (.mk tok name params result (.mk brace ss close))
  | block (brace close : Token) : Encloses fun ss => .block (.mk brace ss close)

/-- Two lists of statements differ in one node at most, or by one statement that is taken away there or
in a list inside. -/
inductive Stmt.ListAltered (names : List String) : List Stmt → List Stmt → Prop where
  | nothing (ss : List Stmt) : ListAltered names ss ss
  | removed (before : List Stmt) (s : Stmt) (after : List Stmt) :
    ListAltered names (before ++ s :: after) (before ++ after)
  | here (before after : List Stmt) {s s' : Stmt} (h : s.Touched names s') :
    ListAltered names (before ++ s :: after) (before ++ s' :: after)
  | part (before after : List Stmt) {place : Expr → Stmt} (hplace : Stmt.Holds place) {e e' : Expr}
    (h : e.Altered names e') : ListAltered names (before ++ place e :: after) (before ++ place e' :: after)
  | inside (before after : List Stmt) {place : List Stmt → Stmt} (hplace : Stmt.Encloses place)
    {ss ss' : List Stmt} (h : ListAltered names ss ss') :
    ListAltered names (before ++ place ss :: after) (before ++ place ss' :: after)

/-- Two programs differ in one node at most, or by one statement that is taken away. A name that changes
becomes one that the first program declares at its top. -/
structure Program.Altered (p q : Program) : Prop where
  file : q.file = p.file
  stmts : Stmt.ListAltered p.declaredNames p.stmts q.stmts

/-! ## What reading guarantees -/

/-- An expression as it is read: well-formed, with proper names and operators, and without empty
collections. -/
def Expr.Regular (e : Expr) : Prop := e.WellFormed ∧ e.Legible ∧ e.Filled

/-- A statement as it is read. -/
def Stmt.Regular (s : Stmt) : Prop := s.WellFormed ∧ s.Legible ∧ s.Filled

/-- A program as it is read. -/
structure Program.Regular (p : Program) : Prop where
  /-- Operators exist, templates stand in order inside their texts, types are complete. -/
  wellFormed : p.WellFormed
  /-- Every operator is one of its node's class, and every name is a name. -/
  legible : Stmt.AllLegible p.stmts
  /-- No collection is written without elements. -/
  filled : Stmt.AllFilled p.stmts

/-- What is read is regular. -/
theorem Program.OfText.regular {text : Text} {p : Program} (h : p.OfText text) : p.Regular :=
  ⟨h.wellFormed, h.legible, h.filled⟩

theorem Program.regular_iff {p : Program} : p.Regular ↔ ∀ s ∈ p.stmts, s.Regular := by
  constructor
  · rintro ⟨hw, hl, hf⟩ s hs
    exact ⟨Stmt.allWellFormed_iff.mp hw s hs, Stmt.allLegible_iff.mp hl s hs, Stmt.allFilled_iff.mp hf s hs⟩
  · exact fun h => ⟨Stmt.allWellFormed_iff.mpr fun s hs => (h s hs).1,
      Stmt.allLegible_iff.mpr fun s hs => (h s hs).2.1, Stmt.allFilled_iff.mpr fun s hs => (h s hs).2.2⟩

/-- Something in a list is replaced. -/
theorem forall_swap {α : Type} {P : α → Prop} {before after : List α} {a : α}
    (h : ∀ x ∈ before ++ a :: after, P x) : P a ∧ ∀ b, P b → ∀ x ∈ before ++ b :: after, P x := by
  refine ⟨h a (by simp), fun b hb x hx => ?_⟩
  rcases List.mem_append.mp hx with hx | hx
  · exact h x (List.mem_append_left _ hx)
  · rcases List.mem_cons.mp hx with rfl | hx
    · exact hb
    · exact h x (List.mem_append_right _ (List.mem_cons_of_mem _ hx))

section Regular

open Written (IsName)

theorem Expr.regular_list {before after : List Expr} {e : Expr}
    (hw : Expr.AllWellFormed (before ++ e :: after)) (hl : Expr.AllLegible (before ++ e :: after))
    (hf : Expr.AllFilled (before ++ e :: after)) :
    e.Regular ∧ ∀ e' : Expr, e'.Regular → Expr.AllWellFormed (before ++ e' :: after) ∧
      Expr.AllLegible (before ++ e' :: after) ∧ Expr.AllFilled (before ++ e' :: after) := by
  simp only [Expr.allWellFormed_iff, Expr.allLegible_iff, Expr.allFilled_iff] at hw hl hf ⊢
  obtain ⟨hw, hw'⟩ := forall_swap hw
  obtain ⟨hl, hl'⟩ := forall_swap hl
  obtain ⟨hf, hf'⟩ := forall_swap hf
  exact ⟨⟨hw, hl, hf⟩, fun e' he' => ⟨hw' e' he'.1, hl' e' he'.2.1, hf' e' he'.2.2⟩⟩

theorem Splice.regular_list {size : Nat} {before after : List Splice} {offset : Int} {e : Expr} :
    ∀ {pos : Nat}, Splice.WellFormed size pos (before ++ .mk offset e :: after) →
      Splice.AllLegible (before ++ .mk offset e :: after) →
      Splice.AllFilled (before ++ .mk offset e :: after) →
      e.Regular ∧ ∀ e' : Expr, e'.Regular → Splice.WellFormed size pos (before ++ .mk offset e' :: after) ∧
        Splice.AllLegible (before ++ .mk offset e' :: after) ∧
        Splice.AllFilled (before ++ .mk offset e' :: after) := by
  induction before with
  | nil =>
    exact fun hw hl hf => ⟨⟨hw.2.1, hl.1, hf.1⟩,
      fun e' he' => ⟨⟨hw.1, he'.1, hw.2.2⟩, ⟨he'.2.1, hl.2⟩, he'.2.2, hf.2⟩⟩
  | cons s before ih =>
    obtain ⟨o, x⟩ := s
    intro pos hw hl hf
    obtain ⟨he, hswap⟩ := ih hw.2.2 hl.2 hf.2
    refine ⟨he, fun e' he' => ?_⟩
    obtain ⟨hw', hl', hf'⟩ := hswap e' he'
    exact ⟨⟨hw.1, hw.2.1, hw'⟩, ⟨hl.1, hl'⟩, hf.1, hf'⟩

/-- What lies inside a regular expression is regular, and may be replaced by what is. -/
theorem Expr.Holds.regular {place : Expr → Expr} (h : Expr.Holds place) {e : Expr}
    (he : (place e).Regular) : e.Regular ∧ ∀ e' : Expr, e'.Regular → (place e').Regular := by
  obtain ⟨hw, hl, hf⟩ := he
  cases h with
  | arithLeft | compareLeft | logicLeft =>
    exact ⟨⟨hw.2.1, hl.2.1, hf.1⟩,
      fun e' h => ⟨⟨hw.1, h.1, hw.2.2⟩, ⟨hl.1, h.2.1, hl.2.2⟩, h.2.2, hf.2⟩⟩
  | arithRight | compareRight | logicRight =>
    exact ⟨⟨hw.2.2, hl.2.2, hf.2⟩,
      fun e' h => ⟨⟨hw.1, hw.2.1, h.1⟩, ⟨hl.1, hl.2.1, h.2.1⟩, hf.1, h.2.2⟩⟩
  | negated => exact ⟨⟨hw, hl, hf⟩, fun e' h => h⟩
  | template => exact Splice.regular_list hw hl hf
  | index => exact ⟨⟨hw, hl.2, hf⟩, fun e' h => ⟨h.1, ⟨hl.1, h.2.1⟩, h.2.2⟩⟩
  | counted => exact ⟨⟨hw, hl.2.2, hf⟩, fun e' h => ⟨h.1, ⟨hl.1, hl.2.1, h.2.1⟩, h.2.2⟩⟩
  | element =>
    obtain ⟨he, hswap⟩ := Expr.regular_list hw hl hf.2
    refine ⟨he, fun e' h => ?_⟩
    obtain ⟨hw', hl', hf'⟩ := hswap e' h
    exact ⟨hw', hl', by simp, hf'⟩
  | size => exact ⟨⟨hw.1, hl.1, hf.1⟩, fun e' h => ⟨⟨h.1, hw.2⟩, ⟨h.2.1, hl.2⟩, h.2.2, hf.2⟩⟩
  | generator =>
    exact ⟨⟨hw.2.2, hl.2.2, hf.2⟩,
      fun e' h => ⟨⟨hw.1, hw.2.1, h.1⟩, ⟨hl.1, hl.2.1, h.2.1⟩, hf.1, h.2.2⟩⟩
  | body => exact ⟨⟨hw.2, hl.2, hf⟩, fun e' h => ⟨⟨hw.1, h.1⟩, ⟨hl.1, h.2.1⟩, h.2.2⟩⟩
  | argument =>
    obtain ⟨he, hswap⟩ := Expr.regular_list hw hl.2 hf
    refine ⟨he, fun e' h => ?_⟩
    obtain ⟨hw', hl', hf'⟩ := hswap e' h
    exact ⟨hw', ⟨hl.1, hl'⟩, hf'⟩

/-- What lies inside a regular statement is regular, and may be replaced by what is. -/
theorem Stmt.Holds.regular {place : Expr → Stmt} (h : Stmt.Holds place) {e : Expr}
    (he : (place e).Regular) : e.Regular ∧ ∀ e' : Expr, e'.Regular → (place e').Regular := by
  obtain ⟨hw, hl, hf⟩ := he
  have hone {P : Expr → Prop} {x : Expr} (hx : P x) : ∀ y, some x = some y → P y := by
    rintro _ ⟨⟩
    exact hx
  cases h with
  | initial =>
    exact ⟨⟨hw.2 _ rfl, hl.2.2 _ rfl, hf _ rfl⟩,
      fun e' h => ⟨⟨hw.1, hone h.1⟩, ⟨hl.1, hl.2.1, hone h.2.1⟩, hone h.2.2⟩⟩
  | assigned =>
    exact ⟨⟨hw.2, hl.2, hf.2⟩, fun e' h => ⟨⟨hw.1, h.1⟩, ⟨hl.1, h.2.1⟩, hf.1, h.2.2⟩⟩
  | index =>
    exact ⟨⟨hw.1, hl.1.2, hf.1⟩, fun e' h => ⟨⟨h.1, hw.2⟩, ⟨⟨hl.1.1, h.2.1⟩, hl.2⟩, h.2.2, hf.2⟩⟩
  | operand =>
    exact ⟨⟨hw.2.2, hl.2.2, hf.2⟩,
      fun e' h => ⟨⟨hw.1, hw.2.1, h.1⟩, ⟨hl.1, hl.2.1, h.2.1⟩, hf.1, h.2.2⟩⟩
  | counted => exact ⟨⟨hw, hl.2.2, hf⟩, fun e' h => ⟨h.1, ⟨hl.1, hl.2.1, h.2.1⟩, h.2.2⟩⟩
  | printed | result =>
    exact ⟨⟨hw _ rfl, hl _ rfl, hf _ rfl⟩, fun e' h => ⟨hone h.1, hone h.2.1, hone h.2.2⟩⟩
  | condition tok a b =>
    cases b with
    | none => exact ⟨⟨hw.1, hl.1, hf.1⟩, fun e' h => ⟨⟨h.1, hw.2⟩, ⟨h.2.1, hl.2⟩, h.2.2, hf.2⟩⟩
    | some b => exact ⟨⟨hw.1, hl.1, hf.1⟩, fun e' h => ⟨⟨h.1, hw.2⟩, ⟨h.2.1, hl.2⟩, h.2.2, hf.2⟩⟩
  | whileCondition => exact ⟨⟨hw.1, hl.1, hf.1⟩, fun e' h => ⟨⟨h.1, hw.2⟩, ⟨h.2.1, hl.2⟩, h.2.2, hf.2⟩⟩
  | first =>
    exact ⟨⟨hw.1.1, hl.2.1.1, hf.1.1⟩, fun e' h =>
      ⟨⟨⟨h.1, hw.1.2⟩, hw.2⟩, ⟨hl.1, ⟨h.2.1, hl.2.1.2⟩, hl.2.2⟩, ⟨h.2.2, hf.1.2⟩, hf.2⟩⟩
  | last =>
    exact ⟨⟨hw.1.2.1, hl.2.1.2.1, hf.1.2.1⟩, fun e' h =>
      ⟨⟨⟨hw.1.1, h.1, hw.1.2.2⟩, hw.2⟩, ⟨hl.1, ⟨hl.2.1.1, h.2.1, hl.2.1.2.2⟩, hl.2.2⟩,
        ⟨hf.1.1, h.2.2, hf.1.2.2⟩, hf.2⟩⟩
  | step =>
    exact ⟨⟨hw.1.2.2 _ rfl, hl.2.1.2.2 _ rfl, hf.1.2.2 _ rfl⟩, fun e' h =>
      ⟨⟨⟨hw.1.1, hw.1.2.1, hone h.1⟩, hw.2⟩, ⟨hl.1, ⟨hl.2.1.1, hl.2.1.2.1, hone h.2.1⟩, hl.2.2⟩,
        ⟨hf.1.1, hf.1.2.1, hone h.2.2⟩, hf.2⟩⟩
  | each =>
    exact ⟨⟨hw.1, hl.2.1, hf.1⟩, fun e' h => ⟨⟨h.1, hw.2⟩, ⟨hl.1, h.2.1, hl.2.2⟩, h.2.2, hf.2⟩⟩
  | argument =>
    obtain ⟨he, hswap⟩ := Expr.regular_list hw hl.2 hf
    refine ⟨he, fun e' h => ?_⟩
    obtain ⟨hw', hl', hf'⟩ := hswap e' h
    exact ⟨hw', ⟨hl.1, hl'⟩, hf'⟩

/-- The statements inside a regular statement are regular, and may be replaced by others that are. -/
theorem Stmt.Encloses.regular {place : List Stmt → Stmt} (h : Stmt.Encloses place) {ss : List Stmt}
    (hs : (place ss).Regular) : (∀ s ∈ ss, s.Regular) ∧
      ∀ ss' : List Stmt, (∀ s ∈ ss', s.Regular) → (place ss').Regular := by
  have hall (ss : List Stmt) : (∀ s ∈ ss, s.Regular) ↔
      Stmt.AllWellFormed ss ∧ Stmt.AllLegible ss ∧ Stmt.AllFilled ss := by
    simp only [Stmt.allWellFormed_iff, Stmt.allLegible_iff, Stmt.allFilled_iff, Stmt.Regular, forall_and]
  simp only [hall]
  obtain ⟨hw, hl, hf⟩ := hs
  cases h with
  | thenBranch tok cond brace close b =>
    cases b with
    | none => exact ⟨⟨hw.2.1, hl.2, hf.2⟩, fun ss' h => ⟨⟨hw.1, h.1, hw.2.2⟩, ⟨hl.1, h.2.1⟩, hf.1, h.2.2⟩⟩
    | some b =>
      exact ⟨⟨hw.2.1, hl.2.1, hf.2.1⟩, fun ss' h =>
        ⟨⟨hw.1, h.1, hw.2.2⟩, ⟨hl.1, h.2.1, hl.2.2⟩, hf.1, h.2.2, hf.2.2⟩⟩
  | elseBranch =>
    exact ⟨⟨hw.2.2, hl.2.2, hf.2.2⟩, fun ss' h =>
      ⟨⟨hw.1, hw.2.1, h.1⟩, ⟨hl.1, hl.2.1, h.2.1⟩, hf.1, hf.2.1, h.2.2⟩⟩
  | whileBody => exact ⟨⟨hw.2, hl.2, hf.2⟩, fun ss' h => ⟨⟨hw.1, h.1⟩, ⟨hl.1, h.2.1⟩, hf.1, h.2.2⟩⟩
  | forBody =>
    exact ⟨⟨hw.2, hl.2.2, hf.2⟩, fun ss' h => ⟨⟨hw.1, h.1⟩, ⟨hl.1, hl.2.1, h.2.1⟩, hf.1, h.2.2⟩⟩
  | functionBody =>
    exact ⟨⟨hw.2.2.2, hl.2.2.2, hf⟩, fun ss' h =>
      ⟨⟨hw.1, hw.2.1, hw.2.2.1, h.1⟩, ⟨hl.1, hl.2.1, hl.2.2.1, h.2.1⟩, h.2.2⟩⟩
  | block => exact ⟨⟨hw, hl, hf⟩, fun ss' h => h⟩

section Names

variable {names : List String} (hnames : ∀ x ∈ names, IsName x)
include hnames

theorem Expr.Touched.regular {e e' : Expr} (h : e.Touched names e') (he : e.Regular) : e'.Regular := by
  obtain ⟨hw, hl, hf⟩ := he
  cases h with
  | number | truth => exact ⟨trivial, trivial, trivial⟩
  | letter m text splices hi hc =>
    refine ⟨?_, hl, hf⟩
    simpa [Expr.WellFormed] using hw
  | name id hx => exact ⟨trivial, hnames _ hx, trivial⟩
  | base m base index hx => exact ⟨hw, ⟨hnames _ hx, hl.2⟩, hf⟩
  | counted m op before id hx => exact ⟨trivial, ⟨hl.1, hnames _ hx⟩, trivial⟩
  | arith m op l r hop =>
    have hknown : ∀ op ∈ arithOps, (ArithOp.ofText? op).isSome = true ∧ op ∈ ["+", "-", "*", "/", "%"] := by
      decide
    exact ⟨⟨(hknown _ hop).1, hw.2⟩, ⟨(hknown _ hop).2, hl.2⟩, hf⟩
  | compare m op l r hop =>
    have hknown : ∀ op ∈ compareOps, (CompareOp.ofText? op).isSome = true ∧
        op ∈ ["==", "!=", "<", ">", "<=", ">="] := by decide
    exact ⟨⟨(hknown _ hop).1, hw.2⟩, ⟨(hknown _ hop).2, hl.2⟩, hf⟩
  | logic m op l r hop =>
    have hknown : ∀ op ∈ logicOps, (op = "&&" ∨ op = "||") ∧ op ∈ ["&&", "||"] := by decide
    exact ⟨⟨(hknown _ hop).1, hw.2⟩, ⟨(hknown _ hop).2, hl.2⟩, hf⟩

theorem Expr.Altered.regular {e e' : Expr} (h : e.Altered names e') (he : e.Regular) : e'.Regular := by
  induction h with
  | nothing e => exact he
  | here h => exact h.regular hnames he
  | inside hplace _ ih => exact (hplace.regular he).2 _ (ih (hplace.regular he).1)

theorem Stmt.Touched.regular {s s' : Stmt} (h : s.Touched names s') (hs : s.Regular) : s'.Regular := by
  obtain ⟨hw, hl, hf⟩ := hs
  cases h with
  | operator tok target op value hop =>
    have hknown : ∀ op ∈ compoundOps, (ArithOp.ofText? (compoundOperator op)).isSome = true ∧
        op ∈ ["+=", "-=", "*=", "/="] := by decide
    exact ⟨⟨(hknown _ hop).1, hw.2⟩, ⟨(hknown _ hop).2, hl.2⟩, hf⟩
  | assigned tok id value hx => exact ⟨hw, ⟨hnames _ hx, hl.2⟩, hf⟩
  | counted tok m op before id hx => exact ⟨hw, ⟨hl.1, hnames _ hx⟩, hf⟩

theorem Stmt.ListAltered.regular {ss ss' : List Stmt} (h : Stmt.ListAltered names ss ss')
    (hs : ∀ s ∈ ss, s.Regular) : ∀ s ∈ ss', s.Regular := by
  induction h with
  | nothing ss => exact hs
  | removed before s after =>
    intro x hx
    refine hs x ?_
    rcases List.mem_append.mp hx with hx | hx
    · exact List.mem_append_left _ hx
    · exact List.mem_append_right _ (List.mem_cons_of_mem _ hx)
  | here before after h =>
    obtain ⟨hs, hswap⟩ := forall_swap hs
    exact hswap _ (h.regular hnames hs)
  | part before after hplace h =>
    obtain ⟨hs, hswap⟩ := forall_swap hs
    exact hswap _ ((hplace.regular hs).2 _ (h.regular hnames (hplace.regular hs).1))
  | inside before after hplace _ ih =>
    obtain ⟨hs, hswap⟩ := forall_swap hs
    exact hswap _ ((hplace.regular hs).2 _ (ih (hplace.regular hs).1))

end Names

/-- The names that a regular program declares are names. -/
theorem Program.Regular.isName {p : Program} (h : p.Regular) : ∀ x ∈ p.declaredNames, IsName x := by
  intro x hx
  obtain ⟨s, hs, heq⟩ := List.mem_filterMap.mp hx
  have hl := Stmt.allLegible_iff.mp h.legible s hs
  cases s with
  | decl tok isMutable name ty value =>
    obtain rfl := Option.some.inj heq
    exact hl.1
  | function f =>
    obtain ⟨tok, name, params, result, body⟩ := f
    obtain rfl := Option.some.inj heq
    exact hl.1
  | _ => cases heq

/-- A change in one place keeps what reading guarantees. -/
theorem Program.Altered.regular {p q : Program} (h : p.Altered q) (hp : p.Regular) : q.Regular :=
  Program.regular_iff.mpr (h.stmts.regular hp.isName (Program.regular_iff.mp hp))

end Regular

end Kotlet

import Kotlet.Proofs.Emit.Room.Expr
import Mathlib.Algebra.Order.BigOperators.Group.List

/-!
# Room for the class of a program

* `spends_branching`, `spends_rangeLoop`, `spends_elementLoop` and their kin : what each statement takes;
* `Stmt.room` : how many steps are charged for a statement, and `Stmt.spends` : they are enough;
* `Program.room`, `Program.ends_allMethods` : a program for which there is room exceeds no limit of the
  format.
-/

namespace Kotlet

open ClassFile Emit

/-! ## Statements -/

namespace Emit

variable {index value p : Piece} {place : Place} {body : Emit Unit} {i j k : Nat}

theorem spends_guarded {steps : Emit Unit} (tok : Token) (h : Spends steps k) :
    Spends (guarded tok steps) k := by
  unfold guarded
  refine costs_code.bind (k := k) fun c _ => ?_
  split
  · refine costs_code.bind (k := k) fun before _ => ?_
    refine Costs.le (h.seq (k := 0) fun _ => costs_code.bind (k := 0) fun c hc => ?_) (by omega)
    have hafter : Spends (do
        let after := (← code).depth
        if (← code).reachable && after != before.depth then
          reject (.unbalanced before.depth after) tok) 0 := by
      refine costs_code.bind (k := 0) fun c _ => costs_code.bind (k := 0) fun c' _ => ?_
      split
      · exact costs_reject rfl
      · exact spends_nothing
    dsimp only
    split
    · exact costs_reject_bind (by rw [EmitError.code, hc.error _ ‹_›]; rfl)
    · exact spends_nothing.seq fun _ => hafter
  · exact spends_nothing.le (Nat.zero_le k)

theorem spends_pushDefault (t : Ty) : Spends (pushDefault t) 1 := by
  unfold pushDefault
  split
  · exact spends_pushInt 0
  split
  · exact spends_pushString (by decide)
  · exact spends_op _

/-- Where there is room for `k` steps, the code of an optional expression exceeds no limit. -/
def OptionSpends (k : Nat) (value : Option Piece) : Prop := ∀ p, value = some p → p.Spends k

theorem spends_declaration (name : Ident) {value : Option Piece} (h : OptionSpends k value) :
    Spends (declaration name value) (k + 3) := by
  have hstore (sym : Symbol) : Spends (do store (← declare sym name.tok)) 2 :=
    (costs_declare _ _).bind fun l hl => spends_store hl
  unfold declaration
  refine (spends_symbolOf name).seq (k := k + 3) fun sym => ?_
  cases value with
  | some p => exact ((spends_valueAs (h p rfl) sym.ty).seq fun _ => hstore sym).le (by omega)
  | none => exact ((spends_pushDefault sym.ty).seq fun _ => hstore sym).le (by omega)

theorem spends_assignment (hp : place.Spends j) (hv : value.Spends k) :
    Spends (assignment value place) (j + k + 4) := by
  cases place with
  | name id =>
    exact Costs.le ((costs_variableOf id).bind fun l hl => (spends_valueAs hv _).seq fun _ =>
      spends_store hl) (by omega)
  | element m base index =>
    refine Costs.le ((spends_elementPlace m base hp).seq (k := k + 3) fun x => ?_) (by omega)
    obtain ⟨kind, s⟩ := x
    cases kind with
    | list => exact ((spends_valueAs hv _).seq fun _ => spends_listSet).le (by omega)
    | array => exact ((spends_valueAs hv _).seq fun _ => spends_op _).le (by omega)

theorem spends_compound (sign : String) (hp : place.Spends j) (hv : value.Spends k) :
    Spends (compound sign value place) (j + k + 9) := by
  cases place with
  | name id =>
    refine Costs.le ((costs_variableOf id).bind (k := k + 3) fun l hl => ?_) (by omega)
    split
    · exact (spends_increment l _).le (by omega)
    · exact Costs.le ((spends_load hl).seq fun _ => hv.value.seq fun _ => (spends_op _).seq fun _ =>
        spends_store hl) (by omega)
  | element m base index =>
    exact Costs.le ((spends_elementPlace m base hp).seq fun x => (spends_op _).seq fun _ =>
      (spends_loadInt x.1).seq fun _ => hv.value.seq fun _ => (spends_op _).seq fun _ =>
        spends_storeInt x.1) (by omega)

theorem spends_printing (newline : Bool) {value : Option Piece} (h : OptionSpends k value) :
    Spends (printing newline value) (k + 3) := by
  have hname : Pool.IsShort (if newline then "println" else "print") := by
    cases newline <;> decide
  have howner : Pool.IsShort Jvm.printStream := by decide
  unfold printing
  refine Costs.le ((spends_getStatic (by decide)).seq (k := k + 2) fun _ => ?_) (by omega)
  cases value with
  | none =>
    have hdesc : Pool.IsShort "()V" := by decide
    exact (spends_callVirtual ⟨howner, hname, hdesc⟩).le (by omega)
  | some p =>
    exact Costs.le ((spends_printable (h p rfl)).seq fun t =>
      spends_callVirtual ⟨howner, hname, isShort_printing t (by decide)⟩) (by omega)

/-! ### Branches and loops -/

theorem spends_branching {cond : Piece} {thenSteps : Emit Unit} {elseSteps : Option (Emit Unit)}
    (hc : cond.Spends i) (ht : Spends thenSteps j) (he : ∀ x, elseSteps = some x → Spends x k) :
    Spends (branching cond thenSteps elseSteps) (i + j + k + 1) := by
  unfold branching
  refine Costs.le (spends_newLabel.seq (k := i + j + k + 1) fun l => ?_) (by omega)
  refine Costs.le ((hc.jump false l).seq (k := k + 1 + j) fun _ => ht.seq fun _ => ?_) (by omega)
  cases elseSteps with
  | none => exact (spends_bindLabel l).le (Nat.zero_le _)
  | some x =>
    exact Costs.le (spends_newLabel.seq fun done => (spends_jump _ done).seq fun _ =>
      (spends_bindLabel l).seq fun _ => (he x rfl).seq fun _ => spends_bindLabel done) (by omega)

theorem spends_inLoop (breakTo continueTo : Nat) (h : Spends body k) :
    Spends (inLoop breakTo continueTo body) k := Costs.withReader h fun _ henv => { henv with }

theorem spends_whileLoop {cond : Piece} (hc : cond.Spends j) (hb : Spends body k) :
    Spends (whileLoop cond body) (j + k + 1) :=
  Costs.le (spends_newLabel.seq fun top => spends_newLabel.seq fun exit =>
    (spends_bindLabel top).seq fun _ => (hc.jump false exit).seq fun _ =>
      (spends_inLoop exit top hb).seq fun _ => (spends_jump _ top).seq fun _ =>
        spends_bindLabel exit) (by omega)

/-- The slot of the step of a range, if it has one. -/
def Step.Near : Step → Prop
  | .constant _ => True
  | .computed l => l.Near

/-- How many steps are charged for the code of the step of a range. -/
def stepRoom : Option Expr → Nat
  | none => 0
  | some e => e.room + 9

theorem costs_rangeStep : ∀ step : Option Expr, Costs (rangeStep step) (stepRoom step) Step.Near
  | none => costs_pure trivial
  | some e => by
    unfold rangeStep
    split
    · cases ‹some e = none›
    · exact (costs_pure trivial).le (Nat.zero_le _)
    · rename_i e' he
      cases he
      have hthrow : Spends (throwNew Jvm.illegalArgument "Step must be positive") 5 :=
        spends_throwNew (by decide +kernel) (by decide)
      exact Costs.le (e.spends.value.seq fun _ => (costs_scratch _ _).bind fun l hl =>
        (spends_store hl).seq fun _ => spends_newLabel.seq fun good => (spends_load hl).seq fun _ =>
          (spends_jump _ good).seq fun _ => hthrow.seq fun _ => (spends_bindLabel good).seq fun _ =>
            costs_pure hl) (by rw [stepRoom]; omega)

variable {step : Step}

theorem spends_pushStep (h : step.Near) : Spends (pushStep step) 1 := by
  cases step with
  | constant n => exact spends_pushInt n
  | computed l => exact spends_load h

theorem spends_testRange (h : step.Near) {x last : Local} (hx : x.Near) (hl : last.Near) (exit : Nat) :
    Spends (testRange step x last exit) 9 := by
  have hone : Spends (do load x; load last; jump .ifIcmpEq exit) 9 :=
    Costs.le ((spends_load hx).seq fun _ => (spends_load hl).seq fun _ => spends_jump _ exit)
      (by decide)
  have hmore : Spends (do
      load x
      op .i2l
      pushStep step
      op .i2l
      op .ladd
      load last
      op .i2l
      op .lcmp
      jump .ifGt exit) 9 :=
    (spends_load hx).seq fun _ => (spends_op _).seq fun _ => (spends_pushStep h).seq fun _ =>
      (spends_op _).seq fun _ => (spends_op _).seq fun _ => (spends_load hl).seq fun _ =>
        (spends_op _).seq fun _ => (spends_op _).seq fun _ => spends_jump _ exit
  unfold testRange
  cases step with
  | constant n =>
    dsimp only
    split
    · exact hone
    · exact hmore
  | computed l => exact hmore

theorem spends_advance (h : step.Near) {x : Local} (hx : x.Near) : Spends (advance step x) 4 := by
  unfold advance
  dsimp only
  split
  · exact (spends_increment x _).le (by decide)
  · exact (spends_load hx).seq fun _ => (spends_pushStep h).seq fun _ => (spends_op _).seq fun _ =>
      spends_store hx

theorem spends_rangeLoop (x : Ident) (m : Mark) (first last : Expr) (step : Option Expr)
    (hb : Spends body k) : Spends (rangeLoop x (.mk m first last step) body)
      (first.room + last.room + stepRoom step + k + 22) := by
  unfold rangeLoop
  refine (spends_symbolOf x).seq (k := first.room + last.room + stepRoom step + k + 22) fun sym => ?_
  exact Costs.le (first.spends.value.seq fun _ => (costs_declare _ _).bind fun v hv =>
    (spends_store hv).seq fun _ => last.spends.value.seq fun _ => (costs_scratch _ _).bind fun l hl =>
    (spends_store hl).seq fun _ => (costs_rangeStep step).bind fun s hs =>
    spends_newLabel.seq fun top => spends_newLabel.seq fun next => spends_newLabel.seq fun exit =>
    (spends_bindLabel top).seq fun _ => (spends_load hv).seq fun _ => (spends_load hl).seq fun _ =>
    (spends_jump _ exit).seq fun _ => (spends_inLoop exit next hb).seq fun _ =>
    (spends_bindLabel next).seq fun _ => (spends_testRange hs hv hl exit).seq fun _ =>
    (spends_advance hs hv).seq fun _ => (spends_jump _ top).seq fun _ => spends_bindLabel exit)
    (by omega)

theorem spends_elementLoop (tok : Token) (x : Ident) (hp : p.Spends j) (hb : Spends body k) :
    Spends (elementLoop tok x p body) (j + k + 20) := by
  unfold elementLoop
  refine Costs.le ((spends_typeOf p.expr).seq (k := k + 20 + j) fun t => ?_) (by omega)
  dsimp only
  split
  case h_3 => exact costs_reject_bind rfl
  all_goals
    rw [pure_bind]
    refine hp.value.seq fun _ => (costs_scratch _ _).bind (k := k + 19) fun c hc => ?_
    refine (spends_store hc).seq (k := k + 18) fun _ => (costs_scratch _ _).bind (k := k + 17) ?_
    refine fun i hi => (spends_pushInt 0).seq (k := k + 16) fun _ => ?_
    refine (spends_store hi).seq (k := k + 15) fun _ => (spends_symbolOf x).seq fun sym => ?_
    refine (costs_declare _ _).bind (k := k + 14) fun v hv => spends_newLabel.seq fun top => ?_
    refine spends_newLabel.seq fun next => spends_newLabel.seq fun exit => ?_
    refine (spends_bindLabel top).seq fun _ => (spends_load hi).seq (k := k + 13) fun _ => ?_
    refine (spends_load hc).seq (k := k + 12) fun _ => ?_
  case' h_1 => refine (spends_op _).seq (k := k + 11) fun _ => ?_
  case' h_2 => refine (spends_callInterface (by decide)).seq (k := k + 11) fun _ => ?_
  all_goals
    exact Costs.le ((spends_jump _ exit).seq fun _ => (spends_load hc).seq fun _ =>
      (spends_load hi).seq fun _ => (spends_loadElement _ _).seq fun _ => (spends_store hv).seq fun _ =>
        (spends_inLoop exit next hb).seq fun _ => (spends_bindLabel next).seq fun _ =>
          (spends_increment i 1).seq fun _ => (spends_jump _ top).seq fun _ =>
            spends_bindLabel exit) (by omega)

/-! ### Leaving -/

theorem spends_returning (tok : Token) {value : Option Piece} (h : OptionSpends k value) :
    Spends (returning tok value) (k + 2) := by
  unfold returning
  refine costs_read.bind (k := k + 2) fun env _ => ?_
  cases value with
  | none =>
    dsimp only
    split
    · exact costs_reject_bind rfl
    · exact (spends_op _).le (by omega)
  | some p =>
    dsimp only
    split
    · exact costs_reject_bind rfl
    · exact ((spends_valueAs (h p rfl) _).seq fun _ => spends_op _).le (by omega)

theorem spends_leaving (tok : Token) (target : Loop → Nat) : Spends (leaving tok target) 1 := by
  unfold leaving
  refine costs_read.bind (k := 1) fun env _ => ?_
  split
  · exact costs_reject rfl
  · exact spends_jump _ _

theorem spends_effect (c : Call) : Spends (effect c) (c.room + 1) := by
  unfold effect
  refine Costs.le ((spends_typeOf _).seq (k := 1 + c.room) fun t => c.spends.seq fun _ => ?_) (by omega)
  split
  · exact spends_op _
  · exact spends_nothing.le (by decide)

theorem spends_selfOp (e : IncDec) : Spends (selfOp e) (e.room + 1) := by
  unfold selfOp
  split
  · exact ((costs_variableOf _).bind fun l _ => spends_increment l _).le (Nat.le_add_left _ _)
  · exact (e.spends.seq fun _ => spends_op _).le (by omega)

end Emit

/-! ### The room of a statement -/

/-- How many steps are charged for the code of an optional expression. -/
def Expr.optionRoom : Option Expr → Nat
  | none => 0
  | some e => e.room

/-- How many steps are charged for the header of a loop. -/
def Header.room : Header → Nat
  | .range (.mk _ first last step) => first.room + last.room + stepRoom step + 22
  | .each e => e.room + 20

mutual

/-- How many steps are charged for the code of a statement. -/
def Stmt.room : Stmt → Nat
  | .decl _ _ _ _ value => Expr.optionRoom value + 3
  | .assign _ target value => target.room + value.room + 4
  | .compound _ target _ value => target.room + value.room + 9
  | .selfOp _ e => e.room + 1
  | .print _ _ value => Expr.optionRoom value + 3
  | .ifElse _ cond a b => cond.room + a.room + Block.optionRoom b + 1
  | .whileLoop _ cond body => cond.room + body.room + 1
  | .forLoop _ _ header body => header.room + body.room
  | .function _ => 0
  | .call _ c => c.room + 1
  | .ret _ value => Expr.optionRoom value + 2
  | .brk _ => 1
  | .cont _ => 1
  | .block b => b.room

/-- How many steps are charged for the code of several statements. -/
def Stmt.listRoom : List Stmt → Nat
  | [] => 0
  | s :: ss => s.room + Stmt.listRoom ss

/-- How many steps are charged for the code of a block. -/
def Block.room : Block → Nat
  | .mk _ ss _ => Stmt.listRoom ss

/-- How many steps are charged for the code of a block that may be absent. -/
def Block.optionRoom : Option Block → Nat
  | none => 0
  | some b => b.room

end

theorem Expr.spends_option (value : Option Expr) :
    OptionSpends (Expr.optionRoom value) (value.map Expr.piece) := by
  intro p hp
  cases value with
  | none => cases hp
  | some e => exact Option.some.inj hp ▸ e.spends

theorem Header.spends (tok : Token) (x : Ident) {body : Emit Unit} {k : Nat} (hb : Spends body k)
    (header : Header) : Spends (header.emit tok x body) (header.room + k) := by
  cases header with
  | range r =>
    obtain ⟨m, first, last, step⟩ := r
    exact (spends_rangeLoop x m first last step hb).le (by rw [Header.room]; omega)
  | each e => exact (spends_elementLoop tok x e.spends hb).le (by rw [Header.room]; omega)

mutual

/-- The code of a statement exceeds no limit where there is room for it. -/
theorem Stmt.spends : (s : Stmt) → Spends s.emit s.room
  | .decl tok _ name _ value => spends_guarded tok (spends_declaration name (Expr.spends_option value))
  | .assign tok target value => spends_guarded tok (spends_assignment target.spends value.spends)
  | .compound tok target sign value =>
    spends_guarded tok (spends_compound sign target.spends value.spends)
  | .selfOp tok e => spends_guarded tok (spends_selfOp e)
  | .print tok newline value => spends_guarded tok (spends_printing newline (Expr.spends_option value))
  | .ifElse tok cond a b =>
    spends_guarded tok (spends_branching cond.spends a.spends (Block.spends_option b))
  | .whileLoop tok cond body => spends_guarded tok (spends_whileLoop cond.spends body.spends)
  | .forLoop tok x header body => spends_guarded tok (header.spends tok x body.spends)
  | .function f => spends_guarded f.tok (costs_reject rfl)
  | .call tok c => spends_guarded tok (spends_effect c)
  | .ret tok value => spends_guarded tok (spends_returning tok (Expr.spends_option value))
  | .brk tok => spends_guarded tok (spends_leaving tok _)
  | .cont tok => spends_guarded tok (spends_leaving tok _)
  | .block b => b.spends

theorem Stmt.spends_list : (ss : List Stmt) → Spends (Stmt.emitList ss) (Stmt.listRoom ss)
  | [] => spends_nothing
  | s :: ss => (s.spends.seq fun _ => Stmt.spends_list ss).le
      (by rw [Stmt.listRoom]; omega)

theorem Block.spends : (b : Block) → Spends b.emit b.room
  | .mk tok ss _ => spends_guarded tok (Stmt.spends_list ss)

theorem Block.spends_option : (b : Option Block) → ∀ x, Block.emitOption b = some x →
    Spends x (Block.optionRoom b)
  | none, _, h => nomatch h
  | some b, _, h => Option.some.inj h ▸ b.spends

end

/-! ## Classes -/

namespace Emit

theorem spends_castOr {cls : String} (h : Pool.IsShort cls) (otherwise : Nat) :
    Spends (castOr cls otherwise) 5 :=
  have hshown : shownSlot.Near := by decide
  (spends_load hshown).seq fun _ => (spends_onClass _ h).seq fun _ =>
    (spends_jump _ otherwise).seq fun _ => (spends_load hshown).seq fun _ => spends_onClass _ h

theorem spends_showPlainArray (s : Scalar) : Spends (showPlainArray s) 7 := by
  have htext : Member.IsShort ⟨Jvm.arrays, "toString", arrayTextDescriptor s⟩ := by
    cases s <;> decide
  exact Costs.le (spends_newLabel.seq fun next => (spends_castOr (isShort_castName _) next).seq fun _ =>
    (spends_callStatic htext).seq fun _ => (spends_op _).seq fun _ => spends_bindLabel next) (by decide)

theorem spends_appendText : Spends appendText 1 := spends_append (by decide)

theorem spends_findElements (otherwise : Nat) : Spends (findElements otherwise) 14 := by
  have helements : elementsSlot.Near := by decide
  unfold findElements
  exact Costs.le (spends_newLabel.seq fun notList => spends_newLabel.seq fun join =>
    (spends_castOr (by decide) notList).seq fun _ =>
    (spends_callInterface (by decide)).seq fun _ => (spends_store helements).seq fun _ =>
    (spends_jump _ join).seq fun _ => (spends_bindLabel notList).seq fun _ =>
    (spends_castOr (by decide) otherwise).seq fun _ => (spends_store helements).seq fun _ =>
    spends_bindLabel join) (by decide)

theorem spends_showElements : Spends showElements 40 := by
  have htext : textSlot.Near := by decide
  have hindex : indexSlot.Near := by decide
  have helements : elementsSlot.Near := by decide
  unfold showElements
  exact Costs.le ((spends_onClass _ (by decide)).seq fun _ => (spends_op _).seq fun _ =>
    (spends_pushString (by decide)).seq fun _ =>
    (spends_callInit (by decide)).seq fun _ => (spends_store htext).seq fun _ =>
    (spends_pushInt 0).seq fun _ => (spends_store hindex).seq fun _ =>
    spends_newLabel.seq fun top => spends_newLabel.seq fun first => spends_newLabel.seq fun done =>
    (spends_bindLabel top).seq fun _ => (spends_load hindex).seq fun _ =>
    (spends_load helements).seq fun _ => (spends_op _).seq fun _ => (spends_jump _ done).seq fun _ =>
    (spends_load hindex).seq fun _ => (spends_jump _ first).seq fun _ =>
    (spends_load htext).seq fun _ => (spends_pushString (by decide)).seq fun _ =>
    spends_appendText.seq fun _ => (spends_op _).seq fun _ =>
    (spends_bindLabel first).seq fun _ => (spends_load htext).seq fun _ =>
    (spends_load helements).seq fun _ => (spends_load hindex).seq fun _ => (spends_op _).seq fun _ =>
    costs_read.bind fun env henv => (spends_callStatic ⟨henv.unit, isShort_showName⟩).seq fun _ =>
    spends_appendText.seq fun _ => (spends_op _).seq fun _ => (spends_increment _ 1).seq fun _ =>
    (spends_jump _ top).seq fun _ => (spends_bindLabel done).seq fun _ =>
    (spends_load htext).seq fun _ => (spends_pushString (by decide)).seq fun _ =>
    spends_appendText.seq fun _ =>
    (spends_callVirtual (by decide)).seq fun _ => spends_op _) (by decide)

theorem spends_showSteps : Spends showSteps 72 := by
  have hshown : shownSlot.Near := by decide
  unfold showSteps
  exact Costs.le ((spends_showPlainArray _).seq fun _ => (spends_showPlainArray _).seq fun _ =>
    spends_newLabel.seq fun other => (spends_findElements other).seq fun _ =>
    spends_showElements.seq fun _ => (spends_bindLabel other).seq fun _ =>
    (spends_load hshown).seq fun _ => (spends_callStatic (by decide)).seq fun _ => spends_op _)
    (by decide)

theorem spends_constructor : Spends constructor 3 :=
  have hthis : (⟨0, .any⟩ : Local).Near := by decide
  spends_plainMethod ((spends_load hthis).seq fun _ => (spends_callInit (by decide)).seq fun _ =>
    spends_op _)

theorem spends_entryPoint : Spends entryPoint 2 :=
  have hname : Pool.IsShort scriptName := by decide
  have hdesc : Pool.IsShort "()V" := by decide
  spends_plainMethod (costs_read.bind fun _ henv =>
    (spends_callStatic ⟨henv.unit, hname, hdesc⟩).seq fun _ => spends_op _)

theorem spends_scriptMethod (p : Program) :
    Spends (scriptMethod p) (Stmt.listRoom p.script + 5) :=
  (spends_method (Nat.zero_le _) (Stmt.spends_list p.script)).le (by simp)

/-- How many steps are charged for the method of a function. -/
def functionRoom (f : FunDecl) : Nat :=
  28 * f.params.length + f.name.name.length + Stmt.listRoom f.body.stmts + 5

theorem spends_functionMethod (f : FunDecl) : Spends (functionMethod f) (functionRoom f) := by
  refine Costs.of_le fun hle => ?_
  unfold functionRoom at hle ⊢
  unfold most at hle
  have htypes : f.paramTypes.length ≤ EmitError.maxParameters := by
    rw [FunDecl.paramTypes, List.length_map]
    exact (by omega : f.params.length ≤ 255)
  unfold functionMethod
  refine (costs_methodOf _).bind (k := _) fun name _ => ?_
  exact (spends_method htypes (Stmt.spends_list f.body.stmts)).le (by simp; omega)

theorem spends_functionMethods : ∀ fs : List FunDecl,
    Spends (functionMethods fs) (fs.map functionRoom).sum
  | [] => spends_nothing
  | f :: fs => ((spends_functionMethod f).seq fun _ => spends_functionMethods fs).le
      (by simp; omega)

end Emit

/-- How many steps are charged for the class of a program. -/
def Program.room (p : Program) : Nat :=
  Stmt.listRoom p.script + (p.functions.map functionRoom).sum + 82

namespace Emit

theorem spends_allMethods (p : Program) : Spends (allMethods p) p.room := by
  unfold allMethods
  refine Costs.le (spends_constructor.seq fun _ => spends_entryPoint.seq fun _ =>
    (spends_scriptMethod p).seq fun _ => (spends_functionMethods _).seq fun _ => costs_get.bind
      (k := 72) fun s _ => ?_) (by rw [Program.room]; omega)
  dsimp only
  split
  · refine (spends_plainMethod spends_showSteps).seq fun _ => costs_get.bind (k := 0) fun s hs => ?_
    rw [hs.pool.1]
    exact spends_nothing
  · refine costs_get.bind (k := 72) fun s hs => ?_
    rw [hs.pool.1]
    exact spends_nothing.le (Nat.zero_le 72)

theorem State.roomy_start : State.start.Roomy most where
  pool := ⟨rfl, by decide⟩
  code := .start 0 (by decide)
  next := by decide
  slots id l hl := by simp [State.start, Body.start] at hl
  lambdas := by decide

end Emit

/-- Where there is room for it, a program exceeds no limit of the format. -/
theorem Program.ends_allMethods {p : Program} (hroom : p.room ≤ most) {unit : String}
    (hunit : Pool.IsShort unit) : Ends (allMethods p)
      ⟨unit, p.functions, p.functions.map fun f => f.name.name, .unit, none⟩ .start
      (fun d => d.code ≠ .formatLimit) fun _ _ => True := by
  have hfunction : ∀ f ∈ p.functions, functionRoom f ≤ most := fun f hf =>
    have hsum := List.single_le_sum (fun k _ => Nat.zero_le k) _ (List.mem_map_of_mem (f := functionRoom) hf)
    Nat.le_trans hsum (Nat.le_trans (by rw [Program.room]; omega) hroom)
  have henv : Env.Short ⟨unit, p.functions, p.functions.map fun f => f.name.name, .unit, none⟩ := by
    refine ⟨hunit, fun name hname => ?_, fun f hf => ?_⟩
    · obtain ⟨f, hf, rfl⟩ := List.mem_map.mp hname
      have hle := hfunction f hf
      have hdollar : "$".length = 1 := by decide
      apply Pool.isShort_of_length
      unfold functionRoom most at hle
      unfold methodName
      split
      · rw [String.length_append]
        omega
      · omega
    · have hle := hfunction f hf
      unfold functionRoom most at hle
      rw [FunDecl.paramTypes, List.length_map]
      omega
  refine ((spends_allMethods p).ends _ henv 0 _ (State.roomy_start.le ?_)).mono fun _ _ _ => trivial
  rwa [Nat.zero_add]

end Kotlet

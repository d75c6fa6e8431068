import Mathlib.Data.List.Forall2
import Kotlet.Emit.Class
import Kotlet.Eval
import Kotlet.Proofs.Typing.Alike
import Kotlet.Proofs.Typing.Captures

/-!
# Functions may stand anywhere

* `Typing.ChecksScript`, `Typing.ChecksFunction` : what the checker makes of the script and of a function,
  whatever stands in between;
* `Typing.parts_checkTop` : the statements of a program are checked in these two parts;
* `Program.check_parts_eq` : the order in which functions and script are interleaved is no matter;
* `Agrees` : two outcomes that are equal, or two failures with one code;
* `Program.check_interleaved` : neither is it for the class, nor for the run.
-/

namespace Kotlet

open Typing

/-! ## Checking in two parts -/

namespace Typing

/-- Statements that are checked one after the other. In between, which variables were assigned may
change. -/
inductive ChecksScript (env : Env) : State → List Stmt → List Stmt → Prop where
  | nil (s : State) : ChecksScript env s [] []
  | cons {s s₀ s₁ : State} {st st' : Stmt} {ss ss' : List Stmt} (hakin : Akin s s₀)
    (hst : st.check env s₀ = .ok (st', s₁)) (hss : ChecksScript env s₁ ss ss') :
    ChecksScript env s (st :: ss) (st' :: ss')

/-- A function that is checked somewhere outside of all lambdas. -/
def ChecksFunction (env : Env) (f f' : FunDecl) : Prop :=
  ∃ s s', Bare s ∧ f.check env s = .ok (f', s')

variable {env : Env} {s t : State} {st st' : Stmt} {ss ss' ss'' : List Stmt}

theorem ChecksScript.of_akin (hst : Akin s t) (h : ChecksScript env t ss ss') : ChecksScript env s ss ss' := by
  cases h with
  | nil => exact .nil s
  | cons hakin hst' hss => exact .cons (hst.trans hakin) hst' hss

/-- A script is checked in one way. -/
theorem ChecksScript.unique (h : ChecksScript env s ss ss') (h' : ChecksScript env t ss ss'')
    (hst : Akin s t) : ss' = ss'' := by
  induction h generalizing t ss'' with
  | nil =>
    cases h'
    rfl
  | cons hakin hcheck _ ih =>
    cases h' with
    | cons hakin' hcheck' hrest =>
      obtain ⟨rfl, hnext⟩ := Stmt.alike_check _ (hakin.symm.trans (hst.trans hakin')) hcheck hcheck'
      rw [ih hrest hnext]

/-- A function is checked in one way. -/
theorem ChecksFunction.unique {f f' f'' : FunDecl} (h : ChecksFunction env f f')
    (h' : ChecksFunction env f f'') : f' = f'' := by
  obtain ⟨s, _, hs, h⟩ := h
  obtain ⟨t, _, ht, h'⟩ := h'
  obtain ⟨sym, s₁, hsym, hbody, -⟩ := FunDecl.ok_check h
  obtain ⟨sym', t₁, hsym', hbody', -⟩ := FunDecl.ok_check h'
  obtain rfl : sym = sym' := Option.some.inj (hsym.symm.trans hsym')
  refine (FunDecl.alike_checkBody sym f ?_ hbody hbody').1
  exact ⟨rfl, rfl, hs.captures.trans ht.captures.symm⟩

/-- What the statements of a program are checked to, by parts. -/
structure ChecksParts (env : Env) (s : State) (ss ss' : List Stmt) : Prop where
  script : ChecksScript env s (scriptOf ss) (scriptOf ss')
  functions : List.Forall₂ (ChecksFunction env) (functionsOf ss) (functionsOf ss')

/-- After a function the script goes on as before. -/
theorem akin_checkFunction {f f' : FunDecl} {s' : State} (henv : Outermost env) (hs : Bare s)
    (h : f.check env s = .ok (f', s')) : Akin s s' := by
  obtain ⟨sym, s₁, -, -, rfl⟩ := FunDecl.ok_check h
  have hbare := ((FunDecl.finishes_check henv f s hs).of_ok h).1
  exact ⟨rfl, rfl, hs.captures.trans hbare.captures.symm⟩

theorem functionsOf_cons (hst : ∀ f, st ≠ .function f) (ss : List Stmt) :
    functionsOf (st :: ss) = functionsOf ss := by
  cases st with
  | function f => exact absurd rfl (hst f)
  | _ => rfl

theorem scriptOf_cons (hst : ∀ f, st ≠ .function f) (ss : List Stmt) :
    scriptOf (st :: ss) = st :: scriptOf ss := by
  cases st with
  | function f => exact absurd rfl (hst f)
  | _ => rfl

theorem ChecksParts.function {f f' : FunDecl} (hs : Bare s) (hf : f.check env s = .ok (f', t))
    (hst : Akin s t) (h : ChecksParts env t ss ss') :
    ChecksParts env s (.function f :: ss) (.function f' :: ss') :=
  ⟨h.script.of_akin hst, .cons ⟨s, t, hs, hf⟩ h.functions⟩

theorem ChecksParts.statement (hne : ∀ f, st ≠ .function f) (hne' : ∀ f, st' ≠ .function f)
    (hst : st.check env s = .ok (st', t)) (h : ChecksParts env t ss ss') :
    ChecksParts env s (st :: ss) (st' :: ss') := by
  refine ⟨?_, ?_⟩
  · rw [scriptOf_cons hne, scriptOf_cons hne']
    exact .cons (Akin.refl _) hst h.script
  · rw [functionsOf_cons hne, functionsOf_cons hne']
    exact h.functions

/-- The functions of a program are checked in the middle of its script, and leave no trace there. -/
theorem parts_checkTop (henv : Outermost env) (ss : List Stmt) {acc r : List Stmt} {view : List Ident}
    {s s' : State} (hs : Bare s) (hm : Mirrors env.functions view s.scopes)
    (h : Stmt.checkList acc ss env s = .ok (r, s')) :
    ∃ ss', r = acc.reverse ++ ss' ∧ ChecksParts env s ss ss' := by
  induction ss generalizing acc view s with
  | nil =>
    cases h
    exact ⟨[], by simp, .nil _, .nil⟩
  | cons st ss ih =>
    obtain ⟨st', s₁, hst, hss⟩ := ok_of_bind h
    by_cases hfun : ∃ f, st = .function f
    · obtain ⟨f, rfl⟩ := hfun
      obtain ⟨f', _, hf, hst⟩ := ok_of_bind hst
      cases hst
      have hakin := akin_checkFunction henv hs hf
      have hbare := ((FunDecl.finishes_check henv f s hs).of_ok hf).1
      obtain ⟨ss', rfl, hparts⟩ := ih hbare (hakin.scopes ▸ hm) hss
      exact ⟨.function f' :: ss', by simp, hparts.function hs hf hakin⟩
    · have hne : ∀ f, st ≠ .function f := fun f h => hfun ⟨f, h⟩
      obtain ⟨hm₁, -, hproceeds⟩ := (Stmt.brings_check rfl hm st fun f h => absurd h (hne f)).of_ok hst
      have hbare := ((Stmt.finishes_check henv st s hs).of_ok hst).1
      obtain ⟨ss', rfl, hparts⟩ := ih hbare hm₁ hss
      exact ⟨st' :: ss', by simp, hparts.statement hne hproceeds.ne_function hst⟩

end Typing

/-- What the checker accepts was checked by parts, with the functions in view. -/
theorem Program.check_parts {p : Program} {c : Checked} (h : p.check = .ok c) : ∃ functions,
    declareFunctions 1 ⟨.functions, []⟩ p.functions = .ok functions ∧
      ChecksParts ⟨functions, 0, none, .program, 0, 0⟩ ⟨⟨⟨.script, []⟩, [functions]⟩, 0, [], []⟩ p.stmts
        c.program.stmts ∧ c.functions = c.program.functions ∧ c.program.file = p.file := by
  obtain ⟨functions, stmts, s, hdecl, hlist, rfl⟩ := Program.check_eq_ok h
  have hdepth := depth_declareFunctions p.functions 1 ⟨.functions, []⟩ functions hdecl
    fun _ h => absurd h List.not_mem_nil
  have henv : Outermost ⟨functions, 0, none, .program, 0, 0⟩ := ⟨rfl, hdepth⟩
  have hbare : Bare ⟨⟨⟨.script, []⟩, [functions]⟩, 0, [], []⟩ :=
    ⟨rfl, by simpa [Scopes.symbols] using hdepth⟩
  have hm : Mirrors functions [] ⟨⟨.script, []⟩, [functions]⟩ :=
    ⟨by simp [Scopes.symbols], fun _ h => absurd h List.not_mem_nil⟩
  obtain ⟨ss', hss, hparts⟩ := parts_checkTop henv p.stmts hbare hm hlist
  obtain rfl : stmts = ss' := by simpa using hss
  exact ⟨functions, hdecl, hparts, rfl, rfl⟩

/-- The checker makes the same of two programs with the same functions and the same script. -/
theorem Program.check_parts_eq {p q : Program} {c d : Checked} (hfunctions : p.functions = q.functions)
    (hscript : p.script = q.script) (hc : p.check = .ok c) (hd : q.check = .ok d) :
    c.program.functions = d.program.functions ∧ c.program.script = d.program.script := by
  obtain ⟨functions, hdecl, hparts, -⟩ := Program.check_parts hc
  obtain ⟨functions', hdecl', hparts', -⟩ := Program.check_parts hd
  rw [hfunctions, hdecl'] at hdecl
  cases hdecl
  have hfun : List.Forall₂ (ChecksFunction _) p.functions c.program.functions := hparts.functions
  have hs : ChecksScript _ _ p.script c.program.script := hparts.script
  rw [hfunctions] at hfun
  rw [hscript] at hs
  refine ⟨?_, hs.unique hparts'.script (Akin.refl _)⟩
  exact Relator.RightUnique.forall₂ (fun _ _ _ h h' => h.unique h') hfun hparts'.functions

/-! ## Generating code -/

/-- Two outcomes that are equal, or two failures with one code. -/
inductive Agrees {α : Type} : Except Diagnostic α → Except Diagnostic α → Prop where
  | ok (a : α) : Agrees (.ok a) (.ok a)
  | error {d e : Diagnostic} (h : d.code = e.code) : Agrees (.error d) (.error e)

theorem Agrees.refl {α : Type} (r : Except Diagnostic α) : Agrees r r := by
  cases r with
  | ok a => exact .ok a
  | error d => exact .error rfl

theorem Agrees.bind {α β : Type} {r r' : Except Diagnostic α} {f g : α → Except Diagnostic β}
    (h : Agrees r r') (hf : ∀ a, Agrees (f a) (g a)) : Agrees (r >>= f) (r' >>= g) := by
  cases h with
  | ok a => exact hf a
  | error h => exact .error h

namespace Emit

open ClassFile

/-- Steps of which the outcomes agree, wherever they start. -/
def Parallel {α : Type} (x y : Emit α) : Prop := ∀ env s, Agrees (x env s) (y env s)

section Parallel

variable {α β : Type} {x y : Emit α}

theorem Parallel.refl (x : Emit α) : Parallel x x := fun env s => .refl (x env s)

theorem Parallel.bind {f g : α → Emit β} (h : Parallel x y) (hf : ∀ a, Parallel (f a) (g a)) :
    Parallel (x >>= f) (y >>= g) :=
  fun env s => (h env s).bind fun p => hf p.1 env p.2

/-- Steps that begin alike. -/
theorem Parallel.after {f g : α → Emit β} (hf : ∀ a, Parallel (f a) (g a)) :
    Parallel (x >>= f) (x >>= g) :=
  (Parallel.refl x).bind hf

theorem parallel_reject (e : EmitError) (t t' : Token) : Parallel (reject e t : Emit α) (reject e t') :=
  fun _ _ => .error rfl

variable (tok tok' : Token)

theorem parallel_finish : Parallel (finish tok) (finish tok') := by
  refine Parallel.after fun _ => Parallel.after fun c => ?_
  cases c.error with
  | none => exact .refl _
  | some e => exact parallel_reject _ _ _

theorem parallel_inMethod (access : Access) (name desc : String) {steps steps' : Emit Unit}
    (h : Parallel steps steps') :
    Parallel (inMethod access name desc tok steps) (inMethod access name desc tok' steps') := by
  refine Parallel.after fun s => Parallel.after fun s' => ?_
  cases pushMethod s'.methods access name desc with
  | error e => exact parallel_reject _ _ _
  | ok methods =>
    exact Parallel.after fun _ => Parallel.after fun _ => h.bind fun _ => .refl _

/-- A method without parameters looks at its tokens only to report failures. -/
theorem parallel_method (access : List Access) (name : String) (result : Ty) (steps : Emit Unit) :
    Parallel (method access name [] result tok [] tok steps)
      (method access name [] result tok' [] tok' steps) := by
  have hroutine : Parallel (routine [] result tok steps) (routine [] result tok' steps) := by
    refine Parallel.after fun _ => Parallel.after fun _ => Parallel.after fun c => ?_
    have hfinish := parallel_finish tok tok'
    cases c.reachable with
    | true =>
      by_cases hresult : result = .unit
      · simp only [hresult, if_true]
        exact Parallel.after fun _ => hfinish
      · simp only [hresult, if_true, if_false]
        exact Parallel.after fun _ => hfinish
    | false => exact hfinish
  exact parallel_inMethod tok tok' _ _ _ hroutine

end Parallel

/-- The methods of a class, of which the script comes first. -/
theorem parallel_allMethods {p q : Program} (hfunctions : p.functions = q.functions)
    (hscript : p.script = q.script) : Parallel (allMethods p) (allMethods q) := by
  have hmethod : Parallel (scriptMethod p) (scriptMethod q) := by
    unfold scriptMethod
    rw [hscript]
    exact parallel_method _ _ _ _ _ _
  unfold allMethods
  rw [hfunctions]
  exact Parallel.after fun _ => Parallel.after fun _ => hmethod.bind fun _ => .refl _

end Emit

theorem Generator.agrees_classOf (g : Generator) {c d : Checked} (hfile : c.program.file = d.program.file)
    (hreach : c.functions = d.functions) (hfunctions : c.program.functions = d.program.functions)
    (hscript : c.program.script = d.program.script) : Agrees (g.classOf c) (g.classOf d) := by
  unfold Generator.classOf
  dsimp only
  rw [hreach, hfunctions, hfile]
  exact (Emit.parallel_allMethods hfunctions hscript _ _).bind fun _ => .refl _

/-! ## Programs -/

/-- Two programs with the same functions and the same script, between which the functions may stand
anywhere: if both are accepted, the checker makes the same of both parts, their classes are equal or fail
with one code, and they run alike, however long. -/
theorem Program.check_interleaved {p q : Program} {c d : Checked} (hfile : p.file = q.file)
    (hfunctions : p.functions = q.functions) (hscript : p.script = q.script)
    (hc : p.check = .ok c) (hd : q.check = .ok d) :
    (c.program.functions = d.program.functions ∧ c.program.script = d.program.script) ∧
      (∀ g : Generator, Agrees (g.generate c).1 (g.generate d).1) ∧
      c.run = d.run ∧ ∀ fuel, c.runWith fuel = d.runWith fuel := by
  obtain ⟨hfun, hscr⟩ := Program.check_parts_eq hfunctions hscript hc hd
  obtain ⟨_, -, -, hreach, hfile'⟩ := Program.check_parts hc
  obtain ⟨_, -, -, hreach', hfile''⟩ := Program.check_parts hd
  have hcfile : c.program.file = d.program.file := hfile'.trans (hfile.trans hfile''.symm)
  have hcreach : c.functions = d.functions := hreach.trans (hfun.trans hreach'.symm)
  have hrun (fuel : Nat) : c.runWith fuel = d.runWith fuel := by
    unfold Checked.runWith
    rw [hcreach, hscr, hcfile]
  refine ⟨⟨hfun, hscr⟩, fun g => ?_, hrun _, hrun⟩
  unfold Generator.generate
  cases g.used with
  | true => exact .refl _
  | false => exact g.agrees_classOf hcfile hcreach hfun hscr

/-- The program with its functions in front of its script. -/
def Program.functionsFirst (p : Program) : Program :=
  { p with stmts := p.functions.map .function ++ p.script }

theorem Program.functions_functionsFirst (p : Program) : p.functionsFirst.functions = p.functions := by
  have hfun (fs : List FunDecl) : functionsOf (fs.map .function) = fs := by
    induction fs with
    | nil => rfl
    | cons f fs ih => exact congrArg (f :: ·) ih
  have hscript (ss : List Stmt) : functionsOf (scriptOf ss) = [] := by
    simp only [functionsOf, scriptOf, List.filterMap_eq_nil_iff, List.mem_filter]
    rintro st ⟨-, hst⟩
    cases st with
    | function f => cases hst
    | _ => rfl
  change functionsOf (p.functions.map .function ++ scriptOf p.stmts) = p.functions
  rw [functionsOf, List.filterMap_append]
  change functionsOf _ ++ functionsOf _ = _
  rw [hfun, hscript, List.append_nil]

theorem Program.script_functionsFirst (p : Program) : p.functionsFirst.script = p.script := by
  change scriptOf (p.functions.map .function ++ scriptOf p.stmts) = scriptOf p.stmts
  simp [scriptOf, List.filter_append]

/-- A function that is declared between its calls, and in front of them. -/
theorem Program.check_interleaved_hoisted : ∃ (p : Program) (c d : Checked),
    p.OfText ("val a = twice(2)\nfun twice(n: Int): Int \x7b val m = n; return n + m \x7d\n" ++
      "println(a)\nprintln(twice(a))").toList ∧
      p.stmts.map Stmt.tok ≠ p.functionsFirst.stmts.map Stmt.tok ∧
      p.check = .ok c ∧ p.functionsFirst.check = .ok d ∧
      Agrees ((Generator.start "Main").generate c).1 ((Generator.start "Main").generate d).1 ∧
      c.run = d.run := by
  have hrun : (Program.ofText? ("val a = twice(2)\nfun twice(n: Int): Int \x7b val m = n; return n + m \x7d\n" ++
      "println(a)\nprintln(twice(a))").toList).map (fun p =>
        (decide (p.stmts.map Stmt.tok = p.functionsFirst.stmts.map Stmt.tok),
          p.check.toOption.isSome, p.functionsFirst.check.toOption.isSome)) = some (false, true, true) := by
    decide +kernel
  obtain ⟨p, hp, hrun⟩ := Option.map_eq_some_iff.mp hrun
  simp only [Prod.mk.injEq, decide_eq_false_iff_not] at hrun
  obtain ⟨hmoved, hok, hok'⟩ := hrun
  cases hc : p.check with
  | error e => rw [hc] at hok; cases hok
  | ok c =>
    cases hd : p.functionsFirst.check with
    | error e => rw [hd] at hok'; cases hok'
    | ok d =>
      have hfile : p.file = p.functionsFirst.file := rfl
      have hsame := Program.check_interleaved hfile p.functions_functionsFirst.symm
        p.script_functionsFirst.symm hc hd
      exact ⟨p, c, d, Program.ofText_of_eq_some hp, hmoved, hc, hd, hsame.2.1 _, hsame.2.2.1⟩

end Kotlet

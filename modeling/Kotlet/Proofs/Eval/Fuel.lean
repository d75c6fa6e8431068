import Kotlet.Proofs.Eval.Typed

/-!
# More fuel

A run takes as much fuel as its evaluation is deep. What it comes to does not depend on how much fuel
there was, as long as there was enough.

* `Fault.IsShort` : the fuel ran out;
* `Eval.Outlasts` : steps that do what other steps do, unless those run out of fuel;
* `Outlasts.bind` and its kin, then one lemma for each operation that is given how to run its parts;
* `Eval.outlasts_expr_stmt` : expressions and statements with more fuel, by induction on the fuel;
* `Checked.runWith_of_le`, `Checked.runWith_eq`, `Checked.run_eq_runWith` : whole programs.
-/

namespace Kotlet

/-- The run took more steps than it was given. -/
def Fault.IsShort (f : Fault) : Prop := f.message = Fault.Cause.outOfFuel.message

/-- A trace changes nothing about it. -/
theorem Fault.IsShort.traced {f : Fault} (h : f.IsShort) (calls : List Frame) :
    (f.traced calls).IsShort := by
  unfold Fault.traced
  split
  · exact h
  · exact h

namespace Eval

variable {α β : Type}

/-- Run from any machine, the steps `y` do what `x` does, unless `x` runs out of fuel. -/
def Outlasts (y x : Eval α) : Prop :=
  ∀ m, (∃ f m', x m = .error f m' ∧ f.IsShort) ∨ y m = x m

section Outlasts

variable {x y z : Eval α}

theorem Outlasts.refl (x : Eval α) : Outlasts x x := fun _ => .inr rfl

theorem outlasts_fail (tok : Token) : Outlasts x (fail .outOfFuel tok) :=
  fun _ => .inl ⟨_, _, rfl, rfl⟩

/-- The later steps are compared only where the first ones are not short of fuel. -/
theorem Outlasts.bind {f g : α → Eval β} (h : Outlasts y x) (hf : ∀ a, Outlasts (g a) (f a)) :
    Outlasts (y >>= g) (x >>= f) := by
  intro m
  change (∃ e m', EStateM.bind x f m = .error e m' ∧ e.IsShort) ∨
    EStateM.bind y g m = EStateM.bind x f m
  unfold EStateM.bind
  rcases h m with ⟨e, m', hx, he⟩ | hy
  · rw [hx]
    exact .inl ⟨e, m', rfl, he⟩
  · rw [hy]
    cases x m with
    | ok a m' => exact hf a m'
    | error e m' => exact .inr rfl

theorem Outlasts.ite {c : Prop} [Decidable c] {x' y' : Eval α} (h : c → Outlasts y x)
    (h' : ¬ c → Outlasts y' x') : Outlasts (if c then y else y') (if c then x else x') := by
  split
  · rename_i hc
    exact h hc
  · rename_i hc
    exact h' hc

/-- A check that must be passed to go on. -/
theorem Outlasts.unless {c : Prop} [Decidable c] {u : Eval Unit} {f g : Unit → Eval α}
    (h : ∀ a, Outlasts (g a) (f a)) :
    Outlasts (if c then u >>= g else g ()) (if c then u >>= f else f ()) :=
  Outlasts.ite (fun _ => (Outlasts.refl u).bind h) fun _ => h ()

theorem Outlasts.traced (h : Outlasts y x) : Outlasts (traced y) (traced x) := by
  intro m
  rw [traced_eq, traced_eq]
  rcases h m with ⟨e, m', hx, he⟩ | hy
  · rw [hx]
    exact .inl ⟨_, m', rfl, he.traced _⟩
  · rw [hy]
    exact .inr rfl

theorem Outlasts.finally (h : Outlasts y x) (f : Machine → Machine) :
    Outlasts (tryFinally y (modify f)) (tryFinally x (modify f)) := by
  intro m
  rw [finally_modify, finally_modify]
  rcases h m with ⟨e, m', hx, he⟩ | hy
  · rw [hx]
    exact .inl ⟨e, f m', rfl, he⟩
  · rw [hy]
    exact .inr rfl

theorem Outlasts.inCall (h : Outlasts y x) (frame : Frame) (vars : Activation)
    (params : List Param) (args : List Value) (tok : Token) :
    Outlasts (inCall frame vars params args tok y) (inCall frame vars params args tok x) := by
  unfold Eval.inCall
  refine Outlasts.unless fun _ => (Outlasts.refl _).bind fun _ => (Outlasts.refl _).bind fun _ => ?_
  refine Outlasts.finally ((Outlasts.refl _).bind fun _ => (Outlasts.refl _).bind fun _ => ?_) _
  refine Outlasts.finally ((Outlasts.refl _).bind fun _ => ?_) _
  rw [onFreshStack_eq, onFreshStack_eq]
  exact h.traced

end Outlasts

/-! ## Loops -/

section Loops

variable {body body' : Eval Flow}

theorem Outlasts.turn (h : Outlasts body' body) : Outlasts (turn body') (turn body) :=
  h.bind fun _ => .refl _

theorem outlasts_whileLoop {tok : Token} {cond cond' : Eval Bool} (hc : Outlasts cond' cond)
    (hb : Outlasts body' body) (n : Nat) : ∀ k, n ≤ k →
      Outlasts (whileLoop tok cond' body' k) (whileLoop tok cond body n) := by
  induction n with
  | zero => exact fun _ _ => outlasts_fail tok
  | succ n ih =>
    intro k hk
    obtain ⟨k, rfl⟩ : ∃ j, k = j + 1 := ⟨k - 1, by omega⟩
    refine hc.bind fun _ => Outlasts.ite (fun _ => hb.turn.bind fun o => ?_) fun _ => .refl _
    cases o with
    | none => exact ih k (by omega)
    | some flow => exact .refl _

theorem outlasts_rangeLoop (hb : Outlasts body' body) (id : SymbolId) (last step : Int32)
    (n : Int64) : Outlasts (rangeLoop id last step body' n) (rangeLoop id last step body n) := by
  induction n using rangeLoop.induct last step with
  | case1 n hn ih =>
    unfold rangeLoop
    rw [if_pos hn, if_pos hn]
    refine (Outlasts.refl _).bind fun _ => hb.turn.bind fun o => ?_
    cases o with
    | none => exact ih
    | some flow => exact .refl _
  | case2 n hn =>
    unfold rangeLoop
    rw [if_neg hn, if_neg hn]
    exact .refl _

theorem outlasts_elementLoop (hb : Outlasts body' body) (id : SymbolId) (a count : Nat) :
    ∀ i, Outlasts (elementLoop id a body' count i) (elementLoop id a body count i) := by
  induction count with
  | zero => exact fun _ => .refl _
  | succ count ih =>
    intro i
    refine (Outlasts.refl _).bind fun _ => (Outlasts.refl _).bind fun _ => hb.turn.bind fun o => ?_
    cases o with
    | none => exact ih (i + 1)
    | some flow => exact .refl _

end Loops

/-! ## Operations that run their parts -/

section Parts

variable {functions : List FunDecl} {run run' : Expr → Eval Value}

theorem outlasts_generate {body body' : Eval Value} (hb : Outlasts body' body) (param : SymbolId)
    (count : Nat) : ∀ i acc,
      Outlasts (generate param body' count i acc) (generate param body count i acc) := by
  induction count with
  | zero => exact fun _ _ => .refl _
  | succ count ih =>
    exact fun i acc => (Outlasts.refl _).bind fun _ => hb.bind fun v => ih (i + 1) (acc.push v)

theorem outlasts_sequence {steps steps' : Stmt → Eval Flow}
    (h : ∀ s, Outlasts (steps' s) (steps s)) (ss : List Stmt) :
    Outlasts (sequence steps' ss) (sequence steps ss) := by
  induction ss with
  | nil => exact .refl _
  | cons s ss ih =>
    refine (h s).bind fun flow => ?_
    cases flow with
    | next => exact ih
    | _ => exact .refl _

variable (hrun : ∀ e, Outlasts (run' e) (run e))
include hrun

theorem outlasts_element (base : Ident) (index : Expr) :
    Outlasts (element functions run' base index) (element functions run base index) :=
  (Outlasts.refl _).bind fun _ => (hrun index).bind fun _ => .refl _

theorem outlasts_interpolate (tok : Token) : ∀ (splices : List Splice) (pos : Nat)
    (rest : List Char) (acc : String),
      Outlasts (interpolate run' tok pos rest acc splices) (interpolate run tok pos rest acc splices)
  | [], _, _, _ => .refl _
  | .mk _ e :: splices, _, _, _ => by
    unfold interpolate
    exact Outlasts.unless fun _ => (hrun e).bind fun _ => (Outlasts.refl _).bind fun _ =>
      outlasts_interpolate tok splices _ _ _

theorem outlasts_values (es : List Expr) :
    ∀ acc, Outlasts (values run' acc es) (values run acc es) := by
  induction es with
  | nil => exact fun _ => .refl _
  | cons e es ih => exact fun acc => (hrun e).bind fun v => ih (acc.push v)

theorem outlasts_bound (e : Expr) : Outlasts (bound run' e) (bound run e) :=
  (hrun e).bind fun _ => .refl _

theorem outlasts_incDec : ∀ e : IncDec,
    Outlasts (incDec functions run' e) (incDec functions run e)
  | .mk _ _ _ (.name _) => .refl _
  | .mk _ _ _ (.element _ base index) => (outlasts_element hrun base index).bind fun _ => .refl _

theorem outlasts_apply {runStmts runStmts' : List Stmt → Eval Flow}
    (hstmts : ∀ ss, Outlasts (runStmts' ss) (runStmts ss)) (name : String) (tok : Token)
    (callee : Value) (args : List Value) :
    Outlasts (apply runStmts' run' name tok callee args) (apply runStmts run name tok callee args) := by
  refine (Outlasts.refl _).bind fun _ => Outlasts.unless fun _ => ?_
  cases callee with
  | function f => exact ((hstmts f.body.stmts).inCall _ _ _ _ _).bind fun _ => .refl _
  | closure l captured => exact ((hrun l.body).inCall _ _ _ _ _).bind fun _ => .refl _
  | _ => exact .refl _

end Parts

/-! ## Expressions and statements -/

section Fuel

variable {functions : List FunDecl} {n k : Nat}
  (hexpr : ∀ e, Outlasts (expr functions k e) (expr functions n e))
  (hstmt : ∀ s, Outlasts (stmt functions k s) (stmt functions n s))
include hexpr hstmt

theorem outlasts_expr_succ (e : Expr) :
    Outlasts (expr functions (k + 1) e) (expr functions (n + 1) e) := by
  unfold expr
  cases e with
  | int m n => exact .refl _
  | bool m b => exact .refl _
  | str m text splices =>
    cases splices with
    | nil => exact .refl _
    | cons s splices => exact (outlasts_interpolate hexpr _ _ _ _ _).bind fun _ => .refl _
  | read target =>
    cases target with
    | name id => exact .refl _
    | element m base index => exact (outlasts_element hexpr base index).bind fun _ => .refl _
  | arith m op a b => exact (hexpr a).bind fun _ => (hexpr b).bind fun _ => .refl _
  | compare m op a b => exact (hexpr a).bind fun _ => (hexpr b).bind fun _ => .refl _
  | logic m op a b =>
    refine (hexpr a).bind fun _ => (Outlasts.refl _).bind fun _ => ?_
    refine Outlasts.ite (fun _ => .refl _) fun _ => Outlasts.ite (fun _ => .refl _) fun _ => ?_
    exact (hexpr b).bind fun _ => .refl _
  | not m e => exact (hexpr e).bind fun _ => .refl _
  | incDec e => exact outlasts_incDec hexpr e
  | collection m kind es => exact (outlasts_values hexpr es #[]).bind fun _ => .refl _
  | sized m kind size gen =>
    refine (hexpr size).bind fun v => ?_
    cases v with
    | int count =>
      refine Outlasts.unless fun _ => ?_
      cases gen.params with
      | nil => exact .refl _
      | cons p ps =>
        exact (Outlasts.refl _).bind fun param =>
          (outlasts_generate (hexpr gen.body) param.id _ 0 #[]).bind fun _ => .refl _
    | _ => exact .refl _
  | lambda l => exact .refl _
  | call c =>
    obtain ⟨m, callee, args⟩ := c
    exact (Outlasts.refl _).bind fun f => (outlasts_values hexpr args #[]).bind fun vs =>
      outlasts_apply hexpr (outlasts_sequence hstmt) _ _ f vs.toList
  | range r => exact .refl _

theorem outlasts_stmt_succ (hle : n ≤ k) (s : Stmt) :
    Outlasts (stmt functions (k + 1) s) (stmt functions (n + 1) s) := by
  have hblock (b : Block) : Outlasts (sequence (stmt functions k) b.stmts)
      (sequence (stmt functions n) b.stmts) := outlasts_sequence hstmt b.stmts
  unfold stmt
  cases s with
  | decl m isMutable name ty value =>
    refine (Outlasts.refl _).bind fun sym => ?_
    cases value with
    | none => exact .refl _
    | some v => exact (hexpr v).bind fun _ => .refl _
  | assign m target v =>
    cases target with
    | name id => exact (Outlasts.refl _).bind fun _ => (hexpr v).bind fun _ => .refl _
    | element em base index =>
      exact (outlasts_element hexpr base index).bind fun _ => (hexpr v).bind fun _ => .refl _
  | compound tok target op v =>
    cases target with
    | name id =>
      exact (Outlasts.refl _).bind fun _ => (Outlasts.refl _).bind fun _ =>
        (hexpr v).bind fun _ => .refl _
    | element em base index =>
      exact (outlasts_element hexpr base index).bind fun _ => (Outlasts.refl _).bind fun _ =>
        (hexpr v).bind fun _ => .refl _
  | selfOp m e => exact (outlasts_incDec hexpr e).bind fun _ => .refl _
  | print m newline value =>
    cases value with
    | none => exact .refl _
    | some v => exact (hexpr v).bind fun _ => .refl _
  | ifElse m c a b =>
    refine (hexpr c).bind fun _ => (Outlasts.refl _).bind fun _ => ?_
    refine Outlasts.ite (fun _ => hblock a) fun _ => ?_
    cases b with
    | none => exact .refl _
    | some b => exact hblock b
  | whileLoop tok c body =>
    exact outlasts_whileLoop ((hexpr c).bind fun _ => .refl _) (hblock body) n k hle
  | forLoop m x header body =>
    cases header with
    | range r =>
      obtain ⟨rm, first, last, step⟩ := r
      refine (Outlasts.refl _).bind fun sym => (outlasts_bound hexpr first).bind fun a =>
        (outlasts_bound hexpr last).bind fun b => ?_
      cases step with
      | none => exact outlasts_rangeLoop (hblock body) sym.id b 1 a.toInt64
      | some e =>
        refine (outlasts_bound hexpr e).bind fun c => Outlasts.unless fun _ => ?_
        exact outlasts_rangeLoop (hblock body) sym.id b c a.toInt64
    | each e =>
      refine (Outlasts.refl _).bind fun sym => (hexpr e).bind fun v => ?_
      cases v with
      | collection kind a =>
        exact (Outlasts.refl _).bind fun count =>
          outlasts_elementLoop (hblock body) sym.id a count 0
      | _ => exact .refl _
  | function f => exact .refl _
  | call m c => exact (hexpr (.call c)).bind fun _ => .refl _
  | ret m value =>
    cases value with
    | none => exact .refl _
    | some v => exact (hexpr v).bind fun _ => .refl _
  | brk m => exact .refl _
  | cont m => exact .refl _
  | block b => exact hblock b

end Fuel

/-- More fuel changes nothing but evaluations that had too little. -/
theorem outlasts_expr_stmt (functions : List FunDecl) (n : Nat) : ∀ k, n ≤ k →
    (∀ e, Outlasts (expr functions k e) (expr functions n e)) ∧
      ∀ s, Outlasts (stmt functions k s) (stmt functions n s) := by
  induction n with
  | zero =>
    refine fun k _ => ⟨fun e => ?_, fun s => ?_⟩
    · rw [show expr functions 0 e = fail .outOfFuel e.tok by unfold expr; rfl]
      exact outlasts_fail _
    · rw [show stmt functions 0 s = fail .outOfFuel s.tok by unfold stmt; rfl]
      exact outlasts_fail _
  | succ n ih =>
    intro k hk
    obtain ⟨k, rfl⟩ : ∃ j, k = j + 1 := ⟨k - 1, by omega⟩
    obtain ⟨hexpr, hstmt⟩ := ih k (by omega)
    exact ⟨outlasts_expr_succ hexpr hstmt, outlasts_stmt_succ hexpr hstmt (by omega)⟩

end Eval

/-! ## Whole programs -/

namespace Checked

variable {c : Checked} {n k : Nat}

/-- The fuel was enough for the whole run. -/
def Lasts (c : Checked) (n : Nat) : Prop :=
  ∀ f m, Eval.sequence (Eval.stmt c.functions n) c.program.script .start = .error f m → ¬ f.IsShort

/-- A run with enough fuel comes to the same with more of it. -/
theorem runWith_of_le (h : c.Lasts n) (hle : n ≤ k) : c.Lasts k ∧ c.runWith k = c.runWith n := by
  have hstmt := (Eval.outlasts_expr_stmt c.functions n k hle).2
  rcases Eval.outlasts_sequence hstmt c.program.script .start with ⟨f, m, hx, hf⟩ | heq
  · exact absurd hf (h f m hx)
  · refine ⟨fun f m hx => h f m (heq ▸ hx), ?_⟩
    unfold runWith
    rw [heq]

/-- All runs with enough fuel come to the same. -/
theorem runWith_eq (hn : c.Lasts n) (hk : c.Lasts k) : c.runWith n = c.runWith k := by
  rcases Nat.le_total n k with hle | hle
  · exact (runWith_of_le hn hle).2.symm
  · exact (runWith_of_le hk hle).2

/-- A run that ends well had enough. -/
theorem lasts_of_runWith (h : (c.runWith n).failure = none) : c.Lasts n := by
  intro f m hx
  unfold runWith at h
  rw [hx] at h
  cases h

/-- What a program comes to is what any run with enough fuel shows. -/
theorem run_eq_runWith (h : c.Lasts n) (hle : n ≤ Eval.ampleFuel) : c.run = c.runWith n :=
  (runWith_of_le h hle).2

end Checked

end Kotlet

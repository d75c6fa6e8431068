import Kotlet.Proofs.Eval.Typed

/-!
# Runs that are watched

The evaluator keeps the values of variables, but not how they came about, and the active calls, but
not those of the steps before. Here it runs with an account of both.

* `Event` : what a run does to variables, with the calls that it makes;
* `Watched` : steps of the evaluator with the events they cause, and the calls active at each step;
* `Watched.expr`, `Watched.stmt` : expressions and statements, step by step as in `Eval.expr` and
  `Eval.stmt`;
* `Checked.watched`, `Checked.events` : a whole program;
* `Watched.run_stmt`, `Checked.run_watched` : being watched changes nothing about a run.

Parameters, loop variables and the index of a generator get their values without an event: they
are no declarations, and nothing else may store to them.
-/

namespace Kotlet

/-- What a run does in one activation: a declaration gives a variable its first value, an assignment
stores to one, a compound assignment, `++` or `--` stores to one, and a function or a closure is
called, with what happens in its activation. -/
inductive Event where
  | declared (id : SymbolId) (constant initialized : Bool)
  | assigned (id : SymbolId)
  | updated (id : SymbolId)
  | called (name : String) (events : List Event)
  | applied (events : List Event)
  deriving Inhabited

/-- Steps of a running program, the events that they cause from each machine on, and the calls that
are active where each step starts, in the order of the steps. Where the run fails, the last of these are
the calls active at the step that failed. -/
structure Watched (α : Type) where
  run : Eval α
  events : Machine → List Event
  active : Machine → List (List Frame)

namespace Watched

variable {α β : Type}

/-- A step without events. It makes no call. -/
def silent (x : Eval α) : Watched α := ⟨x, fun _ => [], fun m => [m.calls]⟩

instance : MonadLift Eval Watched := ⟨silent⟩

instance : Monad Watched where
  pure a := silent (pure a)
  bind x f :=
    ⟨x.run >>= fun a => (f a).run,
      fun m => x.events m ++
        match x.run m with
        | .ok a m' => (f a).events m'
        | .error _ _ => [],
      fun m => x.active m ++
        match x.run m with
        | .ok a m' => (f a).active m'
        | .error _ _ => []⟩

/-- An event. -/
def tell (e : Event) : Watched Unit := ⟨pure (), fun _ => [e], fun _ => []⟩

/-- Gives a variable a value, as an event says. -/
def put (e : Event) (id : SymbolId) (v : Value) : Watched Unit := do
  tell e
  Eval.assign id v

/-- Steps in an activation of their own. -/
def activation (event : List Event → Event) (x : Watched α) : Watched α :=
  ⟨x.run, fun m => [event (x.events m)], x.active⟩

/-- Steps whose failures are traced. -/
def traced (x : Watched α) : Watched α := ⟨Eval.traced x.run, x.events, x.active⟩

/-- Steps after which the machine is changed, however they end. -/
def ending (f : Machine → Machine) (x : Watched α) : Watched α :=
  ⟨tryFinally x.run (modify f), x.events, x.active⟩

/-- Steps on a stack of their own. -/
def onFreshStack (fresh : Bool) (x : Watched α) : Watched α :=
  ⟨Eval.onFreshStack fresh x.run, x.events, x.active⟩

/-! ## Pieces of expressions -/

/-- The address and the index of an element. -/
def element (functions : List FunDecl) (run : Expr → Watched Value) (base : Ident) (index : Expr) :
    Watched (Nat × Int32) := do
  let c ← Eval.read functions base
  match ← run index with
  | .int i =>
    match c with
    | .collection _ a => return (a, i)
    | .null => Eval.fail (.isNull base.name) base.tok
    | c => Eval.fail (.notIndexable base.name c.typeName) base.tok
  | v => Eval.fail (.badIndex v.typeName) index.tok

/-- The text of a string literal. -/
def interpolate (run : Expr → Watched Value) (tok : Token) (pos : Nat) (rest : List Char)
    (acc : String) : List Splice → Watched String
  | [] => return acc ++ String.ofList rest
  | .mk offset e :: splices => do
    if offset < pos ∨ pos + rest.length < offset then Eval.fail (.badOffset offset) tok
    let step := (offset - pos).toNat
    let v ← run e
    let text ← Eval.shown tok v
    interpolate run tok (pos + step) (rest.drop step)
      (acc ++ String.ofList (rest.take step) ++ text) splices

/-- The elements that a generator computes. -/
def generate (param : SymbolId) (body : Watched Value) :
    Nat → Nat → Array Value → Watched (Array Value)
  | 0, _, acc => return acc
  | count + 1, i, acc => do
    Eval.assign param (.int (Int32.ofNat i))
    let v ← body
    generate param body count (i + 1) (acc.push v)

/-- The values of expressions in order. -/
def values (run : Expr → Watched Value) (acc : Array Value) : List Expr → Watched (Array Value)
  | [] => return acc
  | e :: es => do
    let v ← run e
    values run (acc.push v) es

/-- A bound of a range. -/
def bound (run : Expr → Watched Value) (e : Expr) : Watched Int32 := do
  match ← run e with
  | .int n => return n
  | v => Eval.fail (.badBound v.typeName) e.tok

/-- `++` or `--`. -/
def incDec (functions : List FunDecl) (run : Expr → Watched Value) : IncDec → Watched Value
  | .mk m op before target => do
    let delta : Int32 := if op = "--" then -1 else 1
    match target with
    | .name id =>
      let sym ← Eval.symbolOf id
      match ← Eval.variableOf id sym with
      | .int n =>
        put (.updated sym.id) sym.id (.int (n + delta))
        return .int (if before then n + delta else n)
      | v => Eval.fail (.badOperand op v.typeName) m.tok
    | .element em base index =>
      let (a, i) ← element functions run base index
      let i ← Eval.position em.tok a i
      match ← Eval.load a i with
      | .int n =>
        Eval.store a i (.int (n + delta))
        return .int (if before then n + delta else n)
      | v => Eval.fail (.badOperand op v.typeName) m.tok

/-! ## Loops and calls -/

/-- Statements until one of them does not go on. -/
def sequence (run : Stmt → Watched Flow) : List Stmt → Watched Flow
  | [] => return .next
  | s :: ss => do
    match ← run s with
    | .next => sequence run ss
    | f => return f

/-- Whether a loop goes on after a turn, and how it ends otherwise. -/
def turn (body : Watched Flow) : Watched (Option Flow) := do
  match ← body with
  | .broke => return some .next
  | .returned v => return some (.returned v)
  | _ => return none

/-- Repeats a body while a condition holds. -/
def whileLoop (tok : Token) (cond : Watched Bool) (body : Watched Flow) : Nat → Watched Flow
  | 0 => Eval.fail .outOfFuel tok
  | fuel + 1 => do
    if ← cond then
      match ← turn body with
      | some f => return f
      | none => whileLoop tok cond body fuel
    else return .next

/-- Repeats a body for the numbers of a range. -/
def rangeLoop (id : SymbolId) (last step : Int32) (body : Watched Flow) (n : Int64) : Watched Flow :=
  if 0 < step ∧ n ≤ last.toInt64 then do
    Eval.assign id (.int n.toInt32)
    match ← turn body with
    | some f => return f
    | none => rangeLoop id last step body (n + step.toInt64)
  else return .next
termination_by (last.toInt + 1 - n.toInt).toNat
decreasing_by exact Eval.range_decreases (And.left ‹_›) (And.right ‹_›)

/-- Repeats a body for the elements of a collection. -/
def elementLoop (id : SymbolId) (address : Nat) (body : Watched Flow) : Nat → Nat → Watched Flow
  | 0, _ => return .next
  | count + 1, i => do
    Eval.assign id (← Eval.load address i)
    match ← turn body with
    | some f => return f
    | none => elementLoop id address body count (i + 1)

/-- Runs the body of a call in variables of its own. -/
def inCall (event : List Event → Event) (frame : Frame) (vars : Activation) (params : List Param)
    (args : List Value) (tok : Token) (body : Watched α) : Watched α := do
  if params.length ≠ args.length then
    Eval.fail (.argumentCount params.length args.length) tok
  let outer := (← (get : Eval Machine)).vars
  (modify fun m => { m with vars := vars } : Eval Unit)
  ending (fun m => { m with vars := outer }) do
    Eval.bindParams params args
    (modify fun m => { m with calls := frame :: m.calls } : Eval Unit)
    ending (fun m => { m with calls := m.calls.tail }) do
      let depth := (← (get : Eval Machine)).depth
      traced (onFreshStack (depth % Eval.callsPerStack = 0) (activation event body))

/-- Calls a value. -/
def apply (runStmts : List Stmt → Watched Flow) (run : Expr → Watched Value) (name : String)
    (tok : Token) (callee : Value) (args : List Value) : Watched Value := do
  if Machine.maxDepth ≤ (← (get : Eval Machine)).depth then traced (Eval.fail .stackOverflow tok)
  match callee with
  | .function f =>
    match ← inCall (.called f.name.name) ⟨f.name.name, tok.line, tok.col⟩ ∅ f.params args tok
        (runStmts f.body.stmts) with
    | .returned v => return v
    | _ => if f.result = .unit then return .unit else Eval.fail .missingReturn f.body.close
  | .closure l captured =>
    let v ← inCall .applied ⟨name, tok.line, tok.col⟩ (.ofList captured) l.params args tok
      (run l.body)
    match l.mark.ty with
    | some (.fn _ (some t)) => return if t = .unit then .unit else v
    | _ => return v
  | .null => Eval.fail (.isNull name) tok
  | v => Eval.fail (.notCallable name v.typeName) tok

/-! ## Expressions and statements -/

mutual

/-- The value of an expression. -/
def expr (functions : List FunDecl) : Nat → Expr → Watched Value
  | 0, e => Eval.fail .outOfFuel e.tok
  | fuel + 1, e => do
    match e with
    | .int _ n => return .int n
    | .bool _ b => return .bool b
    | .str _ text [] => return .string text
    | .str m text splices =>
      return .string (← interpolate (expr functions fuel) m.tok 0 text.toList "" splices)
    | .read (.name id) => Eval.read functions id
    | .read (.element m base index) =>
      let (a, i) ← element functions (expr functions fuel) base index
      Eval.load a (← Eval.position m.tok a i)
    | .arith m op l r =>
      let a ← expr functions fuel l
      let b ← expr functions fuel r
      Eval.arithmetic m.tok op a b
    | .compare m op l r =>
      let a ← expr functions fuel l
      let b ← expr functions fuel r
      Eval.comparison m.tok op a b
    | .logic _ op l r =>
      let a ← Eval.truth l.tok (← expr functions fuel l)
      if op = "&&" ∧ a = false then return .bool false
      if op = "||" ∧ a = true then return .bool true
      return .bool (← Eval.truth r.tok (← expr functions fuel r))
    | .not m x =>
      match ← expr functions fuel x with
      | .bool b => return .bool (!b)
      | v => Eval.fail (.badOperand "!" v.typeName) m.tok
    | .incDec x => incDec functions (expr functions fuel) x
    | .collection _ kind es =>
      Eval.allocate kind (← values (expr functions fuel) #[] es)
    | .sized m kind size gen =>
      match ← expr functions fuel size with
      | .int n =>
        if n < 0 then Eval.fail (.negativeSize n) m.tok
        match gen.params with
        | [] => Eval.fail (.argumentCount 0 1) m.tok
        | p :: _ =>
          let param ← Eval.symbolOf p.name
          let es ← generate param.id (expr functions fuel gen.body) n.toInt.toNat 0 #[]
          Eval.allocate kind es
      | v => Eval.fail (.badSize v.typeName) size.tok
    | .lambda l => return .closure l (← Eval.captureAll l.mark.tok l.captures)
    | .call (.mk m callee args) =>
      let f ← Eval.read functions callee
      let vs ← values (expr functions fuel) #[] args
      apply (sequence (stmt functions fuel)) (expr functions fuel) callee.name m.tok f vs.toList
    | .range r => Eval.fail .strayRange r.mark.tok

/-- How a statement ends. -/
def stmt (functions : List FunDecl) : Nat → Stmt → Watched Flow
  | 0, s => Eval.fail .outOfFuel s.tok
  | fuel + 1, s => do
    match s with
    | .decl _ isMutable name _ value =>
      let sym ← Eval.symbolOf name
      match value with
      | none => put (.declared sym.id (!isMutable) false) sym.id (.initial sym.ty)
      | some v =>
        let v ← expr functions fuel v
        put (.declared sym.id (!isMutable) true) sym.id v
      return .next
    | .assign _ (.name id) v =>
      let sym ← Eval.symbolOf id
      let v ← expr functions fuel v
      put (.assigned sym.id) sym.id v
      return .next
    | .assign _ (.element m base index) v =>
      let (a, i) ← element functions (expr functions fuel) base index
      let v ← expr functions fuel v
      Eval.store a (← Eval.position m.tok a i) v
      return .next
    | .compound tok (.name id) op v =>
      let sym ← Eval.symbolOf id
      let old ← Eval.variableOf id sym
      let v ← expr functions fuel v
      let v ← Eval.arithmetic tok (compoundOperator op) old v
      put (.updated sym.id) sym.id v
      return .next
    | .compound tok (.element m base index) op v =>
      let (a, i) ← element functions (expr functions fuel) base index
      let i ← Eval.position m.tok a i
      let v ← expr functions fuel v
      Eval.store a i (← Eval.arithmetic tok (compoundOperator op) (← Eval.load a i) v)
      return .next
    | .selfOp _ e =>
      let _ ← incDec functions (expr functions fuel) e
      return .next
    | .print tok newline value =>
      let text ←
        match value with
        | none => pure ""
        | some v => Eval.shown tok (← expr functions fuel v)
      Eval.emit (if newline then text ++ "\n" else text)
      return .next
    | .ifElse _ c a b =>
      if ← Eval.truth c.tok (← expr functions fuel c) then
        sequence (stmt functions fuel) a.stmts
      else
        match b with
        | none => return .next
        | some b => sequence (stmt functions fuel) b.stmts
    | .whileLoop tok c body =>
      whileLoop tok (do Eval.truth c.tok (← expr functions fuel c))
        (sequence (stmt functions fuel) body.stmts) fuel
    | .forLoop _ x (.range (.mk _ first last step)) body =>
      let sym ← Eval.symbolOf x
      let first ← bound (expr functions fuel) first
      let last ← bound (expr functions fuel) last
      let by_ ←
        match step with
        | none => pure 1
        | some s => do
          let n ← bound (expr functions fuel) s
          if n ≤ 0 then Eval.fail (.badStep n) s.tok
          pure n
      rangeLoop sym.id last by_ (sequence (stmt functions fuel) body.stmts) first.toInt64
    | .forLoop _ x (.each e) body =>
      let sym ← Eval.symbolOf x
      match ← expr functions fuel e with
      | .collection _ a =>
        elementLoop sym.id a (sequence (stmt functions fuel) body.stmts) (← Eval.length a) 0
      | v => Eval.fail (.notIterable v.typeName) e.tok
    | .function f => Eval.fail (.nestedFunction f.name.name) f.tok
    | .call _ c =>
      let _ ← expr functions fuel (.call c)
      return .next
    | .ret _ none => return .returned .unit
    | .ret _ (some v) => return .returned (← expr functions fuel v)
    | .brk _ => return .broke
    | .cont _ => return .continued
    | .block b => sequence (stmt functions fuel) b.stmts

end

/-! ## Being watched changes nothing -/

section Run

@[simp] theorem run_pure (a : α) : (pure a : Watched α).run = pure a := rfl

@[simp] theorem run_bind (x : Watched α) (f : α → Watched β) :
    (x >>= f).run = x.run >>= fun a => (f a).run := rfl

@[simp] theorem run_lift (x : Eval α) : (liftM x : Watched α).run = x := rfl

@[simp] theorem run_put (e : Event) (id : SymbolId) (v : Value) :
    (put e id v).run = Eval.assign id v := rfl

@[simp] theorem run_activation (event : List Event → Event) (x : Watched α) :
    (activation event x).run = x.run := rfl

@[simp] theorem run_traced (x : Watched α) : (traced x).run = Eval.traced x.run := rfl

@[simp] theorem run_ending (f : Machine → Machine) (x : Watched α) :
    (ending f x).run = tryFinally x.run (modify f) := rfl

@[simp] theorem run_onFreshStack (fresh : Bool) (x : Watched α) :
    (onFreshStack fresh x).run = Eval.onFreshStack fresh x.run := rfl

@[simp] theorem run_ite (c : Prop) [Decidable c] (x y : Watched α) :
    (if c then x else y).run = if c then x.run else y.run := apply_ite run c x y

variable {functions : List FunDecl} {run : Expr → Watched Value} {run' : Expr → Eval Value}
  (hrun : ∀ e, (run e).run = run' e)

include hrun

theorem run_element (base : Ident) (index : Expr) :
    (element functions run base index).run = Eval.element functions run' base index := by
  unfold element Eval.element
  rw [run_bind, run_lift]
  refine bind_congr fun c => ?_
  rw [run_bind, hrun]
  refine bind_congr fun v => ?_
  cases v with
  | int i => cases c <;> rfl
  | _ => rfl

theorem run_interpolate (tok : Token) : ∀ (splices : List Splice) (pos : Nat) (rest : List Char)
    (acc : String), (interpolate run tok pos rest acc splices).run =
      Eval.interpolate run' tok pos rest acc splices
  | [], _, _, _ => rfl
  | .mk offset e :: splices, pos, rest, acc => by
    unfold interpolate Eval.interpolate
    simp only [run_bind, run_ite, run_lift, hrun, run_interpolate tok splices]

theorem run_values : ∀ (es : List Expr) (acc : Array Value),
    (values run acc es).run = Eval.values run' acc es
  | [], _ => rfl
  | e :: es, acc => by
    unfold values Eval.values
    simp only [run_bind, hrun, run_values es]

theorem run_bound (e : Expr) : (bound run e).run = Eval.bound run' e := by
  unfold bound Eval.bound
  rw [run_bind, hrun]
  refine bind_congr fun v => ?_
  cases v <;> rfl

theorem run_incDec (e : IncDec) :
    (incDec functions run e).run = Eval.incDec functions run' e := by
  obtain ⟨m, op, before, target⟩ := e
  unfold incDec Eval.incDec
  cases target with
  | name id =>
    dsimp only
    rw [run_bind, run_lift]
    refine bind_congr fun sym => ?_
    rw [run_bind, run_lift]
    refine bind_congr fun v => ?_
    cases v <;> rfl
  | element em base index =>
    dsimp only
    rw [run_bind, run_element hrun]
    refine bind_congr fun p => ?_
    rw [run_bind, run_lift]
    refine bind_congr fun i => ?_
    rw [run_bind, run_lift]
    refine bind_congr fun v => ?_
    cases v <;> rfl

end Run

section Run

variable {functions : List FunDecl}

theorem run_generate (param : SymbolId) (body : Watched Value) : ∀ (count i : Nat)
    (acc : Array Value), (generate param body count i acc).run =
      Eval.generate param body.run count i acc
  | 0, _, _ => rfl
  | count + 1, i, acc => by
    unfold generate Eval.generate
    simp only [run_bind, run_lift, run_generate param body count]

theorem run_sequence {run : Stmt → Watched Flow} {run' : Stmt → Eval Flow}
    (hrun : ∀ s, (run s).run = run' s) (ss : List Stmt) :
    (sequence run ss).run = Eval.sequence run' ss := by
  induction ss with
  | nil => rfl
  | cons s ss ih =>
    unfold sequence Eval.sequence
    rw [run_bind, hrun]
    refine bind_congr fun f => ?_
    cases f with
    | next => exact ih
    | _ => rfl

theorem run_turn (body : Watched Flow) : (turn body).run = Eval.turn body.run := by
  unfold turn Eval.turn
  rw [run_bind]
  refine bind_congr fun f => ?_
  cases f <;> rfl

theorem run_whileLoop (tok : Token) (cond : Watched Bool) (body : Watched Flow) : ∀ fuel : Nat,
    (whileLoop tok cond body fuel).run = Eval.whileLoop tok cond.run body.run fuel
  | 0 => rfl
  | fuel + 1 => by
    unfold whileLoop Eval.whileLoop
    rw [run_bind]
    refine bind_congr fun c => ?_
    rw [run_ite, run_bind, run_turn]
    congr 1
    refine bind_congr fun o => ?_
    cases o with
    | some f => rfl
    | none => exact run_whileLoop tok cond body fuel

theorem run_rangeLoop (id : SymbolId) (last step : Int32) (body : Watched Flow) (n : Int64) :
    (rangeLoop id last step body n).run = Eval.rangeLoop id last step body.run n := by
  induction n using Eval.rangeLoop.induct last step with
  | case1 n hn ih =>
    rw [rangeLoop, Eval.rangeLoop, if_pos hn, if_pos hn]
    simp only [run_bind, run_lift, run_turn]
    refine bind_congr fun _ => bind_congr fun o => ?_
    cases o with
    | some f => rfl
    | none => exact ih
  | case2 n hn =>
    rw [rangeLoop, Eval.rangeLoop, if_neg hn, if_neg hn]
    rfl

theorem run_elementLoop (id : SymbolId) (address : Nat) (body : Watched Flow) :
    ∀ count i : Nat, (elementLoop id address body count i).run =
      Eval.elementLoop id address body.run count i
  | 0, _ => rfl
  | count + 1, i => by
    unfold elementLoop Eval.elementLoop
    simp only [run_bind, run_lift, run_turn]
    refine bind_congr fun _ => bind_congr fun _ => bind_congr fun o => ?_
    cases o with
    | some f => rfl
    | none => exact run_elementLoop id address body count (i + 1)

theorem run_inCall (event : List Event → Event) (frame : Frame) (vars : Activation)
    (params : List Param) (args : List Value) (tok : Token) (body : Watched α) :
    (inCall event frame vars params args tok body).run =
      Eval.inCall frame vars params args tok body.run := by
  unfold inCall Eval.inCall
  simp only [run_bind, run_ite, run_lift, run_activation, run_traced, run_ending, run_onFreshStack]

theorem run_apply {runStmts : List Stmt → Watched Flow} {runStmts' : List Stmt → Eval Flow}
    {run : Expr → Watched Value} {run' : Expr → Eval Value}
    (hstmts : ∀ ss, (runStmts ss).run = runStmts' ss) (hrun : ∀ e, (run e).run = run' e)
    (name : String) (tok : Token) (callee : Value) (args : List Value) :
    (apply runStmts run name tok callee args).run =
      Eval.apply runStmts' run' name tok callee args := by
  unfold apply Eval.apply
  rw [run_bind, run_lift]
  refine bind_congr fun m => ?_
  rw [run_ite]
  congr 1
  cases callee with
  | function f =>
    dsimp only
    rw [run_bind, run_inCall, hstmts]
    refine bind_congr fun flow => ?_
    cases flow <;> simp only [run_ite] <;> rfl
  | closure l captured =>
    dsimp only
    rw [run_bind, run_inCall, hrun]
    refine bind_congr fun v => ?_
    generalize l.mark.ty = t
    rcases t with _ | _ | _ | _ | ⟨params, _ | result⟩ <;> rfl
  | _ => rfl

mutual

theorem run_expr : ∀ (fuel : Nat) (e : Expr), (expr functions fuel e).run = Eval.expr functions fuel e
  | 0, _ => rfl
  | fuel + 1, e => by
    have ih := run_expr fuel
    have ihs := run_sequence (run_stmt fuel)
    unfold expr Eval.expr
    cases e with
    | str m text splices =>
      cases splices with
      | nil => rfl
      | cons => simp only [run_bind, run_interpolate ih, run_pure]
    | read target =>
      cases target with
      | name => rfl
      | element => simp only [run_bind, run_element ih, run_lift]
    | not m x =>
      simp only [run_bind, ih]
      refine bind_congr fun v => ?_
      cases v <;> rfl
    | incDec x => exact run_incDec ih x
    | sized m kind size gen =>
      simp only [run_bind, ih]
      refine bind_congr fun v => ?_
      cases v with
      | int n =>
        simp only [run_ite, run_bind, run_lift]
        congr 1
        generalize gen.params = ps
        cases ps with
        | nil => rfl
        | cons p ps => simp only [run_bind, run_lift, run_generate, ih]
      | _ => rfl
    | call c =>
      obtain ⟨m, callee, args⟩ := c
      simp only [run_bind, run_lift, run_values ih, run_apply ihs ih]
    | _ => simp only [run_bind, run_ite, run_lift, run_pure, run_values ih, ih]

theorem run_stmt : ∀ (fuel : Nat) (s : Stmt), (stmt functions fuel s).run = Eval.stmt functions fuel s
  | 0, _ => rfl
  | fuel + 1, s => by
    have ih := run_expr fuel
    have ihs := run_sequence (run_stmt fuel)
    unfold stmt Eval.stmt
    cases s with
    | decl tok isMutable name ty value =>
      cases value <;> simp only [run_bind, run_lift, run_put, run_pure, ih]
    | assign tok target v =>
      cases target with
      | name id => simp only [run_bind, run_lift, run_put, run_pure, ih]
      | element m base index =>
        simp only [run_bind, run_element ih, run_lift, run_pure, ih]
    | compound tok target op v =>
      cases target with
      | name id => simp only [run_bind, run_lift, run_put, run_pure, ih]
      | element m base index =>
        simp only [run_bind, run_element ih, run_lift, run_pure, ih]
    | selfOp tok e => simp only [run_bind, run_incDec ih, run_pure]
    | print tok newline value =>
      cases value <;> simp only [run_bind, run_lift, run_pure, ih]
    | ifElse tok c a b =>
      simp only [run_bind, run_lift, run_ite, ih, ihs]
      cases b with
      | none => rfl
      | some b => simp only [ihs]
    | whileLoop tok c body => simp only [run_whileLoop, run_bind, run_lift, ih, ihs]
    | forLoop tok x header body =>
      cases header with
      | range r =>
        obtain ⟨m, first, last, step⟩ := r
        cases step <;>
          simp only [run_bind, run_lift, run_pure, run_ite, run_bound ih, run_rangeLoop, ihs]
      | each e =>
        simp only [run_bind, run_lift, ih]
        refine bind_congr fun sym => bind_congr fun v => ?_
        cases v with
        | collection kind a => simp only [run_bind, run_lift, run_elementLoop, ihs]
        | _ => rfl
    | ret tok value =>
      cases value with
      | none => rfl
      | some v => simp only [run_bind, run_pure, ih]
    | block b => exact ihs b.stmts
    | _ => simp only [run_bind, run_lift, run_pure, ih]

end

end Run

end Watched

/-- The script of a program, watched. -/
def Checked.watched (c : Checked) (fuel : Nat) : Watched Flow :=
  Watched.sequence (Watched.stmt c.functions fuel) c.program.script

/-- What happens while a program runs. -/
def Checked.events (c : Checked) (fuel : Nat) : List Event := (c.watched fuel).events .start

theorem Checked.run_watched (c : Checked) (fuel : Nat) :
    (c.watched fuel).run = Eval.sequence (Eval.stmt c.functions fuel) c.program.script :=
  Watched.run_sequence (Watched.run_stmt fuel) _

end Kotlet

import Std.Data.HashMap
import Kotlet.Eval.Fault
import Kotlet.Operator
import Kotlet.Typing.Stmt

/-!
# Running programs

A checked program is run directly on its tree. Numbers wrap around in 32 bits, collections are
shared, and a closure keeps the values its variables had when it was made.

* `Machine` : what a running program changes;
* `Eval` : steps of a running program, which keep what was printed when they fail;
* `Eval.expr`, `Eval.stmt` : expressions and statements;
* `Checked.run` : a whole program.

Every step inside another one has less fuel. The fuel of a run is more than any machine can burn.
-/

namespace Kotlet

/-- The variables of one activation. -/
abbrev Activation := Std.HashMap SymbolId Value

/-- What a running program changes. -/
structure Machine where
  /-- The variables of the innermost call. -/
  vars : Activation
  /-- The elements of the collections. -/
  heap : Heap
  /-- What was printed. -/
  out : String
  /-- The active calls, the innermost one first. -/
  calls : List Frame
  deriving Inhabited

namespace Machine

/-- Nothing has happened yet. -/
def start : Machine := ⟨∅, #[], "", []⟩

/-- The number of active calls. -/
def depth (m : Machine) : Nat := m.calls.length

/-- The most calls that can be active. -/
def maxDepth : Nat := 4000

end Machine

/-- Steps of a running program. -/
abbrev Eval := EStateM Fault Machine

namespace Eval

/-- Fails at a token. -/
def fail {α : Type} (cause : Fault.Cause) (t : Token) : Eval α :=
  throw ⟨cause.message, t.line, t.col, []⟩

/-- A failure of `body` gets the active calls as its trace, unless it has one. -/
def traced {α : Type} (body : Eval α) : Eval α :=
  try body catch f => throw (f.traced (← get).calls)

/-! ## Variables and collections -/

/-- Gives a variable a value. -/
def assign (id : SymbolId) (v : Value) : Eval Unit :=
  modify fun m => { m with vars := m.vars.insert id v }

/-- The value of a variable, if it has one. -/
def lookup? (id : SymbolId) : Eval (Option Value) := do return (← get).vars[id]?

/-- A fresh collection. -/
def allocate (kind : CollectionKind) (elements : Array Value) : Eval Value :=
  modifyGet fun m =>
    (.collection kind m.heap.size, { m with heap := m.heap.push elements })

/-- The number of elements of a collection. -/
def length (address : Nat) : Eval Nat := do return ((← get).heap.getD address #[]).size

/-- An element of a collection. -/
def load (address index : Nat) : Eval Value := do
  return ((← get).heap.getD address #[]).getD index .null

/-- Replaces an element of a collection. -/
def store (address index : Nat) (v : Value) : Eval Unit :=
  modify fun m => { m with heap := m.heap.modify address fun es => es.setIfInBounds index v }

/-- Prints a text. -/
def emit (text : String) : Eval Unit := modify fun m => { m with out := m.out ++ text }

/-- The symbol of a name. -/
def symbolOf (id : Ident) : Eval Symbol :=
  match id.sym with
  | some sym => pure sym
  | none => fail (.unresolved id.name) id.tok

/-- The value of a variable. -/
def variableOf (id : Ident) (sym : Symbol) : Eval Value := do
  match ← lookup? sym.id with
  | some v => return v
  | none => fail (.noValue id.name) id.tok

/-- The declared function of a name. -/
def functionOf? (functions : List FunDecl) (name : String) : Option FunDecl :=
  functions.find? fun f => f.name.name == name

/-- The value of a name. -/
def read (functions : List FunDecl) (id : Ident) : Eval Value := do
  let sym ← symbolOf id
  if sym.isFunction then
    match functionOf? functions sym.name with
    | some f => return .function f
    | none => fail (.noDeclaration sym.name) id.tok
  else variableOf id sym

/-! ## Operators -/

/-- An operation on numbers. -/
def arithmetic (tok : Token) (op : String) (a b : Value) : Eval Value :=
  match a, b with
  | .int a, .int b =>
    match ArithOp.ofText? op with
    | none => fail (.unknownOperator op) tok
    | some o =>
      match o.apply a b with
      | some n => pure (.int n)
      | none => fail .divisionByZero tok
  | a, b => fail (.badOperands op a.typeName b.typeName) tok

/-- The order of two truth values, where only equality counts. -/
def compareBools (a b : Bool) : Ordering := if a = b then .eq else .gt

/-- A comparison. -/
def comparison (tok : Token) (op : String) (a b : Value) : Eval Value :=
  let decided (o : Ordering) : Eval Value :=
    match CompareOp.ofText? op with
    | some c => pure (.bool (c.holds o))
    | none => fail (.unknownOperator op) tok
  match a, b with
  | .int x, .int y => decided (compare x.toInt y.toInt)
  | .string x, .string y => decided (compareByUnits x y)
  | .bool x, .bool y =>
    if (CompareOp.ofText? op).any CompareOp.isEquality then decided (compareBools x y)
    else fail (.badOperands op a.typeName b.typeName) tok
  | _, _ => fail (.badOperands op a.typeName b.typeName) tok

/-- The truth value of a condition. -/
def truth (tok : Token) : Value → Eval Bool
  | .bool b => pure b
  | v => fail (.notBoolean v.typeName) tok

/-! ## Elements -/

/-- The address and the index of an element, given how to run the index expression. The index is
not compared with the length. -/
def element (functions : List FunDecl) (run : Expr → Eval Value) (base : Ident) (index : Expr) :
    Eval (Nat × Int32) := do
  let c ← read functions base
  match ← run index with
  | .int i =>
    match c with
    | .collection _ a => return (a, i)
    | .null => fail (.isNull base.name) base.tok
    | c => fail (.notIndexable base.name c.typeName) base.tok
  | v => fail (.badIndex v.typeName) index.tok

/-- The position of an index, which must lie inside the collection. -/
def position (tok : Token) (address : Nat) (index : Int32) : Eval Nat := do
  let n ← length address
  if index < 0 ∨ n ≤ index.toInt.toNat then fail (.outOfBounds index n) tok
  return index.toInt.toNat

/-! ## Strings -/

/-- The text of a value, which a collection that holds itself does not have. -/
def shown (tok : Token) (v : Value) : Eval String := do
  match v.show? (← get).heap with
  | some text => return text
  | none => fail .endless tok

/-- The text of a string literal from the place `pos` on, given how to run its templates; `rest`
is the literal text from there on and `acc` what comes before. -/
def interpolate (run : Expr → Eval Value) (tok : Token) (pos : Nat) (rest : List Char)
    (acc : String) : List Splice → Eval String
  | [] => return acc ++ String.ofList rest
  | .mk offset e :: splices => do
    if offset < pos ∨ pos + rest.length < offset then fail (.badOffset offset) tok
    let step := (offset - pos).toNat
    let v ← run e
    let text ← shown tok v
    interpolate run tok (pos + step) (rest.drop step)
      (acc ++ String.ofList (rest.take step) ++ text) splices

/-! ## Loops -/

/-- Whether a loop goes on after a turn, and how it ends otherwise. -/
def turn (body : Eval Flow) : Eval (Option Flow) := do
  match ← body with
  | .broke => return some .next
  | .returned v => return some (.returned v)
  | _ => return none

/-- Repeats a body while a condition holds. -/
def whileLoop (tok : Token) (cond : Eval Bool) (body : Eval Flow) : Nat → Eval Flow
  | 0 => fail .outOfFuel tok
  | fuel + 1 => do
    if ← cond then
      match ← turn body with
      | some f => return f
      | none => whileLoop tok cond body fuel
    else return .next

/-- A number of 64 bits that is at most one of 32 bits comes nearer to it by a step of 32 bits, and
does not wrap around. -/
theorem range_decreases {last step : Int32} {n : Int64} (hstep : 0 < step) (hn : n ≤ last.toInt64) :
    (last.toInt + 1 - (n + step.toInt64).toInt).toNat < (last.toInt + 1 - n.toInt).toNat := by
  have hstep' := Int32.lt_iff_toInt_lt.mp hstep
  have hn' := Int64.le_iff_toInt_le.mp hn
  have hlow := n.le_toInt
  have hlast := last.toInt_lt
  have hstepmax := step.toInt_lt
  rw [Int32.toInt_zero] at hstep'
  rw [Int32.toInt_toInt64] at hn'
  rw [Int64.toInt_add, Int32.toInt_toInt64, Int.bmod_eq_of_le (by omega) (by omega)]
  omega

/-- Repeats a body for the numbers from `n` on that are at most `last`. It counts in 64 bits, so that
it ends whatever `last` is. The step goes forward; any other one was refused before. -/
def rangeLoop (id : SymbolId) (last step : Int32) (body : Eval Flow) (n : Int64) : Eval Flow :=
  if 0 < step ∧ n ≤ last.toInt64 then do
    assign id (.int n.toInt32)
    match ← turn body with
    | some f => return f
    | none => rangeLoop id last step body (n + step.toInt64)
  else return .next
termination_by (last.toInt + 1 - n.toInt).toNat
decreasing_by exact range_decreases (And.left ‹_›) (And.right ‹_›)

/-- Repeats a body for `count` elements from the position `i` on, as they are by then. -/
def elementLoop (id : SymbolId) (address : Nat) (body : Eval Flow) : Nat → Nat → Eval Flow
  | 0, _ => return .next
  | count + 1, i => do
    assign id (← load address i)
    match ← turn body with
    | some f => return f
    | none => elementLoop id address body count (i + 1)

/-! ## Calls -/

/-- Gives parameters their values. -/
def bindParams : List Param → List Value → Eval Unit
  | p :: ps, v :: vs => do
    assign (← symbolOf p.name).id v
    bindParams ps vs
  | _, _ => return ()

/-- Runs `body` on a stack of its own if `fresh`. The result does not depend on it. -/
def onFreshStack {α : Type} (fresh : Bool) (body : Eval α) : Eval α := fun m =>
  if fresh then (Task.spawn (fun _ => body m) .dedicated).get else body m

/-- After how many calls inside each other the rest goes to another stack. -/
def callsPerStack : Nat := 100

/-- Runs the body of a call in variables of its own. However it ends, the call is over and the
variables outside are back. -/
def inCall {α : Type} (frame : Frame) (vars : Activation) (params : List Param)
    (args : List Value) (tok : Token) (body : Eval α) : Eval α := do
  if params.length ≠ args.length then fail (.argumentCount params.length args.length) tok
  let outer := (← get).vars
  modify fun m => { m with vars := vars }
  try
    bindParams params args
    modify fun m => { m with calls := frame :: m.calls }
    try traced (onFreshStack ((← get).depth % callsPerStack = 0) body)
    finally modify fun m => { m with calls := m.calls.tail }
  finally modify fun m => { m with vars := outer }

/-- Calls a value, given how to run statements and expressions. -/
def apply (runStmts : List Stmt → Eval Flow) (run : Expr → Eval Value) (name : String)
    (tok : Token) (callee : Value) (args : List Value) : Eval Value := do
  if Machine.maxDepth ≤ (← get).depth then traced (fail .stackOverflow tok)
  match callee with
  | .function f =>
    match ← inCall ⟨f.name.name, tok.line, tok.col⟩ ∅ f.params args tok (runStmts f.body.stmts) with
    | .returned v => return v
    | _ => if f.result = .unit then return .unit else fail .missingReturn f.body.close
  | .closure l captured =>
    let v ← inCall ⟨name, tok.line, tok.col⟩ (.ofList captured) l.params args tok (run l.body)
    match l.mark.ty with
    | some (.fn _ (some t)) => return if t = .unit then .unit else v
    | _ => return v
  | .null => fail (.isNull name) tok
  | v => fail (.notCallable name v.typeName) tok

/-- The values that a lambda captures. -/
def captureAll (tok : Token) : List Symbol → Eval (List (SymbolId × Value))
  | [] => return []
  | sym :: syms => do
    match ← lookup? sym.id with
    | none => fail (.captureNoValue sym.name) tok
    | some v => return (sym.id, v) :: (← captureAll tok syms)

/-- Runs the generator for the indices from `i` on, `count` of them. -/
def generate (param : SymbolId) (body : Eval Value) : Nat → Nat → Array Value → Eval (Array Value)
  | 0, _, acc => return acc
  | count + 1, i, acc => do
    assign param (.int (Int32.ofNat i))
    let v ← body
    generate param body count (i + 1) (acc.push v)

/-- Runs expressions in order, after those whose values are in `acc`. -/
def values (run : Expr → Eval Value) (acc : Array Value) : List Expr → Eval (Array Value)
  | [] => return acc
  | e :: es => do
    let v ← run e
    values run (acc.push v) es

/-- Runs statements until one of them does not go on. -/
def sequence (run : Stmt → Eval Flow) : List Stmt → Eval Flow
  | [] => return .next
  | s :: ss => do
    match ← run s with
    | .next => sequence run ss
    | f => return f

/-- A bound of a range. -/
def bound (run : Expr → Eval Value) (e : Expr) : Eval Int32 := do
  match ← run e with
  | .int n => return n
  | v => fail (.badBound v.typeName) e.tok

/-! ## Expressions and statements -/

/-- `++` or `--`. -/
def incDec (functions : List FunDecl) (run : Expr → Eval Value) : IncDec → Eval Value
  | .mk m op before target => do
    let delta : Int32 := if op = "--" then -1 else 1
    match target with
    | .name id =>
      let sym ← symbolOf id
      match ← variableOf id sym with
      | .int n =>
        assign sym.id (.int (n + delta))
        return .int (if before then n + delta else n)
      | v => fail (.badOperand op v.typeName) m.tok
    | .element em base index =>
      let (a, i) ← element functions run base index
      let i ← position em.tok a i
      match ← load a i with
      | .int n =>
        store a i (.int (n + delta))
        return .int (if before then n + delta else n)
      | v => fail (.badOperand op v.typeName) m.tok

mutual

/-- The value of an expression. -/
def expr (functions : List FunDecl) : Nat → Expr → Eval Value
  | 0, e => fail .outOfFuel e.tok
  | fuel + 1, e => do
    match e with
    | .int _ n => return .int n
    | .bool _ b => return .bool b
    | .str _ text [] => return .string text
    | .str m text splices =>
      return .string (← interpolate (expr functions fuel) m.tok 0 text.toList "" splices)
    | .read (.name id) => read functions id
    | .read (.element m base index) =>
      let (a, i) ← element functions (expr functions fuel) base index
      load a (← position m.tok a i)
    | .arith m op l r =>
      let a ← expr functions fuel l
      let b ← expr functions fuel r
      arithmetic m.tok op a b
    | .compare m op l r =>
      let a ← expr functions fuel l
      let b ← expr functions fuel r
      comparison m.tok op a b
    | .logic _ op l r =>
      let a ← truth l.tok (← expr functions fuel l)
      if op = "&&" ∧ a = false then return .bool false
      if op = "||" ∧ a = true then return .bool true
      return .bool (← truth r.tok (← expr functions fuel r))
    | .not m x =>
      match ← expr functions fuel x with
      | .bool b => return .bool (!b)
      | v => fail (.badOperand "!" v.typeName) m.tok
    | .incDec x => incDec functions (expr functions fuel) x
    | .collection _ kind es => allocate kind (← values (expr functions fuel) #[] es)
    | .sized m kind size gen =>
      match ← expr functions fuel size with
      | .int n =>
        if n < 0 then fail (.negativeSize n) m.tok
        match gen.params with
        | [] => fail (.argumentCount 0 1) m.tok
        | p :: _ =>
          let param ← symbolOf p.name
          let es ← generate param.id (expr functions fuel gen.body) n.toInt.toNat 0 #[]
          allocate kind es
      | v => fail (.badSize v.typeName) size.tok
    | .lambda l => return .closure l (← captureAll l.mark.tok l.captures)
    | .call (.mk m callee args) =>
      let f ← read functions callee
      let vs ← values (expr functions fuel) #[] args
      apply (sequence (stmt functions fuel)) (expr functions fuel) callee.name m.tok f vs.toList
    | .range r => fail .strayRange r.mark.tok

/-- How a statement ends. -/
@[grind =] def stmt (functions : List FunDecl) : Nat → Stmt → Eval Flow
  | 0, s => fail .outOfFuel s.tok
  | fuel + 1, s => do
    match s with
    | .decl _ _ name _ value =>
      let sym ← symbolOf name
      match value with
      | none => assign sym.id (.initial sym.ty)
      | some v => assign sym.id (← expr functions fuel v)
      return .next
    | .assign _ (.name id) v =>
      let sym ← symbolOf id
      assign sym.id (← expr functions fuel v)
      return .next
    | .assign _ (.element m base index) v =>
      let (a, i) ← element functions (expr functions fuel) base index
      let v ← expr functions fuel v
      store a (← position m.tok a i) v
      return .next
    | .compound tok (.name id) op v =>
      let sym ← symbolOf id
      let old ← variableOf id sym
      let v ← expr functions fuel v
      assign sym.id (← arithmetic tok (compoundOperator op) old v)
      return .next
    | .compound tok (.element m base index) op v =>
      let (a, i) ← element functions (expr functions fuel) base index
      let i ← position m.tok a i
      let v ← expr functions fuel v
      store a i (← arithmetic tok (compoundOperator op) (← load a i) v)
      return .next
    | .selfOp _ e =>
      let _ ← incDec functions (expr functions fuel) e
      return .next
    | .print tok newline value =>
      let text ←
        match value with
        | none => pure ""
        | some v => shown tok (← expr functions fuel v)
      emit (if newline then text ++ "\n" else text)
      return .next
    | .ifElse _ c a b =>
      if ← truth c.tok (← expr functions fuel c) then sequence (stmt functions fuel) a.stmts
      else
        match b with
        | none => return .next
        | some b => sequence (stmt functions fuel) b.stmts
    | .whileLoop tok c body =>
      whileLoop tok (do truth c.tok (← expr functions fuel c))
        (sequence (stmt functions fuel) body.stmts) fuel
    | .forLoop _ x (.range (.mk _ first last step)) body =>
      let sym ← symbolOf x
      let first ← bound (expr functions fuel) first
      let last ← bound (expr functions fuel) last
      let by_ ←
        match step with
        | none => pure 1
        | some s => do
          let n ← bound (expr functions fuel) s
          if n ≤ 0 then fail (.badStep n) s.tok
          pure n
      rangeLoop sym.id last by_ (sequence (stmt functions fuel) body.stmts) first.toInt64
    | .forLoop _ x (.each e) body =>
      let sym ← symbolOf x
      match ← expr functions fuel e with
      | .collection _ a =>
        elementLoop sym.id a (sequence (stmt functions fuel) body.stmts) (← length a) 0
      | v => fail (.notIterable v.typeName) e.tok
    | .function f => fail (.nestedFunction f.name.name) f.tok
    | .call _ c =>
      let _ ← expr functions fuel (.call c)
      return .next
    | .ret _ none => return .returned .unit
    | .ret _ (some v) => return .returned (← expr functions fuel v)
    | .brk _ => return .broke
    | .cont _ => return .continued
    | .block b => sequence (stmt functions fuel) b.stmts

end

/-- More steps than any run can take. -/
def ampleFuel : Nat := 1000000000000000

end Eval

/-- What a run comes to: what it printed, and its failure if there was one. -/
structure RunResult where
  /-- What was printed. -/
  out : String
  /-- The failure, if the run did not end well. -/
  failure : Option Diagnostic
  deriving Inhabited

/-- Runs the script of a program, with so much fuel. -/
def Checked.runWith (c : Checked) (fuel : Nat) : RunResult :=
  match Eval.sequence (Eval.stmt c.functions fuel) c.program.script .start with
  | .ok _ m => ⟨m.out, none⟩
  | .error f m => ⟨m.out, some (f.toDiagnostic c.program.file)⟩

/-- Runs a program. -/
def Checked.run (c : Checked) : RunResult := c.runWith Eval.ampleFuel

/-- A run that is cancelled before it starts: it fails if there is anything to run. -/
def Checked.runCancelled (c : Checked) : RunResult :=
  match c.program.script with
  | [] => ⟨"", none⟩
  | _ :: _ =>
    let f : Fault := ⟨Fault.Cause.cancelled.message, 0, 0, []⟩
    ⟨"", some (f.toDiagnostic c.program.file)⟩

end Kotlet

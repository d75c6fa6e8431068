import Kotlet.Emit.Expr

/-!
# Code for statements

A statement leaves the operand stack as it found it. What cannot be reached gets no code.

* `Emit.guarded` : a statement with the checks around it;
* `Emit.rangeLoop`, `Emit.elementLoop` : the two forms of `for`;
* `Stmt.emit` : the code of a statement.
-/

namespace Kotlet

open ClassFile

namespace Emit

/-- A statement at a token: nothing if it cannot be reached, and a balanced stack after it
otherwise. -/
def guarded (tok : Token) (steps : Emit Unit) : Emit Unit := do
  if (← code).reachable then
    let depth := (← code).depth
    steps
    if let some e := (← code).error then reject (.build e) tok
    let after := (← code).depth
    if (← code).reachable && after != depth then reject (.unbalanced depth after) tok

/-! ## Variables -/

/-- Leaves the value that a variable has before its first assignment. -/
def pushDefault (t : Ty) : Emit Unit :=
  if t.isPrimitive then pushInt 0
  else if t = .string then pushString ""
  else op .aconstNull

/-- A declaration. The variable is not in scope in its own initial value. -/
def declaration (name : Ident) (value : Option Piece) : Emit Unit := do
  let sym ← symbolOf name
  match value with
  | some p => valueAs p sym.ty
  | none => pushDefault sym.ty
  store (← declare sym name.tok)

/-- An assignment. -/
def assignment (value : Piece) : Place → Emit Unit
  | .name id => do
    let l ← variableOf id
    valueAs value l.ty
    store l
  | .element m base index => do
    match ← elementPlace m base index with
    | (.list, _) =>
      valueAs value .any
      listSet
    | (.array, s) =>
      valueAs value (.scalar s)
      op (arrayStoreOp s)

/-- The instruction inside an assignment operator; an unknown one does nothing. -/
def compoundOp (sign : String) : Opcode :=
  ((ArithOp.ofText? (compoundOperator sign)).map ArithOp.opcode).getD .nop

/-- What `+=` or `-=` adds to a variable, if it is a number that one instruction can add. -/
def constantDelta? (sign : String) : Expr → Option Int
  | .int _ n =>
    let delta? : Option Int :=
      match ArithOp.ofText? (compoundOperator sign) with
      | some .add => some n.toInt
      | some .sub => some (-n.toInt)
      | _ => none
    delta?.filter fun d => -0x8000 ≤ d && d ≤ 0x7fff
  | _ => none

/-- An assignment that computes with the old value. -/
def compound (sign : String) (value : Piece) : Place → Emit Unit
  | .name id => do
    let l ← variableOf id
    match constantDelta? sign value.expr with
    | some d => increment l d
    | none =>
      load l
      value.value
      op (compoundOp sign)
      store l
  | .element m base index => do
    let (kind, _) ← elementPlace m base index
    op .dup2
    loadInt kind
    value.value
    op (compoundOp sign)
    storeInt kind

/-- `++` or `--` for its effect. -/
def selfOp (e : IncDec) : Emit Unit :=
  match e with
  | .mk _ sign _ (.name id) => do
    increment (← variableOf id) (delta sign).toInt
  | e => do
    e.value
    op .pop

/-! ## Output -/

/-- `print` or `println`. -/
def printing (newline : Bool) (value : Option Piece) : Emit Unit := do
  let name := if newline then "println" else "print"
  getStatic Jvm.system "out" (Jvm.reference Jvm.printStream)
  match value with
  | none => callVirtual Jvm.printStream name "()V"
  | some p =>
    let t ← printable p
    callVirtual Jvm.printStream name (Jvm.method [t.printDescriptor] "V")

/-! ## Branches and loops -/

/-- `if`, with or without `else`. -/
def branching (cond : Piece) (thenSteps : Emit Unit) (elseSteps : Option (Emit Unit)) :
    Emit Unit := do
  let otherwise ← newLabel
  cond.jump false otherwise
  thenSteps
  match elseSteps with
  | none => bindLabel otherwise
  | some steps =>
    let done ← newLabel
    jump .goto done
    bindLabel otherwise
    steps
    bindLabel done

/-- The steps of the body of a loop. -/
def inLoop (breakTo continueTo : Nat) (body : Emit Unit) : Emit Unit :=
  withReader (fun env => { env with loop := some ⟨breakTo, continueTo⟩ }) body

/-- `while`. -/
def whileLoop (cond : Piece) (body : Emit Unit) : Emit Unit := do
  let top ← newLabel
  let exit ← newLabel
  bindLabel top
  cond.jump false exit
  inLoop exit top body
  jump .goto top
  bindLabel exit

/-- The step of a loop over a range. -/
inductive Step where
  /-- A literal. -/
  | constant (n : Int32)
  /-- A value that is computed once. -/
  | computed (l : Local)

/-- The step of a range; one that is computed must be positive. -/
def rangeStep : Option Expr → Emit Step
  | none => return .constant 1
  | some (.int _ n) => return .constant n
  | some e => do
    e.piece.value
    let l ← scratch .int e.tok
    store l
    let good ← newLabel
    load l
    jump .ifGt good
    throwNew Jvm.illegalArgument "Step must be positive"
    bindLabel good
    return .computed l

/-- Leaves a step on the stack. -/
def pushStep : Step → Emit Unit
  | .constant n => pushInt n
  | .computed l => load l

/-- Leaves the loop if its next number lies behind the last one. The sum is a long one, so that a
range up to the largest number ends. -/
def testRange (step : Step) (x last : Local) (exit : Nat) : Emit Unit := do
  let isOne :=
    match step with
    | .constant n => n == 1
    | .computed _ => false
  if isOne then
    load x
    load last
    jump .ifIcmpEq exit
  else
    load x
    op .i2l
    pushStep step
    op .i2l
    op .ladd
    load last
    op .i2l
    op .lcmp
    jump .ifGt exit

/-- Goes on to the next number. -/
def advance (step : Step) (x : Local) : Emit Unit := do
  let short? : Option Int32 :=
    match step with
    | .constant n => if n ≤ 0x7fff then some n else none
    | .computed _ => none
  match short? with
  | some n => increment x n.toInt
  | none =>
    load x
    pushStep step
    op .iadd
    store x

/-- `for` over a range. The bounds and the step are computed once. -/
def rangeLoop (x : Ident) (r : Range) (body : Emit Unit) : Emit Unit :=
  match r with
  | .mk m first last step => do
    let sym ← symbolOf x
    first.piece.value
    let v ← declare sym x.tok
    store v
    last.piece.value
    let last ← scratch .int m.tok
    store last
    let step ← rangeStep step
    let top ← newLabel
    let next ← newLabel
    let exit ← newLabel
    bindLabel top
    load v
    load last
    jump .ifIcmpGt exit
    inLoop exit next body
    bindLabel next
    testRange step v last exit
    advance step v
    jump .goto top
    bindLabel exit

/-- `for` over a collection, which is computed once. The size of a list is asked for in every
turn. -/
def elementLoop (tok : Token) (x : Ident) (p : Piece) (body : Emit Unit) : Emit Unit := do
  let t ← typeOf p.expr
  let (kind, s) ←
    match t with
    | .array s => pure (CollectionKind.array, s)
    | .list s => pure (CollectionKind.list, s)
    | t => reject (.notIterable t) p.expr.tok
  p.value
  let c ← scratch t p.expr.tok
  store c
  let i ← scratch .int tok
  pushInt 0
  store i
  let v ← declare (← symbolOf x) x.tok
  let top ← newLabel
  let next ← newLabel
  let exit ← newLabel
  bindLabel top
  load i
  load c
  match kind with
  | .list => callInterface Jvm.list "size" "()I"
  | .array => op .arrayLength
  jump .ifIcmpGe exit
  load c
  load i
  loadElement kind s
  store v
  inLoop exit next body
  bindLabel next
  increment i 1
  jump .goto top
  bindLabel exit

/-! ## Leaving -/

/-- `return`. -/
def returning (tok : Token) (value : Option Piece) : Emit Unit := do
  let result := (← read).result
  match value with
  | none =>
    if result ≠ .unit then reject (.bareReturn result) tok
    op .vreturn
  | some p =>
    if result = .unit then reject .unitReturn tok
    valueAs p result
    op result.returnOp

/-- A jump out of the innermost loop, or to its next turn. -/
def leaving (tok : Token) (target : Loop → Nat) : Emit Unit := do
  match (← read).loop with
  | none => reject (.strayJump tok.shown) tok
  | some l => jump .goto (target l)

/-- A call for its effect. -/
def effect (c : Call) : Emit Unit := do
  let t ← typeOf (.call c)
  c.value
  if t ≠ .unit then op .pop

end Emit

open Emit

/-- The code of a loop. -/
def Header.emit (tok : Token) (x : Ident) (body : Emit Unit) : Header → Emit Unit
  | .range r => rangeLoop x r body
  | .each e => elementLoop tok x e.piece body

mutual

/-- The code of a statement. -/
def Stmt.emit : Stmt → Emit Unit
  | .decl tok _ name _ value => guarded tok (declaration name (value.map Expr.piece))
  | .assign tok target value => guarded tok (assignment value.piece target.place)
  | .compound tok target sign value => guarded tok (compound sign value.piece target.place)
  | .selfOp tok e => guarded tok (selfOp e)
  | .print tok newline value => guarded tok (printing newline (value.map Expr.piece))
  | .ifElse tok cond a b => guarded tok (branching cond.piece a.emit (Block.emitOption b))
  | .whileLoop tok cond body => guarded tok (whileLoop cond.piece body.emit)
  | .forLoop tok x header body => guarded tok (header.emit tok x body.emit)
  | .function f => guarded f.tok (reject (.nestedFunction f.name.name) f.tok)
  | .call tok c => guarded tok (effect c)
  | .ret tok value => guarded tok (returning tok (value.map Expr.piece))
  | .brk tok => guarded tok (leaving tok Loop.breakTo)
  | .cont tok => guarded tok (leaving tok Loop.continueTo)
  | .block b => b.emit

/-- The code of several statements. -/
def Stmt.emitList : List Stmt → Emit Unit
  | [] => return ()
  | s :: ss => do
    s.emit
    Stmt.emitList ss

/-- The code of a block. -/
def Block.emit : Block → Emit Unit
  | .mk tok ss _ => guarded tok (Stmt.emitList ss)

/-- The code of a block that may be absent. -/
def Block.emitOption : Option Block → Option (Emit Unit)
  | none => none
  | some b => some b.emit

end

end Kotlet

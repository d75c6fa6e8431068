import Kotlet.Typing.Expr

/-!
# Well-typed programs

* `alwaysReturns`, `alwaysJumps` : whether every way through some statements leaves them;
* `Stmt.check` : a statement with its types filled in;
* `Program.check` : a whole program.

Functions are declared before anything else, so a call may stand before the declaration. The
variables of the script are not visible inside functions.
-/

namespace Kotlet

open Typing

/-! ## Ways through statements -/

mutual

/-- Whether the statement returns on every way through it. -/
@[grind =] def Stmt.alwaysReturns : Stmt → Bool
  | .ret _ _ => true
  | .block b => b.alwaysReturns
  | .ifElse _ _ a (some b) => a.alwaysReturns && b.alwaysReturns
  | _ => false

/-- Whether every way through a block returns. -/
def Block.alwaysReturns : Block → Bool
  | .mk _ ss _ => listAlwaysReturns ss

/-- Whether every way through some statements returns. -/
def listAlwaysReturns : List Stmt → Bool
  | [] => false
  | s :: ss => s.alwaysReturns || listAlwaysReturns ss

end

mutual

/-- Whether every way through the statement leaves what is around it. -/
@[grind =] def Stmt.alwaysJumps : Stmt → Bool
  | .ret _ _ => true
  | .brk _ => true
  | .cont _ => true
  | .block b => b.alwaysJumps
  | .ifElse _ _ a (some b) => a.alwaysJumps && b.alwaysJumps
  | _ => false

/-- Whether every way through a block leaves it. -/
def Block.alwaysJumps : Block → Bool
  | .mk _ ss _ => listAlwaysJumps ss

/-- Whether every way through some statements leaves them. -/
def listAlwaysJumps : List Stmt → Bool
  | [] => false
  | s :: ss => s.alwaysJumps || listAlwaysJumps ss

end

/-! ## Statements -/

/-- A declaration of a variable. The variable is not in scope in its own initial value. -/
def checkDecl (tok : Token) (isMutable : Bool) (name : Ident) (ty : Option Ty)
    (value : Option Expr) : Check Stmt := do
  if (← get).scopes.isLocal name.name then reject (.redeclared name.name) name.tok
  if ty = some .unit then reject (.unitVariable name.name) name.tok
  let (value, declared) ←
    match value with
    | none => pure (none, ty)
    | some v => do
      let (v, found) ← v.check ty
      requireValue v found
      match ty with
      | none => pure (some v, some found)
      | some want =>
        if !found.assignable want then reject (.badInitializer name.name want found) v.tok
        pure (some v, some want)
  match declared with
  | none => reject (.unknownVariable name.name) name.tok
  | some t =>
    let site := Site.ofToken .varDeclaration tok
    let sym ← declare name.name t .variable (!isMutable) value.isSome site
    let loops := (← read).loops
    if value.isNone then
      modify fun s => { s with late := ⟨sym.id, !isMutable, loops, false⟩ :: s.late }
    return .decl tok isMutable { name with sym := some sym } ty value

/-- An assignment. -/
def checkAssign (tok : Token) (target : Target) (value : Expr) : Check Stmt :=
  match target with
  | .name id => do
    let sym ← id.checkWritable true
    let (value, found) ← value.check (some sym.ty)
    requireValue value found
    if !found.assignable sym.ty then reject (.badAssignment found id.name sym.ty) value.tok
    modify fun s => { s with late := noteAssigned s.late sym.id }
    return .assign tok (.name { id with sym := some sym, ty := some sym.ty }) value
  | .element _ _ _ => do
    let (target, want) ← target.check
    let (value, found) ← value.check (some want)
    requireValue value found
    if !found.assignable want then reject (.badStore found want) value.tok
    return .assign tok target value

/-- An assignment that computes with the old value. -/
def checkCompound (tok : Token) (target : Target) (op : String) (value : Expr) : Check Stmt := do
  let (target, tt) ← target.checkInt op
  let (value, found) ← value.check (some tt)
  if found ≠ .int then reject (.badOperands op tt found) value.tok
  return .compound tok target op value

/-- A condition. -/
def checkCondition (what : String) (e : Expr) : Check Expr := do
  let (e, t) ← e.check (some .boolean)
  requireType what .boolean e t
  return e

/-- A bound of a range. -/
def checkBound (what : String) (e : Expr) : Check Expr := do
  let (e, t) ← e.check (some .int)
  requireType what .int e t
  return e

/-- What a loop runs over, and the type of its elements. -/
def Header.check : Header → Check (Header × Ty)
  | .range (.mk m first last step) => do
    let first ← checkBound "range start" first
    let last ← checkBound "range end" last
    let step ←
      match step with
      | none => pure none
      | some s => do
        let s ← checkBound "range step" s
        match s with
        | .int m n => if n ≤ 0 then reject (.badStep n) m.tok
        | _ => pure ()
        pure (some s)
    return (.range (.mk { m with ty := some .int } first last step), .int)
  | .each e => do
    let (e, t) ← e.check none
    match t.element? with
    | none => reject (.notIterable t) e.tok
    | some s => return (.each e, .scalar s)

/-- `return`. -/
def checkReturn (tok : Token) (value : Option Expr) : Check Stmt := do
  match (← read).enclosing, value with
  | none, none => return .ret tok none
  | none, some _ => reject .strayReturn tok
  | some f, none =>
    if f.result = .unit then return .ret tok none
    reject (.bareReturn f.name f.result) tok
  | some f, some v =>
    if f.result = .unit then reject (.unitReturn f.name) v.tok
    let (v, found) ← v.check (some f.result)
    if !found.assignable f.result then reject (.badReturn f.result found) v.tok
    return .ret tok (some v)

/-- `break` or `continue`. -/
def checkJump (word : String) (tok : Token) (s : Stmt) : Check Stmt := do
  if (← read).loops = 0 then reject (.strayJump word) tok
  return s

/-- A step inside a loop. -/
def inLoop {α : Type} (body : Check α) : Check α :=
  withReader (fun env => { env with loops := env.loops + 1 }) body

/-- A step inside the body of a function, whose symbol is given. The script goes on afterwards as
it was before. -/
def inFunction {α : Type} (sym : Symbol) (tok : Token) (result : Ty) (body : Check α) :
    Check α := do
  let before ← get
  let functions := (← read).functions
  set { before with scopes := ⟨⟨.function, []⟩, [functions]⟩, next := 1 }
  let enter (env : Env) : Env :=
    { env with
      routine := sym.id.routine, enclosing := some ⟨sym.name, result⟩,
      owner := .ofToken .function tok, depth := 0, loops := 0 }
  let a ← withReader enter body
  modify fun s => { s with scopes := before.scopes, next := before.next }
  return a

mutual

/-- A statement with its types. -/
def Stmt.check : Stmt → Check Stmt
  | .decl tok isMutable name ty value => checkDecl tok isMutable name ty value
  | .assign tok target value => checkAssign tok target value
  | .compound tok target op value => checkCompound tok target op value
  | .selfOp tok e => do
    let (e, _) ← e.check
    return .selfOp tok e
  | .print tok newline none => return .print tok newline none
  | .print tok newline (some v) => do
    let (v, t) ← v.check none
    if !t.printable then reject (.notPrintable t) v.tok
    return .print tok newline (some v)
  | .ifElse tok cond a b => do
    let cond ← checkCondition "if condition" cond
    let before := (← get).late
    let a ← a.check
    let afterThen := (← get).late
    modify fun s => { s with late := rewind before s.late }
    let b ← Block.checkOption b
    let elseFlows := !(b.any Block.alwaysJumps)
    modify fun s => { s with late := merge (!a.alwaysJumps) elseFlows afterThen s.late }
    return .ifElse tok cond a b
  | .whileLoop tok cond body => do
    let cond ← checkCondition "while condition" cond
    let body ← inLoop body.check
    return .whileLoop tok cond body
  | .forLoop tok x header body => do
    let (header, t) ← header.check
    inScope .block do
      let sym ← declare x.name t .variable true true (.ofToken .forLoop tok)
      let body ← inLoop body.check
      return .forLoop tok { x with sym := some sym } header body
  | .function f => do
    let f ← f.check
    return .function f
  | .call tok c => do
    let (c, _) ← c.check
    return .call tok c
  | .ret tok value => checkReturn tok value
  | .brk tok => checkJump "break" tok (.brk tok)
  | .cont tok => checkJump "continue" tok (.cont tok)
  | .block b => do
    let b ← b.check
    return .block b

/-- More statements, after those in `acc`, the last one first. -/
def Stmt.checkList (acc : List Stmt) : List Stmt → Check (List Stmt)
  | [] => return acc.reverse
  | s :: ss => do
    let s ← s.check
    Stmt.checkList (s :: acc) ss

/-- A block in a scope of its own. -/
def Block.check : Block → Check Block
  | .mk tok ss close => do
    let ss ← inScope .block (Stmt.checkList [] ss)
    return .mk tok ss close

/-- A block that may be absent. -/
def Block.checkOption : Option Block → Check (Option Block)
  | none => return none
  | some b => do
    let b ← b.check
    return some b

/-- A function declaration, which must stand on its own in the script. -/
def FunDecl.check : FunDecl → Check FunDecl
  | .mk tok name params result (.mk brace ss close) => do
    let env ← read
    match env.functions.find? name.name with
    | none => reject (.nestedFunction name.name) tok
    | some sym =>
      if env.enclosing.isSome || (← get).scopes.inner.kind ≠ .script then
        reject (.nestedFunction name.name) tok
      let types := params.map fun p => p.ty.getD .unit
      inFunction sym tok result do
        let params ← declareParams params types
        let ss ← Stmt.checkList [] ss
        if result ≠ .unit && !listAlwaysReturns ss then
          reject (.missingReturn name.name result) close
        return .mk tok { name with sym := some sym } params result (.mk brace ss close)

end

/-! ## Programs -/

/-- The first parameter whose type is `Unit`. -/
def unitParam? (ps : List Param) : Option Param := ps.find? fun p => p.ty == some .unit

/-- Declares functions, the first of which is routine `routine`. -/
def declareFunctions (routine : Nat) (scope : Scope) : List FunDecl → Except Diagnostic Scope
  | [] => .ok scope
  | f :: fs =>
    let name := f.name.name
    if (scope.find? name).isSome then .error ((TypeError.functionRedeclared name).toDiagnostic f.name.tok)
    else
      match unitParam? f.params with
      | some p => .error ((TypeError.unitParameter p.name.name).toDiagnostic p.name.tok)
      | none =>
        let sym : Symbol :=
          ⟨⟨routine, 0⟩, name, f.signature, .function, true, true, 0, none,
            some (.ofToken .function f.tok)⟩
        declareFunctions (routine + 1) { scope with declared := sym :: scope.declared } fs

/-- A program that was checked. -/
structure Checked where
  /-- The program with its types, symbols and captures. -/
  program : Program
  /-- The functions that calls can reach. -/
  functions : List FunDecl
  /-- The variables declared without a value. -/
  late : List Late
  deriving Inhabited

/-- Whether a symbol may have been assigned when the program ends. -/
def Checked.isAssigned (c : Checked) (sym : Symbol) : Bool := Typing.isAssigned c.late sym

/-- The functions with their types, in alphabetical order. -/
def Checked.functionTexts (c : Checked) : List String :=
  (c.functions.map fun f => f.name.name ++ " " ++ f.signature.text).mergeSort (decide <| · ≤ ·)

/-- Checks a program. -/
def Program.check (p : Program) : Except Diagnostic Checked := do
  let functions ← declareFunctions 1 ⟨.functions, []⟩ p.functions
  let env : Env := ⟨functions, 0, none, .program, 0, 0⟩
  let start : State := ⟨⟨⟨.script, []⟩, [functions]⟩, 0, [], []⟩
  let (stmts, s) ← Stmt.checkList [] p.stmts env start
  let program : Program := { p with stmts := stmts }
  return ⟨program, program.functions, s.late⟩

end Kotlet

import Kotlet.Typing

/-!
# Types of expressions

* `Expr.check` : an expression with its types filled in, and its own type;
* `Target.check`, `Target.checkInt` : a target that is read, and one that is updated as a number;
* `Lambda.check` : a lambda, whose parameters may take their types from the context.

The type that the context wants only guides lambdas and collections; whether what comes out fits
is for the caller to say.
-/

namespace Kotlet

open Typing

/-- The symbol of a variable that is about to be written. `first` allows the one assignment of a
constant that was declared without a value, if no way to it may have assigned the constant and no
loop can repeat it. -/
def Ident.checkWritable (id : Ident) (first : Bool) : Check Symbol := do
  match ← resolve? id.name with
  | none => reject (.undeclared id.name) id.tok
  | some sym =>
    let s ← get
    let assigned := isAssigned s.late sym
    let loops := ((late? s.late sym.id).map Late.loops).getD 0
    if sym.isFunction then reject (.assignsFunction id.name) id.tok
    else if sym.kind = .parameter then reject (.assignsParameter id.name) id.tok
    else if ← isCaptured sym then reject (.assignsCaptured id.name) id.tok
    else if sym.constant && (assigned || !first) then reject (.reassigned id.name) id.tok
    else if sym.constant && loops < (← read).loops then reject (.assignedInLoop id.name) id.tok
    else return sym

/-- A name that is read as a variable. -/
def Ident.checkRead (id : Ident) : Check (Ident × Ty) := do
  match ← resolve? id.name with
  | none => reject (.undeclared id.name) id.tok
  | some sym => return ({ id with sym := some sym, ty := some sym.ty }, sym.ty)

/-- The types of the parameters of a lambda: as written, else as the context wants them. -/
def lambdaParamTypes : List Param → List (Option Ty) → Check (List Ty)
  | [], _ => return []
  | p :: ps, wanted => do
    let ty ←
      match p.ty, wanted.head?.join with
      | some t, _ => pure t
      | none, some t => pure t
      | none, none => reject (.unknownParameter p.name.name) p.name.tok
    if ty = .unit then reject (.unitParameter p.name.name) p.name.tok
    return ty :: (← lambdaParamTypes ps wanted.tail)

/-- The types that a function type gives to `count` parameters, if it has so many. -/
def wantedParams (count : Nat) (params : List Ty) : List (Option Ty) :=
  if params.length = count then params.map some else []

/-- Parameters as symbols of the innermost scope. -/
def declareParams : List Param → List Ty → Check (List Param)
  | p :: ps, t :: ts => do
    let site := Site.ofToken .identifier p.name.tok
    let sym ← declare p.name.name t .parameter true true site
    return { p with name := { p.name with sym := some sym } } :: (← declareParams ps ts)
  | _, _ => return []

/-- The parts of a function type; nothing for any other type. -/
def functionParts : Option Ty → List Ty × Option Ty
  | some (.fn params result) => (params, result)
  | _ => ([], none)

/-- A step inside a lambda. Returns what it captures. -/
def inLambda {α : Type} (l : Mark) (body : Check α) : Check (α × List Symbol) := do
  modify fun s => { s with captures := [] :: s.captures }
  let enter (env : Env) : Env :=
    { env with owner := .ofToken .lambda l.tok, depth := env.depth + 1 }
  let a ← withReader enter (inScope .lambda body)
  let s ← get
  set { s with captures := s.captures.tail }
  return (a, (s.captures.headD []).reverse)

mutual

/-- An expression with its types, and its own type; `wanted` is the type the context wants. -/
def Expr.check (wanted : Option Ty) : Expr → Check (Expr × Ty)
  | .int m n => return (.int { m with ty := some .int } n, .int)
  | .bool m b => return (.bool { m with ty := some .boolean } b, .boolean)
  | .str m text splices => do
    let splices ← Splice.checkList splices
    return (.str { m with ty := some .string } text splices, .string)
  | .read t => do
    let (t, ty) ← t.check
    return (.read t, ty)
  | .arith m op l r => do
    let (l, lt) ← l.check none
    let (r, rt) ← r.check none
    if lt = .int ∧ rt = .int then return (.arith { m with ty := some .int } op l r, .int)
    reject (.badOperands op lt rt) m.tok
  | .compare m op l r => do
    let (l, lt) ← l.check none
    let (r, rt) ← r.check none
    if comparable op lt rt then return (.compare { m with ty := some .boolean } op l r, .boolean)
    reject (.badOperands op lt rt) m.tok
  | .logic m op l r => do
    let (l, lt) ← l.check none
    let (r, rt) ← r.check none
    if lt = .boolean ∧ rt = .boolean then
      return (.logic { m with ty := some .boolean } op l r, .boolean)
    reject (.badOperands op lt rt) m.tok
  | .not m e => do
    let (e, t) ← e.check none
    if t = .boolean then return (.not { m with ty := some .boolean } e, .boolean)
    reject (.badNegation t) m.tok
  | .incDec e => do
    let (e, t) ← e.check
    return (.incDec e, t)
  | .collection m kind es => do
    let want := wantedElement? kind wanted
    let (es, found) ← Expr.checkElements m.tok.shown (want == some .any) none es
    let element ←
      match (if want = some .any then want else found.or want) with
      | some s => pure s
      | none => reject (.unknownElement m.tok.shown) m.tok
    let t := kind.ty element
    return (.collection { m with ty := some t } kind es, t)
  | .sized m kind size gen => do
    let (size, st) ← size.check (some .int)
    requireType "size" .int size st
    if gen.params.length ≠ 1 then reject (.generatorArity gen.params.length) gen.mark.tok
    let (gen, params, result) ← gen.check [.int] none
    let first := params.headD .int
    if first ≠ .int then
      reject (.generatorParameter first) ((gen.params.map fun p => p.name.tok).headD m.tok)
    match result.elementScalar? with
    | none => reject (.generatorResult result) gen.body.tok
    | some s =>
      let t := kind.ty (if wantedElement? kind wanted = some .any then .any else s)
      return (.sized { m with ty := some t } kind size gen, t)
  | .lambda l => do
    let (params, result) := functionParts wanted
    let (l, params, result) ← l.check params result
    return (.lambda l, .fn params (some result))
  | .call c => do
    let (c, t) ← c.check
    return (.call c, t)
  | .range r => reject .strayRange r.mark.tok

/-- The elements of a collection, which share one type unless any will do. `first` is the type of
those before. -/
def Expr.checkElements (lexeme : String) (any : Bool) (first : Option Scalar) :
    List Expr → Check (List Expr × Option Scalar)
  | [] => return ([], first)
  | e :: es => do
    let (e, t) ← e.check none
    match t.elementScalar? with
    | none => reject (.badElement t) e.tok
    | some s =>
      match first with
      | some f =>
        if !any && f ≠ s then reject (.mixedElements lexeme (.scalar f) t) e.tok
      | none => pure ()
      let (es, found) ← Expr.checkElements lexeme any (first.or (some s)) es
      return (e :: es, found)

/-- The templates of a string. -/
def Splice.checkList : List Splice → Check (List Splice)
  | [] => return []
  | .mk offset e :: ss => do
    let (e, t) ← e.check none
    if !t.printable then reject (.notInterpolable t) e.tok
    return .mk offset e :: (← Splice.checkList ss)

/-- A target that is read. -/
def Target.check : Target → Check (Target × Ty)
  | .name id => do
    let (id, t) ← id.checkRead
    return (.name id, t)
  | .element m base index => do
    let (base, bt) ← base.checkRead
    match bt.element? with
    | none => reject (.notIndexable base.name bt) base.tok
    | some s =>
      let (index, it) ← index.check (some .int)
      requireType "index" .int index it
      return (.element { m with ty := some (.scalar s) } base index, .scalar s)

/-- A target that is read and written as a number. -/
def Target.checkInt (op : String) : Target → Check (Target × Ty)
  | .name id => do
    let sym ← id.checkWritable false
    if sym.ty ≠ .int then reject (.intRequired op sym.ty) id.tok
    return (.name { id with sym := some sym, ty := some sym.ty }, sym.ty)
  | .element m base index => do
    let (base, bt) ← base.checkRead
    match bt.element? with
    | none => reject (.notIndexable base.name bt) base.tok
    | some s =>
      let (index, it) ← index.check (some .int)
      requireType "index" .int index it
      if s ≠ .int then reject (.intRequired op (.scalar s)) m.tok
      return (.element { m with ty := some (.scalar s) } base index, .scalar s)

/-- An increment or decrement. -/
def IncDec.check : IncDec → Check (IncDec × Ty)
  | .mk m op before t => do
    let (t, ty) ← t.checkInt op
    return (.mk { m with ty := some ty } op before t, ty)

/-- A lambda where parameters of some types and a result of some type are wanted. Returns the
types of its parameters and of its result. -/
def Lambda.check (params : List Ty) (wanted : Option Ty) : Lambda → Check (Lambda × List Ty × Ty)
  | .mk m ps body _ => do
    let types ← lambdaParamTypes ps (wantedParams ps.length params)
    let ((ps, body, found), captures) ← inLambda m do
      let ps ← declareParams ps types
      let (body, found) ← body.check wanted
      return (ps, body, found)
    let result ←
      match wanted with
      | none => pure found
      | some want =>
        if !found.assignable want && want ≠ .unit then reject (.lambdaResult want found) body.tok
        pure want
    return (.mk { m with ty := some (.fn types (some result)) } ps body captures, types, result)

/-- A call of a function, or of a variable that holds one; the innermost declaration counts. -/
def Call.check : Call → Check (Call × Ty)
  | .mk m callee args => do
    match ← resolve? callee.name with
    | none => reject (.unknownFunction callee.name) callee.tok
    | some sym =>
      match sym.ty with
      | .fn params result =>
        if args.length ≠ params.length then
          reject (.argumentCount callee.name params.length args.length) m.tok
        let args ← Expr.checkArgs callee.name 1 args params
        match result with
        | none => reject (.noType .call) m.tok
        | some t =>
          let callee := { callee with sym := some sym, ty := some sym.ty }
          return (.mk { m with ty := some t } callee args, t)
      | t => reject (.notCallable callee.name t) callee.tok

/-- The arguments of a call, the first of which has the given number. -/
def Expr.checkArgs (name : String) (number : Nat) : List Expr → List Ty → Check (List Expr)
  | e :: es, want :: wants => do
    let (e, t) ← e.check (some want)
    requireValue e t
    if !t.assignable want then reject (.badArgument number name want t) e.tok
    return e :: (← Expr.checkArgs name (number + 1) es wants)
  | _, _ => return []

end

end Kotlet

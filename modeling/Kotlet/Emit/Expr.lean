import Kotlet.Emit

/-!
# Code for expressions

An expression is used in two ways: for its value, and as a condition to branch on. Conditions
branch without making a truth value first, and `&&` and `||` skip their right side.

* `Emit.Piece` : an expression with the code of both uses;
* `Emit.Place` : a variable or element with the code of its index;
* `Expr.piece` : the code of an expression.
-/

namespace Kotlet

open ClassFile

namespace Emit

/-- An expression with its code. -/
structure Piece where
  /-- The expression. -/
  expr : Expr
  /-- Leaves the value on the stack; a value of type `Unit` leaves nothing. -/
  value : Emit Unit
  /-- Goes to a label if the value is the given one, and on otherwise. -/
  jump : Bool → Nat → Emit Unit

/-- A piece that is a value first of all. -/
def Piece.ofValue (e : Expr) (value : Emit Unit) : Piece :=
  ⟨e, value, fun want l => do
    value
    Emit.jump (if want then .ifNe else .ifEq) l⟩

/-- Leaves 1 or 0 on the stack, as a condition tells. -/
def materialize (branch : Bool → Nat → Emit Unit) : Emit Unit := do
  let isTrue ← newLabel
  let done ← newLabel
  branch true isTrue
  pushInt 0
  jump .goto done
  bindLabel isTrue
  pushInt 1
  bindLabel done

/-- A piece that is a condition first of all. -/
def Piece.ofJump (e : Expr) (branch : Bool → Nat → Emit Unit) : Piece :=
  ⟨e, materialize branch, branch⟩

/-- Leaves the value of a piece as a value of another type. -/
def valueAs (p : Piece) (want : Ty) : Emit Unit := do
  let t ← typeOf p.expr
  p.value
  coerce t want

/-! ## Texts -/

/-- The name of the method that shows any object. -/
def showName : String := "show$"

/-- The type of the method that shows any object. -/
def showDescriptor : String := Jvm.method [Jvm.reference Jvm.object] (Jvm.reference Jvm.string)

/-- Shows the object on the stack. -/
def callShow : Emit Unit := do
  modify fun s => { s with usesShow := true }
  callStatic (← read).unit showName showDescriptor

/-- Leaves the value of a piece so that it can be printed, and tells its type then. -/
def printable (p : Piece) : Emit Ty := do
  let t ← typeOf p.expr
  p.value
  if t.needsShow then
    callShow
    return .string
  match t with
  | .array s => callStatic Jvm.arrays "toString" (arrayTextDescriptor s)
  | _ => pure ()
  return t

/-- Appends what is on the stack to the text builder below it. -/
def append (desc : String) : Emit Unit :=
  callVirtual Jvm.stringBuilder "append" (Jvm.method [desc] (Jvm.reference Jvm.stringBuilder))

/-- Appends literal characters, if there are any. -/
def appendChars (cs : List Char) : Emit Unit :=
  if cs = [] then pure ()
  else do
    pushString (String.ofList cs)
    append (Jvm.reference Jvm.string)

/-- Appends a text from the place `pos` on: `rest` is the literal text from there on. -/
def appendSplices (tok : Token) (pos : Nat) (rest : List Char) : List (Int × Piece) → Emit Unit
  | [] => appendChars rest
  | (offset, p) :: splices => do
    if offset < pos ∨ pos + rest.length < offset then reject (.badOffset offset) tok
    let step := (offset - pos).toNat
    appendChars (rest.take step)
    append (← printable p).printDescriptor
    appendSplices tok (pos + step) (rest.drop step) splices

/-- A text with templates. -/
def template (tok : Token) (text : String) (splices : List (Int × Piece)) : Emit Unit := do
  onClass .newObject Jvm.stringBuilder
  op .dup
  callInit Jvm.stringBuilder "()V"
  appendSplices tok 0 text.toList splices
  callVirtual Jvm.stringBuilder "toString" (Jvm.method [] (Jvm.reference Jvm.string))

/-! ## Variables and elements -/

/-- A variable, or an element with the code of its index. -/
inductive Place where
  /-- A variable. -/
  | name (id : Ident)
  /-- An element. -/
  | element (m : Mark) (base : Ident) (index : Piece)

/-- The value of a name. -/
def readName (id : Ident) : Emit Unit := do
  let sym ← symbolOf id
  if sym.isFunction then
    match (← read).functions.find? fun f => f.name.name == sym.name with
    | none => reject (.unknownFunction sym.name) id.tok
    | some f =>
      methodHandle (← methodOf sym.name) (methodDescriptor f.paramTypes (some f.result))
  else load (← variableOf id)

/-- Leaves a collection and an index, and tells the kind of the collection and its elements. -/
def elementPlace (m : Mark) (base : Ident) (index : Piece) : Emit (CollectionKind × Scalar) := do
  let l ← variableOf base
  let (kind, s) ←
    match l.ty with
    | .array s => pure (CollectionKind.array, s)
    | .list s => pure (CollectionKind.list, s)
    | t => reject (.notIndexable base.name t) m.tok
  load l
  index.value
  return (kind, s)

/-- Takes a collection and an index, and leaves the element. -/
def loadElement (kind : CollectionKind) (s : Scalar) : Emit Unit :=
  match kind with
  | .list => listGet (.scalar s)
  | .array => op (arrayLoadOp s)

/-- Takes a collection and an index, and leaves the number there. -/
def loadInt (kind : CollectionKind) : Emit Unit :=
  match kind with
  | .list => listGet .int
  | .array => op .iaload

/-- Takes a collection, an index and a number, and puts the number there. -/
def storeInt (kind : CollectionKind) : Emit Unit :=
  match kind with
  | .list => do
    box .int
    listSet
  | .array => op .iastore

/-- The value of a place. -/
def Place.read : Place → Emit Unit
  | .name id => readName id
  | .element m base index => do
    let (kind, s) ← elementPlace m base index
    loadElement kind s

/-- What `++` or `--` adds. -/
def delta (op : String) : Int32 := if op = "--" then -1 else 1

/-- `++` or `--` as a value: the new one if the operator stands before its target. -/
def incDec (sign : String) (before : Bool) : Place → Emit Unit
  | .name id => do
    let l ← variableOf id
    if before then
      increment l (delta sign).toInt
      load l
    else
      load l
      increment l (delta sign).toInt
  | .element m base index => do
    let (kind, _) ← elementPlace m base index
    op .dup2
    loadInt kind
    if !before then op .dupX2
    pushInt (delta sign)
    op .iadd
    if before then op .dupX2
    storeInt kind

/-! ## Operators -/

/-- An operation on numbers. -/
def arithmetic (tok : Token) (sign : String) (left right : Piece) : Emit Unit := do
  left.value
  right.value
  match ArithOp.ofText? sign with
  | some o => op o.opcode
  | none => reject (.unknownOperator sign) tok

/-- A branch on two conditions. Against `skip` the left one decides alone. -/
def connective (sign : String) (left right : Piece) (want : Bool) (target : Nat) : Emit Unit := do
  if (sign == "&&") = want then
    let skip ← newLabel
    left.jump (!want) skip
    right.jump want target
    bindLabel skip
  else
    left.jump want target
    right.jump want target

/-- Whether an expression is the number zero. -/
def isZero : Expr → Bool
  | .int _ n => n == 0
  | _ => false

/-- The branch on a comparison. Texts are compared by their own methods, and numbers are compared
with a literal zero directly. -/
def comparison (tok : Token) (sign : String) (left right : Piece) (want : Bool) (target : Nat) :
    Emit Unit := do
  let t ← typeOf left.expr
  match CompareOp.ofText? sign with
  | none => reject (.unknownComparison sign) tok
  | some o =>
    left.value
    let branch : Opcode ←
      if t = .string then do
        right.value
        if o.isEquality then
          callVirtual Jvm.string "equals" (Jvm.method [Jvm.reference Jvm.object] "Z")
          pure (if o = .ne then .ifEq else .ifNe)
        else
          callVirtual Jvm.string "compareTo" (Jvm.method [Jvm.reference Jvm.string] "I")
          pure o.zeroBranch
      else if isZero right.expr ∧ t = .int then pure o.zeroBranch
      else do
        right.value
        pure o.intBranch
    jump (if want then branch else branch.negate) target

/-! ## Collections -/

/-- The kind and the elements of a collection, by its type. -/
def collectionParts (e : Expr) : Emit (Ty × CollectionKind × Scalar) := do
  match ← typeOf e with
  | .array s => return (.array s, .array, s)
  | .list s => return (.list s, .list, s)
  | t => reject (.badCollection t) e.tok

/-- Adds values to the list on the stack. -/
def addAll : List Piece → Emit Unit
  | [] => return ()
  | p :: ps => do
    op .dup
    valueAs p .any
    listAdd
    addAll ps

/-- Stores values of a type from the index `i` on in the array on the stack. -/
def storeAll (t : Ty) (store : Opcode) (i : Nat) : List Piece → Emit Unit
  | [] => return ()
  | p :: ps => do
    op .dup
    pushInt (Int32.ofNat i)
    valueAs p t
    op store
    storeAll t store (i + 1) ps

/-- A collection with its elements written out. -/
def collection (e : Expr) (elements : List Piece) : Emit Unit := do
  let (_, kind, s) ← collectionParts e
  pushInt (Int32.ofNat elements.length)
  match kind with
  | .list =>
    newList
    addAll elements
  | .array =>
    newArray s
    storeAll (.scalar s) (arrayStoreOp s) 0 elements

/-- A collection of a size. The generator becomes a loop: its parameter is the index, and its body
is run for every element. -/
def sized (e : Expr) (size : Piece) (gen : Mark) (params : List Param) (body : Piece) :
    Emit Unit := do
  let (t, kind, s) ← collectionParts e
  let param ←
    match params with
    | [p] => pure p
    | _ => reject .generatorArity gen.tok
  let index ← symbolOf param.name
  size.value
  let count ← scratch .int size.expr.tok
  store count
  load count
  match kind with
  | .list => newList
  | .array => newArray s
  let result ← scratch t e.tok
  store result
  pushInt 0
  let i ← declare index param.name.tok
  store i
  let top ← newLabel
  let exit ← newLabel
  bindLabel top
  load i
  load count
  jump .ifIcmpGe exit
  load result
  match kind with
  | .list =>
    valueAs body .any
    listAdd
  | .array =>
    load i
    valueAs body (.scalar s)
    op (arrayStoreOp s)
  increment i 1
  jump .goto top
  bindLabel exit
  load result

/-! ## Functions -/

/-- The value of the body of a lambda as its result. -/
def lambdaResult (body : Piece) (result : Ty) : Emit Unit := do
  let t ← typeOf body.expr
  body.value
  if result = .unit then
    if t ≠ .unit then op .pop
    op .vreturn
  else
    coerce t result
    op result.returnOp

/-- The symbols of parameters. -/
def paramSymbols : List Param → Emit (List Symbol)
  | [] => return []
  | p :: ps => do
    let sym ← symbolOf p.name
    return sym :: (← paramSymbols ps)

/-- Stores captured values from the index `i` on in the array on the stack. -/
def storeCaptures (tok : Token) (i : Nat) : List Symbol → Emit Unit
  | [] => return ()
  | sym :: syms => do
    match ← slot? sym with
    | none => reject (.captureNoSlot sym.name) tok
    | some l =>
      op .dup
      pushInt (Int32.ofNat i)
      load l
      box l.ty
      op .aastore
      storeCaptures tok (i + 1) syms

/-- A function value. Its body is a method that takes the captured values after its parameters;
the handle to that method gets them when it is made. -/
def lambda (m : Mark) (params : List Param) (body : Piece) (captures : List Symbol) :
    Emit Unit := do
  let result ←
    match ← typeOf (.lambda (.mk m params body.expr captures)) with
    | .fn _ result => pure (result.getD .unit)
    | t => reject (.badLambda t) m.tok
  let syms := (← paramSymbols params) ++ captures
  let types := syms.map Symbol.ty
  let name := "lambda$" ++ toString (← get).lambdas
  modify fun s => { s with lambdas := s.lambdas + 1 }
  method [.isPrivate, .isStatic, .isSynthetic] name types result m.tok (syms.map some)
    body.expr.tok (lambdaResult body result)
  methodHandle name (methodDescriptor types (some result))
  if captures ≠ [] then
    pushInt (Int32.ofNat params.length)
    pushInt (Int32.ofNat captures.length)
    onClass .anewArray Jvm.object
    storeCaptures m.tok 0 captures
    let handle := Jvm.reference Jvm.methodHandle
    callStatic Jvm.methodHandles "insertArguments"
      (Jvm.method [handle, "I", "[" ++ Jvm.reference Jvm.object] handle)

/-- Leaves arguments as values of the types of the parameters. -/
def arguments : List Piece → List Ty → Emit Unit
  | p :: ps, t :: ts => do
    valueAs p t
    arguments ps ts
  | _, _ => return ()

/-- A call: of a function directly, of a function value through its handle. -/
def call (m : Mark) (callee : Ident) (args : List Piece) : Emit Unit := do
  let sym ← symbolOf callee
  let (params, result) ←
    match sym.ty with
    | .fn params result =>
      if params.length = args.length then pure (params, result)
      else reject (.notCallable callee.name sym.ty args.length) m.tok
    | t => reject (.notCallable callee.name t args.length) m.tok
  if sym.isFunction then
    arguments args params
    callStatic (← read).unit (← methodOf sym.name) (methodDescriptor params result)
  else
    load (← variableOf callee)
    pushInt (Int32.ofNat args.length)
    onClass .anewArray Jvm.object
    storeAll .any .aastore 0 args
    let object := Jvm.reference Jvm.object
    callVirtual Jvm.methodHandle "invokeWithArguments" (Jvm.method ["[" ++ object] object)
    let result := result.getD .unit
    if result = .unit then op .pop else unbox result

end Emit

open Emit

mutual

/-- The code of an expression. -/
def Expr.piece : Expr → Piece
  | .int m n => .ofValue (.int m n) (pushInt n)
  | .bool m b =>
    ⟨.bool m b, onCode fun c => c.pushBool b,
      fun want l => if b = want then jump .goto l else pure ()⟩
  | .str m text splices =>
    .ofValue (.str m text splices)
      (match Splice.pieces splices with
       | [] => pushString text
       | ps => template m.tok text ps)
  | .read t => .ofValue (.read t) t.place.read
  | .arith m sign l r => .ofValue (.arith m sign l r) (arithmetic m.tok sign l.piece r.piece)
  | .compare m sign l r => .ofJump (.compare m sign l r) (comparison m.tok sign l.piece r.piece)
  | .logic m sign l r => .ofJump (.logic m sign l r) (connective sign l.piece r.piece)
  | .not m e =>
    let p := e.piece
    ⟨.not m e, do p.value; pushInt 1; op .ixor, fun want l => p.jump (!want) l⟩
  | .incDec e => .ofValue (.incDec e) e.value
  | .collection m kind es =>
    .ofValue (.collection m kind es) (collection (.collection m kind es) (Expr.pieces es))
  | .sized m kind size gen =>
    .ofValue (.sized m kind size gen) (gen.fill (.sized m kind size gen) size.piece)
  | .lambda l => .ofValue (.lambda l) l.value
  | .call c => .ofValue (.call c) c.value
  | .range r => .ofValue (.range r) (reject .strayRange r.mark.tok)

/-- The code of several expressions. -/
def Expr.pieces : List Expr → List Piece
  | [] => []
  | e :: es => e.piece :: Expr.pieces es

/-- The code of templates, each with its place. -/
def Splice.pieces : List Splice → List (Int × Piece)
  | [] => []
  | .mk offset e :: ss => (offset, e.piece) :: Splice.pieces ss

/-- The code of a target. -/
def Target.place : Target → Place
  | .name id => .name id
  | .element m base index => .element m base index.piece

/-- The code of `++` or `--` as a value. -/
def IncDec.value : IncDec → Emit Unit
  | .mk _ sign before target => incDec sign before target.place

/-- The code of a collection that a generator fills. -/
def Lambda.fill (e : Expr) (size : Piece) : Lambda → Emit Unit
  | .mk m params body _ => sized e size m params body.piece

/-- The code of a function value. -/
def Lambda.value : Lambda → Emit Unit
  | .mk m params body captures => lambda m params body.piece captures

/-- The code of a call. -/
def Call.value : Call → Emit Unit
  | .mk m callee args => call m callee (Expr.pieces args)

end

end Kotlet

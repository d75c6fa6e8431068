import Kotlet.Random
import Kotlet.Syntax

/-!
# Mutations of programs

A mutation changes one place of a program that is chosen at random: an operator, a literal or a
name, or it takes a statement away. The result can always be written and read again, but it may be
ill-typed.

* `Mutation` : steps of a mutation;
* `Expr.mutate`, `Stmt.mutate` : a change inside an expression or a statement;
* `Program.mutate` : a change of a program.
-/

namespace Kotlet

/-- Steps of a mutation, which may use the given names. -/
abbrev Mutation (σ : Type) := ReaderT (List String) (Draw σ)

variable {σ : Type} [Source σ]

namespace Mutation

/-- A number below `n`. -/
def below (n : Nat) : Mutation σ Nat := liftM (Source.below n : Draw σ Nat)

/-- A fraction below 1, in units of `2 ^ -63`. -/
def fraction : Mutation σ Nat := liftM (Source.fraction : Draw σ Nat)

/-- Whether a fraction is below so many hundredths. -/
def isBelow (fraction percent : Nat) : Bool := fraction < unitFraction percent 100

/-- True with a chance of so many hundredths. -/
def chance (percent : Nat) : Mutation σ Bool := do
  return isBelow (← fraction) percent

/-- One of some texts. -/
def oneOf (options : List String) : Mutation σ String := do
  return options.getD (← below options.length) ""

/-- Another name, if there is one. -/
def rename (id : Ident) : Mutation σ Ident := do
  match ← read with
  | [] => return id
  | names => return { id with name := ← oneOf names }

/-- Replaces one character by a letter. -/
def changeLetter (text : String) : Mutation σ String := do
  match text.toList with
  | [] => return text
  | cs =>
    let i ← below cs.length
    let letter := Char.ofNat ('a'.toNat + (← below 26))
    return String.ofList (cs.set i letter)

/-- A number that is at most ten away. -/
def changeNumber (n : Int32) : Mutation σ Int32 := do
  return n + Int32.ofInt ((← below 21) - 10)

/-- What a mutation does to a node with an operator and two parts. -/
inductive Choice where
  | operator | left | right
  deriving DecidableEq, Inhabited

/-- One of the three choices. -/
def choice : Mutation σ Choice := do
  let r ← fraction
  return if isBelow r 33 then .operator else if isBelow r 66 then .left else .right

/-- With a chance of one tenth an element is taken away; otherwise the one at some index is changed. -/
def removeOr {α : Type} (changeNth : Nat → Mutation σ (List α)) (as : List α) : Mutation σ (List α) := do
  if as.isEmpty then return []
  if ← chance 10 then return as.eraseIdx (← below as.length)
  let i ← below as.length
  changeNth i

/-- The operators for numbers. -/
def arithOps : List String := ["+", "-", "*", "/", "%"]
/-- The comparisons. -/
def compareOps : List String := ["<", ">", "<=", ">=", "==", "!="]
/-- The operators for truth values. -/
def logicOps : List String := ["&&", "||"]
/-- The assignment operators. -/
def compoundOps : List String := ["+=", "-=", "*=", "/="]

end Mutation

open Mutation

mutual

/-- A change inside an expression. -/
def Expr.mutate : Expr → Mutation σ Expr
  | .arith m op l r => do
    match ← choice with
    | .operator => return .arith m (← oneOf arithOps) l r
    | .left => return .arith m op (← l.mutate) r
    | .right => return .arith m op l (← r.mutate)
  | .compare m op l r => do
    match ← choice with
    | .operator => return .compare m (← oneOf compareOps) l r
    | .left => return .compare m op (← l.mutate) r
    | .right => return .compare m op l (← r.mutate)
  | .logic m op l r => do
    match ← choice with
    | .operator => return .logic m (← oneOf logicOps) l r
    | .left => return .logic m op (← l.mutate) r
    | .right => return .logic m op l (← r.mutate)
  | .not m e => do return .not m (← e.mutate)
  | .int m n => do return .int m (← changeNumber n)
  | .bool m b => return .bool m (!b)
  | .str m text splices => do
    if !splices.isEmpty then
      if ← chance 50 then
        let i ← below splices.length
        return .str m text (← Splice.mutateNth i splices)
    return .str m (← changeLetter text) splices
  | .read (.name id) => do return .read (.name (← rename id))
  | .read (.element m base index) => do
    if ← chance 30 then return .read (.element m (← rename base) index)
    else return .read (.element m base (← index.mutate))
  | .incDec (.mk m op before target) => do return .incDec (.mk m op before (← target.mutate))
  | .collection m kind es => do
    if es.isEmpty then return .collection m kind es
    let i ← below es.length
    return .collection m kind (← Expr.mutateNth i es)
  | .sized m kind size (.mk lm params body captures) => do
    if ← chance 50 then return .sized m kind (← size.mutate) (.mk lm params body captures)
    else return .sized m kind size (.mk lm params (← body.mutate) captures)
  | .lambda (.mk m params body captures) => do return .lambda (.mk m params (← body.mutate) captures)
  | .call c => do return .call (← c.mutate)
  | .range r => return .range r

/-- A change inside the expression at an index. -/
def Expr.mutateNth : Nat → List Expr → Mutation σ (List Expr)
  | _, [] => return []
  | 0, e :: es => do return (← e.mutate) :: es
  | i + 1, e :: es => do return e :: (← Expr.mutateNth i es)

/-- A change inside the template at an index. -/
def Splice.mutateNth : Nat → List Splice → Mutation σ (List Splice)
  | _, [] => return []
  | 0, .mk offset e :: ss => do return .mk offset (← e.mutate) :: ss
  | i + 1, s :: ss => do return s :: (← Splice.mutateNth i ss)

/-- A change of a target: another variable, or another index. -/
def Target.mutate : Target → Mutation σ Target
  | .name id => do return .name (← rename id)
  | .element m base index => do return .element m base (← index.mutate)

/-- A change inside an argument of a call. -/
def Call.mutate : Call → Mutation σ Call
  | .mk m f args => do
    if args.isEmpty then return .mk m f args
    let i ← below args.length
    return .mk m f (← Expr.mutateNth i args)

end

/-- A change inside a range. -/
def Range.mutate : Range → Mutation σ Range
  | .mk m first last step => do
    match ← below 3, step with
    | 0, _ => return .mk m (← first.mutate) last step
    | 1, _ => return .mk m first (← last.mutate) step
    | _, none => return .mk m first (← last.mutate) step
    | _, some s => return .mk m first last (some (← s.mutate))

/-- A change inside a loop header. -/
def Header.mutate : Header → Mutation σ Header
  | .range r => do return .range (← r.mutate)
  | .each e => do return .each (← e.mutate)

/-- A change inside an expression that may be absent. -/
def Expr.mutateOption : Option Expr → Mutation σ (Option Expr)
  | none => return none
  | some e => do return some (← e.mutate)

mutual

/-- A change inside a statement. -/
def Stmt.mutate : Stmt → Mutation σ Stmt
  | .decl t isMutable name ty value => do
    return .decl t isMutable name ty (← Expr.mutateOption value)
  | .assign t target value => do
    if ← chance 30 then return .assign t (← target.mutate) value
    else return .assign t target (← value.mutate)
  | .compound t target op value => do
    if ← chance 50 then return .compound t target (← oneOf compoundOps) value
    else return .compound t target op (← value.mutate)
  | .selfOp t (.mk m op before target) => do return .selfOp t (.mk m op before (← target.mutate))
  | .print t newline value => do return .print t newline (← Expr.mutateOption value)
  | .ifElse t cond a none => do
    if ← chance 40 then return .ifElse t (← cond.mutate) a none
    else return .ifElse t cond (← a.mutate) none
  | .ifElse t cond a (some b) => do
    let r ← fraction
    if isBelow r 40 then return .ifElse t (← cond.mutate) a (some b)
    else if isBelow r 70 then return .ifElse t cond (← a.mutate) (some b)
    else return .ifElse t cond a (some (← b.mutate))
  | .whileLoop t cond body => do
    if ← chance 30 then return .whileLoop t (← cond.mutate) body
    else return .whileLoop t cond (← body.mutate)
  | .forLoop t x header body => do
    if ← chance 30 then return .forLoop t x (← header.mutate) body
    else return .forLoop t x header (← body.mutate)
  | .function (.mk t name params result body) => do
    return .function (.mk t name params result (← body.mutate))
  | .call t c => do return .call t (← c.mutate)
  | .ret t value => do return .ret t (← Expr.mutateOption value)
  | .block b => do return .block (← b.mutate)
  | .brk t => return .brk t
  | .cont t => return .cont t

/-- A change inside the statement at an index. -/
def Stmt.mutateNth : Nat → List Stmt → Mutation σ (List Stmt)
  | _, [] => return []
  | 0, s :: ss => do return (← s.mutate) :: ss
  | i + 1, s :: ss => do return s :: (← Stmt.mutateNth i ss)

/-- A change inside a block. -/
def Block.mutate : Block → Mutation σ Block
  | .mk t ss close => do return .mk t (← removeOr (fun i => Stmt.mutateNth i ss) ss) close

end

/-- A change inside statements. -/
def Stmt.mutateOne (ss : List Stmt) : Mutation σ (List Stmt) := removeOr (fun i => Stmt.mutateNth i ss) ss

/-- The names of the variables and functions of the script itself. -/
def Program.declaredNames (p : Program) : List String :=
  p.stmts.filterMap fun
    | .decl _ _ name _ _ => some name.name
    | .function f => some f.name.name
    | _ => none

/-- A change of a program, which uses the names that the program declares. -/
def Program.mutate (p : Program) : Draw σ Program := do
  let stmts ← (Stmt.mutateOne p.stmts).run p.declaredNames
  return { p with stmts := stmts }

/-- `n` changes in a row: the program after each of them. -/
def Program.mutations (p : Program) : Nat → Draw σ (List Program)
  | 0 => return []
  | n + 1 => do
    let p ← p.mutate
    return p :: (← p.mutations n)

end Kotlet

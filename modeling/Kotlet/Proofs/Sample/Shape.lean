import Kotlet.Proofs.Sample.Progress
import Kotlet.Sample

/-!
# The trees of sample programs

Which trees sample programs are read as, in terms of the functions and variables that are known by
name: `F` are the functions with the numbers of their parameters, `S` the variables in scope. Sizes
bound how many expressions and statements lie inside each other, and how many function values a
statement makes.

* `IsNumber`, `IsTest`, `IsPrinted`, `IsValue` : numbers, conditions, what is printed, and what
  variables are declared with;
* `Follows` : statements, with the variables in scope after them;
* `IsFunction`, `AreFunctions` : functions that only call those before them.
-/

namespace Kotlet
namespace Sample

/-- The functions that are known, with the numbers of their parameters. -/
abbrev Arities := List (String × Nat)

variable {F : Arities} {S S' S'' : List Var} {k k' n : Nat}

/-- The name is that of a variable of a kind. -/
def InScope (S : List Var) (kind : Kind) (name : String) : Prop := ∃ w, ⟨name, kind, w⟩ ∈ S

/-- The name is that of no variable in scope and of no function that is known. -/
structure IsFresh (F : Arities) (S : List Var) (name : String) : Prop where
  vars : ∀ x ∈ S, x.name ≠ name
  functions : ∀ f ∈ F, f.1 ≠ name

/-! ## Expressions -/

/-- A number. Nothing is divided by zero, and indices lie within three elements. -/
inductive IsNumber (F : Arities) (S : List Var) : Nat → Expr → Prop where
  | int {n : Nat} (hn : 0 < n) (m : Mark) (i : Int32) : IsNumber F S n (.int m i)
  | read {n : Nat} {id : Ident} (hn : 0 < n) (hid : InScope S .number id.name) :
    IsNumber F S n (.read (.name id))
  | arith {k k' n : Nat} {m : Mark} {op : String} {l r : Expr} (hn : k + k' < n)
    (hkind : m.tok.kind ∈ [.plus, .minus, .times]) (hop : op = m.tok.kind.text)
    (hl : IsNumber F S k l) (hr : IsNumber F S k' r) : IsNumber F S n (.arith m op l r)
  | divide {k n : Nat} {m m' : Mark} {op : String} {l : Expr} {d : Int32} (hn : k + 1 < n)
    (hkind : m.tok.kind ∈ [.slash, .percent]) (hop : op = m.tok.kind.text) (hd : d ≠ 0)
    (hl : IsNumber F S k l) : IsNumber F S n (.arith m op l (.int m' d))
  | element {n : Nat} {m m' : Mark} {base : Ident} {i : Int32} (hn : 1 < n)
    (hbase : InScope S .collection base.name) (hi : IsIndex i) :
    IsNumber F S n (.read (.element m base (.int m' i)))
  | call {k n : Nat} {m : Mark} {callee : Ident} {args : List Expr} (hn : k < n)
    (hcallee : (callee.name, args.length) ∈ F) (hargs : ∀ e ∈ args, IsNumber F S k e) :
    IsNumber F S n (.call (.mk m callee args))
  | apply {k n : Nat} {m : Mark} {callee : Ident} {arg : Expr} (hn : k < n)
    (hcallee : InScope S .function callee.name) (harg : IsNumber F S k arg) :
    IsNumber F S n (.call (.mk m callee [arg]))

/-- A condition. -/
inductive IsTest (F : Arities) (S : List Var) : Nat → Expr → Prop where
  | bool {n : Nat} (hn : 0 < n) (m : Mark) (b : Bool) : IsTest F S n (.bool m b)
  | numbers {k k' n : Nat} {m : Mark} {op : String} {l r : Expr} (hk : k < n) (hk' : k' < n)
    (hop : (CompareOp.ofText? op).isSome = true) (hl : IsNumber F S k l) (hr : IsNumber F S k' r) :
    IsTest F S n (.compare m op l r)
  | texts {n : Nat} {m m₁ m₂ : Mark} {op s t : String} (hn : 1 < n)
    (hop : (CompareOp.ofText? op).isSome = true) :
    IsTest F S n (.compare m op (.str m₁ s []) (.str m₂ t []))
  | logic {k k' n : Nat} {m : Mark} {op : String} {l r : Expr} (hk : k < n) (hk' : k' < n)
    (hl : IsTest F S k l) (hr : IsTest F S k' r) : IsTest F S n (.logic m op l r)
  | not {k n : Nat} {m : Mark} {e : Expr} (hk : k < n) (h : IsTest F S k e) :
    IsTest F S n (.not m e)

/-- What is printed. -/
inductive IsPrinted (F : Arities) (S : List Var) : Nat → Expr → Prop where
  | number {n : Nat} {e : Expr} (h : IsNumber F S n e) : IsPrinted F S n e
  | test {n : Nat} {e : Expr} (h : IsTest F S n e) : IsPrinted F S n e
  | collection {n : Nat} {id : Ident} (hn : 0 < n) (hid : InScope S .collection id.name) :
    IsPrinted F S n (.read (.name id))
  | template {k n : Nat} {m : Mark} {text : String} {splices : List Splice} (hk : k < n)
    (horder : Template.InOrder text.toList.length 0 splices)
    (hsplices : ∀ offset e, .mk offset e ∈ splices → IsNumber F S k e) :
    IsPrinted F S n (.str m text splices)

/-- What a variable of a kind is declared with, and how much deeper calls of it may go. -/
inductive IsValue (F : Arities) (S : List Var) : Nat → Nat → Kind → Expr → Prop where
  | number {n : Nat} {e : Expr} (h : IsNumber F S n e) : IsValue F S n 0 .number e
  | elements {k n : Nat} {m : Mark} {kind : CollectionKind} {es : List Expr} (hk : k < n)
    (hlen : es.length = 3) (hes : ∀ e ∈ es, IsNumber F S k e) :
    IsValue F S n 0 .collection (.collection m kind es)
  | sized {k n : Nat} {m m₁ m₂ : Mark} {kind : CollectionKind} {p : Param} {body : Expr} (hk : k < n)
    (hn : 1 < n) (hty : p.ty = none) (hfresh : IsFresh F S p.name.name)
    (hbody : IsNumber F (⟨p.name.name, .number, false⟩ :: S) k body) :
    IsValue F S n 0 .collection (.sized m kind (.int m₁ 3) (.mk m₂ [p] body []))
  | function {k n : Nat} {m : Mark} {p : Param} {body : Expr} (hn : 0 < n) (hk : k ≤ span)
    (hty : p.ty = some .int) (hfresh : IsFresh F S p.name.name)
    (hbody : IsNumber F (⟨p.name.name, .number, false⟩ :: S) k body) :
    IsValue F S n 1 .function (.lambda (.mk m [p] body []))

theorem IsNumber.mono {e : Expr} (h : IsNumber F S k e) (hk : k ≤ k') : IsNumber F S k' e := by
  cases h with
  | int hn m i => exact .int (by omega) m i
  | read hn hid => exact .read (by omega) hid
  | arith hn hkind hop hl hr => exact .arith (by omega) hkind hop hl hr
  | divide hn hkind hop hd hl => exact .divide (by omega) hkind hop hd hl
  | element hn hbase hi => exact .element (by omega) hbase hi
  | call hn hcallee hargs => exact .call (by omega) hcallee hargs
  | apply hn hcallee harg => exact .apply (by omega) hcallee harg

theorem IsTest.mono {e : Expr} (h : IsTest F S k e) (hk : k ≤ k') : IsTest F S k' e := by
  cases h with
  | bool hn m b => exact .bool (by omega) m b
  | numbers hl' hr' hop hl hr => exact .numbers (by omega) (by omega) hop hl hr
  | texts hn hop => exact .texts (by omega) hop
  | logic hl' hr' hl hr => exact .logic (by omega) (by omega) hl hr
  | not he' he => exact .not (by omega) he

/-! ## Statements -/

/-- Statements of a sample program, inside a loop or not, with the variables in scope before and
after them. -/
inductive Follows (F : Arities) : Bool → Nat → Nat → List Var → List Stmt → List Var → Prop where
  | nil {b : Bool} {S : List Var} : Follows F b 0 0 S [] S
  | append {b : Bool} {c c' k k' : Nat} {S S' S'' : List Var} {ss ss' : List Stmt}
    (h : Follows F b c k S ss S') (h' : Follows F b c' k' S' ss' S'') :
    Follows F b (c + c') (max k k') S (ss ++ ss') S''
  | weaken {b : Bool} {c c' k k' : Nat} {S S' : List Var} {ss : List Stmt} (hc : c ≤ c') (hk : k ≤ k')
    (h : Follows F b c k S ss S') : Follows F b c' k' S ss S'
  | decl {b w isMutable : Bool} {c k n : Nat} {S : List Var} {tok : Token} {name : Ident}
    {kind : Kind} {e : Expr} (hk : k < n) (hfresh : IsFresh F S name.name)
    (hw : w = true → isMutable = true ∧ kind = .number) (he : IsValue F S k c kind e) :
    Follows F b c n S [.decl tok isMutable name none (some e)] (⟨name.name, kind, w⟩ :: S)
  | assign {b : Bool} {k n : Nat} {S : List Var} {tok : Token} {id : Ident} {e : Expr} (hk : k < n)
    (hid : ⟨id.name, .number, true⟩ ∈ S) (he : IsNumber F S k e) :
    Follows F b 0 n S [.assign tok (.name id) e] S
  | assignElement {b : Bool} {k n : Nat} {S : List Var} {tok : Token} {m m' : Mark} {base : Ident}
    {i : Int32} {e : Expr} (hk : k < n) (hn : 1 < n) (hbase : InScope S .collection base.name)
    (hi : IsIndex i) (he : IsNumber F S k e) :
    Follows F b 0 n S [.assign tok (.element m base (.int m' i)) e] S
  | compound {b : Bool} {k n : Nat} {S : List Var} {tok : Token} {op : String} {id : Ident} {e : Expr}
    (hk : k < n) (hop : Total (compoundOperator op)) (hid : ⟨id.name, .number, true⟩ ∈ S)
    (he : IsNumber F S k e) : Follows F b 0 n S [.compound tok (.name id) op e] S
  | compoundElement {b : Bool} {k n : Nat} {S : List Var} {tok : Token} {m m' : Mark} {base : Ident}
    {i : Int32} {op : String} {e : Expr} (hk : k < n) (hn : 1 < n) (hop : Total (compoundOperator op))
    (hbase : InScope S .collection base.name) (hi : IsIndex i) (he : IsNumber F S k e) :
    Follows F b 0 n S [.compound tok (.element m base (.int m' i)) op e] S
  | selfOp {b before : Bool} {n : Nat} {S : List Var} {tok : Token} {m : Mark} {op : String}
    {id : Ident} (hn : 0 < n) (hid : ⟨id.name, .number, true⟩ ∈ S) :
    Follows F b 0 n S [.selfOp tok (.mk m op before (.name id))] S
  | print {b newline : Bool} {k n : Nat} {S : List Var} {tok : Token} {e : Expr} (hk : k < n)
    (he : IsPrinted F S k e) : Follows F b 0 n S [.print tok newline (some e)] S
  | brk {n : Nat} {S : List Var} (hn : 0 < n) (tok : Token) : Follows F true 0 n S [.brk tok] S
  | ifThen {b : Bool} {c k n : Nat} {S S' : List Var} {tok brace close : Token} {test : Expr}
    {ss : List Stmt} (hk : k < n) (htest : IsTest F S k test) (hthen : Follows F b c k S ss S') :
    Follows F b c n S [.ifElse tok test (.mk brace ss close) none] S
  | ifElse {b : Bool} {c k n : Nat} {S S' S'' : List Var} {tok brace close brace' close' : Token}
    {test : Expr} {ss ss' : List Stmt} (hk : k < n) (htest : IsTest F S k test)
    (hthen : Follows F b c k S ss S') (helse : Follows F b c k S ss' S'') :
    Follows F b c n S [.ifElse tok test (.mk brace ss close) (some (.mk brace' ss' close'))] S
  | range {b : Bool} {c k n : Nat} {S S' : List Var} {tok brace close : Token} {id : Ident}
    {m m₁ m₂ : Mark} {first last : Int32} {step : Option Expr} {ss : List Stmt} (hk : k < n)
    (hn : 1 < n) (hfresh : IsFresh F S id.name) (hstep : IsStep step)
    (hbody : Follows F true c k (⟨id.name, .number, false⟩ :: S) ss S') :
    Follows F b c n S
      [.forLoop tok id (.range (.mk m (.int m₁ first) (.int m₂ last) step)) (.mk brace ss close)] S
  | each {b : Bool} {c k n : Nat} {S S' : List Var} {tok brace close : Token} {id base : Ident}
    {ss : List Stmt} (hk : k < n) (hn : 1 < n) (hfresh : IsFresh F S id.name)
    (hbase : InScope S .collection base.name)
    (hbody : Follows F true c k (⟨id.name, .number, false⟩ :: S) ss S') :
    Follows F b c n S [.forLoop tok id (.each (.read (.name base))) (.mk brace ss close)] S
  | counting {b before : Bool} {c k n : Nat} {S S' : List Var} {tok tok' tok'' brace close : Token}
    {m m₁ m₂ m₃ : Mark} {name id id' : Ident} {bound : Int32} {ss : List Stmt} (hk : 1 < k)
    (hn : k < n) (hn' : 6 < n) (hfresh : IsFresh F S name.name) (hid : id.name = name.name)
    (hid' : id'.name = name.name) (hbound : bound.toInt ≤ 4)
    (hbody : Follows F true c k (⟨name.name, .number, false⟩ :: S) ss S') :
    Follows F b c n S
      [.decl tok true name none (some (.int m 0)),
        .whileLoop tok' (.compare m₁ "<" (.read (.name id)) (.int m₂ bound))
          (.mk brace (.selfOp tok'' (.mk m₃ "++" before (.name id')) :: ss) close)]
      (⟨name.name, .number, false⟩ :: S)

/-! ## Functions -/

/-- Parameters as variables in scope, the last one first. -/
def paramVars : List Param → List Var → List Var
  | [], S => S
  | p :: ps, S => paramVars ps (⟨p.name.name, .number, false⟩ :: S)

/-- A function over numbers that knows the functions before it. -/
inductive IsFunction (F : Arities) (c : Nat) : FunDecl → Prop where
  | mk {k k' : Nat} {S : List Var} {tok tok' brace close : Token} {name : Ident} {params : List Param}
    {ss : List Stmt} {e : Expr} (hk : k < span) (hk' : k' < span) (hparams : ∀ p ∈ params, p.ty = some .int)
    (hdistinct : (params.map fun p => p.name.name).Nodup)
    (hfresh : ∀ p ∈ params, IsFresh F [] p.name.name)
    (hbody : Follows F false c k (paramVars params []) ss S) (he : IsNumber F S k' e) :
    IsFunction F c (.mk tok name params .int (.mk brace (ss ++ [.ret tok' (some e)]) close))

/-- Functions that know those before them. -/
inductive AreFunctions (c : Nat) : Arities → List FunDecl → Arities → Prop where
  | nil {F : Arities} : AreFunctions c F [] F
  | cons {F F' : Arities} {f : FunDecl} {fs : List FunDecl} (hf : IsFunction F c f)
    (hname : ∀ g ∈ F, g.1 ≠ f.name.name)
    (hfs : AreFunctions c ((f.name.name, f.params.length) :: F) fs F') : AreFunctions c F (f :: fs) F'

end Sample
end Kotlet

import Kotlet.Parse

/-!
# The grammar of expressions

Which tokens are read as which tree. Every rule of the grammar is a relation between the tokens
it takes and the tree it gives; the rules are put together from the rule for the expressions inside.

* `Reading` : a rule of the grammar;
* `Separated` : things with commas between them;
* `IsType`, `IsParam` : types, and parameters of lambdas;
* `IsTarget`, `IsCall`, `IsLambda`, `IsPrimary` : what stands between operators;
* `Chain`, `IsComparison`, `IsLogical` : the tiers of operators;
* `IsUnary`, `IsExpr` : expressions in which at most so many others and `!` lie inside each other.

Line ends may stand after operators and commas and inside parentheses, brackets and braces. What a
string token stands for is left open.
-/

namespace Kotlet
namespace Grammar

/-- Which tokens are read as what. -/
abbrev Reading (α : Type) := List Token → α → Prop

/-- Any number of line ends. -/
def LineEnds (ts : List Token) : Prop := ∀ t ∈ ts, t.kind = .newline

/-- The name that a token stands for. -/
def name (t : Token) : Ident := .ofToken t t.literal.toText

/-- The number that a token stands for. -/
def number (t : Token) : Int32 :=
  match t.literal with
  | .int n => n
  | _ => 0

/-! ## Commas -/

/-- A comma. -/
inductive Comma : List Token → Prop where
  | mk {c : Token} (hc : c.kind = .comma) : Comma [c]

/-- A comma and line ends. -/
inductive CommaLines : List Token → Prop where
  | mk {c : Token} {g : List Token} (hc : c.kind = .comma) (hg : LineEnds g) : CommaLines (c :: g)

/-- A comma between line ends. -/
inductive LinesCommaLines : List Token → Prop where
  | mk {c : Token} {g g' : List Token} (hg : LineEnds g) (hc : c.kind = .comma) (hg' : LineEnds g') :
    LinesCommaLines (g ++ c :: g')

/-- One or more things with commas between them. -/
inductive Separated {α : Type} (comma : List Token → Prop) (item : Reading α) :
    List Token → List α → Prop where
  | one {ts : List Token} {a : α} (h : item ts a) : Separated comma item ts [a]
  | more {ts cs us : List Token} {a : α} {as : List α} (h : item ts a) (hc : comma cs)
    (hs : Separated comma item us as) : Separated comma item (ts ++ (cs ++ us)) (a :: as)

theorem Separated.length_le {α : Type} {comma : List Token → Prop} {item : Reading α}
    {ts : List Token} {as : List α} (h : Separated comma item ts as)
    (hcomma : ∀ cs, comma cs → cs ≠ []) : as.length ≤ ts.length + 1 := by
  induction h with
  | one h => simp
  | more h hc hs ih =>
    have := List.length_pos_iff.mpr (hcomma _ hc)
    simp only [List.length_append, List.length_cons]
    omega

/-! ## Types and parameters -/

/-- A type. Arrays and lists hold any scalars but `Unit`. -/
inductive IsType : List Token → Ty → Prop where
  | scalar {t : Token} {s : Scalar} (h : Parse.scalar? t.kind = some s) : IsType [t] (.scalar s)
  | array {a l e g : Token} {s : Scalar} (ha : a.kind = .tyArray) (hl : l.kind = .lt)
    (he : Parse.scalar? e.kind = some s) (hs : s ≠ .unit) (hg : g.kind = .gt) :
    IsType [a, l, e, g] (.array s)
  | list {a l e g : Token} {s : Scalar} (ha : a.kind = .tyMutableList) (hl : l.kind = .lt)
    (he : Parse.scalar? e.kind = some s) (hs : s ≠ .unit) (hg : g.kind = .gt) :
    IsType [a, l, e, g] (.list s)
  | thunk {o c a : Token} {rs : List Token} {r : Ty} (ho : o.kind = .lparen) (hc : c.kind = .rparen)
    (ha : a.kind = .arrow) (hr : IsType rs r) : IsType (o :: c :: a :: rs) (.fn [] (some r))
  | fn {o c a : Token} {ps rs : List Token} {params : List Ty} {r : Ty} (ho : o.kind = .lparen)
    (hps : Separated Comma IsType ps params) (hc : c.kind = .rparen) (ha : a.kind = .arrow)
    (hr : IsType rs r) : IsType (o :: (ps ++ c :: a :: rs)) (.fn params (some r))

/-- A parameter of a lambda, with or without its type. -/
inductive IsParam : List Token → Param → Prop where
  | bare {t : Token} (ht : t.kind = .ident) : IsParam [t] ⟨name t, none⟩
  | typed {t c : Token} {ts : List Token} {ty : Ty} (ht : t.kind = .ident) (hc : c.kind = .colon)
    (hty : IsType ts ty) : IsParam (t :: c :: ts) ⟨name t, some ty⟩

/-! ## Primary expressions -/

/-- The collection that a word writes the elements of. -/
def literalOf? : Token.Kind → Option CollectionKind
  | .kwArrayOf => some .array
  | .kwMutableListOf => some .list
  | _ => none

/-- The collection that a word gives the size of. -/
def sizedOf? : Token.Kind → Option CollectionKind
  | .tyArray => some .array
  | .tyMutableList => some .list
  | _ => none

section Primary

variable (literal : Token → Expr → Prop) (expr : Reading Expr)

/-- A variable, or an element of one. -/
inductive IsTarget : List Token → Target → Prop where
  | name {t : Token} (ht : t.kind = .ident) : IsTarget [t] (.name (name t))
  | element {t b c : Token} {g ts g' : List Token} {e : Expr} (ht : t.kind = .ident)
    (hb : b.kind = .lbracket) (hg : LineEnds g) (he : expr ts e) (hg' : LineEnds g')
    (hc : c.kind = .rbracket) :
    IsTarget (t :: b :: (g ++ (ts ++ (g' ++ [c])))) (.element (.ofToken b) (Grammar.name t) e)

/-- Arguments with the parenthesis after them. -/
inductive AreArguments : List Token → List Expr → Prop where
  | none {c : Token} {g : List Token} (hg : LineEnds g) (hc : c.kind = .rparen) :
    AreArguments (g ++ [c]) []
  | some {c : Token} {g ts g' : List Token} {es : List Expr} (hg : LineEnds g)
    (hes : Separated LinesCommaLines expr ts es) (hg' : LineEnds g') (hc : c.kind = .rparen) :
    AreArguments (g ++ (ts ++ (g' ++ [c]))) es

/-- A call. -/
inductive IsCall : List Token → Call → Prop where
  | mk {f o : Token} {ts : List Token} {es : List Expr} (hf : f.kind = .ident) (ho : o.kind = .lparen)
    (hes : AreArguments expr ts es) : IsCall (f :: o :: ts) (.mk (.ofToken o) (name f) es)

/-- The body of a lambda with the brace after it. -/
inductive IsBody : List Token → Expr → Prop where
  | mk {c : Token} {g ts g' : List Token} {e : Expr} (hg : LineEnds g) (he : expr ts e)
    (hg' : LineEnds g') (hc : c.kind = .rbrace) : IsBody (g ++ (ts ++ (g' ++ [c]))) e

/-- A lambda. Its parameters have different names. -/
inductive IsLambda : List Token → Lambda → Prop where
  | thunk {b a : Token} {g ts : List Token} {e : Expr} (hb : b.kind = .lbrace) (hg : LineEnds g)
    (ha : a.kind = .arrow) (he : IsBody expr ts e) :
    IsLambda (b :: (g ++ a :: ts)) (.mk (.ofToken b) [] e [])
  | mk {b a : Token} {g ps ts : List Token} {params : List Param} {e : Expr} (hb : b.kind = .lbrace)
    (hg : LineEnds g) (hps : Separated CommaLines IsParam ps params)
    (hdistinct : (params.map fun p => p.name.name).Nodup) (ha : a.kind = .arrow)
    (he : IsBody expr ts e) : IsLambda (b :: (g ++ (ps ++ a :: ts))) (.mk (.ofToken b) params e [])

/-- An expression without an operator outside its parentheses, `++` and `--` apart. -/
inductive IsPrimary : List Token → Expr → Prop where
  | int {t : Token} (ht : t.kind = .int) : IsPrimary [t] (.int (.ofToken t) (number t))
  | true {t : Token} (ht : t.kind = .kwTrue) : IsPrimary [t] (.bool (.ofToken t) true)
  | false {t : Token} (ht : t.kind = .kwFalse) : IsPrimary [t] (.bool (.ofToken t) false)
  | string {t : Token} {e : Expr} (ht : t.kind = .string) (he : literal t e) : IsPrimary [t] e
  | parens {o c : Token} {g ts g' : List Token} {e : Expr} (ho : o.kind = .lparen) (hg : LineEnds g)
    (he : expr ts e) (hg' : LineEnds g') (hc : c.kind = .rparen) :
    IsPrimary (o :: (g ++ (ts ++ (g' ++ [c])))) e
  | before {op : Token} {ts : List Token} {t : Target} (hop : op.kind ∈ [.increment, .decrement])
    (ht : IsTarget expr ts t) : IsPrimary (op :: ts) (.incDec (.mk (.ofToken op) op.shown true t))
  | read {ts : List Token} {t : Target} (ht : IsTarget expr ts t) : IsPrimary ts (.read t)
  | after {op : Token} {ts : List Token} {t : Target} (ht : IsTarget expr ts t)
    (hop : op.kind ∈ [.increment, .decrement]) :
    IsPrimary (ts ++ [op]) (.incDec (.mk (.ofToken op) op.shown false t))
  | call {ts : List Token} {c : Call} (hc : IsCall expr ts c) : IsPrimary ts (.call c)
  | lambda {ts : List Token} {l : Lambda} (hl : IsLambda expr ts l) : IsPrimary ts (.lambda l)
  | collection {k o c : Token} {g ts g' : List Token} {kind : CollectionKind} {es : List Expr}
    (hk : literalOf? k.kind = some kind) (ho : o.kind = .lparen) (hg : LineEnds g)
    (hes : Separated LinesCommaLines expr ts es) (hg' : LineEnds g') (hc : c.kind = .rparen) :
    IsPrimary (k :: o :: (g ++ (ts ++ (g' ++ [c])))) (.collection (.ofToken k) kind es)
  | sized {k o c : Token} {g ts g' cs ls h : List Token} {kind : CollectionKind} {size : Expr}
    {l : Lambda} (hk : sizedOf? k.kind = some kind) (ho : o.kind = .lparen) (hg : LineEnds g)
    (hsize : expr ts size) (hg' : LineEnds g') (hcs : CommaLines cs) (hl : IsLambda expr ls l)
    (hh : LineEnds h) (hc : c.kind = .rparen) :
    IsPrimary (k :: o :: (g ++ (ts ++ (g' ++ (cs ++ (ls ++ (h ++ [c])))))))
      (.sized (.ofToken k) kind size l)
  | trailing {k o c : Token} {g ts g' ls : List Token} {kind : CollectionKind} {size : Expr}
    {l : Lambda} (hk : sizedOf? k.kind = some kind) (ho : o.kind = .lparen) (hg : LineEnds g)
    (hsize : expr ts size) (hg' : LineEnds g') (hc : c.kind = .rparen) (hl : IsLambda expr ls l) :
    IsPrimary (k :: o :: (g ++ (ts ++ (g' ++ c :: ls)))) (.sized (.ofToken k) kind size l)

end Primary

/-! ## Operators -/

/-- Operands with operators of some kinds between them, grouped to the left. -/
inductive Chain (kinds : List Token.Kind) (make : Mark → String → Expr → Expr → Expr)
    (operand : Reading Expr) : List Token → Expr → Prop where
  | one {ts : List Token} {e : Expr} (h : operand ts e) : Chain kinds make operand ts e
  | more {op : Token} {ts g us : List Token} {l r : Expr} (hl : Chain kinds make operand ts l)
    (hop : op.kind ∈ kinds) (hg : LineEnds g) (hr : operand us r) :
    Chain kinds make operand (ts ++ op :: (g ++ us)) (make (.ofToken op) op.shown l r)

/-- Products. -/
def IsProduct (unary : Reading Expr) : Reading Expr := Chain [.times, .slash, .percent] .arith unary

/-- Sums. -/
def IsSum (unary : Reading Expr) : Reading Expr := Chain [.plus, .minus] .arith (IsProduct unary)

/-- At most one comparison. -/
inductive IsComparison (unary : Reading Expr) : List Token → Expr → Prop where
  | one {ts : List Token} {e : Expr} (h : IsSum unary ts e) : IsComparison unary ts e
  | two {op : Token} {ts g us : List Token} {l r : Expr} (hl : IsSum unary ts l)
    (hop : op.kind ∈ [.eq, .notEq, .lt, .gt, .le, .ge]) (hg : LineEnds g) (hr : IsSum unary us r) :
    IsComparison unary (ts ++ op :: (g ++ us)) (.compare (.ofToken op) op.shown l r)

/-- Comparisons with `&&` and `||` between them. -/
def IsLogical (unary : Reading Expr) : Reading Expr := Chain [.and, .or] .logic (IsComparison unary)

/-- A primary expression with any number of `!` before it, in which at most `n` expressions and `!`
lie inside each other. -/
def IsUnary (literal : Token → Expr → Prop) : Nat → Reading Expr
  | 0, ts, e => IsPrimary literal (fun _ _ => False) ts e
  | n + 1, ts, e => IsPrimary literal (IsLogical (IsUnary literal n)) ts e ∨
    ∃ bang us x, bang.kind = .bang ∧ IsUnary literal n us x ∧ ts = bang :: us ∧
      e = .not (.ofToken bang) x

/-- An expression in which at most `n` expressions and `!` lie inside each other, itself counted. -/
def IsExpr (literal : Token → Expr → Prop) : Nat → Reading Expr
  | 0, _, _ => False
  | n + 1, ts, e => IsLogical (IsUnary literal n) ts e

/-- What stands between operators counts as one more expression inside another. -/
theorem isUnary_of_isPrimary {literal : Token → Expr → Prop} {n : Nat} {us : List Token} {e : Expr}
    (h : IsPrimary literal (IsExpr literal n) us e) : IsUnary literal n us e := by
  cases n with
  | zero => exact h
  | succ n => exact .inl h

/-- An expression between line ends. -/
inductive IsWhole (literal : Token → Expr → Prop) (n : Nat) : List Token → Expr → Prop where
  | mk {g ts g' : List Token} {e : Expr} (hg : LineEnds g) (he : IsExpr literal n ts e)
    (hg' : LineEnds g') : IsWhole literal n (g ++ (ts ++ g')) e

end Grammar
end Kotlet

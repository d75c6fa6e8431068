import Kotlet.Proofs.Parse.Statements
import Kotlet.Proofs.Token.Layout
import Kotlet.Syntax.Node

/-!
# The tokens of nodes

Every node of a tree carries a token of its own source: one of those that are read as it. The nodes
of a template are read in the text of the template, and their places are counted there.

* `IsNode` : tokens that are read as a node of a kind, with a token that it carries;
* `IsNode.mem` : a node carries tokens of its own;
* `Shown` : listings of nodes that are read in some tokens, down to `shown_expr` and `shown_stmt`;
* `Takes`, `LiesIn`, `Located` : the part of a text that a node is read in, and places in it;
* `Program.located_of_parse` : all nodes of a program.
-/

namespace Kotlet

/-- The kind of a statement. -/
def Stmt.kind : Stmt → NodeKind
  | .decl _ _ _ _ _ => .varDeclaration
  | .assign _ _ _ => .assign
  | .compound _ _ _ _ => .compoundAssign
  | .selfOp _ _ => .selfOp
  | .print _ _ _ => .print
  | .ifElse _ _ _ _ => .ifElse
  | .whileLoop _ _ _ => .whileLoop
  | .forLoop _ _ _ _ => .forLoop
  | .function _ => .function
  | .call _ _ => .callStatement
  | .ret _ _ => .returnStatement
  | .brk _ => .breakStatement
  | .cont _ => .continueStatement
  | .block _ => .block

namespace Grammar

open Parse

/-- The string literal that a string token is read as, with at most `depth` templates inside each
other. -/
def stringAt (depth : Nat) (t : Token) (e : Expr) : Prop :=
  joinPieces (templateWithin depth t) t [] 0 [] (Template.pieces t.literal.toText.toList) = .ok e

/-- The tokens are read as a node of a kind that carries a token. The block behind `else` may be an
`if`, whose token it carries. -/
inductive IsNode : List Token → NodeKind → Token → Prop where
  | expr {depth n : Nat} {us : List Token} {e : Expr} (h : IsExpr (stringAt depth) n us e) :
    IsNode us e.kind e.tok
  | name {t : Token} (ht : t.kind = .ident) : IsNode [t] .identifier t
  | range {depth n : Nat} {us : List Token} {r : Range}
    (h : IsHeader (IsExpr (stringAt depth) n) us (.range r)) : IsNode us .range r.mark.tok
  | stmt {depth n k : Nat} {us : List Token} {s : Stmt}
    (h : IsStmt (IsExpr (stringAt depth) n) k us s) : IsNode us s.kind s.tok
  | block {depth n k : Nat} {us : List Token} {b : Block} {t : Token}
    (h : IsBlock (IsStmt (IsExpr (stringAt depth) n) k) us b) (ht : t = b.tok ∨ t = b.close) :
    IsNode us .block t
  | branch {depth n k : Nat} {i : Token} {us : List Token} {s : Stmt} (hi : i.kind = .kwIf)
    (h : IsStmt (IsExpr (stringAt depth) n) k (i :: us) s) : IsNode (i :: us) .block s.tok
  | program {depth n : Nat} {us : List Token} {s : Stmt} {ss : List Stmt}
    (h : IsProgram (IsExpr (stringAt depth) n) us (s :: ss)) : IsNode us .program s.tok

/-! ## A node carries tokens of its own -/

theorem IsTarget.tok_mem {E : Reading Expr} {us : List Token} {t : Target} (h : IsTarget E us t) :
    t.tok ∈ us := by
  cases h <;> simp [Target.tok, Mark.ofToken, Grammar.name, Ident.ofToken]

theorem tok_of_joinPieces {template : List Char → Except Diagnostic Expr} {t : Token}
    {chars : List Char} {size : Nat} {splices : List Splice} {pieces : List Template.Piece} {e : Expr}
    (h : joinPieces template t chars size splices pieces = .ok e) :
    ∃ text all, e = .str (.ofToken t) text all ∧ ∀ x ∈ all, x ∈ splices ∨
      ∃ offset code y, x = .mk offset y ∧ .code code ∈ pieces ∧ template code = .ok y := by
  induction pieces generalizing chars size splices with
  | nil =>
    cases h
    exact ⟨_, _, rfl, fun x hx => .inl (List.mem_reverse.mp hx)⟩
  | cons piece pieces ih =>
    unfold joinPieces at h
    cases piece with
    | unclosed => cases h
    | char c =>
      obtain ⟨text, all, rfl, hall⟩ := ih h
      refine ⟨text, all, rfl, fun x hx => (hall x hx).imp_right ?_⟩
      rintro ⟨offset, code, y, rfl, hcode, hy⟩
      exact ⟨offset, code, y, rfl, List.mem_cons_of_mem _ hcode, hy⟩
    | code code =>
      dsimp only at h
      split at h
      · cases h
      · rename_i y hy
        obtain ⟨text, all, rfl, hall⟩ := ih h
        refine ⟨text, all, rfl, fun x hx => ?_⟩
        rcases hall x hx with hx | ⟨offset, code', z, rfl, hcode, hz⟩
        · rcases List.mem_cons.mp hx with rfl | hx
          · exact .inr ⟨_, code, y, rfl, List.mem_cons_self, hy⟩
          · exact .inl hx
        · exact .inr ⟨offset, code', z, rfl, List.mem_cons_of_mem _ hcode, hz⟩

theorem stringAt.tok_eq {depth : Nat} {t : Token} {e : Expr} (h : stringAt depth t e) : e.tok = t := by
  obtain ⟨_, _, rfl, -⟩ := tok_of_joinPieces h
  rfl

section Mem

variable {depth : Nat} {E : Reading Expr} (hE : ∀ us e, E us e → e.tok ∈ us)
include hE

theorem IsPrimary.tok_mem {us : List Token} {e : Expr} (h : IsPrimary (stringAt depth) E us e) :
    e.tok ∈ us := by
  cases h with
  | string _ he => simp [he.tok_eq]
  | parens _ _ he => simp [hE _ _ he]
  | read ht => exact ht.tok_mem
  | call hc => cases hc; simp [Expr.tok, Call.mark, Mark.ofToken]
  | lambda hl => cases hl <;> simp [Expr.tok, Lambda.mark, Mark.ofToken]
  | _ => simp [Expr.tok, IncDec.mark, Mark.ofToken]

theorem Chain.tok_mem {kinds : List Token.Kind} {make : Mark → String → Expr → Expr → Expr}
    (hmake : ∀ m op l r, (make m op l r).tok = m.tok) {us : List Token} {e : Expr}
    (h : Chain kinds make E us e) : e.tok ∈ us := by
  cases h with
  | one h => exact hE _ _ h
  | more => simp [hmake, Mark.ofToken]

theorem IsComparison.tok_mem {us : List Token} {e : Expr} (h : IsComparison E us e) : e.tok ∈ us := by
  cases h with
  | one h =>
    exact Chain.tok_mem (fun _ _ => Chain.tok_mem hE fun _ _ _ _ => rfl) (fun _ _ _ _ => rfl) h
  | two => simp [Expr.tok, Mark.ofToken]

theorem IsLogical.tok_mem {us : List Token} {e : Expr} (h : IsLogical E us e) : e.tok ∈ us :=
  Chain.tok_mem (fun _ _ => IsComparison.tok_mem hE) (fun _ _ _ _ => rfl) h

end Mem

theorem IsUnary.tok_mem {depth n : Nat} {us : List Token} {e : Expr}
    (h : IsUnary (stringAt depth) n us e) : e.tok ∈ us := by
  induction n generalizing us e with
  | zero => exact IsPrimary.tok_mem (fun _ _ h => h.elim) h
  | succ n ih =>
    rcases h with h | ⟨bang, us, x, -, -, rfl, rfl⟩
    · exact IsPrimary.tok_mem (fun _ _ => IsLogical.tok_mem fun _ _ => ih) h
    · exact List.mem_cons_self

theorem IsExpr.tok_mem {depth n : Nat} {us : List Token} {e : Expr}
    (h : IsExpr (stringAt depth) n us e) : e.tok ∈ us := by
  cases n with
  | zero => exact h.elim
  | succ n => exact IsLogical.tok_mem (fun _ _ => IsUnary.tok_mem) h

theorem IsBlock.tok_mem {inner : Reading Stmt} {us : List Token} {b : Block} (h : IsBlock inner us b) :
    b.tok ∈ us ∧ b.close ∈ us := by
  cases h
  simp [Block.tok, Block.close]

theorem IsStatement.tok_mem {E : Reading Expr} {inner : Reading Stmt} {us : List Token} {s : Stmt}
    (h : IsStatement E inner us s) : s.tok ∈ us := by
  cases h with
  | block hb => exact hb.tok_mem.1
  | _ => simp [Stmt.tok, FunDecl.tok]

theorem IsStmt.tok_mem {E : Reading Expr} {n : Nat} {us : List Token} {s : Stmt}
    (h : IsStmt E n us s) : s.tok ∈ us := by
  cases n with
  | zero => exact h.elim
  | succ n => exact IsStatement.tok_mem h

/-- The tokens that a node carries are among those that are read as it. -/
theorem IsNode.mem {us : List Token} {kind : NodeKind} {t : Token} (h : IsNode us kind t) : t ∈ us := by
  cases h with
  | expr h => exact h.tok_mem
  | name ht => exact List.mem_cons_self
  | range h => cases h; simp [Range.mark, Mark.ofToken]
  | stmt h => exact h.tok_mem
  | block h ht =>
    rcases ht with rfl | rfl
    · exact h.tok_mem.1
    · exact h.tok_mem.2
  | branch hi h => exact h.tok_mem
  | program h =>
    cases h with
    | mk hseps hs =>
      cases hs with
      | last h => exact List.mem_append_right _ h.tok_mem
      | more h hseps hne hs =>
        exact List.mem_append_right _ (List.mem_append_left _ h.tok_mem)

/-! ## Listings of nodes -/

/-- What is known of a node: its token, and the closing one, are such as nodes of its kind carry. -/
def Carries (P : NodeKind → Token → Prop) (v : NodeView) : Prop :=
  P v.kind v.tok ∧ ∀ c, v.close = some c → P v.kind c

/-- A listing puts nodes of which this is known in front of others. -/
def Shown (P : NodeKind → Token → Prop) (nodes : Nat → List NodeView → List NodeView) : Prop :=
  ∀ d rest, (∀ v ∈ rest, Carries P v) → ∀ v ∈ nodes d rest, Carries P v

theorem carries_simple {P : NodeKind → Token → Prop} {d : Nat} {kind : NodeKind} {t : Token} :
    Carries P (NodeView.simple d kind t) ↔ P kind t := by simp [Carries, NodeView.simple]

theorem carries_typed {P : NodeKind → Token → Prop} {d : Nat} {kind : NodeKind} {m : Mark} :
    Carries P (NodeView.typed d kind m) ↔ P kind m.tok := by
  simp [Carries, NodeView.typed, NodeView.simple]

theorem carries_ident {P : NodeKind → Token → Prop} {d : Nat} {id : Ident} :
    Carries P (NodeView.ident d id) ↔ P .identifier id.tok := by
  simp [Carries, NodeView.ident, NodeView.simple]

/-- A unary expression is an expression. -/
theorem isExpr_of_isUnary {depth n : Nat} {us : List Token} {e : Expr}
    (h : IsUnary (stringAt depth) n us e) : IsExpr (stringAt depth) (n + 1) us e :=
  .one (.one (.one (.one h)))

/-- A part of some tokens that stand among others. -/
theorem part {tokens us vs : List Token} (hus : us <:+: tokens) (before after : List Token)
    (h : before ++ (vs ++ after) = us) : vs <:+: tokens :=
  List.IsInfix.trans ⟨before, after, by simpa using h⟩ hus

section Shown

variable {P : NodeKind → Token → Prop} {tokens : List Token} {depth n k : Nat}
  (hP : ∀ us kind t, us <:+: tokens → IsNode us kind t → P kind t)
include hP

theorem carries_name {d : Nat} {t : Token} (hus : [t] <:+: tokens) (ht : t.kind = .ident) :
    Carries P (NodeView.ident d (name t)) :=
  carries_ident.mpr (hP _ _ _ hus (.name ht))

section Primary

variable (hE : ∀ us e, us <:+: tokens → IsExpr (stringAt depth) n us e →
  Shown P fun d => Expr.nodesOnto d e)
include hE

omit hP in
theorem shown_separated {comma : List Token → Prop} {us : List Token} {es : List Expr}
    (hus : us <:+: tokens) (h : Separated comma (IsExpr (stringAt depth) n) us es) :
    Shown P fun d => Expr.listNodesOnto d es := by
  induction h with
  | one he =>
    intro d rest hrest
    simp only [Expr.listNodesOnto]
    exact hE _ _ hus he d rest hrest
  | @more ts cs us a as he hc hs ih =>
    intro d rest hrest
    simp only [Expr.listNodesOnto]
    exact hE _ _ (part hus [] _ rfl) he d _
      (ih (part hus (ts ++ cs) [] (by simp)) d rest hrest)

omit hP in
theorem shown_arguments {us : List Token} {es : List Expr} (hus : us <:+: tokens)
    (h : AreArguments (IsExpr (stringAt depth) n) us es) : Shown P fun d => Expr.listNodesOnto d es := by
  cases h with
  | none hg hc =>
    intro d rest hrest
    simpa only [Expr.listNodesOnto] using hrest
  | some hg hes hg' hc => exact shown_separated hE (part hus _ _ rfl) hes

omit hE in
theorem primary_tok {us : List Token} {e : Expr} (hus : us <:+: tokens)
    (h : IsPrimary (stringAt depth) (IsExpr (stringAt depth) n) us e) : P e.kind e.tok :=
  hP _ _ _ hus (.expr (isExpr_of_isUnary (isUnary_of_isPrimary h)))

theorem shown_target {us : List Token} {t : Target} (hus : us <:+: tokens)
    (h : IsTarget (IsExpr (stringAt depth) n) us t) : Shown P fun d => Target.nodesOnto d t := by
  have hself := primary_tok hP hus (.read h)
  intro d rest hrest
  cases h with
  | name ht =>
    simp only [Target.nodesOnto, List.forall_mem_cons]
    exact ⟨carries_name hP hus ht, hrest⟩
  | @element t b c g ts g' e ht hb hg he hg' hc =>
    simp only [Target.nodesOnto, List.forall_mem_cons]
    exact ⟨carries_typed.mpr hself, carries_name hP (part hus [] _ rfl) ht,
      hE _ _ (part hus (t :: b :: g) _ rfl) he _ _ hrest⟩

theorem shown_call {us : List Token} {c : Call} (hus : us <:+: tokens)
    (h : IsCall (IsExpr (stringAt depth) n) us c) : Shown P fun d => Call.nodesOnto d c := by
  have hself := primary_tok hP hus (.call h)
  intro d rest hrest
  cases h with
  | @mk f o ts es hf ho hes =>
    simp only [Call.nodesOnto, List.forall_mem_cons]
    exact ⟨carries_typed.mpr hself, carries_name hP (part hus [] _ rfl) hf,
      shown_arguments hE (part hus [f, o] [] (by simp)) hes _ _ hrest⟩

omit hE in
theorem shown_params {comma : List Token → Prop} {us : List Token} {ps : List Param}
    (hus : us <:+: tokens) (h : Separated comma IsParam us ps) (d : Nat) :
    ∀ v ∈ ps.map fun p => NodeView.ident d p.name, Carries P v := by
  have hparam {vs : List Token} {p : Param} (hvs : vs <:+: tokens) (hp : IsParam vs p) :
      Carries P (NodeView.ident d p.name) := by
    cases hp with
    | bare ht => exact carries_name hP hvs ht
    | typed ht hc hty => exact carries_name hP (part hvs [] _ rfl) ht
  induction h with
  | one hp => simpa using hparam hus hp
  | @more ts cs us p ps hp hc hs ih =>
    rw [List.map_cons, List.forall_mem_cons]
    exact ⟨hparam (part hus [] _ rfl) hp, ih (part hus (ts ++ cs) [] (by simp))⟩

omit hP in
theorem shown_body {us : List Token} {e : Expr} (hus : us <:+: tokens)
    (h : IsBody (IsExpr (stringAt depth) n) us e) : Shown P fun d => Expr.nodesOnto d e := by
  cases h with
  | mk hg he hg' hc => exact hE _ _ (part hus _ _ rfl) he

theorem shown_lambda {us : List Token} {l : Lambda} (hus : us <:+: tokens)
    (h : IsLambda (IsExpr (stringAt depth) n) us l) : Shown P fun d => Lambda.nodesOnto d l := by
  have hself := primary_tok hP hus (.lambda h)
  intro d rest hrest
  cases h with
  | @thunk b a g ts e hb hg ha he =>
    simp only [Lambda.nodesOnto, List.forall_mem_cons, List.map_nil, List.nil_append]
    exact ⟨carries_typed.mpr hself,
      shown_body hE (part hus (b :: (g ++ [a])) [] (by simp)) he _ _ hrest⟩
  | @mk b a g ps ts params e hb hg hps hdistinct ha he =>
    simp only [Lambda.nodesOnto, List.forall_mem_cons, List.forall_mem_append]
    exact ⟨carries_typed.mpr hself, shown_params hP (part hus (b :: g) _ rfl) hps _,
      shown_body hE (part hus (b :: (g ++ (ps ++ [a]))) [] (by simp)) he _ _ hrest⟩

/-- The nodes of a primary expression, given those of string literals. -/
theorem shown_primary (hstring : ∀ t e, t ∈ tokens → t.kind = .string → stringAt depth t e →
    Shown P fun d => Expr.nodesOnto d e) {us : List Token} {e : Expr} (hus : us <:+: tokens)
    (h : IsPrimary (stringAt depth) (IsExpr (stringAt depth) n) us e) :
    Shown P fun d => Expr.nodesOnto d e := by
  have hself := primary_tok hP hus h
  intro d rest hrest
  cases h with
  | int | true | false =>
    simp only [Expr.nodesOnto, List.forall_mem_cons]
    exact ⟨carries_typed.mpr hself, hrest⟩
  | string ht he => exact hstring _ _ (hus.subset List.mem_cons_self) ht he d rest hrest
  | @parens o c g ts g' e ho hg he hg' hc => exact hE _ _ (part hus (o :: g) _ rfl) he d rest hrest
  | @before op ts t hop ht =>
    simp only [Expr.nodesOnto, IncDec.nodesOnto, List.forall_mem_cons]
    exact ⟨carries_typed.mpr hself, shown_target hP hE (part hus [op] [] (by simp)) ht _ _ hrest⟩
  | read ht =>
    simp only [Expr.nodesOnto]
    exact shown_target hP hE hus ht d rest hrest
  | after ht hop =>
    simp only [Expr.nodesOnto, IncDec.nodesOnto, List.forall_mem_cons]
    exact ⟨carries_typed.mpr hself, shown_target hP hE (part hus [] _ rfl) ht _ _ hrest⟩
  | call hc =>
    simp only [Expr.nodesOnto]
    exact shown_call hP hE hus hc d rest hrest
  | lambda hl =>
    simp only [Expr.nodesOnto]
    exact shown_lambda hP hE hus hl d rest hrest
  | @collection k o c g ts g' kind es hk ho hg hes hg' hc =>
    simp only [Expr.nodesOnto, List.forall_mem_cons]
    exact ⟨carries_typed.mpr hself, shown_separated hE (part hus (k :: o :: g) _ rfl) hes _ _ hrest⟩
  | @sized k o c g ts g' cs ls h kind size l hk ho hg hsize hg' hcs hl hh hc =>
    simp only [Expr.nodesOnto, List.forall_mem_cons]
    exact ⟨carries_typed.mpr hself, hE _ _ (part hus (k :: o :: g) _ rfl) hsize _ _
      (shown_lambda hP hE (part hus (k :: o :: (g ++ (ts ++ (g' ++ cs)))) (h ++ [c]) (by simp)) hl
        _ _ hrest)⟩
  | @trailing k o c g ts g' ls kind size l hk ho hg hsize hg' hc hl =>
    simp only [Expr.nodesOnto, List.forall_mem_cons]
    exact ⟨carries_typed.mpr hself, hE _ _ (part hus (k :: o :: g) _ rfl) hsize _ _
      (shown_lambda hP hE (part hus (k :: o :: (g ++ (ts ++ (g' ++ [c])))) [] (by simp)) hl
        _ _ hrest)⟩

end Primary

/-! ### Operators -/

/-- The nodes of a chain of operands, where the chain is an expression itself. -/
theorem shown_chain {kinds : List Token.Kind} {make : Mark → String → Expr → Expr → Expr}
    {R : Reading Expr} (hR : ∀ us e, us <:+: tokens → R us e → Shown P fun d => Expr.nodesOnto d e)
    (hself : ∀ us e, Chain kinds make R us e → IsExpr (stringAt depth) n us e)
    (hmake : ∀ m op l r d rest, (make m op l r).nodesOnto d rest =
      .typed d (make m op l r).kind m :: l.nodesOnto (d + 1) (r.nodesOnto (d + 1) rest))
    (htok : ∀ m op l r, (make m op l r).tok = m.tok) {us : List Token} {e : Expr}
    (hus : us <:+: tokens) (h : Chain kinds make R us e) : Shown P fun d => Expr.nodesOnto d e := by
  induction h with
  | one h => exact hR _ _ hus h
  | @more op ts g us l r hl hop hg hr ih =>
    have hnode := hP _ _ _ hus (.expr (hself _ _ (.more hl hop hg hr)))
    rw [htok] at hnode
    intro d rest hrest
    simp only [hmake, List.forall_mem_cons]
    exact ⟨carries_typed.mpr hnode, ih (part hus [] _ rfl) _ _
      (hR _ _ (part hus (ts ++ op :: g) [] (by simp)) hr _ _ hrest)⟩

section Unary

variable (hU : ∀ us e, us <:+: tokens → IsUnary (stringAt depth) n us e →
  Shown P fun d => Expr.nodesOnto d e)
include hU

theorem shown_sum {us : List Token} {e : Expr} (hus : us <:+: tokens)
    (h : IsSum (IsUnary (stringAt depth) n) us e) : Shown P fun d => Expr.nodesOnto d e := by
  refine shown_chain (n := n + 1) hP (fun us e hus h => ?_) (fun us e h => .one (.one h))
    (fun _ _ _ _ _ _ => by simp only [Expr.nodesOnto, Expr.kind]) (fun _ _ _ _ => rfl) hus h
  exact shown_chain (n := n + 1) hP hU (fun us e h => .one (.one (.one h)))
    (fun _ _ _ _ _ _ => by simp only [Expr.nodesOnto, Expr.kind]) (fun _ _ _ _ => rfl) hus h

theorem shown_comparison {us : List Token} {e : Expr} (hus : us <:+: tokens)
    (h : IsComparison (IsUnary (stringAt depth) n) us e) : Shown P fun d => Expr.nodesOnto d e := by
  have hself : IsExpr (stringAt depth) (n + 1) us e := .one h
  cases h with
  | one h => exact shown_sum hP hU hus h
  | @two op ts g us l r hl hop hg hr =>
    have hnode := hP _ _ _ hus (.expr hself)
    intro d rest hrest
    simp only [Expr.nodesOnto, List.forall_mem_cons]
    exact ⟨carries_typed.mpr hnode, shown_sum hP hU (part hus [] _ rfl) hl _ _
      (shown_sum hP hU (part hus (ts ++ op :: g) [] (by simp)) hr _ _ hrest)⟩

theorem shown_logical {us : List Token} {e : Expr} (hus : us <:+: tokens)
    (h : IsExpr (stringAt depth) (n + 1) us e) : Shown P fun d => Expr.nodesOnto d e :=
  shown_chain (n := n + 1) hP (fun _ _ => shown_comparison hP hU) (fun _ _ h => h)
    (fun _ _ _ _ _ _ => by simp only [Expr.nodesOnto, Expr.kind]) (fun _ _ _ _ => rfl) hus h

end Unary

variable (hstring : ∀ t e, t ∈ tokens → t.kind = .string → stringAt depth t e →
  Shown P fun d => Expr.nodesOnto d e)
include hstring

theorem shown_unary {us : List Token} {e : Expr} (hus : us <:+: tokens)
    (h : IsUnary (stringAt depth) n us e) : Shown P fun d => Expr.nodesOnto d e := by
  induction n generalizing us e with
  | zero => exact shown_primary (n := 0) hP (fun _ _ _ h => h.elim) hstring hus h
  | succ n ih =>
    have hself := isExpr_of_isUnary h
    rcases h with h | ⟨bang, us, x, hbang, hx, rfl, rfl⟩
    · exact shown_primary (n := n + 1) hP (fun _ _ => shown_logical hP fun _ _ => ih) hstring hus h
    · intro d rest hrest
      simp only [Expr.nodesOnto, List.forall_mem_cons]
      exact ⟨carries_typed.mpr (hP _ _ _ hus (.expr hself)),
        ih (part hus [bang] [] (by simp)) hx _ _ hrest⟩

theorem shown_expr {us : List Token} {e : Expr} (hus : us <:+: tokens)
    (h : IsExpr (stringAt depth) n us e) : Shown P fun d => Expr.nodesOnto d e := by
  cases n with
  | zero => exact h.elim
  | succ n => exact shown_logical hP (fun _ _ => shown_unary hP hstring) hus h

/-! ### Statements -/

theorem shown_condition {us : List Token} {e : Expr} (hus : us <:+: tokens)
    (h : IsCondition (IsExpr (stringAt depth) n) us e) : Shown P fun d => Expr.nodesOnto d e := by
  cases h with
  | @mk o c g ts g' e ho hg he hg' hc => exact shown_expr hP hstring (part hus (o :: g) _ rfl) he

theorem shown_valuePart {us : List Token} {value : Option Expr} (hus : us <:+: tokens)
    (h : IsValuePart (IsExpr (stringAt depth) n) us value) :
    Shown P fun d => Expr.optNodesOnto d value := by
  intro d rest hrest
  cases h with
  | none => simpa only [Expr.optNodesOnto] using hrest
  | @some q g ts e hq hg he =>
    simp only [Expr.optNodesOnto]
    exact shown_expr hP hstring (part hus (q :: g) [] (by simp)) he d rest hrest

theorem shown_header {us : List Token} {x : Header} (hus : us <:+: tokens)
    (h : IsHeader (IsExpr (stringAt depth) n) us x) : Shown P fun d => Header.nodesOnto d x := by
  intro d rest hrest
  cases h with
  | each he => exact shown_expr hP hstring hus he d rest hrest
  | @range dots ts us vs first last step hfirst hd hlast hstep =>
    have hnode := hP _ _ _ hus (.range (.range hfirst hd hlast hstep))
    simp only [Header.nodesOnto, Range.nodesOnto, List.forall_mem_cons]
    refine ⟨carries_typed.mpr hnode, shown_expr hP hstring (part hus [] _ rfl) hfirst _ _
      (shown_expr hP hstring (part hus (ts ++ [dots]) vs (by simp)) hlast _ _ ?_)⟩
    cases hstep with
    | none => simpa only [Expr.optNodesOnto] using hrest
    | @some s ts' e hs he =>
      simp only [Expr.optNodesOnto]
      exact shown_expr hP hstring (part hus (ts ++ dots :: (us ++ [s])) [] (by simp)) he _ _ hrest

omit hstring in
theorem shown_functionParams {us : List Token} {ps : List Param} (hus : us <:+: tokens)
    (h : AreParams us ps) (d : Nat) :
    ∀ v ∈ ps.map fun p => NodeView.ident d p.name, Carries P v := by
  have hparam {vs : List Token} {p : Param} (hvs : vs <:+: tokens) (hp : IsParam vs p) :
      Carries P (NodeView.ident d p.name) := by
    have hone : Separated Comma IsParam vs [p] := .one hp
    simpa using shown_params hP hvs hone d
  induction h with
  | nil => simp
  | last hp hty hg => simpa using hparam (part hus [] _ rfl) hp
  | @more c ts g g' us p ps hp hty hg hc hg' hps ih =>
    rw [List.map_cons, List.forall_mem_cons]
    exact ⟨hparam (part hus [] _ rfl) hp, ih (part hus (ts ++ (g ++ c :: g')) [] (by simp))⟩

section Nested

variable (hS : ∀ us s, us <:+: tokens → IsStmt (IsExpr (stringAt depth) n) k us s →
  Shown P fun d => Stmt.nodesOnto d s)
include hS

omit hP hstring in
theorem shown_stmts {us : List Token} {ss : List Stmt} (hus : us <:+: tokens)
    (h : AreStmts (IsStmt (IsExpr (stringAt depth) n) k) us ss) :
    Shown P fun d => Stmt.listNodesOnto d ss := by
  induction h with
  | nil =>
    intro d rest hrest
    simpa only [Stmt.listNodesOnto] using hrest
  | last hs =>
    intro d rest hrest
    simp only [Stmt.listNodesOnto]
    exact hS _ _ hus hs d rest hrest
  | @more ts seps us s ss hs hseps hne hss ih =>
    intro d rest hrest
    simp only [Stmt.listNodesOnto]
    exact hS _ _ (part hus [] _ rfl) hs d _
      (ih (part hus (ts ++ seps) [] (by simp)) d rest hrest)

omit hstring in
theorem shown_block {us : List Token} {b : Block} (hus : us <:+: tokens)
    (h : IsBlock (IsStmt (IsExpr (stringAt depth) n) k) us b) :
    Shown P fun d => Block.nodesOnto d b := by
  have hopen := hP _ _ _ hus (.block h (.inl rfl))
  have hclose := hP _ _ _ hus (.block h (.inr rfl))
  cases h with
  | @mk o c seps ts ss ho hseps hss hc =>
    intro d rest hrest
    simp only [Block.nodesOnto, List.forall_mem_cons]
    refine ⟨⟨hopen, ?_⟩, shown_stmts hS (part hus (o :: seps) [c] (by simp)) hss _ _ hrest⟩
    rintro _ ⟨⟩
    exact hclose

omit hstring in
theorem shown_elsePart {us : List Token} {b : Option Block} (hus : us <:+: tokens)
    (h : IsElsePart (IsStmt (IsExpr (stringAt depth) n) k) us b) :
    Shown P fun d => Block.optNodesOnto d b := by
  intro d rest hrest
  cases h with
  | none => simpa only [Block.optNodesOnto] using hrest
  | @block e g g' bs b hg he hg' hb =>
    simp only [Block.optNodesOnto]
    exact shown_block hP hS (part hus (g ++ e :: g') [] (by simp)) hb d rest hrest
  | @chained e i g g' ts s hg he hg' hi hs =>
    have htokens : i :: ts <:+: tokens := part hus (g ++ e :: g') [] (by simp)
    have hnode := hP _ _ _ htokens (.branch hi hs)
    simp only [Block.optNodesOnto, Block.nodesOnto, Stmt.listNodesOnto, List.forall_mem_cons]
    refine ⟨⟨hnode, ?_⟩, hS _ _ htokens hs _ _ hrest⟩
    rintro _ ⟨⟩
    exact hnode

/-- The nodes of a statement, given those of the statements inside it. -/
theorem shown_statement {us : List Token} {s : Stmt} (hus : us <:+: tokens)
    (h : IsStmt (IsExpr (stringAt depth) n) (k + 1) us s) : Shown P fun d => Stmt.nodesOnto d s := by
  have hnode := hP _ _ _ hus (.stmt h)
  have htarget {vs : List Token} {t : Target} (hvs : vs <:+: tokens)
      (ht : IsTarget (IsExpr (stringAt depth) n) vs t) : Shown P fun d => Target.nodesOnto d t :=
    shown_target hP (fun _ _ => shown_expr hP hstring) hvs ht
  have hexpr {vs : List Token} {e : Expr} (hvs : vs <:+: tokens)
      (he : IsExpr (stringAt depth) n vs e) : Shown P fun d => Expr.nodesOnto d e :=
    shown_expr hP hstring hvs he
  intro d rest hrest
  cases h with
  | @decl k' x ts vs ty value hk hx hty hv =>
    simp only [Stmt.nodesOnto, List.forall_mem_cons]
    exact ⟨carries_simple.mpr hnode, carries_name hP (part hus [k'] _ rfl) hx,
      shown_valuePart hP hstring (part hus (k' :: x :: ts) [] (by simp)) hv _ _ hrest⟩
  | @splitDecl k' x c q us g vs ty value hk hx hc hq hty hg hv =>
    simp only [Stmt.nodesOnto, Expr.optNodesOnto, List.forall_mem_cons]
    exact ⟨carries_simple.mpr hnode, carries_name hP (part hus [k'] _ rfl) hx,
      hexpr (part hus (k' :: x :: c :: (us ++ q :: g)) [] (by simp)) hv _ _ hrest⟩
  | @assign q ts g vs t value ht hq hg hv | @compound q ts g vs t value ht hq hg hv =>
    simp only [Stmt.nodesOnto, List.forall_mem_cons]
    exact ⟨carries_simple.mpr hnode, htarget (part hus [] _ rfl) ht _ _
      (hexpr (part hus (ts ++ q :: g) [] (by simp)) hv _ _ hrest)⟩
  | @after i op ts t ht hop =>
    have hself := hP _ _ _ hus (.expr (isExpr_of_isUnary (isUnary_of_isPrimary (.after ht hop))))
    simp only [Stmt.nodesOnto, IncDec.nodesOnto, List.forall_mem_cons]
    exact ⟨carries_simple.mpr hnode, carries_typed.mpr hself,
      htarget (part hus [] [op] (by simp)) ht _ _ hrest⟩
  | @before op ts t hop ht =>
    have hself := hP _ _ _ hus (.expr (isExpr_of_isUnary (isUnary_of_isPrimary (.before hop ht))))
    simp only [Stmt.nodesOnto, IncDec.nodesOnto, List.forall_mem_cons]
    exact ⟨carries_simple.mpr hnode, carries_typed.mpr hself,
      htarget (part hus [op] [] (by simp)) ht _ _ hrest⟩
  | call hc =>
    simp only [Stmt.nodesOnto, List.forall_mem_cons]
    exact ⟨carries_simple.mpr hnode, shown_call hP (fun _ _ => hexpr) hus hc _ _ hrest⟩
  | @print k' ts e hk he =>
    simp only [Stmt.nodesOnto, Expr.optNodesOnto, List.forall_mem_cons]
    exact ⟨carries_simple.mpr hnode,
      shown_condition hP hstring (part hus [k'] [] (by simp)) he _ _ hrest⟩
  | printEmpty | ret =>
    simp only [Stmt.nodesOnto, Expr.optNodesOnto, List.forall_mem_cons]
    exact ⟨carries_simple.mpr hnode, hrest⟩
  | @retValue k' ts e hk he =>
    simp only [Stmt.nodesOnto, Expr.optNodesOnto, List.forall_mem_cons]
    exact ⟨carries_simple.mpr hnode, hexpr (part hus [k'] [] (by simp)) he _ _ hrest⟩
  | brk | cont =>
    simp only [Stmt.nodesOnto, List.forall_mem_cons]
    exact ⟨carries_simple.mpr hnode, hrest⟩
  | block hb =>
    simp only [Stmt.nodesOnto]
    exact shown_block hP hS hus hb d rest hrest
  | @ifElse k' cs g as bs cond a b hk hcond hg ha hb =>
    simp only [Stmt.nodesOnto, List.forall_mem_cons]
    exact ⟨carries_simple.mpr hnode, shown_condition hP hstring (part hus [k'] _ rfl) hcond _ _
      (shown_block hP hS (part hus (k' :: (cs ++ g)) bs (by simp)) ha _ _
        (shown_elsePart hP hS (part hus (k' :: (cs ++ (g ++ as))) [] (by simp)) hb _ _ hrest))⟩
  | @whileLoop k' cs g bs cond b hk hcond hg hb =>
    simp only [Stmt.nodesOnto, List.forall_mem_cons]
    exact ⟨carries_simple.mpr hnode, shown_condition hP hstring (part hus [k'] _ rfl) hcond _ _
      (shown_block hP hS (part hus (k' :: (cs ++ g)) [] (by simp)) hb _ _ hrest)⟩
  | @forLoop k' o x i c hs g bs y b hk ho hx hi hh hc hg hb =>
    simp only [Stmt.nodesOnto, List.forall_mem_cons]
    exact ⟨carries_simple.mpr hnode, carries_name hP (part hus [k', o] _ rfl) hx,
      shown_header hP hstring (part hus [k', o, x, i] _ rfl) hh _ _
        (shown_block hP hS (part hus (k' :: o :: x :: i :: (hs ++ c :: g)) [] (by simp)) hb _ _ hrest)⟩
  | @function k' x o c g ps ts g' bs params result b hk hx ho hg hps hdistinct hc hr hg' hb =>
    simp only [Stmt.nodesOnto, FunDecl.nodesOnto, List.forall_mem_cons, List.forall_mem_append]
    exact ⟨carries_simple.mpr hnode, carries_name hP (part hus [k'] _ rfl) hx,
      shown_functionParams hP (part hus (k' :: x :: o :: g) _ rfl) hps _,
      shown_block hP hS (part hus (k' :: x :: o :: (g ++ (ps ++ c :: (ts ++ g')))) [] (by simp)) hb
        _ _ hrest⟩

end Nested

theorem shown_stmt {us : List Token} {s : Stmt} (hus : us <:+: tokens)
    (h : IsStmt (IsExpr (stringAt depth) n) k us s) : Shown P fun d => Stmt.nodesOnto d s := by
  induction k generalizing us s with
  | zero => exact h.elim
  | succ k ih => exact shown_statement hP hstring (fun _ _ => ih) hus h

end Shown

/-! ## Places in texts -/

/-- The tokens `us` of a text take the part `own` of it behind `front`: it begins with the first of
them and ends with the last. -/
def Takes (source : Text) (us : List Token) (front own : Text) : Prop :=
  ∃ (before between after : List Token.Placed) (x : Token.Placed) (last : Text),
    source = Token.layout (before ++ x :: (between ++ after)) last ∧
    (∀ b y a, before ++ x :: (between ++ after) = b ++ y :: a → y.Fits b) ∧
    us = (x :: between).map Token.Placed.token ∧ front = Token.layout before x.gap ∧
    own = x.token.lexeme ++ Token.layout between []

/-- The line and the column of the token are those of a character of `own` behind `front`. -/
def LiesIn (front own : Text) (t : Token) : Prop :=
  ∃ read unread, own = read ++ unread ∧ unread ≠ [] ∧ t.line = lineAfter (front ++ read) ∧
    t.col = columnAfter (front ++ read)

/-- A node of a kind that carries the token is read in a text: in a part of it, where the token
stands, or in a template of one of its strings, in the text of which the token is placed alike. -/
inductive Located : Text → NodeKind → Token → Prop where
  | own {source front own : Text} {us : List Token} {kind : NodeKind} {t : Token}
    (htakes : Takes source us front own) (hnode : IsNode us kind t) (hlies : LiesIn front own t) :
    Located source kind t
  | template {source : Text} {tokens : List Token} {string t : Token} {code : List Char}
    {kind : NodeKind} (hscan : Token.scan source = .ok tokens) (hmem : string ∈ tokens)
    (hkind : string.kind = .string)
    (hcode : .code code ∈ Template.pieces string.literal.toText.toList)
    (hinner : Located (.ofChars code) kind t) : Located source kind t

/-- Tokens that stand together in a scanned text take a part of it, in which each of them lies. -/
theorem exists_takes {source : Text} {tokens us : List Token} {t : Token}
    (hscan : Token.scan source = .ok tokens) (hus : us <:+: tokens) (ht : t ∈ us) :
    ∃ front own, Takes source us front own ∧ LiesIn front own t := by
  obtain ⟨placed, last, rfl, hlayout, -, hfits⟩ := Token.laid_of_scan hscan
  obtain ⟨front, back, hus⟩ := hus
  rw [List.append_assoc] at hus
  obtain ⟨before, behind, rfl, -, hbehind⟩ := List.map_eq_append_iff.mp hus.symm
  obtain ⟨own, after, rfl, rfl, -⟩ := List.map_eq_append_iff.mp hbehind
  obtain ⟨x, between, rfl⟩ := List.exists_cons_of_ne_nil fun h : own = [] => by simp [h] at ht
  refine ⟨_, _, ⟨before, between, after, x, last, hlayout.symm, hfits, rfl, rfl, rfl⟩, ?_⟩
  obtain ⟨y, hy, rfl⟩ := List.mem_map.mp ht
  rcases List.mem_cons.mp hy with rfl | hy
  · have hfit := hfits _ _ _ rfl
    refine ⟨[], y.token.lexeme ++ Token.layout between [], rfl, by simp [hfit.nonempty], ?_, ?_⟩
    · simp [hfit.line]
    · simp [hfit.col]
  · obtain ⟨pre, post, rfl⟩ := List.append_of_mem hy
    have hfit := hfits (before ++ x :: pre) y (post ++ after) (by simp)
    have hread : Token.layout (before ++ x :: pre) y.gap =
        Token.layout before x.gap ++ (x.token.lexeme ++ Token.layout pre y.gap) := by
      simp [Token.layout]
    refine ⟨x.token.lexeme ++ Token.layout pre y.gap, y.token.lexeme ++ Token.layout post [], ?_,
      by simp [hfit.nonempty], by rw [← hread, hfit.line], by rw [← hread, hfit.col]⟩
    simp [Token.layout]

theorem located_of_isNode {source : Text} {tokens : List Token}
    (hscan : Token.scan source = .ok tokens) (us : List Token) (kind : NodeKind) (t : Token)
    (hus : us <:+: tokens) (h : IsNode us kind t) : Located source kind t := by
  obtain ⟨front, own, htakes, hlies⟩ := exists_takes hscan hus h.mem
  exact .own htakes h hlies

/-- The text of a template is scanned and read as one expression. -/
theorem of_templateWithin {depth : Nat} {t : Token} {code : List Char} {e : Expr}
    (h : templateWithin depth t code = .ok e) : ∃ inner n, depth = n + 1 ∧
      Token.scan (.ofChars code) = .ok inner ∧ IsWhole (stringAt n) maxDepth inner e := by
  cases depth with
  | zero => cases h
  | succ n =>
    unfold templateWithin at h
    dsimp only at h
    split at h
    · cases h
    · rename_i inner hscan
      split at h
      · cases h
      · rename_i e' rest hwhole
        cases h
        exact ⟨inner, n, rfl, hscan, (of_wholeExpr (endToken_kind inner) (Nat.le_refl _) hwhole).2⟩

/-- The nodes of a string literal: its own and those of its templates. -/
theorem shown_string {P : NodeKind → Token → Prop} {depth : Nat} {source : Text} {tokens : List Token}
    (hscan : Token.scan source = .ok tokens) (hP : ∀ kind t, Located source kind t → P kind t)
    {t : Token} {e : Expr} (ht : t ∈ tokens) (hkind : t.kind = .string) (h : stringAt depth t e) :
    Shown P fun d => Expr.nodesOnto d e := by
  induction depth using Nat.strongRecOn generalizing source tokens t e with
  | ind depth ih =>
    have hliteral : IsNode [t] e.kind e.tok :=
      .expr (n := 1) (isExpr_of_isUnary (isUnary_of_isPrimary (.string hkind h)))
    obtain ⟨before, after, htokens⟩ := List.append_of_mem ht
    have hnode := hP _ _ (located_of_isNode hscan [t] _ _ ⟨before, after, by simp [htokens]⟩ hliteral)
    obtain ⟨text, all, rfl, hall⟩ := tok_of_joinPieces h
    have hsplice {x : Splice} (hx : x ∈ all) : ∃ offset y, x = .mk offset y ∧
        Shown P fun d => Expr.nodesOnto d y := by
      rcases hall x hx with hx | ⟨offset, code, y, rfl, hcode, hy⟩
      · cases hx
      obtain ⟨inner, n, rfl, hinner, hwhole⟩ := of_templateWithin hy
      refine ⟨offset, y, rfl, ?_⟩
      have hinside (kind : NodeKind) (u : Token) (hu : Located (.ofChars code) kind u) :
          P kind u := hP _ _ (.template hscan ht hkind hcode hu)
      cases hwhole with
      | mk hg he hg' =>
        exact shown_expr (fun us kind u hus hu => hinside _ _ (located_of_isNode hinner us _ _ hus hu))
          (fun u z hu => ih n (Nat.lt_succ_self n) hinner hinside hu) ⟨_, _, List.append_assoc _ _ _⟩ he
    have hsplices : Shown P fun d => Splice.nodesOnto d all := by
      clear hall hnode hliteral h
      induction all with
      | nil =>
        intro d rest hrest
        simpa only [Splice.nodesOnto] using hrest
      | cons x all ih' =>
        obtain ⟨offset, y, rfl, hy⟩ := hsplice List.mem_cons_self
        intro d rest hrest
        simp only [Splice.nodesOnto]
        exact hy d _ (ih' (fun hx => hsplice (List.mem_cons_of_mem _ hx)) d rest hrest)
    intro d rest hrest
    simp only [Expr.nodesOnto, List.forall_mem_cons]
    exact ⟨carries_typed.mpr hnode, hsplices _ _ hrest⟩

end Grammar

open Grammar

/-- Every node of a program that is scanned and parsed carries a token of its own source; the one of
a node in a template is placed in the text of the template. Only a program without statements has no
token. -/
theorem Program.located_of_parse {source : Text} {tokens : List Token} {p : Program}
    (hscan : Token.scan source = .ok tokens) (hparse : Program.parse tokens = .ok p)
    {v : NodeView} (hv : v ∈ p.nodes) :
    Located source v.kind v.tok ∧ (∀ c, v.close = some c → Located source v.kind c) ∨
      p.stmts = [] ∧ v = .simple 0 .program .absent := by
  have hread := Program.isProgram_of_parse hparse
  have hlocated := located_of_isNode hscan
  change IsProgram (IsExpr (stringAt (Parse.templateDepth tokens)) Parse.maxDepth) _ _ at hread
  obtain ⟨file, ss⟩ := p
  have hstmts : Shown (Located source) fun d => Stmt.listNodesOnto d ss := by
    cases hread with
    | mk hseps hs =>
      exact shown_stmts (fun _ _ => shown_stmt hlocated fun t e ht hkind =>
        shown_string hscan (fun _ _ h => h) ht hkind) ⟨_, [], List.append_nil _⟩ hs
  rcases List.mem_cons.mp hv with rfl | hv
  · cases ss with
    | nil => exact .inr ⟨rfl, rfl⟩
    | cons s ss =>
      exact .inl ⟨hlocated _ _ _ (List.infix_refl _) (.program hread), nofun⟩
  · exact .inl (hstmts 1 [] (fun _ h => nomatch h) v hv)

/-- The nodes of a text with their kinds, lines and columns, behind its strings. -/
def placesOf (source : Text) : Option (List (Nat × Nat) × List (NodeKind × Nat × Nat)) := do
  let tokens ← (Token.scan source).toOption
  let p ← (Program.parse tokens).toOption
  return ((tokens.filter fun t => t.kind = .string).map fun t => (t.line, t.col),
    p.nodes.map fun v => (v.kind, v.tok.line, v.tok.col))

/-- A variable in a template on the second line. -/
def secondLine : Text := Text.ofString "val x = 1\nprintln(\"$x\")"

theorem Program.located_of_parse_secondLine : ∃ tokens p, Token.scan secondLine = .ok tokens ∧
    Program.parse tokens = .ok p ∧ p.nodes.length = 7 ∧ ∀ v ∈ p.nodes,
      Located secondLine v.kind v.tok ∧ (∀ c, v.close = some c → Located secondLine v.kind c) ∨
        p.stmts = [] ∧ v = .simple 0 .program .absent := by
  have hparses : (Token.scan secondLine).toOption.any (fun tokens =>
      (Program.parse tokens).toOption.any fun p => p.nodes.length = 7) = true := by decide +kernel
  cases hscan : Token.scan secondLine with
  | error d =>
    rw [hscan] at hparses
    cases hparses
  | ok tokens =>
    rw [hscan] at hparses
    change (Program.parse tokens).toOption.any _ = true at hparses
    cases hparse : Program.parse tokens with
    | error d =>
      rw [hparse] at hparses
      cases hparses
    | ok p =>
      rw [hparse] at hparses
      have hlength : p.nodes.length = 7 := of_decide_eq_true hparses
      exact ⟨tokens, p, rfl, hparse, hlength, fun v hv => Program.located_of_parse hscan hparse hv⟩

/-- The name in the string on the second line carries a token on the first. -/
theorem Program.template_outside_string : placesOf secondLine = some ([(2, 9)],
    [(.program, 1, 1), (.varDeclaration, 1, 1), (.identifier, 1, 5), (.integerLiteral, 1, 9),
      (.print, 2, 1), (.stringLiteral, 2, 9), (.identifier, 1, 1)]) := by
  decide +kernel

end Kotlet

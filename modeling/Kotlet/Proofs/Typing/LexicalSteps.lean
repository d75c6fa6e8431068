import Kotlet.Proofs.Typing.Lexical
import Kotlet.Proofs.Typing.Stmt

/-!
# How the checker settles names

* `Typing.Mirrors` : the scopes hold what is in view, and behind it the functions;
* `Typing.Settled` : names as they were, with their symbols filled in;
* `Typing.Settles` : the checker's steps that leave the scopes as they are;
* `Expr.settles_check` : expressions;
* `Typing.Brings` : the steps on a statement, after which what it introduces is in view;
* `Stmt.brings_check`, `Stmt.settles_checkList` : statements.
-/

namespace Kotlet

namespace Typing

/-! ## Scopes and views -/

/-- What a name means where some declarations are in view, among some functions. -/
def meaning? (functions : Scope) (view : List Ident) (name : String) : Option Symbol :=
  ((view.find? fun d => d.isNamed name).bind Ident.sym).or (functions.find? name)

/-- The scopes hold the symbols of what is in view, and behind them the functions. -/
structure Mirrors (functions : Scope) (view : List Ident) (scopes : Scopes) : Prop where
  symbols : scopes.symbols = view.filterMap Ident.sym ++ functions.declared
  named : ∀ d ∈ view, ∃ sym, d.sym = some sym ∧ sym.name = d.name

/-- The scopes are searched from the inside out, each from its latest symbol on. -/
theorem find?_symbols (s : Scopes) (name : String) :
    s.find? name = s.symbols.find? fun sym => sym.name == name := by
  rw [Scopes.symbols, List.find?_flatMap]
  rfl

theorem find?_filterMap_sym (name : String) : ∀ {view : List Ident},
    (∀ d ∈ view, ∃ sym, d.sym = some sym ∧ sym.name = d.name) →
    (view.filterMap Ident.sym).find? (fun sym => sym.name == name) =
      (view.find? fun d => d.isNamed name).bind Ident.sym
  | [], _ => rfl
  | d :: view, h => by
    obtain ⟨sym, hsym, hname⟩ := h d List.mem_cons_self
    have ih := find?_filterMap_sym name fun d hd => h d (List.mem_cons_of_mem _ hd)
    rw [List.filterMap_cons_some hsym, List.find?_cons, List.find?_cons, hname, Ident.isNamed]
    cases d.name == name with
    | true => exact hsym.symm
    | false => exact ih

section Mirrors

variable {functions : Scope} {view : List Ident} {scopes : Scopes}

theorem Mirrors.find? (h : Mirrors functions view scopes) (name : String) :
    scopes.find? name = meaning? functions view name := by
  rw [find?_symbols, h.symbols, List.find?_append, find?_filterMap_sym name h.named]
  rfl

theorem Mirrors.enter (h : Mirrors functions view scopes) (kind : ScopeKind) :
    Mirrors functions view (scopes.enter kind) :=
  ⟨(Scopes.symbols_enter _ _).trans h.symbols, h.named⟩

theorem Mirrors.define (h : Mirrors functions view scopes) {d : Ident} {sym : Symbol}
    (hd : d.sym = some sym) (hname : sym.name = d.name) :
    Mirrors functions (d :: view) (scopes.define sym) := by
  refine ⟨?_, fun x hx => ?_⟩
  · rw [Scopes.symbols_define, h.symbols, List.filterMap_cons_some hd]
    rfl
  · rcases List.mem_cons.mp hx with rfl | hx
    · exact ⟨sym, hd, hname⟩
    · exact h.named x hx

end Mirrors

/-! ## Names with their symbols -/

/-- The symbols of some declarations are those of a routine from a number on. -/
def Numbered (routine lo : Nat) (ds : List Ident) : Prop :=
  ∃ syms : List Symbol, ds.map Ident.sym = syms.map some ∧
    syms.map Symbol.id = (List.range' lo ds.length).map (SymbolId.mk routine)

/-- An occurrence has the symbol of what it means. -/
def Resolved (functions : Scope) (o : Occurrence) : Prop :=
  ∃ sym, o.id.sym = some sym ∧ meaning? functions o.view o.id.name = some sym

/-- The same names are used and declared as before. Those that are used mean what is in view, and those
that are declared take the numbers from `lo` to `hi`. -/
structure Settled (functions : Scope) (routine lo hi : Nat) (os os' : List Occurrence)
    (ds ds' : List Ident) : Prop where
  uses : os'.map Occurrence.plain = os.map Occurrence.plain
  declares : ds'.map Ident.plain = ds.map Ident.plain
  resolved : ∀ o ∈ os', Resolved functions o
  numbered : Numbered routine lo ds'
  next : hi = lo + ds'.length

section Settled

variable {functions : Scope} {routine lo mid hi : Nat} {os os' us us' : List Occurrence}
  {ds ds' es es' view old : List Ident}

theorem Numbered.append (h : Numbered routine lo ds) (h' : Numbered routine (lo + ds.length) es) :
    Numbered routine lo (ds ++ es) := by
  obtain ⟨xs, hx, hxid⟩ := h
  obtain ⟨ys, hy, hyid⟩ := h'
  refine ⟨xs ++ ys, ?_, ?_⟩
  · rw [List.map_append, List.map_append, hx, hy]
  · rw [List.map_append, hxid, hyid, List.length_append, ← List.map_append]
    congr 1
    simp

theorem Numbered.single {d : Ident} {sym : Symbol} (h : d.sym = some sym)
    (hid : sym.id = ⟨routine, lo⟩) : Numbered routine lo [d] := by
  refine ⟨[sym], by simp [h], ?_⟩
  rw [List.map_singleton, hid]
  rfl

theorem Settled.nil : Settled functions routine lo lo [] [] [] [] :=
  ⟨rfl, rfl, fun _ ho => absurd ho List.not_mem_nil, ⟨[], rfl, rfl⟩, rfl⟩

theorem Settled.append (h : Settled functions routine lo mid os os' ds ds')
    (h' : Settled functions routine mid hi us us' es es') :
    Settled functions routine lo hi (os ++ us) (os' ++ us') (ds ++ es) (ds' ++ es') where
  uses := by rw [List.map_append, List.map_append, h.uses, h'.uses]
  declares := by rw [List.map_append, List.map_append, h.declares, h'.declares]
  resolved o ho := (List.mem_append.mp ho).elim (h.resolved o) (h'.resolved o)
  numbered := h.numbered.append (h.next ▸ h'.numbered)
  next := by rw [h'.next, h.next, List.length_append, Nat.add_assoc]

/-- One more name that is used. -/
theorem Settled.cons {id : Ident} {sym : Symbol} {ty : Option Ty}
    (hv : view.map Ident.plain = old.map Ident.plain) (hm : meaning? functions view id.name = some sym)
    (h : Settled functions routine lo hi os os' ds ds') :
    Settled functions routine lo hi (⟨id, old⟩ :: os)
      (⟨{ id with sym := some sym, ty := ty }, view⟩ :: os') ds ds' where
  uses := by
    rw [List.map_cons, List.map_cons, h.uses, Occurrence.plain, Occurrence.plain, hv]
    rfl
  declares := h.declares
  resolved o ho := by
    rcases List.mem_cons.mp ho with rfl | ho
    · exact ⟨sym, rfl, hm⟩
    · exact h.resolved o ho
  numbered := h.numbered
  next := h.next

/-- A name that is declared. -/
theorem Settled.declare {d : Ident} {sym : Symbol} (hid : sym.id = ⟨routine, lo⟩) :
    Settled functions routine lo (lo + 1) [] [] [d] [{ d with sym := some sym }] :=
  ⟨rfl, rfl, fun _ ho => absurd ho List.not_mem_nil, .single rfl hid, rfl⟩

end Settled

/-! ## Steps -/

/-- Where some declarations are in view and the next symbol has the number `lo`, the steps leave the
scopes as they are and end in a result and a next number of which `P` holds. -/
def Settles {α : Type} (env : Env) (functions : Scope) (view : List Ident) (lo : Nat) (x : Check α)
    (P : α → Nat → Prop) : Prop :=
  ∀ s, Mirrors functions view s.scopes → s.next = lo →
    Ends x env s (fun _ => True) fun a s' => s'.scopes = s.scopes ∧ P a s'.next

section Settles

variable {α β : Type} {env : Env} {functions : Scope} {view old : List Ident} {lo : Nat} {x : Check α}
  {P : α → Nat → Prop} {Q : β → Nat → Prop}

theorem Settles.pure {a : α} (h : P a lo) : Settles env functions view lo (pure a) P :=
  fun _ _ hs => ⟨rfl, hs ▸ h⟩

theorem Settles.bind {f : α → Check β} (h : Settles env functions view lo x P)
    (hf : ∀ a mid, P a mid → Settles env functions view mid (f a) Q) :
    Settles env functions view lo (x >>= f) Q := by
  intro s hm hs
  rw [ends_bind]
  refine (h s hm hs).mono fun a s' ⟨hscopes, ha⟩ => ?_
  refine (hf a s'.next ha s' (hscopes ▸ hm) rfl).mono fun b s'' ⟨hscopes', hb⟩ => ?_
  exact ⟨hscopes'.trans hscopes, hb⟩

theorem settles_reject {e : TypeError} {t : Token} :
    Settles env functions view lo (reject e t : Check α) P := fun _ _ _ => trivial

theorem Settles.ite {c : Prop} [Decidable c] {y : Check α}
    (hx : c → Settles env functions view lo x P) (hy : ¬ c → Settles env functions view lo y P) :
    Settles env functions view lo (if c then x else y) P := by
  by_cases h : c
  · rw [if_pos h]; exact hx h
  · rw [if_neg h]; exact hy h

/-- A check that must be passed to go on. -/
theorem Settles.unless {c : Prop} [Decidable c] {e : TypeError} {t : Token} {f : Unit → Check α}
    (h : ¬ c → Settles env functions view lo (f ()) P) :
    Settles env functions view lo (if c then reject e t >>= f else f ()) P :=
  Settles.ite (fun _ => (settles_reject (P := fun _ _ => False)).bind fun _ _ h => h.elim) h

theorem settles_get : Settles env functions view lo (get : Check State) fun _ n => n = lo :=
  fun _ _ hs => ⟨rfl, hs⟩

theorem settles_read : Settles env functions view lo (read : Check Env) fun r n => n = lo ∧ r = env :=
  fun _ _ hs => ⟨rfl, hs, rfl⟩

/-- Which variables have a value is no matter of names. -/
theorem settles_noteLate (f : State → List Late) :
    Settles env functions view lo (modify fun s => { s with late := f s } : Check PUnit)
      fun _ n => n = lo :=
  fun _ _ hs => ⟨rfl, hs⟩

theorem settles_requireValue {e : Expr} {t : Ty} :
    Settles env functions view lo (requireValue e t) fun _ n => n = lo :=
  Settles.ite (fun _ => settles_reject) fun _ => .pure rfl

theorem settles_requireType {what : String} {want found : Ty} {e : Expr} :
    Settles env functions view lo (requireType what want e found) fun _ n => n = lo :=
  Settles.ite (fun _ => .pure rfl) fun _ => settles_reject

theorem settles_resolve? (name : String) :
    Settles env functions view lo (resolve? name) fun o n =>
      o = meaning? functions view name ∧ n = lo := by
  intro s hm hs
  unfold resolve?
  rw [ends_bind, ends_read, ends_bind, ends_get, hm.find?]
  cases meaning? functions view name with
  | none => exact ⟨rfl, rfl, hs⟩
  | some sym =>
    cases hf : sym.isFunction with
    | true =>
      simp only [hf, Bool.not_true, Bool.false_eq_true, if_false, ends_pure]
      exact ⟨trivial, trivial, hs⟩
    | false =>
      simp only [hf, Bool.not_false, if_true, ends_bind, ends_modify, ends_pure]
      exact ⟨trivial, trivial, hs⟩

theorem settles_checkRead (id : Ident) :
    Settles env functions view lo id.checkRead fun p n => n = lo ∧ ∃ sym,
      p.1 = { id with sym := some sym, ty := some sym.ty } ∧
        meaning? functions view id.name = some sym := by
  refine (settles_resolve? id.name).bind fun o n ⟨ho, hn⟩ => ?_
  cases o with
  | none => exact settles_reject
  | some sym => exact .pure ⟨hn, sym, rfl, ho.symm⟩

theorem settles_isCaptured (sym : Symbol) :
    Settles env functions view lo (isCaptured sym) fun _ n => n = lo := by
  intro s _ hs
  simp [isCaptured, hs]

theorem settles_checkWritable (id : Ident) (first : Bool) :
    Settles env functions view lo (id.checkWritable first) fun sym n => n = lo ∧
      meaning? functions view id.name = some sym := by
  refine (settles_resolve? id.name).bind fun o n ⟨ho, hn⟩ => ?_
  subst hn
  cases o with
  | none => exact settles_reject
  | some sym =>
    refine settles_get.bind fun s m hm => hm ▸ ?_
    refine Settles.ite (fun _ => settles_reject) fun _ => ?_
    refine Settles.ite (fun _ => settles_reject) fun _ => ?_
    refine (settles_isCaptured sym).bind fun b m hm => hm ▸ ?_
    refine Settles.ite (fun _ => settles_reject) fun _ => ?_
    refine Settles.ite (fun _ => settles_reject) fun _ => ?_
    refine settles_read.bind fun _ m hm => hm.1 ▸ ?_
    exact Settles.ite (fun _ => settles_reject) fun _ => .pure ⟨rfl, ho.symm⟩

theorem settles_lambdaParamTypes : ∀ (ps : List Param) (wanted : List (Option Ty)),
    Settles env functions view lo (lambdaParamTypes ps wanted) fun types n =>
      n = lo ∧ types.length = ps.length
  | [], _ => .pure ⟨rfl, rfl⟩
  | p :: ps, wanted => by
    have hrest (ty : Ty) : Settles env functions view lo (do
        if ty = .unit then reject (.unitParameter p.name.name) p.name.tok
        return ty :: (← lambdaParamTypes ps wanted.tail)) fun types n =>
          n = lo ∧ types.length = (p :: ps).length := by
      refine Settles.unless fun _ => (settles_lambdaParamTypes ps wanted.tail).bind fun types n h => ?_
      exact .pure ⟨h.1, congrArg (· + 1) h.2⟩
    unfold lambdaParamTypes
    extract_lets rest
    cases p.ty with
    | some t => exact hrest t
    | none =>
      cases wanted.head?.join with
      | none => exact (settles_reject (P := fun _ _ => False)).bind fun _ _ h => h.elim
      | some t => exact hrest t

/-! ## Scopes -/

/-- A declaration comes into view. -/
theorem mirrors_declare {d : Ident} {ty : Ty} {kind : Symbol.Kind} {constant initialized : Bool}
    {site : Site} {s : State} (hm : Mirrors functions view s.scopes) :
    Ends (declare d.name ty kind constant initialized site) env s (fun _ => True) fun sym s' =>
      sym.id = ⟨env.routine, s.next⟩ ∧ s'.next = s.next + 1 ∧
        s'.scopes.inner.kind = s.scopes.inner.kind ∧
        Mirrors functions ({ d with sym := some sym } :: view) s'.scopes := by
  unfold declare
  simp only [ends_bind, ends_read, ends_get, ends_set, ends_pure]
  exact ⟨trivial, trivial, rfl, hm.define rfl rfl⟩

/-- Parameters come into view. -/
theorem mirrors_declareParams (env : Env) (ps : List Param) (types : List Ty) (view : List Ident)
    (s : State) (hlen : types.length = ps.length) (hm : Mirrors functions view s.scopes) :
    Ends (declareParams ps types) env s (fun _ => True) fun ps' s' =>
      Mirrors functions ((paramNames ps').reverse ++ view) s'.scopes ∧
        Settled functions env.routine s.next s'.next [] [] (paramNames ps) (paramNames ps') := by
  induction ps generalizing types view s with
  | nil =>
    unfold declareParams
    exact ⟨hm, Settled.nil⟩
  | cons p ps ih =>
    obtain ⟨t, types, rfl⟩ := List.exists_cons_of_length_eq_add_one hlen
    unfold declareParams
    simp only [ends_bind, ends_pure]
    refine (mirrors_declare hm).mono ?_
    rintro sym s₁ ⟨hid, hnext, -, hm₁⟩
    refine (ih types _ s₁ (Nat.succ.inj hlen) hm₁).mono ?_
    rintro ps' s₂ ⟨hm₂, hps⟩
    refine ⟨?_, (Settled.declare hid).append (hnext ▸ hps)⟩
    rw [paramNames, List.map_cons, List.reverse_cons, List.append_assoc]
    exact hm₂

/-- A step inside a fresh scope, which is left afterwards. -/
theorem settles_inScope {kind : ScopeKind}
    (h : ∀ s, Mirrors functions view s.scopes → s.next = lo → s.scopes.inner.kind = kind →
      Ends x env s (fun _ => True) fun a s' => P a s'.next) :
    Settles env functions view lo (inScope kind x) P := by
  intro s hm hs
  unfold inScope
  simp only [ends_bind, ends_get, ends_modify, ends_pure]
  refine (h { s with scopes := s.scopes.enter kind } (hm.enter kind) hs rfl).mono fun a s' ha => ?_
  exact ⟨trivial, ha⟩

/-- The body of a lambda, with its parameters in view. -/
theorem settles_inLambda {m : Mark} {ps : List Param} {types : List Ty} {e : Expr}
    {body : Check (Expr × Ty)} (hv : view.map Ident.plain = old.map Ident.plain)
    (hlen : types.length = ps.length)
    (hbody : ∀ {view' lo'}, view'.map Ident.plain = ((paramNames ps).reverse ++ old).map Ident.plain →
      Settles (env.inside m) functions view' lo' body fun p hi =>
        Settled functions env.routine lo' hi (e.occurrences ((paramNames ps).reverse ++ old))
          (p.1.occurrences view') e.declarations p.1.declarations) :
    Settles env functions view lo
      (inLambda m do
        let ps ← declareParams ps types
        let (body, found) ← body
        return (ps, body, found))
      fun r hi => Settled functions env.routine lo hi
        (e.occurrences ((paramNames ps).reverse ++ old))
        (r.1.2.1.occurrences ((paramNames r.1.1).reverse ++ view))
        (paramNames ps ++ e.declarations) (paramNames r.1.1 ++ r.1.2.1.declarations) := by
  intro s hm hs
  subst hs
  unfold inLambda inScope
  simp only [ends_bind, ends_modify, ends_withReader, ends_get, ends_set, ends_pure]
  refine (mirrors_declareParams (env.inside m) ps types view _ hlen (hm.enter .lambda)).mono ?_
  rintro ps' s₁ ⟨hm₁, hps⟩
  have hv' : ((paramNames ps').reverse ++ view).map Ident.plain =
      ((paramNames ps).reverse ++ old).map Ident.plain := by
    rw [List.map_append, List.map_append, List.map_reverse, List.map_reverse, hv, hps.declares]
  refine (hbody hv' s₁ hm₁ rfl).mono ?_
  rintro ⟨body', found⟩ s₂ ⟨-, hset⟩
  exact ⟨trivial, hps.append hset⟩

end Settles

end Typing

open Typing

/-! ## Expressions -/

section Check

variable {functions : Scope}

mutual

theorem Expr.settles_check {env : Env} {lo : Nat} {w : Option Ty}
    {old view : List Ident} (hv : view.map Ident.plain = old.map Ident.plain) : (e : Expr) →
    Settles env functions view lo (e.check w) fun p hi =>
      Settled functions env.routine lo hi (e.occurrences old) (p.1.occurrences view)
        e.declarations p.1.declarations
  | .int m n => .pure Settled.nil
  | .bool m b => .pure Settled.nil
  | .str m text splices => (Splice.settles_checkList hv splices).bind fun _ _ hss => .pure hss
  | .read t => (Target.settles_check hv t).bind fun _ _ ht => .pure ht
  | .arith m op l r => by
    refine (Expr.settles_check hv l).bind fun p mid hl => ?_
    refine (Expr.settles_check hv r).bind fun q hi hr => ?_
    exact Settles.ite (fun _ => .pure (hl.append hr)) fun _ => settles_reject
  | .compare m op l r => by
    refine (Expr.settles_check hv l).bind fun p mid hl => ?_
    refine (Expr.settles_check hv r).bind fun q hi hr => ?_
    exact Settles.ite (fun _ => .pure (hl.append hr)) fun _ => settles_reject
  | .logic m op l r => by
    refine (Expr.settles_check hv l).bind fun p mid hl => ?_
    refine (Expr.settles_check hv r).bind fun q hi hr => ?_
    exact Settles.ite (fun _ => .pure (hl.append hr)) fun _ => settles_reject
  | .not m e =>
    (Expr.settles_check hv e).bind fun _ _ he =>
      Settles.ite (fun _ => .pure he) fun _ => settles_reject
  | .incDec e => (IncDec.settles_check hv e).bind fun _ _ he => .pure he
  | .collection m kind es => by
    refine (Expr.settles_checkElements hv es).bind fun p hi hes => ?_
    obtain ⟨es', found⟩ := p
    dsimp only
    cases (if wantedElement? kind w = some .any then wantedElement? kind w
        else found.or (wantedElement? kind w)) with
    | none => exact (settles_reject (P := fun _ _ => False)).bind fun _ _ h => h.elim
    | some s => exact .pure hes
  | .sized m kind size gen => by
    refine (Expr.settles_check hv size).bind fun p mid hsize => ?_
    refine settles_requireType.bind fun _ mid' hmid => ?_
    subst hmid
    refine Settles.unless fun _ => (Lambda.settles_check hv gen).bind fun q hi hgen => ?_
    obtain ⟨gen', types, result⟩ := q
    dsimp only at hgen ⊢
    refine Settles.unless fun _ => ?_
    cases result.elementScalar? with
    | none => exact settles_reject
    | some s => exact .pure (hsize.append hgen)
  | .lambda l => (Lambda.settles_check hv l).bind fun _ _ hl => .pure hl
  | .call c => (Call.settles_check hv c).bind fun _ _ hc => .pure hc
  | .range r => settles_reject

theorem Expr.settles_checkElements {env : Env} {lexeme : String} {any : Bool}
    {old view : List Ident} (hv : view.map Ident.plain = old.map Ident.plain) :
    {lo : Nat} → {first : Option Scalar} → (es : List Expr) →
    Settles env functions view lo (Expr.checkElements lexeme any first es) fun p hi =>
      Settled functions env.routine lo hi (Expr.listOccurrences old es)
        (Expr.listOccurrences view p.1) (Expr.listDeclarations es) (Expr.listDeclarations p.1)
  | _, _, [] => .pure Settled.nil
  | lo, first, e :: es => by
    refine (Expr.settles_check hv e).bind fun p mid he => ?_
    obtain ⟨e', t⟩ := p
    dsimp only at he ⊢
    cases t.elementScalar? with
    | none => exact settles_reject
    | some s =>
      have hrest (first : Option Scalar) : Settles env functions view mid (do
          let (es, found) ← Expr.checkElements lexeme any first es
          return (e' :: es, found)) fun p hi =>
            Settled functions env.routine lo hi (Expr.listOccurrences old (e :: es))
              (Expr.listOccurrences view p.1) (Expr.listDeclarations (e :: es))
              (Expr.listDeclarations p.1) :=
        (Expr.settles_checkElements hv es).bind fun q hi hes => .pure (he.append hes)
      cases first with
      | none => exact hrest _
      | some f => exact Settles.unless fun _ => hrest _

theorem Splice.settles_checkList {env : Env} {old view : List Ident}
    (hv : view.map Ident.plain = old.map Ident.plain) :
    {lo : Nat} → (ss : List Splice) →
    Settles env functions view lo (Splice.checkList ss) fun ss' hi =>
      Settled functions env.routine lo hi (Splice.occurrences old ss) (Splice.occurrences view ss')
        (Splice.declarations ss) (Splice.declarations ss')
  | _, [] => .pure Settled.nil
  | _, .mk offset e :: ss => by
    refine (Expr.settles_check hv e).bind fun p mid he => Settles.unless fun _ => ?_
    exact (Splice.settles_checkList hv ss).bind fun ss' hi hss => .pure (he.append hss)

theorem Target.settles_check {env : Env} {lo : Nat}
    {old view : List Ident} (hv : view.map Ident.plain = old.map Ident.plain) : (t : Target) →
    Settles env functions view lo t.check fun p hi =>
      Settled functions env.routine lo hi (t.occurrences old) (p.1.occurrences view)
        t.declarations p.1.declarations
  | .name id => by
    refine (settles_checkRead id).bind ?_
    rintro ⟨id', t⟩ _ ⟨rfl, sym, rfl, hsym⟩
    exact .pure (Settled.nil.cons hv hsym)
  | .element m base index => by
    refine (settles_checkRead base).bind ?_
    rintro ⟨base', bt⟩ _ ⟨rfl, sym, rfl, hsym⟩
    dsimp only
    cases bt.element? with
    | none => exact settles_reject
    | some s =>
      refine (Expr.settles_check hv index).bind fun q hi hindex => ?_
      refine settles_requireType.bind fun _ hi' hhi => ?_
      subst hhi
      exact .pure (hindex.cons hv hsym)

theorem Target.settles_checkInt {env : Env} {lo : Nat} {op : String}
    {old view : List Ident} (hv : view.map Ident.plain = old.map Ident.plain) : (t : Target) →
    Settles env functions view lo (t.checkInt op) fun p hi =>
      Settled functions env.routine lo hi (t.occurrences old) (p.1.occurrences view)
        t.declarations p.1.declarations
  | .name id => by
    refine (settles_checkWritable id false).bind ?_
    rintro sym _ ⟨rfl, hsym⟩
    exact Settles.unless fun _ => .pure (Settled.nil.cons hv hsym)
  | .element m base index => by
    refine (settles_checkRead base).bind ?_
    rintro ⟨base', bt⟩ _ ⟨rfl, sym, rfl, hsym⟩
    dsimp only
    cases bt.element? with
    | none => exact settles_reject
    | some s =>
      refine (Expr.settles_check hv index).bind fun q hi hindex => ?_
      refine settles_requireType.bind fun _ hi' hhi => ?_
      subst hhi
      exact Settles.unless fun _ => .pure (hindex.cons hv hsym)

theorem IncDec.settles_check {env : Env} {lo : Nat}
    {old view : List Ident} (hv : view.map Ident.plain = old.map Ident.plain) : (e : IncDec) →
    Settles env functions view lo e.check fun p hi =>
      Settled functions env.routine lo hi (e.occurrences old) (p.1.occurrences view)
        e.declarations p.1.declarations
  | .mk _ _ _ t => (Target.settles_checkInt hv t).bind fun _ _ ht => .pure ht

theorem Lambda.settles_check {env : Env} {lo : Nat} {params : List Ty} {wanted : Option Ty}
    {old view : List Ident} (hv : view.map Ident.plain = old.map Ident.plain) : (l : Lambda) →
    Settles env functions view lo (l.check params wanted) fun p hi =>
      Settled functions env.routine lo hi (l.occurrences old) (p.1.occurrences view)
        l.declarations p.1.declarations
  | .mk m ps body caps => by
    refine (settles_lambdaParamTypes ps _).bind ?_
    rintro types _ ⟨rfl, hlen⟩
    refine (settles_inLambda hv hlen fun hv' => Expr.settles_check hv' body).bind ?_
    rintro ⟨⟨ps', body', found⟩, caps'⟩ hi hbody
    dsimp only at hbody ⊢
    cases wanted with
    | none => exact .pure hbody
    | some want => exact Settles.unless fun _ => .pure hbody

theorem Call.settles_check {env : Env} {lo : Nat}
    {old view : List Ident} (hv : view.map Ident.plain = old.map Ident.plain) : (c : Call) →
    Settles env functions view lo c.check fun p hi =>
      Settled functions env.routine lo hi (c.occurrences old) (p.1.occurrences view)
        c.declarations p.1.declarations
  | .mk m callee args => by
    refine (settles_resolve? callee.name).bind ?_
    rintro o _ ⟨ho, rfl⟩
    cases o with
    | none => exact settles_reject
    | some sym =>
      dsimp only
      cases sym.ty with
      | fn params result =>
        refine Settles.unless fun hlen => ?_
        refine (Expr.settles_checkArgs hv args params (Decidable.not_not.mp hlen)).bind fun args' hi hargs => ?_
        cases result with
        | none => exact settles_reject
        | some t => exact .pure (hargs.cons hv ho.symm)
      | _ => exact settles_reject

theorem Expr.settles_checkArgs {env : Env} {name : String}
    {old view : List Ident} (hv : view.map Ident.plain = old.map Ident.plain) : {lo number : Nat} →
    (es : List Expr) → (wants : List Ty) → es.length = wants.length →
    Settles env functions view lo (Expr.checkArgs name number es wants) fun es' hi =>
      Settled functions env.routine lo hi (Expr.listOccurrences old es)
        (Expr.listOccurrences view es') (Expr.listDeclarations es) (Expr.listDeclarations es')
  | _, _, [], _, _ => by
    unfold Expr.checkArgs
    exact .pure Settled.nil
  | _, _, e :: es, want :: wants, hlen => by
    refine (Expr.settles_check hv e).bind fun p mid he => ?_
    refine settles_requireValue.bind fun _ mid' hmid => ?_
    subst hmid
    refine Settles.unless fun _ => ?_
    refine (Expr.settles_checkArgs hv es wants (Nat.succ.inj hlen)).bind fun es' hi hes => ?_
    exact .pure (he.append hes)

end

end Check

/-! ## Statements -/

namespace Typing

/-- Steps on a statement: what it introduces comes into view, in the scope that was there before. -/
def Brings (env : Env) (functions : Scope) (view : List Ident) (lo : Nat) (x : Check Stmt)
    (P : Stmt → Nat → Prop) : Prop :=
  ∀ s, Mirrors functions view s.scopes → s.next = lo →
    Ends x env s (fun _ => True) fun st s' => Mirrors functions (st.introduces ++ view) s'.scopes ∧
      s'.scopes.inner.kind = s.scopes.inner.kind ∧ P st s'.next

/-- A statement that was checked: it introduces what it did before, and its names are settled. -/
structure Proceeds (functions : Scope) (routine lo : Nat) (old view : List Ident) (st st' : Stmt)
    (hi : Nat) : Prop where
  introduces : st'.introduces.map Ident.plain = st.introduces.map Ident.plain
  ne_function : ∀ f, st' ≠ .function f
  settled : Settled functions routine lo hi (st.occurrences old) (st'.occurrences view)
    st.declarations st'.declarations

section Brings

variable {α : Type} {env : Env} {functions : Scope} {old view : List Ident} {lo : Nat} {x : Check α}
  {y : Check Stmt} {P : α → Nat → Prop} {Q : Stmt → Nat → Prop}

theorem Settles.brings (h : Settles env functions view lo y fun st n => st.introduces = [] ∧ Q st n) :
    Brings env functions view lo y Q := by
  intro s hm hs
  refine (h s hm hs).mono fun st s' ⟨hscopes, hst, hQ⟩ => ?_
  rw [hscopes, hst]
  exact ⟨hm, rfl, hQ⟩

theorem Settles.bind_brings {f : α → Check Stmt} (h : Settles env functions view lo x P)
    (hf : ∀ a mid, P a mid → Brings env functions view mid (f a) Q) :
    Brings env functions view lo (x >>= f) Q := by
  intro s hm hs
  rw [ends_bind]
  refine (h s hm hs).mono fun a s' ⟨hscopes, ha⟩ => ?_
  rw [← hscopes]
  exact hf a s'.next ha s' (hscopes ▸ hm) rfl

theorem brings_reject {e : TypeError} {t : Token} :
    Brings env functions view lo (reject e t) Q := fun _ _ _ => trivial

theorem Brings.ite {c : Prop} [Decidable c] {z : Check Stmt}
    (hy : c → Brings env functions view lo y Q) (hz : ¬ c → Brings env functions view lo z Q) :
    Brings env functions view lo (if c then y else z) Q := by
  by_cases h : c
  · rw [if_pos h]; exact hy h
  · rw [if_neg h]; exact hz h

/-- A check that must be passed to go on. -/
theorem Brings.unless {c : Prop} [Decidable c] {e : TypeError} {t : Token} {f : Unit → Check Stmt}
    (h : Brings env functions view lo (f ()) Q) :
    Brings env functions view lo (if c then reject e t >>= f else f ()) Q :=
  Brings.ite (fun _ => (settles_reject (P := fun _ _ => False)).bind_brings fun _ _ h => h.elim)
    fun _ => h

/-- A statement that introduces nothing. -/
theorem brings_pure {st st' : Stmt} (h : st.introduces = []) (h' : st'.introduces = [])
    (hne : ∀ f, st' ≠ .function f) {mid : Nat}
    (hset : Settled functions env.routine lo mid (st.occurrences old) (st'.occurrences view)
      st.declarations st'.declarations) :
    Brings env functions view mid (pure st') (Proceeds functions env.routine lo old view st) :=
  Settles.brings (.pure ⟨h', by rw [h, h'], hne, hset⟩)

end Brings

section Statements

variable {env : Env} {functions : Scope} {old view : List Ident} {lo : Nat}

/-- The last step of a declaration. -/
theorem brings_declareVariable (tok : Token) (isMutable : Bool) (name : Ident) (ty : Option Ty)
    (v v' : Option Expr) (t : Ty) {mid : Nat}
    (hval : Settled functions env.routine lo mid (Expr.optionOccurrences old v)
      (Expr.optionOccurrences view v') (Expr.optionDeclarations v) (Expr.optionDeclarations v')) :
    Brings env functions view mid (do
      let site := Site.ofToken .varDeclaration tok
      let sym ← declare name.name t .variable (!isMutable) v'.isSome site
      let loops := (← read).loops
      if v'.isNone then
        modify fun s => { s with late := ⟨sym.id, !isMutable, loops, false⟩ :: s.late }
      return Stmt.decl tok isMutable { name with sym := some sym } ty v')
      (Proceeds functions env.routine lo old view (.decl tok isMutable name ty v)) := by
  intro s hm hs
  subst hs
  rw [ends_bind]
  refine (mirrors_declare hm).mono fun sym s₁ ⟨hid, hnext, hkind, hm₁⟩ => ?_
  have hdone : Proceeds functions env.routine lo old view (.decl tok isMutable name ty v)
      (.decl tok isMutable { name with sym := some sym } ty v') s₁.next := by
    refine ⟨rfl, fun f h => Stmt.noConfusion h, ?_⟩
    rw [hnext]
    simpa [Stmt.occurrences, Stmt.declarations] using hval.append (.declare (d := name) hid)
  cases v' with
  | none => exact ⟨hm₁, hkind, hdone⟩
  | some e => exact ⟨hm₁, hkind, hdone⟩

section

variable (hv : view.map Ident.plain = old.map Ident.plain)
include hv

/-- A variable comes into view behind its initial value. -/
theorem brings_checkDecl (tok : Token) (isMutable : Bool) (name : Ident) (ty : Option Ty)
    (value : Option Expr) : Brings env functions view lo (checkDecl tok isMutable name ty value)
      (Proceeds functions env.routine lo old view (.decl tok isMutable name ty value)) := by
  refine settles_get.bind_brings ?_
  rintro s _ rfl
  refine Brings.unless (Brings.unless ?_)
  cases value with
  | none =>
    cases ty with
    | none => exact brings_reject
    | some t => exact brings_declareVariable tok isMutable name (some t) none none t Settled.nil
  | some v =>
    refine (Expr.settles_check hv v).bind_brings fun p mid hp => ?_
    refine settles_requireValue.bind_brings ?_
    rintro _ _ rfl
    obtain ⟨v', found⟩ := p
    have hrest (t : Ty) := brings_declareVariable tok isMutable name ty (some v) (some v') t hp
    cases ty with
    | none => exact hrest found
    | some want => exact Brings.unless (hrest want)

theorem brings_checkAssign (tok : Token) (target : Target) (value : Expr) :
    Brings env functions view lo (checkAssign tok target value)
      (Proceeds functions env.routine lo old view (.assign tok target value)) := by
  cases target with
  | name id =>
    refine (settles_checkWritable id true).bind_brings ?_
    rintro sym _ ⟨rfl, hsym⟩
    refine (Expr.settles_check hv value).bind_brings fun p hi hp => ?_
    refine settles_requireValue.bind_brings ?_
    rintro _ _ rfl
    refine Brings.unless ((settles_noteLate _).bind_brings ?_)
    rintro _ _ rfl
    exact brings_pure rfl rfl (fun f h => Stmt.noConfusion h) (hp.cons hv hsym)
  | element m base index =>
    refine (Target.settles_check hv (.element m base index)).bind_brings fun p mid ht => ?_
    refine (Expr.settles_check hv value).bind_brings fun q hi hq => ?_
    refine settles_requireValue.bind_brings ?_
    rintro _ _ rfl
    exact Brings.unless (brings_pure rfl rfl (fun f h => Stmt.noConfusion h) (ht.append hq))

theorem brings_checkCompound (tok : Token) (target : Target) (op : String) (value : Expr) :
    Brings env functions view lo (checkCompound tok target op value)
      (Proceeds functions env.routine lo old view (.compound tok target op value)) := by
  refine (Target.settles_checkInt hv target).bind_brings fun p mid ht => ?_
  refine (Expr.settles_check hv value).bind_brings fun q hi hq => Brings.unless ?_
  exact brings_pure rfl rfl (fun f h => Stmt.noConfusion h) (ht.append hq)

theorem settles_checkCondition (what : String) (e : Expr) :
    Settles env functions view lo (checkCondition what e) fun e' hi =>
      Settled functions env.routine lo hi (e.occurrences old) (e'.occurrences view) e.declarations
        e'.declarations := by
  refine (Expr.settles_check hv e).bind fun p hi hp => ?_
  refine settles_requireType.bind ?_
  rintro _ _ rfl
  exact .pure hp

theorem settles_checkBound (what : String) (e : Expr) :
    Settles env functions view lo (checkBound what e) fun e' hi =>
      Settled functions env.routine lo hi (e.occurrences old) (e'.occurrences view) e.declarations
        e'.declarations := by
  refine (Expr.settles_check hv e).bind fun p hi hp => ?_
  refine settles_requireType.bind ?_
  rintro _ _ rfl
  exact .pure hp

theorem settles_checkHeader (header : Header) :
    Settles env functions view lo header.check fun p hi =>
      Settled functions env.routine lo hi (header.occurrences old) (p.1.occurrences view)
        header.declarations p.1.declarations := by
  cases header with
  | range r =>
    obtain ⟨m, first, last, step⟩ := r
    refine (settles_checkBound hv _ first).bind fun first' mid hf => ?_
    refine (settles_checkBound hv _ last).bind fun last' mid' hl => ?_
    cases step with
    | none => exact .pure ((hf.append hl).append Settled.nil)
    | some e =>
      refine (settles_checkBound hv _ e).bind fun e' hi he => ?_
      cases e' with
      | int m' n => exact Settles.unless fun _ => .pure ((hf.append hl).append he)
      | _ => exact .pure ((hf.append hl).append he)
  | each e =>
    refine (Expr.settles_check hv e).bind fun p hi he => ?_
    obtain ⟨e', t⟩ := p
    dsimp only at he ⊢
    cases t.element? with
    | none => exact settles_reject
    | some s => exact .pure he

theorem brings_checkReturn (tok : Token) (value : Option Expr) :
    Brings env functions view lo (checkReturn tok value)
      (Proceeds functions env.routine lo old view (.ret tok value)) := by
  have hnone : Brings env functions view lo (pure (Stmt.ret tok none))
      (Proceeds functions env.routine lo old view (.ret tok none)) :=
    brings_pure rfl rfl (fun f h => Stmt.noConfusion h) Settled.nil
  refine settles_read.bind_brings ?_
  rintro env' _ ⟨rfl, -⟩
  cases env'.enclosing with
  | none =>
    cases value with
    | none => exact hnone
    | some v => exact brings_reject
  | some f =>
    cases value with
    | none => exact Brings.ite (fun _ => hnone) fun _ => brings_reject
    | some v =>
      refine Brings.unless ((Expr.settles_check hv v).bind_brings fun p hi hp => Brings.unless ?_)
      exact brings_pure rfl rfl (fun f h => Stmt.noConfusion h) hp

end

theorem brings_checkJump {word : String} {tok : Token} {st : Stmt} (h : st.introduces = [])
    (hne : ∀ f, st ≠ .function f)
    (hset : Settled functions env.routine lo lo (st.occurrences old) (st.occurrences view)
      st.declarations st.declarations) :
    Brings env functions view lo (checkJump word tok st)
      (Proceeds functions env.routine lo old view st) := by
  refine settles_read.bind_brings ?_
  rintro _ _ ⟨rfl, -⟩
  exact Brings.unless (brings_pure h h hne hset)

/-- A function may not be declared here. -/
def Nested (env : Env) (kind : ScopeKind) : Prop := env.enclosing.isSome = true ∨ kind ≠ .script

theorem ends_nestedFunction (f : FunDecl) {s : State} (h : Nested env s.scopes.inner.kind)
    {post : FunDecl → State → Prop} : Ends f.check env s (fun _ => True) post := by
  obtain ⟨tok, name, params, result, brace, ss, close⟩ := f
  unfold FunDecl.check
  rw [ends_bind, ends_read]
  cases env.functions.find? name.name with
  | none => trivial
  | some sym =>
    dsimp only
    rw [ends_bind, ends_get, if_pos]
    · trivial
    · simpa [Nested] using h

end Statements

end Typing

section Check

variable {functions : Scope}

mutual

/-- A statement that is no function, or stands where none may be. -/
theorem Stmt.brings_check {env : Env} {old view : List Ident} {s : State}
    (hv : view.map Ident.plain = old.map Ident.plain) (hm : Mirrors functions view s.scopes) :
    (st : Stmt) → (∀ f, st = .function f → Nested env s.scopes.inner.kind) →
    Ends st.check env s (fun _ => True) fun st' s' =>
      Mirrors functions (st'.introduces ++ view) s'.scopes ∧
        s'.scopes.inner.kind = s.scopes.inner.kind ∧
        Proceeds functions env.routine s.next old view st st' s'.next
  | .decl tok isMutable name ty value, _ => brings_checkDecl hv tok isMutable name ty value s hm rfl
  | .assign tok target value, _ => brings_checkAssign hv tok target value s hm rfl
  | .compound tok target op value, _ => brings_checkCompound hv tok target op value s hm rfl
  | .selfOp tok e, _ => by
    refine (Settles.bind_brings (IncDec.settles_check hv e) fun p hi hp => ?_) s hm rfl
    exact brings_pure rfl rfl (fun f h => Stmt.noConfusion h) hp
  | .print tok newline none, _ =>
    brings_pure rfl rfl (fun f h => Stmt.noConfusion h) Settled.nil s hm rfl
  | .print tok newline (some v), _ => by
    refine (Settles.bind_brings (Expr.settles_check hv v) fun p hi hp => Brings.unless ?_) s hm rfl
    exact brings_pure rfl rfl (fun f h => Stmt.noConfusion h) hp
  | .ifElse tok cond a b, _ => by
    refine (Settles.bind_brings (settles_checkCondition hv _ cond) fun cond' mid hc => ?_) s hm rfl
    refine settles_get.bind_brings ?_
    rintro _ _ rfl
    refine (Block.settles_check hv a).bind_brings fun a' mid' ha => ?_
    refine settles_get.bind_brings ?_
    rintro _ _ rfl
    refine (settles_noteLate _).bind_brings ?_
    rintro _ _ rfl
    refine (Block.settles_checkOption hv b).bind_brings fun b' hi hb => ?_
    refine (settles_noteLate _).bind_brings ?_
    rintro _ _ rfl
    exact brings_pure rfl rfl (fun f h => Stmt.noConfusion h) ((hc.append ha).append hb)
  | .whileLoop tok cond body, _ => by
    refine (Settles.bind_brings (settles_checkCondition hv _ cond) fun cond' mid hc => ?_) s hm rfl
    have hbody : Settles env functions view mid (inLoop body.check) fun body' hi =>
        Settled functions env.routine mid hi (body.occurrences old) (body'.occurrences view)
          body.declarations body'.declarations :=
      fun s hm hs => Block.settles_check hv body s hm hs
    refine hbody.bind_brings fun body' hi hb => ?_
    exact brings_pure rfl rfl (fun f h => Stmt.noConfusion h) (hc.append hb)
  | .forLoop tok x header body, _ => by
    refine (Settles.bind_brings (settles_checkHeader hv header) fun p mid hh => ?_) s hm rfl
    obtain ⟨header', t⟩ := p
    refine Settles.brings (settles_inScope fun s₁ hm₁ hs₁ _ => ?_)
    subst hs₁
    simp only [ends_bind, ends_pure]
    refine (mirrors_declare hm₁).mono fun sym s₂ ⟨hid, hnext, _, hm₂⟩ => ?_
    have hv' : ({ x with sym := some sym } :: view).map Ident.plain = (x :: old).map Ident.plain := by
      rw [List.map_cons, List.map_cons, hv]
      rfl
    unfold inLoop
    rw [ends_withReader]
    refine (Block.settles_check hv' body s₂ hm₂ rfl).mono ?_
    rintro body' s₃ ⟨-, hb⟩
    refine ⟨rfl, rfl, fun f h => Stmt.noConfusion h, ?_⟩
    exact hh.append ((Settled.declare (d := x) hid).append (hnext ▸ hb))
  | .function f, hn => by
    unfold Stmt.check
    rw [ends_bind]
    exact ends_nestedFunction f (hn f rfl)
  | .call tok c, _ => by
    refine (Settles.bind_brings (Call.settles_check hv c) fun p hi hp => ?_) s hm rfl
    exact brings_pure rfl rfl (fun f h => Stmt.noConfusion h) hp
  | .ret tok value, _ => brings_checkReturn hv tok value s hm rfl
  | .brk tok, _ => brings_checkJump rfl (fun f h => Stmt.noConfusion h) Settled.nil s hm rfl
  | .cont tok, _ => brings_checkJump rfl (fun f h => Stmt.noConfusion h) Settled.nil s hm rfl
  | .block b, _ => by
    refine (Settles.bind_brings (Block.settles_check hv b) fun b' hi hb => ?_) s hm rfl
    exact brings_pure rfl rfl (fun f h => Stmt.noConfusion h) hb

/-- Statements where no function may be declared. -/
theorem Stmt.settles_checkList {env : Env} : (ss : List Stmt) → {old view : List Ident} →
    (acc : List Stmt) → (s : State) → view.map Ident.plain = old.map Ident.plain → Mirrors functions view s.scopes →
    Nested env s.scopes.inner.kind →
    Ends (Stmt.checkList acc ss) env s (fun _ => True) fun r s' => ∃ ss', r = acc.reverse ++ ss' ∧
      Settled functions env.routine s.next s'.next (Stmt.listOccurrences old ss)
        (Stmt.listOccurrences view ss') (Stmt.listDeclarations ss) (Stmt.listDeclarations ss')
  | [], _, _, acc, s, _, _, _ => ⟨[], by simp, Settled.nil⟩
  | st :: ss, old, view, acc, s, hv, hm, hn => by
    unfold Stmt.checkList
    rw [ends_bind]
    refine (Stmt.brings_check hv hm st fun _ _ => hn).mono fun st' s₁ ⟨hm₁, hkind, hst⟩ => ?_
    have hv₁ : (st'.introduces ++ view).map Ident.plain = (st.introduces ++ old).map Ident.plain := by
      rw [List.map_append, List.map_append, hst.introduces, hv]
    refine (Stmt.settles_checkList ss (st' :: acc) s₁ hv₁ hm₁ (hkind ▸ hn)).mono ?_
    rintro r s₂ ⟨ss', rfl, hss⟩
    exact ⟨st' :: ss', by simp, hst.settled.append hss⟩

theorem Block.settles_check {env : Env} {old view : List Ident} {lo : Nat}
    (hv : view.map Ident.plain = old.map Ident.plain) : (b : Block) →
    Settles env functions view lo b.check fun b' hi =>
      Settled functions env.routine lo hi (b.occurrences old) (b'.occurrences view) b.declarations
        b'.declarations
  | .mk tok ss close => by
    refine Settles.bind (settles_inScope fun s hm hs hk => ?_) fun ss' hi hss => .pure hss
    subst hs
    refine (Stmt.settles_checkList ss [] s hv hm (.inr (by rw [hk]; decide))).mono ?_
    rintro r s' ⟨ss', rfl, hss⟩
    exact hss

theorem Block.settles_checkOption {env : Env} {old view : List Ident} {lo : Nat}
    (hv : view.map Ident.plain = old.map Ident.plain) : (b : Option Block) →
    Settles env functions view lo (Block.checkOption b) fun b' hi =>
      Settled functions env.routine lo hi (Block.optionOccurrences old b)
        (Block.optionOccurrences view b') (Block.optionDeclarations b) (Block.optionDeclarations b')
  | none => .pure Settled.nil
  | some b => (Block.settles_check hv b).bind fun _ _ hb => .pure hb

end

end Check

end Kotlet

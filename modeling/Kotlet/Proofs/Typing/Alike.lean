import Kotlet.Proofs.Typing.Stmt

/-!
# Checking does not look at what was assigned

Which variables may have been assigned decides whether a program is accepted, and nothing else: where
the checker goes on, what it returns is the same.

* `Typing.Akin` : two states that differ at most in the variables declared without a value;
* `Typing.Alike` : steps that end alike from such states, unless one of them fails;
* `Alike.bind` and its kin : steps that are put together;
* `Expr.alike_check`, `Stmt.alike_check` : expressions and statements.
-/

namespace Kotlet

namespace Typing

/-- The states differ at most in the variables declared without a value. -/
structure Akin (s t : State) : Prop where
  scopes : s.scopes = t.scopes
  next : s.next = t.next
  captures : s.captures = t.captures

theorem Akin.refl (s : State) : Akin s s := ⟨rfl, rfl, rfl⟩

theorem Akin.symm {s t : State} (h : Akin s t) : Akin t s :=
  ⟨h.scopes.symm, h.next.symm, h.captures.symm⟩

theorem Akin.trans {s t u : State} (h : Akin s t) (h' : Akin t u) : Akin s u :=
  ⟨h.scopes.trans h'.scopes, h.next.trans h'.next, h.captures.trans h'.captures⟩

/-- From states that are the same, steps that do not fail end in the same results and the same states. -/
def Alike {α : Type} (x y : Check α) : Prop :=
  ∀ ⦃env s t a b s' t'⦄, Akin s t → x env s = .ok (a, s') → y env t = .ok (b, t') → a = b ∧ Akin s' t'

/-! ## Steps put together -/

theorem ok_of_bind {α β : Type} {x : Check α} {f : α → Check β} {env : Env} {s s'' : State} {b : β}
    (h : (x >>= f) env s = .ok (b, s'')) :
    ∃ a s', x env s = .ok (a, s') ∧ f a env s' = .ok (b, s'') := by
  change (x env s >>= fun p => f p.1 env p.2) = .ok (b, s'') at h
  cases hx : x env s with
  | error e =>
    rw [hx] at h
    cases h
  | ok p =>
    rw [hx] at h
    exact ⟨p.1, p.2, rfl, h⟩

section Alike

variable {α β : Type} {x y : Check α} {f g : α → Check β}

theorem Alike.pure (a : α) : Alike (pure a) (pure a) := by
  rintro env s t _ _ _ _ h ⟨⟩ ⟨⟩
  exact ⟨rfl, h⟩

theorem Alike.bind (h : Alike x y) (hf : ∀ a, Alike (f a) (g a)) : Alike (x >>= f) (y >>= g) := by
  intro env s t b c s'' t'' hst hx hy
  obtain ⟨a, s', hx, hfx⟩ := ok_of_bind hx
  obtain ⟨a', t', hy, hgy⟩ := ok_of_bind hy
  obtain ⟨rfl, hst'⟩ := h hst hx hy
  exact hf a hst' hfx hgy

/-- Steps that look at the state, which is the same. -/
theorem Alike.get_bind {f g : State → Check β} (h : ∀ s t, Akin s t → Alike (f s) (g t)) :
    Alike (get >>= f) (get >>= g) :=
  fun _ s t _ _ _ _ hst hx hy => h s t hst hst hx hy

theorem alike_read : Alike (read : Check Env) read := by
  rintro env s t _ _ _ _ h ⟨⟩ ⟨⟩
  exact ⟨rfl, h⟩

theorem alike_set {s t : State} (h : Akin s t) : Alike (set s : Check PUnit) (set t) := by
  rintro env _ _ _ _ _ _ - ⟨⟩ ⟨⟩
  exact ⟨rfl, h⟩

theorem alike_modify {f g : State → State} (h : ∀ s t, Akin s t → Akin (f s) (g t)) :
    Alike (modify f : Check PUnit) (modify g) := by
  rintro env s t _ _ _ _ hst ⟨⟩ ⟨⟩
  exact ⟨rfl, h s t hst⟩

theorem alike_withReader (h : Alike x y) (f : Env → Env) : Alike (withReader f x) (withReader f y) :=
  fun _ _ _ _ _ _ _ hst hx hy => h hst hx hy

theorem alike_reject_left (e : TypeError) (t : Token) : Alike (reject e t) y := by
  rintro env s t _ _ _ _ - ⟨⟩

theorem alike_reject_right (e : TypeError) (t : Token) : Alike x (reject e t) := by
  rintro env s t _ _ _ _ - - ⟨⟩

theorem Alike.ite {c : Prop} [Decidable c] {z w : Check α} (h : Alike x y) (h' : Alike z w) :
    Alike (if c then x else z) (if c then y else w) := by
  by_cases hc : c
  · rwa [if_pos hc, if_pos hc]
  · rwa [if_neg hc, if_neg hc]

/-- What is rejected does not end at all, so the conditions may differ. -/
theorem Alike.orReject {c c' : Prop} [Decidable c] [Decidable c'] {e e' : TypeError} {t t' : Token}
    (h : Alike x y) : Alike (if c then reject e t else x) (if c' then reject e' t' else y) := by
  by_cases hc : c
  · rw [if_pos hc]
    exact alike_reject_left e t
  · by_cases hc' : c'
    · rw [if_pos hc']
      exact alike_reject_right e' t'
    · rwa [if_neg hc, if_neg hc']

/-- A check that must be passed to go on. -/
theorem Alike.unless {c : Prop} [Decidable c] {e : TypeError} {t : Token} {f : Unit → Check α}
    (h : Alike (f ()) (f ())) :
    Alike (if c then reject e t >>= f else f ()) (if c then reject e t >>= f else f ()) :=
  Alike.ite ((alike_reject_left e t).bind fun _ => h) h

/-- A change of what was assigned is no change. -/
theorem alike_noteLate {f g : State → List Late} :
    Alike (modify fun s => { s with late := f s } : Check PUnit) (modify fun s => { s with late := g s }) :=
  alike_modify fun _ _ h => ⟨h.scopes, h.next, h.captures⟩

theorem alike_requireValue (e : Expr) (t : Ty) : Alike (requireValue e t) (requireValue e t) :=
  Alike.ite (alike_reject_left _ _) (.pure ())

theorem alike_requireType (what : String) (want : Ty) (e : Expr) (found : Ty) :
    Alike (requireType what want e found) (requireType what want e found) :=
  Alike.ite (.pure ()) (alike_reject_left _ _)

theorem alike_inScope (kind : ScopeKind) (h : Alike x y) : Alike (inScope kind x) (inScope kind y) := by
  refine Alike.get_bind fun s t hst => Alike.bind (alike_modify fun s t hst => ?_) fun _ => ?_
  · exact ⟨congrArg (·.enter kind) hst.scopes, hst.next, hst.captures⟩
  · refine h.bind fun a => Alike.bind (alike_modify fun s' t' hst' => ?_) fun _ => .pure a
    exact ⟨hst.scopes, hst'.next, hst'.captures⟩

theorem alike_declare (name : String) (ty : Ty) (kind : Symbol.Kind) (constant initialized : Bool)
    (site : Site) :
    Alike (declare name ty kind constant initialized site) (declare name ty kind constant initialized site) := by
  refine alike_read.bind fun env => Alike.get_bind fun s t hst => ?_
  have hnext := hst.next
  dsimp only
  rw [← hnext]
  exact Alike.bind (alike_set ⟨by rw [hst.scopes], rfl, hst.captures⟩) fun _ => .pure _

theorem alike_resolve? (name : String) : Alike (resolve? name) (resolve? name) := by
  refine alike_read.bind fun env => Alike.get_bind fun s t hst => ?_
  rw [hst.scopes]
  cases t.scopes.find? name with
  | none => exact .pure none
  | some sym =>
    have hnote : Alike (modify fun s => { s with captures := addCaptures sym (env.depth - sym.depth) s.captures } :
        Check PUnit) (modify fun s => { s with captures := addCaptures sym (env.depth - sym.depth) s.captures }) :=
      alike_modify fun _ _ h => ⟨h.scopes, h.next, by rw [h.captures]⟩
    exact Alike.ite (hnote.bind fun _ => .pure (some sym)) (.pure (some sym))

/-- Whether a variable may be written depends on what was assigned, and what it is does not. -/
theorem alike_checkWritable (id : Ident) (first : Bool) :
    Alike (id.checkWritable first) (id.checkWritable first) := by
  refine (alike_resolve? id.name).bind fun o => ?_
  cases o with
  | none => exact alike_reject_left _ _
  | some sym =>
    refine Alike.get_bind fun s t hst => Alike.orReject (Alike.orReject ?_)
    have hcaptured : Alike (isCaptured sym) (isCaptured sym) := alike_read.bind fun env => .pure _
    refine hcaptured.bind fun captured => Alike.orReject (Alike.orReject ?_)
    exact alike_read.bind fun env => Alike.orReject (.pure sym)

theorem alike_checkRead (id : Ident) : Alike id.checkRead id.checkRead := by
  refine (alike_resolve? id.name).bind fun o => ?_
  cases o with
  | none => exact alike_reject_left _ _
  | some sym => exact .pure _

theorem alike_lambdaParamTypes : ∀ (ps : List Param) (wanted : List (Option Ty)),
    Alike (lambdaParamTypes ps wanted) (lambdaParamTypes ps wanted)
  | [], _ => .pure []
  | p :: ps, wanted => by
    have hrest (ty : Ty) : Alike (do
        if ty = .unit then reject (.unitParameter p.name.name) p.name.tok
        return ty :: (← lambdaParamTypes ps wanted.tail)) (do
        if ty = .unit then reject (.unitParameter p.name.name) p.name.tok
        return ty :: (← lambdaParamTypes ps wanted.tail)) :=
      Alike.unless ((alike_lambdaParamTypes ps wanted.tail).bind fun types => .pure _)
    unfold lambdaParamTypes
    extract_lets rest
    cases p.ty with
    | some t => exact hrest t
    | none =>
      cases wanted.head?.join with
      | none => exact (alike_reject_left _ _).bind fun t => hrest t
      | some t => exact hrest t

theorem alike_declareParams : ∀ (ps : List Param) (types : List Ty),
    Alike (declareParams ps types) (declareParams ps types)
  | [], _ => .pure []
  | _ :: _, [] => .pure []
  | _ :: ps, _ :: ts =>
    (alike_declare _ _ _ _ _ _).bind fun _ => (alike_declareParams ps ts).bind fun _ => .pure _

theorem alike_inLambda (m : Mark) (h : Alike x y) : Alike (inLambda m x) (inLambda m y) := by
  refine Alike.bind (alike_modify fun s t hst => ⟨hst.scopes, hst.next, by rw [hst.captures]⟩) fun _ => ?_
  refine (alike_withReader (alike_inScope .lambda h) _).bind fun a => Alike.get_bind fun s t hst => ?_
  rw [hst.captures]
  exact Alike.bind (alike_set ⟨hst.scopes, hst.next, rfl⟩) fun _ => .pure _

end Alike

end Typing

open Typing

/-! ## Expressions -/

mutual

theorem Expr.alike_check (w : Option Ty) : (e : Expr) → Alike (e.check w) (e.check w)
  | .int m n => .pure _
  | .bool m b => .pure _
  | .str m text splices => (Splice.alike_checkList splices).bind fun _ => .pure _
  | .read t => t.alike_check.bind fun _ => .pure _
  | .arith m op l r =>
    (l.alike_check none).bind fun _ => (r.alike_check none).bind fun _ =>
      Alike.ite (.pure _) (alike_reject_left _ _)
  | .compare m op l r =>
    (l.alike_check none).bind fun _ => (r.alike_check none).bind fun _ =>
      Alike.ite (.pure _) (alike_reject_left _ _)
  | .logic m op l r =>
    (l.alike_check none).bind fun _ => (r.alike_check none).bind fun _ =>
      Alike.ite (.pure _) (alike_reject_left _ _)
  | .not m e => (e.alike_check none).bind fun _ => Alike.ite (.pure _) (alike_reject_left _ _)
  | .incDec e => e.alike_check.bind fun _ => .pure _
  | .collection m kind es => by
    refine (Expr.alike_checkElements _ _ _ es).bind fun p => ?_
    dsimp only
    cases (if wantedElement? kind w = some .any then wantedElement? kind w
        else p.2.or (wantedElement? kind w)) with
    | none => exact (alike_reject_left _ _).bind fun s => .pure _
    | some s => exact .pure _
  | .sized m kind size gen => by
    refine (size.alike_check (some .int)).bind fun p => (alike_requireType _ _ _ _).bind fun _ => ?_
    refine Alike.unless ((gen.alike_check [.int] none).bind fun q => ?_)
    obtain ⟨gen', types, result⟩ := q
    refine Alike.unless ?_
    cases result.elementScalar? with
    | none => exact alike_reject_left _ _
    | some s => exact .pure _
  | .lambda l => (l.alike_check _ _).bind fun _ => .pure _
  | .call c => c.alike_check.bind fun _ => .pure _
  | .range r => alike_reject_left _ _

theorem Expr.alike_checkElements (lexeme : String) (any : Bool) (first : Option Scalar) : (es : List Expr) →
    Alike (Expr.checkElements lexeme any first es) (Expr.checkElements lexeme any first es)
  | [] => .pure _
  | e :: es => by
    refine (e.alike_check none).bind fun p => ?_
    obtain ⟨e', t⟩ := p
    dsimp only
    cases t.elementScalar? with
    | none => exact alike_reject_left _ _
    | some s =>
      have hrest (first : Option Scalar) : Alike (do
          let (es, found) ← Expr.checkElements lexeme any first es
          return (e' :: es, found)) (do
          let (es, found) ← Expr.checkElements lexeme any first es
          return (e' :: es, found)) :=
        (Expr.alike_checkElements lexeme any first es).bind fun _ => .pure _
      cases first with
      | none => exact hrest _
      | some f => exact Alike.unless (hrest _)

theorem Splice.alike_checkList : (ss : List Splice) → Alike (Splice.checkList ss) (Splice.checkList ss)
  | [] => .pure _
  | .mk _ e :: ss =>
    (e.alike_check none).bind fun _ => Alike.unless ((Splice.alike_checkList ss).bind fun _ => .pure _)

theorem Target.alike_check : (t : Target) → Alike t.check t.check
  | .name id => (alike_checkRead id).bind fun _ => .pure _
  | .element m base index => by
    refine (alike_checkRead base).bind fun p => ?_
    obtain ⟨base', bt⟩ := p
    dsimp only
    cases bt.element? with
    | none => exact alike_reject_left _ _
    | some s => exact (index.alike_check _).bind fun _ => (alike_requireType _ _ _ _).bind fun _ => .pure _

theorem Target.alike_checkInt (op : String) : (t : Target) → Alike (t.checkInt op) (t.checkInt op)
  | .name id => (alike_checkWritable id false).bind fun _ => Alike.unless (.pure _)
  | .element m base index => by
    refine (alike_checkRead base).bind fun p => ?_
    obtain ⟨base', bt⟩ := p
    dsimp only
    cases bt.element? with
    | none => exact alike_reject_left _ _
    | some s =>
      refine (index.alike_check _).bind fun _ => (alike_requireType _ _ _ _).bind fun _ => ?_
      exact Alike.unless (.pure _)

theorem IncDec.alike_check : (e : IncDec) → Alike e.check e.check
  | .mk _ op _ t => (t.alike_checkInt op).bind fun _ => .pure _

theorem Lambda.alike_check (params : List Ty) (wanted : Option Ty) : (l : Lambda) →
    Alike (l.check params wanted) (l.check params wanted)
  | .mk m ps body caps => by
    refine (alike_lambdaParamTypes ps _).bind fun types => ?_
    refine (alike_inLambda m ((alike_declareParams ps types).bind fun ps' =>
      (body.alike_check wanted).bind fun _ => .pure _)).bind fun r => ?_
    obtain ⟨⟨ps', body', found⟩, captures⟩ := r
    cases wanted with
    | none => exact .pure _
    | some want => exact Alike.unless (.pure _)

theorem Call.alike_check : (c : Call) → Alike c.check c.check
  | .mk m callee args => by
    refine (alike_resolve? callee.name).bind fun o => ?_
    cases o with
    | none => exact alike_reject_left _ _
    | some sym =>
      dsimp only
      cases sym.ty with
      | fn params result =>
        refine Alike.unless ((Expr.alike_checkArgs _ _ args params).bind fun args' => ?_)
        cases result with
        | none => exact alike_reject_left _ _
        | some t => exact .pure _
      | _ => exact alike_reject_left _ _

theorem Expr.alike_checkArgs (name : String) (number : Nat) : (es : List Expr) → (wants : List Ty) →
    Alike (Expr.checkArgs name number es wants) (Expr.checkArgs name number es wants)
  | [], _ => by
    unfold Expr.checkArgs
    exact .pure _
  | _ :: _, [] => .pure _
  | e :: es, want :: wants => by
    refine (e.alike_check _).bind fun p => (alike_requireValue _ _).bind fun _ => Alike.unless ?_
    exact (Expr.alike_checkArgs name (number + 1) es wants).bind fun _ => .pure _

end

/-! ## Statements -/

namespace Typing

theorem alike_checkDecl (tok : Token) (isMutable : Bool) (name : Ident) (ty : Option Ty)
    (value : Option Expr) : Alike (checkDecl tok isMutable name ty value) (checkDecl tok isMutable name ty value) := by
  have hdeclare (v' : Option Expr) (t : Ty) : Alike (do
        let site := Site.ofToken .varDeclaration tok
        let sym ← declare name.name t .variable (!isMutable) v'.isSome site
        let loops := (← read).loops
        if v'.isNone then
          modify fun s => { s with late := ⟨sym.id, !isMutable, loops, false⟩ :: s.late }
        return Stmt.decl tok isMutable { name with sym := some sym } ty v') (do
        let site := Site.ofToken .varDeclaration tok
        let sym ← declare name.name t .variable (!isMutable) v'.isSome site
        let loops := (← read).loops
        if v'.isNone then
          modify fun s => { s with late := ⟨sym.id, !isMutable, loops, false⟩ :: s.late }
        return Stmt.decl tok isMutable { name with sym := some sym } ty v') := by
    refine (alike_declare _ _ _ _ _ _).bind fun sym => alike_read.bind fun env => ?_
    exact Alike.ite (alike_noteLate.bind fun _ => .pure _) (.pure _)
  refine Alike.get_bind fun s t hst => ?_
  rw [hst.scopes]
  refine Alike.unless (Alike.unless ?_)
  cases value with
  | none =>
    cases ty with
    | none => exact alike_reject_left _ _
    | some t => exact hdeclare none t
  | some v =>
    refine (v.alike_check ty).bind fun p => (alike_requireValue _ _).bind fun _ => ?_
    obtain ⟨v', found⟩ := p
    cases ty with
    | none => exact hdeclare (some v') found
    | some want => exact Alike.unless (hdeclare (some v') want)

theorem alike_checkAssign (tok : Token) (target : Target) (value : Expr) :
    Alike (checkAssign tok target value) (checkAssign tok target value) := by
  cases target with
  | name id =>
    refine (alike_checkWritable id true).bind fun sym => (value.alike_check _).bind fun p => ?_
    exact (alike_requireValue _ _).bind fun _ => Alike.unless (alike_noteLate.bind fun _ => .pure _)
  | element m base index =>
    refine (Target.alike_check (.element m base index)).bind fun p => (value.alike_check _).bind fun q => ?_
    exact (alike_requireValue _ _).bind fun _ => Alike.unless (.pure _)

theorem alike_checkCompound (tok : Token) (target : Target) (op : String) (value : Expr) :
    Alike (checkCompound tok target op value) (checkCompound tok target op value) :=
  (target.alike_checkInt op).bind fun _ => (value.alike_check _).bind fun _ => Alike.unless (.pure _)

theorem alike_checkCondition (what : String) (e : Expr) :
    Alike (checkCondition what e) (checkCondition what e) :=
  (e.alike_check _).bind fun _ => (alike_requireType _ _ _ _).bind fun _ => .pure _

theorem alike_checkBound (what : String) (e : Expr) : Alike (checkBound what e) (checkBound what e) :=
  (e.alike_check _).bind fun _ => (alike_requireType _ _ _ _).bind fun _ => .pure _

theorem alike_checkHeader (header : Header) : Alike header.check header.check := by
  cases header with
  | range r =>
    obtain ⟨m, first, last, step⟩ := r
    refine (alike_checkBound _ first).bind fun first' => (alike_checkBound _ last).bind fun last' => ?_
    cases step with
    | none => exact .pure _
    | some e =>
      refine (alike_checkBound _ e).bind fun e' => ?_
      cases e' with
      | int m' n => exact Alike.unless (.pure _)
      | _ => exact .pure _
  | each e =>
    refine (e.alike_check _).bind fun p => ?_
    obtain ⟨e', t⟩ := p
    dsimp only
    cases t.element? with
    | none => exact alike_reject_left _ _
    | some s => exact .pure _

theorem alike_checkReturn (tok : Token) (value : Option Expr) :
    Alike (checkReturn tok value) (checkReturn tok value) := by
  refine alike_read.bind fun env => ?_
  cases env.enclosing with
  | none =>
    cases value with
    | none => exact .pure _
    | some v => exact alike_reject_left _ _
  | some f =>
    cases value with
    | none => exact Alike.ite (.pure _) (alike_reject_left _ _)
    | some v => exact Alike.unless ((v.alike_check _).bind fun _ => Alike.unless (.pure _))

theorem alike_checkJump (word : String) (tok : Token) (s : Stmt) :
    Alike (checkJump word tok s) (checkJump word tok s) :=
  alike_read.bind fun _ => Alike.unless (.pure _)

/-- The body of a function starts afresh, and the script goes on afterwards as before. -/
theorem alike_inFunction {α : Type} {x y : Check α} (sym : Symbol) (tok : Token) (result : Ty) (h : Alike x y) :
    Alike (inFunction sym tok result x) (inFunction sym tok result y) := by
  refine Alike.get_bind fun s t hst => alike_read.bind fun env => ?_
  refine Alike.bind (alike_set ⟨rfl, rfl, hst.captures⟩) fun _ => ?_
  refine (alike_withReader h _).bind fun a => Alike.bind (alike_modify fun s' t' hst' => ?_) fun _ => .pure a
  exact ⟨hst.scopes, hst.next, hst'.captures⟩

end Typing

/-- The steps on the parameters and the body of a function. -/
def FunDecl.checkBody (sym : Symbol) : FunDecl → Check FunDecl
  | .mk tok name params result (.mk brace ss close) => do
    let params ← declareParams params (params.map fun p => p.ty.getD .unit)
    let ss ← Stmt.checkList [] ss
    if result ≠ .unit && !listAlwaysReturns ss then
      reject (.missingReturn name.name result) close
    return .mk tok { name with sym := some sym } params result (.mk brace ss close)

theorem FunDecl.alike_checkBody_of (sym : Symbol) (tok : Token) (name : Ident) (params : List Param)
    (result : Ty) (brace close : Token) {ss : List Stmt}
    (h : Alike (Stmt.checkList [] ss) (Stmt.checkList [] ss)) :
    Alike (FunDecl.checkBody sym (.mk tok name params result (.mk brace ss close)))
      (FunDecl.checkBody sym (.mk tok name params result (.mk brace ss close))) :=
  (alike_declareParams params _).bind fun _ => h.bind fun _ => Alike.unless (.pure _)

mutual

theorem Stmt.alike_check : (s : Stmt) → Alike s.check s.check
  | .decl tok isMutable name ty value => alike_checkDecl tok isMutable name ty value
  | .assign tok target value => alike_checkAssign tok target value
  | .compound tok target op value => alike_checkCompound tok target op value
  | .selfOp tok e => e.alike_check.bind fun _ => .pure _
  | .print tok newline none => .pure _
  | .print tok newline (some v) => (v.alike_check none).bind fun _ => Alike.unless (.pure _)
  | .ifElse tok cond a b => by
    refine (alike_checkCondition _ cond).bind fun cond' => Alike.get_bind fun _ _ _ => ?_
    refine a.alike_check.bind fun a' => Alike.get_bind fun _ _ _ => alike_noteLate.bind fun _ => ?_
    exact (Block.alike_checkOption b).bind fun b' => alike_noteLate.bind fun _ => .pure _
  | .whileLoop tok cond body =>
    (alike_checkCondition _ cond).bind fun _ => (alike_withReader body.alike_check _).bind fun _ => .pure _
  | .forLoop tok x header body =>
    (alike_checkHeader header).bind fun _ => alike_inScope .block ((alike_declare _ _ _ _ _ _).bind fun _ =>
      (alike_withReader body.alike_check _).bind fun _ => .pure _)
  | .function f => f.alike_check.bind fun _ => .pure _
  | .call tok c => c.alike_check.bind fun _ => .pure _
  | .ret tok value => alike_checkReturn tok value
  | .brk tok => alike_checkJump _ _ _
  | .cont tok => alike_checkJump _ _ _
  | .block b => b.alike_check.bind fun _ => .pure _

theorem Stmt.alike_checkList : (acc ss : List Stmt) → Alike (Stmt.checkList acc ss) (Stmt.checkList acc ss)
  | _, [] => .pure _
  | acc, s :: ss => s.alike_check.bind fun s' => Stmt.alike_checkList (s' :: acc) ss

theorem Block.alike_check : (b : Block) → Alike b.check b.check
  | .mk _ ss _ => (alike_inScope .block (Stmt.alike_checkList [] ss)).bind fun _ => .pure _

theorem Block.alike_checkOption : (b : Option Block) → Alike (Block.checkOption b) (Block.checkOption b)
  | none => .pure _
  | some b => b.alike_check.bind fun _ => .pure _

theorem FunDecl.alike_check : (f : FunDecl) → Alike f.check f.check
  | .mk tok name params result (.mk brace ss close) => by
    refine alike_read.bind fun env => ?_
    cases env.functions.find? name.name with
    | none => exact alike_reject_left _ _
    | some sym =>
      refine Alike.get_bind fun s t hst => ?_
      rw [hst.scopes]
      exact Alike.unless (alike_inFunction sym tok result
        (FunDecl.alike_checkBody_of sym tok name params result brace close (Stmt.alike_checkList [] ss)))

end

theorem FunDecl.alike_checkBody (sym : Symbol) : (f : FunDecl) → Alike (f.checkBody sym) (f.checkBody sym)
  | .mk tok name params result (.mk brace ss close) =>
    FunDecl.alike_checkBody_of sym tok name params result brace close (Stmt.alike_checkList [] ss)

/-- What a function is checked to depends on its body alone, which starts with the captures around it. -/
theorem FunDecl.ok_check {f f' : FunDecl} {env : Env} {s s' : State} (h : f.check env s = .ok (f', s')) :
    ∃ sym s₁, env.functions.find? f.name.name = some sym ∧
      f.checkBody sym (env.inFunction sym f.tok f.result)
        { s with scopes := ⟨⟨.function, []⟩, [env.functions]⟩, next := 1 } = .ok (f', s₁) ∧
      s' = { s₁ with scopes := s.scopes, next := s.next } := by
  obtain ⟨tok, name, params, result, brace, ss, close⟩ := f
  obtain ⟨_, _, ⟨⟩, h⟩ := ok_of_bind h
  dsimp only at h
  cases hfind : env.functions.find? name.name with
  | none =>
    rw [hfind] at h
    cases h
  | some sym =>
    rw [hfind] at h
    obtain ⟨_, _, ⟨⟩, h⟩ := ok_of_bind h
    split at h
    · cases h
    · obtain ⟨_, _, ⟨⟩, h⟩ := ok_of_bind h
      obtain ⟨_, _, ⟨⟩, h⟩ := ok_of_bind h
      obtain ⟨_, _, ⟨⟩, h⟩ := ok_of_bind h
      obtain ⟨a, s₁, hbody, h⟩ := ok_of_bind h
      obtain ⟨_, _, ⟨⟩, h⟩ := ok_of_bind h
      cases h
      exact ⟨sym, s₁, hfind, hbody, rfl⟩

end Kotlet

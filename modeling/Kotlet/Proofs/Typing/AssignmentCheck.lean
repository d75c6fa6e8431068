import Kotlet.Proofs.Typing.Assignment

/-!
# Checked programs keep their constants

* `Typing.Calm` : the checker's steps on expressions: they note no assignment, and leave the scopes
  as they are;
* `Expr.calm_check` : expressions;
* `Typing.Account` : how the account of what was assigned goes on, and when the checker forgets;
* `Typing.Holding` : the variables in scope, beside that account;
* `Stmt.tracks_check` : statements;
* `Program.check_assigns` : whole programs.
-/

namespace Kotlet

namespace Typing

/-! ## Expressions -/

/-- The variables in scope are declared outside of lambdas, and those that can be updated here are
among `V`. -/
def Reach (env : Env) (V : List Symbol) (s : State) : Prop :=
  ∀ sym ∈ s.scopes.symbols, sym.kind = .variable →
    sym.depth = 0 ∧ (env.depth = 0 → sym.constant = false → sym ∈ V)

/-- What checking an expression leaves alone. -/
structure Same (s s' : State) : Prop where
  scopes : s'.scopes = s.scopes
  next : s.next ≤ s'.next
  late : s'.late = s.late

theorem Same.refl (s : State) : Same s s := ⟨rfl, Nat.le_refl _, rfl⟩

theorem Same.trans {a b c : State} (h : Same a b) (h' : Same b c) : Same a c :=
  ⟨h'.scopes.trans h.scopes, Nat.le_trans h.next h'.next, h'.late.trans h.late⟩

/-- Steps on expressions that store to no variables but `V`. -/
def Calm {α : Type} (env : Env) (V : List Symbol) (x : Check α) (P : α → Prop) : Prop :=
  ∀ s, Reach env V s → Ends x env s (fun _ => True) fun a s' => Same s s' ∧ P a

section Calm

variable {α β : Type} {env : Env} {V : List Symbol} {x : Check α} {P : α → Prop} {Q : β → Prop}

theorem Calm.pure {a : α} (h : P a) : Calm env V (pure a) P := fun s _ => ⟨Same.refl s, h⟩

theorem Calm.bind {f : α → Check β} (h : Calm env V x P) (hf : ∀ a, P a → Calm env V (f a) Q) :
    Calm env V (x >>= f) Q := by
  intro s hs
  rw [ends_bind]
  refine (h s hs).mono fun a s' ⟨hsame, ha⟩ => ?_
  refine (hf a ha s' fun sym hsym => hs sym (hsame.scopes ▸ hsym)).mono fun b s'' ⟨hsame', hb⟩ => ?_
  exact ⟨hsame.trans hsame', hb⟩

theorem calm_reject {e : TypeError} {t : Token} : Calm env V (reject e t : Check α) P :=
  fun _ _ => trivial

theorem Calm.ite {c : Prop} [Decidable c] {y : Check α} (hx : c → Calm env V x P)
    (hy : ¬ c → Calm env V y P) : Calm env V (if c then x else y) P := by
  by_cases h : c
  · rw [if_pos h]; exact hx h
  · rw [if_neg h]; exact hy h

/-- A check that must be passed to go on. -/
theorem Calm.unless {c : Prop} [Decidable c] {e : TypeError} {t : Token} {f : Unit → Check α}
    (h : ¬ c → Calm env V (f ()) P) : Calm env V (if c then reject e t >>= f else f ()) P :=
  Calm.ite (fun _ => (calm_reject (P := fun _ => False)).bind fun _ h => h.elim) h

theorem calm_resolve? (name : String) : Calm env V (resolve? name) fun _ => True := by
  intro s _
  unfold resolve?
  rw [ends_bind, ends_read, ends_bind, ends_get]
  cases s.scopes.find? name with
  | none => exact ⟨Same.refl s, trivial⟩
  | some sym =>
    cases hf : sym.isFunction with
    | true =>
      simp only [hf, Bool.not_true, Bool.false_eq_true, if_false, ends_pure]
      exact ⟨Same.refl s, trivial⟩
    | false =>
      simp only [hf, Bool.not_false, if_true, ends_bind, ends_modify, ends_pure]
      exact ⟨⟨rfl, Nat.le_refl _, rfl⟩, trivial⟩

theorem calm_requireValue {e : Expr} {t : Ty} : Calm env V (requireValue e t) fun _ => True :=
  Calm.ite (fun _ => calm_reject) fun _ => .pure trivial

theorem calm_requireType {what : String} {want found : Ty} {e : Expr} :
    Calm env V (requireType what want e found) fun _ => True :=
  Calm.ite (fun _ => .pure trivial) fun _ => calm_reject

theorem calm_checkRead (id : Ident) : Calm env V id.checkRead fun _ => True := by
  refine (calm_resolve? id.name).bind fun o _ => ?_
  cases o with
  | none => exact calm_reject
  | some sym => exact .pure trivial

/-- A variable that may be written is one of the routine, not from outside of a lambda, and a constant
only where it has no value yet. -/
theorem ends_checkWritable (id : Ident) (first : Bool) (s : State) :
    Ends (id.checkWritable first) env s (fun _ => True) fun sym s' =>
      Same s s' ∧ sym ∈ s.scopes.symbols ∧ sym.kind = .variable ∧ sym.depth = env.depth ∧
        (sym.constant = true → first = true ∧ isAssigned s.late sym = false ∧
          env.loops ≤ ((late? s.late sym.id).map Late.loops).getD 0) := by
  unfold Ident.checkWritable resolve?
  simp only [ends_bind, ends_read, ends_get]
  cases hfind : s.scopes.find? id.name with
  | none => trivial
  | some sym =>
    have hmem := Scopes.mem_symbols_of_find? hfind
    cases hf : sym.isFunction with
    | true => simp [hf, reject]
    | false =>
      have hcaptured : ∀ s : State, Ends (isCaptured sym) env s (fun _ => True) fun b s' =>
          s' = s ∧ b = (sym.depth != env.depth) := by
        intro s
        simp [isCaptured, hf]
      simp only [hf, Bool.not_false, if_true, ends_bind, ends_modify, ends_pure, ends_get,
        Bool.false_eq_true, if_false]
      rw [ends_ite]
      refine ⟨fun _ => trivial, fun hk => ?_⟩
      rw [ends_bind]
      refine (hcaptured _).mono ?_
      rintro b _ ⟨rfl, rfl⟩
      rw [ends_ite]
      refine ⟨fun _ => trivial, fun hdepth => ?_⟩
      rw [ends_ite]
      refine ⟨fun _ => trivial, fun hfirst => ?_⟩
      rw [ends_bind, ends_read, ends_ite]
      refine ⟨fun _ => trivial, fun hloops => ?_⟩
      refine ⟨⟨rfl, Nat.le_refl _, rfl⟩, hmem, ?_, by simpa using hdepth, fun hc => ?_⟩
      · rcases hkind : sym.kind with _ | _ | _
        · rfl
        · exact absurd hkind hk
        · simp [Symbol.isFunction, hkind] at hf
      · simp only [hc, Bool.true_and, Bool.or_eq_true, not_or, Bool.not_eq_true,
          decide_eq_true_eq, Nat.not_lt] at hfirst hloops
        exact ⟨by simpa using hfirst.2, hfirst.1, hloops⟩

/-- No constant is updated, and no variable from outside of a lambda. -/
theorem calm_checkWritable (id : Ident) : Calm env V (id.checkWritable false) fun sym => sym ∈ V := by
  intro s hs
  refine (ends_checkWritable id false s).mono fun sym s' h => ?_
  obtain ⟨hsame, hmem, hk, hdepth, hconst⟩ := h
  obtain ⟨hzero, hin⟩ := hs sym hmem hk
  refine ⟨hsame, hin (hdepth.symm.trans hzero) ?_⟩
  cases hc : sym.constant with
  | false => rfl
  | true => exact absurd (hconst hc).1 Bool.false_ne_true

theorem calm_lambdaParamTypes : ∀ (ps : List Param) (wanted : List (Option Ty)),
    Calm env V (lambdaParamTypes ps wanted) fun _ => True
  | [], _ => .pure trivial
  | p :: ps, wanted => by
    have hrest (ty : Ty) : Calm env V (do
        if ty = .unit then reject (.unitParameter p.name.name) p.name.tok
        return ty :: (← lambdaParamTypes ps wanted.tail)) fun _ => True :=
      Calm.unless fun _ => (calm_lambdaParamTypes ps wanted.tail).bind fun _ _ => .pure trivial
    unfold lambdaParamTypes
    extract_lets rest
    cases p.ty with
    | some t => exact hrest t
    | none =>
      cases wanted.head?.join with
      | none => exact (calm_reject (P := fun _ => False)).bind fun _ h => h.elim
      | some t => exact hrest t

/-- Parameters are no variables that can be updated. -/
theorem ends_declareParams_parameter : ∀ (ps : List Param) (types : List Ty) (s : State),
    Ends (declareParams ps types) env s (fun _ => True) fun _ s' =>
      s.next ≤ s'.next ∧ s'.late = s.late ∧
        ∀ sym ∈ s'.scopes.symbols, sym.kind = .variable → sym ∈ s.scopes.symbols
  | [], _, s => by
    unfold declareParams
    exact ⟨Nat.le_refl _, rfl, fun _ h _ => h⟩
  | _ :: _, [], s => ⟨Nat.le_refl _, rfl, fun _ h _ => h⟩
  | p :: ps, t :: ts, s => by
    unfold declareParams declare
    simp only [ends_bind, ends_read, ends_get, ends_set, ends_pure]
    refine (ends_declareParams_parameter ps ts _).mono fun _ s' h => ?_
    obtain ⟨hnext, hlate, hmem⟩ := h
    refine ⟨Nat.le_of_succ_le hnext, hlate, fun sym hsym hk => ?_⟩
    have hin := hmem sym hsym hk
    rw [Scopes.symbols_define] at hin
    rcases List.mem_cons.mp hin with rfl | hin
    · cases hk
    · exact hin

/-- Inside a lambda no variable can be updated. -/
theorem calm_inLambda {m : Mark} {ps : List Param} {types : List Ty} {body : Check (Expr × Ty)}
    (hbody : Calm (env.inside m) [] body fun p => p.1.Steady []) :
    Calm env V
      (inLambda m do
        let ps ← declareParams ps types
        let (body, found) ← body
        return (ps, body, found))
      fun p => p.1.2.1.Steady [] := by
  intro s hs
  unfold inLambda inScope
  simp only [ends_bind, ends_modify, ends_withReader, ends_get, ends_set, ends_pure]
  refine (ends_declareParams_parameter ps types _).mono fun ps' s₁ h => ?_
  obtain ⟨hnext, hlate, hmem⟩ := h
  have hreach : Reach (env.inside m) [] s₁ := by
    intro sym hsym hk
    have hin := hmem sym hsym hk
    rw [Scopes.symbols_enter] at hin
    exact ⟨(hs sym hin hk).1, fun hd => absurd hd (Nat.succ_ne_zero _)⟩
  refine (hbody s₁ hreach).mono ?_
  rintro ⟨body', found⟩ s₂ ⟨hsame, hsteady⟩
  exact ⟨⟨rfl, Nat.le_trans hnext hsame.next, hsame.late.trans hlate⟩, hsteady⟩

end Calm

end Typing

open Typing

section Check

mutual

theorem Expr.calm_check {env : Env} {V : List Symbol} {w : Option Ty} : (e : Expr) →
    Calm env V (e.check w) fun p => p.1.Steady V
  | .int m n => .pure trivial
  | .bool m b => .pure trivial
  | .str m text splices => (Splice.calm_checkList splices).bind fun _ hss => .pure hss
  | .read t => (Target.calm_check t).bind fun _ ht => .pure ht.1
  | .arith m op l r => by
    refine (Expr.calm_check l).bind fun p hl => (Expr.calm_check r).bind fun q hr => ?_
    exact Calm.ite (fun _ => .pure ⟨hl, hr⟩) fun _ => calm_reject
  | .compare m op l r => by
    refine (Expr.calm_check l).bind fun p hl => (Expr.calm_check r).bind fun q hr => ?_
    exact Calm.ite (fun _ => .pure ⟨hl, hr⟩) fun _ => calm_reject
  | .logic m op l r => by
    refine (Expr.calm_check l).bind fun p hl => (Expr.calm_check r).bind fun q hr => ?_
    exact Calm.ite (fun _ => .pure ⟨hl, hr⟩) fun _ => calm_reject
  | .not m e =>
    (Expr.calm_check e).bind fun _ he => Calm.ite (fun _ => .pure he) fun _ => calm_reject
  | .incDec e => (IncDec.calm_check e).bind fun _ he => .pure he
  | .collection m kind es => by
    refine (Expr.calm_checkElements es).bind fun p hes => ?_
    obtain ⟨es', found⟩ := p
    dsimp only
    cases (if wantedElement? kind w = some .any then wantedElement? kind w
        else found.or (wantedElement? kind w)) with
    | none => exact (calm_reject (P := fun _ => False)).bind fun _ h => h.elim
    | some s => exact .pure hes
  | .sized m kind size gen => by
    refine (Expr.calm_check size).bind fun p hsize => calm_requireType.bind fun _ _ => ?_
    refine Calm.unless fun _ => (Lambda.calm_check gen).bind fun q hgen => ?_
    obtain ⟨gen', types, result⟩ := q
    dsimp only at hgen ⊢
    refine Calm.unless fun _ => ?_
    cases result.elementScalar? with
    | none => exact calm_reject
    | some s => exact .pure ⟨hsize, hgen⟩
  | .lambda l => (Lambda.calm_check l).bind fun _ hl => .pure hl
  | .call c => (Call.calm_check c).bind fun _ hc => .pure hc
  | .range r => calm_reject

theorem Expr.calm_checkElements {env : Env} {V : List Symbol} {lexeme : String} {any : Bool} :
    {first : Option Scalar} → (es : List Expr) →
    Calm env V (Expr.checkElements lexeme any first es) fun p => Expr.AllSteady V p.1
  | _, [] => .pure trivial
  | first, e :: es => by
    refine (Expr.calm_check e).bind fun p he => ?_
    obtain ⟨e', t⟩ := p
    dsimp only at he ⊢
    cases t.elementScalar? with
    | none => exact calm_reject
    | some s =>
      have hrest (first : Option Scalar) : Calm env V (do
          let (es, found) ← Expr.checkElements lexeme any first es
          return (e' :: es, found)) fun p => Expr.AllSteady V p.1 :=
        (Expr.calm_checkElements es).bind fun q hes => .pure ⟨he, hes⟩
      cases first with
      | none => exact hrest _
      | some f => exact Calm.unless fun _ => hrest _

theorem Splice.calm_checkList {env : Env} {V : List Symbol} : (ss : List Splice) →
    Calm env V (Splice.checkList ss) fun ss' => Splice.Steady V ss'
  | [] => .pure trivial
  | .mk offset e :: ss => by
    refine (Expr.calm_check e).bind fun p he => Calm.unless fun _ => ?_
    exact (Splice.calm_checkList ss).bind fun ss' hss => .pure ⟨he, hss⟩

theorem Target.calm_check {env : Env} {V : List Symbol} : (t : Target) →
    Calm env V t.check fun p => p.1.Steady V ∧ ((∀ id, t ≠ .name id) → ∀ id, p.1 ≠ .name id)
  | .name id =>
    (calm_checkRead id).bind fun _ _ => .pure ⟨trivial, fun h => absurd rfl (h id)⟩
  | .element m base index => by
    refine (calm_checkRead base).bind fun p _ => ?_
    obtain ⟨base', bt⟩ := p
    dsimp only
    cases bt.element? with
    | none => exact calm_reject
    | some s =>
      refine (Expr.calm_check index).bind fun q hi => calm_requireType.bind fun _ _ => ?_
      exact .pure ⟨hi, fun _ _ h => by cases h⟩

theorem Target.calm_checkInt {env : Env} {V : List Symbol} {op : String} : (t : Target) →
    Calm env V (t.checkInt op) fun p => p.1.Varies V
  | .name id =>
    (calm_checkWritable id).bind fun sym hsym => Calm.unless fun _ => .pure ⟨sym, hsym, rfl⟩
  | .element m base index => by
    refine (calm_checkRead base).bind fun p _ => ?_
    obtain ⟨base', bt⟩ := p
    dsimp only
    cases bt.element? with
    | none => exact calm_reject
    | some s =>
      refine (Expr.calm_check index).bind fun q hi => calm_requireType.bind fun _ _ => ?_
      exact Calm.unless fun _ => .pure hi

theorem IncDec.calm_check {env : Env} {V : List Symbol} : (e : IncDec) →
    Calm env V e.check fun p => p.1.Steady V
  | .mk _ _ _ t => (Target.calm_checkInt t).bind fun _ ht => .pure ht

theorem Lambda.calm_check {env : Env} {V : List Symbol} {params : List Ty} {wanted : Option Ty} :
    (l : Lambda) → Calm env V (l.check params wanted) fun p => p.1.Steady
  | .mk m ps body caps => by
    refine (calm_lambdaParamTypes ps _).bind fun types _ => ?_
    refine (calm_inLambda (Expr.calm_check body)).bind fun p hbody => ?_
    obtain ⟨⟨ps', body', found⟩, caps'⟩ := p
    dsimp only at hbody ⊢
    cases wanted with
    | none => exact .pure hbody
    | some want => exact Calm.unless fun _ => .pure hbody

theorem Call.calm_check {env : Env} {V : List Symbol} : (c : Call) →
    Calm env V c.check fun p => p.1.Steady V
  | .mk m callee args => by
    refine (calm_resolve? callee.name).bind fun o _ => ?_
    cases o with
    | none => exact calm_reject
    | some sym =>
      dsimp only
      cases sym.ty with
      | fn params result =>
        refine Calm.unless fun _ => (Expr.calm_checkArgs args params).bind fun args' hargs => ?_
        cases result with
        | none => exact calm_reject
        | some t => exact .pure hargs
      | _ => exact calm_reject

theorem Expr.calm_checkArgs {env : Env} {V : List Symbol} {name : String} : {number : Nat} →
    (es : List Expr) → (wants : List Ty) →
    Calm env V (Expr.checkArgs name number es wants) fun es' => Expr.AllSteady V es'
  | _, [], _ => by
    unfold Expr.checkArgs
    exact .pure trivial
  | _, _ :: _, [] => .pure trivial
  | _, e :: es, want :: wants => by
    refine (Expr.calm_check e).bind fun p he => calm_requireValue.bind fun _ _ => ?_
    refine Calm.unless fun _ => (Expr.calm_checkArgs es wants).bind fun es' hes => ?_
    exact .pure ⟨he, hes⟩

end

end Check

/-! ## Accounts of assignments -/

namespace Typing

theorem late?_cons (l : Late) (entries : List Late) (id : SymbolId) :
    late? (l :: entries) id = if l.id = id then some l else late? entries id := by
  unfold late?
  rw [List.find?_cons]
  by_cases h : l.id = id
  · simp [h]
  · rw [if_neg h, beq_eq_false_iff_ne.mpr h]

theorem id_of_late? {entries : List Late} {id : SymbolId} {l : Late}
    (h : late? entries id = some l) : l.id = id := by
  simpa using List.find?_some h

theorem late?_map {f : Late → Late} (hf : ∀ l, (f l).id = l.id) (entries : List Late)
    (id : SymbolId) : late? (entries.map f) id = (late? entries id).map f := by
  induction entries with
  | nil => rfl
  | cons l entries ih =>
    rw [List.map_cons, late?_cons, late?_cons, hf, ih]
    split <;> rfl

theorem late?_noteAssigned (entries : List Late) (id x : SymbolId) :
    late? (noteAssigned entries id) x =
      (late? entries x).map fun l => if l.id = id then { l with assigned := true } else l := by
  refine late?_map (fun l => ?_) entries x
  split <;> rfl

/-- What `rewind` makes of an entry. -/
theorem late?_rewind {before entries : List Late} {id : SymbolId} {l l₁ : Late}
    (hl : late? before id = some l) (hl₁ : late? entries id = some l₁) :
    late? (rewind before entries) id = some (if l₁.constant then l else l₁) := by
  unfold rewind
  rw [late?_map, hl₁, Option.map_some, id_of_late? hl₁, hl]
  intro x
  cases hx : late? before x.id with
  | none => rfl
  | some o =>
    dsimp only
    split
    · exact id_of_late? hx
    · rfl

/-- What `merge` makes of an entry. -/
theorem late?_merge {thenFlows elseFlows : Bool} {afterThen entries : List Late} {id : SymbolId}
    {l : Late} (hl : late? entries id = some l) (hc : l.constant = true) :
    late? (merge thenFlows elseFlows afterThen entries) id = some { l with
      assigned := (thenFlows && (late? afterThen id).any Late.assigned)
        || (elseFlows && l.assigned) } := by
  unfold merge
  rw [late?_map, hl, Option.map_some, if_pos hc, id_of_late? hl]
  intro x
  split <;> rfl

/-- The symbols that are not declared by what is checked next: those of the routine so far, and
those of the script while a function is checked. -/
def Old (routine next : Nat) (id : SymbolId) : Prop :=
  (id.routine = routine ∧ id.index < next) ∨ (routine ≠ 0 ∧ id.routine = 0)

theorem Old.mono {routine n n' : Nat} {id : SymbolId} (h : Old routine n id) (hn : n ≤ n') :
    Old routine n' id := h.imp_left fun h => ⟨h.1, Nat.lt_of_lt_of_le h.2 hn⟩

theorem Old.ne {routine n : Nat} {id : SymbolId} (h : Old routine n id) : ⟨routine, n⟩ ≠ id := by
  rintro rfl
  rcases h with h | h
  · exact Nat.lt_irrefl _ h.2
  · exact h.1 h.2

/-- Two accounts, the second one later. What is known of an old symbol stays, and unless the checker
forgets it, so does that a constant may have been assigned. -/
structure Account (old : SymbolId → Prop) (forgets : Prop) (entries entries' : List Late) : Prop where
  kept : ∀ id, old id → ∀ l, late? entries id = some l → ∃ l', late? entries' id = some l' ∧
    l'.constant = l.constant ∧ l'.loops = l.loops
  noted : ¬ forgets → ∀ id, old id → ∀ l, late? entries id = some l → l.constant = true →
    l.assigned = true → ∃ l', late? entries' id = some l' ∧ l'.assigned = true

namespace Account

variable {old old' : SymbolId → Prop} {p q : Prop} {a b c : List Late}

theorem refl (a : List Late) : Account old p a a :=
  ⟨fun _ _ l h => ⟨l, h, rfl, rfl⟩, fun _ _ _ l h _ ha => ⟨l, h, ha⟩⟩

theorem trans (h : Account old p a b) (h' : Account old' q b c) (ho : ∀ id, old id → old' id) :
    Account old (p ∨ q) a c where
  kept id hid l hl := by
    obtain ⟨l₁, hl₁, hc₁, hp₁⟩ := h.kept id hid l hl
    obtain ⟨l₂, hl₂, hc₂, hp₂⟩ := h'.kept id (ho id hid) l₁ hl₁
    exact ⟨l₂, hl₂, hc₂.trans hc₁, hp₂.trans hp₁⟩
  noted hn id hid l hl hc ha := by
    obtain ⟨l₁, hl₁, hc₁, -⟩ := h.kept id hid l hl
    obtain ⟨l₁', hl₁', ha₁⟩ := h.noted (fun hp => hn (.inl hp)) id hid l hl hc ha
    obtain rfl : l₁ = l₁' := Option.some.inj (hl₁.symm.trans hl₁')
    exact h'.noted (fun hq => hn (.inr hq)) id (ho id hid) l₁ hl₁ (hc₁.trans hc) ha₁

theorem mono (h : Account old' p a b) (ho : ∀ id, old id → old' id) (hp : p → q) :
    Account old q a b :=
  ⟨fun id hid => h.kept id (ho id hid), fun hn id hid => h.noted (fun h => hn (hp h)) id (ho id hid)⟩

/-- An assignment is noted. -/
theorem noteAssigned (entries : List Late) (id : SymbolId) :
    Account old p entries (noteAssigned entries id) := by
  refine ⟨fun x _ l hl => ?_, fun _ x _ l hl _ ha => ?_⟩
  · rw [late?_noteAssigned, hl]
    refine ⟨_, rfl, ?_⟩
    dsimp only
    split <;> exact ⟨rfl, rfl⟩
  · rw [late?_noteAssigned, hl]
    refine ⟨_, rfl, ?_⟩
    dsimp only
    split
    · rfl
    · exact ha

/-- A declaration without a value is added. -/
theorem cons (l : Late) (h : ∀ id, old id → l.id ≠ id) : Account old p a (l :: a) := by
  refine ⟨fun id hid l' hl => ⟨l', ?_, rfl, rfl⟩, fun _ id hid l' hl _ ha => ⟨l', ?_, ha⟩⟩ <;>
  · rw [late?_cons, if_neg (h id hid)]
    exact hl

/-- Before the other branch of an `if`, all is known again that was before the first one. -/
theorem rewind (h : Account old p a b) : Account old False a (rewind a b) where
  kept id hid l hl := by
    obtain ⟨l₁, hl₁, hc, hp⟩ := h.kept id hid l hl
    refine ⟨_, late?_rewind hl hl₁, ?_⟩
    split
    · exact ⟨rfl, rfl⟩
    · exact ⟨hc, hp⟩
  noted _ id hid l hl hconst ha := by
    obtain ⟨l₁, hl₁, hc, hp⟩ := h.kept id hid l hl
    refine ⟨_, late?_rewind hl hl₁, ?_⟩
    rw [if_pos (hc.trans hconst)]
    exact ha

/-- After an `if` no assignment is forgotten, unless both branches leave what is around them. -/
theorem merge {thenFlows elseFlows : Bool} (h : Account old p a b) (h' : Account old q a c) :
    Account old ((thenFlows = false ∧ elseFlows = false) ∨ p ∨ q) a
      (merge thenFlows elseFlows b c) where
  kept id hid l hl := by
    obtain ⟨l₂, hl₂, hc, hp⟩ := h'.kept id hid l hl
    cases hconst : l₂.constant with
    | true => exact ⟨_, late?_merge hl₂ hconst, hc, hp⟩
    | false =>
      refine ⟨l₂, ?_, hc, hp⟩
      unfold Typing.merge
      rw [late?_map, hl₂, Option.map_some, if_neg (by simp [hconst])]
      intro x
      split <;> rfl
  noted hn id hid l hl hconst ha := by
    obtain ⟨l₁, hl₁, ha₁⟩ := h.noted (fun hp => hn (.inr (.inl hp))) id hid l hl hconst ha
    obtain ⟨l₂, hl₂, hc, -⟩ := h'.kept id hid l hl
    obtain ⟨l₂', hl₂', ha₂⟩ := h'.noted (fun hq => hn (.inr (.inr hq))) id hid l hl hconst ha
    obtain rfl : l₂ = l₂' := Option.some.inj (hl₂.symm.trans hl₂')
    refine ⟨_, late?_merge hl₂ (hc.trans hconst), ?_⟩
    rw [hl₁, ha₂]
    cases thenFlows with
    | true => simp [ha₁]
    | false =>
      cases elseFlows with
      | true => simp
      | false => exact absurd (.inl ⟨rfl, rfl⟩) hn

end Account

/-- A constant may have been assigned, where this matters. -/
def Given (once : Bool) (entries : List Late) (id : SymbolId) : Prop :=
  once = true ∧ (late? entries id).any Late.assigned = true

/-- The variables in scope that can be stored to are among `Γ`, and the constants that can be assigned
here among `D`. -/
structure Holding (env : Env) (once : Bool) (Γ : List Symbol) (D : List SymbolId) (s : State) :
    Prop where
  reach : Reach env (mutables Γ) s
  constants : ∀ sym ∈ s.scopes.symbols, sym.kind = .variable → sym.constant = true →
    sym.initialized = false → sym ∈ Γ ∧ ∃ l, late? s.late sym.id = some l ∧ l.loops ≤ env.loops ∧
      ((once = true ∧ l.loops < env.loops) ∨ sym.id ∈ D)
  old : ∀ sym ∈ Γ, sym.id.routine = env.routine ∧ sym.id.index < s.next
  entries : ∀ id ∈ D, (∃ sym ∈ Γ, sym.id = id) ∧ ∃ l, late? s.late id = some l ∧ l.constant = true

/-- What comes later knows what came before. -/
theorem Holding.later {env : Env} {once : Bool} {Γ : List Symbol} {D : List SymbolId} {s s' : State}
    {p : Prop} (h : Holding env once Γ D s) (hscopes : s'.scopes = s.scopes) (hnext : s.next ≤ s'.next)
    (hacc : Account (Old env.routine s.next) p s.late s'.late) : Holding env once Γ D s' where
  reach sym hsym := h.reach sym (hscopes ▸ hsym)
  constants sym hsym hk hc hi := by
    obtain ⟨hin, l, hl, hloops, hd⟩ := h.constants sym (hscopes ▸ hsym) hk hc hi
    obtain ⟨l', hl', -, hl'loops⟩ := hacc.kept sym.id (.inl (h.old sym hin)) l hl
    exact ⟨hin, l', hl', hl'loops ▸ hloops, hl'loops ▸ hd⟩
  old sym hsym := ⟨(h.old sym hsym).1, Nat.lt_of_lt_of_le (h.old sym hsym).2 hnext⟩
  entries id hid := by
    obtain ⟨⟨sym, hsym, rfl⟩, l, hl, hc⟩ := h.entries id hid
    obtain ⟨l', hl', hc', -⟩ := hacc.kept sym.id (.inl (h.old sym hsym)) l hl
    exact ⟨⟨sym, hsym, rfl⟩, l', hl', hc'.trans hc⟩

theorem Holding.oldId {env : Env} {once : Bool} {Γ : List Symbol} {D : List SymbolId} {s : State}
    (h : Holding env once Γ D s) {id : SymbolId} (hid : id ∈ D) : Old env.routine s.next id := by
  obtain ⟨⟨sym, hsym, rfl⟩, -⟩ := h.entries id hid
  exact .inl (h.old sym hsym)

/-- Constants that may have been assigned before may have been later on. -/
theorem Holding.given {env : Env} {once : Bool} {Γ : List Symbol} {D : List SymbolId} {s : State}
    {p : Prop} {late : List Late} (h : Holding env once Γ D s)
    (hacc : Account (Old env.routine s.next) p s.late late) (hp : once = true → ¬ p) :
    Later D (Given once s.late) (Given once late) := by
  rintro id hid ⟨ho, hassigned⟩
  obtain ⟨-, l, hl, hc⟩ := h.entries id hid
  rw [hl] at hassigned
  obtain ⟨l', hl', ha'⟩ := hacc.noted (hp ho) id (h.oldId hid) l hl hc hassigned
  exact ⟨ho, by rw [hl']; exact ha'⟩

/-! ## Statements -/

/-- What checking a part of a routine comes to, run from `s` to `s'`. -/
structure Follows (env : Env) (once : Bool) (s s' : State) (forgets restarts : Prop)
    (assigns : (SymbolId → Prop) → (SymbolId → Prop) → Prop) : Prop where
  next : s.next ≤ s'.next
  account : Account (Old env.routine s.next) forgets s.late s'.late
  assigns : (once = true → ¬ restarts) → assigns (Given once s.late) (Given once s'.late)

/-- Steps that check a statement. -/
def Tracks (env : Env) (once : Bool) (Γ : List Symbol) (D : List SymbolId) (x : Check Stmt) : Prop :=
  ∀ s, Holding env once Γ D s → Ends x env s (fun _ => True) fun st s' =>
    Follows env once s s' st.DeadEnd st.Restarts (st.Assigns once Γ D) ∧
      Holding env once (st.declares Γ) (st.leaves D) s'

/-- Steps that check statements in braces. -/
def Closes {α : Type} (env : Env) (once : Bool) (Γ : List Symbol) (D : List SymbolId) (x : Check α)
    (forgets restarts : α → Prop)
    (assigns : α → (SymbolId → Prop) → (SymbolId → Prop) → Prop) : Prop :=
  ∀ s, Holding env once Γ D s → Ends x env s (fun _ => True) fun a s' =>
    Follows env once s s' (forgets a) (restarts a) (assigns a) ∧ s'.scopes = s.scopes

section Tracks

variable {α : Type} {env : Env} {once : Bool} {Γ : List Symbol} {D : List SymbolId} {x : Check α}
  {P : α → Prop}

theorem Holding.same {s s' : State} (h : Holding env once Γ D s) (hs : Same s s') :
    Holding env once Γ D s' :=
  h.later (p := False) hs.scopes hs.next (hs.late ▸ Account.refl _)

/-- First an expression, then the rest of the statement. -/
theorem Calm.bind_tracks {f : α → Check Stmt} (h : Calm env (mutables Γ) x P)
    (hf : ∀ a, P a → Tracks env once Γ D (f a)) : Tracks env once Γ D (x >>= f) := by
  intro s hs
  rw [ends_bind]
  refine (h s hs.reach).mono fun a s₁ ⟨hsame, ha⟩ => ?_
  refine (hf a ha s₁ (hs.same hsame)).mono fun st s₂ ⟨hfol, hhold⟩ => ?_
  refine ⟨⟨Nat.le_trans hsame.next hfol.next, ?_, ?_⟩, hhold⟩
  · exact hsame.late ▸ hfol.account.mono (fun id hid => hid.mono hsame.next) id
  · exact hsame.late ▸ hfol.assigns

theorem tracks_reject {e : TypeError} {t : Token} : Tracks env once Γ D (reject e t) :=
  fun _ _ => trivial

theorem Tracks.ite {c : Prop} [Decidable c] {x y : Check Stmt} (hx : c → Tracks env once Γ D x)
    (hy : ¬ c → Tracks env once Γ D y) : Tracks env once Γ D (if c then x else y) := by
  by_cases h : c
  · rw [if_pos h]; exact hx h
  · rw [if_neg h]; exact hy h

theorem Tracks.unless {c : Prop} [Decidable c] {e : TypeError} {t : Token} {f : Unit → Check Stmt}
    (h : ¬ c → Tracks env once Γ D (f ())) :
    Tracks env once Γ D (if c then reject e t >>= f else f ()) :=
  Tracks.ite (fun _ => (calm_reject (P := fun _ => False)).bind_tracks fun _ h => h.elim) h

/-- A statement that holds expressions only. -/
theorem tracks_pure {st : Stmt} (hd : st.declares Γ = Γ) (hl : st.leaves D = D)
    (h : ∀ A, st.Assigns once Γ D A A) : Tracks env once Γ D (pure st) := by
  intro s hs
  exact ⟨⟨Nat.le_refl _, Account.refl _, fun _ => h _⟩, by rw [hd, hl]; exact hs⟩

theorem calm_get : Calm env (mutables Γ) (get : Check State) fun _ => True :=
  fun s _ => ⟨Same.refl s, trivial⟩

theorem calm_read : Calm env (mutables Γ) (read : Check Env) fun a => a = env :=
  fun s _ => ⟨Same.refl s, rfl⟩

theorem calm_checkCondition (what : String) (e : Expr) :
    Calm env (mutables Γ) (checkCondition what e) fun e' => e'.Steady (mutables Γ) :=
  (Expr.calm_check e).bind fun _ he => calm_requireType.bind fun _ _ => .pure he

theorem calm_checkBound (what : String) (e : Expr) :
    Calm env (mutables Γ) (checkBound what e) fun e' => e'.Steady (mutables Γ) :=
  (Expr.calm_check e).bind fun _ he => calm_requireType.bind fun _ _ => .pure he

theorem calm_checkHeader (header : Header) :
    Calm env (mutables Γ) header.check fun p => p.1.Steady (mutables Γ) := by
  cases header with
  | range rg =>
    obtain ⟨m, first, last, step⟩ := rg
    refine (calm_checkBound _ first).bind fun first' hf => ?_
    refine (calm_checkBound _ last).bind fun last' hl => ?_
    cases step with
    | none => exact .pure ⟨hf, hl, fun _ h => by cases h⟩
    | some e =>
      refine (calm_checkBound _ e).bind fun e' he => ?_
      have hdone : Calm env (mutables Γ)
          (pure (Header.range (.mk { m with ty := some .int } first' last' (some e')), Ty.int) :
            Check (Header × Ty)) fun p => p.1.Steady (mutables Γ) :=
        .pure ⟨hf, hl, fun _ h => Option.some.inj h ▸ he⟩
      cases e' with
      | int m' n => exact Calm.unless fun _ => hdone
      | _ => exact hdone
  | each e =>
    refine (Expr.calm_check e).bind fun p he => ?_
    obtain ⟨e', t⟩ := p
    dsimp only at he ⊢
    cases t.element? with
    | none => exact calm_reject
    | some s => exact .pure he

/-- A fresh variable, with the account after its declaration. -/
theorem Holding.define {s : State} (hs : Holding env once Γ D s) (hd : env.depth = 0) {sym : Symbol}
    (hid : sym.id = ⟨env.routine, s.next⟩) (hdepth : sym.depth = env.depth) {late : List Late}
    {D' : List SymbolId} (hacc : Account (Old env.routine s.next) False s.late late)
    (hD : ∀ id ∈ D, id ∈ D')
    (hnew : sym.constant = true → sym.initialized = false →
      sym.id ∈ D' ∧ ∃ l, late? late sym.id = some l ∧ l.loops ≤ env.loops)
    (hin : ∀ id ∈ D', id ∈ D ∨ id = sym.id ∧ ∃ l, late? late sym.id = some l ∧ l.constant = true) :
    Holding env once (sym :: Γ) D'
      { s with scopes := s.scopes.define sym, next := s.next + 1, late := late } := by
  have hcons : ∀ x ∈ (s.scopes.define sym).symbols, x = sym ∨ x ∈ s.scopes.symbols := by
    intro x hx
    rw [Scopes.symbols_define] at hx
    exact List.mem_cons.mp hx
  refine ⟨fun x hx hk => ?_, fun x hx hk hc hi => ?_, fun x hx => ?_, fun id hid' => ?_⟩
  · rcases hcons x hx with rfl | hx
    · exact ⟨hdepth.trans hd, fun _ hc => mem_mutables.mpr ⟨List.mem_cons_self, hc⟩⟩
    · refine ⟨(hs.reach x hx hk).1, fun hz hc => ?_⟩
      have hin := (hs.reach x hx hk).2 hz hc
      exact mem_mutables.mpr ⟨List.mem_cons_of_mem _ (mem_mutables.mp hin).1, hc⟩
  · rcases hcons x hx with rfl | hx
    · obtain ⟨hmem, l, hl, hloops⟩ := hnew hc hi
      exact ⟨List.mem_cons_self, l, hl, hloops, .inr hmem⟩
    · obtain ⟨hmem, l, hl, hloops, hor⟩ := hs.constants x hx hk hc hi
      obtain ⟨l', hl', -, hloops'⟩ := hacc.kept x.id (.inl (hs.old x hmem)) l hl
      exact ⟨List.mem_cons_of_mem _ hmem, l', hl', hloops' ▸ hloops,
        hloops' ▸ hor.imp_right (hD x.id)⟩
  · rcases List.mem_cons.mp hx with rfl | hx
    · rw [hid]
      exact ⟨rfl, Nat.lt_succ_self _⟩
    · exact ⟨(hs.old x hx).1, Nat.lt_succ_of_lt (hs.old x hx).2⟩
  · rcases hin id hid' with hmem | ⟨rfl, l, hl, hc⟩
    · obtain ⟨⟨x, hx, rfl⟩, l, hl, hc⟩ := hs.entries id hmem
      obtain ⟨l', hl', hc', -⟩ := hacc.kept x.id (.inl (hs.old x hx)) l hl
      exact ⟨⟨x, List.mem_cons_of_mem _ hx, rfl⟩, l', hl', hc'.trans hc⟩
    · exact ⟨⟨sym, List.mem_cons_self, rfl⟩, l, hl, hc⟩

/-- The last step of a declaration. -/
theorem tracks_declareVariable (hd : env.depth = 0) (tok : Token) (isMutable : Bool) (name : Ident)
    (ty : Option Ty) (value : Option Expr) (t : Ty)
    (hv : ∀ e, value = some e → e.Steady (mutables Γ)) :
    Tracks env once Γ D (do
      let site := Site.ofToken .varDeclaration tok
      let sym ← declare name.name t .variable (!isMutable) value.isSome site
      let loops := (← read).loops
      if value.isNone then
        modify fun s => { s with late := ⟨sym.id, !isMutable, loops, false⟩ :: s.late }
      return Stmt.decl tok isMutable { name with sym := some sym } ty value) := by
  intro s hs
  have hfresh : ∀ x ∈ Γ, x.id ≠ ⟨env.routine, s.next⟩ := fun x hx h =>
    (Old.ne (.inl (hs.old x hx))) h.symm
  unfold declare
  cases value with
  | none =>
    have hacc (l : Late) (hl : l.id = ⟨env.routine, s.next⟩) :
        Account (Old env.routine s.next) False s.late (l :: s.late) :=
      .cons l fun id hid => hl ▸ hid.ne
    simp only [ends_bind, ends_read, ends_get, ends_set, ends_pure, Option.isNone_none, if_true,
      ends_modify]
    refine ⟨⟨Nat.le_succ _, (hacc _ rfl).mono (fun _ h => h) False.elim, fun _ => ?_⟩, ?_⟩
    · exact ⟨⟨_, rfl, rfl, hfresh⟩, hv, hs.given (hacc _ rfl) fun _ h => h⟩
    · refine hs.define hd rfl rfl (hacc _ rfl) ?_ ?_ ?_
      · cases isMutable with
        | true => exact fun _ h => h
        | false => exact fun _ h => List.mem_cons_of_mem _ h
      · intro hc _
        cases isMutable with
        | true => cases hc
        | false => exact ⟨List.mem_cons_self, _, by rw [late?_cons, if_pos rfl], Nat.le_refl _⟩
      · cases isMutable with
        | true => exact fun _ h => .inl h
        | false =>
          intro id hid
          rcases List.mem_cons.mp hid with rfl | hid
          · exact .inr ⟨rfl, _, by rw [late?_cons, if_pos rfl], rfl⟩
          · exact .inl hid
  | some e =>
    simp only [ends_bind, ends_read, ends_get, ends_set, ends_pure, Option.isNone_some,
      Bool.false_eq_true, if_false]
    refine ⟨⟨Nat.le_succ _, Account.refl _, fun _ => ?_⟩, ?_⟩
    · exact ⟨⟨_, rfl, rfl, hfresh⟩, hv, Later.refl _ _⟩
    · have hleaves : ∀ name' : Ident, Stmt.leaves D (.decl tok isMutable name' ty (some e)) = D := by
        intro name'
        cases isMutable <;> rfl
      rw [hleaves]
      refine hs.define hd rfl rfl (Account.refl _) (fun _ h => h) (fun _ hi => ?_) fun _ h => .inl h
      cases hi

theorem tracks_checkDecl (hd : env.depth = 0) {tok : Token} {isMutable : Bool} {name : Ident}
    {ty : Option Ty} {value : Option Expr} :
    Tracks env once Γ D (checkDecl tok isMutable name ty value) := by
  refine calm_get.bind_tracks fun s _ => Tracks.unless fun _ => Tracks.unless fun _ => ?_
  cases value with
  | none =>
    cases ty with
    | none => exact tracks_reject
    | some t => exact tracks_declareVariable hd tok isMutable name _ none t fun _ h => by cases h
  | some v =>
    refine (Expr.calm_check v).bind_tracks fun p hv => ?_
    refine calm_requireValue.bind_tracks fun _ _ => ?_
    obtain ⟨v', found⟩ := p
    have hrest (t : Ty) := @tracks_declareVariable env once Γ D hd tok isMutable name ty
      (some v') t fun e he => Option.some.inj he ▸ hv
    cases ty with
    | none => exact hrest found
    | some want => exact Tracks.unless fun _ => hrest want

theorem tracks_checkAssign {tok : Token} {target : Target} {value : Expr} :
    Tracks env once Γ D (checkAssign tok target value) := by
  cases target with
  | name id =>
    intro s hs
    unfold checkAssign
    dsimp only
    rw [ends_bind]
    refine (ends_checkWritable id true s).mono fun sym s₁ h => ?_
    obtain ⟨hsame, hmem, hk, hsym, hconst⟩ := h
    have hs₁ := hs.same hsame
    rw [ends_bind]
    refine (Expr.calm_check (V := mutables Γ) value s₁ hs₁.reach).mono fun p s₂ ⟨hsame₂, hv⟩ => ?_
    have hs₂ := hs₁.same hsame₂
    rw [ends_bind]
    refine (calm_requireValue s₂ hs₂.reach).mono fun _ s₃ ⟨hsame₃, _⟩ => ?_
    have hall := hsame.trans (hsame₂.trans hsame₃)
    rw [ends_ite]
    refine ⟨fun _ => trivial, fun _ => ?_⟩
    rw [ends_bind, ends_modify, ends_pure]
    have hacc : Account (Old env.routine s.next) False s.late (noteAssigned s₃.late sym.id) := by
      rw [hall.late]
      exact .noteAssigned _ _
    have hlater : Later D (Given once s.late) (Given once (noteAssigned s₃.late sym.id)) :=
      hs.given hacc fun _ h => h
    refine ⟨⟨hall.next, hacc.mono (fun _ h => h) False.elim, fun _ => ?_⟩,
      hs.later hall.scopes hall.next hacc⟩
    cases hc : sym.constant with
    | false =>
      obtain ⟨hdepth, hin⟩ := hs.reach sym hmem hk
      have hΓ := (mem_mutables.mp (hin (hsym.symm.trans hdepth) hc)).1
      exact ⟨hv, hlater, sym, hΓ, rfl, fun h => absurd (hc.symm.trans h) Bool.false_ne_true⟩
    | true =>
      obtain ⟨-, hfirst, hloops⟩ := hconst hc
      obtain ⟨hinit, hany⟩ := Bool.or_eq_false_iff.mp hfirst
      obtain ⟨hΓ, l, hl, -, hor⟩ := hs.constants sym hmem hk hc hinit
      rw [hl] at hany hloops
      refine ⟨hv, hlater, sym, hΓ, rfl, fun _ => ⟨?_, fun hgiven => ?_, fun ho => ⟨ho, ?_⟩⟩⟩
      · exact hor.resolve_left fun h => absurd h.2 (Nat.not_lt.mpr hloops)
      · rw [Given, hl, hany] at hgiven
        exact absurd hgiven.2 Bool.false_ne_true
      · rw [hall.late, late?_noteAssigned, hl]
        simp [id_of_late? hl]
  | element m base index =>
    refine (Target.calm_check (.element m base index)).bind_tracks fun p ht => ?_
    obtain ⟨target', want⟩ := p
    refine (Expr.calm_check value).bind_tracks fun q hv => ?_
    refine calm_requireValue.bind_tracks fun _ _ => Tracks.unless fun _ => ?_
    cases target' with
    | name id => exact absurd rfl (ht.2 (fun _ h => by cases h) id)
    | element m' base' index' => exact tracks_pure rfl rfl fun _ => ⟨ht.1, hv, Later.refl _ _⟩

theorem tracks_checkCompound {tok : Token} {target : Target} {op : String} {value : Expr} :
    Tracks env once Γ D (checkCompound tok target op value) := by
  refine (Target.calm_checkInt target).bind_tracks fun p ht => ?_
  refine (Expr.calm_check value).bind_tracks fun q hv => Tracks.unless fun _ => ?_
  exact tracks_pure rfl rfl fun _ => ⟨ht, hv, Later.refl _ _⟩

theorem tracks_checkReturn {tok : Token} {value : Option Expr} :
    Tracks env once Γ D (checkReturn tok value) := by
  have hnone : Tracks env once Γ D (pure (Stmt.ret tok none)) :=
    tracks_pure rfl rfl fun _ => ⟨fun _ h => (by cases h), Later.refl _ _⟩
  refine calm_read.bind_tracks fun env' _ => ?_
  cases env'.enclosing with
  | none =>
    cases value with
    | none => exact hnone
    | some v => exact tracks_reject
  | some f =>
    cases value with
    | none => exact Tracks.ite (fun _ => hnone) fun _ => tracks_reject
    | some v =>
      refine Tracks.unless fun _ => (Expr.calm_check v).bind_tracks fun p hv => ?_
      refine Tracks.unless fun _ => tracks_pure rfl rfl fun _ => ⟨fun e he => ?_, Later.refl _ _⟩
      exact Option.some.inj he ▸ hv

theorem tracks_checkJump {word : String} {tok : Token} {st : Stmt} (hd : st.declares Γ = Γ)
    (hl : st.leaves D = D) (h : ∀ A, st.Assigns once Γ D A A) :
    Tracks env once Γ D (checkJump word tok st) :=
  calm_read.bind_tracks fun _ _ => Tracks.unless fun _ => tracks_pure hd hl h

/-- The two ways through an `if`. -/
theorem tracks_branches {tok : Token} {cond : Expr} (hc : cond.Steady (mutables Γ)) {x : Check Block}
    {y : Check (Option Block)}
    (hx : Closes env once Γ D x Block.DeadEnd Block.Restarts fun a => a.Assigns once Γ D)
    (hy : Closes env once Γ D y Block.DeadEndOption Block.RestartsOption
      fun b A A' => Block.AssignsOption once Γ D A A' b) :
    Tracks env once Γ D (do
      let before := (← get).late
      let a ← x
      let afterThen := (← get).late
      modify fun s => { s with late := rewind before s.late }
      let b ← y
      let elseFlows := !(b.any Block.alwaysJumps)
      modify fun s => { s with late := merge (!a.alwaysJumps) elseFlows afterThen s.late }
      return Stmt.ifElse tok cond a b) := by
  intro s hs
  simp only [ends_bind, ends_get, ends_modify, ends_pure]
  refine (hx s hs).mono fun a s₁ h₁ => ?_
  obtain ⟨ha, hscopes₁⟩ := h₁
  have hacc₁ : Account (Old env.routine s.next) False s.late (rewind s.late s₁.late) :=
    ha.account.rewind
  have hs₁ : Holding env once Γ D { s₁ with late := rewind s.late s₁.late } :=
    hs.later hscopes₁ ha.next hacc₁
  refine (hy _ hs₁).mono fun b s₂ h₂ => ?_
  obtain ⟨hb, hscopes₂⟩ := h₂
  have hnext : s.next ≤ s₂.next := Nat.le_trans ha.next hb.next
  have hacc₂ : Account (Old env.routine s.next) (Block.DeadEndOption b) s.late s₂.late :=
    (hacc₁.trans hb.account fun _ h => h.mono ha.next).mono (fun _ h => h) (Or.resolve_left · id)
  have hacc : Account (Old env.routine s.next) (Stmt.ifElse tok cond a b).DeadEnd s.late
      (merge (!a.alwaysJumps) (!(b.any Block.alwaysJumps)) s₁.late s₂.late) := by
    refine (Account.merge ha.account hacc₂).mono (fun _ h => h) fun h => h.imp_left fun h => ?_
    simpa using h
  -- What the second branch knows of a constant is there to be merged.
  have hmerged : ∀ id ∈ D, ∃ l, late? s₂.late id = some l ∧
      late? (merge (!a.alwaysJumps) (!(b.any Block.alwaysJumps)) s₁.late s₂.late) id =
        some { l with assigned := (!a.alwaysJumps && (late? s₁.late id).any Late.assigned)
          || (!(b.any Block.alwaysJumps) && l.assigned) } := by
    intro id hid
    obtain ⟨-, l, hl, hconst⟩ := hs.entries id hid
    obtain ⟨l₂, hl₂, hconst₂, -⟩ := hacc₂.kept id (hs.oldId hid) l hl
    exact ⟨l₂, hl₂, late?_merge hl₂ (hconst₂.trans hconst)⟩
  refine ⟨⟨hnext, hacc, fun hr => ?_⟩, hs.later (hscopes₂.trans hscopes₁) hnext hacc⟩
  refine ⟨hc, Given once s₁.late, Given once (rewind s.late s₁.late), Given once s₂.late,
    ha.assigns fun ho h => hr ho (.inl h), hs.given hacc₁ fun _ h => h,
    hb.assigns fun ho h => hr ho (.inr h), fun hj => ?_, fun hj => ?_⟩
  · rintro id hid ⟨ho, h⟩
    obtain ⟨l, -, hm⟩ := hmerged id hid
    exact ⟨ho, by rw [hm, hj, h]; rfl⟩
  · rintro id hid ⟨ho, h⟩
    obtain ⟨l, hl, hm⟩ := hmerged id hid
    rw [hl] at h
    exact ⟨ho, by rw [hm, hj, show l.assigned = true from h]; simp⟩

/-! ## Loops, blocks and functions -/

theorem closes_inScope {x : Check (List Stmt)}
    (hx : ∀ s, Holding env once Γ D s → Ends x env s (fun _ => True) fun ss s' =>
      Follows env once s s' (Stmt.ListDeadEnd ss) (Stmt.ListRestarts ss)
        fun A A' => Stmt.ListAssigns once Γ D A A' ss) :
    Closes env once Γ D (inScope .block x) Stmt.ListDeadEnd Stmt.ListRestarts
      fun ss A A' => Stmt.ListAssigns once Γ D A A' ss := by
  intro s hs
  unfold inScope
  simp only [ends_bind, ends_modify, ends_get, ends_pure]
  have hs₁ : Holding env once Γ D { s with scopes := s.scopes.enter .block } := by
    refine ⟨fun sym hsym => hs.reach sym ?_, fun sym hsym => hs.constants sym ?_, hs.old, hs.entries⟩
    · simpa using hsym
    · simpa using hsym
  exact (hx _ hs₁).mono fun ss s₂ h => ⟨⟨h.next, h.account, h.assigns⟩, trivial⟩

/-- Inside a loop, constants from outside cannot be assigned. -/
theorem Holding.looped {s : State} (h : Holding env once Γ D s) :
    Holding env.looped once Γ (inside once D) s where
  reach := h.reach
  constants sym hsym hk hc hi := by
    obtain ⟨hin, l, hl, hloops, hor⟩ := h.constants sym hsym hk hc hi
    refine ⟨hin, l, hl, Nat.le_succ_of_le hloops, ?_⟩
    cases once with
    | true => exact .inl ⟨rfl, Nat.lt_succ_of_le hloops⟩
    | false => exact .inr (hor.resolve_left fun h => Bool.false_ne_true h.1)
  old := h.old
  entries id hid := by
    refine h.entries id ?_
    unfold inside at hid
    split at hid
    · cases hid
    · exact hid

/-- The body of a loop, from which nothing is assigned that is outside. -/
theorem closes_inLoop {x : Check Block}
    (hx : Closes env.looped once Γ (inside once D) x Block.DeadEnd Block.Restarts
      fun b => b.Assigns once Γ (inside once D)) :
    Closes env once Γ D (inLoop x) Block.DeadEnd Block.DeadEnd fun b A A' =>
      Later D A A' ∧ ∃ A₁, b.Assigns once Γ (inside once D) A A₁ := by
  intro s hs
  unfold inLoop
  rw [ends_withReader]
  refine (hx s hs.looped).mono fun b s' ⟨hb, hscopes⟩ => ⟨⟨hb.next, hb.account, fun hr => ?_⟩, hscopes⟩
  exact ⟨hs.given hb.account hr, _, hb.assigns fun ho h => hr ho (Block.Restarts.deadEnd b h)⟩

/-- What is known of a run in several ways. -/
theorem ends_forall {ι α ρ σ ε : Type} {x : ReaderT ρ (StateT σ (Except ε)) α} {r : ρ} {s : σ}
    {post : ι → α → σ → Prop} (h : ∀ i, Ends x r s (fun _ => True) (post i)) :
    Ends x r s (fun _ => True) fun a t => ∀ i, post i a t := by
  rw [ends_iff]
  exact ⟨fun a t hx i => (h i).of_ok hx, fun _ _ => trivial⟩

/-- The variable of a loop cannot be stored to. -/
theorem tracks_forLoop (hd : env.depth = 0) {tok : Token} {x : Ident} {header : Header}
    (hh : header.Steady (mutables Γ)) {t : Ty} {body : Check Block}
    (hbody : Closes env.looped once Γ (inside once D) body Block.DeadEnd Block.Restarts
      fun b => b.Assigns once Γ (inside once D)) :
    Tracks env once Γ D (inScope .block do
      let sym ← declare x.name t .variable true true (.ofToken .forLoop tok)
      let body ← inLoop body
      return Stmt.forLoop tok { x with sym := some sym } header body) := by
  intro s hs
  unfold inScope declare
  simp only [ends_bind, ends_modify, ends_get, ends_pure, ends_read, ends_set]
  have hs₁ : Holding env once Γ D { s with
      scopes := (s.scopes.enter .block).define ⟨⟨env.routine, s.next⟩, x.name, t, .variable, true,
        true, env.depth, some env.owner, some (.ofToken .forLoop tok)⟩
      next := s.next + 1 } := by
    refine ⟨fun sym hsym hk => ?_, fun sym hsym hk hc hi => ?_, fun sym hsym => ?_, hs.entries⟩
    · simp only [Scopes.symbols_define, Scopes.symbols_enter] at hsym
      rcases List.mem_cons.mp hsym with rfl | hsym
      · exact ⟨hd, fun _ hc => (by cases hc)⟩
      · exact hs.reach sym hsym hk
    · simp only [Scopes.symbols_define, Scopes.symbols_enter] at hsym
      rcases List.mem_cons.mp hsym with rfl | hsym
      · cases hi
      · exact hs.constants sym hsym hk hc hi
    · exact ⟨(hs.old sym hsym).1, Nat.lt_succ_of_lt (hs.old sym hsym).2⟩
  refine (closes_inLoop hbody _ hs₁).mono fun b s₂ h₂ => ?_
  obtain ⟨hb, -⟩ := h₂
  have hnext : s.next ≤ s₂.next := Nat.le_trans (Nat.le_succ _) hb.next
  have hacc : Account (Old env.routine s.next) b.DeadEnd s.late s₂.late :=
    hb.account.mono (fun _ h => h.mono (Nat.le_succ _)) id
  exact ⟨⟨hnext, hacc, fun hr => ⟨hh, hb.assigns hr⟩⟩, hs.later rfl hnext hacc⟩

/-- What is around a routine: functions only, and the script is routine 0. -/
structure Env.Rooted (env : Env) : Prop where
  depth : env.depth = 0
  script : env.enclosing.isSome = false → env.routine = 0
  functions : ∀ sym ∈ env.functions.declared, sym.kind = .function ∧ sym.id.routine ≠ 0

theorem Env.Rooted.looped (h : env.Rooted) : env.looped.Rooted := ⟨h.depth, h.script, h.functions⟩

theorem Env.Rooted.inFunction (h : env.Rooted) (sym : Symbol) (tok : Token) (result : Ty) :
    (env.inFunction sym tok result).Rooted :=
  ⟨rfl, fun h => (by cases h), h.functions⟩

/-- A function has constants of its own, and its body is checked as if there were no others. -/
theorem tracks_function (henv : env.Rooted) {tok brace close : Token} {name : Ident}
    {params : List Param} {result : Ty} {ss : List Stmt}
    (hbody : ∀ sym ∈ env.functions.declared, ∀ once s,
      Holding (env.inFunction sym tok result) once [] [] s →
      Ends (Stmt.checkList [] ss) (env.inFunction sym tok result) s (fun _ => True) fun ss' s' =>
        Follows (env.inFunction sym tok result) once s s' (Stmt.ListDeadEnd ss')
          (Stmt.ListRestarts ss') fun A A' => Stmt.ListAssigns once [] [] A A' ss') :
    Tracks env once Γ D (do
      let f ← FunDecl.check (.mk tok name params result (.mk brace ss close))
      return Stmt.function f) := by
  intro s hs
  rw [ends_bind]
  simp only [FunDecl.check, ends_bind, ends_read]
  cases hfind : env.functions.find? name.name with
  | none => trivial
  | some sym =>
    have hsym : sym ∈ env.functions.declared := List.mem_of_find?_eq_some hfind
    dsimp only
    rw [ends_bind, ends_get, ends_ite]
    refine ⟨fun _ => trivial, fun htop => ?_⟩
    unfold inFunction
    simp only [ends_bind, ends_get, ends_read, ends_set, ends_withReader, ends_modify, ends_pure]
    refine (ends_declareParams_parameter params _ _).mono fun params' s₁ h => ?_
    obtain ⟨-, hlate, hmem⟩ := h
    have hstart (once : Bool) : Holding (env.inFunction sym tok result) once [] [] s₁ := by
      have hno : ∀ x ∈ s₁.scopes.symbols, x.kind ≠ .variable := by
        intro x hx hk
        have hin := hmem x hx hk
        rw [FunctionScope.symbols] at hin
        rw [(henv.functions x hin).1] at hk
        cases hk
      exact ⟨fun x hx hk => absurd hk (hno x hx), fun x hx hk => absurd hk (hno x hx),
        fun _ h => (by cases h), fun _ h => (by cases h)⟩
    refine (ends_forall fun once => hbody sym hsym once s₁ (hstart once)).mono fun ss' s₂ h => ?_
    rw [ends_ite]
    refine ⟨fun _ => trivial, fun _ => ?_⟩
    have hzero : env.routine = 0 := by
      refine henv.script ?_
      cases he : env.enclosing.isSome with
      | false => rfl
      | true => exact absurd (by rw [he]; rfl) htop
    have hacc : Account (Old env.routine s.next) (Stmt.ListDeadEnd ss') s.late s₂.late := by
      rw [← hlate]
      refine (h false).account.mono (fun id hid => .inr ⟨(henv.functions sym hsym).2, ?_⟩) id
      exact hid.elim (fun h => h.1.trans hzero) fun h => h.2
    refine ⟨⟨Nat.le_refl _, hacc, fun hr => ⟨fun once ho => ?_, hs.given hacc hr⟩⟩,
      hs.later rfl (Nat.le_refl _) hacc⟩
    exact ⟨_, Stmt.ListAssigns.earlier (fun _ h => by cases h) ((h once).assigns ho)⟩

/-- The last step of a statement that holds others. -/
theorem Closes.bind_tracks {forgets restarts : α → Prop}
    {assigns : α → (SymbolId → Prop) → (SymbolId → Prop) → Prop}
    (hx : Closes env once Γ D x forgets restarts assigns) {f : α → Stmt}
    (hd : ∀ a, (f a).declares Γ = Γ) (hl : ∀ a, (f a).leaves D = D)
    (hforgets : ∀ a, forgets a → (f a).DeadEnd) (hrestarts : ∀ a, restarts a → (f a).Restarts)
    (hassigns : ∀ a A A', assigns a A A' → (f a).Assigns once Γ D A A') :
    Tracks env once Γ D (x >>= fun a => pure (f a)) := by
  intro s hs
  rw [ends_bind]
  refine (hx s hs).mono fun a s' ⟨ha, hscopes⟩ => ?_
  refine ⟨⟨ha.next, ha.account.mono (fun _ h => h) (hforgets a), fun hr => ?_⟩, ?_⟩
  · exact hassigns a _ _ (ha.assigns fun ho h => hr ho (hrestarts a h))
  · rw [hd, hl]
    exact hs.later hscopes ha.next ha.account

end Tracks

end Typing

open Typing

mutual

/-- A statement that passes stores to its constants as it may. -/
theorem Stmt.tracks_check {env : Env} (henv : env.Rooted) {once : Bool} {Γ : List Symbol}
    {D : List SymbolId} : (st : Stmt) → Tracks env once Γ D st.check
  | .decl _ _ _ _ _ => tracks_checkDecl henv.depth
  | .assign _ _ _ => tracks_checkAssign
  | .compound _ _ _ _ => tracks_checkCompound
  | .selfOp _ e =>
    (IncDec.calm_check e).bind_tracks fun _ he => tracks_pure rfl rfl fun _ => ⟨he, Later.refl _ _⟩
  | .print _ _ none => tracks_pure rfl rfl fun _ => ⟨fun _ h => (by cases h), Later.refl _ _⟩
  | .print _ _ (some v) => by
    refine (Expr.calm_check v).bind_tracks fun p hv => Tracks.unless fun _ => ?_
    exact tracks_pure rfl rfl fun _ => ⟨fun _ h => Option.some.inj h ▸ hv, Later.refl _ _⟩
  | .ifElse _ cond a b =>
    (calm_checkCondition _ cond).bind_tracks fun _ hc =>
      tracks_branches hc (Block.closes_check henv a) (Block.closes_checkOption henv b)
  | .whileLoop _ cond body => by
    refine (calm_checkCondition _ cond).bind_tracks fun cond' hc => ?_
    refine (closes_inLoop (Block.closes_check henv.looped body)).bind_tracks (fun _ => rfl)
      (fun _ => rfl) (fun _ h => h) (fun _ h => h) fun b A A' h => ⟨hc, h⟩
  | .forLoop _ _ header body =>
    (calm_checkHeader header).bind_tracks fun _ hh =>
      tracks_forLoop henv.depth hh (Block.closes_check henv.looped body)
  | .function (.mk tok _ _ result (.mk _ ss _)) => by
    refine tracks_function henv fun sym _ once s hs => ?_
    refine (Stmt.follows_checkList (henv.inFunction sym tok result) ss [] [] [] s hs).mono ?_
    rintro r s' ⟨ss', rfl, h⟩
    exact h
  | .call _ c =>
    (Call.calm_check c).bind_tracks fun _ hc => tracks_pure rfl rfl fun _ => ⟨hc, Later.refl _ _⟩
  | .ret _ _ => tracks_checkReturn
  | .brk _ => tracks_checkJump rfl rfl fun _ => Later.refl _ _
  | .cont _ => tracks_checkJump rfl rfl fun _ => Later.refl _ _
  | .block b =>
    (Block.closes_check henv b).bind_tracks (fun _ => rfl) (fun _ => rfl) (fun _ h => h)
      (fun _ h => h) fun _ _ _ h => h

theorem Stmt.follows_checkList {env : Env} (henv : env.Rooted) {once : Bool} : (ss : List Stmt) →
    ∀ (Γ : List Symbol) (D : List SymbolId) (acc : List Stmt) (s : State),
    Holding env once Γ D s →
    Ends (Stmt.checkList acc ss) env s (fun _ => True) fun r s' => ∃ ss', r = acc.reverse ++ ss' ∧
      Follows env once s s' (Stmt.ListDeadEnd ss') (Stmt.ListRestarts ss')
        fun A A' => Stmt.ListAssigns once Γ D A A' ss'
  | [], Γ, D, acc, s, hs =>
    ⟨[], by simp, Nat.le_refl _, Account.refl _, fun _ => Later.refl _ _⟩
  | st :: ss, Γ, D, acc, s, hs => by
    unfold Stmt.checkList
    rw [ends_bind]
    refine (Stmt.tracks_check henv st s hs).mono fun st' s₁ ⟨hst, hs₁⟩ => ?_
    refine (Stmt.follows_checkList henv ss _ _ (st' :: acc) s₁ hs₁).mono ?_
    rintro r s₂ ⟨ss', rfl, hss⟩
    refine ⟨st' :: ss', by simp, Nat.le_trans hst.next hss.next, ?_, fun hr => ?_⟩
    · exact hst.account.trans hss.account fun _ h => h.mono hst.next
    · exact ⟨_, _, Later.refl _ _, hst.assigns fun ho h => hr ho (.inl h),
        hss.assigns fun ho h => hr ho (.inr h)⟩

theorem Block.closes_check {env : Env} (henv : env.Rooted) {once : Bool} {Γ : List Symbol}
    {D : List SymbolId} : (b : Block) →
    Closes env once Γ D b.check Block.DeadEnd Block.Restarts fun b' => b'.Assigns once Γ D
  | .mk _ ss _ => by
    intro s hs
    unfold Block.check
    rw [ends_bind]
    have hlist : ∀ s, Holding env once Γ D s →
        Ends (Stmt.checkList [] ss) env s (fun _ => True) fun ss' s' =>
          Follows env once s s' (Stmt.ListDeadEnd ss') (Stmt.ListRestarts ss')
            fun A A' => Stmt.ListAssigns once Γ D A A' ss' := by
      intro s hs
      refine (Stmt.follows_checkList henv ss Γ D [] s hs).mono ?_
      rintro r s' ⟨ss', rfl, h⟩
      exact h
    exact (closes_inScope hlist s hs).mono fun _ _ h => h

theorem Block.closes_checkOption {env : Env} (henv : env.Rooted) {once : Bool} {Γ : List Symbol}
    {D : List SymbolId} : (b : Option Block) →
    Closes env once Γ D (Block.checkOption b) Block.DeadEndOption Block.RestartsOption
      fun b' A A' => Block.AssignsOption once Γ D A A' b'
  | none => fun s hs =>
    ⟨⟨Nat.le_refl _, Account.refl _, fun _ => Later.refl _ _⟩, rfl⟩
  | some b => by
    intro s hs
    unfold Block.checkOption
    rw [ends_bind]
    exact (Block.closes_check henv b s hs).mono fun _ _ h => h

end

/-! ## Programs -/

/-- Only the script is routine 0. -/
theorem routine_of_declareFunctions : ∀ {fs : List FunDecl} {routine : Nat} {scope scope' : Scope},
    routine ≠ 0 → declareFunctions routine scope fs = .ok scope' →
    (∀ sym ∈ scope.declared, sym.kind = .function ∧ sym.id.routine ≠ 0) →
    ∀ sym ∈ scope'.declared, sym.kind = .function ∧ sym.id.routine ≠ 0
  | [], _, _, _, _, h, hs => by
    cases h
    exact hs
  | f :: fs, routine, scope, scope', hr, h, hs => by
    unfold declareFunctions at h
    dsimp only at h
    split at h
    · cases h
    · split at h
      · cases h
      · refine routine_of_declareFunctions (Nat.succ_ne_zero routine) h fun sym hsym => ?_
        rcases List.mem_cons.mp hsym with rfl | hsym
        · exact ⟨rfl, hr⟩
        · exact hs sym hsym

/-- The checker accepts only programs that keep their constants, but for what it forgets. -/
theorem Program.check_assigns {p : Program} {c : Checked} (h : p.check = .ok c) : c.Assigns := by
  obtain ⟨functions, stmts, s, hdecl, hlist, rfl⟩ := Program.check_eq_ok h
  have hfunctions := routine_of_declareFunctions Nat.one_ne_zero hdecl (by simp)
  have henv : Env.Rooted ⟨functions, 0, none, .program, 0, 0⟩ :=
    ⟨rfl, fun _ => rfl, hfunctions⟩
  have hstart (once : Bool) : Holding ⟨functions, 0, none, .program, 0, 0⟩ once [] []
      ⟨⟨⟨.script, []⟩, [functions]⟩, 0, [], []⟩ := by
    have hno : ∀ sym ∈ Scopes.symbols ⟨⟨.script, []⟩, [functions]⟩, sym.kind ≠ .variable := by
      intro sym hsym hk
      rw [FunctionScope.symbols] at hsym
      rw [(hfunctions sym hsym).1] at hk
      cases hk
    exact ⟨fun x hx hk => absurd hk (hno x hx), fun x hx hk => absurd hk (hno x hx),
      fun _ h => (by cases h), fun _ h => (by cases h)⟩
  have hrun := ends_forall fun once => Stmt.follows_checkList henv p.stmts [] [] [] _ (hstart once)
  have hassigns : ∀ once : Bool, (once = true → ¬ Stmt.ListRestarts stmts) →
      ∃ A', Stmt.ListAssigns once [] [] (fun _ => False) A' stmts := by
    intro once ho
    obtain ⟨ss', hss, hfollows⟩ := hrun.of_ok hlist once
    obtain rfl : stmts = ss' := by simpa using hss
    exact ⟨_, Stmt.ListAssigns.earlier (fun _ h => by cases h) (hfollows.assigns ho)⟩
  refine ⟨?_, fun once ho => ?_⟩
  · obtain ⟨A', hA⟩ := hassigns false fun h => by cases h
    exact hA.function
  · obtain ⟨A', hA⟩ := hassigns once ho
    exact ⟨A', hA.script⟩

end Kotlet

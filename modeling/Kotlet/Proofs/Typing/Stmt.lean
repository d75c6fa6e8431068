import Kotlet.Proofs.Parse.WellFormed
import Kotlet.Proofs.Typing.Expr

/-!
# Checked programs are well-typed

* `Typing.Runs` : the checker's steps on statements: they keep the state sound, and variables that
  held all of the scope before hold all of it afterwards, with what was declared;
* `Stmt.runs_check` : statements;
* `ends_checkFunction`, `ends_checkTop` : functions, and the statements of a program;
* `Program.check_typed` : a program that passes is well-typed, and one that does not fails with a
  diagnostic of the checker.
-/

namespace Kotlet

namespace Typing

/-- What the routine around returns. -/
def Env.result (env : Env) : Ty := (env.enclosing.map Enclosing.result).getD .unit

/-- Whether there is a loop around. -/
def Env.inLoop (env : Env) : Bool := env.loops != 0

/-- Statements stand outside of lambdas, in routines whose results can be written. -/
structure Env.Plain (env : Env) : Prop where
  depth : env.depth = 0
  complete : ∀ f, env.enclosing = some f → f.result.Complete

/-- Whether functions may be declared here. -/
def AtTop (env : Env) (s : State) : Prop :=
  env.enclosing.isSome = false ∧ s.scopes.inner.kind = .script

/-- Steps on statements. `ext` tells which variables there are afterwards. -/
def Runs {α : Type} (Φ : Signatures) (env : Env) (nested : Bool) (x : Check α)
    (ext : α → List Symbol → List Symbol) (C : α → Prop)
    (P : α → List Symbol → Nat → Nat → Prop) : Prop :=
  ∀ s, Sound Φ env s → (nested = true → ¬ AtTop env s) → Ends x env s IsTypeFault fun a s' =>
    C a ∧ s.next ≤ s'.next ∧ Sound Φ env s' ∧ s'.scopes.inner.kind = s.scopes.inner.kind ∧
      ∀ Γ, (∀ v ∈ s.scopes.vars, v ∈ Γ) →
        P a Γ s.next s'.next ∧ ∀ v ∈ s'.scopes.vars, v ∈ ext a Γ

section Runs

variable {α β : Type} {Φ : Signatures} {env : Env} {nested : Bool} {x : Check α}
  {ext : α → List Symbol → List Symbol} {C : α → Prop} {P : α → List Symbol → Nat → Nat → Prop}
  {ext' : β → List Symbol → List Symbol} {D : β → Prop} {Q : β → List Symbol → Nat → Nat → Prop}

theorem Steps.runs (h : Steps Φ env x C P) : Runs Φ env nested x (fun _ Γ => Γ) C P := by
  intro s hs _
  refine (h s hs).mono fun a s' ⟨ha, he, hs', hP⟩ => ?_
  rw [he.scopes]
  exact ⟨ha, he.next, hs', rfl, fun Γ hΓ => ⟨hP Γ fun v hv _ => hΓ v (he.scopes ▸ hv), hΓ⟩⟩

theorem Runs.pure {a : α} (hc : C a) (hp : ∀ Γ n, P a Γ n n) (he : ∀ Γ, ext a Γ = Γ) :
    Runs Φ env nested (pure a) ext C P :=
  fun s hs _ => ⟨hc, Nat.le_refl _, hs, rfl, fun Γ hΓ => ⟨hp Γ s.next, by rw [he]; exact hΓ⟩⟩

theorem Runs.bind {f : α → Check β} (h : Runs Φ env nested x (fun _ Γ => Γ) C P)
    (hf : ∀ a, C a →
      Runs Φ env nested (f a) ext' D fun b Γ mid hi => ∀ lo, P a Γ lo mid → Q b Γ lo hi) :
    Runs Φ env nested (x >>= f) ext' D Q := by
  intro s hs hn
  rw [ends_bind]
  refine (h s hs hn).mono fun a s' ⟨ha, hnext, hs', hkind, hP⟩ => ?_
  have hn' : nested = true → ¬ AtTop env s' := fun ht htop => hn ht ⟨htop.1, hkind ▸ htop.2⟩
  refine (hf a ha s' hs' hn').mono fun b s'' ⟨hb, hnext', hs'', hkind', hQ⟩ => ?_
  refine ⟨hb, Nat.le_trans hnext hnext', hs'', hkind'.trans hkind, fun Γ hΓ => ?_⟩
  obtain ⟨hp, hv⟩ := hP Γ hΓ
  exact ⟨(hQ Γ hv).1 s.next hp, (hQ Γ hv).2⟩

theorem Runs.ite {c : Prop} [Decidable c] {y : Check α} (hx : c → Runs Φ env nested x ext C P)
    (hy : ¬ c → Runs Φ env nested y ext C P) :
    Runs Φ env nested (if c then x else y) ext C P := by
  by_cases h : c
  · rw [if_pos h]; exact hx h
  · rw [if_neg h]; exact hy h

theorem runs_reject {e : TypeError} {t : Token} (h : ∀ kind, e ≠ .noType kind) :
    Runs Φ env nested (reject e t : Check α) ext C P := fun _ _ _ => isTypeFault_of_ne h

theorem Runs.unless {c : Prop} [Decidable c] {e : TypeError} {t : Token} {f : Unit → Check α}
    (he : ∀ kind, e ≠ .noType kind) (h : ¬ c → Runs Φ env nested (f ()) ext C P) :
    Runs Φ env nested (if c then reject e t >>= f else f ()) ext C P :=
  Runs.ite (fun _ => Runs.bind (runs_reject he (C := fun _ => False) (P := fun _ _ _ _ => False))
    fun _ h => h.elim) h

/-- Notes about assignments concern nothing else. -/
theorem runs_noteLate (f : State → List Late) :
    Runs Φ env nested (modify fun s => { s with late := f s } : Check PUnit) (fun _ Γ => Γ)
      (fun _ => True) fun _ _ lo hi => lo = hi :=
  fun _ hs _ => ⟨trivial, Nat.le_refl _, ⟨hs.context, hs.depth, hs.functions, hs.captured⟩, rfl,
    fun _ hΓ => ⟨rfl, hΓ⟩⟩

theorem Sound.leave {s s' : State} (hp : env.depth = 0) (hs : Sound Φ env s)
    (hs' : Sound Φ env s') (hnext : s.next ≤ s'.next) :
    Sound Φ env { s' with scopes := s.scopes } := by
  refine ⟨hs.context.mono hnext, hs.depth, hs.functions, ?_⟩
  have hcap := hs'.captured
  rw [hp] at hcap ⊢
  cases hc : s'.captures with
  | nil => trivial
  | cons c rest => rw [hc] at hcap; exact hcap.elim

theorem Sound.enter {s : State} (hs : Sound Φ env s) (kind : ScopeKind) :
    Sound Φ env { s with scopes := s.scopes.enter kind } :=
  ⟨by simpa using hs.context, by simpa using hs.depth, by simpa using hs.functions,
    by simpa using hs.captured⟩

end Runs

end Typing

open Typing

section Check

variable {Φ : Signatures} {env : Env} {nested : Bool}

/-! ## Simple statements -/

theorem steps_checkCondition (what : String) {e : Expr} (h : e.WellFormed) :
    Steps Φ env (checkCondition what e) (fun _ => True)
      fun e' Γ lo hi => e'.Typed Φ env.routine Γ lo hi .boolean := by
  have hw : Ty.CompleteOption (some .boolean) := by simp [Ty.CompleteOption, Ty.Complete]
  refine (Expr.steps_check (.inl hw) e h).bind fun p _ => steps_requireType.bind fun _ hp => ?_
  exact .pure trivial fun Γ hi mid hmid lo he => hmid ▸ hp ▸ he

theorem steps_checkBound (what : String) {e : Expr} (h : e.WellFormed) :
    Steps Φ env (checkBound what e) (fun _ => True)
      fun e' Γ lo hi => e'.Typed Φ env.routine Γ lo hi .int := by
  have hw : Ty.CompleteOption (some .int) := by simp [Ty.CompleteOption, Ty.Complete]
  refine (Expr.steps_check (.inl hw) e h).bind fun p _ => steps_requireType.bind fun _ hp => ?_
  exact .pure trivial fun Γ hi mid hmid lo he => hmid ▸ hp ▸ he

/-- The last step of a declaration. -/
theorem runs_declareVariable (tok : Token) (isMutable : Bool) (name : Ident) (ty : Option Ty)
    (value : Option Expr) {t : Ty} (hc : t.Complete) (hu : t ≠ .unit) :
    Runs Φ env nested
      (do
        let site := Site.ofToken .varDeclaration tok
        let sym ← declare name.name t .variable (!isMutable) value.isSome site
        let loops := (← read).loops
        if value.isNone then
          modify fun s => { s with late := ⟨sym.id, !isMutable, loops, false⟩ :: s.late }
        return Stmt.decl tok isMutable { name with sym := some sym } ty value)
      (fun s Γ => s.extend Γ) (fun _ => True)
      (fun s _ lo hi => ∃ sym, s = .decl tok isMutable { name with sym := some sym } ty value ∧
        sym.Declares env.routine lo ∧ sym.ty = t ∧ hi = lo + 1) := by
  intro s hs _
  simp only [ends_bind, ends_read]
  refine (ends_declare hs (by decide) hc hu).mono fun sym s' h => ?_
  obtain ⟨hd, hty, -, hs', hsound⟩ := h
  have hdone (late : List Late) : Ends (pure (Stmt.decl tok isMutable { name with sym := some sym } ty value) :
      Check Stmt) env { s' with late := late } IsTypeFault fun a s' =>
      True ∧ s.next ≤ s'.next ∧ Sound Φ env s' ∧ s'.scopes.inner.kind = s.scopes.inner.kind ∧
        ∀ Γ, (∀ v ∈ s.scopes.vars, v ∈ Γ) →
          (∃ sym, a = .decl tok isMutable { name with sym := some sym } ty value ∧
            sym.Declares env.routine s.next ∧ sym.ty = t ∧ s'.next = s.next + 1) ∧
          ∀ v ∈ s'.scopes.vars, v ∈ a.extend Γ := by
    subst hs'
    refine ⟨trivial, Nat.le_succ _, ⟨hsound.context, hsound.depth, hsound.functions,
      hsound.captured⟩, rfl, fun Γ hΓ => ⟨⟨sym, rfl, hd, hty, rfl⟩, ?_⟩⟩
    change ∀ v ∈ (s.scopes.define sym).vars, v ∈ sym :: Γ
    rw [Scopes.vars_define hd.plain]
    intro v hv
    rcases List.mem_cons.mp hv with rfl | hv
    · exact List.mem_cons_self
    · exact List.mem_cons_of_mem _ (hΓ v hv)
  split
  · exact hdone _
  · exact hdone s'.late

theorem runs_checkDecl {tok : Token} {isMutable : Bool} {name : Ident} {ty : Option Ty}
    {value : Option Expr} (hty : ∀ t, ty = some t → t.Complete)
    (hvalue : Expr.WellFormedOption value) :
    Runs Φ env nested (checkDecl tok isMutable name ty value) (fun s Γ => s.extend Γ)
      (fun _ => True)
      (fun s Γ lo hi => s.Typed Φ env.routine env.result env.inLoop Γ lo hi) := by
  refine Runs.bind steps_get.runs fun s _ => ?_
  refine Runs.unless (by simp) fun _ => Runs.unless (by simp) fun hunit => ?_
  cases value with
  | none =>
    cases ty with
    | none => exact runs_reject (by simp)
    | some t =>
      intro s hs hn
      have hrun := runs_declareVariable tok isMutable name (some t) none (hty t rfl)
        (by simpa using hunit) s hs hn
      refine hrun.mono ?_
      rintro a s' ⟨hc, hnext, hs', hkind, hP⟩
      refine ⟨hc, hnext, hs', hkind, fun Γ hΓ => ⟨fun lo hlo => ?_, (hP Γ hΓ).2⟩⟩
      obtain ⟨sym, rfl, hd, -, hhi⟩ := (hP Γ hΓ).1
      exact ⟨s.next, sym, rfl, hd, hhi, hlo⟩
  | some v =>
    have hw : Ty.CompleteOption ty ∨ ty = none := by
      cases ty with
      | none => exact .inr rfl
      | some t => exact .inl (hty t rfl)
    refine Runs.bind (Expr.steps_check hw v (hvalue v rfl)).runs fun p hp => ?_
    refine Runs.bind steps_requireValue.runs fun _ hpu => ?_
    obtain ⟨v', found⟩ := p
    have hfit (t : Ty) (hc : t.Complete) (hu : t ≠ .unit) (ha : found.assignable t = true) :
        Runs Φ env nested
          (do
            let site := Site.ofToken .varDeclaration tok
            let sym ← declare name.name t .variable (!isMutable) (some v').isSome site
            let loops := (← read).loops
            if (some v').isNone then
              modify fun s => { s with late := ⟨sym.id, !isMutable, loops, false⟩ :: s.late }
            return Stmt.decl tok isMutable { name with sym := some sym } ty (some v'))
          (fun s Γ => s.extend Γ) (fun _ => True)
          (fun s Γ mid hi => ∀ n, n = mid → ∀ lo, v'.Typed Φ env.routine Γ lo n found → ∀ lo',
            lo' = lo → s.Typed Φ env.routine env.result env.inLoop Γ lo' hi) := by
      intro s hs hn
      refine (runs_declareVariable tok isMutable name ty (some v') hc hu s hs hn).mono ?_
      rintro a s' ⟨hc, hnext, hs', hkind, hP⟩
      refine ⟨hc, hnext, hs', hkind, fun Γ hΓ => ⟨?_, (hP Γ hΓ).2⟩⟩
      rintro n rfl lo hv lo' rfl
      obtain ⟨sym, rfl, hd, rfl, hhi⟩ := (hP Γ hΓ).1
      exact ⟨s.next, sym, rfl, hd, hhi, found, hv, ha, hpu⟩
    cases ty with
    | none => exact hfit found hp hpu (Ty.assignable_self _)
    | some want =>
      refine Runs.unless (by simp) fun ha => ?_
      exact hfit want (hty want rfl) (by simpa using hunit) (by simpa using ha)

theorem runs_checkAssign {tok : Token} {target : Target} {value : Expr} (ht : target.WellFormed)
    (hv : value.WellFormed) :
    Runs Φ env nested (checkAssign tok target value) (fun s Γ => s.extend Γ) (fun _ => True)
      (fun s Γ lo hi => s.Typed Φ env.routine env.result env.inLoop Γ lo hi) := by
  cases target with
  | name id =>
    refine Runs.bind (steps_checkWritable id true).runs fun sym hsym => ?_
    refine Runs.bind (Expr.steps_check (w := some sym.ty) (.inl hsym.1) value hv).runs
      fun p hp => ?_
    refine Runs.bind steps_requireValue.runs fun _ hpu => Runs.unless (by simp) fun ha => ?_
    refine Runs.bind (runs_noteLate _) fun _ _ => ?_
    refine .pure trivial (fun Γ hi n hn m hm mid hvalue lo hlo => ?_) fun _ => rfl
    obtain ⟨rfl, hmem⟩ := hlo
    obtain rfl := hm
    obtain rfl := hn
    exact ⟨sym.ty, ⟨sym, hmem, rfl, rfl, rfl⟩, p.2, hvalue, by simpa using ha, hpu⟩
  | element m base index =>
    refine Runs.bind (Target.steps_check (.element m base index) ht).runs fun p hp => ?_
    obtain ⟨target', want⟩ := p
    refine Runs.bind (Expr.steps_check (w := some want) (.inl hp.1) value hv).runs
      fun q _ => ?_
    refine Runs.bind steps_requireValue.runs fun _ hqu => Runs.unless (by simp) fun ha => ?_
    refine .pure trivial (fun Γ hi n hn mid hvalue lo htarget => ?_) fun _ => rfl
    obtain rfl := hn
    cases target' with
    | name id => exact absurd rfl (hp.2 (by simp) id)
    | element m' base' index' =>
      obtain ⟨-, kind, s, rfl, hbase, hindex⟩ := htarget
      exact ⟨kind, s, mid, hbase, hindex, q.2, hvalue, by simpa using ha, hqu⟩

theorem runs_checkCompound {tok : Token} {target : Target} {op : String} {value : Expr}
    (hop : (ArithOp.ofText? (compoundOperator op)).isSome = true) (ht : target.WellFormed)
    (hv : value.WellFormed) :
    Runs Φ env nested (checkCompound tok target op value) (fun s Γ => s.extend Γ) (fun _ => True)
      (fun s Γ lo hi => s.Typed Φ env.routine env.result env.inLoop Γ lo hi) := by
  refine Runs.bind (Target.steps_checkInt target ht).runs fun p hp => ?_
  have hint : Ty.Complete .int := by simp [Ty.Complete]
  refine Runs.bind (Expr.steps_check (w := some p.2) (.inl (hp ▸ hint)) value hv).runs
    fun q _ => ?_
  refine Runs.unless (by simp) fun hq => ?_
  refine .pure trivial (fun Γ hi mid hvalue lo htarget => ?_) fun _ => rfl
  have hq : q.2 = .int := by simpa using hq
  exact ⟨hop, mid, htarget, hq ▸ hvalue⟩

theorem steps_checkHeader {header : Header} (h : header.WellFormed) :
    Steps Φ env header.check (fun p => p.2.Complete ∧ p.2 ≠ .unit)
      fun p Γ lo hi => p.1.Typed Φ env.routine Γ lo hi p.2 := by
  cases header with
  | range rg =>
    obtain ⟨m, first, last, step⟩ := rg
    refine (steps_checkBound _ h.1).bind fun first' _ => ?_
    refine (steps_checkBound _ h.2.1).bind fun last' _ => ?_
    cases step with
    | none =>
      refine .pure ⟨by simp [Ty.Complete], by simp⟩ fun Γ hi mid hl lo hf => ?_
      exact ⟨rfl, mid, hi, hf, hl, rfl⟩
    | some e =>
      refine (steps_checkBound _ (h.2.2 e rfl)).bind fun e' _ => ?_
      have hdone (hpos : ∀ m n, e' = .int m n → 0 < n) : Steps Φ env
          (pure (Header.range (.mk { m with ty := some .int } first' last' (some e')), Ty.int))
          (fun p => p.2.Complete ∧ p.2 ≠ .unit) fun p Γ hi hi' => ∀ b,
            e'.Typed Φ env.routine Γ b hi .int → ∀ a, last'.Typed Φ env.routine Γ a b .int →
              ∀ lo, first'.Typed Φ env.routine Γ lo a .int →
                p.1.Typed Φ env.routine Γ lo hi' p.2 := by
        refine .pure ⟨by simp [Ty.Complete], by simp⟩ fun Γ hi b he a hl lo hf => ?_
        exact ⟨rfl, a, b, hf, hl, he, hpos⟩
      cases e' with
      | int m' n =>
        refine Steps.unless (by simp) fun hn => hdone ?_
        rintro _ _ ⟨⟩
        exact Int32.not_le.mp hn
      | _ => exact hdone (by simp)
  | each e =>
    refine (Expr.steps_check (.inr rfl) e h).bind fun p hp => ?_
    obtain ⟨e', t⟩ := p
    dsimp only at hp ⊢
    cases hs : t.element? with
    | none => exact steps_reject (by simp)
    | some s =>
      have hse := hp.of_element? hs
      refine .pure ⟨by simpa [Ty.Complete] using hse.2, by simpa using hse.1⟩ fun Γ hi lo he => ?_
      obtain ⟨kind, rfl⟩ := Ty.of_element? hs
      exact ⟨kind, s, hse, rfl, he⟩

theorem runs_checkReturn (henv : env.Plain) {tok : Token} {value : Option Expr}
    (hv : Expr.WellFormedOption value) :
    Runs Φ env nested (checkReturn tok value) (fun s Γ => s.extend Γ) (fun _ => True)
      (fun s Γ lo hi => s.Typed Φ env.routine env.result env.inLoop Γ lo hi) := by
  refine Runs.bind steps_read.runs fun env' he => ?_
  subst he
  cases hf : env'.enclosing with
  | none =>
    have hres : env'.result = .unit := by simp [Env.result, hf]
    cases value with
    | none => exact .pure trivial (fun Γ n lo hlo => ⟨hres, hlo⟩) fun _ => rfl
    | some v => exact runs_reject (by simp)
  | some f =>
    have hres : env'.result = f.result := by simp [Env.result, hf]
    cases value with
    | none =>
      refine Runs.ite (fun hu => ?_) fun _ => runs_reject (by simp)
      exact .pure trivial (fun Γ n lo hlo => ⟨hres.trans hu, hlo⟩) fun _ => rfl
    | some v =>
      refine Runs.unless (by simp) fun hu => ?_
      have hc := henv.complete f hf
      refine Runs.bind (Expr.steps_check (w := some f.result) (.inl hc) v (hv v rfl)).runs
        fun p _ => Runs.unless (by simp) fun ha => ?_
      have ha : p.2.assignable f.result = true := by simpa using ha
      refine .pure trivial (fun Γ hi mid he lo hlo => ?_) fun _ => rfl
      refine ⟨by rw [hres]; exact hu, p.2, hlo ▸ he, by rw [hres]; exact ha, ?_⟩
      rintro hpu
      rw [hpu] at ha
      simp [Ty.assignable] at ha
      exact hu ha.symm

theorem runs_checkJump {word : String} {tok : Token} {s : Stmt}
    (h : ∀ Γ n, env.inLoop = true → s.Typed Φ env.routine env.result env.inLoop Γ n n)
    (hext : ∀ Γ, s.extend Γ = Γ) :
    Runs Φ env nested (checkJump word tok s) (fun s Γ => s.extend Γ) (fun _ => True)
      (fun s Γ lo hi => s.Typed Φ env.routine env.result env.inLoop Γ lo hi) := by
  refine Runs.bind steps_read.runs fun env' he => ?_
  subst he
  refine Runs.unless (by simp) fun hl => ?_
  refine .pure trivial (fun Γ n lo hlo => ?_) hext
  obtain rfl := hlo
  exact h Γ lo (by simpa [Env.inLoop] using hl)

/-! ## Statements that hold others -/

/-- What checking a list of statements comes to, after those in `acc`. -/
def ChecksList (Φ : Signatures) (env : Env) (ss : List Stmt) : Prop :=
  ∀ acc s, Sound Φ env s → ¬ AtTop env s →
    Ends (Stmt.checkList acc ss) env s IsTypeFault fun r s' =>
      s.next ≤ s'.next ∧ Sound Φ env s' ∧ ∃ ss', r = acc.reverse ++ ss' ∧
        ∀ Γ, (∀ v ∈ s.scopes.vars, v ∈ Γ) →
          Stmt.ListTyped Φ env.routine env.result env.inLoop Γ s.next s'.next ss'

theorem ChecksList.cons {st : Stmt} {ss : List Stmt}
    (hst : Runs Φ env true st.check (fun s Γ => s.extend Γ) (fun _ => True)
      fun s Γ lo hi => s.Typed Φ env.routine env.result env.inLoop Γ lo hi)
    (hss : ChecksList Φ env ss) : ChecksList Φ env (st :: ss) := by
  intro acc s hs hn
  unfold Stmt.checkList
  rw [ends_bind]
  refine (hst s hs fun _ => hn).mono ?_
  rintro st' s₁ ⟨-, hnext, hs₁, hkind, hP⟩
  have hn₁ : ¬ AtTop env s₁ := fun htop => hn ⟨htop.1, hkind ▸ htop.2⟩
  refine (hss (st' :: acc) s₁ hs₁ hn₁).mono ?_
  rintro r s₂ ⟨hnext', hs₂, ss', rfl, hlist⟩
  refine ⟨Nat.le_trans hnext hnext', hs₂, st' :: ss', by simp, fun Γ hΓ => ?_⟩
  exact ⟨s₁.next, (hP Γ hΓ).1, hlist _ (hP Γ hΓ).2⟩

theorem runs_checkBlock (hd : env.depth = 0) {tok close : Token} {ss : List Stmt}
    (h : ChecksList Φ env ss) :
    Runs Φ env nested (Block.check (.mk tok ss close)) (fun _ Γ => Γ) (fun _ => True)
      fun b Γ lo hi => b.Typed Φ env.routine env.result env.inLoop Γ lo hi := by
  have hlist : Runs Φ env nested (inScope .block (Stmt.checkList [] ss)) (fun _ Γ => Γ)
      (fun _ => True)
      fun ss' Γ lo hi => Stmt.ListTyped Φ env.routine env.result env.inLoop Γ lo hi ss' := by
    intro s hs _
    unfold inScope
    simp only [ends_bind, ends_modify, ends_get, ends_pure]
    refine (h [] _ (hs.enter .block) fun htop => by simp [AtTop, Scopes.enter] at htop).mono ?_
    rintro r s' ⟨hnext, hs', ss', rfl, hP⟩
    refine ⟨trivial, hnext, hs.leave hd hs' hnext, trivial, fun Γ hΓ => ⟨?_, hΓ⟩⟩
    exact hP Γ (by simpa using hΓ)
  exact Runs.bind hlist fun ss' _ => .pure trivial (fun _ _ _ h => h) fun _ => rfl

/-- The environment inside a loop. -/
def Typing.Env.looped (env : Env) : Env := { env with loops := env.loops + 1 }

theorem runs_inLoop {α : Type} {x : Check α} {ext : α → List Symbol → List Symbol} {C : α → Prop}
    {P : α → List Symbol → Nat → Nat → Prop} (h : Runs Φ env.looped nested x ext C P) :
    Runs Φ env nested (inLoop x) ext C P := by
  intro s hs hn
  unfold inLoop
  rw [ends_withReader]
  have hs₁ : Sound Φ env.looped s := ⟨hs.context, hs.depth, hs.functions, hs.captured⟩
  refine (h s hs₁ hn).mono ?_
  rintro a s' ⟨ha, hnext, hs', hkind, hP⟩
  exact ⟨ha, hnext, ⟨hs'.context, hs'.depth, hs'.functions, hs'.captured⟩, hkind, hP⟩

theorem runs_forLoop (hd : env.depth = 0) {tok : Token} {x : Ident} {header : Header} {t : Ty}
    {body : Block} (hc : t.Complete) (hu : t ≠ .unit)
    (hbody : Runs Φ env.looped true body.check (fun _ Γ => Γ) (fun _ => True)
      fun b Γ lo hi => b.Typed Φ env.routine env.result true Γ lo hi) :
    Runs Φ env nested
      (inScope .block do
        let sym ← declare x.name t .variable true true (.ofToken .forLoop tok)
        let body ← inLoop body.check
        return Stmt.forLoop tok { x with sym := some sym } header body)
      (fun s Γ => s.extend Γ) (fun _ => True)
      (fun s Γ mid hi => ∀ lo, header.Typed Φ env.routine Γ lo mid t →
        s.Typed Φ env.routine env.result env.inLoop Γ lo hi) := by
  intro s hs _
  unfold inScope
  simp only [ends_bind, ends_modify, ends_get, ends_pure]
  refine (ends_declare (hs.enter .block) (by decide) hc hu).mono ?_
  rintro sym s₂ ⟨hdecl, hty, -, hs₂eq, hs₂⟩
  have hn₂ : ¬ AtTop env s₂ := by
    rw [hs₂eq]
    intro htop
    simp [AtTop, Scopes.enter, Scopes.define] at htop
  refine (runs_inLoop hbody s₂ hs₂ fun _ => hn₂).mono ?_
  rintro body' s₃ ⟨-, hnext, hs₃, -, hP⟩
  have hnext₂ : s₂.next = s.next + 1 := by rw [hs₂eq]
  refine ⟨trivial, by omega, hs.leave hd hs₃ (by omega), trivial,
    fun Γ hΓ => ⟨fun lo hh => ?_, hΓ⟩⟩
  have hvars : ∀ v ∈ s₂.scopes.vars, v ∈ sym :: Γ := by
    rw [hs₂eq]
    change ∀ v ∈ ((s.scopes.enter .block).define sym).vars, _
    rw [Scopes.vars_define hdecl.plain, Scopes.vars_enter]
    intro v hv
    rcases List.mem_cons.mp hv with rfl | hv
    · exact List.mem_cons_self
    · exact List.mem_cons_of_mem _ (hΓ v hv)
  have hb := (hP (sym :: Γ) hvars).1
  rw [hnext₂] at hb
  subst hty
  exact ⟨s.next, sym, rfl, hdecl, hh, hb⟩

mutual

/-- What comes out of checking a statement is well-typed. -/
theorem Stmt.runs_check {env : Env} (henv : env.Plain) {n : Bool} : (st : Stmt) →
    st.WellFormed → (n = true ∨ ∀ f, st ≠ .function f) →
    Runs Φ env n st.check (fun s Γ => s.extend Γ) (fun _ => True)
      fun s Γ lo hi => s.Typed Φ env.routine env.result env.inLoop Γ lo hi
  | .decl tok isMutable name ty value, h, _ => runs_checkDecl h.1 h.2
  | .assign tok target value, h, _ => runs_checkAssign h.1 h.2
  | .compound tok target op value, h, _ => runs_checkCompound h.1 h.2.1 h.2.2
  | .selfOp tok e, h, _ => by
    refine Runs.bind (IncDec.steps_check e h).runs fun p _ => ?_
    exact .pure trivial (fun _ _ _ he => he) fun _ => rfl
  | .print tok newline none, _, _ => .pure trivial (fun _ _ => rfl) fun _ => rfl
  | .print tok newline (some v), h, _ => by
    refine Runs.bind (Expr.steps_check (.inr rfl) v (h v rfl)).runs fun p _ => ?_
    refine Runs.unless (by simp) fun hp => ?_
    exact .pure trivial (fun _ _ _ he => ⟨p.2, he, by simpa using hp⟩) fun _ => rfl
  | .ifElse tok cond a b, h, _ => by
    refine Runs.bind (steps_checkCondition _ h.1).runs fun cond' _ => ?_
    refine Runs.bind steps_get.runs fun s₁ _ => ?_
    refine Runs.bind (Block.runs_check henv a h.2.1) fun a' _ => ?_
    refine Runs.bind steps_get.runs fun s₂ _ => ?_
    refine Runs.bind (runs_noteLate _) fun _ _ => ?_
    refine Runs.bind (Block.runs_checkOption henv b h.2.2) fun b' _ => ?_
    refine Runs.bind (runs_noteLate _) fun _ _ => ?_
    refine .pure trivial (fun Γ hi n hn m hb m' hm n' hn' k hk l hl lo hc => ?_) fun _ => rfl
    subst hn hm hn' hl
    exact ⟨_, _, hc, hk, hb⟩
  | .whileLoop tok cond body, h, _ => by
    refine Runs.bind (steps_checkCondition _ h.1).runs fun cond' _ => ?_
    have henv' : env.looped.Plain := ⟨henv.depth, henv.complete⟩
    refine Runs.bind (runs_inLoop (Block.runs_check henv' body h.2)) fun body' _ => ?_
    exact .pure trivial (fun Γ hi mid hb lo hc => ⟨mid, hc, hb⟩) fun _ => rfl
  | .forLoop tok x header body, h, _ => by
    refine Runs.bind (steps_checkHeader h.1).runs fun p hp => ?_
    have henv' : env.looped.Plain := ⟨henv.depth, henv.complete⟩
    exact runs_forLoop henv.depth hp.1 hp.2 (Block.runs_check henv' body h.2)
  | .function f, _, hn => by
    obtain ⟨tok, name, params, result, ⟨brace, ss, close⟩⟩ := f
    have hnested : n = true := hn.resolve_right fun hf => hf _ rfl
    intro s hs hs'
    have htop := hs' hnested
    simp only [Stmt.check, FunDecl.check, ends_bind, ends_read]
    cases hfind : env.functions.find? name.name with
    | none => exact isTypeFault_of_ne (by simp)
    | some sym =>
      dsimp only
      rw [ends_bind, ends_get, if_pos]
      · exact isTypeFault_of_ne (by simp)
      · cases he : env.enclosing.isSome with
        | true => simp
        | false =>
          have hk : s.scopes.inner.kind ≠ .script := fun hk => htop ⟨he, hk⟩
          simp [hk]
  | .call tok c, h, _ => by
    refine Runs.bind (Call.steps_check c h).runs fun p _ => ?_
    exact .pure trivial (fun _ _ _ hc => ⟨p.2, hc⟩) fun _ => rfl
  | .ret tok value, h, _ => runs_checkReturn henv h
  | .brk tok, _, _ => runs_checkJump (fun _ _ hl => ⟨hl, rfl⟩) fun _ => rfl
  | .cont tok, _, _ => runs_checkJump (fun _ _ hl => ⟨hl, rfl⟩) fun _ => rfl
  | .block b, h, _ => by
    refine Runs.bind (Block.runs_check henv b h) fun b' _ => ?_
    exact .pure trivial (fun _ _ _ hb => hb) fun _ => rfl

theorem Stmt.checksList {env : Env} (henv : env.Plain) : (ss : List Stmt) →
    Stmt.AllWellFormed ss → ChecksList Φ env ss
  | [], _ => fun acc s hs _ => ⟨Nat.le_refl _, hs, [], by simp, fun _ _ => rfl⟩
  | st :: ss, h =>
    .cons (Stmt.runs_check henv st h.1 (.inl rfl)) (Stmt.checksList henv ss h.2)

theorem Block.runs_check {env : Env} (henv : env.Plain) {nested : Bool} : (b : Block) →
    b.WellFormed →
    Runs Φ env nested b.check (fun _ Γ => Γ) (fun _ => True)
      fun b' Γ lo hi => b'.Typed Φ env.routine env.result env.inLoop Γ lo hi
  | .mk _ ss _, h => runs_checkBlock henv.depth (Stmt.checksList henv ss h)

theorem Block.runs_checkOption {env : Env} (henv : env.Plain) {nested : Bool} :
    (b : Option Block) → Block.WellFormedOption b →
    Runs Φ env nested (Block.checkOption b) (fun _ Γ => Γ) (fun _ => True)
      fun b' Γ lo hi => Block.TypedOption Φ env.routine env.result env.inLoop Γ lo hi b'
  | none, _ => .pure trivial (fun _ _ => rfl) fun _ => rfl
  | some b, h => by
    refine Runs.bind (Block.runs_check henv b h) fun b' _ => ?_
    exact .pure trivial (fun _ _ _ hb => hb) fun _ => rfl

end

/-! ## Functions -/

/-- A scope that holds functions only, each with the type that is known of it. -/
def FunctionScope (Φ : Signatures) (scope : Scope) : Prop :=
  ∀ sym ∈ scope.declared, sym.isFunction = true ∧ Φ sym.name = some sym.ty ∧
    ∃ params result, sym.ty = .fn params (some result) ∧ sym.ty.Complete

theorem FunctionScope.symbols (kind : ScopeKind) (functions : Scope) :
    Scopes.symbols ⟨⟨kind, []⟩, [functions]⟩ = functions.declared := by
  simp [Scopes.symbols]

theorem FunctionScope.vars {functions : Scope} (hf : FunctionScope Φ functions)
    (kind : ScopeKind) : Scopes.vars ⟨⟨kind, []⟩, [functions]⟩ = [] := by
  rw [Scopes.vars, FunctionScope.symbols, List.filter_eq_nil_iff]
  intro x hx
  simp [(hf x hx).1]

/-- What is around the body of a function. -/
def Typing.Env.inFunction (env : Env) (sym : Symbol) (tok : Token) (result : Ty) : Env :=
  { env with
    routine := sym.id.routine, enclosing := some ⟨sym.name, result⟩,
    owner := .ofToken .function tok, depth := 0, loops := 0 }

theorem Typing.Sound.enterFunction {s : State} {functions : Scope} (hf : FunctionScope Φ functions)
    (hd : env.depth = 0) (hs : Sound Φ env s) (sym : Symbol) (tok : Token) (result : Ty) :
    Sound Φ (env.inFunction sym tok result)
      { s with scopes := ⟨⟨.function, []⟩, [functions]⟩, next := 1 } := by
  refine ⟨?_, ?_, ?_, ?_⟩
  · change Context _ _ (Scopes.vars ⟨⟨.function, []⟩, [functions]⟩)
    rw [hf.vars]
    exact Context.nil _ _
  · change ∀ x ∈ Scopes.vars ⟨⟨.function, []⟩, [functions]⟩, _
    simp [hf.vars]
  · change ∀ x ∈ Scopes.symbols ⟨⟨.function, []⟩, [functions]⟩, _
    rw [FunctionScope.symbols]
    exact fun x hx _ => (hf x hx).2
  · have hcap := hs.captured
    rw [hd] at hcap
    exact hcap.mono fun _ _ h => absurd h (Nat.not_lt_zero _)

theorem paramTypes_congr {ps qs : List Param} (h : ps.map Param.ty = qs.map Param.ty) :
    (ps.map fun p => p.ty.getD .unit) = qs.map fun p => p.ty.getD .unit := by
  have := congrArg (List.map fun o : Option Ty => o.getD .unit) h
  simpa [Function.comp_def] using this

theorem ends_checkFunction {s : State} (hd : env.depth = 0) (hf : FunctionScope Φ env.functions)
    (hs : Sound Φ env s) {f : FunDecl} (hw : f.WellFormed) (hu : unitParam? f.params = none) :
    Ends f.check env s IsTypeFault fun f' s' =>
      (∃ r, f'.Typed Φ r) ∧ f'.name.name = f.name.name ∧ f'.signature = f.signature ∧
        Sound Φ env s' ∧ s'.scopes = s.scopes ∧ s'.next = s.next := by
  obtain ⟨tok, name, params, result, ⟨brace, ss, close⟩⟩ := f
  obtain ⟨hword, hparams, hresult, hbody⟩ := hw
  simp only [FunDecl.check, ends_bind, ends_read]
  cases hfind : env.functions.find? name.name with
  | none => exact isTypeFault_of_ne (by simp)
  | some sym =>
    dsimp only
    rw [ends_bind, ends_get, ends_ite]
    refine ⟨fun _ => isTypeFault_of_ne (by simp), fun _ => ?_⟩
    unfold inFunction
    simp only [ends_bind, ends_get, ends_read, ends_set, ends_withReader, ends_modify, ends_pure]
    have htypes : ∀ t ∈ params.map fun p => p.ty.getD .unit, t.Complete ∧ t ≠ .unit := by
      intro t ht
      obtain ⟨p, hp, rfl⟩ := List.mem_map.mp ht
      obtain ⟨t, hpt, hc⟩ := hparams p hp
      have hne := List.find?_eq_none.mp hu p hp
      rw [hpt] at hne ⊢
      exact ⟨hc, by simpa using hne⟩
    have henv : (env.inFunction sym tok result).Plain :=
      ⟨rfl, by rintro _ ⟨⟩; exact hresult⟩
    refine (ends_declareParams (hs.enterFunction hf hd sym tok result) (by simp) htypes).mono ?_
    rintro ps' s₁ ⟨syms, hps, htys, hpty, -, hnext, -, hvars, -, hs₁⟩
    have hn₁ : ¬ AtTop (env.inFunction sym tok result) s₁ := fun htop => by
      simp [AtTop, Env.inFunction] at htop
    refine (Stmt.checksList henv ss hbody [] s₁ hs₁ hn₁).mono ?_
    rintro r s₂ ⟨-, hs₂, ss', rfl, hlist⟩
    rw [ends_ite]
    refine ⟨fun _ => isTypeFault_of_ne (by simp), fun hret => ?_⟩
    have hΓ : ∀ v ∈ s₁.scopes.vars, v ∈ syms := by
      intro v hv
      rcases (hvars v).mp hv with hv | hv
      · exact hv
      · change v ∈ Scopes.vars ⟨⟨.function, []⟩, [env.functions]⟩ at hv
        rw [hf.vars] at hv
        cases hv
    have htyped := hlist syms hΓ
    rw [hnext] at htyped
    refine ⟨⟨sym.id.routine, hword, hresult, ⟨syms, s₂.next, hps, ?_, htyped⟩, fun hne => ?_⟩, rfl,
      ?_, ?_, trivial, trivial⟩
    · change (ps'.map fun p => p.ty.getD .unit) = _
      rw [paramTypes_congr hpty, htys]
    · change result ≠ .unit at hne
      have hreturns : listAlwaysReturns r = true := by simpa [hne] using hret
      exact hreturns
    · simp only [FunDecl.signature, FunDecl.paramTypes, FunDecl.params, FunDecl.result]
      rw [paramTypes_congr hpty]
    · refine ⟨hs.context, hs.depth, hs.functions, ?_⟩
      have hcap := hs₂.captured
      rw [hd]
      exact hcap.mono fun _ _ h => absurd h (Nat.not_lt_zero _)

/-! ## Programs -/

/-- What calls see of a function. -/
def FunDecl.key (f : FunDecl) : String × Ty := (f.name.name, f.signature)

theorem signatures_congr : ∀ {fs gs : List FunDecl}, fs.map FunDecl.key = gs.map FunDecl.key →
    signatures fs = signatures gs
  | [], [], _ => rfl
  | [], _ :: _, h => by simp at h
  | _ :: _, [], h => by simp at h
  | f :: fs, g :: gs, h => by
    simp only [List.map_cons, List.cons.injEq, FunDecl.key, Prod.mk.injEq] at h
    obtain ⟨⟨hname, hsig⟩, hrest⟩ := h
    have ih := signatures_congr hrest
    funext name
    simp only [signatures, List.find?_cons, ← hname]
    cases hn : f.name.name == name with
    | true => simp [hsig]
    | false => exact congrFun ih name

theorem signatures_of_mem {fs : List FunDecl} (hn : (fs.map fun f => f.name.name).Nodup) {f : FunDecl}
    (hf : f ∈ fs) : signatures fs f.name.name = some f.signature := by
  induction fs with
  | nil => cases hf
  | cons g gs ih =>
    obtain ⟨hg, hgs⟩ := List.nodup_cons.mp hn
    unfold signatures
    rw [List.find?_cons]
    rcases List.mem_cons.mp hf with rfl | hf
    · simp
    · have hne : (g.name.name == f.name.name) = false := by
        rw [beq_eq_false_iff_ne]
        exact fun h => hg (List.mem_map.mpr ⟨f, hf, h.symm⟩)
      rw [hne]
      exact ih hgs hf

/-- What declaring functions comes to: they have names of their own, none of them has a parameter
without values, and each gets a symbol. -/
theorem declareFunctions_spec : ∀ (fs : List FunDecl) (routine : Nat) (scope : Scope),
    (∀ d, declareFunctions routine scope fs = .error d → IsTypeFault d) ∧
    ∀ scope', declareFunctions routine scope fs = .ok scope' →
      (fs.map fun f => f.name.name).Nodup ∧ (∀ f ∈ fs, unitParam? f.params = none) ∧
        (∀ f ∈ fs, ∀ sym ∈ scope.declared, sym.name ≠ f.name.name) ∧
        ∀ sym ∈ scope'.declared, sym ∈ scope.declared ∨
          sym.isFunction = true ∧ ∃ f ∈ fs, sym.name = f.name.name ∧ sym.ty = f.signature
  | [], _, _ => ⟨by simp [declareFunctions], by
    rintro scope' ⟨⟩
    exact ⟨by simp, by simp, by simp, fun _ h => .inl h⟩⟩
  | f :: fs, routine, scope => by
    unfold declareFunctions
    dsimp only
    cases hfind : scope.find? f.name.name with
    | some sym =>
      refine ⟨fun d hd => ?_, by simp⟩
      cases hd
      exact isTypeFault_of_ne (by simp)
    | none =>
      cases hunit : unitParam? f.params with
      | some p =>
        refine ⟨fun d hd => ?_, by simp⟩
        cases hd
        exact isTypeFault_of_ne (by simp)
      | none =>
        have hfresh : ∀ sym ∈ scope.declared, sym.name ≠ f.name.name := fun sym hsym => by
          simpa using List.find?_eq_none.mp hfind sym hsym
        obtain ⟨herr, hok⟩ := declareFunctions_spec fs (routine + 1)
          { scope with declared :=
            ⟨⟨routine, 0⟩, f.name.name, f.signature, .function, true, true, 0, none,
              some (.ofToken .function f.tok)⟩ :: scope.declared }
        refine ⟨by simpa using herr, fun scope' hscope => ?_⟩
        obtain ⟨hnodup, hunits, hnew, hmem⟩ := hok scope' (by simpa using hscope)
        refine ⟨?_, ?_, ?_, ?_⟩
        · refine List.nodup_cons.mpr ⟨fun h => ?_, hnodup⟩
          obtain ⟨g, hg, hname⟩ := List.mem_map.mp h
          exact hnew g hg _ List.mem_cons_self hname.symm
        · simpa [hunit] using hunits
        · intro g hg sym hsym
          rcases List.mem_cons.mp hg with rfl | hg
          · exact hfresh sym hsym
          · exact hnew g hg sym (List.mem_cons_of_mem _ hsym)
        · intro sym hsym
          rcases hmem sym hsym with h | ⟨hf, g, hg, h⟩
          · rcases List.mem_cons.mp h with rfl | h
            · exact .inr ⟨rfl, f, List.mem_cons_self, rfl, rfl⟩
            · exact .inl h
          · exact .inr ⟨hf, g, List.mem_cons_of_mem _ hg, h⟩

/-- What the checker promises of the statements of a program. -/
structure TopTyped (Φ : Signatures) (s s' : State) (ss ss' : List Stmt) : Prop where
  keys : (functionsOf ss').map FunDecl.key = (functionsOf ss).map FunDecl.key
  routines : ∀ f ∈ functionsOf ss', ∃ r, f.Typed Φ r
  script : ∀ Γ, (∀ v ∈ s.scopes.vars, v ∈ Γ) →
    Stmt.ListTyped Φ 0 .unit false Γ s.next s'.next (scriptOf ss')

theorem functionsOf_cons (st : Stmt) (ss : List Stmt) :
    functionsOf (st :: ss) = (match st with | .function f => [f] | _ => []) ++ functionsOf ss := by
  cases st <;> rfl

theorem scriptOf_cons_of_ne {st : Stmt} (h : ∀ f, st ≠ .function f) (ss : List Stmt) :
    scriptOf (st :: ss) = st :: scriptOf ss := by
  cases st with
  | function f => exact absurd rfl (h f)
  | _ => rfl

/-- A statement that declares no function stays one. -/
theorem Stmt.Typed.ne_function {r : Nat} {result : Ty} {inLoop : Bool} {Γ : List Symbol}
    {lo hi : Nat} {st : Stmt} (h : st.Typed Φ r result inLoop Γ lo hi) : ∀ f, st ≠ .function f := by
  rintro f rfl
  exact h

theorem ends_checkTop (hr : env.routine = 0) (hd : env.depth = 0) (hl : env.loops = 0)
    (he : env.enclosing = none) (hf : FunctionScope Φ env.functions) :
    ∀ (ss acc : List Stmt) (s : State), Stmt.AllWellFormed ss →
    (∀ f ∈ functionsOf ss, unitParam? f.params = none) → Sound Φ env s →
    Ends (Stmt.checkList acc ss) env s IsTypeFault fun r s' => ∃ ss', r = acc.reverse ++ ss' ∧
      TopTyped Φ s s' ss ss'
  | [], acc, s, _, _, _ => ⟨[], by simp, rfl, by simp [functionsOf], fun _ _ => rfl⟩
  | st :: ss, acc, s, hw, hu, hs => by
    have henv : env.Plain := ⟨hd, by simp [he]⟩
    unfold Stmt.checkList
    rw [ends_bind]
    have hus : ∀ f ∈ functionsOf ss, unitParam? f.params = none := fun f hm =>
      hu f (by rw [functionsOf_cons]; exact List.mem_append_right _ hm)
    by_cases hfun : ∃ f, st = .function f
    · obtain ⟨f, rfl⟩ := hfun
      unfold Stmt.check
      simp only [ends_bind, ends_pure]
      have huf := hu f (by rw [functionsOf_cons]; exact List.mem_append_left _ (by simp))
      refine (ends_checkFunction hd hf hs hw.1 huf).mono ?_
      rintro f' s₁ ⟨htyped, hname, hsig, hs₁, hscopes, hnext⟩
      refine (ends_checkTop hr hd hl he hf ss (.function f' :: acc) s₁ hw.2 hus hs₁).mono ?_
      rintro r s₂ ⟨ss', rfl, htop⟩
      refine ⟨.function f' :: ss', by simp, ?_, ?_, fun Γ hΓ => ?_⟩
      · rw [functionsOf_cons, functionsOf_cons]
        simp [FunDecl.key, hname, hsig, htop.keys]
      · rw [functionsOf_cons]
        intro g hg
        rcases List.mem_cons.mp hg with rfl | hg
        · exact htyped
        · exact htop.routines g hg
      · have := htop.script Γ (by rw [hscopes]; exact hΓ)
        rwa [hnext] at this
    · have hne : ∀ f, st ≠ .function f := fun f h => hfun ⟨f, h⟩
      refine (Stmt.runs_check (n := false) henv st hw.1 (.inr hne) s hs (by simp)).mono ?_
      rintro st' s₁ ⟨-, hnext, hs₁, -, hP⟩
      refine (ends_checkTop hr hd hl he hf ss (st' :: acc) s₁ hw.2 hus hs₁).mono ?_
      rintro r s₂ ⟨ss', rfl, htop⟩
      have hne' : ∀ f, st' ≠ .function f := (hP s.scopes.vars fun _ h => h).1.ne_function
      have hnone : ∀ {x : Stmt}, (∀ f, x ≠ .function f) →
          (match x with | .function f => [f] | _ => []) = ([] : List FunDecl) := by
        intro x hx
        cases x with
        | function f => exact absurd rfl (hx f)
        | _ => rfl
      refine ⟨st' :: ss', by simp, ?_, ?_, fun Γ hΓ => ?_⟩
      · rw [functionsOf_cons, functionsOf_cons, hnone hne, hnone hne']
        exact htop.keys
      · rw [functionsOf_cons, hnone hne']
        exact htop.routines
      · rw [scriptOf_cons_of_ne hne']
        have hst := (hP Γ hΓ).1
        rw [hr, Env.result, he, Env.inLoop, hl] at hst
        exact ⟨s₁.next, hst, htop.script _ (hP Γ hΓ).2⟩

end Check

theorem FunDecl.complete_signature {f : FunDecl} (h : f.WellFormed) : f.signature.Complete := by
  obtain ⟨tok, name, params, result, body⟩ := f
  obtain ⟨-, hparams, hresult, -⟩ := h
  refine ⟨Ty.allComplete_iff.mpr fun t ht => ?_, hresult⟩
  obtain ⟨p, hp, rfl⟩ := List.mem_map.mp ht
  obtain ⟨t, hpt, hc⟩ := hparams p hp
  rw [hpt]
  exact hc

theorem Program.WellFormed.function {p : Program} (h : p.WellFormed) {f : FunDecl}
    (hf : f ∈ p.functions) : f.WellFormed := by
  obtain ⟨st, hst, hfun⟩ := List.mem_filterMap.mp hf
  have hw := Stmt.allWellFormed_iff.mp h st hst
  cases st with
  | function g => cases hfun; exact hw
  | _ => cases hfun

/-- The functions of a program once they are declared. -/
theorem functionScope_of_declareFunctions {fs : List FunDecl} (hw : ∀ f ∈ fs, f.WellFormed)
    {functions : Scope} (h : declareFunctions 1 ⟨.functions, []⟩ fs = .ok functions) :
    FunctionScope (signatures fs) functions := by
  obtain ⟨hnodup, -, -, hsyms⟩ := (declareFunctions_spec fs 1 ⟨.functions, []⟩).2 functions h
  intro sym hsym
  obtain ⟨hfun, f, hf, hname, hty⟩ := (hsyms sym hsym).resolve_left (by simp)
  rw [hname, hty]
  exact ⟨hfun, signatures_of_mem hnodup hf, _, _, rfl, FunDecl.complete_signature (hw f hf)⟩

/-- At the start of a program there are functions and no variables. -/
theorem FunctionScope.sound {Φ : Signatures} {functions : Scope} (h : FunctionScope Φ functions) :
    Sound Φ ⟨functions, 0, none, .program, 0, 0⟩ ⟨⟨⟨.script, []⟩, [functions]⟩, 0, [], []⟩ := by
  have hvars := h.vars .script
  refine ⟨?_, ?_, ?_, trivial⟩
  · rw [hvars]
    exact Context.nil _ _
  · simp [hvars]
  · rw [FunctionScope.symbols]
    exact fun sym hsym _ => (h sym hsym).2

/-- The checker accepts a program if its functions have different names and all of its statements are
accepted. -/
theorem Program.check_eq_ok {p : Program} {c : Checked} (h : p.check = .ok c) : ∃ functions stmts s,
    declareFunctions 1 ⟨.functions, []⟩ p.functions = .ok functions ∧
      Stmt.checkList [] p.stmts ⟨functions, 0, none, .program, 0, 0⟩
        ⟨⟨⟨.script, []⟩, [functions]⟩, 0, [], []⟩ = .ok (stmts, s) ∧
      c = ⟨{ p with stmts := stmts }, functionsOf stmts, s.late⟩ := by
  unfold Program.check at h
  cases hdecl : declareFunctions 1 ⟨.functions, []⟩ p.functions with
  | error d =>
    rw [hdecl] at h
    cases h
  | ok functions =>
    cases hlist : Stmt.checkList [] p.stmts ⟨functions, 0, none, .program, 0, 0⟩
        ⟨⟨⟨.script, []⟩, [functions]⟩, 0, [], []⟩ with
    | error d => simp [hdecl, bind, Except.bind, hlist] at h
    | ok res =>
      obtain ⟨stmts, s⟩ := res
      simp only [hdecl, bind, Except.bind, hlist, pure, Except.pure, Except.ok.injEq] at h
      exact ⟨functions, stmts, s, rfl, hlist, h.symm⟩

/-- A program that the checker accepts is well-typed, and the checker rejects a program only with
diagnostics of its own. -/
theorem Program.check_typed {p : Program} (hw : p.WellFormed) :
    (∀ c, p.check = .ok c → c.Typed) ∧ ∀ d, p.check = .error d → d.stage = .typecheck := by
  obtain ⟨herr, hok⟩ := declareFunctions_spec p.functions 1 ⟨.functions, []⟩
  have hscope {functions : Scope}
      (hdecl : declareFunctions 1 ⟨.functions, []⟩ p.functions = .ok functions) :=
    functionScope_of_declareFunctions (fun f hf => hw.function hf) hdecl
  have hrun {functions : Scope}
      (hdecl : declareFunctions 1 ⟨.functions, []⟩ p.functions = .ok functions) :=
    ends_checkTop rfl rfl rfl rfl (hscope hdecl) p.stmts [] _ hw (hok functions hdecl).2.1
      (hscope hdecl).sound
  refine ⟨fun c hc => ?_, fun d hd => ?_⟩
  · obtain ⟨functions, stmts, s, hdecl, hlist, rfl⟩ := Program.check_eq_ok hc
    obtain ⟨ss', hss, htop⟩ := (hrun hdecl).of_ok hlist
    obtain rfl : stmts = ss' := by simpa using hss
    have hsig : signatures (functionsOf stmts) = signatures p.functions :=
      signatures_congr htop.keys
    have hnames : ((functionsOf stmts).map fun f => f.name.name).Nodup := by
      have hkeys := congrArg (List.map Prod.fst) htop.keys
      simp only [List.map_map, Function.comp_def, FunDecl.key] at hkeys
      rw [hkeys]
      exact (hok functions hdecl).1
    refine ⟨rfl, hnames, ?_, s.next, ?_⟩
    · change ∀ f ∈ functionsOf stmts, ∃ r, f.Typed (signatures (functionsOf stmts)) r
      rw [hsig]
      exact htop.routines
    · change Stmt.ListTyped (signatures (functionsOf stmts)) 0 .unit false [] 0 s.next _
      rw [hsig]
      exact htop.script [] (by simp [(hscope hdecl).vars .script])
  · unfold Program.check at hd
    cases hdecl : declareFunctions 1 ⟨.functions, []⟩ p.functions with
    | error e =>
      rw [hdecl] at hd
      cases hd
      exact herr _ hdecl
    | ok functions =>
      cases hlist : Stmt.checkList [] p.stmts ⟨functions, 0, none, .program, 0, 0⟩
          ⟨⟨⟨.script, []⟩, [functions]⟩, 0, [], []⟩ with
      | error e =>
        simp only [hdecl, bind, Except.bind, hlist, Except.error.injEq] at hd
        exact hd ▸ (hrun hdecl).of_error hlist
      | ok res => simp [hdecl, bind, Except.bind, hlist, pure, Except.pure] at hd

end Kotlet

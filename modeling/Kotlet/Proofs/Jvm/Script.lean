import Kotlet.Emit.Class
import Kotlet.Proofs.ClassFile.Call.Depth
import Kotlet.Proofs.Emit.Program
import Kotlet.Proofs.Jvm.Loop
import Kotlet.Proofs.Typing.AssignmentCheck

/-!
# The code of a script does what the script says

* `Visible` : what is known of the variables that are there;
* `Stmt.runs`, `Block.runs` : the code of every statement follows the evaluator;
* `runs_scriptMethod`, `allMethods_ok` : the method of the script among the methods of its class;
* `Jvm.Ending.Mirrors` : how a method ends after a run of the evaluator;
* `Checked.OfText.script_follows` : the method of the script prints what the evaluator prints, and
  ends as the evaluator does.
-/

namespace Kotlet

open ClassFile Emit

/-- The variables that are there differ, and are no texts, collections or functions. -/
structure Visible (Γ : List Symbol) : Prop where
  unique : ∀ a ∈ Γ, ∀ b ∈ Γ, a.id = b.id → a = b
  scalar : ∀ sym ∈ Γ, sym.ty.isScalar = true

namespace Visible

variable {Γ Δ : List Symbol} {lo : Nat} {sym : Symbol}

theorem cons (h : Visible Γ) (hfresh : ∀ x ∈ Γ, x.id ≠ sym.id) (hs : sym.ty.isScalar = true) :
    Visible (sym :: Γ) where
  unique a ha b hb heq := by
    rcases List.mem_cons.mp ha with ha' | ha' <;> rcases List.mem_cons.mp hb with hb' | hb'
    · rw [ha', hb']
    · exact absurd (ha' ▸ heq.symm) (hfresh b hb')
    · exact absurd (hb' ▸ heq) (hfresh a ha')
    · exact h.unique a ha' b hb' heq
  scalar x hx := by
    rcases List.mem_cons.mp hx with rfl | hx
    · exact hs
    · exact h.scalar x hx

theorem extend (h : Visible Γ) {s : Stmt} (hs : s.Computes Γ Δ lo) : Visible (s.extend Γ) := by
  cases s with
  | decl tok isMutable name ty value =>
    obtain ⟨sym, hsym, hnew, hty, -⟩ := hs
    simp only [Stmt.extend, hsym]
    exact h.cons hnew.fresh hty
  | _ => exact h

end Visible

theorem Stmt.subset_extend {Γ : List Symbol} (s : Stmt) : ∀ sym ∈ Γ, sym ∈ s.extend Γ := by
  intro sym hs
  cases s with
  | decl => exact List.mem_append_right _ hs
  | _ => exact hs

/-- Only variables are counted up or down. -/
theorem Expr.Computes.of_incDec {Γ V : List Symbol} {t : Ty} {x : IncDec}
    (h : (Expr.incDec x).Computes Γ V t) : ∃ mark sign before id sym,
      x = .mk mark sign before (.name id) ∧ sym ∈ Γ ∧ id.sym = some sym ∧ sym.ty = .int := by
  cases h with
  | incDec hm hs hv hid hty => exact ⟨_, _, _, _, _, rfl, hs, hid, hty⟩

section Statements

variable {F : List FunDecl}

/-- A loop over a range, with its step computed apart. -/
theorem Eval.stmt_range {tok : Token} {x : Ident} {sym : Symbol}
    (hsym : x.sym = some sym) {mark : Mark}
    {first last : Expr} {step : Option Expr} {body : Block} (fuel : Nat) :
    Eval.stmt F (fuel + 1) (.forLoop tok x (.range (.mk mark first last step)) body) = (do
      let a ← Eval.bound (Eval.expr F fuel) first
      let b ← Eval.bound (Eval.expr F fuel) last
      let c ← stepOf F fuel step
      Eval.rangeLoop sym.id b c (Eval.sequence (Eval.stmt F fuel) body.stmts) a.toInt64) := by
  conv_lhs => unfold Eval.stmt
  dsimp only
  rw [Eval.symbolOf_eq hsym, pure_bind]
  refine congrArg (_ >>= ·) (funext fun a => congrArg (_ >>= ·) (funext fun b => ?_))
  cases step with
  | none => rfl
  | some e =>
    rw [stepOf, bind_assoc]
    refine congrArg (_ >>= ·) (funext fun n => ?_)
    split <;> rfl

mutual

/-- The code of a statement does what the statement says. -/
theorem Stmt.runs : (s : Stmt) → {Γ Δ : List Symbol} → {lo : Nat} → Visible Γ → s.Computes Γ Δ lo →
    Runs Γ (s.extend Γ) s.emit fun fuel => Eval.stmt F fuel s
  | .decl _ _ _ _ _, _, _, _, hΓ, h => by
    obtain ⟨sym, hsym, hnew, hty, hv⟩ := h
    simp only [Stmt.extend, hsym]
    exact runs_guarded (runs_decl hΓ.unique hΓ.scalar hsym hnew.fresh hty hv)
  | .assign _ (.name _) _, _, _, _, hΓ, h => by
    obtain ⟨sym, hs, -, hid, hv⟩ := h
    exact runs_guarded (runs_assign hΓ.unique hΓ.scalar hs hid hv)
  | .compound _ (.name _) _ _, _, _, _, hΓ, h => by
    obtain ⟨sym, hs, -, hid, hty, ho, hv⟩ := h
    obtain ⟨o, ho⟩ := Option.isSome_iff_exists.mp ho
    exact runs_guarded (runs_compound hΓ.unique hs hid hty ho hv)
  | .selfOp _ (.mk _ _ _ (.name _)), _, _, _, hΓ, h => by
    obtain ⟨_, _, _, _, sym, heq, hs, hid, hty⟩ := Expr.Computes.of_incDec h
    cases heq
    exact runs_guarded (runs_selfOp hΓ.unique hs hid hty)
  | .print _ _ _, _, _, _, hΓ, h => runs_guarded (runs_print hΓ.unique h)
  | .ifElse _ cond a none, _, _, _, hΓ, h => by
    have hc := (h.1.coded (F := F) hΓ.unique).2 rfl
    refine runs_guarded ((runs_ifThen hc (Block.runs a hΓ h.2.1)).step rfl fun fuel => ?_)
    conv_lhs => unfold Eval.stmt
  | .ifElse _ cond a (some b), _, _, _, hΓ, h => by
    have hc := (h.1.coded (F := F) hΓ.unique).2 rfl
    refine runs_guarded ((runs_ifElse hc (Block.runs a hΓ h.2.1) (Block.runs b hΓ h.2.2)).step rfl
      fun fuel => ?_)
    conv_lhs => unfold Eval.stmt
  | .whileLoop tok cond body, _, _, _, hΓ, h => by
    have hc := (h.1.coded (F := F) hΓ.unique).2 rfl
    refine runs_guarded ((runs_whileLoop tok hc (Block.runs body hΓ h.2)).step rfl fun fuel => ?_)
    conv_lhs => unfold Eval.stmt
  | .forLoop tok x (.range (.mk mark first last step)) body, _, _, _, hΓ, h => by
    obtain ⟨sym, hsym, hnew, hty, hf, hl, hs, hb⟩ := h
    have hbody := Block.runs body (hΓ.cons hnew.fresh (by rw [hty]; rfl)) hb
    have hspare := Block.spares (F := F) body hb hnew.unassigned (Nat.lt_succ_self _)
    refine runs_guarded (Runs.step ?_ rfl (Eval.stmt_range hsym))
    exact runs_rangeLoop hΓ.unique hsym hnew.fresh hty hf hl hs hbody hspare
  | .ret _ none, _, _, _, _, _ => runs_guarded runs_returning
  | .brk _, _, _, _, _, _ => runs_guarded runs_brk
  | .cont _, _, _, _, _, _ => runs_guarded runs_cont
  | .block b, _, _, _, hΓ, h => by
    refine (Block.runs b hΓ h).step rfl fun fuel => ?_
    conv_lhs => unfold Eval.stmt
  | .selfOp _ (.mk _ _ _ (.element _ _ _)), _, _, _, _, h => by
    obtain ⟨_, _, _, _, _, heq, -⟩ := Expr.Computes.of_incDec h
    cases heq
  | .assign _ (.element _ _ _) _, _, _, _, _, h => h.elim
  | .compound _ (.element _ _ _) _ _, _, _, _, _, h => h.elim
  | .forLoop _ _ (.each _) _, _, _, _, _, h => h.elim
  | .ret _ (some _), _, _, _, _, h => h.elim
  | .function _, _, _, _, _, h => h.elim
  | .call _ _, _, _, _, _, h => h.elim

/-- The code of statements does what they say one after another. -/
theorem Stmt.listRuns : (ss : List Stmt) → {Γ Δ : List Symbol} → {lo : Nat} → Visible Γ →
    Stmt.ListComputes Γ Δ lo ss →
    Runs Γ Γ (Stmt.emitList ss) fun fuel => Eval.sequence (Eval.stmt F fuel) ss
  | [], _, _, _, _, _ => runs_nothing
  | s :: ss, _, _, _, hΓ, h =>
    ((Stmt.runs s hΓ h.1).follow s.subset_extend (Stmt.listRuns ss (hΓ.extend h.1) h.2)).leave

/-- The code of a block does what its statements say. -/
theorem Block.runs : (b : Block) → {Γ Δ : List Symbol} → {lo : Nat} → Visible Γ →
    b.Computes Γ Δ lo →
    Runs Γ Γ b.emit fun fuel => Eval.sequence (Eval.stmt F fuel) b.stmts
  | .mk _ ss _, _, _, _, hΓ, h => runs_guarded (Stmt.listRuns ss hΓ h)

end

end Statements

/-! ## Methods -/

namespace ClassFile.Code

theorem check_eq {p : Prop} [Decidable p] {c : Code} {e : BuildError}
    (h : (if p then c.fail e else c).error = none) : (if p then c.fail e else c) = c := by
  split at h
  · exact absurd h (fail_error c e)
  · rename_i hp
    exact if_neg hp

/-- The last checks change nothing of a body that passes them. -/
theorem finish_eq {c : Code} {labels : List Nat} (h : (c.finish labels).error = none) :
    c.finish labels = c := by
  unfold finish at h ⊢
  dsimp only at h ⊢
  have hlong := check_eq h
  rw [hlong] at h ⊢
  have hempty := check_eq h
  rw [hempty] at h ⊢
  exact check_eq h

end ClassFile.Code

namespace Emit

section Methods

variable {env : Env} {s s' : State} {u : Unit} {access : Access} {name desc : String} {tok : Token}
  {steps : Emit Unit}

theorem finish_ok (h : finish tok env s = .ok (u, s')) : s' = s ∧ s.body.code.Finished := by
  obtain ⟨_, s₁, h₁, h⟩ := bind_ok h
  rw [code_bind] at h
  cases herr : s₁.body.code.error with
  | some e =>
    simp only [herr] at h
    exact (reject_ok h).elim
  | none =>
    simp only [herr] at h
    obtain ⟨-, rfl⟩ := pure_ok h
    cases h₁
    obtain ⟨herror, hsettled⟩ := Code.settled_of_finish herr
    refine ⟨?_, herror, hsettled⟩
    change State.mk _ _ (Body.mk (s.body.code.finish _) _ _) _ _ = _
    rw [Code.finish_eq herr]

theorem pushMethod_ok {methods methods' : Array Method}
    (h : pushMethod methods access name desc = .ok methods') :
    ∃ n, methods' = methods.push ⟨access, name, desc, .start n⟩ := by
  unfold pushMethod at h
  split at h
  · cases h
  · split at h
    · cases h
    · cases h
      exact ⟨_, rfl⟩

theorem modify_push {α : Type} (xs : Array α) (a : α) (f : α → α) :
    (xs.push a).modify xs.size f = xs.push (f a) := by
  refine Array.ext (by simp) fun i hi hi' => ?_
  rw [Array.getElem_modify, Array.getElem_push, Array.getElem_push]
  split
  · rename_i heq
    subst heq
    simp
  · rename_i hne
    rw [Array.size_push] at hi'
    rw [dif_pos (by omega), dif_pos (by omega)]

/-- The state in which the body of a method is written. -/
def State.opened (s : State) (access : Access) (name desc : String) (n : Nat) : State :=
  { s with methods := s.methods.push ⟨access, name, desc, .start n⟩, body := .start (.start n) }

/-- A method gets the body that was written for it. -/
theorem inMethod_ok (h : inMethod access name desc tok steps env s = .ok (u, s')) :
    ∃ n s₁, steps env (s.opened access name desc n) = .ok ((), s₁) ∧
      (s₁.methods = (s.opened access name desc n).methods →
        s' = { s₁ with
          methods := s.methods.push ⟨access, name, desc, s₁.body.code⟩
          body := s.body }) := by
  unfold inMethod at h
  obtain ⟨s₀, _, h₀, h⟩ := bind_ok h
  cases h₀
  obtain ⟨s₀, _, h₀, h⟩ := bind_ok h
  cases h₀
  cases hpush : pushMethod s.methods access name desc with
  | error e =>
    simp only [hpush] at h
    exact (reject_ok h).elim
  | ok methods =>
    simp only [hpush] at h
    obtain ⟨n, rfl⟩ := pushMethod_ok hpush
    obtain ⟨outer, _, h₁, h⟩ := bind_ok h
    cases h₁
    obtain ⟨_, s₂, h₂, h⟩ := bind_ok h
    obtain ⟨_, s₃, h₃, h₄⟩ := bind_ok h
    have hopened : s₂ = s.opened access name desc n := by
      cases h₂
      simp [State.opened]
    subst hopened
    refine ⟨n, s₃, h₃, fun hsame => ?_⟩
    cases h₄
    dsimp only
    rw [hsame, State.opened, modify_push]

/-- The beginning of a method. -/
theorem State.opened_at (s : State) (access : Access) (name desc : String) (n : Nat) :
    (s.opened access name desc n).At .start ∧ (s.opened access name desc n).body.Apart ∧
      (s.opened access name desc n).body.code.Traced [] := by
  refine ⟨⟨rfl, rfl⟩, ⟨Nat.zero_le _, fun id l hl => ?_, fun i j l k hl => ?_⟩, Code.traced_start n⟩
  · simp [State.opened, Body.start] at hl
  · simp [State.opened, Body.start] at hl

/-- The class with one method more. -/
structure Joined (access : Access) (name desc : String) (s s' : State) : Prop where
  methods : ∃ code, s'.methods = s.methods.push ⟨access, name, desc, code⟩
  sound : Pool.Sound Plain s.pool → Pool.Sound Plain s'.pool
  usesShow : s'.usesShow = s.usesShow

theorem plainMethod_ok (h : plainMethod access name desc steps env s = .ok (u, s'))
    (hsteps : ∀ s, Spans env s steps fun _ _ _ => True) : Joined access name desc s s' := by
  obtain ⟨n, s₁, h₁, hs'⟩ := inMethod_ok h
  obtain ⟨_, s₂, h₂, h₃⟩ := bind_ok h₁
  obtain ⟨rfl, -⟩ := finish_ok h₃
  have hb := (hsteps _ h₂).1
  rw [hs' hb.methods]
  exact ⟨⟨_, rfl⟩, fun hp => (hb.pool hp).2, hb.usesShow⟩

theorem joined_constructor (h : constructor env s = .ok (u, s')) :
    Joined .isPublic "<init>" "()V" s s' := by
  have hinit : Plain ⟨Jvm.object, "<init>", "()V"⟩ :=
    ⟨show Clean "<init>" by decide, show Clean "()V" by decide⟩
  refine plainMethod_ok h fun s => spans_load.bind fun _ _ _ _ => ?_
  refine (spans_accesses fun _ _ => accesses_invoke (.inr (.inr rfl)) hinit).bind fun _ _ _ _ => ?_
  exact spans_vreturn.imp fun _ _ _ _ _ _ _ => trivial

theorem joined_entryPoint (h : entryPoint env s = .ok (u, s')) :
    Joined (.all [.isPublic, .isStatic]) entryName
    (Jvm.method ["[" ++ Jvm.reference Jvm.string] "V") s s' := by
  have hscript : Plain ⟨env.unit, scriptName, "()V"⟩ :=
    ⟨show Clean scriptName by decide, show Clean "()V" by decide⟩
  refine plainMethod_ok h fun s => ?_
  have hcall : Spans env s (callStatic env.unit scriptName "()V") fun _ _ _ => True :=
    (spans_accesses fun _ _ => accesses_invoke (.inl rfl) hscript).imp fun _ _ _ _ _ => trivial
  exact fun _ _ hx => hcall.bind (fun _ _ _ _ => spans_vreturn.imp fun _ _ _ _ _ _ => trivial) hx

/-- A body without parameters or result ends in a return. -/
theorem routine_ok (h : routine [] .unit tok steps env s = .ok (u, s')) : ∃ s₁,
    steps { env with result := .unit, loop := none } s = .ok ((), s₁) ∧ s'.body.code.Finished ∧
      (s₁.body.code.reachable = true ∧ op .vreturn env s₁ = .ok ((), s') ∨
        s₁.body.code.reachable = false ∧ s' = s₁) := by
  obtain ⟨_, s₀, h₀, hrest⟩ := bind_ok h
  obtain ⟨-, rfl⟩ := pure_ok h₀
  obtain ⟨_, s₁, h₁, hrest⟩ := bind_ok hrest
  rw [code_bind] at hrest
  refine ⟨s₁, h₁, ?_⟩
  cases hr : s₁.body.code.reachable with
  | true =>
    rw [hr, if_pos rfl, if_pos rfl] at hrest
    obtain ⟨_, s₂, h₂, h₃⟩ := bind_ok hrest
    obtain ⟨rfl, hf⟩ := finish_ok h₃
    exact ⟨hf, .inl ⟨rfl, h₂⟩⟩
  | false =>
    rw [hr, if_neg (by decide)] at hrest
    obtain ⟨rfl, hf⟩ := finish_ok hrest
    exact ⟨hf, .inr ⟨rfl, rfl⟩⟩

/-- The method of the script does what the script says. -/
theorem runs_scriptMethod {F : List FunDecl} {p : Program} {lo : Nat}
    (hp : Stmt.ListComputes [] [] lo p.script)
    (hsound : Pool.Sound Plain s.pool) (h : scriptMethod p env s = .ok (u, s')) :
    s'.usesShow = s.usesShow ∧ ∃ body : ClassFile.Code,
      s'.methods = s.methods.push ⟨.all [.isPrivate, .isStatic], scriptName, "()V", body⟩ ∧
        (s'.pool.error = none → ∀ fuel, ∃ W : Whole, W.pool = s'.pool ∧ W.code = body ∧
          Follows W .start (Eval.sequence (Eval.stmt F fuel) p.script) .start fun _ m' σ' =>
            Jvm.Ends W.pool W.code.bytes σ' m'.out .returned) := by
  have hmethod : inMethod (.all [.isPrivate, .isStatic]) scriptName "()V" p.tok
    (routine [] .unit p.tok (Stmt.emitList p.script)) env s = .ok (u, s') := h
  obtain ⟨n, s₂, h₂, hs'⟩ := inMethod_ok hmethod
  obtain ⟨s₁, h₁, hfinished, hret⟩ := routine_ok h₂
  have hstart := State.opened_at s (.all [.isPrivate, .isStatic]) scriptName "()V" n
  obtain ⟨hat, hapart, htraced⟩ := hstart
  obtain ⟨b₁, r₁⟩ := Stmt.listRuns (F := F) p.script ⟨by simp, by simp⟩ hp
    ⟨hapart, rfl, fun l hl => by cases hl⟩ h₁
  have b₂ : s₁.Begins s₂ := by
    rcases hret with ⟨-, hret⟩ | ⟨-, rfl⟩
    · exact (spans_vreturn hret).1
    · exact .refl _
  have hb := b₁.trans b₂
  rw [hs' hb.methods]
  refine ⟨hb.usesShow, s₂.body.code, rfl, fun herror fuel => ?_⟩
  have hW : Span ⟨s₂.pool, s₂.body.code, fun id => s₂.body.slots[id]?⟩
      (s.opened (.all [.isPrivate, .isStatic]) scriptName "()V" n) s₂ :=
    ⟨⟨[], htraced⟩, hsound, hapart, hb, .refl _, .refl _, fun _ _ hl => hl, fun _ _ hl => .inl hl,
      (hb.apart hapart).inj, hfinished, herror⟩
  refine ⟨⟨s₂.pool, s₂.body.code, fun id => s₂.body.slots[id]?⟩, rfl, rfl, ?_⟩
  obtain ⟨w₁, w₂⟩ := hW.split b₁ b₂
  refine (r₁ w₁ hat ⟨rfl, by simp⟩).imp fun flow m' σ' hlands => ?_
  cases hlands with
  | next hat' leaves =>
    rcases hret with ⟨-, hret⟩ | ⟨hdead, -⟩
    · exact leaves.shown.out ▸ (spans_vreturn hret).2 w₂ hat'
    · exact absurd (hat'.live.symm.trans hdead) (by decide)
  | broke hl => cases hl
  | continued hl => cases hl
  | returned hends => exact hends

/-- The methods of a class of a script alone. -/
theorem allMethods_ok {F : List FunDecl} {p : Program} {lo : Nat}
    (hp : Stmt.ListComputes [] [] lo p.script)
    (hnone : p.functions = []) (h : allMethods p env .start = .ok (u, s')) :
    ∃ (methods : Array Method) (body : ClassFile.Code),
      s'.methods = methods.push ⟨.all [.isPrivate, .isStatic], scriptName, "()V", body⟩ ∧
        (∀ m ∈ methods, m.name ≠ scriptName) ∧ s'.pool.error = none ∧
          ∀ fuel, ∃ W : Whole, W.pool = s'.pool ∧ W.code = body ∧
            Follows W .start (Eval.sequence (Eval.stmt F fuel) p.script) .start fun _ m' σ' =>
              Jvm.Ends W.pool W.code.bytes σ' m'.out .returned := by
  obtain ⟨_, s₁, h₁, hrest⟩ := bind_ok h
  obtain ⟨_, s₂, h₂, hrest⟩ := bind_ok hrest
  obtain ⟨_, s₃, h₃, hrest⟩ := bind_ok hrest
  obtain ⟨_, s₄, h₄, hrest⟩ := bind_ok hrest
  rw [hnone] at h₄
  obtain rfl : s₃ = s₄ := (pure_ok h₄).2.symm
  have j₁ := joined_constructor h₁
  have j₂ := joined_entryPoint h₂
  have hsound := j₂.sound (j₁.sound (Pool.sound_empty _))
  obtain ⟨hshow, body, hmethods, hfollows⟩ := runs_scriptMethod (F := F) hp hsound h₃
  have hshow : s₃.usesShow = false := hshow.trans (j₂.usesShow.trans j₁.usesShow)
  obtain ⟨_, _, hget, hrest⟩ := bind_ok hrest
  cases hget
  dsimp only at hrest
  rw [hshow, if_neg (by decide)] at hrest
  obtain ⟨_, _, hget, hrest⟩ := bind_ok hrest
  cases hget
  obtain ⟨herror, rfl⟩ : s₃.pool.error = none ∧ s' = s₃ := by
    cases herr : s₃.pool.error with
    | some e =>
      simp only [herr] at hrest
      exact (reject_ok hrest).elim
    | none =>
      simp only [herr] at hrest
      exact ⟨rfl, (pure_ok hrest).2⟩
  obtain ⟨code₁, hmethods₁⟩ := j₁.methods
  obtain ⟨code₂, hmethods₂⟩ := j₂.methods
  refine ⟨_, body, hmethods, fun m hm => ?_, herror, hfollows herror⟩
  rw [hmethods₂, hmethods₁] at hm
  simp only [State.start, Array.mem_push, Array.not_mem_empty, false_or] at hm
  rcases hm with rfl | rfl
  · exact show "<init>" ≠ scriptName by decide
  · exact show entryName ≠ scriptName by decide

end Methods

end Emit

/-! ## Programs -/

theorem classOf_ok {g : Generator} {c : Checked} {cls : ClassFile} (h : g.classOf c = .ok cls) :
    ∃ s, allMethods c.program
        ⟨g.unit, c.functions, c.program.functions.map fun f => f.name.name, .unit, none⟩ .start =
          .ok ((), s) ∧
      cls = ⟨g.major, g.unit, Jvm.object, g.source.fileName c.program.file, s.pool, s.methods⟩ := by
  unfold Generator.classOf at h
  dsimp only at h
  cases hall :
    allMethods c.program
      ⟨g.unit, c.functions, c.program.functions.map fun f => f.name.name, .unit, none⟩
      .start with
  | error d =>
    rw [hall] at h
    cases h
  | ok x =>
    rw [hall] at h
    cases h
    exact ⟨x.2, rfl, rfl⟩

/-- A method ends as a run of the evaluator does. -/
def Jvm.Ending.Mirrors (e : Jvm.Ending) : Option Fault → Prop
  | none => e = .returned
  | some f => e.Answers f

theorem functionsOf_of_isScalar : {ss : List Stmt} → Stmt.listIsScalar ss = true →
    functionsOf ss = [] ∧ scriptOf ss = ss
  | [], _ => ⟨rfl, rfl⟩
  | s :: ss, h => by
    rw [Stmt.listIsScalar, Bool.and_eq_true] at h
    obtain ⟨hf, hs⟩ := functionsOf_of_isScalar h.2
    cases s with
    | function f => exact absurd h.1 (by simp [Stmt.isScalar])
    | _ => exact ⟨hf, congrArg _ hs⟩

/-- The script of a program of this kind. -/
theorem Checked.OfText.computes {text : Text} {c : Checked} (h : c.OfText text)
    (hs : c.isScalar = true) :
    c.functions = [] ∧ c.program.functions = [] ∧ Stmt.ListComputes [] [] 0 c.program.script := by
  have htyped := h.typed
  obtain ⟨p, -, hc⟩ := h
  obtain ⟨A', hassigns⟩ := (Program.check_assigns hc).script false fun h => by cases h
  obtain ⟨hi, hscript⟩ := htyped.script
  obtain ⟨hnone, hall⟩ := functionsOf_of_isScalar hs
  have hfunctions : c.functions = [] := htyped.functions.trans hnone
  refine ⟨hfunctions, hnone, ?_⟩
  have haround : Around (Kotlet.signatures c.functions) 0 0 [] [] :=
    ⟨fun name => by rw [hfunctions]; rfl, .nil 0 0, by simp, by simp⟩
  refine Stmt.listComputes c.program.script haround hscript hassigns ?_
  rw [Program.script, hall]
  exact hs

/-- The method of the script in a class. -/
def ClassFile.scriptOf? (cls : ClassFile) : Option Method :=
  cls.methods.find? fun m => m.name == scriptName

/-- Running the method of the script of a program with numbers and truth values prints what the
evaluator prints, and ends as the evaluator does. -/
theorem Checked.OfText.script_follows {text : Text} {c : Checked} (h : c.OfText text)
    (hs : c.isScalar = true)
    {g : Generator} {cls : ClassFile} (hg : (g.generate c).1 = .ok cls) : ∃ method : Method,
      cls.scriptOf? = some method ∧ ∀ fuel,
        (∀ f, c.fault? fuel = some f → f.message ≠ Fault.Cause.outOfFuel.message) →
          ∃ (e : Jvm.Ending) (steps : Nat), e.Mirrors (c.fault? fuel) ∧
            ∀ more, Jvm.run? cls.pool method.code.bytes (steps + more) .start =
              some ((c.runWith fuel).out, e) := by
  obtain ⟨hfunctions, hnone, hcomputes⟩ := h.computes hs
  unfold Generator.generate at hg
  split at hg
  · cases hg
  obtain ⟨s, hall, hcls⟩ := classOf_ok hg
  obtain ⟨methods, body, hmethods, hnames, herror, hfollows⟩ :=
    allMethods_ok (F := c.functions) hcomputes hnone hall
  refine ⟨⟨.all [.isPrivate, .isStatic], scriptName, "()V", body⟩, ?_, fun fuel hfuel => ?_⟩
  · rw [ClassFile.scriptOf?, hcls, hmethods]
    have hnot : methods.find? (fun m => m.name == scriptName) = none := by
      rw [Array.find?_eq_none]
      exact fun m hm => by simpa using hnames m hm
    simp [hnot]
  · obtain ⟨W, hpool, hcode, hrun⟩ := hfollows fuel
    rw [hcls]
    change ∃ e steps, _ ∧ ∀ more, Jvm.run? s.pool body.bytes (steps + more) .start = _
    rw [← hpool, ← hcode]
    unfold Checked.fault? at hfuel ⊢
    unfold Checked.runWith
    cases hx : Eval.sequence (Eval.stmt c.functions fuel) c.program.script .start with
    | ok flow m =>
      obtain ⟨σ', hr, hends⟩ := hrun.ok flow m hx
      obtain ⟨steps, hsteps⟩ := (hr.ends hends).run?
      exact ⟨.returned, steps, rfl, Jvm.run?_add hsteps⟩
    | error f m =>
      obtain ⟨e, he, hends⟩ := hrun.error f m hx (hfuel f (by rw [hx]))
      obtain ⟨steps, hsteps⟩ := hends.run?
      exact ⟨e, steps, he, Jvm.run?_add hsteps⟩

/-- A loop of three turns over a branch. -/
def turnsText : Text :=
  .ofString ("for (i in 1..3) \x7b\nif (2 > 3) \x7b break \x7d else \x7b println(2 < 3) \x7d\n" ++
    "println(7)\n\x7d\n")

/-- The class of a loop over a branch prints what the evaluator prints. -/
theorem Checked.OfText.script_follows_turns :
    ∃ (c : Checked) (cls : ClassFile) (method : Method) (steps : Nat),
      c.OfText turnsText ∧ c.isScalar = true ∧ ((Generator.start "Main").generate c).1 = .ok cls ∧
      cls.scriptOf? = some method ∧ c.fault? 8 = none ∧
        Jvm.run? cls.pool method.code.bytes steps .start =
          some ("true\n7\ntrue\n7\ntrue\n7\n", .returned) := by
  have hrun : ((Checked.ofText? turnsText).map fun c =>
      (decide (c.program.room ≤ most), c.isScalar, (c.fault? 8).isNone, (c.runWith 8).out)) =
      some (true, true, true, "true\n7\ntrue\n7\ntrue\n7\n") := by decide +kernel
  obtain ⟨c, hc, hall⟩ := Option.map_eq_some_iff.mp hrun
  simp only [Prod.mk.injEq, decide_eq_true_eq, Option.isNone_iff_eq_none] at hall
  obtain ⟨hroom, hscalar, hfault, hout⟩ := hall
  have htext := Checked.ofText_of_eq_some hc
  obtain ⟨cls, hcls⟩ := htext.typed.generate_of_room hroom (by decide : Pool.IsShort "Main")
    Generator.defaultMajor .derived
  obtain ⟨method, hmethod, hfollows⟩ := htext.script_follows hscalar hcls
  obtain ⟨e, steps, he, hrun⟩ := hfollows 8 (by rw [hfault]; simp)
  rw [hfault] at he
  cases he
  rw [hout] at hrun
  exact ⟨c, cls, method, steps, htext, hscalar, hcls, hmethod, hfault, hrun 0⟩

end Kotlet

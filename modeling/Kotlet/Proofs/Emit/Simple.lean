import Kotlet.Emit.Stmt
import Kotlet.Proofs.Emit.Expr

/-!
# Statements without statements inside

* `Scene` : what is around a statement when its code is written. The variables have slots if control
  can come there, for what cannot be reached gets no code;
* `World.Done` : a world after a statement;
* `writes_guarded` : the checks around a statement never fail;
* `ready_assignment`, `ready_compound`, `ready_printing` and their kin : statements of one kind.
-/

namespace Kotlet
namespace Emit

open ClassFile

/-- What is around a statement with the variables `Γ`, numbered below `lo`. -/
structure Scene (Φ : Signatures) (result : Ty) (inLoop : Bool) (Γ : List Symbol) (lo : Nat)
    (env : Env) (W : World) : Prop where
  knows : env.Knows Φ
  holds : W.live = true → W.Holds Γ
  count : W.count ≤ lo
  ahead : W.ahead = none
  numbered : W.numbered = true
  returns : env.result = result
  result : W.result = result.kinds
  loop : inLoop = true → ∃ l, env.loop = some l ∧ W.Target l.breakTo [] ∧ W.Target l.continueTo []

/-- A world after a statement. -/
def World.Done (W : World) (hi : Nat) (Γ : List Symbol) (V : World) : Prop :=
  ∃ W', W.Next W' ∧ W'.count ≤ hi ∧ (W'.live = true → W'.Holds Γ) ∧ V = W'.withStack []

/-- The code of a statement in a scene, after which there are the variables `Δ`. -/
def Emits (Φ : Signatures) (result : Ty) (inLoop : Bool) (Γ Δ : List Symbol) (lo hi : Nat)
    (x : Emit Unit) : Prop :=
  ∀ env W, Scene Φ result inLoop Γ lo env W →
    Writes env (W.withStack []) x fun _ V => W.Done hi Δ V

section Statements

variable {Φ : Signatures} {result : Ty} {inLoop : Bool} {Γ Δ : List Symbol} {r lo mid hi : Nat}
  {t : Ty} {env : Env} {W V : World} {ls : List Nat}

theorem Scene.around (h : Scene Φ result inLoop Γ lo env W) (hn : W.Past ls V) (hc : V.count ≤ mid)
    (hΔ : V.live = true → V.Holds Δ) : Scene Φ result inLoop Δ mid env V where
  knows := h.knows
  holds := hΔ
  count := hc
  ahead := hn.ahead.trans h.ahead
  numbered := hn.numbered.trans h.numbered
  returns := h.returns
  result := hn.result.trans h.result
  loop hin := by
    obtain ⟨l, hl, hb, hc⟩ := h.loop hin
    exact ⟨l, hl, hn.target hb, hn.target hc⟩

theorem Scene.next (h : Scene Φ result inLoop Γ lo env W) (hn : W.Past ls V) (hΔ : V.Holds Δ)
    (hc : V.count ≤ mid) : Scene Φ result inLoop Δ mid env V := h.around hn hc fun _ => hΔ

theorem Scene.within (h : Scene Φ result inLoop Γ lo env W) (l : Nat) :
    Scene Φ result inLoop Γ lo env (W.within l) :=
  { h with
    loop := fun hin => by
      obtain ⟨k, hk, hb, hc⟩ := h.loop hin
      exact ⟨k, hk, World.within_target hb, World.within_target hc⟩ }

/-- A statement that declares nothing. -/
theorem Yields.done {x : Emit Unit} (h : Yields env W [] x hi []) (hΓ : W.Holds Γ) :
    Writes env (W.withStack []) x fun _ V => W.Done hi Γ V :=
  h.mono fun _ _ ⟨W', hn, hc, hV⟩ => ⟨W', hn, hc, fun _ => hn.holds hΓ, hV⟩

theorem ends_code {s : State} {bad : Diagnostic → Prop} {post : ClassFile.Code → State → Prop} :
    Ends code env s bad post ↔ post s.body.code s := Iff.rfl

/-- A statement is left out, or it leaves the stack as it was. -/
theorem emits_guarded {tok : Token} {steps : Emit Unit} (hle : lo ≤ hi)
    (hs : ∀ {env W}, Scene Φ result inLoop Γ lo env W → W.Holds Γ →
      Writes env (W.withStack []) steps fun _ V => W.Done hi Δ V) :
    Emits Φ result inLoop Γ Δ lo hi (guarded tok steps) := by
  intro env W h s hgood
  unfold guarded
  rw [ends_bind, ends_code]
  cases hr : s.body.code.reachable with
  | false =>
    refine ⟨.refl s, W.dead.withStack [], { hgood with flows := ?_, ok := hgood.ok.dead }, W.dead,
      (World.Past.refl W).dead, Nat.le_trans h.count hle, nofun, rfl⟩
    exact hgood.flows.silent hr false _ _
  | true =>
    have hlive : W.live = true := by
      cases hl : W.live with
      | true => rfl
      | false =>
        have := hgood.flows.live hl
        rw [hr] at this
        cases this
    have hdepth : s.body.code.depth = 0 := (hgood.flows.depth hr).1
    rw [if_pos rfl, ends_bind, ends_code, ends_bind]
    refine (hs h (h.holds hlive) s hgood).mono fun _ s' ⟨hlater, V, hgood', hdone⟩ => ?_
    have hflat : V.stack = [] := by
      obtain ⟨W', -, -, -, rfl⟩ := hdone
      rfl
    rw [ends_bind, ends_code]
    cases he : s'.body.code.error with
    | some e =>
      change (EmitError.build e).code = .formatLimit
      rw [EmitError.code, if_pos (hgood'.flows.limits e he)]
    | none =>
      dsimp only
      rw [ends_bind, ends_code, ends_bind, ends_code, hdepth]
      have hbalanced : (s'.body.code.reachable && s'.body.code.depth != 0) = false := by
        cases hr' : s'.body.code.reachable with
        | false => rfl
        | true =>
          have := (hgood'.flows.depth hr').1
          rw [hflat] at this
          rw [this]
          rfl
      rw [hbalanced, if_neg Bool.false_ne_true]
      exact ⟨hlater, V, hgood', hdone⟩

theorem Scene.stage (h : Scene Φ result inLoop Γ lo env W) (hΓ : W.Holds Γ) :
    Stage Φ Γ lo hi env W :=
  ⟨h.knows, hΓ, h.count, (fun _ hi => nomatch h.ahead.symm.trans hi), h.numbered⟩

/-! ## Variables -/

theorem turns_pushDefault {st : List Kind} (t : Ty) :
    Turns env W st (pushDefault t) (t.localKind.kind :: st) := by
  unfold pushDefault Ty.localKind
  split
  · exact turns_pushInt 0
  · split
    · exact turns_pushString ""
    · exact turns_op _ (by decide) rfl

/-- A value is given to a new variable. -/
theorem done_declare {sym : Symbol} {tok : Token} (hd : sym.Declares r mid) (hn : W.Next V)
    (hΓ : W.Holds Γ) (hc : V.count ≤ mid) (ha : V.ahead = none)
    (hw : V.numbered = true) :
    Writes env (V.withStack [sym.ty.localKind.kind]) (declare sym tok >>= store) fun _ X =>
      W.Done (mid + 1) (sym :: Γ) X := by
  have hstore : (declare sym tok >>= store) =
      (declare sym tok >>= fun l => store l >>= fun _ => pure ()) := by
    simp only [bind_pure_unit]
  rw [hstore]
  refine writes_keepAs hw (by rw [hd.id]; exact hc) (by rw [ha]; nofun) fun l V₁ hty hn₁ hhas hvar hc₁ => ?_
  refine writes_pure ⟨V₁, hn.trans hn₁, ?_, fun _ => ?_, rfl⟩
  · exact Nat.le_of_eq (by rw [hc₁, hd.id])
  · exact ((hn.trans hn₁).holds hΓ).cons hvar hty hhas

theorem done_declaration {name : Ident} {sym : Symbol} {p : Piece} (hsym : name.sym = some sym)
    (hd : sym.Declares r mid) (hp : p.Compiles Φ Γ lo mid t) (ha : t.assignable sym.ty = true)
    (hu : t ≠ .unit) (h : Stage Φ Γ lo mid env W) (hW : W.ahead = none) :
    Writes env (W.withStack []) (declaration name (some p)) fun _ V =>
      W.Done (mid + 1) (sym :: Γ) V := by
  unfold declaration
  rw [symbolOf_eq hsym, pure_bind]
  refine (yields_valueAs hp ha hu h).seq fun W₁ hn hc => ?_
  exact done_declare hd hn h.holds hc (hn.ahead.trans hW) (hn.numbered.trans h.numbered)

theorem done_declarationDefault {name : Ident} {sym : Symbol} (hsym : name.sym = some sym)
    (hd : sym.Declares r lo) (h : Stage Φ Γ lo lo env W) (hW : W.ahead = none) :
    Writes env (W.withStack []) (declaration name none) fun _ V =>
      W.Done (lo + 1) (sym :: Γ) V := by
  unfold declaration
  rw [symbolOf_eq hsym, pure_bind]
  refine (turns_pushDefault sym.ty).seq ?_
  exact done_declare hd (.refl W) h.holds h.count hW h.numbered

theorem yields_assignName {id : Ident} {p : Piece} {want : Ty} (hid : id.Holds Γ want)
    (hp : p.Compiles Φ Γ lo hi t) (ha : t.assignable want = true) (hu : t ≠ .unit)
    (h : Stage Φ Γ lo hi env W) : Yields env W [] (assignment p (.name id)) hi [] := by
  unfold assignment
  refine writes_variableOf hid h.holds fun l hl hhas => ?_
  rw [hl]
  refine (yields_valueAs hp ha hu h).seq fun W₁ hn hc => ?_
  rw [← hl]
  exact (turns_store (hn.has hhas)).ready hn hc

theorem yields_assignElement {m : Mark} {base : Ident} {index p : Piece} {kind : CollectionKind}
    {s : Scalar} (hb : base.Holds Γ (kind.ty s)) (hx : index.Compiles Φ Γ lo mid .int)
    (hp : p.Compiles Φ Γ mid hi t) (ha : t.assignable (.scalar s) = true) (hu : t ≠ .unit)
    (h : Stage Φ Γ lo hi env W) : Yields env W [] (assignment p (.element m base index)) hi [] := by
  unfold assignment
  refine writes_elementPlace hb hx (h.upTo hp.le) fun W₁ hn hc => ?_
  cases kind with
  | list =>
    refine (yields_valueAs hp (assignable_any hu) hu (h.next hn hc)).seq fun W₂ hn₂ hc₂ => ?_
    exact turns_listSet.ready (hn.trans hn₂) hc₂
  | array =>
    refine (yields_valueAs hp ha hu (h.next hn hc)).seq fun W₂ hn₂ hc₂ => ?_
    exact (turns_arrayStore s).ready (hn.trans hn₂) hc₂

theorem turns_compoundOp {sign : String} {st : List Kind}
    (hsign : (ArithOp.ofText? (compoundOperator sign)).isSome = true) :
    Turns env W (.int :: .int :: st) (op (compoundOp sign)) (.int :: st) := by
  obtain ⟨o, ho⟩ := Option.isSome_iff_exists.mp hsign
  rw [compoundOp, ho]
  cases o <;> exact turns_op _ (by decide) rfl

theorem constantDelta?_bounds {sign : String} {e : Expr} {d : Int}
    (h : constantDelta? sign e = some d) : -0x8000 ≤ d ∧ d ≤ 0x7fff := by
  unfold constantDelta? at h
  split at h
  · have hbounds := (Option.filter_eq_some_iff.mp h).2
    simpa using hbounds
  · cases h

theorem yields_compound {sign : String} {p : Piece} {place : Place}
    (hsign : (ArithOp.ofText? (compoundOperator sign)).isSome = true)
    (hplace : place.Updates Φ Γ lo mid) (hp : p.Compiles Φ Γ mid hi .int)
    (h : Stage Φ Γ lo hi env W) : Yields env W [] (compound sign p place) hi [] := by
  cases place with
  | name id =>
    obtain ⟨hid, rfl⟩ := hplace
    unfold compound
    refine writes_variableOf hid h.holds fun l hl hhas => ?_
    cases hdelta : constantDelta? sign p.expr with
    | some d =>
      exact (turns_increment hhas (by rw [hl]; rfl) (constantDelta?_bounds hdelta)).yields
        (Nat.le_trans h.count hp.le)
    | none =>
      refine (turns_load hhas).seq ?_
      refine (hp.value h).seq fun W₁ hn hc => ?_
      rw [hl]
      refine (turns_compoundOp hsign).seq ?_
      exact (turns_storeAs (hn.has hhas) (by rw [hl]; rfl)).ready hn hc
  | element m base index =>
    obtain ⟨kind, hb, hx⟩ := hplace
    unfold compound
    refine writes_elementPlace hb hx (h.upTo hp.le) fun W₁ hn hc => ?_
    refine (turns_op [.int, .ref, .int, .ref] (by decide) rfl).seq ?_
    refine (turns_loadInt kind).seq ?_
    refine (hp.value (h.next hn hc)).seq fun W₂ hn₂ hc₂ => ?_
    refine (turns_compoundOp hsign).seq ?_
    exact (turns_storeInt kind).ready (hn.trans hn₂) hc₂

theorem yields_selfOp {m : Mark} {sign : String} {before : Bool} {target : Target}
    (hplace : target.place.Updates Φ Γ lo hi) (h : Stage Φ Γ lo hi env W) :
    Yields env W [] (selfOp (.mk m sign before target)) hi [] := by
  cases target with
  | name id =>
    obtain ⟨hid, rfl⟩ := hplace
    unfold selfOp
    refine writes_variableOf hid h.holds fun l hl hhas => ?_
    exact (turns_increment hhas (by rw [hl]; rfl) (delta_bounds sign)).yields h.count
  | element m base index =>
    refine (yields_incDec hplace h).seq fun W₁ hn hc => ?_
    exact (turns_popValue .int).ready hn hc

/-! ## Output -/

theorem yields_printing {newline : Bool} {p : Piece} (hp : p.Compiles Φ Γ lo hi t)
    (ht : t.printable = true) (h : Stage Φ Γ lo hi env W) :
    Yields env W [] (printing newline (some p)) hi [] := by
  unfold printing
  refine (turns_getStatic (isField_class (by decide)) (by decide) (by decide) (by decide)).seq ?_
  refine writes_bind (writes_printable hp ht h) fun t' V ⟨k, hfield, hclean, W₁, hn, hc, hV⟩ => ?_
  rw [hV]
  refine Turns.ready ?_ hn hc
  refine turns_callVirtual [k] [] (calls_single hfield hclean (by decide) (by decide)) ?_
  cases newline <;> decide

theorem yields_printingLine {newline : Bool} (h : W.count ≤ lo) :
    Yields env W [] (printing newline none) lo [] := by
  unfold printing
  refine (turns_getStatic (isField_class (by decide)) (by decide) (by decide) (by decide)).seq ?_
  refine (turns_callVirtual [] [] (by decide) ?_).yields h
  cases newline <;> decide

/-! ## Leaving -/

theorem yields_returning {tok : Token} (h : Scene Φ .unit inLoop Γ lo env W) :
    Yields env W [] (returning tok none) lo [] := by
  unfold returning
  refine writes_read_bind ?_
  dsimp only
  rw [h.returns, if_neg (not_not_intro rfl)]
  exact (leads_vreturn h.result []).ready (World.Past.refl W).dead h.count

theorem yields_returningValue {tok : Token} {p : Piece} (h : Scene Φ result inLoop Γ lo env W)
    (hΓ : W.Holds Γ) (hu : result ≠ .unit) (hp : p.Compiles Φ Γ lo hi t)
    (ha : t.assignable result = true) (ht : t ≠ .unit) :
    Yields env W [] (returning tok (some p)) hi [] := by
  unfold returning
  refine writes_read_bind ?_
  dsimp only
  rw [h.returns, if_neg hu]
  refine (yields_valueAs hp ha ht (h.stage hΓ)).seq fun W₁ hn hc => ?_
  exact (leads_return hu (hn.result.trans h.result) []).ready hn.dead hc

/-- A jump to a label of the loop around it. -/
theorem yields_leaving {tok : Token} {target : Loop → Nat} (h : Scene Φ result true Γ lo env W)
    (ht : target = Loop.breakTo ∨ target = Loop.continueTo) :
    Yields env W [] (leaving tok target) lo [] := by
  obtain ⟨l, hl, hbreak, hcontinue⟩ := h.loop rfl
  unfold leaving
  refine writes_read_bind ?_
  rw [hl]
  have htarget : W.Target (target l) [] := by
    rcases ht with rfl | rfl
    · exact hbreak
    · exact hcontinue
  exact (leads_goto htarget).ready ((World.Past.refl W).jumped _).dead h.count

theorem yields_effect {c : Call} (hc : (Expr.call c).piece.Compiles Φ Γ lo hi t)
    (h : Stage Φ Γ lo hi env W) : Yields env W [] (effect c) hi [] := by
  have hty : (Expr.call c).recorded? = some t := hc.recorded
  unfold effect
  rw [typeOf_eq hty, pure_bind]
  refine Yields.seq (hc.value h) fun W₁ hn hc => ?_
  by_cases hu : t = .unit
  · rw [if_neg (not_not_intro hu), hu]
    exact turns_nothing.ready hn hc
  · rw [if_pos hu, Ty.kinds_of_ne hu]
    exact (turns_popValue t).ready hn hc

end Statements

end Emit
end Kotlet

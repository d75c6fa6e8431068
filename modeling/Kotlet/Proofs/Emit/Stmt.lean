import Kotlet.Proofs.Emit.Simple

/-!
# Branches, loops and all statements

* `yields_branching` : `if`, with or without `else`;
* `yields_whileLoop`, `yields_rangeLoop`, `yields_elementLoop` : loops. Their heads are known before
  their bodies, which may jump to every label of the loop;
* `Stmt.emits` : the code of a well-typed statement leaves an empty stack and fails for a limit of
  the format only; afterwards what the statement declares has a slot, if control can come there.
-/

namespace Kotlet
namespace Emit

open ClassFile

section Loops

variable {Φ : Signatures} {result : Ty} {inLoop : Bool} {Γ : List Symbol} {r lo mid hi : Nat}
  {t : Ty} {env : Env} {W V : World} {st : List Kind}

/-- The code of a part of a statement, from a world between. -/
theorem Emits.ready {x : Emit Unit} (hx : Emits Φ result inLoop Γ Γ lo hi x)
    (h : Scene Φ result inLoop Γ lo env W) :
    Yields env W [] x hi [] :=
  (hx env W h).mono fun _ _ ⟨W', hn, hc, _, hV⟩ => ⟨W', hn, hc, hV⟩

/-! ## Branches -/

theorem yields_branching {cond : Piece} {thenSteps : Emit Unit} {elseSteps : Option (Emit Unit)}
    {top : Nat} (hcond : cond.Compiles Φ Γ lo mid .boolean)
    (hthen : Emits Φ result inLoop Γ Γ mid top thenSteps)
    (helse : ∀ x, elseSteps = some x → Emits Φ result inLoop Γ Γ top hi x) (hle : top ≤ hi)
    (h : Scene Φ result inLoop Γ lo env W) (hΓ : W.Holds Γ) :
    Yields env W [] (branching cond thenSteps elseSteps) hi [] := by
  refine writes_of_ok fun hok => ?_
  unfold branching
  refine (World.Opened.refl W).newLabel ⟨[], W.locals⟩ (fun _ _ h => h) fun otherwise V ho => ?_
  have hstage : Stage Φ Γ lo mid env V := (h.stage hΓ).next ho.past (ho.count ▸ h.count)
  refine (hcond.jump rfl hstage (ho.target (by simp) fun _ _ h => h)).seq fun W₁ hn₁ hc₁ => ?_
  have h₁ : W.Past [otherwise] W₁ := ho.past.trans hn₁
  refine (hthen.ready (h.next h₁ (h₁.holds hΓ) hc₁)).seq fun W₂ hn₂ hc₂ => ?_
  have h₂ : W.Past [otherwise] W₂ := h₁.trans hn₂
  have hother : W₂.marks[otherwise]? = some ⟨[], W.locals⟩ :=
    hn₂.mark (hn₁.mark (ho.label otherwise _ (by simp)))
  cases elseSteps with
  | none =>
    refine (leads_bindFresh [] h₂ (ho.above hok (by simp)) hother fun _ => ⟨rfl, h₂.locals⟩).ready
      ?_ (Nat.le_trans hc₂ hle)
    exact h₂.bound [] (by simp) fun _ _ h => h
  | some steps =>
    refine writes_newLabel ⟨[], W.locals⟩ (fun hok k kind hk => hok.locals k kind (h₂.locals k kind hk)) ?_
    have h₃ := h₂.labelled ⟨[], W.locals⟩
    have hdone := W₂.labelled_mark ⟨[], W.locals⟩
    have hlt : otherwise < W₂.marks.length := (List.getElem?_eq_some_iff.mp hother).1
    refine (leads_goto ⟨.inl List.mem_cons_self, _, hdone, rfl, h₂.locals⟩).seq ?_
    have h₄ := (h₃.jumped W₂.marks.length).dead
    refine (leads_bindFresh [W₂.marks.length] h₄ (ho.above hok (by simp))
      (Code.getElem?_of_prefix (W₂.labelled_prefix _) hother) nofun).seq ?_
    have h₅ := h₄.bound [W₂.marks.length] (by simp; omega) fun _ _ hk => hk
    refine ((helse steps rfl).ready (h.next h₅ (h₅.holds hΓ) hc₂)).seq fun W₃ hn₃ hc₃ => ?_
    have h₆ := h₅.trans hn₃
    refine (leads_bindFresh [] h₆ (fun t ht => ?_) (hn₃.mark hdone)
      fun _ => ⟨rfl, h₆.locals⟩).ready (h₆.bound [] (by simp) fun _ _ h => h) hc₃
    exact Nat.lt_of_lt_of_le (hok.tops t ht) h₂.marks.length_le

/-! ## Loops -/

/-- The body of a loop sees the labels of the loop. -/
theorem Emits.looped {x : Emit Unit} {breakTo continueTo : Nat}
    (hx : Emits Φ result true Γ Γ lo hi x) (h : Scene Φ result inLoop Γ lo env W)
    (hb : W.Target breakTo []) (hn : W.Target continueTo []) :
    Yields env W [] (Emit.inLoop breakTo continueTo x) hi [] :=
  writes_withReader (hx.ready { h with
    knows := { h.knows with }
    loop := fun _ => ⟨_, rfl, hb, hn⟩ })

theorem yields_whileLoop {cond : Piece} {body : Emit Unit}
    (hcond : cond.Compiles Φ Γ lo mid .boolean) (hbody : Emits Φ result true Γ Γ mid hi body)
    (h : Scene Φ result inLoop Γ lo env W) (hΓ : W.Holds Γ) :
    Yields env W [] (whileLoop cond body) hi [] := by
  refine writes_of_ok fun hok => ?_
  unfold whileLoop
  refine (World.Opened.refl W).newLabel ⟨[], W.locals⟩ (fun _ _ h => h) fun top V₀ h₀ => ?_
  refine h₀.newLabel ⟨[], W.locals⟩ (fun _ _ h => h) fun exit V ho => ?_
  have htarget {l : Nat} (hl : l = top ∨ l = exit) : (V.looping top W.locals).Target l [] :=
    ho.looping_target (by rcases hl with rfl | rfl <;> simp)
  have hloop : (W.within top).Past [exit] (V.looping top W.locals) := ho.looping [exit] [] rfl
  refine (ho.bindTop hok (by simp)).seq ?_
  have hstage : Stage Φ Γ lo mid env (V.looping top W.locals) :=
    ((h.stage hΓ).within top).next hloop (ho.count ▸ h.count)
  refine (hcond.jump rfl hstage (htarget (.inr rfl))).seq fun W₁ hn₁ hc₁ => ?_
  have h₁ := hloop.trans hn₁
  refine (hbody.looped ((h.within top).next h₁ (h₁.holds hΓ) hc₁) (hn₁.target (htarget (.inr rfl)))
    (hn₁.target (htarget (.inl rfl)))).seq fun W₂ hn₂ hc₂ => ?_
  have h₂ := h₁.trans hn₂
  refine (leads_goto ((hn₁.trans hn₂).target (htarget (.inl rfl)))).seq ?_
  obtain ⟨hexit, hafter⟩ := leads_exit (h₂.jumped top)
    (ho.above hok (by simp)) ((hn₁.trans hn₂).mark (ho.label exit ⟨[], W.locals⟩ (by simp)))
  exact hexit.ready hafter hc₂

/-! ## Ranges -/

/-- A step that is positive, or will be. -/
def Step.Fits (W : World) : Step → Prop
  | .constant n => 0 < n
  | .computed l => l.ty = .int ∧ W.Has l

theorem Step.Fits.next {step : Step} {ls : List Nat} (h : step.Fits W) (hn : W.Past ls V) :
    step.Fits V := by
  cases step with
  | constant n => exact h
  | computed l => exact ⟨h.1, hn.has h.2⟩

/-- The code of a number that is no literal, or of a positive one. -/
def StepCompiles (Φ : Signatures) (Γ : List Symbol) (lo hi : Nat) : Option Expr → Prop
  | none => lo = hi
  | some e => e.piece.Compiles Φ Γ lo hi .int ∧ ∀ m n, e = .int m n → 0 < n

/-- The step of a range, and the code after it. -/
theorem writes_rangeStep {α : Type} {step : Option Expr} {f : Step → Emit α}
    {Q : α → World → Prop} (hstep : StepCompiles Φ Γ lo hi step) (hle : lo ≤ hi)
    (h : Stage Φ Γ lo hi env W) (hf : ∀ step W', W.Next W' → W'.count ≤ hi → step.Fits W' →
      Writes env (W'.withStack []) (f step) Q) :
    Writes env (W.withStack []) (rangeStep step >>= f) Q := by
  have hcount : W.count ≤ hi := Nat.le_trans h.count hle
  unfold rangeStep
  split
  · exact hf (.constant 1) W (.refl W) hcount (show (0 : Int32) < 1 by decide)
  · rename_i m n
    exact hf (.constant n) W (.refl W) hcount (hstep.2 m n rfl)
  · rename_i e _
    simp only [bind_assoc]
    refine (hstep.1.value h).seq fun W₁ hn₁ hc₁ => ?_
    refine writes_keep (hn₁.numbered.trans h.numbered) fun l W₂ hl hn₂ hhas hc₂ => ?_
    refine writes_of_ok fun hok => ?_
    refine (World.Opened.refl W₂).newLabel ⟨[], W₂.locals⟩ (fun _ _ h => h) fun good V ho => ?_
    refine (turns_loadNumber (ho.past.has hhas) hl).seq ?_
    have htarget : V.Target good [] := ho.target (by simp) fun _ _ h => h
    refine (leads_jump (by decide) (by decide) rfl htarget).seq ?_
    refine (leads_throwNew _ _ []).seq ?_
    have hpast := (ho.past.jumped good).dead
    refine (leads_bindFresh [] hpast (ho.above hok (by simp))
      (ho.label good ⟨[], W₂.locals⟩ (by simp)) nofun).seq ?_
    have hgood := hpast.bound [] (by simp) fun _ _ h => h
    rw [pure_bind]
    refine hf _ _ (hn₁.trans (hn₂.trans hgood)) ?_ ⟨hl, hgood.has hhas⟩
    exact Nat.le_trans (Nat.le_of_eq (ho.count.trans hc₂)) hc₁

theorem turns_pushStep {step : Step} (h : step.Fits W) :
    Turns env W st (pushStep step) (.int :: st) := by
  cases step with
  | constant n => exact turns_pushInt n
  | computed l => exact turns_loadNumber h.2 h.1

theorem leads_testRange {step : Step} {x last : Local} {exit : Nat} (hs : step.Fits W)
    (hx : W.Has x) (hxt : x.ty = .int) (hl : W.Has last) (hlt : last.ty = .int)
    (he : W.Target exit []) :
    Leads env (W.withStack []) (testRange step x last exit) ((W.jumped exit).withStack []) := by
  have hcases (isOne : Bool) : Leads env (W.withStack [])
      (if isOne = true then do
        load x
        load last
        jump .ifIcmpEq exit
      else do
        load x
        op .i2l
        pushStep step
        op .i2l
        op .ladd
        load last
        op .i2l
        op .lcmp
        jump .ifGt exit) ((W.jumped exit).withStack []) := by
    cases isOne with
    | true =>
      refine (turns_loadNumber hx hxt).seq ?_
      refine (turns_loadNumber hl hlt).seq ?_
      exact leads_jump (by decide) (by decide) rfl he
    | false =>
      refine (turns_loadNumber hx hxt).seq ?_
      refine (turns_op [.half, .half] (by decide) rfl).seq ?_
      refine (turns_pushStep hs).seq ?_
      refine (turns_op [.half, .half, .half, .half] (by decide) rfl).seq ?_
      refine (turns_op [.half, .half] (by decide) rfl).seq ?_
      refine (turns_loadNumber hl hlt).seq ?_
      refine (turns_op [.half, .half, .half, .half] (by decide) rfl).seq ?_
      refine (turns_op [.int] (by decide) rfl).seq ?_
      exact leads_jump (by decide) (by decide) rfl he
  exact hcases _

theorem turns_advance {step : Step} {x : Local} (hs : step.Fits W) (hx : W.Has x)
    (hxt : x.ty = .int) : Turns env W [] (advance step x) [] := by
  have hadd : Turns env W [] (do load x; pushStep step; op .iadd; store x) [] := by
    refine (turns_loadNumber hx hxt).seq ?_
    refine (turns_pushStep hs).seq ?_
    refine (turns_op [.int] (by decide) rfl).seq ?_
    exact turns_storeAs hx (by rw [hxt]; rfl)
  unfold advance
  cases step with
  | computed l => exact hadd
  | constant n =>
    dsimp only
    by_cases hn : n ≤ 0x7fff
    · rw [if_pos hn]
      refine turns_increment hx (by rw [hxt]; rfl) ?_
      have hpos : 0 < n.toInt := Int32.lt_iff_toInt_lt.mp hs
      have hmax : n.toInt ≤ 0x7fff := Int32.le_iff_toInt_le.mp hn
      omega
    · rw [if_neg hn]
      exact hadd

/-- The turns of a loop over a range whose bounds and step are known. -/
theorem yields_rangeTurns {v last : Local} {step : Step} {body : Emit Unit}
    (hv : W.Has v) (hvt : v.ty = .int) (hl : W.Has last) (hlt : last.ty = .int) (hs : step.Fits W)
    (hbody : Emits Φ result true Γ Γ lo hi body) (h : Scene Φ result inLoop Γ lo env W)
    (hΓ : W.Holds Γ) :
    Yields env W [] (do
      let top ← newLabel
      let next ← newLabel
      let exit ← newLabel
      bindLabel top
      load v
      load last
      jump .ifIcmpGt exit
      Emit.inLoop exit next body
      bindLabel next
      testRange step v last exit
      advance step v
      jump .goto top
      bindLabel exit) hi [] := by
  refine writes_of_ok fun hok => ?_
  refine (World.Opened.refl W).newLabel ⟨[], W.locals⟩ (fun _ _ h => h) fun top V₀ h₀ => ?_
  refine h₀.newLabel ⟨[], W.locals⟩ (fun _ _ h => h) fun next V₁ h₁ => ?_
  refine h₁.newLabel ⟨[], W.locals⟩ (fun _ _ h => h) fun exit V ho => ?_
  have htarget {l : Nat} (hl : l = top ∨ l = next ∨ l = exit) :
      (V.looping top W.locals).Target l [] :=
    ho.looping_target (by rcases hl with rfl | rfl | rfl <;> simp)
  have hloop : (W.within top).Past [exit, next] (V.looping top W.locals) :=
    ho.looping [exit, next] [] rfl
  refine (ho.bindTop hok (by simp)).seq ?_
  refine (turns_loadNumber (hloop.has hv) hvt).seq ?_
  refine (turns_loadNumber (hloop.has hl) hlt).seq ?_
  refine (leads_jump (by decide) (by decide) rfl (htarget (.inr (.inr rfl)))).seq ?_
  have h₁ := hloop.jumped exit
  refine (hbody.looped ((h.within top).next h₁ (h₁.holds hΓ) (ho.count ▸ h.count))
    (htarget (.inr (.inr rfl))) (htarget (.inr (.inl rfl)))).seq fun W₂ hn₂ hc₂ => ?_
  obtain ⟨hnext, h₃, hexit, htop⟩ := ho.bindNext hok (((World.Past.refl _).jumped exit).trans hn₂)
  refine hnext.seq ?_
  refine (leads_testRange (hs.next (W := W.within top) h₃) (h₃.has hv) hvt (h₃.has hl) hlt hexit).seq ?_
  have h₄ := h₃.jumped exit
  refine (turns_advance (hs.next (W := W.within top) h₄) (h₄.has hv) hvt).seq ?_
  refine (leads_goto (((World.Past.refl _).jumped exit).target htop)).seq ?_
  obtain ⟨hlast, hafter⟩ := leads_exit (h₄.jumped top)
    (ho.above hok (by simp)) (hn₂.mark (ho.label exit ⟨[], W.locals⟩ (by simp)))
  exact hlast.ready hafter hc₂

/-- `for` over a range. -/
theorem yields_rangeLoop {x : Ident} {sym : Symbol} {m : Mark} {first last : Expr}
    {step : Option Expr} {body : Emit Unit} {a b : Nat} (hx : x.sym = some sym)
    (hd : sym.Declares r mid) (hty : sym.ty = .int) (hfirst : first.piece.Compiles Φ Γ lo a .int)
    (hlast : last.piece.Compiles Φ Γ a b .int) (hstep : StepCompiles Φ Γ b mid step) (hle : b ≤ mid)
    (hbody : Emits Φ result true (sym :: Γ) (sym :: Γ) (mid + 1) hi body)
    (h : Scene Φ result inLoop Γ lo env W) (hΓ : W.Holds Γ) :
    Yields env W [] (rangeLoop x (.mk m first last step) body) hi [] := by
  unfold rangeLoop
  dsimp only
  rw [symbolOf_eq hx, pure_bind]
  have hlow : a ≤ mid := Nat.le_trans hlast.le hle
  refine (hfirst.value (h.stage hΓ)).seq fun W₁ hn₁ hc₁ => ?_
  have ha₁ : W₁.ahead = none := hn₁.ahead.trans h.ahead
  rw [show Ty.kinds .int ++ [] = [sym.ty.localKind.kind] by rw [hty]; rfl]
  -- The variable of the loop comes before those of the other bound and of the step.
  refine writes_keepIn W₁.count (some mid) (hn₁.numbered.trans h.numbered) (fun hnum => ?_) (fun i hi => ?_)
    fun v W₂ hv hn₂ hhas₂ hvar₂ hc₂ ha₂ => ?_
  · rw [World.Numbered, ha₁, hd.id] at hnum
    exact hnum.elim (fun hlt => absurd hlt (by dsimp only; omega)) nofun
  · rcases hi with (hlt | ha) | rfl
    · exact .inl hlt
    · rw [ha₁] at ha
      cases ha
    · exact .inr (by rw [hd.id])
  have hahead {i : Nat} (hi : W₂.ahead = some i) : mid ≤ i := by
    rw [ha₂] at hi
    exact Nat.le_of_eq (Option.some.inj hi)
  have hstage₂ : Stage Φ Γ a mid env W₂ :=
    ⟨h.knows, (hn₁.trans hn₂).holds hΓ, by omega, fun i hi => hahead hi,
      (hn₁.trans hn₂).numbered.trans h.numbered⟩
  refine (hlast.value (hstage₂.upTo hle)).seq fun W₃ hn₃ hc₃ => ?_
  refine writes_keep (hn₃.numbered.trans hstage₂.numbered) fun last' W₄ hlast' hn₄ hhas₄ hc₄ => ?_
  refine writes_rangeStep hstep hle ((hstage₂.next (hn₃.trans hn₄) (by omega)))
    fun step W₅ hn₅ hc₅ hfits => ?_
  have hrest := hn₃.trans (hn₄.trans hn₅)
  refine writes_settle (i := mid) hc₅ (hrest.ahead.trans ha₂) ?_
  have hn₆ : W.Next { W₅ with count := mid + 1, ahead := none } :=
    hn₁.trans (hn₂.trans { hrest with ahead := ha₁.symm })
  have hΔ : World.Holds { W₅ with count := mid + 1, ahead := none } (sym :: Γ) :=
    (hn₆.holds hΓ).cons (hrest.vars _ _ hvar₂) hv (hrest.has hhas₂)
  have hsettled : step.Fits { W₅ with count := mid + 1, ahead := none } := by
    cases step <;> exact hfits
  have hturns := yields_rangeTurns (W := { W₅ with count := mid + 1, ahead := none }) (hrest.has hhas₂) (hv.trans hty) (hn₅.has hhas₄)
    hlast' hsettled hbody (h.next hn₆ hΔ (Nat.le_refl _)) hΔ
  exact hturns.ready hn₆

/-! ## Collections -/

/-- The number of elements. -/
theorem turns_size (kind : CollectionKind) :
    Turns env W (.ref :: st)
      (match kind with
        | .list => callInterface Jvm.list "size" "()I"
        | .array => op .arrayLength) (.int :: st) := by
  cases kind with
  | list => exact turns_callInterface [] [.int] (by decide) (by decide) (by decide)
  | array => exact turns_op _ (by decide) rfl

/-- The turns of a loop over a collection that is known. The variable of the loop has a slot, which
gets a value in every turn. -/
theorem yields_elementTurns {c i v : Local} {sym : Symbol} {kind : CollectionKind} {s : Scalar}
    {body : Emit Unit} (hc : W.Has c) (hct : c.ty = kind.ty s) (hx : W.Has i) (hit : i.ty = .int)
    (hslot : v.slot < W.next) (hfree : W.locals v.slot = none) (hvt : v.ty = .scalar s)
    (hvar : W.vars sym.id = some v) (hty : sym.ty = .scalar s)
    (hbody : Emits Φ result true (sym :: Γ) (sym :: Γ) lo hi body)
    (h : Scene Φ result inLoop Γ lo env W) (hΓ : W.Holds Γ) :
    Yields env W [] (do
      let top ← newLabel
      let next ← newLabel
      let exit ← newLabel
      bindLabel top
      load i
      load c
      match kind with
        | .list => callInterface Jvm.list "size" "()I"
        | .array => op .arrayLength
      jump .ifIcmpGe exit
      load c
      load i
      loadElement kind s
      store v
      Emit.inLoop exit next body
      bindLabel next
      increment i 1
      jump .goto top
      bindLabel exit) hi [] := by
  refine writes_of_ok fun hok => ?_
  refine (World.Opened.refl W).newLabel ⟨[], W.locals⟩ (fun _ _ h => h) fun top V₀ h₀ => ?_
  refine h₀.newLabel ⟨[], W.locals⟩ (fun _ _ h => h) fun next V₁ h₁ => ?_
  refine h₁.newLabel ⟨[], W.locals⟩ (fun _ _ h => h) fun exit V ho => ?_
  have htarget {l : Nat} (hl : l = top ∨ l = next ∨ l = exit) :
      (V.looping top W.locals).Target l [] :=
    ho.looping_target (by rcases hl with rfl | rfl | rfl <;> simp)
  have hloop : (W.within top).Past [exit, next] (V.looping top W.locals) :=
    ho.looping [exit, next] [] rfl
  have h₁ := hloop.jumped exit
  have hkind : c.ty.localKind.kind = .ref := by rw [hct, CollectionKind.localKind_ty]; rfl
  have hturn : Writes env (((V.looping top W.locals).jumped exit).withStack []) (do
      load c
      load i
      loadElement kind s
      store v
      Emit.inLoop exit next body
      bindLabel next
      increment i 1
      jump .goto top
      bindLabel exit) fun _ V => W.Ready hi [] V := by
    refine (turns_loadAs (h₁.has hc) hkind).seq ?_
    refine (turns_loadNumber (h₁.has hx) hit).seq ?_
    refine (turns_loadElement kind s).seq ?_
    rw [← hvt]
    have hlt : v.slot < ((V.looping top W.locals).jumped exit).next :=
      Nat.lt_of_lt_of_le hslot h₁.next
    refine (leads_store hlt).seq ?_
    -- The slot was free before the loop, and nothing is known of it at the labels.
    have hstore : (V.looping top W.locals).Next
        (((V.looping top W.locals).jumped exit).storing v) :=
      ((World.Past.refl _).jumped exit).storing fun k hk => by
        rw [show W.locals v.slot = some k from hk] at hfree
        cases hfree
    have h₂ := hloop.trans hstore
    have hΔ := (h₂.holds hΓ).cons (h₂.vars _ _ hvar) (hvt.trans hty.symm)
      (World.storing_has _ v)
    refine (hbody.looped ((h.within top).next h₂ hΔ (ho.count ▸ h.count))
      (hstore.target (htarget (.inr (.inr rfl)))) (hstore.target (htarget (.inr (.inl rfl))))).seq fun W₂ hn₂ hc₂ => ?_
    obtain ⟨hnext, h₃, hexit, htop⟩ := ho.bindNext hok (hstore.trans hn₂)
    refine hnext.seq ?_
    refine (turns_increment (h₃.has hx) (by rw [hit]; rfl) (by decide)).seq ?_
    refine (leads_goto htop).seq ?_
    obtain ⟨hlast, hafter⟩ := leads_exit (h₃.jumped top) (ho.above hok (by simp))
      ((hstore.trans hn₂).mark (ho.label exit ⟨[], W.locals⟩ (by simp)))
    exact hlast.ready hafter hc₂
  refine (ho.bindTop hok (by simp)).seq ?_
  refine (turns_loadNumber (hloop.has hx) hit).seq ?_
  refine (turns_loadAs (hloop.has hc) hkind).seq ?_
  have hjump : Leads env ((V.looping top W.locals).withStack [.int, .int]) (jump .ifIcmpGe exit)
      (((V.looping top W.locals).jumped exit).withStack []) :=
    leads_jump (by decide) (by decide) rfl (htarget (.inr (.inr rfl)))
  cases kind with
  | list => exact Turns.seq (turns_size .list) (hjump.seq hturn)
  | array => exact Turns.seq (turns_size .array) (hjump.seq hturn)

/-- The collection, the index and the variable of the loop get their slots. -/
theorem writes_elementStart {tok : Token} {x : Ident} {sym : Symbol} {p : Piece}
    {f : Local → Local → Local → Emit Unit} {Q : Unit → World → Prop} {kind : CollectionKind}
    {s : Scalar} (hx : x.sym = some sym) (hd : sym.Declares r mid)
    (hp : p.Compiles Φ Γ lo mid (kind.ty s)) (h : Scene Φ result inLoop Γ lo env W) (hΓ : W.Holds Γ)
    (hf : ∀ c i v W', W.Next W' → c.ty = kind.ty s → W'.Has c → i.ty = .int → W'.Has i →
      v.ty = sym.ty → v.slot < W'.next → W'.locals v.slot = none → W'.vars sym.id = some v →
      W'.count = mid + 1 → Writes env (W'.withStack []) (f c i v) Q) :
    Writes env (W.withStack []) (do
      p.value
      let c ← scratch (kind.ty s) p.expr.tok
      store c
      let i ← scratch .int tok
      pushInt 0
      store i
      let v ← declare (← symbolOf x) x.tok
      f c i v) Q := by
  refine (hp.value (h.stage hΓ)).seq fun W₁ hn₁ hc₁ => ?_
  rw [Ty.kinds_of_ne (by cases kind <;> nofun), List.append_nil]
  have hw := h.numbered
  refine writes_keep (hn₁.numbered.trans hw) fun c W₂ hc hn₂ hhas₂ hc₂ => ?_
  refine writes_scratch ((hn₁.trans hn₂).numbered.trans hw) fun hfree => ?_
  refine (turns_pushInt 0).seq ?_
  refine (leads_store (l := ⟨W₂.next, .int⟩) (Nat.lt_succ_self _)).seq ?_
  have hn₃ : W₂.Next (W₂.widened.storing ⟨W₂.next, .int⟩) :=
    (World.Past.refl W₂).widened.storing fun k hk => by
      rw [show W₂.locals W₂.next = some k from hk] at hfree
      cases hfree
  have hn : W.Next (W₂.widened.storing ⟨W₂.next, .int⟩) := hn₁.trans (hn₂.trans hn₃)
  have ha : (W₂.widened.storing ⟨W₂.next, .int⟩).ahead = none := hn.ahead.trans h.ahead
  have hnum : ∀ i, (W₂.widened.storing ⟨W₂.next, .int⟩).Numbered i → i < mid := fun i hi => by
    rcases hi with hlt | hi
    · exact Nat.lt_of_lt_of_le (hc₂ ▸ hlt) hc₁
    · rw [ha] at hi
      cases hi
  rw [symbolOf_eq hx, pure_bind]
  refine writes_declare (mid + 1) (W₂.widened.storing ⟨W₂.next, .int⟩).ahead
    (hn.numbered.trans hw) (fun hlt => ?_) (fun i hi => ?_) fun hfree' hnone => ?_
  · rw [hd.id] at hlt
    exact Nat.lt_irrefl _ (hnum _ hlt)
  · rcases hi with hi | rfl
    · exact .inl (Nat.lt_succ_of_lt (hnum i hi))
    · rw [hd.id]
      exact .inl (Nat.lt_succ_self _)
  · have hn₄ := (World.Past.refl (W₂.widened.storing ⟨W₂.next, .int⟩)).declared hnone (mid + 1)
    exact hf c ⟨W₂.next, .int⟩ _ _ (hn.trans hn₄) hc (hn₄.has (hn₃.has hhas₂)) rfl
      (hn₄.has (World.storing_has _ _)) rfl (Nat.lt_succ_self _) hfree' (if_pos rfl) rfl

/-- `for` over a collection. -/
theorem yields_elementLoop {tok : Token} {x : Ident} {sym : Symbol} {p : Piece} {body : Emit Unit}
    {kind : CollectionKind} {s : Scalar} (hx : x.sym = some sym) (hd : sym.Declares r mid)
    (hty : sym.ty = .scalar s) (hp : p.Compiles Φ Γ lo mid (kind.ty s))
    (hbody : Emits Φ result true (sym :: Γ) (sym :: Γ) (mid + 1) hi body)
    (h : Scene Φ result inLoop Γ lo env W) (hΓ : W.Holds Γ) :
    Yields env W [] (elementLoop tok x p body) hi [] := by
  unfold elementLoop
  rw [typeOf_eq hp.recorded, pure_bind]
  cases kind with
  | list =>
    refine writes_elementStart hx hd hp h hΓ
      fun c i v W' hn hct hc hit hi hvt hslot hfree hvar hcount => ?_
    exact (yields_elementTurns hc hct hi hit hslot hfree (hvt.trans hty) hvar hty
      hbody (h.next hn (hn.holds hΓ) (Nat.le_of_eq hcount)) (hn.holds hΓ)).ready hn
  | array =>
    refine writes_elementStart hx hd hp h hΓ
      fun c i v W' hn hct hc hit hi hvt hslot hfree hvar hcount => ?_
    exact (yields_elementTurns hc hct hi hit hslot hfree (hvt.trans hty) hvar hty
      hbody (h.next hn (hn.holds hΓ) (Nat.le_of_eq hcount)) (hn.holds hΓ)).ready hn

end Loops

end Emit

/-! ## All statements -/

open ClassFile Emit

variable {Φ : Signatures} {r : Nat} {result : Ty}

/-- The code of what a loop runs over, with that of its body. -/
theorem Header.yields_emit {Γ : List Symbol} {lo mid hi : Nat} {inLoop : Bool} {tok : Token}
    {x : Ident} {sym : Symbol} {body : Emit Unit} {env : Env} {W : World} {header : Header}
    (hx : x.sym = some sym) (hd : sym.Declares r mid) (hh : header.Typed Φ r Γ lo mid sym.ty)
    (hbody : Emits Φ result true (sym :: Γ) (sym :: Γ) (mid + 1) hi body) (hΓ : Context r lo Γ)
    (h : Scene Φ result inLoop Γ lo env W) (hW : W.Holds Γ) :
    Yields env W [] (header.emit tok x body) hi [] := by
  cases header with
  | range rg =>
    obtain ⟨m, first, last, step⟩ := rg
    obtain ⟨hty, a, b, hfirst, hlast, hstep⟩ := hh
    have hfirst' := Expr.compiles_piece first hfirst hΓ
    have hlast' := Expr.compiles_piece last hlast (hΓ.mono hfirst'.le)
    have hlow := hΓ.mono (Nat.le_trans hfirst'.le hlast'.le)
    cases step with
    | none => exact yields_rangeLoop hx hd hty hfirst' hlast' hstep (Nat.le_of_eq hstep) hbody h hW
    | some e =>
      have he := Expr.compiles_piece e hstep.1 hlow
      exact yields_rangeLoop hx hd hty hfirst' hlast' ⟨he, hstep.2⟩ he.le hbody h hW
  | each e =>
    obtain ⟨kind, s, hs, hty, he⟩ := hh
    exact yields_elementLoop hx hd hty (Expr.compiles_piece e he hΓ) hbody h hW

mutual

/-- The code of a statement. -/
theorem Stmt.emits {inLoop : Bool} {Γ : List Symbol} {lo hi : Nat} : (s : Stmt) →
    s.Typed Φ r result inLoop Γ lo hi → Context r lo Γ →
      Emits Φ result inLoop Γ (s.extend Γ) lo hi s.emit
  | .decl tok isMutable name ty none, h, hΓ => by
    obtain ⟨mid, sym, hsym, hd, rfl, rfl⟩ := h
    refine emits_guarded (Nat.le_succ lo) fun hs hW => ?_
    rw [Stmt.extend, hsym]
    exact done_declarationDefault hsym hd (hs.stage hW) hs.ahead
  | .decl tok isMutable name ty (some e), h, hΓ => by
    obtain ⟨mid, sym, hsym, hd, rfl, t, he, ha, hu⟩ := h
    have he' := Expr.compiles_piece e he hΓ
    refine emits_guarded (Nat.le_succ_of_le he'.le) fun hs hW => ?_
    rw [Stmt.extend, hsym]
    exact done_declaration hsym hd he' ha hu (hs.stage hW) hs.ahead
  | .assign tok (.name id) value, ⟨want, hid, t, hv, ha, hu⟩, hΓ => by
    have hv' := Expr.compiles_piece value hv hΓ
    exact emits_guarded hv'.le fun hs hW => (yields_assignName hid hv' ha hu (hs.stage hW)).done hW
  | .assign tok (.element m base index) value, ⟨kind, s, mid, hb, hx, t, hv, ha, hu⟩, hΓ => by
    have hx' := Expr.compiles_piece index hx hΓ
    have hv' := Expr.compiles_piece value hv (hΓ.mono hx'.le)
    exact emits_guarded (Nat.le_trans hx'.le hv'.le) fun hs hW =>
      (yields_assignElement hb hx' hv' ha hu (hs.stage hW)).done hW
  | .compound tok target op value, ⟨hop, mid, ht, hv⟩, hΓ => by
    have hle := Target.updates_le target ht
    have hv' := Expr.compiles_piece value hv (hΓ.mono hle)
    exact emits_guarded (Nat.le_trans hle hv'.le) fun hs hW =>
      (yields_compound hop (Target.updates_place target ht hΓ) hv' (hs.stage hW)).done hW
  | .selfOp tok (.mk m sign before target), ⟨_, ht⟩, hΓ =>
    emits_guarded (Target.updates_le target ht) fun hs hW =>
      (yields_selfOp (Target.updates_place target ht hΓ) (hs.stage hW)).done hW
  | .print tok newline none, h, hΓ => by
    subst h
    exact emits_guarded (Nat.le_refl _) fun hs hW => (yields_printingLine hs.count).done hW
  | .print tok newline (some e), ⟨t, he, ht⟩, hΓ => by
    have he' := Expr.compiles_piece e he hΓ
    exact emits_guarded he'.le fun hs hW => (yields_printing he' ht (hs.stage hW)).done hW
  | .ifElse tok cond a b, ⟨m, n, hc, ha, hb⟩, hΓ => by
    have hc' := Expr.compiles_piece cond hc hΓ
    have hmn := Block.typed_le a ha
    have hnhi := Block.typedOption_le b hb
    refine emits_guarded (Nat.le_trans hc'.le (Nat.le_trans hmn hnhi)) fun hs hW => ?_
    have hthen := Block.emits a ha (hΓ.mono hc'.le)
    refine Yields.done (yields_branching hc' hthen (fun x hx => ?_) hnhi hs hW) hW
    exact Block.emits_option b hb (hΓ.mono (Nat.le_trans hc'.le hmn)) x hx
  | .whileLoop tok cond body, ⟨m, hc, hb⟩, hΓ => by
    have hc' := Expr.compiles_piece cond hc hΓ
    refine emits_guarded (Nat.le_trans hc'.le (Block.typed_le body hb)) fun hs hW => ?_
    exact (yields_whileLoop hc' (Block.emits body hb (hΓ.mono hc'.le)) hs hW).done hW
  | .forLoop tok x header body, ⟨mid, sym, hx, hd, hh, hb⟩, hΓ => by
    have hle := Header.typed_le hh
    have hb' := Block.emits body hb ((hΓ.mono hle).cons hd)
    refine emits_guarded (Nat.le_trans hle (Nat.le_trans (Nat.le_succ mid) (Block.typed_le body hb)))
      fun hs hW => ?_
    exact (Header.yields_emit hx hd hh hb' hΓ hs hW).done hW
  | .function _, h, _ => h.elim
  | .call tok c, ⟨t, hc⟩, hΓ => by
    have hc' := Expr.compiles_piece (.call c) hc hΓ
    exact emits_guarded hc'.le fun hs hW => (yields_effect hc' (hs.stage hW)).done hW
  | .ret tok none, ⟨hr, hle⟩, hΓ => by
    subst hr hle
    exact emits_guarded (Nat.le_refl _) fun hs hW => (yields_returning hs).done hW
  | .ret tok (some e), ⟨hr, t, he, ha, hu⟩, hΓ => by
    have he' := Expr.compiles_piece e he hΓ
    exact emits_guarded he'.le fun hs hW => (yields_returningValue hs hW hr he' ha hu).done hW
  | .brk tok, ⟨hin, hle⟩, hΓ => by
    subst hin hle
    exact emits_guarded (Nat.le_refl _) fun hs hW => (yields_leaving hs (.inl rfl)).done hW
  | .cont tok, ⟨hin, hle⟩, hΓ => by
    subst hin hle
    exact emits_guarded (Nat.le_refl _) fun hs hW => (yields_leaving hs (.inr rfl)).done hW
  | .block b, h, hΓ => Block.emits b h hΓ

/-- The code of several statements. -/
theorem Stmt.yields_emitList {inLoop : Bool} {Γ : List Symbol} {lo hi : Nat} : (ss : List Stmt) →
    Stmt.ListTyped Φ r result inLoop Γ lo hi ss → Context r lo Γ →
      ∀ env W, Scene Φ result inLoop Γ lo env W → Yields env W [] (Stmt.emitList ss) hi []
  | [], h, _, env, W, hs => turns_nothing.yields (h ▸ hs.count)
  | s :: ss, ⟨mid, hs, hss⟩, hΓ, env, W, hscene => by
    unfold Stmt.emitList
    refine writes_bind (Stmt.emits s hs hΓ env W hscene) fun _ V ⟨W₁, hn, hc, hW₁, hV⟩ => ?_
    rw [hV]
    exact (Stmt.yields_emitList ss hss (hΓ.extend hs) env W₁ (hscene.around hn hc hW₁)).ready hn

/-- The code of statements in braces. -/
theorem Block.emits {inLoop : Bool} {Γ : List Symbol} {lo hi : Nat} : (b : Block) →
    b.Typed Φ r result inLoop Γ lo hi → Context r lo Γ → Emits Φ result inLoop Γ Γ lo hi b.emit
  | .mk _ ss _, h, hΓ =>
    emits_guarded (Stmt.listTyped_le ss h) fun hs hW =>
      (Stmt.yields_emitList ss h hΓ _ _ hs).done hW

/-- The code of a block that may be absent. -/
theorem Block.emits_option {inLoop : Bool} {Γ : List Symbol} {lo hi : Nat} : (b : Option Block) →
    Block.TypedOption Φ r result inLoop Γ lo hi b → Context r lo Γ →
      ∀ x, Block.emitOption b = some x → Emits Φ result inLoop Γ Γ lo hi x
  | none, _, _, _, hx => nomatch hx
  | some b, h, hΓ, _, hx => Option.some.inj hx ▸ Block.emits b h hΓ

end

end Kotlet

import Kotlet.Proofs.Jvm.Expr

/-!
# Code for simple statements follows the evaluator

* `Lands` : where the machine is after a statement, by the way in which that ended;
* `Runs` : code that does what a statement does, `Performs` : between two states; `runs_guarded`,
  `Runs.follow` : with the checks around it, and one after another;
* `runs_decl`, `runs_assign`, `runs_compound`, `runs_selfOp`, `runs_print` : statements about
  variables and the output;
* `runs_ifThen`, `runs_ifElse`, `runs_leaving`, `runs_returning` : statements about the way on.
-/

namespace Kotlet
namespace Emit

open ClassFile

/-! ## Statements -/

/-- What code generation needs to know where a statement stands in the script. -/
structure Ready (env : Env) (s : State) : Prop where
  apart : s.body.Apart
  result : env.result = .unit
  loop : ∀ l, env.loop = some l →
    l.breakTo < s.body.code.labels.size ∧ l.continueTo < s.body.code.labels.size

theorem Ready.later {env : Env} {s s' : State} (h : Ready env s) (hb : s.Begins s') :
    Ready env s' :=
  ⟨hb.apart h.apart, h.result, fun l hl => ⟨hb.size (h.loop l hl).1, hb.size (h.loop l hl).2⟩⟩

/-- Where the machine is after a statement that began in the state `σ`, when the slots from `n` on
were free. The variables `Γ'` are there for the next statement. -/
inductive Lands (W : Whole) (loop : Option Loop) (Γ Γ' : List Symbol) (n : Nat) (σ : Jvm.State)
    (s' : State) :
    Flow → Machine → Jvm.State → Prop where
  | next {m' : Machine} {σ' : Jvm.State} (hat : s'.At σ') (leaves : Leaves W Γ n σ σ.stack m' σ')
    (shown : Matches W Γ' m' σ')
    (fresh : ∀ sym ∈ Γ', sym ∈ Γ ∨ ∀ l, W.slots sym.id = some l → n ≤ l.slot) :
    Lands W loop Γ Γ' n σ s' .next m' σ'
  | broke {m' : Machine} {σ' : Jvm.State} {l : Loop} (hl : loop = some l)
    (hat : s'.AtLabel W l.breakTo σ')
    (leaves : Leaves W Γ n σ σ.stack m' σ') : Lands W loop Γ Γ' n σ s' .broke m' σ'
  | continued {m' : Machine} {σ' : Jvm.State} {l : Loop} (hl : loop = some l)
    (hat : s'.AtLabel W l.continueTo σ') (leaves : Leaves W Γ n σ σ.stack m' σ') :
    Lands W loop Γ Γ' n σ s' .continued m' σ'
  | returned {m' : Machine} {σ' : Jvm.State} {v : Value}
    (hends : Jvm.Ends W.pool W.code.bytes σ' m'.out .returned) :
    Lands W loop Γ Γ' n σ s' (.returned v) m' σ'

/-- The steps write code that does what a statement does. -/
def Runs (Γ Γ' : List Symbol) (x : Emit Unit) (y : Nat → Eval Flow) : Prop :=
  ∀ ⦃env : Env⦄ ⦃s s' : State⦄ ⦃u : Unit⦄, Ready env s → x env s = .ok (u, s') → s.Begins s' ∧
    ∀ ⦃W : Whole⦄ ⦃fuel : Nat⦄ ⦃m : Machine⦄ ⦃σ : Jvm.State⦄, Span W s s' → s.At σ →
      Matches W Γ m σ →
      Follows W σ (y fuel) m (Lands W env.loop Γ Γ' s.body.next σ s')

section Lands

variable {W : Whole} {loop : Option Loop} {Γ Γ' Γ'' Δ : List Symbol} {n k : Nat}
    {σ τ σ' : Jvm.State}
  {s₁ s' : State} {flow : Flow} {m m' : Machine}

/-- A statement after which the same variables are there. -/
theorem Lands.stay (hat : s'.At σ') (h : Leaves W Γ n σ σ.stack m' σ') :
    Lands W loop Γ Γ n σ s' .next m' σ' := .next hat h h.shown fun _ hs => .inl hs

/-- The variables of a block are gone after it. -/
theorem Lands.leave (h : Lands W loop Γ Γ' n σ s' flow m' σ') :
    Lands W loop Γ Γ n σ s' flow m' σ' := by
  cases h with
  | next hat leaves _ _ => exact .stay hat leaves
  | broke hl hat leaves => exact .broke hl hat leaves
  | continued hl hat leaves => exact .continued hl hat leaves
  | returned hends => exact .returned hends

/-- A statement that began where another one had gone on. -/
theorem Lands.after (h : Lands W loop Γ' Γ'' k τ s' flow m' σ')
    (hbefore : Leaves W Γ n σ σ.stack m τ) (hn : n ≤ k)
    (hsub : ∀ sym ∈ Γ, sym ∈ Γ')
    (hfresh : ∀ sym ∈ Γ', sym ∈ Γ ∨ ∀ l, W.slots sym.id = some l → n ≤ l.slot) :
    Lands W loop Γ Γ'' n σ s' flow m' σ' := by
  have hleaves {m' : Machine} {σ' : Jvm.State} (h : Leaves W Γ' k τ τ.stack m' σ') :
    Leaves W Γ n σ σ.stack m' σ' :=
    ⟨h.stack.trans hbefore.stack, h.shown.subset hsub, hbefore.frame.trans (h.frame.less hn hfresh)⟩
  cases h with
  | next hat leaves shown fresh =>
    refine .next hat (hleaves leaves) shown fun sym hs => ?_
    rcases fresh sym hs with hs | hle
    · exact hfresh sym hs
    · exact .inr fun l hl => Nat.le_trans hn (hle l hl)
  | broke hl hat leaves => exact .broke hl hat (hleaves leaves)
  | continued hl hat leaves => exact .continued hl hat (hleaves leaves)
  | returned hends => exact .returned hends

end Lands

section Runs

variable {Γ Γ' Γ'' : List Symbol} {x x' : Emit Unit} {y y' : Nat → Eval Flow}

/-- Between two states the machine does what a statement does. -/
def Performs (W : Whole) (loop : Option Loop) (Γ Γ' : List Symbol) (y : Nat → Eval Flow)
    (s s' : State) : Prop :=
  ∀ ⦃fuel : Nat⦄ ⦃m : Machine⦄ ⦃σ : Jvm.State⦄, s.At σ → Matches W Γ m σ →
    Follows W σ (y fuel) m (Lands W loop Γ Γ' s.body.next σ s')

theorem Runs.spans {env : Env} {s : State} (h : Runs Γ Γ' x y) (hready : Ready env s) :
    Spans env s x fun W _ s' => Performs W env.loop Γ Γ' y s s' := by
  intro u s' hx
  obtain ⟨hb, hr⟩ := h hready hx
  exact ⟨hb, fun W hW fuel m σ => hr hW⟩

theorem runs_of_spans (h : ∀ env s, Ready env s →
    Spans env s x fun W _ s' => Performs W env.loop Γ Γ' y s s') : Runs Γ Γ' x y := by
  intro env s s' u hready hx
  obtain ⟨hb, hr⟩ := h env s hready hx
  exact ⟨hb, fun W fuel m σ hW => @hr W hW fuel m σ⟩

theorem code_bind {α : Type} {f : ClassFile.Code → Emit α} {env : Env} {s : State} :
    (code >>= f) env s = f s.body.code env s := rfl

theorem read_bind {α : Type} {f : Env → Emit α} {env : Env} {s : State} :
    (read >>= f) env s = f env env s := rfl

/-- A statement with the checks around it. -/
theorem guarded_ok {tok : Token} {env : Env} {s s' : State} {u : Unit}
    (h : guarded tok x env s = .ok (u, s')) :
    (s.body.code.reachable = true ∧ x env s = .ok ((), s')) ∨
      (s.body.code.reachable = false ∧ s' = s) := by
  unfold guarded at h
  rw [code_bind] at h
  cases hr : s.body.code.reachable with
  | false =>
    rw [hr, if_neg (by decide)] at h
    exact .inr ⟨rfl, (pure_ok h).2⟩
  | true =>
    rw [hr, if_pos rfl, code_bind] at h
    obtain ⟨_, s₁, h₁, h⟩ := bind_ok h
    rw [code_bind] at h
    refine .inl ⟨rfl, ?_⟩
    cases he : s₁.body.code.error with
    | some e =>
      simp only [he] at h
      obtain ⟨_, _, hrej, -⟩ := bind_ok h
      exact (reject_ok hrej).elim
    | none =>
      simp only [he] at h
      rw [code_bind, code_bind] at h
      split at h
      · exact (reject_ok h).elim
      · obtain ⟨-, rfl⟩ := pure_ok h
        exact h₁

theorem runs_guarded {tok : Token} (h : Runs Γ Γ' x y) : Runs Γ Γ' (guarded tok x) y := by
  intro env s s' u hready hx
  obtain ⟨-, hx⟩ | ⟨hdead, rfl⟩ := guarded_ok hx
  · exact h hready hx
  · refine ⟨.refl _, fun W fuel m σ _ hσ _ => ?_⟩
    exact absurd (hσ.live.symm.trans hdead) (by decide)

theorem runs_nothing : Runs Γ Γ (pure ()) fun _ => pure .next :=
  runs_of_spans fun _ _ _ => spans_pure fun _ _ _ _ _ hσ hm => follows_pure (.stay hσ (.refl hm))

/-- One statement after another. -/
theorem Runs.follow (hsub : ∀ sym ∈ Γ, sym ∈ Γ') (h : Runs Γ Γ' x y) (h' : Runs Γ' Γ'' x' y') :
    Runs Γ Γ'' (do x; x') fun fuel => do
      match ← y fuel with
      | .next => y' fuel
      | flow => return flow := by
  refine runs_of_spans fun env s hready => ?_
  refine (h.spans hready).bind fun _ s₁ _ b₁ => ?_
  refine (h'.spans (hready.later b₁)).imp fun W _ s' hW p₂ p₁ fuel m σ hσ hm => ?_
  refine (p₁ hσ hm).bind fun flow m₁ σ₁ hlands => ?_
  cases hlands with
  | next hat leaves shown fresh =>
    exact (p₂ hat shown).imp fun flow m₂ σ₂ hlands => hlands.after leaves b₁.next hsub fresh
  | broke hl hat leaves => exact follows_pure (.broke hl (hat.later hW.begins) leaves)
  | continued hl hat leaves => exact follows_pure (.continued hl (hat.later hW.begins) leaves)
  | returned hends => exact follows_pure (.returned hends)

/-- A statement takes one unit of fuel more than what it consists of. -/
theorem Runs.step {tok : Token} (h : Runs Γ Γ' x y) (hzero : y' 0 = Eval.fail .outOfFuel tok)
    (hsucc : ∀ fuel, y' (fuel + 1) = y fuel) : Runs Γ Γ' x y' := by
  refine runs_of_spans fun env s hready => (h.spans hready).imp fun W _ s' _ p fuel m σ hσ hm => ?_
  cases fuel with
  | zero =>
    rw [hzero]
    exact follows_outOfFuel
  | succ fuel =>
    rw [hsucc]
    exact p hσ hm

end Runs

/-! ## Variables -/

section Variables

variable {F : List FunDecl} {Γ V : List Symbol} {W : Whole} {m : Machine}
    {σ : Jvm.State} {n k : Nat}
  {sym : Symbol} {tok : Token}

/-- A slot that is no variable's gets another value. -/
theorem Matches.set (h : Matches W Γ m σ) (hk : ∀ x ∈ Γ, ∀ l, W.slots x.id = some l → l.slot ≠ k)
    (w : Jvm.Word) :
    Matches W Γ m (σ.set k w) := by
  refine ⟨h.out, fun x hx => ?_⟩
  obtain ⟨l, v, w', hl, hty, hv, hshow, hlocal⟩ := h.vars x hx
  exact ⟨l, v, w', hl, hty, hv, hshow, (if_neg (hk x hx l hl)).trans hlocal⟩

theorem frame_set (hn : n ≤ k) (w : Jvm.Word) : Frame W Γ n σ (σ.set k w) :=
  fun _ hj _ => if_neg (Nat.ne_of_lt (Nat.lt_of_lt_of_le hj hn))

/-- A new variable gets the value that its slot shows. -/
theorem Matches.cons (h : Matches W Γ m σ) (hfresh : ∀ x ∈ Γ, x.id ≠ sym.id) {l : Local}
    {v : Value} {w : Jvm.Word}
    (hl : W.slots sym.id = some l) (hty : l.ty = sym.ty) (hlocal : σ.locals l.slot = some w)
    (hv : v.Shows sym.ty w) : Matches W (sym :: Γ) { m with vars := m.vars.insert sym.id v } σ := by
  refine ⟨h.out, fun x hx => ?_⟩
  rcases List.mem_cons.mp hx with rfl | hx
  · exact ⟨l, v, w, hl, hty, by simp, hv, hlocal⟩
  · obtain ⟨l', v', w', hl', hty', hv', hshow', hlocal'⟩ := h.vars x hx
    refine ⟨l', v', w', hl', hty', ?_, hshow', hlocal'⟩
    rw [Std.HashMap.getElem?_insert]
    simp [(hfresh x hx).symm, hv']

/-- The slot of a new variable is no other's. -/
theorem Span.ne_of_new {s s' : State} (hW : Span W s s')
    (hfresh : ∀ x ∈ Γ, x.id ≠ sym.id) {l : Local}
    (hl : W.slots sym.id = some l) : ∀ x ∈ Γ, ∀ k, W.slots x.id = some k → k.slot ≠ l.slot :=
  fun x hx _ hk heq => hfresh x hx (hW.inj _ _ _ _ hk hl heq)

/-- A variable has got a slot, which changes nothing else. -/
structure Declared (W : Whole) (sym : Symbol) (l : Local) (s s' : State) : Prop where
  slot : W.slots sym.id = some l
  stays : ∀ {σ : Jvm.State}, s.At σ → s'.At σ

theorem spans_declare {env : Env} {s : State} (tok : Token) :
    Spans env s (declare sym tok) fun W l s' => Declared W sym l s s' := by
  intro l s' h
  refine ⟨begins_declare h, fun W hW => ?_⟩
  obtain ⟨-, -, -, rfl⟩ := declare_ok h
  exact ⟨hW.slots _ _ (by simp), fun hσ => ⟨hσ.live, hσ.pc⟩⟩

/-- The value that a variable has before its first assignment. -/
theorem values_default {t : Ty} (ht : t.isScalar = true) :
    Values Γ t (pushDefault t) fun _ => pure (Value.initial t) := by
  refine values_of_spans fun env s _ => ?_
  simp only [Ty.isScalar, Bool.or_eq_true, beq_iff_eq] at ht
  rcases ht with (rfl | rfl) | rfl
  · exact (spans_pushInt 0).imp fun W _ s' _ p fuel m σ hσ hm => .after (p hσ).reaches
      (follows_pure ⟨_, .int 0, (p hσ).stands, (Leaves.refl hm).push _ _⟩)
  · exact (spans_pushInt 0).imp fun W _ s' _ p fuel m σ hσ hm => .after (p hσ).reaches
      (follows_pure ⟨_, .bool false, (p hσ).stands, (Leaves.refl hm).push _ _⟩)
  · refine (spans_op (o := .aconstNull) (by decide)).imp fun W _ s' _ p fuel m σ hσ hm => ?_
    have hmoves := p hσ rfl
    exact .after hmoves.reaches
      (follows_pure ⟨.null, .null, hmoves.stands, (Leaves.refl hm).push _ _⟩)

theorem follows_assign {Q : Unit → Machine → Jvm.State → Prop} {v : Value} {id : SymbolId}
    (h : Q ⟨⟩ { m with vars := m.vars.insert id v } σ) : Follows W σ (Eval.assign id v) m Q :=
  follows_modify h

/-- A declaration with its initial value. -/
theorem runs_declare (tok : Token) {x : Emit Unit} {y : Nat → Eval Value}
    (hfresh : ∀ x ∈ Γ, x.id ≠ sym.id)
    (hx : Values Γ sym.ty x y) : Runs Γ (sym :: Γ) (do x; store (← declare sym tok)) fun fuel => do
      Eval.assign sym.id (← y fuel)
      return .next := by
  refine runs_of_spans fun env s hready => ?_
  refine (hx.spans hready.apart).bind fun _ s₁ _ b₁ => ?_
  refine (spans_declare tok).bind fun l s₂ h₂ _ => ?_
  obtain rfl := (declare_ok h₂).1
  refine spans_store.imp fun W _ s' hW p₃ p₂ p₁ fuel m σ hσ hm => ?_
  refine (p₁ hσ hm).bind fun v m₁ σ₁ hv => ?_
  obtain ⟨w, hshow, at₁, l₁⟩ := hv
  have m₃ := p₃ (p₂.stays at₁) l₁.stack hshow.fits
  refine .after m₃.reaches
    ((follows_assign (Q := fun _ m' σ' => m' = _ ∧ σ' = _) ⟨rfl, rfl⟩).bind ?_)
  rintro _ _ _ ⟨rfl, rfl⟩
  have hfree := l₁.shown.set (hW.ne_of_new hfresh p₂.slot) w
  have hshown := hfree.cons hfresh p₂.slot rfl (if_pos rfl) hshow
  refine follows_pure (.next m₃.stands ⟨rfl, ?_, ?_⟩ (hshown.goto _ _) fun x hx => ?_)
  · exact (hshown.subset fun x hx => List.mem_cons_of_mem _ hx).goto _ _
  · exact l₁.frame.trans (frame_set b₁.next w)
  · rcases List.mem_cons.mp hx with rfl | hx
    · refine .inr fun l hl => ?_
      cases p₂.slot.symm.trans hl
      exact b₁.next
    · exact .inl hx

theorem runs_decl {isMutable : Bool} {name : Ident} {ty : Option Ty} {value : Option Expr}
    (hu : ∀ a ∈ Γ, ∀ b ∈ Γ, a.id = b.id → a = b) (hΓ : ∀ x ∈ Γ, x.ty.isScalar = true)
    (hsym : name.sym = some sym) (hfresh : ∀ x ∈ Γ, x.id ≠ sym.id) (hty : sym.ty.isScalar = true)
    (hv : ∀ e, value = some e → e.Gives Γ V sym.ty) :
    Runs Γ (sym :: Γ) (declaration name (value.map Expr.piece))
      fun fuel => Eval.stmt F fuel (.decl tok isMutable name ty value) := by
  unfold declaration
  rw [Emit.symbolOf_eq hsym, pure_bind]
  cases value with
  | none =>
    refine (runs_declare name.tok hfresh (values_default hty)).step rfl fun fuel => ?_
    unfold Eval.stmt
    dsimp only
    rw [Eval.symbolOf_eq hsym, pure_bind, pure_bind]
  | some e =>
    refine (runs_declare name.tok hfresh ((hv e rfl).coded (F := F) hu hΓ)).step rfl fun fuel => ?_
    unfold Eval.stmt
    dsimp only
    rw [Eval.symbolOf_eq hsym, pure_bind]

/-- The value on the stack becomes that of a variable. -/
theorem spans_assigned {env : Env} {s : State} {l : Local}
    (hu : ∀ a ∈ Γ, ∀ b ∈ Γ, a.id = b.id → a = b) (hs : sym ∈ Γ) :
    Spans env s (store l) fun W _ s' => ∀ ⦃loop : Option Loop⦄ ⦃σ₀ σ : Jvm.State⦄ ⦃m : Machine⦄
      ⦃n : Nat⦄ ⦃v : Value⦄ ⦃w : Jvm.Word⦄, W.slots sym.id = some l → l.ty = sym.ty →
        s.At σ → v.Shows sym.ty w → Leaves W Γ n σ₀ (w :: σ₀.stack) m σ →
          Follows W σ (do Eval.assign sym.id v; return .next) m (Lands W loop Γ Γ n σ₀ s') := by
  refine spans_store.imp fun W _ s' hW p loop σ₀ σ m n v w hl hty hσ hv hleaves => ?_
  have hmoves := p hσ hleaves.stack (by rw [hty]; exact hv.fits)
  refine .after hmoves.reaches
    ((follows_assign (Q := fun _ m' σ' => m' = _ ∧ σ' = _) ⟨rfl, rfl⟩).bind ?_)
  rintro _ _ _ ⟨rfl, rfl⟩
  have hshown := hleaves.shown.assign hW.inj hu hs hl hv
  exact follows_pure
    (.stay hmoves.stands ⟨rfl, hshown.goto _ _, hleaves.frame.trans (Frame.set hs hl w)⟩)

theorem runs_assign {id : Ident} {value : Expr} (hu : ∀ a ∈ Γ, ∀ b ∈ Γ, a.id = b.id → a = b)
    (hΓ : ∀ x ∈ Γ, x.ty.isScalar = true) (hs : sym ∈ Γ) (hid : id.sym = some sym)
    (hv : value.Gives Γ V sym.ty) : Runs Γ Γ (assignment value.piece (.name id))
      fun fuel => Eval.stmt F fuel (.assign tok (.name id) value) := by
  suffices Runs Γ Γ (assignment value.piece (.name id)) fun fuel => (do
      Eval.assign sym.id (← Eval.expr F fuel value)
      return .next) by
    refine this.step rfl fun fuel => ?_
    unfold Eval.stmt
    dsimp only
    rw [Eval.symbolOf_eq hid, pure_bind]
  refine runs_of_spans fun env s hready => ?_
  unfold assignment
  refine spans_variableOf hid fun l hl => ?_
  refine (hv.spans (F := F) hu hΓ hready.apart).bind fun _ s₁ _ b₁ => ?_
  refine (spans_assigned hu hs).imp fun W _ s' hW p₂ p₁ fuel m σ hσ hm => ?_
  obtain ⟨hslot, hty, -⟩ := hm.slot hW hs (b₁.slots _ _ hl)
  refine (p₁ hty hσ hm).bind fun v m₁ σ₁ hv => ?_
  obtain ⟨w, hshow, at₁, l₁⟩ := hv
  exact p₂ hslot hty at₁ hshow l₁

/-! ## Counting -/

/-- The code changes a number by a constant. -/
theorem runs_increment {id : Ident} {d : Int} {k : Int32} {y : Nat → Eval Flow}
    (hu : ∀ a ∈ Γ, ∀ b ∈ Γ, a.id = b.id → a = b) (hs : sym ∈ Γ) (hid : id.sym = some sym)
    (hty : sym.ty = .int) (hk : Int32.ofInt d = k)
    (hy : ∀ fuel (m : Machine) n, m.vars[sym.id]? = some (.int n) →
      y fuel m = .ok .next { m with vars := m.vars.insert sym.id (.int (n + k)) } ∨
        ∃ t, y fuel m = (Eval.fail .outOfFuel t : Eval Flow) m) :
    Runs Γ Γ (do increment (← variableOf id) d) y := by
  refine runs_of_spans fun env s hready => spans_variableOf hid fun l hl => ?_
  refine (spans_count d hu hs hty hl (hready.apart.slot_le hl)).imp
    fun W _ s' hW p fuel m σ hσ hm => ?_
  obtain ⟨-, -, n, hv, hlocal⟩ := hm.intSlot hW hs hty hl
  obtain ⟨σ', hmoves, -, hleaves⟩ := p hσ hm hlocal
  rw [hk] at hleaves
  rcases hy fuel m n hv with hok | ⟨t, hfail⟩
  · exact .after hmoves.reaches (follows_of_ok hok (.stay hmoves.stands hleaves))
  · refine ⟨fun _ _ hx => ?_, fun f m' hx hne => ?_⟩
    · rw [hfail] at hx
      cases hx
    · rw [hfail] at hx
      exact (follows_outOfFuel (W := W) (σ := σ) (Q := fun _ _ _ => True)).error f m' hx hne

theorem runs_selfOp {mark : Mark} {sign : String} {before : Bool} {id : Ident}
    (hu : ∀ a ∈ Γ, ∀ b ∈ Γ, a.id = b.id → a = b) (hs : sym ∈ Γ) (hid : id.sym = some sym)
    (hty : sym.ty = .int) : Runs Γ Γ (selfOp (.mk mark sign before (.name id)))
      fun fuel => Eval.stmt F fuel (.selfOp tok (.mk mark sign before (.name id))) := by
  refine Runs.step (y := fun fuel => do
    let _ ← Eval.incDec F (Eval.expr F fuel) (.mk mark sign before (.name id))
    return .next) ?_ rfl fun fuel => by unfold Eval.stmt; rfl
  refine runs_increment hu hs hid hty (Int32.ofInt_toInt _) fun fuel m n hn => .inl ?_
  rw [Eval.bind_of_ok (eval_incDec F (Eval.expr F fuel) hid hn)]
  rfl

theorem constantDelta?_eq_some {sign : String} {e : Expr} {d : Int}
    (h : constantDelta? sign e = some d) :
    ∃ m n o, e = .int m n ∧ ArithOp.ofText? (compoundOperator sign) = some o ∧
      ∀ x : Int32, o.apply x n = some (x + Int32.ofInt d) := by
  unfold constantDelta? at h
  split at h
  · rename_i m n
    obtain ⟨hd, -⟩ := Option.filter_eq_some_iff.mp h
    split at hd
    · rename_i ho
      cases hd
      exact ⟨m, n, .add, rfl, ho, fun x => by rw [Int32.ofInt_toInt]; rfl⟩
    · rename_i ho
      cases hd
      refine ⟨m, n, .sub, rfl, ho, fun x => ?_⟩
      rw [Int32.ofInt_neg, Int32.ofInt_toInt, ← Int32.sub_eq_add_neg]
      rfl
    · cases hd
  · cases h

theorem runs_compound {sign : String} {id : Ident} {value : Expr} {o : ArithOp}
    (hu : ∀ a ∈ Γ, ∀ b ∈ Γ, a.id = b.id → a = b) (hs : sym ∈ Γ) (hid : id.sym = some sym)
    (hty : sym.ty = .int) (ho : ArithOp.ofText? (compoundOperator sign) = some o)
    (hv : value.Computes Γ V .int) : Runs Γ Γ (compound sign value.piece (.name id))
      fun fuel => Eval.stmt F fuel (.compound tok (.name id) sign value) := by
  suffices Runs Γ Γ (compound sign value.piece (.name id)) fun fuel => (do
      let old ← Eval.variableOf id sym
      let v ← Eval.expr F fuel value
      Eval.assign sym.id (← Eval.arithmetic tok (compoundOperator sign) old v)
      return .next) by
    refine this.step rfl fun fuel => ?_
    unfold Eval.stmt
    dsimp only
    rw [Eval.symbolOf_eq hid, pure_bind]
  unfold compound
  dsimp only
  rw [piece_expr]
  cases hd : constantDelta? sign value with
  | some d =>
    -- One instruction adds the number.
    obtain ⟨m, k, o', rfl, ho', happly⟩ := constantDelta?_eq_some hd
    refine runs_increment hu hs hid hty rfl fun fuel m n hn => ?_
    rw [Eval.bind_of_ok (Eval.variableOf_of_vars hn)]
    cases fuel with
    | zero => exact .inr ⟨_, rfl⟩
    | succ fuel =>
      refine .inl ?_
      change (Eval.arithmetic tok (compoundOperator sign) (.int n) (.int k) >>= _) m = _
      simp only [Eval.arithmetic, ho', happly]
      rfl
  | none =>
    refine runs_of_spans fun env s hready => spans_variableOf hid fun l hl => ?_
    rw [show compoundOp sign = o.opcode by rw [compoundOp, ho]; rfl]
    refine spans_load.bind fun _ s₁ _ b₁ => ?_
    refine ((hv.coded (F := F) hu).1.spans (b₁.apart hready.apart)).bind fun _ s₂ _ b₂ => ?_
    refine (spans_arithmetic ho).bind fun _ s₃ _ b₃ => ?_
    refine (spans_assigned hu hs).imp fun W _ s' hW p₄ p₃ p₂ p₁ fuel m σ hσ hm => ?_
    obtain ⟨hslot, hint, n, hvar, hlocal⟩ :=
      hm.intSlot hW hs hty ((b₁.trans (b₂.trans b₃)).slots _ _ hl)
    have m₁ := p₁ hσ hlocal (by rw [hint]; rfl)
    refine .after m₁.reaches ?_
    refine (follows_of_ok (Q := fun v m' σ' => v = .int n ∧ m' = m ∧ σ' = _)
      (Eval.variableOf_of_vars hvar) ⟨rfl, rfl, rfl⟩).bind ?_
    rintro _ _ _ ⟨rfl, rfl, rfl⟩
    refine (p₂ m₁.stands (hm.goto _ _)).bind fun v m₂ σ₂ hv₂ => ?_
    obtain ⟨w, hshow, at₂, l₂⟩ := hv₂
    obtain ⟨k, rfl, rfl⟩ := hshow.of_int
    have hleaves : Leaves W Γ s.body.next σ (.int k :: .int n :: σ.stack) m₂ σ₂ :=
      ⟨l₂.stack, l₂.shown, l₂.frame.mono b₁.next⟩
    refine (p₃ tok at₂ l₂.stack l₂.shown.out).bind fun v m₃ σ₃ hv₃ => ?_
    obtain ⟨rfl, r, rfl, at₃, rfl⟩ := hv₃
    exact p₄ hslot (hint.trans hty.symm) at₃ (by rw [hty]; exact .int r) (hleaves.goto _ rfl)

end Variables

/-! ## Output -/

section Output

variable {F : List FunDecl} {Γ V : List Symbol} {tok : Token} {newline : Bool}

/-- The standard output. -/
def outField : Member := ⟨Jvm.system, "out", Jvm.reference Jvm.printStream⟩

/-- The methods that print. -/
def printer (newline : Bool) (params : List String) : Member :=
  ⟨Jvm.printStream, if newline then "println" else "print", Jvm.method params "V"⟩

theorem plain_printer {params : List String} (hp : params ∈ [[], ["I"], ["Z"]]) :
    Plain (printer newline params) := by
  have hname : Clean (if newline then "println" else "print") := by cases newline <;> decide
  have hdesc : ∀ ps ∈ [[], ["I"], ["Z"]], Clean (Jvm.method ps "V") := by decide
  exact ⟨hname, hdesc params hp⟩

theorem access?_print {params : List String} {σ : Jvm.State} {text : String} {st : List Jvm.Word}
    (hp : params ∈ [[], ["I"], ["Z"]])
    (ht : Jvm.printed? params σ.stack = some (text, .stream :: st)) :
    Jvm.access? .invokeVirtual (printer newline params) σ =
      some { σ with stack := st, out := σ.out ++ text ++ if newline then "\n" else "" } := by
  have hfind : [[], ["I"], ["Z"]].find?
    (fun ps => (printer newline params).desc = Jvm.method ps "V") =
      some params := by
    simp only [List.mem_cons, List.not_mem_nil, or_false] at hp
    rcases hp with rfl | rfl | rfl <;> cases newline <;> decide
  have haccess : Jvm.access? .invokeVirtual (printer newline params) σ =
      Jvm.print? (printer newline params) σ := by
    rw [Jvm.access?, if_neg (fun h => absurd h.1 (by decide)), if_pos ⟨rfl, rfl⟩]
  rw [haccess, Jvm.print?, hfind]
  cases newline <;> simp [printer, ht]

/-- The code prints a text. -/
theorem spans_print {env : Env} {s : State} {params : List String}
    (hp : params ∈ [[], ["I"], ["Z"]]) :
    Spans env s (callVirtual Jvm.printStream (if newline then "println" else "print")
      (Jvm.method params "V")) fun W _ s' => ∀ ⦃loop : Option Loop⦄ ⦃σ₀ σ : Jvm.State⦄ ⦃m : Machine⦄
        ⦃n : Nat⦄ ⦃text : String⦄, s.At σ →
          Jvm.printed? params σ.stack = some (text, .stream :: σ₀.stack) → Matches W Γ m σ →
            Frame W Γ n σ₀ σ → Follows W σ (do
              Eval.emit (if newline then text ++ "\n" else text)
              return .next) m (Lands W loop Γ Γ n σ₀ s') := by
  refine (spans_accesses fun _ _ => accesses_invoke (.inr (.inl rfl)) (plain_printer hp)).imp
    fun W _ s' _ p loop σ₀ σ m n text hσ ht hm hframe => ?_
  have hmoves := p hσ (access?_print hp ht)
  refine .after hmoves.reaches
    ((follows_modify (Q := fun _ m' σ' => m' = _ ∧ σ' = _) ⟨rfl, rfl⟩).bind ?_)
  rintro _ _ _ ⟨rfl, rfl⟩
  refine follows_pure (.stay hmoves.stands ⟨rfl, ⟨?_, hm.vars⟩, hframe⟩)
  dsimp only
  rw [hm.out, String.append_assoc]
  cases newline with
  | true => rfl
  | false => simp

/-- The output is pushed. -/
theorem spans_out {env : Env} {s : State} :
    Spans env s (getStatic Jvm.system "out" (Jvm.reference Jvm.printStream)) fun W _ s' =>
      ∀ ⦃σ : Jvm.State⦄, s.At σ → Moves W s' σ (s'.behind σ (.stream :: σ.stack)) := by
  have hplain : Plain outField :=
    ⟨show Clean "out" by decide, show Clean (Jvm.reference Jvm.printStream) by decide⟩
  refine (spans_accesses fun _ _ => accesses_getStatic hplain).imp fun W _ s' _ p σ hσ => ?_
  exact p (τ := { σ with stack := .stream :: σ.stack }) hσ (if_pos ⟨rfl, rfl⟩)

/-- What is printed of a number or a truth value. -/
theorem printed?_of_shows {t : Ty} {v : Value} {w : Jvm.Word} (ht : t = .int ∨ t = .boolean)
    (hv : v.Shows t w) (st : List Jvm.Word) : ∃ text, (∀ heap, v.show? heap = some text) ∧
      Jvm.printed? [t.printDescriptor] (w :: st) = some (text, st) := by
  rcases ht with rfl | rfl
  · obtain ⟨n, rfl, rfl⟩ := hv.of_int
    exact ⟨_, fun _ => rfl, rfl⟩
  · obtain ⟨b, rfl, rfl⟩ := hv.of_boolean
    refine ⟨_, fun _ => rfl, ?_⟩
    cases b <;> rfl

/-- A number or a truth value is printed as it is. -/
theorem printable_eq {e : Expr} {t : Ty} (ht : t = .int ∨ t = .boolean)
    (hrec : e.recorded? = some t) : printable e.piece = (do e.piece.value; pure t) := by
  unfold printable
  rw [piece_expr, typeOf_eq hrec, pure_bind]
  refine congrArg (e.piece.value >>= ·) (funext fun _ => ?_)
  rcases ht with rfl | rfl <;> exact if_neg (by decide)

theorem runs_print {value : Option Expr} (hu : ∀ a ∈ Γ, ∀ b ∈ Γ, a.id = b.id → a = b)
    (hv : ∀ e, value = some e → ∃ t, (t = .int ∨ t = .boolean) ∧ e.Computes Γ V t) :
    Runs Γ Γ (printing newline (value.map Expr.piece))
      fun fuel => Eval.stmt F fuel (.print tok newline value) := by
  unfold printing
  cases value with
  | none =>
    refine Runs.step (y := fun _ => do
      Eval.emit (if newline then "" ++ "\n" else "")
      return .next) ?_ rfl fun _ => by unfold Eval.stmt; rfl
    refine runs_of_spans fun env s hready => spans_out.bind fun _ s₁ _ b₁ => ?_
    rw [show "()V" = Jvm.method [] "V" by decide]
    refine (spans_print (Γ := Γ) (by decide)).imp fun W _ s' _ p₂ p₁ fuel m σ hσ hm => ?_
    have m₁ := p₁ hσ
    exact .after m₁.reaches (p₂ m₁.stands rfl (hm.goto _ _) fun _ _ _ => rfl)
  | some e =>
    obtain ⟨t, ht, he⟩ := hv e rfl
    refine Runs.step (y := fun fuel => do
      let text ← Eval.shown tok (← Eval.expr F fuel e)
      Eval.emit (if newline then text ++ "\n" else text)
      return .next) ?_ rfl fun _ => by unfold Eval.stmt; rfl
    dsimp only [Option.map_some]
    simp only [printable_eq ht he.recorded, bind_assoc, pure_bind]
    have hp : [t.printDescriptor] ∈ [[], ["I"], ["Z"]] := by rcases ht with rfl | rfl <;> decide
    refine runs_of_spans fun env s hready => spans_out.bind fun _ s₁ _ b₁ => ?_
    refine ((he.coded (F := F) hu).1.spans (b₁.apart hready.apart)).bind fun _ s₂ _ b₂ => ?_
    refine (spans_print (Γ := Γ) hp).imp fun W _ s' _ p₃ p₂ p₁ fuel m σ hσ hm => ?_
    have m₁ := p₁ hσ
    refine .after m₁.reaches ((p₂ m₁.stands (hm.goto _ _)).bind fun v m₂ σ₂ hv₂ => ?_)
    obtain ⟨w, hshow, at₂, l₂⟩ := hv₂
    obtain ⟨text, hshown, htext⟩ := printed?_of_shows ht hshow (.stream :: σ.stack)
    rw [Eval.shown_eq hshown, pure_bind]
    exact p₃ at₂ (by rw [l₂.stack]; exact htext) l₂.shown (l₂.frame.mono b₁.next)

end Output

/-! ## The way on -/

section Ways

variable {F : List FunDecl} {Γ Γ' V : List Symbol} {tok : Token} {x x' : Emit Unit}
    {y y' : Nat → Eval Flow}

/-- The variables of a block are gone after it. -/
theorem Runs.leave (h : Runs Γ Γ' x y) : Runs Γ Γ x y :=
  runs_of_spans fun _ _ hready => (h.spans hready).imp fun _ _ _ _ p _ _ _ hσ hm =>
    (p hσ hm).imp fun _ _ _ => Lands.leave

/-- Where statements go on in the same place. -/
theorem Lands.rejoin {W : Whole} {loop : Option Loop} {n : Nat} {σ σ' : Jvm.State} {s₁ s' : State}
    {flow : Flow}
    {m' : Machine} (h : Lands W loop Γ Γ' n σ s₁ flow m' σ') (hb : s₁.Begins s')
    (hnext : s₁.At σ' → ∃ pc, W.Reaches σ' (σ'.goto pc σ'.stack) ∧ s'.At (σ'.goto pc σ'.stack)) :
    ∃ τ, W.Reaches σ' τ ∧ Lands W loop Γ Γ n σ s' flow m' τ := by
  cases h with
  | next hat leaves =>
    obtain ⟨pc, hr, hat'⟩ := hnext hat
    exact ⟨_, hr, .stay hat' (leaves.goto pc leaves.stack)⟩
  | broke hl hat leaves => exact ⟨_, .refl _, .broke hl (hat.later hb) leaves⟩
  | continued hl hat leaves => exact ⟨_, .refl _, .continued hl (hat.later hb) leaves⟩
  | returned hends => exact ⟨_, .refl _, .returned hends⟩

theorem runs_ifThen {cond : Expr}
    (hc : Branches Γ cond.piece.jump fun fuel => Eval.expr F fuel cond)
    (ha : Runs Γ Γ x y) : Runs Γ Γ (branching cond.piece x none) fun fuel => (do
      if ← Eval.truth cond.tok (← Eval.expr F fuel cond) then y fuel else return .next) := by
  refine runs_of_spans fun env s hready => ?_
  refine spans_newLabel fun otherwise s₁ hlabel => ?_
  refine (hc.spans (hlabel.begins.apart hready.apart) hlabel.size).bind fun _ s₂ _ b₂ => ?_
  have b₁₂ := hlabel.begins.trans b₂
  refine (ha.spans (hready.later b₁₂)).bind fun _ s₃ _ b₃ => ?_
  refine (spans_bindLabel ((b₂.trans b₃).size hlabel.size)).imp
    fun W _ s' hW p₄ p₃ p₂ fuel m σ hσ hm => ?_
  refine (p₂ (hlabel.stays hσ) hm).bind fun v m₁ σ₁ hv => ?_
  obtain ⟨b, rfl, hb, l₁⟩ := hv
  have l₁ := l₁.mono hlabel.begins.next
  rw [show Eval.truth cond.tok (.bool b) = pure b from rfl, pure_bind]
  cases b with
  | true =>
    refine (p₃ (hb.2 rfl) l₁.shown).mono fun flow m₂ σ₂ hlands => ?_
    have hlands := hlands.after l₁ b₁₂.next (fun _ h => h) fun _ h => .inl h
    exact hlands.rejoin hW.begins fun hat => ⟨σ₂.pc, .refl _, p₄.binds (.inl hat)⟩
  | false =>
    exact follows_pure (.stay (p₄.binds (.inr ((hb.1 rfl).later b₃))) l₁)

theorem runs_ifElse {cond : Expr}
    (hc : Branches Γ cond.piece.jump fun fuel => Eval.expr F fuel cond)
    (ha : Runs Γ Γ x y) (hb : Runs Γ Γ x' y') :
    Runs Γ Γ (branching cond.piece x (some x')) fun fuel => (do
      if ← Eval.truth cond.tok (← Eval.expr F fuel cond) then y fuel else y' fuel) := by
  refine runs_of_spans fun env s hready => ?_
  refine spans_newLabel fun otherwise s₁ hOther => ?_
  refine (hc.spans (hOther.begins.apart hready.apart) hOther.size).bind fun _ s₂ _ b₂ => ?_
  have b₁₂ := hOther.begins.trans b₂
  refine (ha.spans (hready.later b₁₂)).bind fun _ s₃ _ b₃ => ?_
  refine spans_newLabel fun done s₄ hDone => ?_
  refine (spans_goto hDone.size).bind fun _ s₅ _ b₅ => ?_
  have b₃₅ := b₃.trans (hDone.begins.trans b₅)
  refine (spans_bindLabel ((b₂.trans b₃₅).size hOther.size)).bind fun _ s₆ _ b₆ => ?_
  have b₁₆ := b₁₂.trans (b₃₅.trans b₆)
  refine (hb.spans (hready.later b₁₆)).bind fun _ s₇ _ b₇ => ?_
  have b₅₇ := b₅.trans (b₆.trans b₇)
  refine (spans_bindLabel (b₅₇.size hDone.size)).imp
    fun W _ s' hW p₈ p₇ p₆ p₅ p₃ p₂ fuel m σ hσ hm => ?_
  refine (p₂ (hOther.stays hσ) hm).bind fun v m₁ σ₁ hv => ?_
  obtain ⟨b, rfl, hb, l₁⟩ := hv
  have l₁ := l₁.mono hOther.begins.next
  rw [show Eval.truth cond.tok (.bool b) = pure b from rfl, pure_bind]
  cases b with
  | true =>
    refine (p₃ (hb.2 rfl) l₁.shown).mono fun flow m₂ σ₂ hlands => ?_
    have hlands := hlands.after l₁ b₁₂.next (fun _ h => h) fun _ h => .inl h
    refine hlands.rejoin (hDone.begins.trans (b₅₇.trans hW.begins)) fun hat => ?_
    obtain ⟨r₅, at₅⟩ := p₅ (hDone.stays hat)
    exact ⟨_, r₅, p₈.binds (.inr (at₅.later (b₆.trans b₇)))⟩
  | false =>
    have at₆ := p₆.binds (.inr ((hb.1 rfl).later b₃₅))
    refine (p₇ at₆ l₁.shown).mono fun flow m₂ σ₂ hlands => ?_
    have hlands := hlands.after l₁ b₁₆.next (fun _ h => h) fun _ h => .inl h
    exact hlands.rejoin hW.begins fun hat => ⟨σ₂.pc, .refl _, p₈.binds (.inl hat)⟩

/-- A jump out of a loop, or to its next turn. -/
theorem runs_leaving {target : Loop → Nat} {flow : Flow}
    (hsize : ∀ env s l, Ready env s → env.loop = some l → target l < s.body.code.labels.size)
    (hlands : ∀ W loop n σ s' m' σ' l, loop = some l → s'.AtLabel W (target l) σ' →
      Leaves W Γ n σ σ.stack m' σ' → Lands W loop Γ Γ n σ s' flow m' σ') :
    Runs Γ Γ (leaving tok target) fun _ => return flow := by
  intro env s s' u hready h
  unfold leaving at h
  rw [read_bind] at h
  cases hloop : env.loop with
  | none =>
    rw [hloop] at h
    exact (reject_ok h).elim
  | some l =>
    rw [hloop] at h
    obtain ⟨hb, hp⟩ := spans_goto (hsize env s l hready hloop) h
    refine ⟨hb, fun W fuel m σ hW hσ hm => ?_⟩
    obtain ⟨hr, hat⟩ := hp hW hσ
    exact .after hr (follows_pure (hlands W _ _ σ s' m _ l rfl hat ((Leaves.refl hm).goto _ rfl)))

theorem runs_brk : Runs Γ Γ (leaving tok Loop.breakTo) fun fuel => Eval.stmt F fuel (.brk tok) :=
  Runs.step (runs_leaving (fun _ _ l h hl => (h.loop l hl).1) fun _ _ _ _ _ _ _ _ => .broke) rfl
    fun _ => by unfold Eval.stmt; rfl

theorem runs_cont :
    Runs Γ Γ (leaving tok Loop.continueTo) fun fuel => Eval.stmt F fuel (.cont tok) :=
  Runs.step (runs_leaving (fun _ _ l h hl => (h.loop l hl).2) fun _ _ _ _ _ _ _ _ => .continued) rfl
    fun _ => by unfold Eval.stmt; rfl

theorem runs_returning :
    Runs Γ Γ (returning tok none) fun fuel => Eval.stmt F fuel (.ret tok none) := by
  refine Runs.step (y := fun _ => return .returned .unit) ?_ rfl fun _ => by unfold Eval.stmt; rfl
  intro env s s' u hready h
  unfold returning at h
  rw [read_bind, hready.result] at h
  obtain ⟨hb, hends⟩ := spans_vreturn h
  refine ⟨hb, fun W fuel m σ hW hσ hm => ?_⟩
  exact follows_pure (.returned (hm.out ▸ hends hW hσ))

end Ways

end Emit
end Kotlet

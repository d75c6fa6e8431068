import Kotlet.Proofs.Eval.Range
import Kotlet.Proofs.Jvm.Stmt

/-!
# Code for loops follows the evaluator

* `runs_whileLoop` : a loop that asks its condition before every turn;
* `Step.Holds`, `spans_rangeStep` : the step of a loop over a range, which is a constant or stands
  in a slot of its own;
* `spans_testRange`, `spans_advance` : the way from one number of a range to the next, without
  overflow;
* `Cycle`, `spans_cycle`, `Cycle.follows` : the way around the loop, and all its turns;
* `runs_rangeLoop` : a loop over a range.
-/

namespace Kotlet
namespace Emit

open ClassFile

section Loops

variable {F : List FunDecl} {Γ : List Symbol} {x : Emit Unit} {y : Nat → Eval Flow}

/-- The steps of a body are those where its loop is the innermost one. -/
theorem Ready.inLoop {env : Env} {s : State} (h : Ready env s) {exit next : Nat}
    (he : exit < s.body.code.labels.size) (hn : next < s.body.code.labels.size) :
    Ready { env with loop := some ⟨exit, next⟩ } s :=
  ⟨h.apart, h.result, fun l hl => by cases hl; exact ⟨he, hn⟩⟩

/-- The steps of the body of a loop. -/
theorem Runs.spans_inLoop {Γ' : List Symbol} {env : Env} {s : State} (h : Runs Γ Γ' x y)
    (hready : Ready env s) {exit next : Nat} (he : exit < s.body.code.labels.size)
    (hn : next < s.body.code.labels.size) : Spans env s (inLoop exit next x) fun W _ s' =>
      Performs W (some ⟨exit, next⟩) Γ Γ' y s s' :=
  fun _ _ hx => h.spans (hready.inLoop he hn) hx

/-- `while`. -/
theorem runs_whileLoop (tok : Token) {cond : Expr}
    (hc : Branches Γ cond.piece.jump fun fuel => Eval.expr F fuel cond) (hx : Runs Γ Γ x y) :
    Runs Γ Γ (whileLoop cond.piece x) fun fuel =>
      Eval.whileLoop tok (do Eval.truth cond.tok (← Eval.expr F fuel cond)) (y fuel) fuel := by
  refine runs_of_spans fun env s hready => ?_
  refine spans_newLabel fun top s₁ hTop => spans_newLabel fun exit s₂ hExit => ?_
  have b₁₂ := hTop.begins.trans hExit.begins
  have lt₂ := hExit.begins.size hTop.size
  refine (spans_bindLabel lt₂).bind fun _ s₃ _ b₃ => ?_
  have b₁₃ := b₁₂.trans b₃
  refine (hc.spans (b₁₃.apart hready.apart) (b₃.size hExit.size)).bind fun _ s₄ _ b₄ => ?_
  have b₃₄ := b₃.trans b₄
  refine (hx.spans_inLoop (hready.later (b₁₃.trans b₄)) (b₃₄.size hExit.size)
    (b₃₄.size lt₂)).bind fun _ s₅ _ b₅ => ?_
  refine (spans_goto ((b₃₄.trans b₅).size lt₂)).bind fun _ s₆ _ b₆ => ?_
  have b₃₆ := b₃₄.trans (b₅.trans b₆)
  refine (spans_bindLabel (b₃₆.size hExit.size)).imp
    fun W _ s' _ p₇ p₆ p₅ p₄ p₃ fuel m σ hσ hm => ?_
  have at₃ := p₃.binds (.inl (hExit.stays (hTop.stays hσ)))
  suffices hloop : ∀ k m σ, s₃.At σ → Matches W Γ m σ → Follows W σ
      (Eval.whileLoop tok (do Eval.truth cond.tok (← Eval.expr F fuel cond)) (y fuel) k) m
      (Lands W env.loop Γ Γ s.body.next σ s') from hloop fuel m σ at₃ hm
  intro k
  induction k with
  | zero => exact fun _ _ _ _ => follows_outOfFuel
  | succ k ih =>
    intro m σ hσ hm
    unfold Eval.whileLoop
    rw [bind_assoc]
    refine (p₄ hσ hm).bind fun v m₁ σ₁ hv => ?_
    obtain ⟨b, rfl, hb, l₁⟩ := hv
    have l₁ := l₁.mono b₁₃.next
    rw [show Eval.truth cond.tok (.bool b) = pure b from rfl, pure_bind]
    cases b with
    | false =>
      exact follows_pure (.stay (p₇.binds (.inr ((hb.1 rfl).later (b₅.trans b₆)))) l₁)
    | true =>
      rw [if_pos rfl, Eval.turn, bind_assoc]
      refine (p₅ (hb.2 rfl) l₁.shown).bind fun flow m₂ σ₂ hlands => ?_
      -- The next turn begins at the top of the loop.
      have again {τ : Jvm.State} (hpc : τ.pc = W.code.place top)
          (l₂ : Leaves W Γ s.body.next σ σ.stack m₂ τ) : Follows W τ
            (Eval.whileLoop tok (do Eval.truth cond.tok (← Eval.expr F fuel cond)) (y fuel) k) m₂
            (Lands W env.loop Γ Γ s.body.next σ s') :=
        (ih m₂ τ ⟨at₃.live, hpc.trans p₃.place⟩ l₂.shown).imp fun _ _ _ hl =>
          hl.after l₂ (Nat.le_refl _) (fun _ h => h) fun _ h => .inl h
      have hjoin {m' : Machine} {σ' : Jvm.State} (l₂ : Leaves W Γ s₄.body.next σ₁ σ₁.stack m' σ') :
          Leaves W Γ s.body.next σ σ.stack m' σ' := by
        rw [← l₁.stack]
        exact l₁.trans l₂ (b₁₃.trans b₄).next
      cases hlands with
      | next hat leaves =>
        obtain ⟨r₆, at₆⟩ := p₆ hat
        exact .after r₆ (again at₆.pc ((hjoin leaves).goto _ (hjoin leaves).stack))
      | continued hl hat leaves =>
        cases hl
        exact again hat.pc (hjoin leaves)
      | broke hl hat leaves =>
        cases hl
        exact follows_pure (.stay (p₇.binds (.inr (hat.later b₆))) (hjoin leaves))
      | returned hends => exact follows_pure (.returned hends)

end Loops

/-! ## Slots of their own -/

/-- A slot below `n` for a number, which is no variable's. -/
structure Reserved (W : Whole) (n : Nat) (l : Local) : Prop where
  int : l.ty = .int
  below : l.slot < n
  apart : ∀ (id : SymbolId) k, W.slots id = some k → k.slot ≠ l.slot

/-- The step of a range is a number. -/
def Step.Holds (σ : Jvm.State) (c : Int32) : Step → Prop
  | .constant n => n = c
  | .computed l => σ.locals l.slot = some (.int c)

/-- The slot of a step is no variable's. -/
def Step.Reserved (W : Whole) (n : Nat) : Step → Prop
  | .constant _ => True
  | .computed l => Emit.Reserved W n l

section Slots

variable {Γ : List Symbol} {env : Env} {W : Whole} {s s' : State} {σ σ' : Jvm.State}
    {n k : Nat} {l : Local}
  {st : Step} {c : Int32} {u : Unit}

theorem Reserved.mono (h : Reserved W n l) (hn : n ≤ k) : Reserved W k l :=
  { h with below := Nat.lt_of_lt_of_le h.below hn }

theorem Reserved.kept (h : Reserved W n l) (hf : Frame W Γ n σ σ') :
    σ'.locals l.slot = σ.locals l.slot :=
  hf _ h.below fun _ _ _ hk => h.apart _ _ hk

theorem Step.Reserved.mono (h : st.Reserved W n) (hn : n ≤ k) : st.Reserved W k := by
  cases st with
  | constant m => trivial
  | computed l => exact Emit.Reserved.mono h hn

theorem Step.Holds.kept (h : st.Holds σ c) (hr : st.Reserved W n) (hf : Frame W Γ n σ σ') :
    st.Holds σ' c := by
  cases st with
  | constant m => exact h
  | computed l => exact (Emit.Reserved.kept hr hf).trans h

/-- A slot that was free has been reserved, which changes nothing else. -/
structure Scratch (W : Whole) (l : Local) (s s' : State) : Prop where
  reserved : Reserved W s'.body.next l
  free : s.body.next ≤ l.slot
  stays : ∀ {σ : Jvm.State}, s.At σ → s'.At σ

theorem spans_scratch (tok : Token) :
    Spans env s (scratch .int tok) fun W l s' => Scratch W l s s' := by
  intro l s' h
  refine ⟨begins_scratch h, fun W hW => ?_⟩
  obtain ⟨rfl, -, rfl⟩ := scratch_ok h
  exact ⟨⟨rfl, Nat.lt_succ_self _, hW.ne_of_fresh ⟨Nat.le_refl _, Nat.lt_succ_self _⟩ rfl⟩,
    Nat.le_refl _, fun hσ => ⟨hσ.live, hσ.pc⟩⟩

/-! ## The step of a range -/

theorem spans_pushStep : Spans env s (pushStep st) fun W _ s' => ∀ ⦃σ : Jvm.State⦄ ⦃c : Int32⦄
    ⦃n : Nat⦄, s.At σ → st.Holds σ c → st.Reserved W n →
      Moves W s' σ (s'.behind σ (.int c :: σ.stack)) := by
  cases st with
  | constant m =>
    refine (spans_pushInt m).imp fun W _ s' _ p σ c n hσ hc _ => ?_
    cases hc
    exact p hσ
  | computed l =>
    exact spans_load.imp fun W _ s' _ p σ c n hσ hc hr => p hσ hc (by rw [hr.int]; rfl)

end Slots

/-- The step of a range, as the evaluator computes it. -/
def stepOf (F : List FunDecl) (fuel : Nat) : Option Expr → Eval Int32
  | none => pure 1
  | some e => do
    let n ← Eval.bound (Eval.expr F fuel) e
    if n ≤ 0 then Eval.fail (.badStep n) e.tok else pure n

section Range

variable {F : List FunDecl} {Γ V : List Symbol} {W : Whole} {s s' : State} {σ : Jvm.State}
    {m : Machine}

/-- A number as a bound. -/
theorem Evaluates.bound {e : Expr} {fuel : Nat}
    (h : Evaluates W Γ .int (fun fuel => Eval.expr F fuel e) s s') (hσ : s.At σ)
    (hm : Matches W Γ m σ) : Follows W σ (Eval.bound (Eval.expr F fuel) e) m fun n m' σ' =>
      s'.At σ' ∧ Leaves W Γ s.body.next σ (.int n :: σ.stack) m' σ' := by
  refine (h hσ hm).bind fun v m' σ' hv => ?_
  obtain ⟨w, hshow, hat, hleaves⟩ := hv
  obtain ⟨n, rfl, rfl⟩ := hshow.of_int
  exact follows_pure ⟨hat, hleaves⟩

/-- The step of a range is where it is said to be, and goes forward. -/
def Steps (W : Whole) (Γ : List Symbol) (y : Nat → Eval Int32) (st : Step) (s s' : State) : Prop :=
  ∀ ⦃fuel : Nat⦄ ⦃m : Machine⦄ ⦃σ : Jvm.State⦄, s.At σ → Matches W Γ m σ →
    Follows W σ (y fuel) m fun c m' σ' => 0 < c ∧ st.Holds σ' c ∧ st.Reserved W s'.body.next ∧
      s'.At σ' ∧ Leaves W Γ s.body.next σ σ.stack m' σ'

/-- A step that is computed is checked. -/
theorem spans_computedStep {env : Env} {e : Expr}
    (he : Values Γ .int e.piece.value fun fuel => Eval.expr F fuel e) (hapart : s.body.Apart) :
    Spans env s (do
      e.piece.value
      let l ← scratch .int e.tok
      store l
      let good ← newLabel
      load l
      jump .ifGt good
      throwNew Jvm.illegalArgument "Step must be positive"
      bindLabel good
      return Step.computed l) fun W st s' => Steps W Γ (fun fuel => stepOf F fuel (some e)) st s s' := by
  refine (he.spans hapart).bind fun _ s₁ _ b₁ => ?_
  refine (spans_scratch e.tok).bind fun l s₂ _ b₂ => ?_
  refine spans_store.bind fun _ s₃ _ b₃ => ?_
  refine spans_newLabel fun good s₄ hGood => ?_
  refine spans_load.bind fun _ s₅ _ b₅ => ?_
  have l₅ := b₅.size hGood.size
  refine (spans_jump (by decide) (by decide) l₅).bind fun _ s₆ _ b₆ => ?_
  refine (spans_throwNew _ _).bind fun _ s₇ _ b₇ => ?_
  refine (spans_bindLabel ((b₆.trans b₇).size l₅)).bind fun _ s' _ b₈ => ?_
  refine spans_pure fun W _ p₈ p₇ p₆ p₅ p₃ p₂ p₁ fuel m σ hσ hm => ?_
  refine (p₁.bound hσ hm).bind fun n m₁ σ₁ h₁ => ?_
  obtain ⟨at₁, l₁⟩ := h₁
  have hint := p₂.reserved.int
  have m₃ := p₃ (p₂.stays at₁) l₁.stack (by rw [hint]; rfl)
  have m₅ := m₃.trans (p₅ (hGood.stays m₃.stands) (if_pos rfl) (by rw [hint]; rfl))
  obtain ⟨pc, r₆, hb⟩ := p₆ m₅.stands
    (show Jvm.branch? .ifGt _ = some (decide (0 < n), _) from rfl)
  refine .after (m₅.reaches.trans r₆) ?_
  by_cases hn : n ≤ 0
  · rw [if_pos hn]
    have hends := p₇ (hb.2 (decide_eq_false (Int32.not_lt.mpr hn)))
    exact follows_fail (fun f hf => .inr ⟨n, hn, hf, rfl⟩) (l₁.shown.out ▸ hends)
  · rw [if_neg hn]
    have hpos := Int32.not_le.mp hn
    have at₈ := p₈.binds (.inr ((hb.1 (decide_eq_true hpos)).later b₇))
    have hshown := l₁.shown.set (k := l.slot) (fun x _ k hk => p₂.reserved.apart _ _ hk) (.int n)
    have hlater := (b₃.trans (hGood.begins.trans (b₅.trans (b₆.trans (b₇.trans b₈))))).next
    exact follows_pure ⟨hpos, if_pos rfl, Emit.Reserved.mono p₂.reserved hlater, at₈, rfl,
      hshown.goto _ _, l₁.frame.trans (frame_set (Nat.le_trans b₁.next p₂.free) _)⟩

/-- The code for the step of a range leaves the step where it says. -/
theorem spans_rangeStep {env : Env} {step : Option Expr}
    (hu : ∀ a ∈ Γ, ∀ b ∈ Γ, a.id = b.id → a = b)
    (hs : ∀ e, step = some e → e.Computes Γ V .int ∧ ∀ m n, e = .int m n → 0 < n)
    (hapart : s.body.Apart) : Spans env s (rangeStep step) fun W st s' =>
      Steps W Γ (fun fuel => stepOf F fuel step) st s s' := by
  unfold rangeStep
  split
  · exact spans_pure fun W _ fuel m σ hσ hm =>
      follows_pure ⟨by decide, rfl, trivial, hσ, .refl hm⟩
  · rename_i mark n
    refine spans_pure fun W _ fuel m σ hσ hm => ?_
    have hpos := (hs _ rfl).2 mark n rfl
    cases fuel with
    | zero => exact follows_outOfFuel.bind fun _ _ _ h => h
    | succ fuel =>
      change Follows W σ (if n ≤ 0 then _ else pure n) m _
      rw [if_neg (Int32.not_le.mpr hpos)]
      exact follows_pure ⟨hpos, rfl, trivial, hσ, .refl hm⟩
  · rename_i e _
    exact spans_computedStep ((hs e rfl).1.coded hu).1 hapart

end Range

/-! ## From one number of a range to the next -/

theorem compareLongs_pos (a b : Int64) :
    decide (0 < Jvm.compareLongs a b) = decide (b.toInt < a.toInt) := by
  unfold Jvm.compareLongs
  split
  · rename_i h
    rw [Int64.lt_iff_toInt_lt] at h
    simp only [decide_eq_decide]
    exact ⟨fun h' => absurd h' (by decide), fun h' => by omega⟩
  · rename_i hlt
    rw [Int64.lt_iff_toInt_lt] at hlt
    split
    · rename_i heq
      simp only [decide_eq_decide]
      rw [heq]
      exact ⟨fun h' => absurd h' (by decide), fun h' => absurd h' (Int.lt_irrefl _)⟩
    · rename_i hne
      rw [← Int64.toInt_inj] at hne
      simp only [decide_eq_decide]
      exact ⟨fun _ => by omega, fun _ => by decide⟩

/-- A number that is not behind the last one is the last one if the next one is behind it. -/
theorem next_behind {a b : Int32} (h : a ≤ b) :
    (a == b) = decide (b.toInt < a.toInt + (1 : Int32).toInt) := by
  rw [Int32.le_iff_toInt_le] at h
  rw [Bool.eq_iff_iff, beq_iff_eq, decide_eq_true_iff, ← Int32.toInt_inj]
  change _ ↔ _ < a.toInt + 1
  omega

section Next

variable {env : Env} {s : State} {st : Step} {x last : Local} {exit : Nat}

/-- Numbers that are counted by one are compared with the last one, and others are first added. -/
theorem testRange_eq (st : Step) (x last : Local) (exit : Nat) :
    (st = .constant 1 ∧ testRange st x last exit = (do load x; load last; jump .ifIcmpEq exit)) ∨
      testRange st x last exit = (do
        load x; op .i2l; pushStep st; op .i2l; op .ladd; load last; op .i2l; op .lcmp
        jump .ifGt exit) := by
  cases st with
  | computed l => exact .inr rfl
  | constant k =>
    by_cases hk : k = 1
    · subst hk
      exact .inl ⟨rfl, rfl⟩
    · unfold testRange
      exact .inr (if_neg (by simpa using hk))

/-- One instruction adds a small constant. -/
theorem advance_eq (st : Step) (x : Local) :
    (∃ d, st = .constant d ∧ advance st x = increment x d.toInt) ∨
      advance st x = (do load x; pushStep st; op .iadd; store x) := by
  cases st with
  | computed l => exact .inr rfl
  | constant d =>
    unfold advance
    by_cases hd : d ≤ 0x7fff
    · exact .inl ⟨d, rfl, by simp only [if_pos hd]⟩
    · exact .inr (by simp only [if_neg hd])

/-- The machine leaves the loop where the next number lies behind the last one. -/
theorem spans_testRange (hx : x.ty = .int) (hlast : last.ty = .int)
    (hexit : exit < s.body.code.labels.size) :
    Spans env s (testRange st x last exit) fun W _ s' => ∀ ⦃σ : Jvm.State⦄ ⦃a b c : Int32⦄ ⦃n : Nat⦄,
      s.At σ → σ.locals x.slot = some (.int a) → σ.locals last.slot = some (.int b) →
        st.Holds σ c → st.Reserved W n → a ≤ b → ∃ pc, W.Reaches σ (σ.goto pc σ.stack) ∧
          s'.Branched W (decide (b.toInt < a.toInt + c.toInt)) exit (σ.goto pc σ.stack) := by
  have hfits {l : Local} (hl : l.ty = .int) {w : Int32} :
      (Jvm.Word.int w).fits l.ty.localKind = true := by rw [hl]; rfl
  obtain ⟨rfl, heq⟩ | heq := testRange_eq st x last exit
  all_goals rw [heq]
  · refine spans_load.bind fun _ s₁ _ b₁ => spans_load.bind fun _ s₂ _ b₂ => ?_
    refine (spans_jump (by decide) (by decide) ((b₁.trans b₂).size hexit)).imp
      fun W _ s' _ p₃ p₂ p₁ σ a b c n hσ ha hb hc hr hle => ?_
    have m₁ := p₁ hσ ha (hfits hx)
    have m₂ := m₁.trans (p₂ m₁.stands hb (hfits hlast))
    obtain ⟨pc, r₃, hbranch⟩ := p₃ m₂.stands rfl
    cases hc
    rw [next_behind hle] at hbranch
    exact ⟨pc, m₂.reaches.trans r₃, hbranch⟩
  · have hwiden : Simple .i2l := by decide
    refine spans_load.bind fun _ s₁ _ b₁ => (spans_op hwiden).bind fun _ s₂ _ b₂ => ?_
    refine spans_pushStep.bind fun _ s₃ _ b₃ => (spans_op hwiden).bind fun _ s₄ _ b₄ => ?_
    refine (spans_op (o := .ladd) (by decide)).bind fun _ s₅ _ b₅ => ?_
    refine spans_load.bind fun _ s₆ _ b₆ => (spans_op hwiden).bind fun _ s₇ _ b₇ => ?_
    refine (spans_op (o := .lcmp) (by decide)).bind fun _ s₈ _ b₈ => ?_
    have b₁₄ := b₁.trans (b₂.trans (b₃.trans b₄))
    have b₅₈ := b₅.trans (b₆.trans (b₇.trans b₈))
    refine (spans_jump (by decide) (by decide) ((b₁₄.trans b₅₈).size hexit)).imp
      fun W _ s' _ p₉ p₈ p₇ p₆ p₅ p₄ p₃ p₂ p₁ σ a b c n hσ ha hb hc hr hle => ?_
    have m₁ := p₁ hσ ha (hfits hx)
    have m₂ := m₁.trans (p₂ m₁.stands rfl)
    have m₃ := m₂.trans (p₃ m₂.stands hc hr)
    have m₄ := m₃.trans (p₄ m₃.stands rfl)
    have m₅ := m₄.trans (p₅ m₄.stands rfl)
    have m₆ := m₅.trans (p₆ m₅.stands hb (hfits hlast))
    have m₇ := m₆.trans (p₇ m₆.stands rfl)
    have m₈ := m₇.trans (p₈ m₇.stands rfl)
    obtain ⟨pc, r₉, hbranch⟩ := p₉ m₈.stands rfl
    rw [compareLongs_pos, Eval.toInt_addLong, Int32.toInt_toInt64] at hbranch
    exact ⟨pc, m₈.reaches.trans r₉, hbranch⟩

/-- The machine adds the step. -/
theorem spans_advance (hx : x.ty = .int) (hslot : x.slot ≤ 65535) :
    Spans env s (advance st x) fun W _ s' => ∀ ⦃σ : Jvm.State⦄ ⦃a c : Int32⦄ ⦃n : Nat⦄, s.At σ →
      σ.locals x.slot = some (.int a) → st.Holds σ c → st.Reserved W n →
        Moves W s' σ (s'.behind (σ.set x.slot (.int (a + c))) σ.stack) := by
  obtain ⟨d, rfl, heq⟩ | heq := advance_eq st x
  all_goals rw [heq]
  · refine (spans_increment _ hslot).imp fun W _ s' _ p σ a c n hσ ha hc hr => ?_
    cases hc
    have hmoves := p hσ ha
    rwa [Int32.ofInt_toInt] at hmoves
  · refine spans_load.bind fun _ s₁ _ b₁ => spans_pushStep.bind fun _ s₂ _ b₂ => ?_
    refine (spans_op (o := .iadd) (by decide)).bind fun _ s₃ _ b₃ => ?_
    refine spans_store.imp fun W _ s' _ p₄ p₃ p₂ p₁ σ a c n hσ ha hc hr => ?_
    have m₁ := p₁ hσ ha (by rw [hx]; rfl)
    have m₂ := m₁.trans (p₂ m₁.stands hc hr)
    have m₃ := m₂.trans (p₃ m₂.stands rfl)
    exact m₃.trans (p₄ m₃.stands rfl (by rw [hx]; rfl))

end Next

/-! ## Loops over ranges -/

/-- The turns of a loop over a range, once its bounds and its step are computed. -/
def turns (st : Step) (v last : Local) (body : Emit Unit) : Emit Unit := do
  let top ← newLabel
  let next ← newLabel
  let exit ← newLabel
  bindLabel top
  load v
  load last
  jump .ifIcmpGt exit
  inLoop exit next body
  bindLabel next
  testRange st v last exit
  advance st v
  jump .goto top
  bindLabel exit

section Turns

variable {F : List FunDecl} {Γ V : List Symbol} {x : Emit Unit} {y : Nat → Eval Flow} {sym : Symbol}
  {v last : Local} {st : Step} {b c : Int32}

/-- At the top of a loop over a range the number is in the slot of its variable. -/
structure Counting (W : Whole) (Γ : List Symbol) (v last : Local) (st : Step) (a b c : Int32)
    (m : Machine) (σ : Jvm.State) : Prop where
  shown : Matches W Γ m σ
  number : σ.locals v.slot = some (.int a)
  last : σ.locals last.slot = some (.int b)
  step : st.Holds σ c

/-- What the turns of a loop need to know about the slots. -/
structure Fixed (W : Whole) (Γ : List Symbol) (sym : Symbol) (n k : Nat) (v last : Local)
    (st : Step) : Prop where
  slot : W.slots sym.id = some v
  int : sym.ty = .int ∧ v.ty = .int
  free : n ≤ v.slot
  limit : v.slot ≤ 65535
  fresh : ∀ a ∈ Γ, a.id ≠ sym.id
  last : Reserved W k last
  step : st.Reserved W k

/-- What holds within a loop holds outside, where its variable is not known. -/
theorem Leaves.outside {W : Whole} {n k : Nat} {σ σ' : Jvm.State} {words : List Jvm.Word}
    {m : Machine}
    (h : Leaves W (sym :: Γ) k σ words m σ') (hslot : W.slots sym.id = some v) (hn : n ≤ k)
    (hv : n ≤ v.slot) :
    Leaves W Γ n σ words m σ' := by
  refine ⟨h.stack, h.shown.subset fun _ => List.mem_cons_of_mem _, h.frame.less hn fun a ha => ?_⟩
  rcases List.mem_cons.mp ha with rfl | ha
  · refine .inr fun l hl => ?_
    cases hslot.symm.trans hl
    exact hv
  · exact .inl ha

theorem Follows.with {α : Type} {W : Whole} {σ : Jvm.State} {x : Eval α} {m : Machine}
    {Q : α → Machine → Jvm.State → Prop} {P : α → Machine → Prop} (h : Follows W σ x m Q)
    (hp : ∀ a m', x m = .ok a m' → P a m') : Follows W σ x m fun a m' σ' => Q a m' σ' ∧ P a m' where
  ok a m' hx := by
    obtain ⟨σ', hr, hq⟩ := h.ok a m' hx
    exact ⟨σ', hr, hq, hp a m' hx⟩
  error := h.error

/-- The way around a loop over a range, which ends in the state `s'`: from its top to the start of the
body, from the stop of the body to the end of the turn, and back to the top. -/
structure Cycle (W : Whole) (Γ : List Symbol) (sym : Symbol) (v last : Local) (st : Step)
    (y : Nat → Eval Flow) (loop : Loop) (top start stop turned s' : State) : Prop where
  enters : ∀ {σ : Jvm.State} {a b : Int32}, top.At σ → σ.locals v.slot = some (.int a) →
    σ.locals last.slot = some (.int b) → ∃ pc, W.Reaches σ (σ.goto pc σ.stack) ∧
      (b < a → s'.At (σ.goto pc σ.stack)) ∧ (a ≤ b → start.At (σ.goto pc σ.stack))
  body : Performs W (some loop) (sym :: Γ) (sym :: Γ) y start stop
  breaks : ∀ {σ : Jvm.State}, stop.AtLabel W loop.breakTo σ → s'.At σ
  continues : ∀ {σ : Jvm.State}, stop.At σ ∨ stop.AtLabel W loop.continueTo σ → turned.At σ
  leaves : ∀ {σ : Jvm.State} {a b c : Int32} {n : Nat}, turned.At σ →
    σ.locals v.slot = some (.int a) → σ.locals last.slot = some (.int b) → st.Holds σ c →
      st.Reserved W n → a ≤ b → b.toInt < a.toInt + c.toInt →
        ∃ pc, W.Reaches σ (σ.goto pc σ.stack) ∧ s'.At (σ.goto pc σ.stack)
  returns : ∀ {σ : Jvm.State} {a b c : Int32} {n : Nat}, turned.At σ →
    σ.locals v.slot = some (.int a) → σ.locals last.slot = some (.int b) → st.Holds σ c →
      st.Reserved W n → a ≤ b → a.toInt + c.toInt ≤ b.toInt →
        W.Reaches σ ((σ.set v.slot (.int (a + c))).goto top.body.code.bytes.size σ.stack)

/-- The code of the turns goes around. -/
theorem spans_cycle (st : Step) {env : Env} {s : State} (hx : Runs (sym :: Γ) (sym :: Γ) x y)
    (hv : v.ty = .int) (hlast : last.ty = .int) (hlimit : v.slot ≤ 65535) (hready : Ready env s) :
    Spans env s (turns st v last x) fun W _ s' => ∃ loop top start stop turned,
      Cycle W Γ sym v last st y loop top start stop turned s' ∧
        s.body.next ≤ start.body.next ∧ ∀ {σ : Jvm.State}, s.At σ → top.At σ := by
  have hfits {l : Local} (hl : l.ty = .int) {w : Int32} :
      (Jvm.Word.int w).fits l.ty.localKind = true := by rw [hl]; rfl
  refine spans_newLabel fun top s₁ hTop => spans_newLabel fun next s₂ hNext => ?_
  refine spans_newLabel fun exit s₃ hExit => ?_
  have lt₃ := (hNext.begins.trans hExit.begins).size hTop.size
  have ln₃ := hExit.begins.size hNext.size
  refine (spans_bindLabel lt₃).bind fun _ s₄ _ b₄ => ?_
  refine spans_load.bind fun _ s₅ _ b₅ => spans_load.bind fun _ s₆ _ b₆ => ?_
  have b₄₆ := b₄.trans (b₅.trans b₆)
  refine (spans_jump (by decide) (by decide) (b₄₆.size hExit.size)).bind fun _ s₇ _ b₇ => ?_
  have b₄₇ := b₄₆.trans b₇
  have b₁₇ := hTop.begins.trans (hNext.begins.trans (hExit.begins.trans b₄₇))
  refine (hx.spans_inLoop (hready.later b₁₇) (b₄₇.size hExit.size)
    (b₄₇.size ln₃)).bind fun _ s₈ _ b₈ => ?_
  have b₄₈ := b₄₇.trans b₈
  refine (spans_bindLabel (b₄₈.size ln₃)).bind fun _ s₉ _ b₉ => ?_
  have b₄₉ := b₄₈.trans b₉
  refine (spans_testRange hv hlast (b₄₉.size hExit.size)).bind fun _ s₁₀ _ b₁₀ => ?_
  refine (spans_advance hv hlimit).bind fun _ s₁₁ _ b₁₁ => ?_
  have b₁₀₁ := b₁₀.trans b₁₁
  refine (spans_goto ((b₄₉.trans b₁₀₁).size lt₃)).bind fun _ s₁₂ _ b₁₂ => ?_
  have b₁₁₂ := b₁₁.trans b₁₂
  have b₉₁₂ := b₉.trans (b₁₀.trans b₁₁₂)
  refine (spans_bindLabel ((b₄₈.trans b₉₁₂).size hExit.size)).imp
    fun W _ s' _ p₁₃ p₁₂ p₁₁ p₁₀ p₉ p₈ p₇ p₆ p₅ p₄ => ?_
  refine ⟨⟨exit, next⟩, s₄, s₇, s₈, s₉, ⟨fun hσ ha hb => ?_, p₈,
    fun hat => p₁₃.binds (.inr (hat.later b₉₁₂)), p₉.binds, fun hσ ha hb hc hr hle hlt => ?_,
    fun hσ ha hb hc hr hle hle' => ?_⟩, b₁₇.next,
    fun hσ => p₄.binds (.inl (hExit.stays (hNext.stays (hTop.stays hσ))))⟩
  · rename_i σ a b
    have m₅ := p₅ hσ ha (hfits hv)
    have m₆ := m₅.trans (p₆ m₅.stands hb (hfits hlast))
    obtain ⟨pc, r₇, hbranch⟩ := p₇ m₆.stands
      (show Jvm.branch? .ifIcmpGt _ = some (decide (b < a), _) from rfl)
    refine ⟨pc, m₆.reaches.trans r₇, fun hlt => p₁₃.binds (.inr ?_), fun hle => ?_⟩
    · exact (hbranch.1 (decide_eq_true hlt)).later (b₈.trans b₉₁₂)
    · exact hbranch.2 (decide_eq_false (Int32.not_lt.mpr hle))
  · obtain ⟨pc, r₁₀, hbranch⟩ := p₁₀ hσ ha hb hc hr hle
    exact ⟨pc, r₁₀, p₁₃.binds (.inr ((hbranch.1 (decide_eq_true hlt)).later b₁₁₂))⟩
  · obtain ⟨pc, r₁₀, hbranch⟩ := p₁₀ hσ ha hb hc hr hle
    have m₁₁ := p₁₁ (hbranch.2 (decide_eq_false (Int.not_lt.mpr hle'))) ha hc hr
    obtain ⟨r₁₂, -⟩ := p₁₂ m₁₁.stands
    rw [p₄.place] at r₁₂
    exact r₁₀.trans (m₁₁.reaches.trans r₁₂)

/-- The number and the step are in their slots where the body stops. -/
theorem Counting.kept {W : Whole} {n k k' pc : Nat} {a : Int32} {m m' : Machine} {σ τ : Jvm.State}
    {words : List Jvm.Word} (h : Counting W Γ v last st a b c m σ)
    (hfix : Fixed W Γ sym n k v last st) (hk : k ≤ k')
    (hleaves : Leaves W (sym :: Γ) k' (σ.goto pc σ.stack) words m' τ)
    (hvar : m'.vars[sym.id]? = some (.int a)) : Counting W (sym :: Γ) v last st a b c m' τ := by
  refine ⟨hleaves.shown, ?_, ((hfix.last.mono hk).kept hleaves.frame).trans h.last,
    h.step.kept (hfix.step.mono hk) hleaves.frame⟩
  obtain ⟨l, u, w, hl, -, hu, hshow, hlocal⟩ := hleaves.shown.vars sym List.mem_cons_self
  cases hfix.slot.symm.trans hl
  cases hu.symm.trans hvar
  rw [hfix.int.1] at hshow
  cases hshow
  exact hlocal

theorem Counting.goto {W : Whole} {a : Int32} {m : Machine} {σ : Jvm.State}
    (h : Counting W Γ v last st a b c m σ) (pc : Nat) (words : List Jvm.Word) :
    Counting W Γ v last st a b c m (σ.goto pc words) :=
  ⟨h.shown.goto pc words, h.number, h.last, by cases st <;> exact h.step⟩

/-- Storing the next number changes the slot of the variable alone. -/
theorem Counting.next {W : Whole} {n k : Nat} {a : Int32} {m : Machine} {σ : Jvm.State}
    (h : Counting W (sym :: Γ) v last st a b c m σ) (hfix : Fixed W Γ sym n k v last st)
    (hother : ∀ x ∈ Γ, ∀ l, W.slots x.id = some l → l.slot ≠ v.slot) :
    Counting W Γ v last st (a + c) b c m (σ.set v.slot (.int (a + c))) := by
  have hset : Frame W (sym :: Γ) k σ (σ.set v.slot (.int (a + c))) :=
    Frame.set List.mem_cons_self hfix.slot _
  exact ⟨(h.shown.subset fun _ => List.mem_cons_of_mem _).set hother _, if_pos rfl,
    (hfix.last.kept hset).trans h.last, h.step.kept hfix.step hset⟩

section Cycle

variable {W : Whole} {loop : Loop} {outer : Option Loop} {top start stop turned s' : State} {n k : Nat}
  {fuel : Nat} {a : Int32}

/-- The loop is left at the end of a turn, or another turn follows. -/
theorem Cycle.again (h : Cycle W Γ sym v last st y loop top start stop turned s')
    (hfix : Fixed W Γ sym n k v last st)
    (hother : ∀ x ∈ Γ, ∀ l, W.slots x.id = some l → l.slot ≠ v.slot) (hc : 0 < c)
    {m : Machine} {σ τ : Jvm.State} (hσ : top.At σ) (hle : a ≤ b) (hτ : turned.At τ)
    (hcount : Counting W (sym :: Γ) v last st a b c m τ) (hleaves : Leaves W Γ n σ σ.stack m τ)
    (ih : a.toInt + c.toInt ≤ b.toInt → ∀ m σ, top.At σ → Counting W Γ v last st (a + c) b c m σ →
      Follows W σ (Eval.rangeLoop sym.id b c (y fuel) (a + c).toInt64) m
        (Lands W outer Γ Γ n σ s')) :
    Follows W τ (Eval.rangeLoop sym.id b c (y fuel) (a.toInt64 + c.toInt64)) m
      (Lands W outer Γ Γ n σ s') := by
  rw [Eval.rangeLoop_next hc]
  by_cases hle' : a.toInt + c.toInt ≤ b.toInt
  · rw [if_pos hle']
    refine .after (h.returns hτ hcount.number hcount.last hcount.step hfix.step hle hle') ?_
    have hnext := (hcount.next hfix hother).goto top.body.code.bytes.size τ.stack
    have hback : Leaves W Γ n σ σ.stack m
        ((τ.set v.slot (.int (a + c))).goto top.body.code.bytes.size τ.stack) :=
      ⟨hleaves.stack, hnext.shown, hleaves.frame.trans (frame_set hfix.free _)⟩
    exact (ih hle' m _ ⟨hσ.live, rfl⟩ hnext).imp fun _ _ _ hl =>
      hl.after hback (Nat.le_refl _) (fun _ h => h) fun _ h => .inl h
  · rw [if_neg hle']
    obtain ⟨pc, hr, hat⟩ := h.leaves hτ hcount.number hcount.last hcount.step hfix.step hle
      (Int.not_le.mp hle')
    exact .after hr (follows_pure (.stay hat (hleaves.goto pc hleaves.stack)))

/-- Going around follows the loop. A turn begins at the top, with the next number in the slot of the
variable. -/
theorem Cycle.follows (h : Cycle W Γ sym v last st y loop top start stop turned s')
    (hspare : ∀ fuel, Eval.Spares sym.id (y fuel)) (hfix : Fixed W Γ sym n k v last st)
    (hother : ∀ x ∈ Γ, ∀ l, W.slots x.id = some l → l.slot ≠ v.slot) (hn : n ≤ k)
    (hk : k ≤ start.body.next) (hc : 0 < c) (m : Machine) (σ : Jvm.State) (hσ : top.At σ)
    (hcount : Counting W Γ v last st a b c m σ) :
    Follows W σ (Eval.rangeLoop sym.id b c (y fuel) a.toInt64) m (Lands W outer Γ Γ n σ s') := by
  induction a using Eval.range_induction hc (b := b) generalizing m σ with
  | behind a hbehind =>
    rw [Eval.rangeLoop_of_lt hbehind]
    obtain ⟨pc, hr, hend, -⟩ := h.enters hσ hcount.number hcount.last
    exact .after hr
      (follows_pure (.stay (hend hbehind) ((Leaves.refl hcount.shown).goto _ rfl)))
  | turn a hle ih =>
    obtain ⟨pc, hr, -, hstart⟩ := h.enters hσ hcount.number hcount.last
    refine .after hr ?_
    -- The variable gets the number that its slot shows.
    have hshown := (hcount.shown.goto pc σ.stack).cons hfix.fresh hfix.slot
      (hfix.int.2.trans hfix.int.1.symm) hcount.number (by rw [hfix.int.1]; exact .int a)
    rw [Eval.rangeLoop_of_le hc hle]
    refine (follows_assign (Q := fun _ m' σ' => m' = _ ∧ σ' = _) ⟨rfl, rfl⟩).bind ?_
    rintro _ _ _ ⟨rfl, rfl⟩
    rw [Eval.turn, bind_assoc]
    refine ((h.body (hstart hle) hshown).with fun _ _ => (hspare fuel).vars).bind
      fun flow m₂ σ₂ hlands => ?_
    obtain ⟨hlands, hvar⟩ := hlands
    have hvar : m₂.vars[sym.id]? = some (.int a) := hvar.trans (by simp)
    have outside {m' : Machine} {τ : Jvm.State}
        (hl : Leaves W (sym :: Γ) start.body.next (σ.goto pc σ.stack) σ.stack m' τ) :
        Leaves W Γ n σ σ.stack m' τ := by
      obtain ⟨hstack, hshown, hframe⟩ := hl.outside hfix.slot (Nat.le_trans hn hk) hfix.free
      exact ⟨hstack, hshown, hframe⟩
    have again {τ : Jvm.State} (hτ : turned.At τ)
        (hl : Leaves W (sym :: Γ) start.body.next (σ.goto pc σ.stack) σ.stack m₂ τ) :
        Follows W τ (Eval.rangeLoop sym.id b c (y fuel) (a.toInt64 + c.toInt64)) m₂
          (Lands W outer Γ Γ n σ s') :=
      h.again hfix hother hc hσ hle hτ (hcount.kept hfix hk hl hvar) (outside hl) ih
    cases hlands with
    | next hat leaves => exact again (h.continues (.inl hat)) leaves
    | continued hl hat leaves =>
      cases hl
      exact again (h.continues (.inr hat)) leaves
    | broke hl hat leaves =>
      cases hl
      exact follows_pure (.stay (h.breaks hat) (outside leaves))
    | returned hends => exact follows_pure (.returned hends)

end Cycle

/-- `for` over a range. -/
theorem runs_rangeLoop {id : Ident} {mark : Mark} {first lastOf : Expr} {step : Option Expr}
    (hu : ∀ a ∈ Γ, ∀ b ∈ Γ, a.id = b.id → a = b) (hsym : id.sym = some sym)
    (hfresh : ∀ a ∈ Γ, a.id ≠ sym.id)
    (hty : sym.ty = .int) (hfirst : first.Computes Γ V .int) (hlast : lastOf.Computes Γ V .int)
    (hstep : ∀ e, step = some e → e.Computes Γ V .int ∧ ∀ m n, e = .int m n → 0 < n)
    (hx : Runs (sym :: Γ) (sym :: Γ) x y) (hspare : ∀ fuel, Eval.Spares sym.id (y fuel)) :
    Runs Γ Γ (rangeLoop id (.mk mark first lastOf step) x) fun fuel => (do
      let a ← Eval.bound (Eval.expr F fuel) first
      let b ← Eval.bound (Eval.expr F fuel) lastOf
      let c ← stepOf F fuel step
      Eval.rangeLoop sym.id b c (y fuel) a.toInt64) := by
  have hcode : rangeLoop id (.mk mark first lastOf step) x = (do
      let sym ← symbolOf id
      first.piece.value
      let v ← declare sym id.tok
      store v
      lastOf.piece.value
      let last ← scratch .int mark.tok
      store last
      let st ← rangeStep step
      turns st v last x) := rfl
  rw [hcode, Emit.symbolOf_eq hsym, pure_bind]
  refine runs_of_spans fun env s hready => ?_
  refine ((hfirst.coded (F := F) hu).1.spans hready.apart).bind fun _ s₁ _ b₁ => ?_
  refine (spans_declare id.tok).bind fun v s₂ h₂ b₂ => ?_
  have hv : v.ty = .int := by rw [(declare_ok h₂).1]; exact hty
  refine spans_store.bind fun _ s₃ _ b₃ => ?_
  have b₁₃ := b₁.trans (b₂.trans b₃)
  refine ((hlast.coded (F := F) hu).1.spans (b₁₃.apart hready.apart)).bind fun _ s₄ _ b₄ => ?_
  refine (spans_scratch mark.tok).bind fun last s₅ h₅ b₅ => ?_
  have hint : last.ty = .int := by rw [(scratch_ok h₅).1]
  refine spans_store.bind fun _ s₆ _ b₆ => ?_
  have b₄₆ := b₄.trans (b₅.trans b₆)
  have b₁₆ := b₁₃.trans b₄₆
  refine (spans_rangeStep (F := F) hu hstep (b₁₆.apart hready.apart)).bind fun st s₇ _ b₇ => ?_
  obtain ⟨hfree, hbelow, hlimit⟩ : s.body.next ≤ v.slot ∧ v.slot < s₂.body.next ∧ v.slot ≤ 65535 := by
    obtain ⟨rfl, hlimit, -, rfl⟩ := declare_ok h₂
    exact ⟨b₁.next, Nat.lt_succ_self _, hlimit⟩
  refine (spans_cycle st hx hv hint hlimit (hready.later (b₁₆.trans b₇))).imp
    fun W _ s' hW hcycle p₇ p₆ p₅ p₄ p₃ p₂ p₁ fuel m σ hσ hm => ?_
  obtain ⟨loop, top, start, stop, turned, hcycle, hnext, hinto⟩ := hcycle
  have hother := hW.ne_of_new hfresh p₂.slot
  have hbelow := Nat.lt_of_lt_of_le hbelow b₃.next
  refine (p₁.bound hσ hm).bind fun a m₁ σ₁ h => ?_
  obtain ⟨at₁, l₁⟩ := h
  have m₃ := p₃ (p₂.stays at₁) l₁.stack (by rw [hv]; rfl)
  have l₃ : Leaves W Γ s.body.next σ σ.stack m₁ (s₃.behind (σ₁.set v.slot (.int a)) σ.stack) :=
    ⟨rfl, (l₁.shown.set hother _).goto _ _, l₁.frame.trans (frame_set hfree _)⟩
  refine .after m₃.reaches ((p₄.bound m₃.stands l₃.shown).bind fun b m₂ σ₂ h => ?_)
  obtain ⟨at₄, l₄⟩ := h
  have m₆ := p₆ (p₅.stays at₄) l₄.stack (by rw [hint]; rfl)
  have hnumber : (σ₂.set last.slot (.int b)).locals v.slot = some (.int a) :=
    (if_neg (p₅.reserved.apart _ _ p₂.slot)).trans
      ((l₄.frame v.slot hbelow hother).trans (if_pos rfl))
  have l₆ : Leaves W Γ s.body.next σ σ.stack m₂ (s₆.behind (σ₂.set last.slot (.int b)) σ.stack) :=
    ⟨rfl, (l₄.shown.set (fun _ _ _ hk => p₅.reserved.apart _ _ hk) _).goto _ _,
      (l₃.frame.trans (l₄.frame.mono b₁₃.next)).trans
        (frame_set (Nat.le_trans (b₁₃.trans b₄).next p₅.free) _)⟩
  refine .after m₆.reaches ((p₇ m₆.stands l₆.shown).bind fun c m₃ σ₃ h => ?_)
  obtain ⟨hc, hholds, hstepRes, at₇, l₇⟩ := h
  have hcount : Counting W Γ v last st a b c m₃ σ₃ :=
    ⟨l₇.shown, (l₇.frame v.slot (Nat.lt_of_lt_of_le hbelow b₄₆.next) hother).trans hnumber,
      ((p₅.reserved.mono b₆.next).kept l₇.frame).trans (if_pos rfl), hholds⟩
  have hfixed : Fixed W Γ sym s.body.next s₇.body.next v last st :=
    ⟨p₂.slot, ⟨hty, hv⟩, hfree, hlimit, hfresh, p₅.reserved.mono (b₆.trans b₇).next, hstepRes⟩
  have hbefore := l₆.trans l₇ b₁₆.next
  exact (hcycle.follows hspare hfixed hother (b₁₆.trans b₇).next hnext hc m₃ σ₃ (hinto at₇)
    hcount).imp fun _ _ _ hlands =>
      hlands.after hbefore (Nat.le_refl _) (fun _ h => h) fun _ h => .inl h

end Turns

end Emit
end Kotlet

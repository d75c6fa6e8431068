import Kotlet.Proofs.Jvm.Follows
import Kotlet.Proofs.Jvm.Scalar

/-!
# Code for expressions follows the evaluator

* `Values`, `Branches` : code that leaves the value of an expression on the stack, and code that
  branches on it; `Evaluates`, `Decides` : what the machine does between two states of them;
* `branches_ofValue`, `values_materialize` : either use gives the other one;
* one lemma for each operator, then `Expr.Computes.coded` for all expressions of a scalar program.
-/

namespace Kotlet
namespace Emit

open ClassFile

/-- The steps write code that leaves the value of an expression of a type on the stack. -/
def Values (Γ : List Symbol) (t : Ty) (x : Emit Unit) (y : Nat → Eval Value) : Prop :=
  ∀ ⦃env : Env⦄ ⦃s s' : State⦄ ⦃u : Unit⦄, s.body.Apart → x env s = .ok (u, s') → s.Begins s' ∧
    ∀ ⦃W : Whole⦄ ⦃fuel : Nat⦄ ⦃m : Machine⦄ ⦃σ : Jvm.State⦄, Span W s s' → s.At σ →
      Matches W Γ m σ → Follows W σ (y fuel) m fun v m' σ' =>
        ∃ w, v.Shows t w ∧ s'.At σ' ∧ Leaves W Γ s.body.next σ (w :: σ.stack) m' σ'

/-- The steps write code that branches to a label if a condition is the wanted truth value. -/
def Branches (Γ : List Symbol) (x : Bool → Nat → Emit Unit) (y : Nat → Eval Value) : Prop :=
  ∀ ⦃env : Env⦄ ⦃s s' : State⦄ ⦃want : Bool⦄ ⦃l : Nat⦄ ⦃u : Unit⦄, s.body.Apart →
    l < s.body.code.labels.size → x want l env s = .ok (u, s') → s.Begins s' ∧
      ∀ ⦃W : Whole⦄ ⦃fuel : Nat⦄ ⦃m : Machine⦄ ⦃σ : Jvm.State⦄, Span W s s' → s.At σ →
        Matches W Γ m σ → Follows W σ (y fuel) m fun v m' σ' =>
          ∃ b : Bool, v = .bool b ∧ s'.Branched W (b == want) l σ' ∧
            Leaves W Γ s.body.next σ σ.stack m' σ'

section Parts

variable {Γ : List Symbol} {t : Ty} {env : Env} {s : State} {y : Nat → Eval Value}

/-- Between two states the machine computes the value of an expression. -/
def Evaluates (W : Whole) (Γ : List Symbol) (t : Ty) (y : Nat → Eval Value) (s s' : State) : Prop :=
  ∀ ⦃fuel : Nat⦄ ⦃m : Machine⦄ ⦃σ : Jvm.State⦄, s.At σ → Matches W Γ m σ →
    Follows W σ (y fuel) m fun v m' σ' =>
      ∃ w, v.Shows t w ∧ s'.At σ' ∧ Leaves W Γ s.body.next σ (w :: σ.stack) m' σ'

/-- Between two states the machine branches to a label if a condition is the wanted truth value. -/
def Decides (W : Whole) (Γ : List Symbol) (y : Nat → Eval Value) (want : Bool) (l : Nat)
    (s s' : State) : Prop :=
  ∀ ⦃fuel : Nat⦄ ⦃m : Machine⦄ ⦃σ : Jvm.State⦄, s.At σ → Matches W Γ m σ →
    Follows W σ (y fuel) m fun v m' σ' =>
      ∃ b : Bool, v = .bool b ∧ s'.Branched W (b == want) l σ' ∧
        Leaves W Γ s.body.next σ σ.stack m' σ'

theorem Values.spans {x : Emit Unit} (h : Values Γ t x y) (hapart : s.body.Apart) :
    Spans env s x fun W _ s' => Evaluates W Γ t y s s' := by
  intro u s' hx
  obtain ⟨hb, hr⟩ := h hapart hx
  exact ⟨hb, fun W hW fuel m σ => hr hW⟩

theorem values_of_spans {x : Emit Unit} (h : ∀ env s, s.body.Apart →
    Spans env s x fun W _ s' => Evaluates W Γ t y s s') : Values Γ t x y := by
  intro env s s' u hapart hx
  obtain ⟨hb, hr⟩ := h env s hapart hx
  exact ⟨hb, fun W fuel m σ hW => @hr W hW fuel m σ⟩

theorem Branches.spans {x : Bool → Nat → Emit Unit} (h : Branches Γ x y) {want : Bool} {l : Nat}
    (hapart : s.body.Apart) (hl : l < s.body.code.labels.size) :
    Spans env s (x want l) fun W _ s' => Decides W Γ y want l s s' := by
  intro u s' hx
  obtain ⟨hb, hr⟩ := h hapart hl hx
  exact ⟨hb, fun W hW fuel m σ => hr hW⟩

theorem branches_of_spans {x : Bool → Nat → Emit Unit} (h : ∀ env s want l, s.body.Apart →
    l < s.body.code.labels.size → Spans env s (x want l) fun W _ s' => Decides W Γ y want l s s') :
    Branches Γ x y := by
  intro env s s' want l u hapart hl hx
  obtain ⟨hb, hr⟩ := h env s want l hapart hl hx
  exact ⟨hb, fun W fuel m σ hW => @hr W hW fuel m σ⟩

end Parts

section Uses

variable {Γ : List Symbol} {y : Nat → Eval Value}

/-- A truth value as a number is not zero. -/
theorem branch?_truth (b want : Bool) (st : List Jvm.Word) :
    Jvm.branch? (if want then .ifNe else .ifEq) (.int (if b then 1 else 0) :: st) =
      some (b == want, st) := by
  cases b <;> cases want <;> rfl

theorem branches_ofValue {x : Emit Unit} (hx : Values Γ .boolean x y) :
    Branches Γ (fun want l => do
      x
      Emit.jump (if want then .ifNe else .ifEq) l) y := by
  refine branches_of_spans fun env s want l hapart hl => ?_
  have hbranch : (if want then Opcode.ifNe else .ifEq).isBranch = true ∧
      (if want then Opcode.ifNe else .ifEq).endsBlock = false := by cases want <;> decide
  refine (hx.spans hapart).bind fun _ s₁ _ b₁ => ?_
  refine (spans_jump hbranch.1 hbranch.2 (b₁.size hl)).imp fun W _ s' _ p₂ p₁ fuel m σ hσ hm => ?_
  refine (p₁ hσ hm).mono fun v m' σ' hv => ?_
  obtain ⟨w, hshow, at₁, hleaves⟩ := hv
  obtain ⟨b, rfl, rfl⟩ := hshow.of_boolean
  obtain ⟨pc, hr, hbranched⟩ := p₂ at₁ (by rw [hleaves.stack]; exact branch?_truth b want _)
  exact ⟨_, hr, b, rfl, hbranched, hleaves.goto pc rfl⟩

/-- A condition as a value. -/
theorem values_materialize {x : Bool → Nat → Emit Unit} (hx : Branches Γ x y) :
    Values Γ .boolean (materialize x) y := by
  refine values_of_spans fun env s hapart => ?_
  unfold materialize
  refine spans_newLabel fun isTrue s₁ hTrue => spans_newLabel fun done s₂ hDone => ?_
  have b₁₂ := hTrue.begins.trans hDone.begins
  refine (hx.spans (b₁₂.apart hapart) (hDone.begins.size hTrue.size)).bind fun _ s₃ _ b₃ => ?_
  refine (spans_pushInt 0).bind fun _ s₄ _ b₄ => ?_
  have ld₄ := (b₃.trans b₄).size hDone.size
  refine (spans_goto ld₄).bind fun _ s₅ _ b₅ => ?_
  have lt₅ := (hDone.begins.trans (b₃.trans (b₄.trans b₅))).size hTrue.size
  refine (spans_bindLabel lt₅).bind fun _ s₆ _ b₆ => ?_
  refine (spans_pushInt 1).bind fun _ s₇ _ b₇ => ?_
  refine (spans_bindLabel ((b₅.trans (b₆.trans b₇)).size ld₄)).imp
    fun W _ s' _ p₈ p₇ p₆ p₅ p₄ p₃ fuel m σ hσ hm => ?_
  refine (p₃ (hDone.stays (hTrue.stays hσ)) hm).mono fun v m' σ' hv => ?_
  obtain ⟨b, rfl, hbranched, hleaves⟩ := hv
  cases b with
  | true =>
    -- Control comes to the label, and 1 is pushed there.
    have m₇ := p₇ (p₆.binds (.inr ((hbranched.1 rfl).later (b₄.trans b₅))))
    exact ⟨_, m₇.reaches, .int 1, .bool true, p₈.binds (.inl m₇.stands),
      (hleaves.mono b₁₂.next).push _ _⟩
  | false =>
    -- Control goes on, 0 is pushed, and the rest is skipped.
    have m₄ := p₄ (hbranched.2 rfl)
    obtain ⟨r₅, at₅⟩ := p₅ m₄.stands
    exact ⟨_, m₄.reaches.trans r₅, .int 0, .bool false,
      p₈.binds (.inr (at₅.later (b₆.trans b₇))), (hleaves.mono b₁₂.next).push _ _⟩

end Uses

/-! ## Operators -/

section Operators

variable {F : List FunDecl} {Γ V : List Symbol} {a b : Expr} {mark : Mark} {sign : String}

theorem values_int (m : Mark) (n : Int32) :
    Values Γ .int (pushInt n) fun fuel => Eval.expr F fuel (.int m n) := by
  refine values_of_spans fun env s hapart => (spans_pushInt n).imp
    fun W _ s' _ p₁ fuel _ σ hσ hm => ?_
  cases fuel with
  | zero => exact follows_outOfFuel
  | succ fuel =>
    exact .after (p₁ hσ).reaches
      (follows_pure ⟨.int n, .int n, (p₁ hσ).stands, (Leaves.refl hm).push _ _⟩)

theorem values_bool (m : Mark) (b : Bool) :
    Values Γ .boolean (onCode fun c => c.pushBool b) fun fuel => Eval.expr F fuel (.bool m b) := by
  refine values_of_spans fun env s hapart => (spans_loads fun _ _ => loads_pushBool).imp
    fun W _ s' _ p₁ fuel _ σ hσ hm => ?_
  cases fuel with
  | zero => exact follows_outOfFuel
  | succ fuel =>
    exact .after (p₁ hσ).reaches
      (follows_pure ⟨_, .bool b, (p₁ hσ).stands, (Leaves.refl hm).push _ _⟩)

/-- A condition that is known drops the jump, or what comes after it. -/
theorem branches_bool (m : Mark) (b : Bool) :
    Branches Γ (fun want l => if b = want then jump .goto l else pure ())
      fun fuel => Eval.expr F fuel (.bool m b) := by
  refine branches_of_spans fun env s want l hapart hl => ?_
  split
  · rename_i hb
    refine (spans_goto hl).imp fun W _ s' _ p₁ fuel _ σ hσ hm => ?_
    cases fuel with
    | zero => exact follows_outOfFuel
    | succ fuel =>
      obtain ⟨hr, hat⟩ := p₁ hσ
      refine .after hr (follows_pure ⟨b, rfl, ⟨fun _ => hat, fun hne => ?_⟩,
        (Leaves.refl hm).goto _ rfl⟩)
      simp [hb] at hne
  · rename_i hb
    refine spans_pure fun W _ fuel _ σ hσ hm => ?_
    cases fuel with
    | zero => exact follows_outOfFuel
    | succ fuel =>
      refine follows_pure ⟨b, rfl, ⟨fun heq => ?_, fun _ => hσ⟩, Leaves.refl hm⟩
      exact absurd (by simpa using heq) hb

/-- A step of the evaluator that comes to a value. -/
theorem follows_of_ok {α : Type} {W : Whole} {σ : Jvm.State} {x : Eval α} {m m' : Machine} {v : α}
    {Q : α → Machine → Jvm.State → Prop} (h : x m = .ok v m') (hq : Q v m' σ) :
    Follows W σ x m Q where
  ok a m'' ha := by
    cases h.symm.trans ha
    exact ⟨σ, .refl σ, hq⟩
  error f m'' hf := by cases h.symm.trans hf

/-- What the machine finds in the slot of a variable. -/
theorem Matches.slot {W : Whole} {s s' : State} {m : Machine} {σ : Jvm.State}
    (h : Matches W Γ m σ) (hW : Span W s s') {sym : Symbol} (hs : sym ∈ Γ) {l : Local}
    (hl : s.body.slots[sym.id]? = some l) : W.slots sym.id = some l ∧ l.ty = sym.ty ∧
      ∃ v w, m.vars[sym.id]? = some v ∧ v.Shows sym.ty w ∧ σ.locals l.slot = some w := by
  obtain ⟨k, v, w, hk, hty, hv, hshow, hlocal⟩ := h.vars sym hs
  rw [hW.slot hl] at hk
  cases hk
  exact ⟨hW.slot hl, hty, v, w, hv, hshow, hlocal⟩

/-- The slot of a variable that holds a number. -/
theorem Matches.intSlot {W : Whole} {s s' : State} {m : Machine} {σ : Jvm.State}
    (h : Matches W Γ m σ) (hW : Span W s s') {sym : Symbol} (hs : sym ∈ Γ) (hty : sym.ty = .int)
    {l : Local} (hl : s.body.slots[sym.id]? = some l) : W.slots sym.id = some l ∧ l.ty = .int ∧
      ∃ n, m.vars[sym.id]? = some (.int n) ∧ σ.locals l.slot = some (.int n) := by
  obtain ⟨hslot, hlty, v, w, hv, hshow, hlocal⟩ := h.slot hW hs hl
  rw [hty] at hshow hlty
  obtain ⟨n, rfl, rfl⟩ := hshow.of_int
  exact ⟨hslot, hlty, n, hv, hlocal⟩

theorem values_read {id : Ident} {sym : Symbol} (hs : sym ∈ Γ) (hid : id.sym = some sym)
    (hp : sym.isFunction = false) :
    Values Γ sym.ty (readName id) fun fuel => Eval.expr F fuel (.read (.name id)) := by
  refine values_of_spans fun env s hapart => ?_
  unfold readName
  rw [symbolOf_eq hid, pure_bind, hp]
  refine spans_variableOf hid fun l hl => spans_load.imp fun W _ s' hW p₁ fuel m σ hσ hm => ?_
  cases fuel with
  | zero => exact follows_outOfFuel
  | succ fuel =>
    obtain ⟨-, hty, v, w, hv, hshow, hlocal⟩ := hm.slot hW hs hl
    have m₁ := p₁ hσ hlocal (by rw [hty]; exact hshow.fits)
    have hread : Eval.expr F (fuel + 1) (.read (.name id)) m = .ok v m :=
      Eval.read_of_vars hid hp hv
    exact .after m₁.reaches
      (follows_of_ok hread ⟨w, hshow, m₁.stands, (Leaves.refl hm).push _ _⟩)

theorem compute?_of_apply {o : ArithOp} {x y n : Int32} (h : o.apply x y = some n)
    (st : List Jvm.Word) :
    Jvm.compute? o.opcode (.int y :: .int x :: st) = some (.ok (.int n :: st)) := by
  cases o with
  | add | sub | mul =>
    cases h
    rfl
  | div | rem =>
    simp only [ArithOp.apply] at h
    split at h
    · cases h
    · rename_i hy
      cases h
      change some (Jvm.divided _ _ _) = _
      rw [Jvm.divided, if_neg hy]

theorem compute?_of_apply_none {o : ArithOp} {x y : Int32} (h : o.apply x y = none)
    (st : List Jvm.Word) : Jvm.compute? o.opcode (.int y :: .int x :: st) =
      some (.error (.threw Jvm.arithmetic (some "/ by zero"))) := by
  cases o with
  | add | sub | mul => cases h
  | div | rem =>
    simp only [ArithOp.apply] at h
    split at h
    · rename_i hy
      change some (Jvm.divided _ _ _) = _
      rw [Jvm.divided, if_pos hy]
    · cases h

theorem simple_opcode (o : ArithOp) : Simple o.opcode := by cases o <;> decide

/-- An operation on the two numbers on the stack. -/
theorem spans_arithmetic {env : Env} {s : State} {o : ArithOp} (ho : ArithOp.ofText? sign = some o) :
    Spans env s (op o.opcode) fun W _ s' => ∀ ⦃σ : Jvm.State⦄ ⦃m : Machine⦄ ⦃st : List Jvm.Word⦄
      ⦃x y : Int32⦄ (tok : Token), s.At σ → σ.stack = .int y :: .int x :: st → σ.out = m.out →
        Follows W σ (Eval.arithmetic tok sign (.int x) (.int y)) m fun v m' σ' =>
          m' = m ∧ ∃ n, v = .int n ∧ s'.At σ' ∧ σ' = s'.behind σ (.int n :: st) := by
  intro u s' h
  obtain ⟨hb, hp⟩ := spans_op (simple_opcode o) h
  refine ⟨hb, fun W hW σ m st x y tok hσ hst hout => ?_⟩
  simp only [Eval.arithmetic, ho]
  cases hn : o.apply x y with
  | some n =>
    have m₁ := hp hW hσ (by rw [hst]; exact compute?_of_apply hn st)
    exact .after m₁.reaches (follows_pure ⟨rfl, n, rfl, m₁.stands, rfl⟩)
  | none =>
    have hends := ends_op h (simple_opcode o) hW hσ
      (by rw [hst]; exact compute?_of_apply_none hn st)
    rw [hout] at hends
    exact follows_fail (fun f hf => .inl ⟨hf, rfl⟩) hends

theorem values_arith {tok : Token} {o : ArithOp} (ho : ArithOp.ofText? sign = some o)
    (ha : Values Γ .int a.piece.value fun fuel => Eval.expr F fuel a)
    (hb : Values Γ .int b.piece.value fun fuel => Eval.expr F fuel b) :
    Values Γ .int (arithmetic tok sign a.piece b.piece)
      fun fuel => Eval.expr F fuel (.arith mark sign a b) := by
  refine values_of_spans fun env s hapart => ?_
  unfold arithmetic
  simp only [ho]
  refine (ha.spans hapart).bind fun _ s₁ _ b₁ => ?_
  refine (hb.spans (b₁.apart hapart)).bind fun _ s₂ _ b₂ => ?_
  refine (spans_arithmetic ho).imp fun W _ s' _ p₃ p₂ p₁ fuel m σ hσ hm => ?_
  cases fuel with
  | zero => exact follows_outOfFuel
  | succ fuel =>
    refine (p₁ hσ hm).bind fun v m₁ σ₁ hv => ?_
    obtain ⟨w, hshow, at₁, l₁⟩ := hv
    obtain ⟨x, rfl, rfl⟩ := hshow.of_int
    refine (p₂ at₁ l₁.shown).bind fun v m₂ σ₂ hv => ?_
    obtain ⟨w, hshow, at₂, l₂⟩ := hv
    obtain ⟨y, rfl, rfl⟩ := hshow.of_int
    have hleaves := l₁.trans l₂ b₁.next
    refine (p₃ _ at₂ (by rw [l₂.stack, l₁.stack]) hleaves.shown.out).imp fun v m' σ' hv => ?_
    obtain ⟨rfl, n, rfl, hat, rfl⟩ := hv
    exact ⟨.int n, .int n, hat, hleaves.goto _ rfl⟩

/-! ## Conditions -/

/-- The order of two numbers, as the branches ask for it. -/
theorem compare_toInt (x y : Int32) : (compare x.toInt y.toInt == .lt) = decide (x < y) ∧
    (compare x.toInt y.toInt == .gt) = decide (y < x) ∧
      (compare x.toInt y.toInt == .eq) = (x == y) := by
  refine ⟨?_, ?_, ?_⟩ <;> rw [Bool.eq_iff_iff]
  · simp [Int.compare_eq_lt, Int32.lt_iff_toInt_lt]
  · simp [Int.compare_eq_gt, Int32.lt_iff_toInt_lt]
  · simp [Int32.toInt_inj]

/-- A branch that takes so much of the stack as it needs to tell a truth value. -/
structure Tests (o : Opcode) (words : List Jvm.Word) (taken : Bool) : Prop where
  branch : o.isBranch = true
  goesOn : o.endsBlock = false
  act : ∀ st, Jvm.branch? o (words ++ st) = some (taken, st)

theorem spans_test {env : Env} {s : State} {o : Opcode} {l : Nat} (ho : o.isBranch = true)
    (he : o.endsBlock = false) (hl : l < s.body.code.labels.size) :
    Spans env s (jump o l) fun W _ s' => ∀ ⦃σ : Jvm.State⦄ ⦃words st : List Jvm.Word⦄ ⦃taken : Bool⦄,
      Tests o words taken → s.At σ → σ.stack = words ++ st →
        ∃ pc, W.Reaches σ (σ.goto pc st) ∧ s'.Branched W taken l (σ.goto pc st) :=
  (spans_jump ho he hl).imp fun _ _ _ _ hp _ _ st _ ht hσ hst => hp hσ (by rw [hst]; exact ht.act st)

theorem tests_intBranch (o : CompareOp) (want : Bool) (x y : Int32) :
    Tests (if want then o.intBranch else o.intBranch.negate) [.int y, .int x]
      (o.holds (compare x.toInt y.toInt) == want) := by
  obtain ⟨hlt, hgt, heq⟩ := compare_toInt x y
  cases o <;> cases want <;>
    exact ⟨by decide, by decide, fun st => congrArg (fun b => some (b, st)) (by
      simp only [CompareOp.holds, bne, hlt, hgt, heq]
      rw [Bool.eq_iff_iff]
      simp [Int32.not_lt])⟩

theorem tests_zeroBranch (o : CompareOp) (want : Bool) (x : Int32) :
    Tests (if want then o.zeroBranch else o.zeroBranch.negate) [.int x]
      (o.holds (compare x.toInt (0 : Int32).toInt) == want) := by
  obtain ⟨hlt, hgt, heq⟩ := compare_toInt x 0
  cases o <;> cases want <;>
    exact ⟨by decide, by decide, fun st => congrArg (fun b => some (b, st)) (by
      simp only [CompareOp.holds, bne, hlt, hgt, heq]
      rw [Bool.eq_iff_iff]
      simp [Int32.not_lt])⟩

theorem tests_equality {o : CompareOp} (ho : o.isEquality = true) (want x y : Bool) :
    Tests (if want then o.intBranch else o.intBranch.negate)
      [.int (if y then 1 else 0), .int (if x then 1 else 0)]
      (o.holds (Eval.compareBools x y) == want) := by
  have heq : o = .eq ∨ o = .ne := by cases o <;> simp_all [CompareOp.isEquality]
  rcases heq with rfl | rfl <;> cases want <;>
    exact ⟨by decide, by decide, fun st => by cases x <;> cases y <;> rfl⟩

/-- Two values that are compared, as the evaluator does it and as the branch does. -/
theorem comparison_of_shows {tok : Token} {o : CompareOp} {t : Ty} {v v' : Value}
    {w w' : Jvm.Word} (ho : CompareOp.ofText? sign = some o)
    (ht : t = .int ∨ t = .boolean ∧ o.isEquality = true) (hv : v.Shows t w) (hv' : v'.Shows t w') :
    ∃ holds : Bool, Eval.comparison tok sign v v' = pure (.bool holds) ∧ ∀ want,
      Tests (if want then o.intBranch else o.intBranch.negate) [w', w] (holds == want) := by
  rcases ht with rfl | ⟨rfl, heq⟩
  · obtain ⟨x, rfl, rfl⟩ := hv.of_int
    obtain ⟨y, rfl, rfl⟩ := hv'.of_int
    refine ⟨_, ?_, fun want => tests_intBranch o want x y⟩
    simp only [Eval.comparison, ho]
  · obtain ⟨x, rfl, rfl⟩ := hv.of_boolean
    obtain ⟨y, rfl, rfl⟩ := hv'.of_boolean
    refine ⟨_, ?_, fun want => tests_equality heq want x y⟩
    simp only [Eval.comparison, ho, Option.any_some, heq, if_true]

theorem piece_expr (e : Expr) : e.piece.expr = e := by cases e <;> rfl

theorem isZero_iff {e : Expr} (h : isZero e = true) : ∃ m, e = .int m 0 := by
  cases e with
  | int m n =>
    rw [isZero, beq_iff_eq] at h
    exact ⟨m, by rw [h]⟩
  | _ => cases h

/-- A comparison computes both sides, or the left one where the right one is zero. -/
theorem comparison_eq {o : CompareOp} {t : Ty} (b : Expr) (tok : Token) (want : Bool) (l : Nat)
    (ho : CompareOp.ofText? sign = some o) (hrec : a.recorded? = some t) (ht : t ≠ .string) :
    (∃ m, b = .int m 0 ∧ t = .int ∧ comparison tok sign a.piece b.piece want l = (do
      a.piece.value
      jump (if want then o.zeroBranch else o.zeroBranch.negate) l)) ∨
    comparison tok sign a.piece b.piece want l = (do
      a.piece.value
      b.piece.value
      jump (if want then o.intBranch else o.intBranch.negate) l) := by
  unfold comparison
  rw [piece_expr, piece_expr, typeOf_eq hrec, pure_bind]
  simp only [ho, if_neg ht]
  split
  · rename_i hz
    obtain ⟨m, hm⟩ := isZero_iff hz.1
    exact .inl ⟨m, hm, hz.2, by simp only [pure_bind]⟩
  · exact .inr (by simp only [pure_bind])

theorem branches_compare {tok : Token} {o : CompareOp} {t : Ty}
    (ho : CompareOp.ofText? sign = some o) (ht : t = .int ∨ t = .boolean ∧ o.isEquality = true)
    (hrec : a.recorded? = some t) (ha : Values Γ t a.piece.value fun fuel => Eval.expr F fuel a)
    (hb : Values Γ t b.piece.value fun fuel => Eval.expr F fuel b) :
    Branches Γ (comparison tok sign a.piece b.piece)
      fun fuel => Eval.expr F fuel (.compare mark sign a b) := by
  refine branches_of_spans fun env s want l hapart hl => ?_
  have hne : t ≠ .string := by rcases ht with rfl | ⟨rfl, -⟩ <;> decide
  obtain ⟨m, rfl, rfl, heq⟩ | heq := comparison_eq b tok want l ho hrec hne
  all_goals
    rw [heq]
    refine (ha.spans hapart).bind fun _ s₁ _ b₁ => ?_
  · -- The number is compared with zero.
    have hzero := tests_zeroBranch o want 0
    refine (spans_test hzero.branch hzero.goesOn (b₁.size hl)).imp
      fun W _ s' _ p₂ p₁ fuel m σ hσ hm => ?_
    cases fuel with
    | zero => exact follows_outOfFuel
    | succ fuel =>
      refine (p₁ hσ hm).bind fun v m₁ σ₁ hv => ?_
      obtain ⟨w, hshow, at₁, l₁⟩ := hv
      obtain ⟨x, rfl, rfl⟩ := hshow.of_int
      cases fuel with
      | zero => exact follows_outOfFuel.bind fun _ _ _ h => h
      | succ fuel =>
        obtain ⟨pc, hr, hbranched⟩ := p₂ (tests_zeroBranch o want x) at₁ l₁.stack
        refine .after hr ?_
        change Follows W _ (Eval.comparison _ sign (.int x) (.int 0)) m₁ _
        simp only [Eval.comparison, ho]
        exact follows_pure ⟨_, rfl, hbranched, l₁.goto pc rfl⟩
  · have hboth := tests_intBranch o want 0 0
    refine (hb.spans (b₁.apart hapart)).bind fun _ s₂ _ b₂ => ?_
    refine (spans_test hboth.branch hboth.goesOn ((b₁.trans b₂).size hl)).imp
      fun W _ s' _ p₃ p₂ p₁ fuel m σ hσ hm => ?_
    cases fuel with
    | zero => exact follows_outOfFuel
    | succ fuel =>
      refine (p₁ hσ hm).bind fun v m₁ σ₁ hv => ?_
      obtain ⟨x, hx, at₁, l₁⟩ := hv
      refine (p₂ at₁ l₁.shown).bind fun v' m₂ σ₂ hv => ?_
      obtain ⟨y, hy, at₂, l₂⟩ := hv
      obtain ⟨holds, heval, htests⟩ := comparison_of_shows ho ht hx hy
      obtain ⟨pc, hr, hbranched⟩ := p₃ (htests want) at₂ (by rw [l₂.stack, l₁.stack]; rfl)
      rw [heval]
      exact .after hr (follows_pure ⟨_, rfl, hbranched, (l₁.trans l₂ b₁.next).goto pc rfl⟩)

/-! ## Connectives -/

/-- The truth value that the left side of a connective decides it with. -/
theorem eval_logic {fuel : Nat} {d : Bool} (hd : sign = "&&" ∧ d = false ∨ sign = "||" ∧ d = true) :
    Eval.expr F (fuel + 1) (.logic mark sign a b) = (do
      let x ← Eval.truth a.tok (← Eval.expr F fuel a)
      if x = d then return .bool d
      return .bool (← Eval.truth b.tok (← Eval.expr F fuel b))) := by
  conv_lhs => unfold Eval.expr
  refine congrArg (Eval.expr F fuel a >>= ·) (funext fun v =>
    congrArg (Eval.truth a.tok v >>= ·) (funext fun x => ?_))
  rcases hd with ⟨rfl, rfl⟩ | ⟨rfl, rfl⟩ <;> cases x <;> rfl

/-- Where the left side of a connective decides against a jump, it skips the right one. -/
theorem connective_eq {d : Bool} (a b : Expr) (want : Bool) (l : Nat)
    (hd : sign = "&&" ∧ d = false ∨ sign = "||" ∧ d = true) :
    (d = !want ∧ connective sign a.piece b.piece want l = (do
      let skip ← newLabel
      a.piece.jump (!want) skip
      b.piece.jump want l
      bindLabel skip)) ∨
    (d = want ∧ connective sign a.piece b.piece want l = (do
      a.piece.jump want l
      b.piece.jump want l)) := by
  rcases hd with ⟨rfl, rfl⟩ | ⟨rfl, rfl⟩ <;> cases want <;>
    first | exact .inl ⟨rfl, rfl⟩ | exact .inr ⟨rfl, rfl⟩

theorem branches_logic {d : Bool} (hd : sign = "&&" ∧ d = false ∨ sign = "||" ∧ d = true)
    (ha : Branches Γ a.piece.jump fun fuel => Eval.expr F fuel a)
    (hb : Branches Γ b.piece.jump fun fuel => Eval.expr F fuel b) :
    Branches Γ (connective sign a.piece b.piece)
      fun fuel => Eval.expr F fuel (.logic mark sign a b) := by
  refine branches_of_spans fun env s want l hapart hl => ?_
  obtain ⟨rfl, heq⟩ | ⟨rfl, heq⟩ := connective_eq a b want l hd
  all_goals rw [heq]
  · refine spans_newLabel fun skip s₁ hskip => ?_
    refine (ha.spans (hskip.begins.apart hapart) hskip.size).bind fun _ s₂ _ b₂ => ?_
    have b₁₂ := hskip.begins.trans b₂
    refine (hb.spans (b₁₂.apart hapart) (b₁₂.size hl)).bind fun _ s₃ _ b₃ => ?_
    refine (spans_bindLabel ((b₂.trans b₃).size hskip.size)).imp
      fun W _ s' hW p₄ p₃ p₂ fuel m σ hσ hm => ?_
    cases fuel with
    | zero => exact follows_outOfFuel
    | succ fuel =>
      change Follows W σ (Eval.expr F (fuel + 1) _) m _
      rw [eval_logic hd]
      refine (p₂ (hskip.stays hσ) hm).bind fun v m₁ σ₁ hv => ?_
      obtain ⟨x, rfl, hx, l₁⟩ := hv
      have l₁ := l₁.mono hskip.begins.next
      rw [show Eval.truth a.tok (.bool x) = pure x from rfl, pure_bind]
      split
      · -- The left side decides, and the right one is skipped.
        rename_i hxd
        have hskipped := (hx.1 (by rw [hxd]; exact beq_self_eq_true _)).later b₃
        have hat := p₄.binds (.inr hskipped)
        exact follows_pure ⟨!want, rfl, ⟨fun hne => by simp at hne, fun _ => hat⟩, l₁⟩
      · rename_i hxd
        have hat := hx.2 (beq_eq_false_iff_ne.mpr hxd)
        refine (p₃ hat l₁.shown).bind fun v m₂ σ₂ hv => ?_
        obtain ⟨y, rfl, hy, l₂⟩ := hv
        refine follows_pure ⟨y, rfl, ⟨fun ht => (hy.1 ht).later hW.begins,
          fun hf => p₄.binds (.inl (hy.2 hf))⟩, ?_⟩
        rw [← l₁.stack]
        exact l₁.trans l₂ b₁₂.next
  · refine (ha.spans hapart hl).bind fun _ s₁ _ b₁ => ?_
    refine (hb.spans (b₁.apart hapart) (b₁.size hl)).imp
      fun W _ s' hW p₂ p₁ fuel m σ hσ hm => ?_
    cases fuel with
    | zero => exact follows_outOfFuel
    | succ fuel =>
      change Follows W σ (Eval.expr F (fuel + 1) _) m _
      rw [eval_logic hd]
      refine (p₁ hσ hm).bind fun v m₁ σ₁ hv => ?_
      obtain ⟨x, rfl, hx, l₁⟩ := hv
      rw [show Eval.truth a.tok (.bool x) = pure x from rfl, pure_bind]
      split
      · -- The left side decides for the jump.
        rename_i hxd
        have htaken := (hx.1 (by rw [hxd]; exact beq_self_eq_true _)).later hW.begins
        exact follows_pure ⟨d, rfl, ⟨fun _ => htaken, fun hne => by simp at hne⟩, l₁⟩
      · rename_i hxd
        refine (p₂ (hx.2 (beq_eq_false_iff_ne.mpr hxd)) l₁.shown).bind fun v m₂ σ₂ hv => ?_
        obtain ⟨y, rfl, hy, l₂⟩ := hv
        refine follows_pure ⟨y, rfl, hy, ?_⟩
        rw [← l₁.stack]
        exact l₁.trans l₂ b₁.next

/-! ## Negation, and numbers that are counted up or down -/

theorem values_not (ha : Values Γ .boolean a.piece.value fun fuel => Eval.expr F fuel a) :
    Values Γ .boolean (do a.piece.value; pushInt 1; op .ixor)
      fun fuel => Eval.expr F fuel (.not mark a) := by
  refine values_of_spans fun env s hapart => ?_
  refine (ha.spans hapart).bind fun _ s₁ _ b₁ => ?_
  refine (spans_pushInt 1).bind fun _ s₂ _ b₂ => ?_
  refine (spans_op (o := .ixor) (by decide)).imp fun W _ s' _ p₃ p₂ p₁ fuel m σ hσ hm => ?_
  cases fuel with
  | zero => exact follows_outOfFuel
  | succ fuel =>
    refine (p₁ hσ hm).bind fun v m₁ σ₁ hv => ?_
    obtain ⟨w, hshow, at₁, l₁⟩ := hv
    obtain ⟨x, rfl, rfl⟩ := hshow.of_boolean
    have m₂ := p₂ at₁
    have hflip : Jvm.compute? .ixor (.int 1 :: σ₁.stack) =
        some (.ok (.int (if !x then 1 else 0) :: σ.stack)) := by
      rw [l₁.stack]
      cases x <;> rfl
    have m₃ := m₂.trans (p₃ m₂.stands hflip)
    exact .after m₃.reaches
      (follows_pure ⟨_, .bool !x, m₃.stands, l₁.goto _ rfl⟩)

theorem branches_not (ha : Branches Γ a.piece.jump fun fuel => Eval.expr F fuel a) :
    Branches Γ (fun want l => a.piece.jump (!want) l)
      fun fuel => Eval.expr F fuel (.not mark a) := by
  refine branches_of_spans fun env s want l hapart hl => ?_
  refine (ha.spans hapart hl).imp fun W _ s' _ p₁ fuel m σ hσ hm => ?_
  cases fuel with
  | zero => exact follows_outOfFuel
  | succ fuel =>
    refine (p₁ hσ hm).bind fun v m₁ σ₁ hv => ?_
    obtain ⟨x, rfl, hx, l₁⟩ := hv
    have hflip : ((!x) == want) = (x == !want) := by cases x <;> cases want <;> rfl
    exact follows_pure ⟨!x, rfl, hflip ▸ hx, l₁⟩

variable (F) in
theorem eval_incDec (g : Expr → Eval Value) {m : Machine} {before : Bool} {id : Ident}
    {sym : Symbol} {n : Int32} (hid : id.sym = some sym) (hn : m.vars[sym.id]? = some (.int n)) :
    Eval.incDec F g (.mk mark sign before (.name id)) m =
      .ok (.int (if before then n + delta sign else n))
        { m with vars := m.vars.insert sym.id (.int (n + delta sign)) } := by
  unfold Eval.incDec
  dsimp only
  rw [Eval.symbolOf_eq hid, pure_bind, Eval.bind_of_ok (Eval.variableOf_of_vars hn)]
  rfl

/-- A number that is counted up or down, on both sides. -/
theorem spans_count {env : Env} {s : State} {sym : Symbol} {l : Local} (d : Int)
    (hu : ∀ a ∈ Γ, ∀ b ∈ Γ, a.id = b.id → a = b) (hs : sym ∈ Γ) (hty : sym.ty = .int)
    (hl : s.body.slots[sym.id]? = some l) (hslot : l.slot ≤ 65535) :
    Spans env s (increment l d) fun W _ s' => ∀ ⦃σ : Jvm.State⦄ ⦃m : Machine⦄ ⦃n : Int32⦄,
      s.At σ → Matches W Γ m σ → σ.locals l.slot = some (.int n) →
        ∃ σ', Moves W s' σ σ' ∧ σ'.locals l.slot = some (.int (n + Int32.ofInt d)) ∧
          Leaves W Γ s.body.next σ σ.stack
            { m with vars := m.vars.insert sym.id (.int (n + Int32.ofInt d)) } σ' := by
  refine (spans_increment d hslot).imp fun W _ s' hW p₁ σ m n hσ hm hn => ?_
  have hassign := hm.assign (v := .int (n + Int32.ofInt d)) (w := .int (n + Int32.ofInt d))
    hW.inj hu hs (hW.slot hl) (by rw [hty]; exact .int _)
  exact ⟨_, p₁ hσ hn, if_pos rfl, rfl, hassign.goto _ _, Frame.set hs (hW.slot hl) _⟩

theorem Body.Apart.slot_le {b : Body} (h : b.Apart) {id : SymbolId} {l : Local}
    (hl : b.slots[id]? = some l) : l.slot ≤ 65535 :=
  Nat.le_of_lt_succ (Nat.lt_of_lt_of_le (h.below id l hl) h.limit)

theorem values_incDec {before : Bool} {id : Ident} {sym : Symbol}
    (hu : ∀ a ∈ Γ, ∀ b ∈ Γ, a.id = b.id → a = b) (hs : sym ∈ Γ) (hid : id.sym = some sym)
    (hty : sym.ty = .int) : Values Γ .int (incDec sign before (.name id))
      fun fuel => Eval.expr F fuel (.incDec (.mk mark sign before (.name id))) := by
  refine values_of_spans fun env s hapart => ?_
  unfold incDec
  refine spans_variableOf hid fun l hl => ?_
  have hslot := hapart.slot_le hl
  cases before with
  | true =>
    refine (spans_count _ hu hs hty hl hslot).bind fun _ s₁ _ b₁ => ?_
    refine spans_load.imp fun W _ s' hW p₂ p₁ fuel m σ hσ hm => ?_
    cases fuel with
    | zero => exact follows_outOfFuel
    | succ fuel =>
      obtain ⟨-, hlty, n, hv, hlocal⟩ := hm.intSlot hW hs hty (b₁.slots _ _ hl)
      obtain ⟨σ₁, m₁, hn, l₁⟩ := p₁ hσ hm hlocal
      have m₂ := m₁.trans (p₂ m₁.stands hn (by rw [hlty]; rfl))
      rw [Int32.ofInt_toInt] at *
      exact .after m₂.reaches
        (follows_of_ok (eval_incDec F (Eval.expr F fuel) hid hv)
          ⟨_, .int _, m₂.stands, l₁.push _ _⟩)
  | false =>
    refine spans_load.bind fun _ s₁ _ b₁ => ?_
    refine (spans_count _ hu hs hty (b₁.slots _ _ hl) hslot).imp
      fun W _ s' hW p₂ p₁ fuel m σ hσ hm => ?_
    cases fuel with
    | zero => exact follows_outOfFuel
    | succ fuel =>
      obtain ⟨-, hlty, n, hv, hlocal⟩ := hm.intSlot hW hs hty (b₁.slots _ _ hl)
      have m₁ := p₁ hσ hlocal (by rw [hlty]; rfl)
      obtain ⟨σ₂, m₂, -, l₂⟩ := p₂ m₁.stands (hm.goto _ _) hlocal
      have m₂ := m₁.trans m₂
      rw [Int32.ofInt_toInt] at *
      exact .after m₂.reaches
        (follows_of_ok (eval_incDec F (Eval.expr F fuel) hid hv)
          ⟨_, .int _, m₂.stands, l₂.stack, l₂.shown, l₂.frame.mono b₁.next⟩)

end Operators

end Emit

/-! ## All expressions -/

open Emit ClassFile

section Coded

variable {F : List FunDecl} {Γ V : List Symbol} {t want : Ty} {e : Expr}

/-- The code of an expression leaves its value, and that of a condition branches on it. -/
theorem Expr.Computes.coded (hu : ∀ a ∈ Γ, ∀ b ∈ Γ, a.id = b.id → a = b)
    (h : e.Computes Γ V t) : Values Γ t e.piece.value (fun fuel => Eval.expr F fuel e) ∧
      (t = .boolean → Branches Γ e.piece.jump fun fuel => Eval.expr F fuel e) := by
  induction h with
  | int hm => exact ⟨values_int _ _, fun h => by cases h⟩
  | bool hm => exact ⟨values_bool _ _, fun _ => branches_bool _ _⟩
  | read hs hid hty hp =>
    have hvalue := values_read (F := F) hs hid hp
    exact ⟨hvalue, fun h => branches_ofValue (h ▸ hvalue)⟩
  | arith hm ho ha hb iha ihb => exact ⟨values_arith ho iha.1 ihb.1, fun h => by cases h⟩
  | compare hm ho ht ha hb iha ihb =>
    refine ⟨values_materialize ?_, fun _ => ?_⟩ <;>
      exact branches_compare ho ht ha.recorded iha.1 ihb.1
  | logic hm ho ha hb iha ihb =>
    obtain ⟨d, hd⟩ : ∃ d, _ = "&&" ∧ d = false ∨ _ = "||" ∧ d = true :=
      ho.elim (fun h => ⟨false, .inl ⟨h, rfl⟩⟩) fun h => ⟨true, .inr ⟨h, rfl⟩⟩
    refine ⟨values_materialize ?_, fun _ => ?_⟩ <;>
      exact branches_logic hd (iha.2 rfl) (ihb.2 rfl)
  | not hm he ih => exact ⟨values_not ih.1, fun _ => branches_not (ih.2 rfl)⟩
  | incDec hm hs hv hid hty => exact ⟨values_incDec hu hs hid hty, fun h => by cases h⟩

/-! ## Values where another type is wanted -/

namespace Emit

/-- The methods that put a number or a truth value into an object. -/
def boxer (cls desc : String) : Member := ⟨cls, "valueOf", Jvm.method [desc] (Jvm.reference cls)⟩

theorem access?_boxInt (σ : Jvm.State) {n : Int32} {st : List Jvm.Word}
    (hst : σ.stack = .int n :: st) : Jvm.access? .invokeStatic (boxer Jvm.integer "I") σ =
      some { σ with stack := .boxedInt n :: st } := by
  change (Jvm.boxed? (boxer Jvm.integer "I") σ.stack).map _ = _
  rw [hst, Jvm.boxed?, boxer, if_pos rfl]
  rfl

theorem access?_boxBool (σ : Jvm.State) {b : Bool} {st : List Jvm.Word}
    (hst : σ.stack = .int (if b then 1 else 0) :: st) :
    Jvm.access? .invokeStatic (boxer Jvm.boolean "Z") σ =
      some { σ with stack := .boxedBool b :: st } := by
  change (Jvm.boxed? (boxer Jvm.boolean "Z") σ.stack).map _ = _
  rw [hst, Jvm.boxed?, if_neg (by decide), boxer, if_pos rfl]
  cases b <;> rfl

theorem plain_boxInt : Plain (boxer Jvm.integer "I") := ⟨by decide, by decide⟩

theorem plain_boxBool : Plain (boxer Jvm.boolean "Z") := ⟨by decide, by decide⟩

/-- What becomes of a value that is put into an object. -/
theorem spans_box {env : Env} {s : State} (hs : t.isScalar = true) :
    Spans env s (box t) fun W _ s' => ∀ ⦃σ : Jvm.State⦄ ⦃v : Value⦄ ⦃w : Jvm.Word⦄
      ⦃st : List Jvm.Word⦄, s.At σ → σ.stack = w :: st → v.Shows t w →
        ∃ w' pc, v.Shows .any w' ∧ Moves W s' σ (σ.goto pc (w' :: st)) := by
  simp only [Ty.isScalar, Bool.or_eq_true, beq_iff_eq] at hs
  rcases hs with (rfl | rfl) | rfl
  · rw [box, if_pos rfl]
    refine (spans_accesses fun _ _ => accesses_invoke (.inl rfl) plain_boxInt).imp
      fun W _ s' _ p σ v w st hσ hst hv => ?_
    obtain ⟨n, rfl, rfl⟩ := hv.of_int
    exact ⟨_, _, .boxedInt n, p hσ (access?_boxInt σ hst)⟩
  · rw [box, if_neg (by decide), if_pos rfl]
    refine (spans_accesses fun _ _ => accesses_invoke (.inl rfl) plain_boxBool).imp
      fun W _ s' _ p σ v w st hσ hst hv => ?_
    obtain ⟨b, rfl, rfl⟩ := hv.of_boolean
    exact ⟨_, _, .boxedBool b, p hσ (access?_boxBool σ hst)⟩
  · rw [box, if_neg (by decide), if_neg (by decide)]
    refine spans_pure fun W _ σ v w st hσ hst hv => ⟨w, σ.pc, hv, ?_⟩
    rw [← hst]
    exact ⟨⟨hσ.live, hσ.pc⟩, .refl _⟩

/-- A value becomes one of the wanted type. -/
theorem spans_coerce {env : Env} {s : State} (hs : t.isScalar = true) :
    Spans env s (coerce t want) fun W _ s' => t.assignable want = true →
      ∀ ⦃σ : Jvm.State⦄ ⦃v : Value⦄ ⦃w : Jvm.Word⦄ ⦃st : List Jvm.Word⦄, s.At σ →
        σ.stack = w :: st → v.Shows t w →
          ∃ w' pc, v.Shows want w' ∧ Moves W s' σ (σ.goto pc (w' :: st)) := by
  unfold coerce
  split
  · rename_i hany
    subst hany
    exact (spans_box hs).imp fun _ _ _ _ p _ => p
  · rename_i hany
    refine spans_pure fun W _ ha σ v w st hσ hst hv => ?_
    obtain rfl : t = want := by simpa [Ty.assignable, hany] using ha
    refine ⟨w, σ.pc, hv, ?_⟩
    rw [← hst]
    exact ⟨⟨hσ.live, hσ.pc⟩, .refl _⟩

end Emit

/-- The code of an expression leaves its value as one of the wanted type, whatever type that is. -/
theorem Expr.Gives.spans (hu : ∀ a ∈ Γ, ∀ b ∈ Γ, a.id = b.id → a = b)
    (hΓ : ∀ sym ∈ Γ, sym.ty.isScalar = true) (h : e.Gives Γ V want) {other : Ty} {env : Env}
    {s : State} (hapart : s.body.Apart) : Spans env s (valueAs e.piece other) fun W _ s' =>
      other = want → Evaluates W Γ want (fun fuel => Eval.expr F fuel e) s s' := by
  obtain ⟨t, he, ha⟩ := h
  unfold valueAs
  rw [piece_expr, typeOf_eq he.recorded, pure_bind]
  refine ((he.coded (F := F) hu).1.spans hapart).bind fun _ s₁ _ b₁ => ?_
  refine (spans_coerce (he.isScalar hΓ)).imp fun W _ s' _ p₂ p₁ hwant fuel m σ hσ hm => ?_
  subst hwant
  refine (p₁ hσ hm).mono fun v m₁ σ₁ hv => ?_
  obtain ⟨w, hshow, at₁, l₁⟩ := hv
  obtain ⟨w', pc, hshow', hmoves⟩ := p₂ ha at₁ l₁.stack hshow
  exact ⟨_, hmoves.reaches, w', hshow', hmoves.stands, l₁.goto _ rfl⟩

theorem Expr.Gives.coded (hu : ∀ a ∈ Γ, ∀ b ∈ Γ, a.id = b.id → a = b)
    (hΓ : ∀ sym ∈ Γ, sym.ty.isScalar = true) (h : e.Gives Γ V want) :
    Values Γ want (valueAs e.piece want) fun fuel => Eval.expr F fuel e :=
  values_of_spans fun _ _ hapart => (h.spans hu hΓ hapart).imp fun _ _ _ _ hp => hp rfl

end Coded

end Kotlet

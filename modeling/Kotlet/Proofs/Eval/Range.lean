import Kotlet.Proofs.Eval.Order

/-!
# Loops over ranges

A loop over a range counts in 64 bits; its variable has 32, like the bounds and the step.

* `rangeValues`, `IsRange` : the numbers of a range, and what makes them so;
* `Eval.rangeLoop_of_lt`, `Eval.rangeLoop_of_le`, `Eval.rangeLoop_next` : a loop turn by turn, with
  the numbers of 32 bits that its variable gets; `Eval.range_induction` goes along them;
* `Eval.Visits`, `Eval.Walks` : the body runs for numbers in order, until it has run for all of them
  or does not go on;
* `Eval.walks_rangeLoop` : a loop walks its range;
* `Eval.stmt_forRange` : the whole statement, with its bounds and its step.
-/

namespace Kotlet

/-! ## The numbers of a range -/

/-- How many numbers a range has. -/
def rangeCount (first last step : Int) : Nat :=
  if first ≤ last then ((last - first) / step).toNat + 1 else 0

/-- The numbers of a range. -/
def rangeValues (first last step : Int) : List Int :=
  (List.range (rangeCount first last step)).map fun k : Nat => first + k * step

/-- The numbers that are reached by steps and do not exceed the last one, in order. -/
structure IsRange (first last step : Int) (values : List Int) : Prop where
  mem : ∀ v, v ∈ values ↔ ∃ k : Nat, v = first + k * step ∧ v ≤ last
  increasing : values.Pairwise (· < ·)

section Values

variable {first last step : Int}

theorem lt_rangeCount (hstep : 0 < step) (k : Nat) :
    k < rangeCount first last step ↔ first + k * step ≤ last := by
  have hk : (k : Int) ≤ (last - first) / step ↔ k * step ≤ last - first :=
    Int.le_ediv_iff_mul_le hstep
  have hnonneg : 0 ≤ (k : Int) * step := Int.mul_nonneg (Int.natCast_nonneg k) (Int.le_of_lt hstep)
  unfold rangeCount
  split
  · have hdiv : 0 ≤ (last - first) / step := Int.ediv_nonneg (by omega) (Int.le_of_lt hstep)
    omega
  · omega

theorem isRange_rangeValues (hstep : 0 < step) :
    IsRange first last step (rangeValues first last step) where
  mem v := by
    simp only [rangeValues, List.mem_map, List.mem_range, lt_rangeCount hstep]
    constructor
    · rintro ⟨k, hle, rfl⟩
      exact ⟨k, rfl, hle⟩
    · rintro ⟨k, rfl, hle⟩
      exact ⟨k, hle, rfl⟩
  increasing := by
    refine List.Pairwise.map _ (fun k l hkl => ?_) List.pairwise_lt_range
    have hmul := (Int.mul_lt_mul_right hstep).mpr (Int.ofNat_lt.mpr hkl)
    exact Int.add_lt_add_left hmul first

theorem rangeValues_of_lt (h : last < first) : rangeValues first last step = [] := by
  unfold rangeValues rangeCount
  rw [if_neg (by omega)]
  rfl

/-- After its first number, a range goes on like the one that starts a step later. -/
theorem rangeValues_of_le (hstep : 0 < step) (h : first ≤ last) :
    rangeValues first last step = first :: rangeValues (first + step) last step := by
  have hcount : rangeCount first last step = rangeCount (first + step) last step + 1 := by
    have hmore (k : Nat) :
        k + 1 < rangeCount first last step ↔ k < rangeCount (first + step) last step := by
      have hk : ((k + 1 : Nat) : Int) * step = k * step + step := by
        rw [Int.natCast_succ, Int.add_mul, Int.one_mul]
      rw [lt_rangeCount hstep, lt_rangeCount hstep]
      omega
    refine Nat.le_antisymm (Nat.le_of_not_lt fun hlt => Nat.lt_irrefl _ ((hmore _).mp hlt)) ?_
    cases hrest : rangeCount (first + step) last step with
    | zero =>
      have hfirst : 0 < rangeCount first last step ↔ first + (0 : Nat) * step ≤ last :=
        lt_rangeCount hstep 0
      simp only [Int.natCast_zero, Int.zero_mul, Int.add_zero] at hfirst
      exact hfirst.mpr h
    | succ k => exact (hmore k).mpr (hrest ▸ Nat.lt_succ_self k)
  unfold rangeValues
  rw [hcount, List.range_succ_eq_map, List.map_cons, List.map_map]
  congr 1
  · simp
  · refine List.map_congr_left fun k _ => ?_
    simp only [Function.comp_apply, Nat.succ_eq_add_one, Int.natCast_succ, Int.add_mul, Int.one_mul]
    omega

end Values

namespace Eval

/-! ## From one number to the next -/

/-- The sum of two numbers of 32 bits does not overflow in 64 bits. -/
theorem toInt_addLong (a c : Int32) : (a.toInt64 + c.toInt64).toInt = a.toInt + c.toInt := by
  have ha := a.toInt_lt
  have ha' := a.le_toInt
  have hc := c.toInt_lt
  have hc' := c.le_toInt
  rw [Int64.toInt_add, Int32.toInt_toInt64, Int32.toInt_toInt64]
  exact Int.bmod_eq_of_le (by omega) (by omega)

/-- The next number of a range does not overflow in 32 bits either. -/
theorem toInt_add_of_le {a b c : Int32} (hc : 0 < c) (h : a.toInt + c.toInt ≤ b.toInt) :
    (a + c).toInt = a.toInt + c.toInt := by
  have ha := a.le_toInt
  have hb := b.toInt_lt
  rw [Int32.lt_iff_toInt_lt] at hc
  change 0 < c.toInt at hc
  rw [Int32.toInt_add]
  exact Int.bmod_eq_of_le (by omega) (by omega)

/-- What holds behind a range, and of a number of the range if it holds of the next one, holds of all
numbers. -/
theorem range_induction {b c : Int32} (hc : 0 < c) {P : Int32 → Prop} (behind : ∀ a, b < a → P a)
    (turn : ∀ a, a ≤ b → (a.toInt + c.toInt ≤ b.toInt → P (a + c)) → P a) (a : Int32) : P a :=
  if h : a ≤ b then turn a h fun _ => range_induction hc behind turn (a + c)
  else behind a (Int32.not_le.mp h)
termination_by (b.toInt + 1 - a.toInt).toNat
decreasing_by
  have hle := ‹a.toInt + c.toInt ≤ b.toInt›
  rw [toInt_add_of_le hc hle]
  have hpos : 0 < c.toInt := Int32.lt_iff_toInt_lt.mp hc
  omega

section Turns

variable {id : SymbolId} {body : Eval Flow} {a b c : Int32}

theorem rangeLoop_of_lt (h : b < a) : rangeLoop id b c body a.toInt64 = pure .next := by
  rw [rangeLoop, if_neg]
  rintro ⟨-, hle⟩
  rw [Int64.le_iff_toInt_le, Int32.toInt_toInt64, Int32.toInt_toInt64] at hle
  exact Int.not_lt.mpr hle (Int32.lt_iff_toInt_lt.mp h)

theorem rangeLoop_of_le (hc : 0 < c) (h : a ≤ b) : rangeLoop id b c body a.toInt64 = (do
    assign id (.int a)
    match ← turn body with
    | some f => return f
    | none => rangeLoop id b c body (a.toInt64 + c.toInt64)) := by
  have hle : a.toInt64 ≤ b.toInt64 := by
    rw [Int64.le_iff_toInt_le, Int32.toInt_toInt64, Int32.toInt_toInt64]
    exact Int32.le_iff_toInt_le.mp h
  have hassign : assign id (.int a.toInt64.toInt32) = assign id (.int a) := by
    rw [Int32.toInt32_toInt64]
  rw [rangeLoop, if_pos ⟨hc, hle⟩]
  exact congrArg (· >>= _) hassign

/-- A loop goes on with the next number of its range, or ends where there is none. -/
theorem rangeLoop_next (hc : 0 < c) (a b : Int32) :
    rangeLoop id b c body (a.toInt64 + c.toInt64) =
      if a.toInt + c.toInt ≤ b.toInt then rangeLoop id b c body (a + c).toInt64 else pure .next := by
  split
  · rename_i hle
    have heq : a.toInt64 + c.toInt64 = (a + c).toInt64 := by
      rw [← Int64.toInt_inj, toInt_addLong, Int32.toInt_toInt64, toInt_add_of_le hc hle]
    rw [heq]
  · rename_i hgt
    rw [rangeLoop, if_neg]
    rintro ⟨-, hle⟩
    rw [Int64.le_iff_toInt_le, toInt_addLong, Int32.toInt_toInt64] at hle
    exact hgt hle

end Turns

/-! ## Walking a range -/

/-- The result of a run. -/
abbrev Result (α : Type) := EStateM.Result Fault Machine α

/-- The body ran for the numbers, in order and once for each. The variable had just that number when
it began, and it ended normally or with `continue`. -/
inductive Visits (id : SymbolId) (body : Eval Flow) : List Int → Machine → Machine → Prop where
  | nil (m : Machine) : Visits id body [] m m
  | cons {n : Int32} {values : List Int} {m m₁ m₂ : Machine} {flow : Flow}
    (hrun : body { m with vars := m.vars.insert id (.int n) } = .ok flow m₁)
    (hgoes : flow = .next ∨ flow = .continued) (hrest : Visits id body values m₁ m₂) :
    Visits id body (n.toInt :: values) m m₂

/-- The body always ends normally or with `continue`. -/
def GoesOn (body : Eval Flow) : Prop :=
  ∀ m, ∃ flow m', body m = .ok flow m' ∧ (flow = .next ∨ flow = .continued)

/-- How a loop ends whose body does not go on. -/
inductive Stops : Result Flow → Result Flow → Prop where
  | broke (m : Machine) : Stops (.ok .broke m) (.ok .next m)
  | returned (v : Value) (m : Machine) : Stops (.ok (.returned v) m) (.ok (.returned v) m)
  | failed (f : Fault) (m : Machine) : Stops (.error f m) (.error f m)

/-- The body ran for all the numbers, and the loop ended; or it ran for those before some number and
for that one, where it did not go on. -/
inductive Walks (id : SymbolId) (body : Eval Flow) (values : List Int) (m : Machine) :
    Result Flow → Prop where
  | all {m' : Machine} (h : Visits id body values m m') : Walks id body values m (.ok .next m')
  | stopped {before after : List Int} {n : Int32} {m' : Machine} {r : Result Flow}
    (hvalues : values = before ++ n.toInt :: after) (h : Visits id body before m m')
    (hstop : Stops (body { m' with vars := m'.vars.insert id (.int n) }) r) :
    Walks id body values m r

section Walks

variable {id : SymbolId} {body : Eval Flow} {values : List Int} {m m₁ : Machine} {r : Result Flow}

/-- A walk after a turn that went on. -/
theorem Walks.cons {n : Int32} {flow : Flow}
    (hrun : body { m with vars := m.vars.insert id (.int n) } = .ok flow m₁)
    (hgoes : flow = .next ∨ flow = .continued) (h : Walks id body values m₁ r) :
    Walks id body (n.toInt :: values) m r := by
  cases h with
  | all h => exact .all (.cons hrun hgoes h)
  | stopped hvalues h hstop =>
    rw [hvalues]
    exact .stopped (List.cons_append).symm (.cons hrun hgoes h) hstop

/-- A body that always goes on runs for all the numbers. -/
theorem Walks.visits (h : Walks id body values m r) (hgoes : GoesOn body) :
    ∃ m', Visits id body values m m' ∧ r = .ok .next m' := by
  cases h with
  | all h => exact ⟨_, h, rfl⟩
  | stopped _ _ hstop =>
    obtain ⟨flow, m', hrun, hflow⟩ := hgoes _
    rw [hrun] at hstop
    rcases hflow with rfl | rfl
    · cases hstop
    · cases hstop

/-- A loop walks its range. -/
theorem walks_rangeLoop {b c : Int32} (hc : 0 < c) (a : Int32) : ∀ m : Machine,
    Walks id body (rangeValues a.toInt b.toInt c.toInt) m (rangeLoop id b c body a.toInt64 m) := by
  have hpos : 0 < c.toInt := Int32.lt_iff_toInt_lt.mp hc
  induction a using range_induction hc (b := b) with
  | behind a hlt =>
    intro m
    rw [rangeLoop_of_lt hlt, rangeValues_of_lt (Int32.lt_iff_toInt_lt.mp hlt)]
    exact .all (.nil m)
  | turn a hle ih =>
    intro m
    have hnext (m₁ : Machine) : Walks id body (rangeValues (a.toInt + c.toInt) b.toInt c.toInt) m₁
        (rangeLoop id b c body (a.toInt64 + c.toInt64) m₁) := by
      rw [rangeLoop_next hc]
      split
      · rename_i hmore
        rw [← toInt_add_of_le hc hmore]
        exact ih hmore m₁
      · rename_i hend
        rw [rangeValues_of_lt (Int.not_le.mp hend)]
        exact .all (.nil m₁)
    have hassign : assign id (.int a) m = .ok ⟨⟩ { m with vars := m.vars.insert id (.int a) } := rfl
    rw [rangeLoop_of_le hc hle, rangeValues_of_le hpos (Int32.le_iff_toInt_le.mp hle),
      bind_of_ok hassign, turn, bind_assoc]
    cases hrun : body { m with vars := m.vars.insert id (.int a) } with
    | error f m₁ =>
      rw [bind_of_error hrun]
      exact .stopped rfl (.nil m) (hrun ▸ .failed f m₁)
    | ok flow m₁ =>
      rw [bind_of_ok hrun]
      cases flow with
      | next => exact (hnext m₁).cons hrun (.inl rfl)
      | continued => exact (hnext m₁).cons hrun (.inr rfl)
      | broke => exact .stopped rfl (.nil m) (hrun ▸ .broke m₁)
      | returned v => exact .stopped rfl (.nil m) (hrun ▸ .returned v m₁)

end Walks

/-! ## The statement -/

/-- Where the steps fail, that is the result; where they end well, `P` holds of what they end in, and
of the result. -/
def First {α β : Type} (x : Eval α) (m : Machine) (P : α → Machine → Result β → Prop)
    (r : Result β) : Prop :=
  match x m with
  | .ok a m' => P a m' r
  | .error f m' => r = .error f m'

theorem first_bind {α β : Type} {x : Eval α} {f : α → Eval β} {m : Machine}
    {P : α → Machine → Result β → Prop} (h : ∀ a m', x m = .ok a m' → P a m' (f a m')) :
    First x m P ((x >>= f) m) := by
  unfold First
  cases hx : x m with
  | ok a m' =>
    rw [bind_of_ok hx]
    exact h a m' hx
  | error e m' => exact bind_of_error hx f

/-- The step of a range, which is one where none is written. -/
def stepValue (F : List FunDecl) (fuel : Nat) : Option Expr → Eval Int32
  | none => pure 1
  | some e => bound (expr F fuel) e

/-- The body runs for the numbers of a range until it does not go on, and for all of them if it always
goes on. -/
def WalksRange (id : SymbolId) (body : Eval Flow) (a b c : Int32) (m : Machine) (r : Result Flow) :
    Prop :=
  ∃ values, IsRange a.toInt b.toInt c.toInt values ∧ Walks id body values m r ∧
    (GoesOn body → ∃ m', Visits id body values m m' ∧ r = .ok .next m')

theorem walksRange_rangeLoop (id : SymbolId) (body : Eval Flow) (a b : Int32) {c : Int32} (hc : 0 < c)
    (m : Machine) : WalksRange id body a b c m (rangeLoop id b c body a.toInt64 m) :=
  ⟨_, isRange_rangeValues (Int32.lt_iff_toInt_lt.mp hc), walks_rangeLoop hc a m,
    (walks_rangeLoop hc a m).visits⟩

/-- A loop over a range computes its bounds and its step once, in their order, and fails like the
first of them that fails. With a step forward, the body runs for the numbers of the range, one after
the other, with the variable bound to each. With any other step, the loop fails before its body
runs. -/
theorem stmt_forRange {F : List FunDecl} {x : Ident} {sym : Symbol} (hsym : x.sym = some sym)
    (tok : Token) (mark : Mark) (first last : Expr) (step : Option Expr) (body : Block) (fuel : Nat)
    (m : Machine) :
    First (bound (expr F fuel) first) m
      (fun a m₁ => First (bound (expr F fuel) last) m₁ fun b m₂ => First (stepValue F fuel step) m₂
        fun c m₃ r =>
          (0 < c → WalksRange sym.id (sequence (stmt F fuel) body.stmts) a b c m₃ r) ∧
          (c ≤ 0 → ∃ e, step = some e ∧ r = .error (m₃.fault (.badStep c) e.tok) m₃))
      (stmt F (fuel + 1) (.forLoop tok x (.range (.mk mark first last step)) body) m) := by
  conv => arg 4; unfold stmt
  dsimp only
  rw [symbolOf_eq hsym, pure_bind]
  refine first_bind fun a m₁ _ => first_bind fun b m₂ _ => ?_
  cases step with
  | none =>
    exact ⟨fun hc => walksRange_rangeLoop _ _ a b hc m₂, fun hc => absurd hc (by decide)⟩
  | some e =>
    refine first_bind fun c m₃ _ => ⟨fun hc => ?_, fun hc => ?_⟩
    · rw [if_neg (Int32.not_le.mpr hc)]
      exact walksRange_rangeLoop _ _ a b hc m₃
    · rw [if_pos hc]
      exact ⟨e, rfl, rfl⟩

/-- A loop up to the greatest number ends. -/
theorem stmt_forRange_greatest :
    let sym : Symbol := ⟨⟨0, 0⟩, "i", .int, .variable, true, true, 0, none, none⟩
    let loop : Stmt := .forLoop default ⟨default, "i", some sym, none⟩
      (.range (.mk default (.int default 2147483646) (.int default 2147483647) none))
      (.mk default [.cont default] default)
    ∃ values m', IsRange 2147483646 2147483647 1 values ∧
      Visits sym.id (sequence (stmt [] 1) [.cont default]) values .start m' ∧
      stmt [] 2 loop .start = .ok .next m' := by
  intro sym loop
  have hgoes : GoesOn (sequence (stmt [] 1) [.cont default]) :=
    fun m => ⟨.continued, m, rfl, .inr rfl⟩
  have hsym : (Ident.mk default "i" (some sym) none).sym = some sym := rfl
  have hloop := stmt_forRange (F := []) hsym default default (.int default 2147483646)
    (.int default 2147483647) none (.mk default [.cont default] default) 1 .start
  obtain ⟨values, hrange, -, hall⟩ := hloop.1 (by decide)
  obtain ⟨m', hvisits, hend⟩ := hall hgoes
  exact ⟨values, m', hrange, hvisits, hend⟩

end Eval

end Kotlet

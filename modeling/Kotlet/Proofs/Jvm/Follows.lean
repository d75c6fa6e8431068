import Kotlet.Proofs.Eval.Order
import Kotlet.Proofs.Jvm.Steps

/-!
# The machine follows the evaluator

What a run of the evaluator comes to from some state on, the machine comes to from a state that
shows the same variables.

* `Jvm.Ending.Answers` : how a method ends where the evaluator fails;
* `Follows` : from its state on, the machine comes to what the evaluator comes to;
* `Value.Shows` : a value as a word;
* `Matches` : a state of the machine that shows the variables and the output of the evaluator;
* `Frame` : the other local variables of the method so far keep what they hold;
* `Leaves` : all that holds of the state after a piece of the program.
-/

namespace Kotlet

/-- A method ends as the evaluator fails: after a division by zero, or after a step that does not go
forward. -/
def Jvm.Ending.Answers (e : Jvm.Ending) (f : Fault) : Prop :=
  (f.message = Fault.Cause.divisionByZero.message ∧
      e = .threw Jvm.arithmetic (some "/ by zero")) ∨
    ∃ n : Int32, n ≤ 0 ∧ f.message = (Fault.Cause.badStep n).message ∧
      e = .threw Jvm.illegalArgument (some "Step must be positive")

namespace Emit

open ClassFile

section Follows

variable {α β : Type} {W : Whole} {σ τ : Jvm.State} {m : Machine} {x : Eval α}
  {Q R : α → Machine → Jvm.State → Prop}

/-- From the state `σ` on, the machine comes to what the evaluator comes to, unless that runs out of
fuel. -/
structure Follows (W : Whole) (σ : Jvm.State) (x : Eval α) (m : Machine)
    (Q : α → Machine → Jvm.State → Prop) : Prop where
  ok : ∀ a m', x m = .ok a m' → ∃ σ', W.Reaches σ σ' ∧ Q a m' σ'
  error : ∀ f m', x m = .error f m' → f.message ≠ Fault.Cause.outOfFuel.message →
    ∃ e : Jvm.Ending, e.Answers f ∧ Jvm.Ends W.pool W.code.bytes σ m'.out e

/-- The machine may go on for a while before the evaluator does. -/
theorem Follows.after (hr : W.Reaches σ τ) (h : Follows W τ x m Q) : Follows W σ x m Q where
  ok a m' hx := by
    obtain ⟨σ', hr', hq⟩ := h.ok a m' hx
    exact ⟨σ', hr.trans hr', hq⟩
  error f m' hx hf := by
    obtain ⟨e, he, hends⟩ := h.error f m' hx hf
    exact ⟨e, he, hr.ends hends⟩

/-- The machine may go on for a while after the evaluator did. -/
theorem Follows.mono (h : Follows W σ x m Q)
    (hq : ∀ a m' σ', Q a m' σ' → ∃ τ, W.Reaches σ' τ ∧ R a m' τ) : Follows W σ x m R where
  ok a m' hx := by
    obtain ⟨σ', hr, ha⟩ := h.ok a m' hx
    obtain ⟨τ, hr', hR⟩ := hq a m' σ' ha
    exact ⟨τ, hr.trans hr', hR⟩
  error := h.error

theorem Follows.imp (h : Follows W σ x m Q) (hq : ∀ a m' σ', Q a m' σ' → R a m' σ') :
    Follows W σ x m R := h.mono fun a m' σ' ha => ⟨σ', .refl σ', hq a m' σ' ha⟩

theorem follows_pure {a : α} (h : Q a m σ) : Follows W σ (pure a) m Q where
  ok b m' hx := by
    cases hx
    exact ⟨σ, .refl σ, h⟩
  error f m' hx := by cases hx

theorem Follows.bind {f : α → Eval β} {R : β → Machine → Jvm.State → Prop} (h : Follows W σ x m Q)
    (hf : ∀ a m' σ', Q a m' σ' → Follows W σ' (f a) m' R) : Follows W σ (x >>= f) m R := by
  cases hx : x m with
  | error g m₁ =>
    refine ⟨fun b m' hb => ?_, fun g' m' hg hne => ?_⟩
    · rw [Eval.bind_of_error hx] at hb
      cases hb
    · rw [Eval.bind_of_error hx] at hg
      cases hg
      exact h.error g m₁ hx hne
  | ok a m₁ =>
    obtain ⟨σ', hr, ha⟩ := h.ok a m₁ hx
    have hfollow := (hf a m₁ σ' ha).after hr
    exact ⟨fun b m' hb => hfollow.ok b m' ((Eval.bind_of_ok hx f).symm.trans hb),
      fun g m' hg => hfollow.error g m' ((Eval.bind_of_ok hx f).symm.trans hg)⟩

/-- What changes the machine of the evaluator alone. -/
theorem follows_modify {f : Machine → Machine} {Q : PUnit → Machine → Jvm.State → Prop}
    (h : Q ⟨⟩ (f m) σ) : Follows W σ (modify f : Eval PUnit) m Q where
  ok a m' hx := by
    cases hx
    exact ⟨σ, .refl σ, h⟩
  error g m' hx := by cases hx

/-- A failure that the machine answers. -/
theorem follows_fail {cause : Fault.Cause} {tok : Token} {e : Jvm.Ending}
    (he : ∀ f : Fault, f.message = cause.message → e.Answers f)
    (hends : Jvm.Ends W.pool W.code.bytes σ m.out e) :
    Follows W σ (Eval.fail cause tok : Eval α) m Q where
  ok a m' hx := by cases hx
  error f m' hx _ := by
    cases hx
    exact ⟨e, he _ rfl, hends⟩

theorem follows_outOfFuel {tok : Token} : Follows W σ (Eval.fail .outOfFuel tok : Eval α) m Q where
  ok a m' hx := by cases hx
  error f m' hx hne := by
    cases hx
    exact absurd rfl hne

end Follows

end Emit

/-! ## Values as words -/

/-- A value of a type as a word: truth values are numbers, and a value of type `Any` is an
object. -/
inductive Value.Shows : Ty → Value → Jvm.Word → Prop where
  | int (n : Int32) : Shows .int (.int n) (.int n)
  | bool (b : Bool) : Shows .boolean (.bool b) (.int (if b then 1 else 0))
  | boxedInt (n : Int32) : Shows .any (.int n) (.boxedInt n)
  | boxedBool (b : Bool) : Shows .any (.bool b) (.boxedBool b)
  | null : Shows .any .null .null

namespace Value.Shows

variable {t : Ty} {v : Value} {w : Jvm.Word}

theorem fits (h : Shows t v w) : w.fits t.localKind = true := by cases h <;> rfl

theorem of_int (h : Shows .int v w) : ∃ n, v = .int n ∧ w = .int n := by
  cases h
  exact ⟨_, rfl, rfl⟩

theorem of_boolean (h : Shows .boolean v w) :
    ∃ b : Bool, v = .bool b ∧ w = .int (if b then 1 else 0) := by
  cases h
  exact ⟨_, rfl, rfl⟩

end Value.Shows

namespace Emit

open ClassFile

/-! ## States that match -/

/-- The state of the machine shows the variables and the output of the evaluator. -/
structure Matches (W : Whole) (Γ : List Symbol) (m : Machine) (σ : Jvm.State) : Prop where
  out : σ.out = m.out
  vars : ∀ sym ∈ Γ, ∃ l v w, W.slots sym.id = some l ∧ l.ty = sym.ty ∧
    m.vars[sym.id]? = some v ∧ v.Shows sym.ty w ∧ σ.locals l.slot = some w

/-- The slots below `n` hold what they held, apart from those of variables. -/
def Frame (W : Whole) (Γ : List Symbol) (n : Nat) (σ σ' : Jvm.State) : Prop :=
  ∀ k < n, (∀ sym ∈ Γ, ∀ l, W.slots sym.id = some l → l.slot ≠ k) → σ'.locals k = σ.locals k

/-- What holds after a piece of the program that began in the state `σ`, when the slots from `n` on
were free. -/
structure Leaves (W : Whole) (Γ : List Symbol) (n : Nat) (σ : Jvm.State) (st : List Jvm.Word)
    (m' : Machine) (σ' : Jvm.State) : Prop where
  stack : σ'.stack = st
  shown : Matches W Γ m' σ'
  frame : Frame W Γ n σ σ'

section Matching

variable {W : Whole} {Γ Δ : List Symbol} {m m' : Machine} {σ σ' σ'' : Jvm.State} {n k : Nat}
  {st st' : List Jvm.Word}

theorem Matches.subset (h : Matches W Γ m σ) (hs : ∀ sym ∈ Δ, sym ∈ Γ) : Matches W Δ m σ :=
  ⟨h.out, fun sym hm => h.vars sym (hs sym hm)⟩

theorem Matches.goto (h : Matches W Γ m σ) (pc : Nat) (st : List Jvm.Word) :
    Matches W Γ m (σ.goto pc st) := ⟨h.out, h.vars⟩

theorem Frame.refl (σ : Jvm.State) : Frame W Γ n σ σ := fun _ _ _ => rfl

theorem Frame.trans (h : Frame W Γ n σ σ') (h' : Frame W Γ n σ' σ'') : Frame W Γ n σ σ'' :=
  fun k hk hf => (h' k hk hf).trans (h k hk hf)

/-- Slots that are free count for nothing, and neither do variables whose slots were free. -/
theorem Frame.less (h : Frame W Δ k σ σ') (hn : n ≤ k)
    (hs : ∀ sym ∈ Δ, sym ∈ Γ ∨ ∀ l, W.slots sym.id = some l → n ≤ l.slot) : Frame W Γ n σ σ' := by
  intro j hj hfree
  refine h j (Nat.lt_of_lt_of_le hj hn) fun sym hm l hl => ?_
  rcases hs sym hm with hmem | hle
  · exact hfree sym hmem l hl
  · exact Nat.ne_of_gt (Nat.lt_of_lt_of_le hj (hle l hl))

theorem Frame.mono (h : Frame W Γ k σ σ') (hn : n ≤ k) : Frame W Γ n σ σ' :=
  h.less hn fun _ hm => .inl hm

/-- A variable that has a slot gets another value. -/
theorem Matches.assign (h : Matches W Γ m σ)
    (hinj : ∀ (i j : SymbolId) l k, W.slots i = some l → W.slots j = some k →
      l.slot = k.slot → i = j)
    (hu : ∀ a ∈ Γ, ∀ b ∈ Γ, a.id = b.id → a = b) {sym : Symbol} (hs : sym ∈ Γ) {l : Local}
    (hl : W.slots sym.id = some l) {v : Value} {w : Jvm.Word} (hv : v.Shows sym.ty w) :
    Matches W Γ { m with vars := m.vars.insert sym.id v } (σ.set l.slot w) := by
  refine ⟨h.out, fun x hx => ?_⟩
  obtain ⟨k, u, y, hk, hty, hu', hshow, hlocal⟩ := h.vars x hx
  by_cases hid : sym.id = x.id
  · obtain rfl := hu sym hs x hx hid
    rw [hl] at hk
    cases hk
    exact ⟨l, v, w, hl, hty, by simp, hv, if_pos rfl⟩
  · have hne : k.slot ≠ l.slot := fun heq => hid (hinj _ _ _ _ hl hk heq.symm)
    refine ⟨k, u, y, hk, hty, ?_, hshow, ?_⟩
    · rw [Std.HashMap.getElem?_insert]
      simp [hid, hu']
    · exact (if_neg hne).trans hlocal

theorem Frame.set {sym : Symbol} (hs : sym ∈ Γ) {l : Local} (hl : W.slots sym.id = some l)
    (w : Jvm.Word) : Frame W Γ n σ (σ.set l.slot w) :=
  fun _ _ hfree => if_neg fun heq => hfree sym hs l hl heq.symm

theorem Leaves.refl (h : Matches W Γ m σ) : Leaves W Γ n σ σ.stack m σ := ⟨rfl, h, .refl σ⟩

theorem Leaves.trans (h : Leaves W Γ n σ st m σ') (h' : Leaves W Γ k σ' st' m' σ'') (hn : n ≤ k) :
    Leaves W Γ n σ st' m' σ'' := ⟨h'.stack, h'.shown, h.frame.trans (h'.frame.mono hn)⟩

theorem Leaves.mono (h : Leaves W Γ k σ st m σ') (hn : n ≤ k) : Leaves W Γ n σ st m σ' :=
  { h with frame := h.frame.mono hn }

/-- Another place and another stack. -/
theorem Leaves.goto (h : Leaves W Γ n σ st m σ') (pc : Nat) {st₁ st₂ : List Jvm.Word}
    (hst : st₁ = st₂) : Leaves W Γ n σ st₂ m (σ'.goto pc st₁) :=
  ⟨hst, h.shown.goto pc st₁, h.frame⟩

/-- A word on top. -/
theorem Leaves.push (h : Leaves W Γ n σ st m σ') (pc : Nat) (w : Jvm.Word) :
    Leaves W Γ n σ (w :: st) m (σ'.goto pc (w :: σ'.stack)) := h.goto pc (by rw [h.stack])

end Matching

end Emit
end Kotlet

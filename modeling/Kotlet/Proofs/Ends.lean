import Kotlet.Diagnostic

/-!
# How steps end

The parser, the typechecker and the code generator are all made of steps that read something fixed,
change a state, and stop at the first failure.

* `Ends x r s bad post` : run from `s`, the steps `x` fail only in a way that `bad` admits, and
  otherwise they end in a result and a state of which `post` holds;
* `ends_bind` and its kin : how steps that are put together end;
* `Ends.mono`, `Ends.and_total` : weaker and joint conclusions;
* `Ends.of_ok` : what is known of a run that did not fail.
-/

namespace Kotlet

variable {ρ σ ε α β : Type}

/-- Run from `s`, the steps fail only as `bad` admits, and otherwise end in `post`. -/
def Ends (x : ReaderT ρ (StateT σ (Except ε)) α) (r : ρ) (s : σ) (bad : ε → Prop)
    (post : α → σ → Prop) : Prop :=
  match x r s with
  | .ok (a, t) => post a t
  | .error e => bad e

variable {x : ReaderT ρ (StateT σ (Except ε)) α} {r : ρ} {s : σ} {bad : ε → Prop}
  {post post' : α → σ → Prop}

/-! ## Steps put together -/

@[simp] theorem ends_pure (a : α) :
    Ends (pure a : ReaderT ρ (StateT σ (Except ε)) α) r s bad post ↔ post a s := Iff.rfl

@[simp] theorem ends_bind (f : α → ReaderT ρ (StateT σ (Except ε)) β) {post : β → σ → Prop} :
    Ends (x >>= f) r s bad post ↔ Ends x r s bad fun a t => Ends (f a) r t bad post := by
  unfold Ends
  change (match (x r s >>= fun p => f p.1 r p.2) with | .ok (a, t) => post a t | .error e => bad e) ↔ _
  cases h : x r s with
  | error e => exact Iff.rfl
  | ok p => exact Iff.rfl

@[simp] theorem ends_map (f : α → β) {post : β → σ → Prop} :
    Ends (f <$> x) r s bad post ↔ Ends x r s bad fun a t => post (f a) t := by
  unfold Ends
  change (match (x r s >>= fun p => Except.ok (f p.1, p.2)) with
    | .ok (a, t) => post a t | .error e => bad e) ↔ _
  cases h : x r s with
  | error e => exact Iff.rfl
  | ok p => exact Iff.rfl

@[simp] theorem ends_get {post : σ → σ → Prop} :
    Ends (get : ReaderT ρ (StateT σ (Except ε)) σ) r s bad post ↔ post s s := Iff.rfl

@[simp] theorem ends_set (t : σ) {post : PUnit → σ → Prop} :
    Ends (set t : ReaderT ρ (StateT σ (Except ε)) PUnit) r s bad post ↔ post ⟨⟩ t := Iff.rfl

@[simp] theorem ends_modify (f : σ → σ) {post : PUnit → σ → Prop} :
    Ends (modify f : ReaderT ρ (StateT σ (Except ε)) PUnit) r s bad post ↔ post ⟨⟩ (f s) := Iff.rfl

@[simp] theorem ends_modifyGet (f : σ → α × σ) :
    Ends (modifyGet f : ReaderT ρ (StateT σ (Except ε)) α) r s bad post ↔ post (f s).1 (f s).2 :=
  Iff.rfl

@[simp] theorem ends_read {post : ρ → σ → Prop} :
    Ends (read : ReaderT ρ (StateT σ (Except ε)) ρ) r s bad post ↔ post r s := Iff.rfl

@[simp] theorem ends_throw (e : ε) :
    Ends (throw e : ReaderT ρ (StateT σ (Except ε)) α) r s bad post ↔ bad e := Iff.rfl

@[simp] theorem ends_withReader (f : ρ → ρ) :
    Ends (withReader f x) r s bad post ↔ Ends x (f r) s bad post := Iff.rfl

theorem ends_ite (c : Prop) [Decidable c] (y : ReaderT ρ (StateT σ (Except ε)) α) :
    Ends (if c then x else y) r s bad post ↔
      (c → Ends x r s bad post) ∧ (¬ c → Ends y r s bad post) := by
  by_cases h : c <;> simp [h]

/-! ## Conclusions -/

theorem Ends.mono (h : Ends x r s bad post) (hp : ∀ a t, post a t → post' a t) :
    Ends x r s bad post' := by
  unfold Ends at h ⊢
  cases hx : x r s with
  | error e => rw [hx] at h; exact h
  | ok p => rw [hx] at h; exact hp p.1 p.2 h

theorem Ends.of_ok (h : Ends x r s bad post) {a : α} {t : σ} (hx : x r s = .ok (a, t)) :
    post a t := by
  unfold Ends at h
  rw [hx] at h
  exact h

theorem Ends.of_error (h : Ends x r s bad post) {e : ε} (hx : x r s = .error e) : bad e := by
  unfold Ends at h
  rw [hx] at h
  exact h

theorem ends_iff : Ends x r s bad post ↔
    (∀ a t, x r s = .ok (a, t) → post a t) ∧ ∀ e, x r s = .error e → bad e := by
  unfold Ends
  cases hx : x r s with
  | error e => simp
  | ok p => obtain ⟨a, t⟩ := p; simp

/-- Steps that do not fail also end as steps do that may fail. -/
theorem Ends.and_total (h : Ends x r s bad post) (h' : Ends x r s (fun _ => False) post') :
    Ends x r s (fun _ => False) fun a t => post a t ∧ post' a t := by
  rw [ends_iff] at h h' ⊢
  exact ⟨fun a t hx => ⟨h.1 a t hx, h'.1 a t hx⟩, h'.2⟩

end Kotlet

import Kotlet.Proofs.Ends
import Kotlet.Proofs.Typing.Judgement

/-!
# What the checker keeps true

* `Typing.Captured` : what the lambdas around may capture: a variable of a lambda further out is
  captured by every lambda in between;
* `Typing.Sound` : the variables in scope, the functions and the captures fit together;
* `Typing.Extends` : what checking an expression may change;
* `Typing.Covers` : variables that suffice for what was checked so far;
* `Typing.Steps` : the checker's steps on expressions, which keep all this and fail only with
  diagnostics of their own stage.
-/

namespace Kotlet

/-- All symbols in scope. -/
def Scopes.symbols (s : Scopes) : List Symbol := (s.inner :: s.outer).flatMap Scope.declared

/-- All variables in scope. -/
def Scopes.vars (s : Scopes) : List Symbol := s.symbols.filter fun sym => !sym.isFunction

namespace Scopes

theorem mem_vars {s : Scopes} {sym : Symbol} :
    sym ∈ s.vars ↔ sym ∈ s.symbols ∧ sym.isFunction = false := by
  simp [vars]

theorem mem_symbols_of_find? {s : Scopes} {name : String} {sym : Symbol}
    (h : s.find? name = some sym) : sym ∈ s.symbols := by
  obtain ⟨scope, hscope, hfind⟩ := List.exists_of_findSome?_eq_some h
  exact List.mem_flatMap.mpr ⟨scope, hscope, List.mem_of_find?_eq_some hfind⟩

@[simp] theorem symbols_enter (s : Scopes) (kind : ScopeKind) : (s.enter kind).symbols = s.symbols := by
  simp [symbols, enter]

@[simp] theorem vars_enter (s : Scopes) (kind : ScopeKind) : (s.enter kind).vars = s.vars := by
  simp [vars]

@[simp] theorem symbols_define (s : Scopes) (sym : Symbol) :
    (s.define sym).symbols = sym :: s.symbols := by
  simp [symbols, define]

theorem vars_define {s : Scopes} {sym : Symbol} (h : sym.isFunction = false) :
    (s.define sym).vars = sym :: s.vars := by
  simp [vars, h]

end Scopes

namespace Typing

/-! ## Captures -/

/-- What the `depth` lambdas around capture, from the inside out: variables from further out,
which the next lambda has for its own or captures too. -/
def Captured (vars : List Symbol) : Nat → List (List Symbol) → Prop
  | 0, [] => True
  | depth + 1, c :: rest =>
    (∀ sym ∈ c, sym ∈ vars ∧ sym.depth ≤ depth ∧ (sym.depth = depth ∨ sym ∈ rest.headD [])) ∧
      (c.map Symbol.id).Nodup ∧ Captured vars depth rest
  | _, _ => False

/-- Only variables from further out matter. -/
theorem Captured.mono {vars vars' : List Symbol} : ∀ {depth : Nat} {cs : List (List Symbol)},
    (∀ sym ∈ vars, sym.depth < depth → sym ∈ vars') → Captured vars depth cs →
    Captured vars' depth cs
  | 0, [], _, _ => trivial
  | 0, _ :: _, _, h => h.elim
  | _ + 1, [], _, h => h.elim
  | _ + 1, _ :: _, hv, h =>
    ⟨fun sym hs => ⟨hv sym (h.1 sym hs).1 (Nat.lt_succ_of_le (h.1 sym hs).2.1), (h.1 sym hs).2⟩,
      h.2.1, Captured.mono (fun sym hs hd => hv sym hs (Nat.lt_succ_of_lt hd)) h.2.2⟩

/-- Each of some captures is among those of the same lambda later on. -/
def Grow (cs cs' : List (List Symbol)) : Prop :=
  ∀ i, ∀ sym ∈ cs.getD i [], sym ∈ cs'.getD i []

theorem Grow.refl (cs : List (List Symbol)) : Grow cs cs := fun _ _ h => h

theorem Grow.trans {a b c : List (List Symbol)} (h : Grow a b) (h' : Grow b c) : Grow a c :=
  fun i sym hs => h' i sym (h i sym hs)

theorem Grow.tail {c : List Symbol} {cs cs' : List (List Symbol)} (h : Grow (c :: cs) cs') :
    Grow cs cs'.tail := by
  intro i sym hs
  have := h (i + 1) sym (by simpa using hs)
  cases cs' with
  | nil => simp at this
  | cons c' cs' => simpa using this

section AddCapture

variable {vars : List Symbol} (hu : ∀ a ∈ vars, ∀ b ∈ vars, a.id = b.id → a = b) {sym : Symbol}
  (hsym : sym ∈ vars)

theorem mem_addCapture {c : List Symbol} {x : Symbol} (h : x ∈ addCapture sym c) :
    x = sym ∨ x ∈ c := by
  unfold addCapture at h
  split at h
  · exact .inr h
  · simpa using h

theorem mem_addCapture_of_mem {c : List Symbol} {x : Symbol} (h : x ∈ c) : x ∈ addCapture sym c := by
  unfold addCapture
  split
  · exact h
  · exact List.mem_cons_of_mem _ h

theorem nodup_addCapture {c : List Symbol} (h : (c.map Symbol.id).Nodup) :
    ((addCapture sym c).map Symbol.id).Nodup := by
  unfold addCapture
  split
  · exact h
  · rename_i hany
    refine List.nodup_cons.mpr ⟨fun hm => hany ?_, h⟩
    obtain ⟨x, hx, hid⟩ := List.mem_map.mp hm
    exact List.any_eq_true.mpr ⟨x, hx, by simp [hid]⟩

include hu hsym

theorem self_mem_addCapture {c : List Symbol} (hc : ∀ x ∈ c, x ∈ vars) : sym ∈ addCapture sym c := by
  unfold addCapture
  split
  · rename_i hany
    obtain ⟨x, hx, hid⟩ := List.any_eq_true.mp hany
    have hxs : x = sym := hu x (hc x hx) sym hsym (by simpa using hid)
    exact hxs ▸ hx
  · exact List.mem_cons_self

/-- After a use of a variable from outside, every lambda up to it captures it. -/
theorem captured_addCaptures : ∀ {depth : Nat} {cs : List (List Symbol)}, sym.depth ≤ depth →
    Captured vars depth cs →
    Captured vars depth (addCaptures sym (depth - sym.depth) cs) ∧
      (sym.depth = depth ∨ sym ∈ (addCaptures sym (depth - sym.depth) cs).headD []) ∧
      Grow cs (addCaptures sym (depth - sym.depth) cs)
  | 0, [], hd, _ => by
    have hz : sym.depth = 0 := Nat.le_zero.mp hd
    rw [hz]
    exact ⟨trivial, .inl rfl, Grow.refl _⟩
  | 0, _ :: _, _, h => h.elim
  | _ + 1, [], _, h => h.elim
  | depth + 1, c :: rest, hd, h => by
    rcases Nat.lt_or_ge depth sym.depth with hlt | hle
    · have hz : depth + 1 - sym.depth = 0 := by omega
      rw [hz]
      exact ⟨h, .inl (by omega), Grow.refl _⟩
    · have hs : depth + 1 - sym.depth = (depth - sym.depth) + 1 := by omega
      rw [hs]
      obtain ⟨hc, hn, hrest⟩ := h
      obtain ⟨ih, hout, hgrow⟩ := captured_addCaptures hle hrest
      have hself := self_mem_addCapture hu hsym fun x hx => (hc x hx).1
      refine ⟨⟨fun x hx => ?_, nodup_addCapture hn, ih⟩, .inr hself, fun i x hx => ?_⟩
      · rcases mem_addCapture hx with rfl | hx
        · exact ⟨hsym, hle, hout⟩
        · refine ⟨(hc x hx).1, (hc x hx).2.1, (hc x hx).2.2.imp_right fun hr => ?_⟩
          have := hgrow 0 x (by simpa [List.headD_eq_head?_getD, List.head?_eq_getElem?] using hr)
          simpa [List.headD_eq_head?_getD, List.head?_eq_getElem?] using this
      · cases i with
        | zero => exact mem_addCapture_of_mem hx
        | succ i => exact hgrow i x hx

end AddCapture

/-! ## States -/

/-- The variables in scope, the functions and the captures fit together. -/
structure Sound (Φ : Signatures) (env : Env) (s : State) : Prop where
  context : Context env.routine s.next s.scopes.vars
  depth : ∀ sym ∈ s.scopes.vars, sym.depth ≤ env.depth
  functions : ∀ sym ∈ s.scopes.symbols, sym.isFunction = true →
    Φ sym.name = some sym.ty ∧ ∃ params result, sym.ty = .fn params (some result) ∧ sym.ty.Complete
  captured : Captured s.scopes.vars env.depth s.captures

/-- What checking an expression may change. -/
structure Extends (s s' : State) : Prop where
  scopes : s'.scopes = s.scopes
  next : s.next ≤ s'.next
  captures : Grow s.captures s'.captures

theorem Extends.refl (s : State) : Extends s s := ⟨rfl, Nat.le_refl _, Grow.refl _⟩

theorem Extends.trans {a b c : State} (h : Extends a b) (h' : Extends b c) : Extends a c :=
  ⟨h'.scopes.trans h.scopes, Nat.le_trans h.next h'.next, h.captures.trans h'.captures⟩

/-- The variables suffice: they hold those of the innermost lambda and all that it captures. -/
def Covers (env : Env) (s : State) (Γ : List Symbol) : Prop :=
  ∀ sym ∈ s.scopes.vars, sym.depth = env.depth ∨ sym ∈ s.captures.getD 0 [] → sym ∈ Γ

theorem Covers.of_extends {env : Env} {s s' : State} {Γ : List Symbol} (h : Covers env s' Γ)
    (he : Extends s s') : Covers env s Γ := by
  intro sym hs hd
  rw [← he.scopes] at hs
  exact h sym hs (hd.imp_right fun hc => he.captures 0 sym hc)

/-- The stage of a diagnostic is that of the checker. -/
def IsTypeFault (d : Diagnostic) : Prop := d.stage = .typecheck

/-- All causes but one belong to the checker. -/
theorem isTypeFault_of_ne {e : TypeError} {t : Token} (h : ∀ kind, e ≠ .noType kind) :
    IsTypeFault (e.toDiagnostic t) := by
  change e.code.stage = .typecheck
  cases e with
  | noType kind => exact absurd rfl (h kind)
  | _ => simp only [TypeError.code]; decide

/-! ## Steps on expressions -/

/-- The steps keep the state sound and fail only with diagnostics of their own stage. Their result
satisfies `C`, and `P` with any variables that suffice and the numbers of the symbols that were
declared on the way. -/
def Steps {α : Type} (Φ : Signatures) (env : Env) (x : Check α) (C : α → Prop)
    (P : α → List Symbol → Nat → Nat → Prop) : Prop :=
  ∀ s, Sound Φ env s → Ends x env s IsTypeFault fun a s' =>
    C a ∧ Extends s s' ∧ Sound Φ env s' ∧ ∀ Γ, Covers env s' Γ → P a Γ s.next s'.next

section Steps

variable {α β : Type} {Φ : Signatures} {env : Env} {x : Check α} {C : α → Prop}
  {P P' : α → List Symbol → Nat → Nat → Prop} {D : β → Prop}
  {Q : β → List Symbol → Nat → Nat → Prop}

theorem Steps.pure {a : α} (hc : C a) (hp : ∀ Γ n, P a Γ n n) : Steps Φ env (pure a) C P :=
  fun s hs => ⟨hc, Extends.refl s, hs, fun Γ _ => hp Γ s.next⟩

/-- One step after the other: what comes second knows what the first one found. -/
theorem Steps.bind {f : α → Check β} (h : Steps Φ env x C P)
    (hf : ∀ a, C a → Steps Φ env (f a) D fun b Γ mid hi => ∀ lo, P a Γ lo mid → Q b Γ lo hi) :
    Steps Φ env (x >>= f) D Q := by
  intro s hs
  rw [ends_bind]
  refine (h s hs).mono fun a s' ⟨ha, he, hs', hP⟩ => ?_
  refine (hf a ha s' hs').mono fun b s'' ⟨hb, he', hs'', hQ⟩ => ?_
  refine ⟨hb, he.trans he', hs'', fun Γ hΓ => ?_⟩
  exact hQ Γ hΓ s.next (hP Γ (hΓ.of_extends he'))

theorem Steps.ite {c : Prop} [Decidable c] {y : Check α} (hx : c → Steps Φ env x C P)
    (hy : ¬ c → Steps Φ env y C P) : Steps Φ env (if c then x else y) C P := by
  by_cases h : c
  · rw [if_pos h]; exact hx h
  · rw [if_neg h]; exact hy h

theorem steps_reject {e : TypeError} {t : Token} (h : ∀ kind, e ≠ .noType kind) :
    Steps Φ env (reject e t : Check α) C P := fun _ _ => isTypeFault_of_ne h

theorem steps_get : Steps Φ env (get : Check State) (fun _ => True) fun _ _ lo hi => lo = hi :=
  fun s hs => ⟨trivial, Extends.refl s, hs, fun _ _ => rfl⟩

theorem steps_read : Steps Φ env (read : Check Env) (fun a => a = env) fun _ _ lo hi => lo = hi :=
  fun s hs => ⟨rfl, Extends.refl s, hs, fun _ _ => rfl⟩

/-- A check that must be passed to go on. -/
theorem Steps.unless {c : Prop} [Decidable c] {e : TypeError} {t : Token} {f : Unit → Check α}
    (he : ∀ kind, e ≠ .noType kind) (h : ¬ c → Steps Φ env (f ()) C P) :
    Steps Φ env (if c then reject e t >>= f else f ()) C P :=
  Steps.ite (fun _ => (steps_reject he (C := fun _ => False) (P := fun _ _ _ _ => False)).bind
    fun _ h => h.elim) h

theorem steps_requireValue {e : Expr} {t : Ty} :
    Steps Φ env (requireValue e t) (fun _ => t ≠ .unit) fun _ _ lo hi => lo = hi :=
  Steps.ite (fun _ => steps_reject (by simp)) fun h => .pure h fun _ _ => rfl

theorem steps_requireType {what : String} {want found : Ty} {e : Expr} :
    Steps Φ env (requireType what want e found) (fun _ => found = want) fun _ _ lo hi => lo = hi :=
  Steps.ite (fun h => .pure h fun _ _ => rfl) fun _ => steps_reject (by simp)

/-- What a name means: a function, or a variable that suffices from then on. -/
theorem steps_resolve? (name : String) : Steps Φ env (resolve? name)
    (fun o => ∀ sym, o = some sym → sym.ty.Complete ∧ sym.ty ≠ .unit ∧
      (sym.isFunction = true → Φ sym.name = some sym.ty ∧
        ∃ params result, sym.ty = .fn params (some result)))
    (fun o Γ lo hi => lo = hi ∧ ∀ sym, o = some sym → sym.isFunction = false → sym ∈ Γ) := by
  intro s hs
  unfold resolve?
  rw [ends_bind, ends_read, ends_bind, ends_get]
  cases hfind : s.scopes.find? name with
  | none => exact ⟨by simp, Extends.refl s, hs, fun _ _ => ⟨rfl, by simp⟩⟩
  | some sym =>
    have hmem := Scopes.mem_symbols_of_find? hfind
    cases hf : sym.isFunction with
    | true =>
      obtain ⟨hΦ, params, result, hty, hcomplete⟩ := hs.functions sym hmem hf
      simp only [hf, Bool.not_true, Bool.false_eq_true, if_false, ends_pure]
      refine ⟨?_, Extends.refl s, hs, fun _ _ => ⟨trivial, ?_⟩⟩
      · rintro _ ⟨⟩
        exact ⟨hcomplete, by simp [hty], fun _ => ⟨hΦ, params, result, hty⟩⟩
      · rintro _ ⟨⟩ hno
        simp [hf] at hno
    | false =>
      have hvar := Scopes.mem_vars.mpr ⟨hmem, hf⟩
      obtain ⟨hcap, hself, hgrow⟩ :=
        captured_addCaptures hs.context.unique hvar (hs.depth sym hvar) hs.captured
      simp only [hf, Bool.not_false, if_true, ends_bind, ends_modify, ends_pure]
      refine ⟨?_, ⟨rfl, Nat.le_refl _, hgrow⟩, { hs with captured := hcap },
        fun Γ hΓ => ⟨trivial, ?_⟩⟩
      · rintro _ ⟨⟩
        refine ⟨hs.context.complete sym hvar, hs.context.hasValue sym hvar, fun hfun => ?_⟩
        simp [hf] at hfun
      · rintro _ ⟨⟩ -
        refine hΓ sym hvar (hself.imp_right fun h => ?_)
        simpa [List.headD_eq_head?_getD, List.head?_eq_getElem?] using h

end Steps

end Typing

end Kotlet

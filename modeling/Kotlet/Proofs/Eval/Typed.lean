import Kotlet.Eval
import Kotlet.Proofs.Typing.Judgement

/-!
# Typed values and machines

* `Value.HasTy` : the values of a type. Collections are typed by their addresses: `H` gives the
  element type and the length of each. A variable that was never assigned may be null, unless its
  type has a default of its own;
* `Heap.Typed`, `Machine.Typed` : heaps that hold what `H` says, and variables that hold values of
  their types;
* `HasTy.of_int` and its kin : what the values of a type look like;
* `Value.HaveTys` : values of some types, in order;
* `Eval.Ends` : run from a machine, steps end well or fail in a way that `bad` admits for the heap by
  then.
-/

namespace Kotlet

/-- The element types and the lengths of the collections on a heap, by address. -/
abbrev HeapShape := List (Scalar × Nat)

theorem HeapShape.get_mono {H H' : HeapShape} (hH : H <+: H') {a : Nat} {e : Scalar × Nat}
    (h : H[a]? = some e) : H'[a]? = some e := by
  obtain ⟨K, rfl⟩ := hH
  obtain ⟨hlt, -⟩ := List.getElem?_eq_some_iff.mp h
  rw [List.getElem?_append_left hlt]
  exact h

/-- Whether a variable of the type is null before its first assignment. -/
def Ty.isNullable : Ty → Bool
  | .scalar s => s == .any
  | _ => true

/-- The values of a type. -/
inductive Value.HasTy (F : List FunDecl) (H : HeapShape) : Value → Ty → Prop where
  | int (n : Int32) : HasTy F H (.int n) .int
  | bool (b : Bool) : HasTy F H (.bool b) .boolean
  | string (s : String) : HasTy F H (.string s) .string
  | unit : HasTy F H .unit .unit
  | null {t : Ty} (ht : t.isNullable = true) : HasTy F H .null t
  | any {v : Value} {t : Ty} (hv : HasTy F H v t) (ht : t ≠ .unit) : HasTy F H v .any
  | collection {kind : CollectionKind} {a n : Nat} {s : Scalar} {t : Ty} (ht : t = kind.ty s)
    (ha : H[a]? = some (s, n)) : HasTy F H (.collection kind a) t
  | function {f : FunDecl} (hf : f ∈ F) : HasTy F H (.function f) f.signature
  | closure {l : Lambda} {captured : List (SymbolId × Value)} {t : Ty} {r lo hi : Nat}
    (hl : l.Typed (signatures F) r l.captures lo hi t) (hctx : Context r lo l.captures)
    (hids : captured.map Prod.fst = l.captures.map Symbol.id)
    (hvals : ∀ sym ∈ l.captures, ∀ v, (sym.id, v) ∈ captured → HasTy F H v sym.ty) :
    HasTy F H (.closure l captured) t

theorem CollectionKind.ty_ne_scalar (kind : CollectionKind) (e s : Scalar) :
    kind.ty e ≠ .scalar s := by
  cases kind <;> exact nofun

namespace Value.HasTy

variable {F : List FunDecl} {H H' : HeapShape} {v : Value} {s t : Ty}

/-- Later collections change nothing about a value. -/
theorem mono (h : HasTy F H v t) (hH : H <+: H') : HasTy F H' v t := by
  induction h with
  | int n => exact .int n
  | bool b => exact .bool b
  | string s => exact .string s
  | unit => exact .unit
  | null ht => exact .null ht
  | any _ ht ih => exact .any ih ht
  | collection ht ha => exact .collection ht (HeapShape.get_mono hH ha)
  | function hf => exact .function hf
  | closure hl hctx hids _ ih => exact .closure hl hctx hids ih

/-- A value stands wherever its type may. -/
theorem assign (h : HasTy F H v s) (ha : s.assignable t = true) : HasTy F H v t := by
  simp only [Ty.assignable, Bool.or_eq_true, beq_iff_eq, Bool.and_eq_true, bne_iff_ne] at ha
  rcases ha with rfl | ⟨rfl, hu⟩
  · exact h
  · exact .any h hu

theorem initial (hu : t ≠ .unit) (hc : t.Complete) : HasTy F H (Value.initial t) t := by
  cases t with
  | scalar s =>
    cases s with
    | int => exact .int 0
    | boolean => exact .bool false
    | string => exact .string ""
    | unit => exact absurd rfl hu
    | any => exact .null rfl
    | unknown => exact absurd rfl hc
  | array s => exact .null rfl
  | list s => exact .null rfl
  | fn params result => exact .null rfl

/-! ## What values of a type look like -/

theorem lambda_ty {Φ : Signatures} {r lo hi : Nat} {Γ : List Symbol} {l : Lambda}
    (h : l.Typed Φ r Γ lo hi t) : ∃ params result, t = .fn params (some result) := by
  obtain ⟨m, ps, body, caps⟩ := l
  obtain ⟨-, syms, result, found, -, ht, -⟩ := h
  exact ⟨_, _, ht⟩

theorem of_int (h : HasTy F H v .int) : ∃ n, v = .int n := by
  cases h with
  | int n => exact ⟨n, rfl⟩
  | collection ht => exact absurd ht.symm (CollectionKind.ty_ne_scalar _ _ _)
  | null ht => cases ht
  | closure hl => obtain ⟨_, _, ht⟩ := lambda_ty hl; cases ht

theorem of_boolean (h : HasTy F H v .boolean) : ∃ b, v = .bool b := by
  cases h with
  | bool b => exact ⟨b, rfl⟩
  | collection ht => exact absurd ht.symm (CollectionKind.ty_ne_scalar _ _ _)
  | null ht => cases ht
  | closure hl => obtain ⟨_, _, ht⟩ := lambda_ty hl; cases ht

theorem of_string (h : HasTy F H v .string) : ∃ s, v = .string s := by
  cases h with
  | string s => exact ⟨s, rfl⟩
  | collection ht => exact absurd ht.symm (CollectionKind.ty_ne_scalar _ _ _)
  | null ht => cases ht
  | closure hl => obtain ⟨_, _, ht⟩ := lambda_ty hl; cases ht

theorem of_collection {kind : CollectionKind} {e : Scalar} (h : HasTy F H v (kind.ty e)) :
    v = .null ∨ ∃ k a n, v = .collection k a ∧ H[a]? = some (e, n) := by
  generalize ht : kind.ty e = t at h
  cases h with
  | null => exact .inl rfl
  | collection hk ha =>
    rename_i k a n e'
    have he : e = e' := by cases kind <;> cases k <;> simp_all [CollectionKind.ty]
    exact .inr ⟨k, a, n, rfl, he ▸ ha⟩
  | closure hl => obtain ⟨_, _, hf⟩ := lambda_ty hl; cases kind <;> simp_all [CollectionKind.ty]
  | _ => cases kind <;> cases ht

end Value.HasTy

/-- The values of some types, in order. -/
def Value.HaveTys (F : List FunDecl) (H : HeapShape) : List Value → List Ty → Prop
  | [], [] => True
  | v :: vs, t :: ts => v.HasTy F H t ∧ Value.HaveTys F H vs ts
  | _, _ => False

namespace Value.HaveTys

variable {F : List FunDecl} {H H' : HeapShape}

theorem mono (hH : H <+: H') :
    ∀ {vs : List Value} {ts : List Ty}, HaveTys F H vs ts → HaveTys F H' vs ts
  | [], [], _ => trivial
  | _ :: _, _ :: _, h => ⟨h.1.mono hH, mono hH h.2⟩
  | [], _ :: _, h => h.elim
  | _ :: _, [], h => h.elim

theorem snoc {v : Value} {t : Ty} (hv : v.HasTy F H t) :
    ∀ {vs : List Value} {ts : List Ty}, HaveTys F H vs ts → HaveTys F H (vs ++ [v]) (ts ++ [t])
  | [], [], _ => ⟨hv, trivial⟩
  | _ :: _, _ :: _, h => ⟨h.1, snoc hv h.2⟩
  | [], _ :: _, h => h.elim
  | _ :: _, [], h => h.elim

theorem length : ∀ {vs : List Value} {ts : List Ty}, HaveTys F H vs ts → vs.length = ts.length
  | [], [], _ => rfl
  | _ :: _, _ :: _, h => congrArg (· + 1) (length h.2)
  | [], _ :: _, h => h.elim
  | _ :: _, [], h => h.elim

theorem of_replicate {t : Ty} : ∀ {vs : List Value} {ts : List Ty}, HaveTys F H vs ts →
    (∀ u ∈ ts, u = t) → ∀ v ∈ vs, v.HasTy F H t
  | [], [], _, _ => by simp
  | v :: vs, u :: ts, h, ht => by
    intro w hw
    rcases List.mem_cons.mp hw with rfl | hw
    · exact ht u List.mem_cons_self ▸ h.1
    · exact of_replicate h.2 (fun x hx => ht x (List.mem_cons_of_mem _ hx)) w hw
  | [], _ :: _, h, _ => h.elim
  | _ :: _, [], h, _ => h.elim

end Value.HaveTys

/-! ## Machines -/

/-- The heap holds what its shape says. -/
structure Heap.Typed (F : List FunDecl) (H : HeapShape) (heap : Heap) : Prop where
  size : heap.size = H.length
  elements : ∀ (a : Nat) (s : Scalar) (n : Nat), H[a]? = some (s, n) →
    ∃ es : Array Value, heap[a]? = some es ∧
    es.size = n ∧ ∀ (i : Nat) (v : Value), es[i]? = some v → v.HasTy F H (.scalar s)

/-- The variables hold values of their types. -/
structure Machine.Typed (F : List FunDecl) (H : HeapShape) (Γ : List Symbol) (m : Machine) :
    Prop where
  heap : Heap.Typed F H m.heap
  vars : ∀ sym ∈ Γ, ∃ v, m.vars[sym.id]? = some v ∧ v.HasTy F H sym.ty

namespace Machine.Typed

variable {F : List FunDecl} {H H' : HeapShape} {Γ Δ : List Symbol} {m : Machine}

theorem subset (h : m.Typed F H Γ) (hs : ∀ sym ∈ Δ, sym ∈ Γ) : m.Typed F H Δ :=
  ⟨h.heap, fun sym hsym => h.vars sym (hs sym hsym)⟩

/-- A variable of a machine gets a value of its type. -/
theorem insert (h : m.Typed F H Γ) {sym : Symbol} {v : Value} (hv : v.HasTy F H sym.ty)
    (hu : ∀ x ∈ Γ, x.id = sym.id → x = sym) :
    Machine.Typed F H (sym :: Γ) { m with vars := m.vars.insert sym.id v } := by
  refine ⟨h.heap, fun x hx => ?_⟩
  by_cases hid : sym.id = x.id
  · have hxs : x = sym := by
      rcases List.mem_cons.mp hx with rfl | hx
      · rfl
      · exact hu x hx hid.symm
    subst hxs
    exact ⟨v, by simp, hv⟩
  · have hx : x ∈ Γ := by
      rcases List.mem_cons.mp hx with rfl | hx
      · exact absurd rfl hid
      · exact hx
    obtain ⟨w, hw, hty⟩ := h.vars x hx
    refine ⟨w, ?_, hty⟩
    change (m.vars.insert sym.id v)[x.id]? = some w
    rw [Std.HashMap.getElem?_insert]
    simp [hid, hw]

end Machine.Typed

/-! ## Steps -/

namespace Eval

/-- Run from `m`, the steps fail only as `bad` admits, and otherwise end in `post`. -/
def Ends {α : Type} (x : Eval α) (m : Machine) (bad : Fault → Heap → Prop)
    (post : α → Machine → Prop) : Prop :=
  match x m with
  | .ok a m' => post a m'
  | .error f m' => bad f m'.heap

section Ends

variable {α β : Type} {x : Eval α} {m : Machine} {bad : Fault → Heap → Prop}
  {post post' : α → Machine → Prop}

@[simp] theorem ends_pure (a : α) : Ends (pure a) m bad post ↔ post a m := Iff.rfl

@[simp] theorem ends_bind (f : α → Eval β) {post : β → Machine → Prop} :
    Ends (x >>= f) m bad post ↔ Ends x m bad fun a m' => Ends (f a) m' bad post := by
  unfold Ends
  change (match EStateM.bind x f m with | .ok a m' => post a m' | .error f m' => bad f m'.heap) ↔ _
  unfold EStateM.bind
  cases x m with
  | ok a m' => exact Iff.rfl
  | error f m' => exact Iff.rfl

@[simp] theorem ends_map (f : α → β) {post : β → Machine → Prop} :
    Ends (f <$> x) m bad post ↔ Ends x m bad fun a m' => post (f a) m' := by
  unfold Ends
  change (match EStateM.map f x m with | .ok a m' => post a m' | .error f m' => bad f m'.heap) ↔ _
  unfold EStateM.map
  cases x m with
  | ok a m' => exact Iff.rfl
  | error f m' => exact Iff.rfl

@[simp] theorem ends_get {post : Machine → Machine → Prop} :
    Ends (get : Eval Machine) m bad post ↔ post m m := Iff.rfl

@[simp] theorem ends_modify (f : Machine → Machine) {post : PUnit → Machine → Prop} :
    Ends (modify f : Eval PUnit) m bad post ↔ post ⟨⟩ (f m) := Iff.rfl

@[simp] theorem ends_modifyGet (f : Machine → α × Machine) :
    Ends (modifyGet f : Eval α) m bad post ↔ post (f m).1 (f m).2 := Iff.rfl

@[simp] theorem ends_fail (cause : Fault.Cause) (t : Token) :
    Ends (fail cause t : Eval α) m bad post ↔ bad ⟨cause.message, t.line, t.col, []⟩ m.heap :=
  Iff.rfl

theorem Ends.mono (h : Ends x m bad post) (hp : ∀ a m', post a m' → post' a m') :
    Ends x m bad post' := by
  unfold Ends at h ⊢
  cases hx : x m with
  | ok a m' => rw [hx] at h; exact hp a m' h
  | error f m' => rw [hx] at h; exact h

/-- What has the same text on every heap is shown without a look at it. -/
theorem shown_eq {v : Value} {text : String} (hv : ∀ heap, v.show? heap = some text) (tok : Token) :
    shown tok v = pure text := by
  unfold shown
  simp only [hv]
  rfl

theorem Ends.of_error (h : Ends x m bad post) {f : Fault} {m' : Machine}
    (hx : x m = .error f m') : bad f m'.heap := by
  unfold Ends at h
  rw [hx] at h
  exact h

/-- A stack of its own changes nothing. -/
@[simp] theorem onFreshStack_eq (fresh : Bool) (body : Eval α) : onFreshStack fresh body = body := by
  funext m
  unfold onFreshStack
  split
  · rfl
  · rfl

/-! ## Steps of a call -/

/-- What is done at the end of steps is done however they end. -/
theorem finally_modify (x : Eval α) (f : Machine → Machine) (m : Machine) :
    (tryFinally x (modify f) : Eval α) m =
      match x m with
      | .ok a m' => .ok a (f m')
      | .error e m' => .error e (f m') := by
  cases hx : x m with
  | ok a m' =>
    simp only [tryFinally, tryFinally', Functor.map, EStateM.map, hx]
    rfl
  | error e m' =>
    simp only [tryFinally, tryFinally', Functor.map, EStateM.map, hx]
    rfl

theorem traced_eq (x : Eval α) (m : Machine) :
    traced x m =
      match x m with
      | .ok a m' => .ok a m'
      | .error e m' => .error (e.traced m'.calls) m' := by
  unfold traced
  change EStateM.tryCatch x _ m = _
  unfold EStateM.tryCatch
  cases x m with
  | ok a m' => rfl
  | error e m' => rfl

/-- What is done at the end makes no difference to what may fail. -/
theorem ends_finally {f : Machine → Machine} (hf : ∀ e m', bad e m'.heap ↔ bad e (f m').heap) :
    Ends (tryFinally x (modify f) : Eval α) m bad post ↔ Ends x m bad fun a m' => post a (f m') := by
  unfold Ends
  rw [finally_modify]
  cases x m with
  | ok a m' => exact Iff.rfl
  | error e m' => exact (hf e m').symm

theorem Ends.traced (h : Ends x m bad post)
    (hbad : ∀ f heap calls, bad f heap → bad (f.traced calls) heap) :
    Ends (traced x) m bad post := by
  unfold Ends at h ⊢
  rw [traced_eq]
  cases hx : x m with
  | ok a m' =>
    rw [hx] at h
    exact h
  | error e m' =>
    rw [hx] at h
    exact hbad e m'.heap m'.calls h

/-- The body of a call runs after its parameters have their values, and the variables outside are back
afterwards. -/
theorem ends_inCall {frame : Frame} {vars : Activation} {params : List Param} {args : List Value}
    {tok : Token} (hlen : params.length = args.length)
    (hbad : ∀ f heap calls, bad f heap → bad (f.traced calls) heap)
    (h : Ends (bindParams params args) { m with vars := vars } bad fun _ m₁ =>
      Ends x { m₁ with calls := frame :: m₁.calls } bad fun a m₂ =>
        post a { m₂ with vars := m.vars, calls := m₂.calls.tail }) :
    Ends (inCall frame vars params args tok x) m bad post := by
  unfold inCall
  rw [if_neg (by simpa using hlen)]
  simp (disch := exact fun _ _ => Iff.rfl) only [ends_bind, ends_get, ends_modify, ends_finally,
    onFreshStack_eq]
  exact h.mono fun _ m₁ h₁ => h₁.traced hbad

end Ends

end Eval

end Kotlet

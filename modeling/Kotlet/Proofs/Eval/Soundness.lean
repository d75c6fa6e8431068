import Kotlet.Proofs.Accepted
import Kotlet.Proofs.Eval.Fault
import Kotlet.Proofs.Eval.Typed

/-!
# Well-typed programs run into few faults

* `Eval.Keeps` : steps that keep the machine well-typed and fail only as expected;
* one lemma for each operation of the machine, then `Eval.keeps_expr` and `Eval.keeps_stmt`, by
  induction on the fuel;
* `Checked.Typed.expected_of_fault` : whole programs.
-/

namespace Kotlet

namespace Eval

variable {α β : Type} {F : List FunDecl} {H : HeapShape} {Γ : List Symbol}

/-- From machines of the shape `H` on, the steps keep the variables well-typed and fail only as
expected. The heap may grow, and the result satisfies `P`. -/
def Keeps (F : List FunDecl) (Γ : List Symbol) (H : HeapShape) (x : Eval α)
    (P : HeapShape → α → Prop) : Prop :=
  ∀ m : Machine, m.Typed F H Γ → Ends x m Fault.Expected fun a m' =>
    ∃ H', H <+: H' ∧ m'.Typed F H' Γ ∧ P H' a

/-! ## Steps put together -/

section Keeps

variable {x : Eval α} {P P' : HeapShape → α → Prop} {Q : HeapShape → β → Prop}

theorem Keeps.mono (h : Keeps F Γ H x P) (hp : ∀ H' a, H <+: H' → P H' a → P' H' a) :
    Keeps F Γ H x P' :=
  fun m hm => (h m hm).mono fun a _ ⟨H', hH, hm', ha⟩ => ⟨H', hH, hm', hp H' a hH ha⟩

theorem Keeps.pure {a : α} (h : P H a) : Keeps F Γ H (pure a) P :=
  fun _ hm => ⟨H, List.prefix_refl H, hm, h⟩

theorem Keeps.bind {f : α → Eval β} (h : Keeps F Γ H x P)
    (hf : ∀ H' a, H <+: H' → P H' a → Keeps F Γ H' (f a) Q) : Keeps F Γ H (x >>= f) Q := by
  intro m hm
  rw [ends_bind]
  refine (h m hm).mono fun a m' ⟨H', hH, hm', ha⟩ => ?_
  refine (hf H' a hH ha m' hm').mono fun b m'' ⟨H'', hH', hm'', hb⟩ => ?_
  exact ⟨H'', hH.trans hH', hm'', hb⟩

theorem keeps_fail {cause : Fault.Cause} {t : Token} (h : cause.isRuntime = true) :
    Keeps F Γ H (fail cause t : Eval α) P := fun _ _ => ⟨cause, .inl h, rfl⟩

theorem Keeps.traced (h : Keeps F Γ H x P) : Keeps F Γ H (traced x) P :=
  fun m hm => (h m hm).traced fun _ _ calls hf => hf.traced calls

theorem keeps_outOfFuel {t : Token} : Keeps F Γ H (fail .outOfFuel t : Eval α) P :=
  fun _ _ => ⟨.outOfFuel, .inr (.inl rfl), rfl⟩

theorem Keeps.ite {c : Prop} [Decidable c] {y : Eval α} (hx : c → Keeps F Γ H x P)
    (hy : ¬ c → Keeps F Γ H y P) : Keeps F Γ H (if c then x else y) P := by
  by_cases h : c
  · rw [if_pos h]; exact hx h
  · rw [if_neg h]; exact hy h

/-- A check that must be passed to go on, with what is done otherwise. -/
theorem Keeps.unless {c : Prop} [Decidable c] {y : Eval Unit} {f : Unit → Eval α}
    (h : Keeps F Γ H y fun _ _ => False) (hf : ¬ c → Keeps F Γ H (f ()) P) :
    Keeps F Γ H (if c then y >>= f else f ()) P :=
  Keeps.ite (fun _ => h.bind fun _ _ _ hno => hno.elim) hf

theorem keeps_get : Keeps F Γ H (get : Eval Machine) fun H' m => m.Typed F H' Γ :=
  fun _ hm => ⟨H, List.prefix_refl H, hm, hm⟩

end Keeps

/-! ## Variables and collections -/

theorem symbolOf_eq {id : Ident} {sym : Symbol} (h : id.sym = some sym) : symbolOf id = pure sym := by
  unfold symbolOf
  rw [h]

theorem keeps_lookup? {sym : Symbol} (hsym : sym ∈ Γ) :
    Keeps F Γ H (lookup? sym.id) fun H' o => ∃ v, o = some v ∧ v.HasTy F H' sym.ty :=
  keeps_get.bind fun _ _ _ hm => .pure (hm.vars sym hsym)

theorem keeps_variableOf {id : Ident} {sym : Symbol} (hsym : sym ∈ Γ) :
    Keeps F Γ H (variableOf id sym) fun H' v => v.HasTy F H' sym.ty := by
  refine (keeps_lookup? hsym).bind fun H' o _ ho => ?_
  obtain ⟨v, rfl, hv⟩ := ho
  exact .pure hv

theorem keeps_assign {r lo : Nat} (hctx : Context r lo Γ) {sym : Symbol} (hsym : sym ∈ Γ) {v : Value}
    (hv : v.HasTy F H sym.ty) : Keeps F Γ H (assign sym.id v) fun _ _ => True := by
  intro m hm
  have hm' := hm.insert hv fun x hx hid => hctx.unique x hx sym hsym hid
  exact ⟨H, List.prefix_refl H, hm'.subset fun x hx => List.mem_cons_of_mem _ hx, trivial⟩

/-- Steps that have a variable more, which gets its value first. -/
theorem keeps_scoped {r lo : Nat} {sym : Symbol} (hctx : Context r lo (sym :: Γ)) {v : Value}
    (hv : v.HasTy F H sym.ty) {x : Eval α} {P : HeapShape → α → Prop}
    (hx : Keeps F (sym :: Γ) H x P) : Keeps F Γ H (assign sym.id v >>= fun _ => x) P := by
  intro m hm
  have hm' := hm.insert hv fun x hx hid =>
    hctx.unique x (List.mem_cons_of_mem _ hx) sym List.mem_cons_self hid
  rw [ends_bind]
  refine (hx _ hm').mono fun a m' ⟨H', hH, hm', ha⟩ => ⟨H', hH, ?_, ha⟩
  exact hm'.subset fun x hx => List.mem_cons_of_mem _ hx

theorem keeps_read {id : Ident} {t : Ty} (hctx : ∀ sym ∈ Γ, sym.isFunction = false)
    (h : id.Denotes (signatures F) Γ t) : Keeps F Γ H (read F id) fun H' v => v.HasTy F H' t := by
  unfold read
  rcases h with ⟨sym, hmem, hid, rfl, -⟩ | ⟨sym, hid, hfun, rfl, hΦ, -⟩
  · rw [symbolOf_eq hid, pure_bind, hctx sym hmem]
    exact keeps_variableOf hmem
  · rw [symbolOf_eq hid, pure_bind, if_pos hfun]
    obtain ⟨f, hf, hsig⟩ := Option.map_eq_some_iff.mp hΦ
    unfold functionOf?
    rw [hf]
    refine .pure ?_
    rw [← hsig]
    exact .function (List.mem_of_find?_eq_some hf)

theorem typed_push {heap : Heap} (h : Heap.Typed F H heap) {es : Array Value} {s : Scalar}
    (hes : ∀ (i : Nat) (v : Value), es[i]? = some v → v.HasTy F H (.scalar s)) :
    Heap.Typed F (H ++ [(s, es.size)]) (heap.push es) := by
  have hpre : H <+: H ++ [(s, es.size)] := ⟨_, rfl⟩
  refine ⟨by simp [h.size], fun a s' n ha => ?_⟩
  rw [Array.getElem?_push, h.size]
  rcases Nat.lt_or_ge a H.length with hlt | hge
  · rw [List.getElem?_append_left hlt] at ha
    obtain ⟨es', hget, hsize, hty⟩ := h.elements a s' n ha
    rw [if_neg (Nat.ne_of_lt hlt)]
    exact ⟨es', hget, hsize, fun i v hv => (hty i v hv).mono hpre⟩
  · rw [List.getElem?_append_right hge, List.getElem?_singleton] at ha
    split at ha
    · rename_i hz
      cases ha
      rw [if_pos (by omega)]
      exact ⟨es, rfl, rfl, fun i v hv => (hes i v hv).mono hpre⟩
    · cases ha

theorem keeps_allocate {kind : CollectionKind} {es : Array Value} {s : Scalar}
    (hes : ∀ (i : Nat) (v : Value), es[i]? = some v → v.HasTy F H (.scalar s)) :
    Keeps F Γ H (allocate kind es) fun H' v => v.HasTy F H' (kind.ty s) := by
  intro m hm
  have hpre : H <+: H ++ [(s, es.size)] := ⟨_, rfl⟩
  refine ⟨H ++ [(s, es.size)], hpre, ⟨typed_push hm.heap hes, fun sym hsym => ?_⟩, ?_⟩
  · obtain ⟨v, hv, hty⟩ := hm.vars sym hsym
    exact ⟨v, hv, hty.mono hpre⟩
  · refine .collection (n := es.size) rfl ?_
    rw [hm.heap.size, List.getElem?_append_right (Nat.le_refl _)]
    simp

/-- The elements of a collection that is on the heap. -/
theorem getD_of_typed {heap : Heap} (h : Heap.Typed F H heap) {a n : Nat} {s : Scalar}
    (ha : H[a]? = some (s, n)) : (heap.getD a #[]).size = n ∧
      ∀ (i : Nat) (v : Value), (heap.getD a #[])[i]? = some v → v.HasTy F H (.scalar s) := by
  obtain ⟨es, hget, hsize, hty⟩ := h.elements a s n ha
  rw [Array.getD_eq_getD_getElem?, hget]
  exact ⟨hsize, hty⟩

theorem keeps_length {a n : Nat} {s : Scalar} (ha : H[a]? = some (s, n)) :
    Keeps F Γ H (length a) fun _ k => k = n :=
  keeps_get.bind fun _ _ hH hm => .pure (getD_of_typed hm.heap (HeapShape.get_mono hH ha)).1

theorem keeps_load {a n i : Nat} {s : Scalar} (ha : H[a]? = some (s, n)) (hi : i < n) :
    Keeps F Γ H (load a i) fun H' v => v.HasTy F H' (.scalar s) := by
  refine keeps_get.bind fun H' m hH hm => .pure ?_
  obtain ⟨hsize, hty⟩ := getD_of_typed hm.heap (HeapShape.get_mono hH ha)
  rw [Array.getD_eq_getD_getElem?, Array.getElem?_eq_getElem (by omega), Option.getD_some]
  exact hty i _ (Array.getElem?_eq_getElem (by omega))

theorem typed_store {heap : Heap} (h : Heap.Typed F H heap) {a n i : Nat} {s : Scalar} {v : Value}
    (ha : H[a]? = some (s, n)) (hv : v.HasTy F H (.scalar s)) :
    Heap.Typed F H (heap.modify a fun es => es.setIfInBounds i v) := by
  refine ⟨by simp [h.size], fun b s' k hb => ?_⟩
  obtain ⟨es, hget, hsize, hty⟩ := h.elements b s' k hb
  rw [Array.getElem?_modify, hget]
  by_cases hab : a = b
  · subst hab
    obtain ⟨rfl, rfl⟩ : s = s' ∧ n = k := by simpa using ha.symm.trans hb
    rw [if_pos rfl]
    refine ⟨es.setIfInBounds i v, rfl, by simp [hsize], fun j w hw => ?_⟩
    rw [Array.getElem?_setIfInBounds] at hw
    split at hw
    · split at hw
      · cases hw
        exact hv
      · cases hw
    · exact hty j w hw
  · rw [if_neg hab]
    exact ⟨es, rfl, hsize, hty⟩

theorem keeps_store {a n i : Nat} {s : Scalar} {v : Value} (ha : H[a]? = some (s, n))
    (hv : v.HasTy F H (.scalar s)) : Keeps F Γ H (store a i v) fun _ _ => True :=
  fun _ hm => ⟨H, List.prefix_refl H, ⟨typed_store hm.heap ha hv, hm.vars⟩, trivial⟩

theorem keeps_position {tok : Token} {a n : Nat} {s : Scalar} {index : Int32}
    (ha : H[a]? = some (s, n)) : Keeps F Γ H (position tok a index) fun _ i => i < n := by
  refine (keeps_length ha).bind fun _ k _ hk => Keeps.unless (keeps_fail rfl)
    fun hno => .pure ?_
  subst hk
  omega

theorem keeps_emit (text : String) : Keeps F Γ H (emit text) fun _ _ => True :=
  fun _ hm => ⟨H, List.prefix_refl H, ⟨hm.heap, hm.vars⟩, trivial⟩

/-! ## Operators -/

theorem keeps_arithmetic {tok : Token} {op : String} {a b : Value}
    (hop : (ArithOp.ofText? op).isSome = true) (ha : a.HasTy F H .int) (hb : b.HasTy F H .int) :
    Keeps F Γ H (arithmetic tok op a b) fun H' v => v.HasTy F H' .int := by
  obtain ⟨x, rfl⟩ := ha.of_int
  obtain ⟨y, rfl⟩ := hb.of_int
  obtain ⟨o, ho⟩ := Option.isSome_iff_exists.mp hop
  simp only [arithmetic, ho]
  cases o.apply x y with
  | none => exact keeps_fail rfl
  | some n => exact .pure (.int n)

theorem keeps_comparison {tok : Token} {op : String} {a b : Value} {t : Ty}
    (hop : (CompareOp.ofText? op).isSome = true) (hc : Typing.comparable op t t = true)
    (ha : a.HasTy F H t) (hb : b.HasTy F H t) :
    Keeps F Γ H (comparison tok op a b) fun H' v => v.HasTy F H' .boolean := by
  obtain ⟨o, ho⟩ := Option.isSome_iff_exists.mp hop
  have hcases : t = .int ∨ t = .string ∨ (t = .boolean ∧ (op = "==" ∨ op = "!=")) := by
    simp only [Typing.comparable, beq_self_eq_true, Bool.true_and] at hc
    split at hc
    · rename_i heq
      simp only [Bool.or_eq_true, beq_iff_eq] at hc
      rcases hc with (h | h) | h
      · exact .inl h
      · exact .inr (.inr ⟨h, heq⟩)
      · exact .inr (.inl h)
    · simp only [Bool.or_eq_true, beq_iff_eq] at hc
      rcases hc with h | h
      · exact .inl h
      · exact .inr (.inl h)
  rcases hcases with rfl | rfl | ⟨rfl, hop'⟩
  · obtain ⟨x, rfl⟩ := ha.of_int
    obtain ⟨y, rfl⟩ := hb.of_int
    simp only [comparison, ho]
    exact .pure (.bool _)
  · obtain ⟨x, rfl⟩ := ha.of_string
    obtain ⟨y, rfl⟩ := hb.of_string
    simp only [comparison, ho]
    exact .pure (.bool _)
  · obtain ⟨x, rfl⟩ := ha.of_boolean
    obtain ⟨y, rfl⟩ := hb.of_boolean
    have heq : (CompareOp.ofText? op).any CompareOp.isEquality = true := by
      rcases hop' with rfl | rfl <;> decide
    rw [ho] at heq
    simp only [comparison, ho, heq, if_true]
    exact .pure (.bool _)

theorem keeps_truth {tok : Token} {v : Value} (hv : v.HasTy F H .boolean) :
    Keeps F Γ H (truth tok v) fun _ _ => True := by
  obtain ⟨b, rfl⟩ := hv.of_boolean
  exact .pure trivial

/-! ## Texts -/

/-- A value has no text only if a collection holds itself. -/
theorem keeps_shown {tok : Token} {v : Value} : Keeps F Γ H (shown tok v) fun _ _ => True := by
  intro m hm
  unfold shown
  rw [ends_bind, ends_get]
  cases hv : v.show? m.heap with
  | some text => exact ⟨H, List.prefix_refl H, hm, trivial⟩
  | none => exact ⟨.endless, .inr (.inr ⟨rfl, Value.isCircular_of_show? hv⟩), rfl⟩

/-! ## Pieces of expressions -/

/-- How an expression runs: it keeps the machine well-typed, and its value has its type. -/
def KeepsExpr (F : List FunDecl) (run : Expr → Eval Value) : Prop :=
  ∀ {e : Expr} {r lo hi : Nat} {Γ : List Symbol} {t : Ty} {H : HeapShape},
    e.Typed (signatures F) r Γ lo hi t → Context r lo Γ →
    Keeps F Γ H (run e) fun H' v => v.HasTy F H' t

section Pieces

variable {run : Expr → Eval Value} (hrun : KeepsExpr F run) {r : Nat}
include hrun

theorem keeps_element {lo hi : Nat} (hctx : Context r lo Γ) {base : Ident} {index : Expr}
    {kind : CollectionKind} {s : Scalar} (hb : base.Holds Γ (kind.ty s))
    (hindex : index.Typed (signatures F) r Γ lo hi .int) :
    Keeps F Γ H (element F run base index) fun H' p => ∃ n, H'[p.1]? = some (s, n) := by
  refine (keeps_read hctx.plain (.inl hb)).bind fun H₁ c _ hc => ?_
  refine (hrun hindex hctx).bind fun H₂ i hH i_ty => ?_
  obtain ⟨n, rfl⟩ := i_ty.of_int
  rcases hc.of_collection with rfl | ⟨k, a, len, rfl, ha⟩
  · exact keeps_fail rfl
  · exact .pure ⟨len, HeapShape.get_mono hH ha⟩

theorem keeps_interpolate {tok : Token} {size : Nat} {splices : List Splice} :
    ∀ {lo hi pos : Nat} {rest : List Char} {acc : String} {H : HeapShape}, Context r lo Γ →
    pos + rest.length = size → Splice.Typed (signatures F) r Γ lo hi size pos splices →
    Keeps F Γ H (interpolate run tok pos rest acc splices) fun _ _ => True := by
  induction splices with
  | nil => exact fun _ _ _ => .pure trivial
  | cons sp splices ih =>
    intro lo hi pos rest acc H hctx hsize h
    obtain ⟨offset, e⟩ := sp
    obtain ⟨⟨hlow, hhigh⟩, mid, t, he, -, hss⟩ := h
    unfold interpolate
    rw [if_neg (by omega)]
    refine (hrun he hctx).bind fun H₁ v _ _ => keeps_shown.bind fun H₂ text _ _ => ?_
    have hstep : pos + (offset - pos).toNat = offset.toNat := by omega
    refine ih (hctx.mono (Expr.typed_le e he)) ?_ (hstep ▸ hss)
    rw [List.length_drop]
    omega

/-- Expressions run in order give values of the types that are wanted. -/
theorem keeps_values {es : List Expr} :
    ∀ {wants : List Ty} {lo hi : Nat} {acc : Array Value} {H : HeapShape} (done : List Ty),
    Context r lo Γ → Expr.ArgsTyped (signatures F) r Γ lo hi wants es →
    Value.HaveTys F H acc.toList done →
    Keeps F Γ H (values run acc es) fun H' vs => Value.HaveTys F H' vs.toList (done ++ wants) := by
  induction es with
  | nil =>
    intro wants lo hi acc H done _ h hacc
    cases wants with
    | nil => exact .pure (by simpa using hacc)
    | cons => exact h.elim
  | cons e es ih =>
    intro wants lo hi acc H done hctx h hacc
    cases wants with
    | nil => exact h.elim
    | cons want wants =>
      obtain ⟨mid, t, he, ha, -, hes⟩ := h
      refine (hrun he hctx).bind fun H' v hH hv => ?_
      have hacc' : Value.HaveTys F H' (acc.push v).toList (done ++ [want]) := by
        rw [Array.toList_push]
        exact (hacc.mono hH).snoc (hv.assign ha)
      have := ih (H := H') (done ++ [want]) (hctx.mono (Expr.typed_le e he)) hes hacc'
      rw [List.append_assoc] at this
      exact this

/-- What a generator leaves in a collection. -/
theorem keeps_generate {lo hi : Nat} {sym : Symbol} {body : Expr} {found : Ty} {s : Scalar}
    (hctx : Context r lo (sym :: Γ)) (hint : sym.ty = .int)
    (hb : body.Typed (signatures F) r (sym :: Γ) lo hi found)
    (ha : found.assignable (.scalar s) = true) :
    ∀ {count i : Nat} {acc : Array Value} {H : HeapShape},
    (∀ (j : Nat) (v : Value), acc[j]? = some v → v.HasTy F H (.scalar s)) →
    Keeps F Γ H (generate sym.id (run body) count i acc) fun H' vs =>
      ∀ (j : Nat) (v : Value), vs[j]? = some v → v.HasTy F H' (.scalar s) := by
  intro count
  induction count with
  | zero => exact fun hacc => .pure hacc
  | succ count ih =>
    intro i acc H hacc
    unfold generate
    rw [← bind_assoc]
    refine (keeps_scoped hctx (by rw [hint]; exact .int _) (hrun hb hctx)).bind
      fun H₁ v hH₁ hv => ih fun j w hw => ?_
    rw [Array.getElem?_push] at hw
    split at hw
    · cases hw
      exact hv.assign ha
    · exact (hacc j w hw).mono hH₁

end Pieces

/-! ## Calls -/

theorem keeps_captureAll {tok : Token} {caps : List Symbol} (hcaps : ∀ c ∈ caps, c ∈ Γ) :
    ∀ {H : HeapShape}, Keeps F Γ H (captureAll tok caps) fun H' captured =>
      captured.map Prod.fst = caps.map Symbol.id ∧
        ∀ p ∈ captured, ∃ sym ∈ caps, sym.id = p.1 ∧ p.2.HasTy F H' sym.ty := by
  induction caps with
  | nil => exact .pure ⟨rfl, by simp⟩
  | cons sym syms ih =>
    intro H
    refine (keeps_lookup? (hcaps sym List.mem_cons_self)).bind fun H₁ o _ ho => ?_
    obtain ⟨v, rfl, hv⟩ := ho
    refine (ih fun c hc => hcaps c (List.mem_cons_of_mem _ hc)).bind fun H₂ rest hH hrest => ?_
    refine .pure ⟨by simp [hrest.1], fun p hp => ?_⟩
    rcases List.mem_cons.mp hp with rfl | hp
    · exact ⟨sym, List.mem_cons_self, rfl, hv.mono hH⟩
    · obtain ⟨x, hx, hid, hty⟩ := hrest.2 p hp
      exact ⟨x, List.mem_cons_of_mem _ hx, hid, hty⟩

theorem ends_bindParams {r : Nat} {ps : List Param} : ∀ {syms : List Symbol} {lo : Nat}
    {vs : List Value} {Γ : List Symbol} {m : Machine}, Param.Declare r lo ps syms →
    Context r lo Γ → Value.HaveTys F H vs (syms.map Symbol.ty) → m.Typed F H Γ →
    Ends (bindParams ps vs) m Fault.Expected fun _ m' => m'.Typed F H (syms ++ Γ) := by
  induction ps with
  | nil =>
    intro syms lo vs Γ m hps hctx hvs hm
    cases syms with
    | nil => exact hm
    | cons => exact hps.elim
  | cons p ps ih =>
    intro syms lo vs Γ m hps hctx hvs hm
    cases syms with
    | nil => exact hps.elim
    | cons sym syms =>
      cases vs with
      | nil => exact hvs.elim
      | cons v vs =>
        obtain ⟨hsym, hd, hrest⟩ := hps
        unfold bindParams
        rw [symbolOf_eq hsym, pure_bind, ends_bind]
        have hfresh : ∀ x ∈ Γ, x.id = sym.id → x = sym := fun x hx hid => by
          have := hctx.below x hx
          rw [hid, hd.id] at this
          exact absurd this (Nat.lt_irrefl _)
        refine (ih hrest (hctx.cons hd) hvs.2 (hm.insert hvs.1 hfresh)).mono fun _ m' hm' => ?_
        exact hm'.subset fun x hx => by simpa [or_left_comm] using hx

/-- The body of a call runs in variables of its own, and the caller has its variables back
afterwards. -/
theorem keeps_inCall {r lo : Nat} (frame : Frame) (vars : Activation) {ps : List Param}
    {syms Δ : List Symbol} {args : List Value} (tok : Token) {body : Eval α}
    {P : HeapShape → α → Prop} (hps : Param.Declare r lo ps syms) (hctx : Context r lo Δ)
    (hvars : ∀ sym ∈ Δ, ∃ v, vars[sym.id]? = some v ∧ v.HasTy F H sym.ty)
    (hargs : Value.HaveTys F H args (syms.map Symbol.ty))
    (hbody : Keeps F (syms ++ Δ) H body P) :
    Keeps F Γ H (inCall frame vars ps args tok body) P := by
  intro m hm
  have hlen : ps.length = args.length := by
    rw [hps.length, hargs.length, List.length_map]
  have hm₁ : Machine.Typed F H Δ { m with vars := vars } := ⟨hm.heap, hvars⟩
  refine ends_inCall hlen (fun _ _ calls hf => hf.traced calls) ?_
  refine (ends_bindParams hps hctx hargs hm₁).mono fun _ m₂ hm₂ => ?_
  have hm₃ : Machine.Typed F H (syms ++ Δ) { m₂ with calls := frame :: m₂.calls } :=
    ⟨hm₂.heap, hm₂.vars⟩
  refine (hbody _ hm₃).mono fun a m' h => ?_
  obtain ⟨H', hH, hm', ha⟩ := h
  refine ⟨H', hH, ⟨hm'.heap, ?_⟩, ha⟩
  intro sym hsym
  obtain ⟨v, hv, hty⟩ := hm.vars sym hsym
  exact ⟨v, hv, hty.mono hH⟩

/-- The ways in which a statement of a routine with a result may end, inside a loop or not. -/
def FlowTyped (F : List FunDecl) (H : HeapShape) (result : Ty) (inLoop : Bool) : Flow → Prop
  | .next => True
  | .broke => inLoop = true
  | .continued => inLoop = true
  | .returned v => v.HasTy F H result

/-- How statements run: besides, they do not go on where they always return. -/
def KeepsStmts (F : List FunDecl) (run : List Stmt → Eval Flow) : Prop :=
  ∀ {ss : List Stmt} {r lo hi : Nat} {result : Ty} {inLoop : Bool} {Γ : List Symbol}
    {H : HeapShape}, Stmt.ListTyped (signatures F) r result inLoop Γ lo hi ss → Context r lo Γ →
    Keeps F Γ H (run ss) fun H' flow => FlowTyped F H' result inLoop flow ∧
      (listAlwaysReturns ss = true → flow ≠ .next)

/-- Captured values as the variables of a call. -/
theorem vars_of_captured {caps : List Symbol} {captured : List (SymbolId × Value)}
    {P : Symbol → Value → Prop} (hn : (caps.map Symbol.id).Nodup)
    (hids : captured.map Prod.fst = caps.map Symbol.id)
    (hvals : ∀ sym ∈ caps, ∀ v, (sym.id, v) ∈ captured → P sym v) :
    ∀ sym ∈ caps, ∃ v, (Std.HashMap.ofList captured)[sym.id]? = some v ∧ P sym v := by
  intro sym hsym
  have hmem : sym.id ∈ captured.map Prod.fst := hids ▸ List.mem_map_of_mem hsym
  obtain ⟨⟨id, v⟩, hp, hid⟩ := List.mem_map.mp hmem
  obtain rfl : id = sym.id := hid
  refine ⟨v, ?_, hvals sym hsym v hp⟩
  refine Std.HashMap.getElem?_ofList_of_mem (k := sym.id) (by simp) ?_ hp
  have hnd : (captured.map Prod.fst).Nodup := hids ▸ hn
  rw [List.Nodup, List.pairwise_map] at hnd
  exact hnd.imp fun h => by simpa using h

theorem keeps_apply {run : Expr → Eval Value} {runStmts : List Stmt → Eval Flow}
    (hF : ∀ f ∈ F, ∃ r, f.Typed (signatures F) r) (hrun : KeepsExpr F run)
    (hstmts : KeepsStmts F runStmts) {name : String} {tok : Token} {callee : Value}
    {args : List Value} {params : List Ty} {t : Ty}
    (hc : callee.HasTy F H (.fn params (some t))) (hargs : Value.HaveTys F H args params) :
    Keeps F Γ H (apply runStmts run name tok callee args) fun H' v => v.HasTy F H' t := by
  refine keeps_get.bind fun H₁ m hH _ => Keeps.unless (keeps_fail rfl).traced fun _ => ?_
  replace hc := hc.mono hH
  replace hargs := hargs.mono hH
  generalize hty : Ty.fn params (some t) = ft at hc
  cases hc with
  | null => exact keeps_fail rfl
  | function hf =>
    rename_i f
    obtain ⟨r, -, -, ⟨syms, hi, hps, hpt, hbody⟩, hret⟩ := hF f hf
    obtain ⟨rfl, rfl⟩ : params = f.paramTypes ∧ t = f.result := by
      simpa [FunDecl.signature] using hty
    have hctx := (Context.nil r 1).params hps
    rw [List.append_nil] at hctx
    have hcall := keeps_inCall (Γ := Γ) ⟨f.name.name, tok.line, tok.col⟩ ∅ tok hps
      (Context.nil r 1) (by simp) (hpt ▸ hargs)
      (by rw [List.append_nil]; exact hstmts hbody hctx)
    refine hcall.bind fun H₂ flow _ hflow => ?_
    obtain ⟨hflow, hnext⟩ := hflow
    cases flow with
    | returned v => exact .pure hflow
    | broke => cases hflow
    | continued => cases hflow
    | next =>
      refine Keeps.ite (fun hu => .pure (hu ▸ .unit)) fun hu => ?_
      exact absurd rfl (hnext (hret hu))
  | closure hl hctx hids hvals =>
    rename_i l captured r lo hi
    obtain ⟨mark, ps, body, caps⟩ := l
    obtain ⟨hmark, syms, result, found, hps, hfn, -, -, hnodup, hbody, hfit⟩ := hl
    obtain ⟨rfl, rfl⟩ : params = syms.map Symbol.ty ∧ t = result := by
      simpa using hty.trans hfn
    have hcall := keeps_inCall (Γ := Γ) ⟨name, tok.line, tok.col⟩ (.ofList captured) tok hps hctx
      (vars_of_captured hnodup hids hvals) hargs (hrun hbody (hctx.params hps))
    refine hcall.bind fun H₂ v _ hv => ?_
    simp only [Lambda.mark, hmark, ← hty]
    refine .pure ?_
    split
    · rename_i hu
      exact hu ▸ .unit
    · rename_i hu
      exact hv.assign (hfit.resolve_right hu)
  | collection hk => cases ‹CollectionKind› <;> simp [CollectionKind.ty, ← hty] at hk
  | int => cases hty
  | bool => cases hty
  | string => cases hty
  | unit => cases hty
  | any => cases hty

/-! ## Loops -/

section Loops

variable {result : Ty} (inLoop : Bool)

theorem keeps_turn {body : Eval Flow}
    (hb : Keeps F Γ H body fun H' flow => FlowTyped F H' result true flow) :
    Keeps F Γ H (turn body) fun H' o => ∀ flow, o = some flow → FlowTyped F H' result inLoop flow := by
  refine hb.bind fun H' flow _ hflow => ?_
  cases flow with
  | broke => exact .pure (by rintro _ ⟨⟩; trivial)
  | returned v => exact .pure (by rintro _ ⟨⟩; exact hflow)
  | next => exact .pure (by simp)
  | continued => exact .pure (by simp)

theorem keeps_whileLoop {tok : Token} {cond : Eval Bool} {body : Eval Flow}
    (hc : ∀ {H}, Keeps F Γ H cond fun _ _ => True)
    (hb : ∀ {H}, Keeps F Γ H body fun H' flow => FlowTyped F H' result true flow) (fuel : Nat) :
    ∀ {H}, Keeps F Γ H (whileLoop tok cond body fuel) fun H' flow =>
      FlowTyped F H' result inLoop flow := by
  induction fuel with
  | zero => exact keeps_outOfFuel
  | succ fuel ih =>
    intro H
    refine hc.bind fun H₁ b _ _ => Keeps.ite (fun _ => ?_) fun _ => .pure trivial
    refine (keeps_turn inLoop hb).bind fun H₂ o _ ho => ?_
    cases o with
    | none => exact ih
    | some flow => exact .pure (ho flow rfl)

theorem keeps_rangeLoop {sym : Symbol} {last step : Int32} {body : Eval Flow} {r lo : Nat}
    (hctx : Context r lo (sym :: Γ)) (hint : sym.ty = .int)
    (hb : ∀ {H}, Keeps F (sym :: Γ) H body fun H' flow => FlowTyped F H' result true flow)
    {n : Int64} : ∀ {H}, Keeps F Γ H (rangeLoop sym.id last step body n)
      fun H' flow => FlowTyped F H' result inLoop flow := by
  induction n using rangeLoop.induct last step with
  | case1 n hn ih =>
    intro H
    rw [rangeLoop, if_pos hn, ← bind_assoc]
    refine (keeps_scoped hctx (by rw [hint]; exact .int _) (keeps_turn inLoop hb)).bind
      fun H₁ o _ ho => ?_
    cases o with
    | none => exact ih
    | some flow => exact .pure (ho flow rfl)
  | case2 n hn =>
    rw [rangeLoop, if_neg hn]
    exact .pure trivial

theorem keeps_elementLoop {sym : Symbol} {a n : Nat} {s : Scalar} {body : Eval Flow} {r lo : Nat}
    (hctx : Context r lo (sym :: Γ)) (hty : sym.ty = .scalar s)
    (hb : ∀ {H}, Keeps F (sym :: Γ) H body fun H' flow => FlowTyped F H' result true flow)
    (count : Nat) : ∀ {i : Nat} {H : HeapShape}, H[a]? = some (s, n) → i + count ≤ n →
      Keeps F Γ H (elementLoop sym.id a body count i) fun H' flow =>
        FlowTyped F H' result inLoop flow := by
  induction count with
  | zero => exact fun _ _ => .pure trivial
  | succ count ih =>
    intro i H ha hi
    unfold elementLoop
    refine (keeps_load ha (by omega)).bind fun H₁ v hH₁ hv => ?_
    rw [← bind_assoc]
    refine (keeps_scoped hctx (hty ▸ hv) (keeps_turn inLoop hb)).bind
      fun H₂ o hH₂ ho => ?_
    cases o with
    | none => exact ih (HeapShape.get_mono (hH₁.trans hH₂) ha) (by omega)
    | some flow => exact .pure (ho flow rfl)

end Loops

/-! ## Expressions and statements -/

theorem keeps_incDec {run : Expr → Eval Value} (hrun : KeepsExpr F run) {r lo hi : Nat}
    (hctx : Context r lo Γ) {e : IncDec} (he : e.Typed (signatures F) r Γ lo hi) :
    Keeps F Γ H (incDec F run e) fun H' v => v.HasTy F H' .int := by
  obtain ⟨m, op, before, target⟩ := e
  obtain ⟨-, ht⟩ := he
  cases target with
  | name id =>
    obtain ⟨⟨sym, hmem, hid, hty, -⟩, -⟩ := ht
    simp only [incDec, symbolOf_eq hid, pure_bind]
    refine (keeps_variableOf hmem).bind fun H₁ v _ hv => ?_
    obtain ⟨n, rfl⟩ := (hty ▸ hv : v.HasTy F H₁ .int).of_int
    refine (keeps_assign hctx hmem (by rw [hty]; exact .int _)).bind fun H₂ _ _ _ => ?_
    exact .pure (.int _)
  | element em base index =>
    obtain ⟨-, kind, hb, hindex⟩ := ht
    refine (keeps_element hrun hctx hb hindex).bind fun H₁ p _ hp => ?_
    obtain ⟨a, i⟩ := p
    obtain ⟨n, ha⟩ := hp
    refine (keeps_position ha).bind fun H₂ i hH₂ hi => ?_
    refine (keeps_load (HeapShape.get_mono hH₂ ha) hi).bind fun H₃ v hH₃ hv => ?_
    obtain ⟨k, rfl⟩ := hv.of_int
    have ha₃ := HeapShape.get_mono (hH₂.trans hH₃) ha
    exact (keeps_store ha₃ (.int _)).bind fun H₄ _ _ _ => .pure (.int _)

/-- How a statement runs: where it goes on, what it declares has a value. -/
def KeepsStmt (F : List FunDecl) (run : Stmt → Eval Flow) : Prop :=
  ∀ {s : Stmt} {r lo hi : Nat} {result : Ty} {inLoop : Bool} {Γ : List Symbol} {H : HeapShape}
    {m : Machine}, s.Typed (signatures F) r result inLoop Γ lo hi → Context r lo Γ →
    m.Typed F H Γ → Ends (run s) m Fault.Expected fun flow m' => ∃ H', H <+: H' ∧
      m'.Typed F H' Γ ∧ (flow = .next → m'.Typed F H' (s.extend Γ)) ∧
      FlowTyped F H' result inLoop flow ∧ (s.alwaysReturns = true → flow ≠ .next)

theorem keepsStmts_sequence {run : Stmt → Eval Flow} (hrun : KeepsStmt F run) :
    KeepsStmts F (sequence run) := by
  intro ss
  induction ss with
  | nil => exact fun _ _ => .pure ⟨trivial, by simp [listAlwaysReturns]⟩
  | cons s ss ih =>
    intro r lo hi result inLoop Γ H h hctx m hm
    obtain ⟨mid, hs, hss⟩ := h
    unfold sequence
    rw [ends_bind]
    refine (hrun hs hctx hm).mono fun flow m' ⟨H', hH, hm', hext, hflow, hret⟩ => ?_
    have hstop (hne : flow ≠ .next) : ∃ H', H <+: H' ∧ m'.Typed F H' Γ ∧
        FlowTyped F H' result inLoop flow ∧ (listAlwaysReturns (s :: ss) = true → flow ≠ .next) :=
      ⟨H', hH, hm', hflow, fun _ => hne⟩
    cases flow with
    | next =>
      refine (ih hss (hctx.extend hs) m' (hext rfl)).mono fun flow m'' h => ?_
      obtain ⟨H'', hH', hm'', hflow', hret'⟩ := h
      refine ⟨H'', hH.trans hH', hm''.subset ?_, hflow', fun hall => hret' ?_⟩
      · cases s with
        | decl => exact fun sym hsym => List.mem_append_right _ hsym
        | _ => exact fun sym hsym => hsym
      · rw [listAlwaysReturns, Bool.or_eq_true] at hall
        exact hall.resolve_left fun hall => hret hall rfl
    | broke => exact hstop (by simp)
    | continued => exact hstop (by simp)
    | returned v => exact hstop (by simp)

/-- A statement that declares nothing. -/
theorem ends_of_keeps {x : Eval Flow} {s : Stmt} {result : Ty} {inLoop : Bool}
    (h : Keeps F Γ H x fun H' flow => FlowTyped F H' result inLoop flow ∧
      (s.alwaysReturns = true → flow ≠ .next)) (he : s.extend Γ = Γ) {m : Machine}
    (hm : m.Typed F H Γ) : Ends x m Fault.Expected fun flow m' => ∃ H', H <+: H' ∧
      m'.Typed F H' Γ ∧ (flow = .next → m'.Typed F H' (s.extend Γ)) ∧
      FlowTyped F H' result inLoop flow ∧ (s.alwaysReturns = true → flow ≠ .next) := by
  refine (h m hm).mono fun flow m' ⟨H', hH, hm', hflow⟩ => ⟨H', hH, hm', fun _ => ?_, hflow⟩
  rw [he]
  exact hm'

section Fuel

variable (hF : ∀ f ∈ F, ∃ r, f.Typed (signatures F) r) {fuel : Nat}
  (hexpr : KeepsExpr F (expr F fuel)) (hstmt : KeepsStmt F (stmt F fuel))
include hF hexpr hstmt

theorem keepsExpr_succ : KeepsExpr F (expr F (fuel + 1)) := by
  intro e r lo hi Γ t H h hctx
  unfold expr
  cases e with
  | int m n =>
    obtain ⟨-, rfl, -⟩ := h
    exact .pure (.int n)
  | bool m b =>
    obtain ⟨-, rfl, -⟩ := h
    exact .pure (.bool b)
  | str m text splices =>
    obtain ⟨-, rfl, hss⟩ := h
    cases splices with
    | nil => exact .pure (.string text)
    | cons s splices =>
      refine (keeps_interpolate hexpr hctx (by simp) hss).bind fun H' v _ _ => ?_
      exact .pure (.string v)
  | read target =>
    cases target with
    | name id => exact keeps_read hctx.plain h.1
    | element m base index =>
      obtain ⟨-, kind, s, rfl, hb, hindex⟩ := h
      refine (keeps_element hexpr hctx hb hindex).bind fun H₁ p _ hp => ?_
      obtain ⟨n, ha⟩ := hp
      refine (keeps_position ha).bind fun H₂ i hH₂ hi => ?_
      exact keeps_load (HeapShape.get_mono hH₂ ha) hi
  | arith m op a b =>
    obtain ⟨-, rfl, hop, mid, ha, hb⟩ := h
    refine (hexpr ha hctx).bind fun H₁ x _ hx => ?_
    refine (hexpr hb (hctx.mono (Expr.typed_le a ha))).bind fun H₂ y hH hy => ?_
    exact keeps_arithmetic hop (hx.mono hH) hy
  | compare m op a b =>
    obtain ⟨-, rfl, hop, mid, s, hc, ha, hb⟩ := h
    refine (hexpr ha hctx).bind fun H₁ x _ hx => ?_
    refine (hexpr hb (hctx.mono (Expr.typed_le a ha))).bind fun H₂ y hH hy => ?_
    exact keeps_comparison hop hc (hx.mono hH) hy
  | logic m op a b =>
    obtain ⟨-, rfl, hop, mid, ha, hb⟩ := h
    refine (hexpr ha hctx).bind fun H₁ x _ hx => (keeps_truth hx).bind fun H₂ _ _ _ => ?_
    refine Keeps.ite (fun _ => .pure (.bool _)) fun _ => ?_
    refine Keeps.ite (fun _ => .pure (.bool _)) fun _ => ?_
    refine (hexpr hb (hctx.mono (Expr.typed_le a ha))).bind fun H₃ y _ hy => ?_
    exact (keeps_truth hy).bind fun H₄ _ _ _ => .pure (.bool _)
  | not m e =>
    obtain ⟨-, rfl, he⟩ := h
    refine (hexpr he hctx).bind fun H₁ x _ hx => ?_
    obtain ⟨b, rfl⟩ := hx.of_boolean
    exact .pure (.bool _)
  | incDec e =>
    obtain ⟨rfl, he⟩ := h
    exact keeps_incDec hexpr hctx he
  | collection m kind es =>
    obtain ⟨-, s, -, rfl, hes⟩ := h
    refine (keeps_values hexpr [] hctx hes.args (by simp [Value.HaveTys])).bind
      fun H' vs _ hvs => keeps_allocate fun i v hv => ?_
    refine hvs.of_replicate (by simp) v ?_
    exact Array.mem_toList_iff.mpr (Array.mem_of_getElem? hv)
  | sized m kind size gen =>
    obtain ⟨-, s, mid, -, rfl, hsize, hgen⟩ := h
    obtain ⟨gm, ps, body, caps⟩ := gen
    obtain ⟨sym, found, hps, hint, hbody, ha, -⟩ := hgen
    refine (hexpr hsize hctx).bind fun H₁ x _ hx => ?_
    obtain ⟨n, rfl⟩ := hx.of_int
    refine Keeps.unless (keeps_fail rfl) fun _ => ?_
    cases ps with
    | nil => exact hps.elim
    | cons p ps =>
      obtain ⟨hp, hd, -⟩ := hps
      simp only [Lambda.params, symbolOf_eq hp, pure_bind]
      have hctx' := (hctx.mono (Expr.typed_le size hsize)).cons hd
      refine (keeps_generate hexpr hctx' hint hbody ha (by simp)).bind fun H₂ es _ hes => ?_
      exact keeps_allocate hes
  | lambda l =>
    obtain ⟨lm, ps, body, caps⟩ := l
    obtain ⟨hm, syms, result, found, hps, rfl, hres, hcaps, hnodup, hbody, hfit⟩ := h
    refine (keeps_captureAll hcaps).bind fun H' captured _ hc => .pure ?_
    have hctx' := hctx.subset hcaps
    have hl : Lambda.Typed (signatures F) r caps lo hi _ (.mk lm ps body caps) :=
      ⟨hm, syms, result, found, hps, rfl, hres, fun _ h => h, hnodup, hbody, hfit⟩
    refine .closure hl hctx' hc.1 fun sym hsym v hv => ?_
    obtain ⟨x, hx, hid, hty⟩ := hc.2 _ hv
    obtain rfl := hctx'.unique x hx sym hsym hid
    exact hty
  | call c =>
    obtain ⟨m, callee, args⟩ := c
    obtain ⟨-, -, params, hcallee, hargs⟩ := h
    refine (keeps_read hctx.plain hcallee).bind fun H₁ f _ hf => ?_
    refine (keeps_values hexpr [] hctx hargs (by simp [Value.HaveTys])).bind
      fun H₂ vs hH hvs => ?_
    exact keeps_apply hF hexpr (keepsStmts_sequence hstmt) (hf.mono hH) hvs
  | range rg => exact h.elim

omit hF hstmt in
/-- What an initial or assigned value comes to. -/
theorem keeps_fits {e : Expr} {r lo hi : Nat} {t : Ty}
    (h : e.Fits (signatures F) r Γ lo hi t) (hctx : Context r lo Γ) :
    Keeps F Γ H (expr F fuel e) fun H' v => v.HasTy F H' t := by
  obtain ⟨t', ht, ha, -⟩ := h
  exact (hexpr ht hctx).mono fun H' v _ hv => hv.assign ha

omit hF hexpr in
theorem keeps_block {b : Block} {r lo hi : Nat} {result : Ty} {inLoop : Bool}
    (h : b.Typed (signatures F) r result inLoop Γ lo hi) (hctx : Context r lo Γ) :
    Keeps F Γ H (sequence (stmt F fuel) b.stmts) fun H' flow =>
      FlowTyped F H' result inLoop flow ∧ (b.alwaysReturns = true → flow ≠ .next) := by
  obtain ⟨tok, ss, close⟩ := b
  exact keepsStmts_sequence hstmt h hctx

omit hF hstmt in
theorem keeps_assignment {target : Target} {value : Expr} {tok : Token} {r lo hi : Nat}
    {result : Ty} {inLoop : Bool}
    (h : Stmt.Typed (signatures F) r result inLoop Γ lo hi (.assign tok target value))
    (hctx : Context r lo Γ) :
    Keeps F Γ H (stmt F (fuel + 1) (.assign tok target value)) fun _ flow => flow = .next := by
  unfold stmt
  cases target with
  | name id =>
    obtain ⟨t, ⟨sym, hmem, hid, rfl, -⟩, hv⟩ := h
    simp only [symbolOf_eq hid, pure_bind]
    refine (keeps_fits hexpr hv hctx).bind fun H₁ v _ hv => ?_
    exact (keeps_assign hctx hmem hv).bind fun H₂ _ _ _ => .pure rfl
  | element em base index =>
    obtain ⟨kind, s, mid, hb, hindex, hv⟩ := h
    refine (keeps_element hexpr hctx hb hindex).bind fun H₁ p _ hp => ?_
    obtain ⟨n, ha⟩ := hp
    refine (keeps_fits hexpr hv (hctx.mono (Expr.typed_le index hindex))).bind fun H₂ v hH₂ hv => ?_
    refine (keeps_position (HeapShape.get_mono hH₂ ha)).bind fun H₃ i hH₃ _ => ?_
    have ha₃ := HeapShape.get_mono (hH₂.trans hH₃) ha
    exact (keeps_store ha₃ (hv.mono hH₃)).bind fun H₄ _ _ _ => .pure rfl

omit hF hstmt in
theorem keeps_compound {target : Target} {value : Expr} {op : String} {tok : Token} {r lo hi : Nat}
    {result : Ty} {inLoop : Bool}
    (h : Stmt.Typed (signatures F) r result inLoop Γ lo hi (.compound tok target op value))
    (hctx : Context r lo Γ) :
    Keeps F Γ H (stmt F (fuel + 1) (.compound tok target op value)) fun _ flow => flow = .next := by
  unfold stmt
  obtain ⟨hop, mid, ht, hv⟩ := h
  have hctx' := hctx.mono (Target.updates_le target ht)
  cases target with
  | name id =>
    obtain ⟨⟨sym, hmem, hid, hty, -⟩, -⟩ := ht
    simp only [symbolOf_eq hid, pure_bind]
    refine (keeps_variableOf hmem).bind fun H₁ old _ hold => ?_
    rw [hty] at hold
    refine (hexpr hv hctx').bind fun H₂ v hH₂ hv => ?_
    refine (keeps_arithmetic hop (hold.mono hH₂) hv).bind fun H₃ w _ hw => ?_
    exact (keeps_assign hctx hmem (hty ▸ hw)).bind fun H₄ _ _ _ => .pure rfl
  | element em base index =>
    obtain ⟨-, kind, hb, hindex⟩ := ht
    refine (keeps_element hexpr hctx hb hindex).bind fun H₁ p _ hp => ?_
    obtain ⟨n, ha⟩ := hp
    refine (keeps_position ha).bind fun H₂ i hH₂ hi => ?_
    refine (hexpr hv hctx').bind fun H₃ v hH₃ hv => ?_
    have ha₃ := HeapShape.get_mono (hH₂.trans hH₃) ha
    refine (keeps_load ha₃ hi).bind fun H₄ old hH₄ hold => ?_
    refine (keeps_arithmetic hop hold (hv.mono hH₄)).bind fun H₅ w hH₅ hw => ?_
    have ha₅ := HeapShape.get_mono (hH₄.trans hH₅) ha₃
    exact (keeps_store ha₅ hw).bind fun H₆ _ _ _ => .pure rfl

omit hF hstmt in
theorem keeps_bound {e : Expr} {r lo hi : Nat} (h : e.Typed (signatures F) r Γ lo hi .int)
    (hctx : Context r lo Γ) : Keeps F Γ H (bound (expr F fuel) e) fun _ _ => True := by
  refine (hexpr h hctx).bind fun H' v _ hv => ?_
  obtain ⟨n, rfl⟩ := hv.of_int
  exact .pure trivial

omit hF hstmt in
theorem ends_decl {tok : Token} {isMutable : Bool} {name : Ident} {ty : Option Ty}
    {value : Option Expr} {r lo mid : Nat} {sym : Symbol} {result : Ty} {inLoop : Bool}
    {m : Machine} (hctx : Context r lo Γ) (hsym : name.sym = some sym) (hd : sym.Declares r mid)
    (hv : match value with
      | none => lo = mid
      | some e => e.Fits (signatures F) r Γ lo mid sym.ty)
    (hm : m.Typed F H Γ) :
    Ends (stmt F (fuel + 1) (.decl tok isMutable name ty value)) m Fault.Expected fun flow m' =>
      ∃ H', H <+: H' ∧ m'.Typed F H' Γ ∧
        (flow = .next → m'.Typed F H' (Stmt.extend Γ (.decl tok isMutable name ty value))) ∧
        FlowTyped F H' result inLoop flow ∧
        ((Stmt.decl tok isMutable name ty value).alwaysReturns = true → flow ≠ .next) := by
  -- The machine after the assignment, from one that is typed without the new variable.
  have hdone {H' : HeapShape} {m' : Machine} {v : Value} (hle : lo ≤ mid) (hH : H <+: H')
      (hm' : m'.Typed F H' Γ) (hv : v.HasTy F H' sym.ty) :
      ∃ H', H <+: H' ∧ Machine.Typed F H' Γ { m' with vars := m'.vars.insert sym.id v } ∧
        (Flow.next = .next → Machine.Typed F H'
          (Stmt.extend Γ (.decl tok isMutable name ty value))
          { m' with vars := m'.vars.insert sym.id v }) ∧
        FlowTyped F H' result inLoop .next ∧
        ((Stmt.decl tok isMutable name ty value).alwaysReturns = true → Flow.next ≠ .next) := by
    have hall := hm'.insert hv fun x hx hid =>
      ((hctx.mono hle).cons hd).unique x (List.mem_cons_of_mem _ hx) sym List.mem_cons_self hid
    refine ⟨H', hH, hall.subset fun x hx => List.mem_cons_of_mem _ hx, fun _ => ?_, trivial, ?_⟩
    · rw [Stmt.extend, hsym]
      exact hall
    · simp [Stmt.alwaysReturns]
  unfold stmt
  simp only [symbolOf_eq hsym, pure_bind]
  cases value with
  | none => exact hdone (Nat.le_of_eq hv) (List.prefix_refl H) hm (.initial hd.hasValue hd.complete)
  | some e =>
    simp only [ends_bind]
    refine (keeps_fits hexpr hv hctx m hm).mono fun v m' h => ?_
    obtain ⟨H', hH, hm', hv'⟩ := h
    exact hdone (Expr.fits_le hv) hH hm' hv'

omit hF in
theorem keeps_forLoop {tok : Token} {x : Ident} {header : Header} {body : Block} {r lo hi : Nat}
    {result : Ty} {inLoop : Bool}
    (h : Stmt.Typed (signatures F) r result inLoop Γ lo hi (.forLoop tok x header body))
    (hctx : Context r lo Γ) :
    Keeps F Γ H (stmt F (fuel + 1) (.forLoop tok x header body)) fun H' flow =>
      FlowTyped F H' result inLoop flow := by
  obtain ⟨mid, sym, hsym, hd, hh, hb⟩ := h
  have hctx' := (hctx.mono (Header.typed_le hh)).cons hd
  have hbody : ∀ {H}, Keeps F (sym :: Γ) H (sequence (stmt F fuel) body.stmts) fun H' flow =>
      FlowTyped F H' result true flow :=
    (keeps_block hstmt hb hctx').mono fun _ _ _ hf => hf.1
  unfold stmt
  cases header with
  | range rg =>
    obtain ⟨m, first, last, step⟩ := rg
    obtain ⟨hint, a, b, hf, hl, hs⟩ := hh
    have hctxa := hctx.mono (Expr.typed_le first hf)
    have hctxb := hctxa.mono (Expr.typed_le last hl)
    simp only [symbolOf_eq hsym, pure_bind]
    refine (keeps_bound hexpr hf hctx).bind fun H₁ n₁ _ _ => ?_
    refine (keeps_bound hexpr hl hctxa).bind fun H₂ n₂ _ _ => ?_
    cases step with
    | none => exact keeps_rangeLoop inLoop hctx' hint hbody
    | some e =>
      refine (keeps_bound hexpr hs.1 hctxb).bind fun H₃ n₃ _ _ =>
        Keeps.unless (keeps_fail rfl) fun _ => ?_
      exact keeps_rangeLoop inLoop hctx' hint hbody
  | each e =>
    obtain ⟨kind, s, -, hty, he⟩ := hh
    simp only [symbolOf_eq hsym, pure_bind]
    refine (hexpr he hctx).bind fun H₁ v _ hv => ?_
    rcases hv.of_collection with rfl | ⟨k, a, n, rfl, ha⟩
    · exact keeps_fail rfl
    · refine (keeps_length ha).bind fun H₂ n' hH₂ hn' => ?_
      subst hn'
      exact keeps_elementLoop inLoop hctx' hty hbody _ (HeapShape.get_mono hH₂ ha) (by omega)

omit hF in
theorem keepsStmt_succ : KeepsStmt F (stmt F (fuel + 1)) := by
  intro s r lo hi result inLoop Γ H m h hctx hm
  cases s with
  | decl tok isMutable name ty value =>
    obtain ⟨mid, sym, hsym, hd, rfl, hv⟩ := h
    exact ends_decl hexpr hctx hsym hd hv hm
  | assign tok target value =>
    refine ends_of_keeps ((keeps_assignment hexpr h hctx).mono ?_) rfl hm
    rintro H' _ - rfl
    exact ⟨trivial, by simp [Stmt.alwaysReturns]⟩
  | compound tok target op value =>
    refine ends_of_keeps ((keeps_compound hexpr h hctx).mono ?_) rfl hm
    rintro H' _ - rfl
    exact ⟨trivial, by simp [Stmt.alwaysReturns]⟩
  | selfOp tok e =>
    refine ends_of_keeps ?_ rfl hm
    exact (keeps_incDec hexpr hctx h).bind fun H' _ _ _ => .pure ⟨trivial, by simp [Stmt.alwaysReturns]⟩
  | print tok newline value =>
    refine ends_of_keeps ?_ rfl hm
    unfold stmt
    cases value with
    | none =>
      exact (keeps_emit _).bind fun H' _ _ _ => .pure ⟨trivial, by simp [Stmt.alwaysReturns]⟩
    | some e =>
      obtain ⟨t, he, -⟩ := h
      refine (hexpr he hctx).bind fun H₁ v _ _ => keeps_shown.bind fun H₂ text _ _ => ?_
      exact (keeps_emit _).bind fun H' _ _ _ => .pure ⟨trivial, by simp [Stmt.alwaysReturns]⟩
  | ifElse tok cond a b =>
    refine ends_of_keeps ?_ rfl hm
    unfold stmt
    obtain ⟨m₁, m₂, hc, ha, hb⟩ := h
    have hctx₁ := hctx.mono (Expr.typed_le cond hc)
    refine (hexpr hc hctx).bind fun H₁ v _ hv => (keeps_truth hv).bind fun H₂ t _ _ => ?_
    refine Keeps.ite (fun _ => ?_) fun _ => ?_
    · refine (keeps_block hstmt ha hctx₁).mono ?_
      rintro H' flow - ⟨hflow, hret⟩
      refine ⟨hflow, fun hr => hret ?_⟩
      cases b with
      | none => simp [Stmt.alwaysReturns] at hr
      | some b =>
        rw [Stmt.alwaysReturns, Bool.and_eq_true] at hr
        exact hr.1
    · cases b with
      | none => exact .pure ⟨trivial, by simp [Stmt.alwaysReturns]⟩
      | some b =>
        refine (keeps_block hstmt hb (hctx₁.mono (Block.typed_le a ha))).mono ?_
        rintro H' flow - ⟨hflow, hret⟩
        refine ⟨hflow, fun hr => hret ?_⟩
        rw [Stmt.alwaysReturns, Bool.and_eq_true] at hr
        exact hr.2
  | whileLoop tok cond body =>
    refine ends_of_keeps ?_ rfl hm
    unfold stmt
    obtain ⟨mid, hc, hb⟩ := h
    have hctx' := hctx.mono (Expr.typed_le cond hc)
    refine (keeps_whileLoop inLoop ((hexpr hc hctx).bind fun _ _ _ hv => keeps_truth hv)
      ((keeps_block hstmt hb hctx').mono fun _ _ _ hf => hf.1) fuel).mono fun H' flow _ hf => ?_
    exact ⟨hf, by simp [Stmt.alwaysReturns]⟩
  | forLoop tok x header body =>
    refine ends_of_keeps ((keeps_forLoop hexpr hstmt h hctx).mono fun H' flow _ hf => ⟨hf, ?_⟩) rfl hm
    simp [Stmt.alwaysReturns]
  | function f => exact h.elim
  | call tok c =>
    refine ends_of_keeps ?_ rfl hm
    unfold stmt
    obtain ⟨t, hc⟩ := h
    refine (hexpr (e := .call c) hc hctx).bind fun H' v _ _ => .pure ⟨trivial, ?_⟩
    simp [Stmt.alwaysReturns]
  | ret tok value =>
    refine ends_of_keeps ?_ rfl hm
    unfold stmt
    cases value with
    | none => exact .pure ⟨h.1 ▸ .unit, by simp⟩
    | some e =>
      exact (keeps_fits hexpr h.2 hctx).bind fun H' v _ hv => .pure ⟨hv, by simp⟩
  | brk tok =>
    refine ends_of_keeps ?_ rfl hm
    unfold stmt
    exact .pure ⟨h.1, by simp⟩
  | cont tok =>
    refine ends_of_keeps ?_ rfl hm
    unfold stmt
    exact .pure ⟨h.1, by simp⟩
  | block b => exact ends_of_keeps (keeps_block hstmt h hctx) rfl hm

end Fuel

/-- Expressions and statements of a program whose functions are well-typed. -/
theorem keeps_expr_stmt (hF : ∀ f ∈ F, ∃ r, f.Typed (signatures F) r) (fuel : Nat) :
    KeepsExpr F (expr F fuel) ∧ KeepsStmt F (stmt F fuel) := by
  induction fuel with
  | zero =>
    refine ⟨fun _ _ => ?_, fun _ _ _ => ?_⟩
    · unfold expr
      exact keeps_outOfFuel
    · unfold stmt
      exact ⟨.outOfFuel, .inr (.inl rfl), rfl⟩
  | succ fuel ih => exact ⟨keepsExpr_succ hF ih.1 ih.2, keepsStmt_succ ih.1 ih.2⟩

end Eval

/-! ## Whole programs -/

/-- The fault that a run of a program ends in, if it does. -/
def Checked.fault? (c : Checked) (fuel : Nat) : Option Fault :=
  match Eval.sequence (Eval.stmt c.functions fuel) c.program.script .start with
  | .ok _ _ => none
  | .error f _ => some f

/-- The heap that a run of a program leaves. -/
def Checked.heapAfter (c : Checked) (fuel : Nat) : Heap :=
  match Eval.sequence (Eval.stmt c.functions fuel) c.program.script .start with
  | .ok _ m | .error _ m => m.heap

/-- The failure of a run is its fault. -/
theorem Checked.failure_runWith (c : Checked) (fuel : Nat) :
    (c.runWith fuel).failure = (c.fault? fuel).map (·.toDiagnostic c.program.file) := by
  unfold Checked.runWith Checked.fault?
  cases Eval.sequence (Eval.stmt c.functions fuel) c.program.script .start <;> rfl

theorem Machine.start_typed (F : List FunDecl) : Machine.Typed F [] [] .start :=
  ⟨⟨rfl, by simp⟩, by simp⟩

theorem Checked.Typed.expected_of_fault {c : Checked} (h : c.Typed) {fuel : Nat} {f : Fault}
    (hf : c.fault? fuel = some f) : f.Expected (c.heapAfter fuel) := by
  obtain ⟨hi, hscript⟩ := h.script
  have hrun := Eval.keepsStmts_sequence (Eval.keeps_expr_stmt h.routine fuel).2 hscript
    (Context.nil 0 0) .start (Machine.start_typed c.functions)
  unfold Checked.fault? at hf
  unfold Checked.heapAfter
  cases hx : Eval.sequence (Eval.stmt c.functions fuel) c.program.script .start with
  | ok flow m =>
    rw [hx] at hf
    cases hf
  | error e m =>
    rw [hx] at hf
    cases hf
    exact hrun.of_error hx

/-- A run of a program that the checker accepts fails only as expected: it divides by zero, leaves
the bounds of a collection, asks for a negative size or a step that does not go forward, calls too
deep, or uses a collection or function that was never assigned. Apart from these there are only runs
without an end: those that no fuel is enough for, and those that show a collection that holds
itself. -/
theorem Checked.OfText.fault_expected {text : Text} {c : Checked} (h : c.OfText text)
    (fuel : Nat) :
    (c.runWith fuel).failure = (c.fault? fuel).map (·.toDiagnostic c.program.file) ∧
      ∀ f, c.fault? fuel = some f →
        f.Expected (c.heapAfter fuel) ∧
          ∀ cause : Fault.Cause, cause.isInternal = true → f.message ≠ cause.message := by
  refine ⟨c.failure_runWith fuel, fun f hf => ?_⟩
  have hexp := h.typed.expected_of_fault hf
  exact ⟨hexp, fun cause hc => hexp.message_ne hc⟩

/-- A call inside a template that divides by zero. -/
theorem Checked.OfText.fault_expected_division : ∃ (c : Checked) (f : Fault),
    c.OfText "fun f(n: Int): Int \x7b return 1 % 0 \x7d\nprintln(\"a$\x7bf(2)\x7d\")" ∧
      c.fault? 20 = some f ∧ f.message = Fault.Cause.divisionByZero.message ∧
        f.Expected (c.heapAfter 20) := by
  have hrun : ((Checked.ofText?
      "fun f(n: Int): Int \x7b return 1 % 0 \x7d\nprintln(\"a$\x7bf(2)\x7d\")").bind fun c =>
        (c.fault? 20).map Fault.message) = some Fault.Cause.divisionByZero.message := by
    decide +kernel
  obtain ⟨c, hc, hf⟩ := Option.bind_eq_some_iff.mp hrun
  obtain ⟨f, hf, hmsg⟩ := Option.map_eq_some_iff.mp hf
  have htext := Checked.ofText_of_eq_some hc
  exact ⟨c, f, htext, hf, hmsg, ((htext.fault_expected 20).2 f hf).1⟩

end Kotlet

import Kotlet.Proofs.Emit.Collection

/-!
# Calls, function values and all expressions

* `yields_call` : a call, of a function or through a handle;
* `writes_lambdaResult` : the body of a lambda returns;
* `writes_lambdaMethod` : the method of a lambda has a name of its own;
* `yields_lambda` : a function value with what it captures;
* `Expr.compiles_piece` : the code of a well-typed expression leaves a value of its type, or branches
  on it, and fails for a limit of the format only.
-/

namespace Kotlet
namespace Emit

open ClassFile

section Functions

variable {Φ : Signatures} {Γ : List Symbol} {r lo mid hi : Nat} {t : Ty} {env : Env} {W : World}
  {st : List Kind}

/-! ## Calls -/

theorem ArgsCompile.length : ∀ {wants : List Ty} {ps : List Piece} {lo : Nat},
    ArgsCompile Φ Γ hi lo wants ps → wants.length = ps.length
  | [], [], _, _ => rfl
  | [], _ :: _, _, h => h.elim
  | _ :: _, [], _, h => h.elim
  | _ :: _, _ :: _, _, ⟨_, _, _, _, _, hps⟩ => congrArg (· + 1) hps.length

theorem yields_arguments : ∀ {wants : List Ty} {ps : List Piece} {lo : Nat} {W : World}
    {st : List Kind}, ArgsCompile Φ Γ hi lo wants ps → Stage Φ Γ lo hi env W →
      Yields env W st (arguments ps wants) hi ((wants.map fun t => t.localKind.kind).reverse ++ st)
  | [], [], lo, W, st, hps, h => turns_nothing.yields (hps ▸ h.count)
  | [], _ :: _, _, _, _, hps, _ => hps.elim
  | _ :: _, [], _, _, _, hps, _ => hps.elim
  | want :: wants, p :: ps, lo, W, st, ⟨mid, t, hp, ha, hu, hps⟩, h => by
    unfold arguments
    refine (yields_valueAs hp ha hu (h.upTo hps.le)).seq fun W₁ hn hc => ?_
    rw [List.map_cons, List.reverse_cons, List.append_assoc, List.singleton_append]
    exact (yields_arguments hps (h.next hn hc)).ready hn

theorem yields_call {m : Mark} {callee : Ident} {params : List Ty} {args : List Piece}
    (hcallee : callee.Denotes Φ Γ (.fn params (some t))) (hargs : ArgsCompile Φ Γ hi lo params args)
    (hΓ : Context r lo Γ) (h : Stage Φ Γ lo hi env W) :
    Yields env W st (call m callee args) hi (t.kinds ++ st) := by
  unfold call
  rcases hcallee with hvar | ⟨sym, hsym, hfun, hty, hsig, -⟩
  · have ⟨sym, hmem, hsym, hty, _⟩ := hvar
    rw [symbolOf_eq hsym, pure_bind, hty]
    dsimp only
    rw [if_pos hargs.length, pure_bind]
    dsimp only
    rw [hΓ.plain sym hmem, if_neg Bool.false_ne_true]
    refine writes_variableOf hvar h.holds fun l hl hhas => ?_
    refine (turns_loadAs hhas (by rw [hl])).seq ?_
    refine (turns_pushInt _).seq ?_
    refine (turns_anewArray _).seq ?_
    refine (yields_storeAll (turns_arrayStore .any) hargs.any h).seq fun W₁ hn hc => ?_
    refine (turns_callVirtual [.ref] [.ref] (by decide) (by decide)).seq ?_
    rw [Option.getD_some]
    by_cases hu : t = .unit
    · rw [if_pos hu, hu]
      exact (turns_op _ (by decide) rfl).ready hn hc
    · rw [if_neg hu, Ty.kinds_of_ne hu]
      exact (turns_unbox t).ready hn hc
  · obtain ⟨f, hf, -, hname, hfty⟩ := h.knows.find hsig
    obtain ⟨rfl, ht⟩ : f.paramTypes = params ∧ some f.result = some t := by
      simpa [FunDecl.signature] using hfty
    obtain rfl := Option.some.inj ht
    rw [symbolOf_eq hsym, pure_bind, hty]
    dsimp only
    rw [if_pos hargs.length, pure_bind]
    dsimp only
    rw [hfun, if_pos rfl]
    refine (yields_arguments hargs h).seq fun W₁ hn hc => ?_
    refine writes_read_bind (writes_methodOf h.knows hsig ?_)
    exact (turns_callStatic _ _
      (calls_methodDescriptor (h.knows.types f hf) (h.knows.result f hf))
      (clean_methodName (hname ▸ h.knows.word f hf))).ready hn hc

/-! ## Function values -/

theorem turns_popValue (t : Ty) : Turns env W (t.localKind.kind :: st) (op .pop) st := by
  cases t.localKind <;> exact turns_op _ (by decide) rfl

/-- The body of a lambda returns. -/
theorem writes_lambdaResult {body : Piece} {result : Ty} (hb : body.Compiles Φ Γ lo hi t)
    (ht : t.assignable result = true ∨ result = .unit) (h : Stage Φ Γ lo hi env W)
    (hres : W.result = result.kinds) :
    Writes env (W.withStack []) (lambdaResult body result) fun _ V => W.Next V := by
  unfold lambdaResult
  rw [typeOf_eq hb.recorded, pure_bind]
  refine (hb.value h).seq fun W₁ hn hc => ?_
  have hres₁ : W₁.result = result.kinds := hn.result.trans hres
  by_cases hu : result = .unit
  · rw [if_pos hu]
    rw [hu] at hres₁
    have hend : Writes env (W₁.withStack []) (op .vreturn) fun _ V => W.Next V :=
      (leads_vreturn hres₁ []).writes (hn.dead.withStack [])
    by_cases htu : t = .unit
    · rw [if_neg (not_not_intro htu), htu]
      exact hend
    · rw [if_pos htu, Ty.kinds_of_ne htu]
      exact (turns_popValue t).seq hend
  · rw [if_neg hu]
    have ha : t.assignable result = true := ht.resolve_right hu
    have htu : t ≠ .unit := by
      rintro rfl
      simp only [Ty.assignable, bne_self_eq_false, Bool.and_false, Bool.or_false, beq_iff_eq] at ha
      exact hu ha.symm
    rw [Ty.kinds_of_ne htu]
    refine (turns_coerce ha).seq ?_
    exact (leads_return hu hres₁ []).writes (hn.dead.withStack [])

/-- The method of a lambda has a name of its own, which the code after it may use. -/
theorem writes_lambdaMethod {α : Type} {syms : List Symbol} {result : Ty} {tok close : Token}
    {steps : Emit Unit} {f : State → Emit α} {Q : α → World → Prop} (count : Nat)
    (hsyms : ∀ sym ∈ syms, sym.ty.Complete ∧ sym.ty ≠ .unit) (hresult : result.Complete)
    (hnodup : (syms.map Symbol.id).Nodup) (hcount : ∀ sym ∈ syms, sym.id.index < count)
    (hsteps : ∀ V : World, V.Opening syms result.kinds W.names count →
      Writes { env with result := result, loop := none } (V.withStack []) steps fun _ V' => V.Next V')
    (hf : ∀ s, Writes env (W.withStack st) (f s) Q) :
    Writes env (W.withStack st) (do
      let s ← get
      modify fun s => { s with lambdas := s.lambdas + 1 }
      method [.isPrivate, .isStatic, .isSynthetic] ("lambda$" ++ toString s.lambdas)
        (syms.map Symbol.ty) result tok (syms.map some) close steps
      f s) Q := by
  intro s hs
  simp only [ends_bind, ends_get, ends_modify]
  have hgood : Good (W.withStack st) { s with lambdas := s.lambdas + 1 } :=
    { hs with
      names := fun m hm => (hs.names m hm).imp id (.imp fun _ => .imp_left Nat.lt_succ_of_lt) }
  have hnew : ∀ m ∈ s.methods, m.name ≠ lambdaName s.lambdas := fun m hm he => by
    rcases hs.names m hm with hmem | ⟨k, hk, hname⟩
    · exact hs.ok.names _ hmem _ he
    · have := lambdaName_inj (hname.symm.trans he)
      omega
  refine Ends.mono (ends_method hgood (by decide) hnew (.inr ⟨s.lambdas, Nat.lt_succ_self _, rfl⟩)
    (fun _ h => h) hs.ok.names hsyms hresult hnodup hcount hsteps) fun _ s' hdone => ?_
  obtain ⟨hlater, hgood'⟩ := hdone
  have hbegun : Later s { s with lambdas := s.lambdas + 1 } :=
    .of_pool (.refl _) rfl (Nat.le_succ _)
  refine (hf _ s' hgood').mono fun a s'' hafter => ?_
  obtain ⟨hlater', hrest⟩ := hafter
  exact ⟨hbegun.trans (hlater.trans hlater'), hrest⟩

theorem paramSymbols_eq : ∀ {ps : List Param} {syms : List Symbol} {i : Nat},
    Param.Declare r i ps syms → paramSymbols ps = pure syms
  | [], [], _, _ => rfl
  | [], _ :: _, _, h => h.elim
  | _ :: _, [], _, h => h.elim
  | p :: ps, sym :: syms, i, ⟨hsym, _, hps⟩ => by
    unfold paramSymbols
    rw [symbolOf_eq hsym, pure_bind, paramSymbols_eq hps, pure_bind]

/-- What is captured has a slot. -/
theorem turns_storeCaptures {tok : Token} (hW : W.Holds Γ) : ∀ {caps : List Symbol} {i : Nat},
    (∀ c ∈ caps, c ∈ Γ) → Turns env W (.ref :: st) (storeCaptures tok i caps) (.ref :: st)
  | [], _, _ => turns_nothing
  | sym :: caps, i, hcaps => by
    obtain ⟨l, hl, -, hhas⟩ := hW sym (hcaps sym List.mem_cons_self)
    unfold storeCaptures
    refine writes_slot? ?_
    rw [show (W.withStack (.ref :: st)).vars sym.id = some l from hl]
    refine (turns_op (.ref :: .ref :: st) (by decide) rfl).seq ?_
    refine (turns_pushInt _).seq ?_
    refine (turns_load hhas).seq ?_
    refine (turns_box l.ty).seq ?_
    refine (turns_op (.ref :: st) (by decide) rfl).seq ?_
    exact turns_storeCaptures hW fun c hc => hcaps c (List.mem_cons_of_mem _ hc)

theorem Param.Declare.index : ∀ {ps : List Param} {syms : List Symbol} {i : Nat},
    Param.Declare r i ps syms → ∀ sym ∈ syms, i ≤ sym.id.index ∧ sym.id.index < i + syms.length
  | [], [], _, _, _, h => by cases h
  | [], _ :: _, _, h, _, _ => h.elim
  | _ :: _, [], _, h, _, _ => h.elim
  | _ :: _, sym :: syms, i, ⟨_, hd, hps⟩, x, hx => by
    rw [List.length_cons]
    rcases List.mem_cons.mp hx with rfl | hx
    · rw [hd.id]
      exact ⟨Nat.le_refl _, by dsimp only; omega⟩
    · have := Param.Declare.index hps x hx
      omega

theorem Param.Declare.nodup : ∀ {ps : List Param} {syms : List Symbol} {i : Nat},
    Param.Declare r i ps syms → (syms.map Symbol.id).Nodup
  | [], [], _, _ => List.nodup_nil
  | [], _ :: _, _, h => h.elim
  | _ :: _, [], _, h => h.elim
  | _ :: _, sym :: syms, i, ⟨_, hd, hps⟩ => by
    refine List.nodup_cons.mpr ⟨fun hmem => ?_, Param.Declare.nodup hps⟩
    obtain ⟨x, hx, heq⟩ := List.mem_map.mp hmem
    have := (Param.Declare.index hps x hx).1
    rw [heq, hd.id] at this
    exact Nat.not_succ_le_self i this

/-- A function value. -/
theorem yields_lambda {m : Mark} {ps : List Param} {body : Piece} {caps syms : List Symbol}
    {result : Ty} (hm : m.ty = some (.fn (syms.map Symbol.ty) (some result)))
    (hps : Param.Declare r lo ps syms) (hresult : result.Complete) (hcaps : ∀ c ∈ caps, c ∈ Γ)
    (hnodup : (caps.map Symbol.id).Nodup)
    (hb : body.Compiles Φ (syms ++ caps) (lo + syms.length) hi t)
    (ht : t.assignable result = true ∨ result = .unit) (hΓ : Context r lo Γ)
    (h : Stage Φ Γ lo hi env W) : Yields env W st (lambda m ps body caps) hi (.ref :: st) := by
  have hbody : Context r (lo + syms.length) (syms ++ caps) := (hΓ.subset hcaps).params hps
  have hids : ((syms ++ caps).map Symbol.id).Nodup := by
    rw [List.map_append]
    refine List.nodup_append.mpr ⟨Param.Declare.nodup hps, hnodup, fun a ha b hb hab => ?_⟩
    obtain ⟨x, hx, rfl⟩ := List.mem_map.mp ha
    obtain ⟨y, hy, rfl⟩ := List.mem_map.mp hb
    have := (Param.Declare.index hps x hx).1
    have := hΓ.below y (hcaps y hy)
    rw [hab] at *
    omega
  unfold lambda
  rw [typeOf_eq (show (Expr.lambda (.mk m ps body.expr caps)).recorded? = _ from hm), pure_bind]
  dsimp only
  rw [pure_bind, paramSymbols_eq hps, pure_bind, Option.getD_some]
  refine writes_lambdaMethod (lo + syms.length)
    (fun sym hs => ⟨hbody.complete sym hs, hbody.hasValue sym hs⟩) hresult hids hbody.below
    (fun V hV => ?_) fun s => ?_
  · refine writes_lambdaResult hb ht ⟨{ h.knows with }, hV.holds, hV.count,
      (fun _ ha => nomatch hV.ahead.symm.trans ha), hV.numbered⟩ hV.result
  · refine (turns_methodHandle _ _).seq ?_
    have hcount : W.count ≤ hi := Nat.le_trans h.count (Nat.le_trans (Nat.le_add_right _ _) hb.le)
    split
    · refine (turns_pushInt _).seq ?_
      refine (turns_pushInt _).seq ?_
      refine (turns_anewArray _).seq ?_
      refine (turns_storeCaptures h.holds hcaps).seq ?_
      exact (turns_callStatic [.ref, .int, .ref] [.ref] (by decide) (by decide)).yields hcount
    · exact turns_nothing.yields hcount

end Functions

end Emit

/-! ## All expressions -/

open ClassFile Emit

/-- Elements of a collection that can be written are values. -/
theorem Ident.Holds.element {r lo : Nat} {Γ : List Symbol} {id : Ident} {kind : CollectionKind}
    {s : Scalar} (h : id.Holds Γ (kind.ty s)) (hΓ : Context r lo Γ) : s ≠ .unit := by
  obtain ⟨sym, hmem, -, hty, -⟩ := h
  have hc := hΓ.complete sym hmem
  rw [hty] at hc
  cases kind <;> exact hc.1

theorem Expr.pieces_eq_map (es : List Expr) : Expr.pieces es = es.map Expr.piece := by
  induction es with
  | nil => rfl
  | cons e es ih => rw [Expr.pieces, ih, List.map_cons]

theorem CollectionKind.kinds_ty (kind : CollectionKind) (s : Scalar) : (kind.ty s).kinds = [.ref] := by
  cases kind <;> rfl

variable {Φ : Signatures} {r : Nat}

theorem Target.recorded_of_typed {Γ : List Symbol} {lo hi : Nat} {t : Ty} {target : Target}
    (h : target.Typed Φ r Γ lo hi t) : (Expr.read target).recorded? = some t := by
  cases target with
  | name id =>
    rcases h.1 with ⟨_, -, -, -, hty⟩ | ⟨_, -, -, -, -, hty⟩
    · exact hty
    · exact hty
  | element m base index => exact h.1

mutual

/-- The code of an expression. -/
theorem Expr.compiles_piece {Γ : List Symbol} {lo hi : Nat} {t : Ty} : (e : Expr) →
    e.Typed Φ r Γ lo hi t → Context r lo Γ → e.piece.Compiles Φ Γ lo hi t
  | .int m n, ⟨hm, ht, hlo⟩, _ => by
    subst ht hlo
    exact compiles_ofValue hm (Nat.le_refl _) fun h => (turns_pushInt n).yields h.count
  | .bool m b, ⟨hm, ht, hlo⟩, _ => by
    subst ht hlo
    exact compiles_bool hm
  | .str m text splices, ⟨hm, ht, hs⟩, hΓ => by
    subst ht
    refine compiles_ofValue hm (Splice.typed_le splices hs) fun {env W st} h => ?_
    have hpieces := Splice.compiles_pieces splices hs hΓ
    cases hps : Splice.pieces splices with
    | nil =>
      rw [hps] at hpieces
      exact (turns_pushString text).yields (hpieces ▸ h.count)
    | cons p ps => exact yields_template (hps ▸ hpieces) h
  | .read target, h, hΓ => by
    refine compiles_ofValue (Target.recorded_of_typed h) (Target.typed_le target h) fun hs => ?_
    exact yields_read (Target.reads_place target h hΓ) hΓ hs
  | .arith m sign a b, ⟨hm, ht, hsign, mid, ha, hb⟩, hΓ => by
    subst ht
    have ha' := Expr.compiles_piece a ha hΓ
    have hb' := Expr.compiles_piece b hb (hΓ.mono ha'.le)
    exact compiles_ofValue hm (Nat.le_trans ha'.le hb'.le) fun h =>
      yields_arithmetic hsign ha' hb' h
  | .compare m sign a b, ⟨hm, ht, hsign, mid, s, hc, ha, hb⟩, hΓ => by
    subst ht
    have ha' := Expr.compiles_piece a ha hΓ
    have hb' := Expr.compiles_piece b hb (hΓ.mono ha'.le)
    exact compiles_ofJump hm (Nat.le_trans ha'.le hb'.le) fun h hl =>
      yields_comparison hsign hc ha' hb' h hl
  | .logic m sign a b, ⟨hm, ht, _, mid, ha, hb⟩, hΓ => by
    subst ht
    have ha' := Expr.compiles_piece a ha hΓ
    have hb' := Expr.compiles_piece b hb (hΓ.mono ha'.le)
    exact compiles_ofJump hm (Nat.le_trans ha'.le hb'.le) fun h hl =>
      yields_connective ha' hb' h hl
  | .not m e, ⟨hm, ht, he⟩, hΓ => by
    subst ht
    exact compiles_not hm (Expr.compiles_piece e he hΓ)
  | .incDec (.mk m sign before target), ⟨ht, hm, hu⟩, hΓ => by
    subst ht
    exact compiles_ofValue hm (Target.updates_le target hu) fun h =>
      yields_incDec (Target.updates_place target hu hΓ) h
  | .collection m kind es, ⟨hm, s, hs, ht, hes⟩, hΓ => by
    subst ht
    have hps := Expr.compiles_pieces _ es hes.args hΓ
    refine compiles_ofValue hm hps.le fun h => ?_
    rw [CollectionKind.kinds_ty]
    refine yields_collection hm ?_ h
    rwa [Expr.pieces_eq_map, List.map_map, ← Expr.pieces_eq_map]
  | .sized m kind size (.mk gm ps body caps), ⟨hm, s, mid, hs, ht, hsize, hgen⟩, hΓ => by
    subst ht
    obtain ⟨sym, found, hp, hty, hbody, ha, hu⟩ := hgen
    have hsize' := Expr.compiles_piece size hsize hΓ
    have hbody' := Expr.compiles_piece body hbody
      ((hΓ.mono (Expr.typed_le size hsize)).params hp)
    have hle := Nat.le_trans hsize'.le (Nat.le_trans (Nat.le_succ mid) hbody'.le)
    refine compiles_ofValue hm hle fun h => ?_
    rw [CollectionKind.kinds_ty]
    exact yields_sized hm hsize' hp hty hbody' ha hu h
  | .lambda (.mk m ps body caps), h, hΓ => by
    obtain ⟨hm, syms, result, found, hp, ht, hres, hcaps, hnodup, hbody, hfound⟩ := h
    subst ht
    have hbody' := Expr.compiles_piece body hbody ((hΓ.subset hcaps).params hp)
    have hle := Nat.le_trans (Nat.le_add_right lo syms.length) hbody'.le
    exact compiles_ofValue hm hle fun h =>
      yields_lambda (hm.trans rfl) hp hres hcaps hnodup hbody' hfound hΓ h
  | .call (.mk m callee args), ⟨hm, _, params, hcallee, hargs⟩, hΓ =>
    have hargs' := Expr.compiles_pieces params args hargs hΓ
    compiles_ofValue hm hargs'.le fun h => yields_call hcallee hargs' hΓ h
  | .range _, h, _ => h.elim

/-- The code of arguments. -/
theorem Expr.compiles_pieces {Γ : List Symbol} {lo hi : Nat} : (wants : List Ty) →
    (es : List Expr) → Expr.ArgsTyped Φ r Γ lo hi wants es → Context r lo Γ →
      ArgsCompile Φ Γ hi lo wants (Expr.pieces es)
  | [], [], h, _ => h
  | [], _ :: _, h, _ => h.elim
  | _ :: _, [], h, _ => h.elim
  | _ :: wants, e :: es, ⟨mid, t, he, ha, hu, hes⟩, hΓ =>
    ⟨mid, t, Expr.compiles_piece e he hΓ, ha, hu,
      Expr.compiles_pieces wants es hes (hΓ.mono (Expr.typed_le e he))⟩

/-- The code of templates. -/
theorem Splice.compiles_pieces {Γ : List Symbol} {lo hi size pos : Nat} :
    (splices : List Splice) → Splice.Typed Φ r Γ lo hi size pos splices → Context r lo Γ →
      SplicesCompile Φ Γ size hi lo pos (Splice.pieces splices)
  | [], h, _ => h
  | .mk _ e :: splices, ⟨hpos, mid, t, he, ht, hss⟩, hΓ =>
    ⟨hpos, mid, t, Expr.compiles_piece e he hΓ, ht,
      Splice.compiles_pieces splices hss (hΓ.mono (Expr.typed_le e he))⟩

theorem Target.reads_place {Γ : List Symbol} {lo hi : Nat} {t : Ty} : (target : Target) →
    target.Typed Φ r Γ lo hi t → Context r lo Γ → target.place.Reads Φ Γ lo hi t
  | .name _, h, _ => h
  | .element _ _ index, ⟨_, kind, s, ht, hbase, hindex⟩, hΓ =>
    ⟨kind, s, ht, hbase.element hΓ, hbase, Expr.compiles_piece index hindex hΓ⟩

theorem Target.updates_place {Γ : List Symbol} {lo hi : Nat} : (target : Target) →
    target.Updates Φ r Γ lo hi → Context r lo Γ → target.place.Updates Φ Γ lo hi
  | .name _, h, _ => h
  | .element _ _ index, ⟨_, kind, hbase, hindex⟩, hΓ =>
    ⟨kind, hbase, Expr.compiles_piece index hindex hΓ⟩

end

end Kotlet

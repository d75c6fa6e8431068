import Kotlet.Proofs.Typing.Invariant

/-!
# Checked expressions are well-typed

* `ends_declare`, `ends_declareParams` : fresh symbols;
* `steps_checkRead`, `steps_checkWritable` : names;
* `steps_lambdaBody` : inside a lambda, the parameters and the captures suffice; inside a generator,
  all that is around it does;
* `Expr.steps_check` : expressions.
-/

namespace Kotlet

namespace Typing

variable {Φ : Signatures} {env : Env}

/-! ## Fresh symbols -/

theorem Sound.define {s : State} (hs : Sound Φ env s) {sym : Symbol}
    (hd : sym.Declares env.routine s.next) (hdepth : sym.depth ≤ env.depth) :
    Sound Φ env { s with scopes := s.scopes.define sym, next := s.next + 1 } := by
  have hvars := Scopes.vars_define (s := s.scopes) hd.plain
  refine ⟨?_, ?_, ?_, ?_⟩
  · change Context env.routine (s.next + 1) (s.scopes.define sym).vars
    rw [hvars]
    exact hs.context.cons hd
  · change ∀ x ∈ (s.scopes.define sym).vars, x.depth ≤ env.depth
    rw [hvars]
    simpa [hdepth] using hs.depth
  · change ∀ x ∈ (s.scopes.define sym).symbols, _
    rw [Scopes.symbols_define]
    intro x hx hf
    rcases List.mem_cons.mp hx with rfl | hx
    · simp [hd.plain] at hf
    · exact hs.functions x hx hf
  · change Captured (s.scopes.define sym).vars env.depth s.captures
    rw [hvars]
    exact hs.captured.mono fun x hx _ => List.mem_cons_of_mem _ hx

/-- What declaring a variable comes to. -/
theorem ends_declare {s : State} (hs : Sound Φ env s) {name : String} {ty : Ty} {kind : Symbol.Kind}
    {constant initialized : Bool} {site : Site} (hk : kind ≠ .function) (hc : ty.Complete)
    (hu : ty ≠ .unit) :
    Ends (declare name ty kind constant initialized site) env s IsTypeFault fun sym s' =>
      sym.Declares env.routine s.next ∧ sym.ty = ty ∧ sym.depth = env.depth ∧
        s' = { s with scopes := s.scopes.define sym, next := s.next + 1 } ∧ Sound Φ env s' := by
  unfold declare
  simp only [ends_bind, ends_read, ends_get, ends_set, ends_pure]
  have hd : Symbol.Declares env.routine s.next
      ⟨⟨env.routine, s.next⟩, name, ty, kind, constant, initialized, env.depth, some env.owner,
        some site⟩ :=
    ⟨rfl, by simpa [Symbol.isFunction] using hk, hc, hu⟩
  exact ⟨hd, trivial, trivial, trivial, hs.define hd (Nat.le_refl _)⟩

/-- What declaring parameters comes to. -/
theorem ends_declareParams : ∀ {ps : List Param} {types : List Ty} {s : State}, Sound Φ env s →
    types.length = ps.length → (∀ t ∈ types, t.Complete ∧ t ≠ .unit) →
    Ends (declareParams ps types) env s IsTypeFault fun ps' s' => ∃ syms,
      Param.Declare env.routine s.next ps' syms ∧ syms.map Symbol.ty = types ∧
        ps'.map Param.ty = ps.map Param.ty ∧ (∀ sym ∈ syms, sym.depth = env.depth) ∧
        s'.next = s.next + syms.length ∧ s'.captures = s.captures ∧
        (∀ sym, sym ∈ s'.scopes.vars ↔ sym ∈ syms ∨ sym ∈ s.scopes.vars) ∧
        s'.scopes.inner.kind = s.scopes.inner.kind ∧ Sound Φ env s'
  | [], [], s, hs, _, _ =>
    ⟨[], trivial, rfl, rfl, by simp, rfl, rfl, by simp, rfl, hs⟩
  | p :: ps, t :: ts, s, hs, hlen, ht => by
    unfold declareParams
    rw [ends_bind]
    have hfirst := ht t List.mem_cons_self
    refine (ends_declare hs (by decide) hfirst.1 hfirst.2).mono fun sym s' h => ?_
    obtain ⟨hd, hty, hdepth, rfl, hs'⟩ := h
    rw [ends_bind]
    refine (ends_declareParams hs' (by simpa using hlen) fun u hu => ht u (by simp [hu])).mono ?_
    rintro ps' s'' ⟨syms, hps, htys, hpty, hdep, hnext, hcap, hvars, hkind, hs''⟩
    refine ⟨sym :: syms, ⟨rfl, hd, hps⟩, by simp [hty, htys], by simp [hpty], ?_, ?_, hcap, ?_, hkind,
      hs''⟩
    · simpa [hdepth] using hdep
    · rw [hnext, List.length_cons]
      change s.next + 1 + _ = _
      omega
    · intro x
      rw [hvars, Scopes.vars_define hd.plain]
      simp only [List.mem_cons, or_assoc]
      exact or_left_comm
  | [], _ :: _, _, _, hlen, _ => by simp at hlen
  | _ :: _, [], _, _, hlen, _ => by simp at hlen

/-! ## Names -/

theorem steps_checkRead (id : Ident) : Steps Φ env id.checkRead (fun p => p.2.Complete)
    (fun p Γ lo hi => lo = hi ∧ p.1.Denotes Φ Γ p.2 ∧
      ∀ s, p.2.element? = some s → p.1.Holds Γ p.2) := by
  refine (steps_resolve? id.name).bind fun o ho => ?_
  cases o with
  | none => exact steps_reject (by simp)
  | some sym =>
    obtain ⟨hc, -, hfun⟩ := ho sym rfl
    refine .pure hc fun Γ n lo ⟨hlo, hvar⟩ => ?_
    cases hf : sym.isFunction with
    | true =>
      obtain ⟨hΦ, params, result, hty⟩ := hfun hf
      refine ⟨hlo, .inr ⟨sym, rfl, hf, rfl, hΦ, rfl⟩, fun s hs => ?_⟩
      simp [hty, Ty.element?] at hs
    | false =>
      have hholds : Ident.Holds Γ { id with sym := some sym, ty := some sym.ty } sym.ty :=
        ⟨sym, hvar sym rfl hf, rfl, rfl, rfl⟩
      exact ⟨hlo, .inl hholds, fun _ _ => hholds⟩

theorem steps_isCaptured (sym : Symbol) :
    Steps Φ env (isCaptured sym) (fun _ => True) fun _ _ lo hi => lo = hi :=
  steps_read.bind fun _ _ => .pure trivial fun _ _ _ h => h

theorem steps_checkWritable (id : Ident) (first : Bool) : Steps Φ env (id.checkWritable first)
    (fun sym => sym.ty.Complete ∧ sym.ty ≠ .unit) (fun sym Γ lo hi => lo = hi ∧ sym ∈ Γ) := by
  refine (steps_resolve? id.name).bind fun o ho => ?_
  cases o with
  | none => exact steps_reject (by simp)
  | some sym =>
    refine steps_get.bind fun s _ => ?_
    extract_lets assigned loops
    refine Steps.ite (fun _ => steps_reject (by simp)) fun hf => ?_
    refine Steps.ite (fun _ => steps_reject (by simp)) fun _ => ?_
    refine (steps_isCaptured sym).bind fun _ _ => ?_
    refine Steps.ite (fun _ => steps_reject (by simp)) fun _ => ?_
    refine Steps.ite (fun _ => steps_reject (by simp)) fun _ => ?_
    refine steps_read.bind fun _ _ => ?_
    refine Steps.ite (fun _ => steps_reject (by simp)) fun _ => ?_
    refine .pure ⟨(ho sym rfl).1, (ho sym rfl).2.1⟩ fun Γ n a ha b hb c hc d hd => ?_
    exact ⟨by omega, hd.2 sym rfl (by simpa using hf)⟩

/-! ## Lambdas -/

theorem steps_lambdaParamTypes : ∀ {ps : List Param} {wanted : List (Option Ty)},
    (∀ p ∈ ps, p.Complete) → (∀ t, some t ∈ wanted → t.Complete) →
    Steps Φ env (lambdaParamTypes ps wanted)
      (fun types => types.length = ps.length ∧ ∀ t ∈ types, t.Complete ∧ t ≠ .unit)
      (fun _ _ lo hi => lo = hi)
  | [], _, _, _ => .pure (by simp) fun _ _ => rfl
  | p :: ps, wanted, hps, hw => by
    have htail : ∀ t, some t ∈ wanted.tail → t.Complete :=
      fun t ht => hw t (List.mem_of_mem_tail ht)
    have hrest (ty : Ty) (hty : ty.Complete) : Steps Φ env (do
        if ty = .unit then reject (.unitParameter p.name.name) p.name.tok
        return ty :: (← lambdaParamTypes ps wanted.tail))
        (fun types => types.length = (p :: ps).length ∧ ∀ t ∈ types, t.Complete ∧ t ≠ .unit)
        (fun _ _ lo hi => lo = hi) := by
      refine Steps.unless (by simp) fun hu => ?_
      refine (steps_lambdaParamTypes (fun q hq => hps q (by simp [hq])) htail).bind fun ts hts => ?_
      refine .pure ⟨by simp [hts.1], ?_⟩ fun _ _ _ h => h
      simpa [hty, hu] using hts.2
    unfold lambdaParamTypes
    extract_lets rest
    cases hp : p.ty with
    | some t => exact hrest t (hps p (by simp) t hp)
    | none =>
      cases hh : wanted.head?.join with
      | none =>
        exact (steps_reject (by simp) (C := fun _ => False) (P := fun _ _ _ _ => False)).bind
          fun _ h => h.elim
      | some t =>
        refine hrest t (hw t ?_)
        rw [Option.join_eq_some_iff] at hh
        exact List.mem_of_mem_head? hh

/-- What is around a piece of a lambda. -/
def Env.inside (env : Env) (m : Mark) : Env :=
  { env with owner := .ofToken .lambda m.tok, depth := env.depth + 1 }

theorem Sound.enterLambda {s : State} (hs : Sound Φ env s) (m : Mark) :
    Sound Φ (env.inside m)
      { s with captures := [] :: s.captures, scopes := s.scopes.enter .lambda } where
  context := by simpa [Env.inside] using hs.context
  depth sym hsym := Nat.le_succ_of_le (hs.depth sym (by simpa using hsym))
  functions := by simpa using hs.functions
  captured := ⟨by simp, by simp, by simpa using hs.captured⟩

/-- After a lambda the variables are those before it, and what its body used is captured. -/
theorem Sound.leaveLambda {s s' : State} (hs : Sound Φ env s) {m : Mark}
    (hs' : Sound Φ (env.inside m) s') (hnext : s.next ≤ s'.next) {syms : List Symbol}
    (hvars : ∀ sym, sym ∈ s'.scopes.vars ↔ sym ∈ syms ∨ sym ∈ s.scopes.vars)
    (hdepth : ∀ sym ∈ syms, sym.depth = env.depth + 1) {c : List Symbol}
    {rest : List (List Symbol)} (hcap : s'.captures = c :: rest) :
    Sound Φ env { s' with scopes := s.scopes, captures := rest } ∧ (c.map Symbol.id).Nodup ∧
      ∀ sym ∈ c, sym ∈ s.scopes.vars ∧ (sym.depth = env.depth ∨ sym ∈ rest.getD 0 []) := by
  have hc := hs'.captured
  rw [hcap] at hc
  obtain ⟨hmem, hnodup, hout⟩ := hc
  have houter : ∀ sym ∈ s'.scopes.vars, sym.depth ≤ env.depth → sym ∈ s.scopes.vars := by
    intro sym hsym hd
    rcases (hvars sym).mp hsym with hp | hv
    · have := hdepth sym hp
      omega
    · exact hv
  refine ⟨⟨hs.context.mono hnext, hs.depth, hs.functions, ?_⟩, hnodup, fun sym hsym => ?_⟩
  · exact hout.mono fun sym hsym hd => houter sym hsym (Nat.le_of_lt hd)
  · obtain ⟨hv, hd, hnear⟩ := hmem sym hsym
    refine ⟨houter sym hv hd, hnear.imp_right fun h => ?_⟩
    simpa [List.headD_eq_head?_getD, List.head?_eq_getElem?] using h

/-- The body of a lambda is typed by its parameters and captures alone, and by its parameters and
all that suffices around it. -/
theorem steps_lambdaBody {m : Mark} {ps : List Param} {types : List Ty} {body : Expr}
    {wanted : Option Ty} (hlen : types.length = ps.length)
    (htypes : ∀ t ∈ types, t.Complete ∧ t ≠ .unit)
    (hbody : Steps Φ (env.inside m) (body.check wanted) (fun p => p.2.Complete)
      fun p Γ lo hi => p.1.Typed Φ env.routine Γ lo hi p.2) :
    Steps Φ env
      (inLambda m do
        let ps ← declareParams ps types
        let (body, found) ← body.check wanted
        return (ps, body, found))
      (fun p => p.1.2.2.Complete)
      (fun p Γ lo hi => ∃ syms, Param.Declare env.routine lo p.1.1 syms ∧
        syms.map Symbol.ty = types ∧ (∀ c ∈ p.2, c ∈ Γ) ∧ (p.2.map Symbol.id).Nodup ∧
        p.1.2.1.Typed Φ env.routine (syms ++ p.2) (lo + syms.length) hi p.1.2.2 ∧
        p.1.2.1.Typed Φ env.routine (syms ++ Γ) (lo + syms.length) hi p.1.2.2) := by
  intro s hs
  unfold inLambda inScope
  simp only [ends_bind, ends_modify, ends_withReader, ends_get, ends_set, ends_pure]
  refine (ends_declareParams (hs.enterLambda m) hlen htypes).mono ?_
  rintro ps' s₁ ⟨syms, hps, htys, -, hdep, hnext, hcap, hvars, -, hs₁⟩
  refine (hbody s₁ hs₁).mono ?_
  rintro ⟨body', found⟩ s₂ ⟨hfound, hext, hs₂, htyped⟩
  have hvars₂ : ∀ sym, sym ∈ s₂.scopes.vars ↔ sym ∈ syms ∨ sym ∈ s.scopes.vars := by
    intro sym
    rw [hext.scopes, hvars]
    simp
  have hle : s.next + syms.length ≤ s₂.next := hnext ▸ hext.next
  obtain ⟨c, rest, hcr⟩ : ∃ c rest, s₂.captures = c :: rest := by
    have := hs₂.captured
    cases hcs : s₂.captures with
    | nil => rw [hcs] at this; exact this.elim
    | cons c rest => exact ⟨c, rest, rfl⟩
  have hgrow : Grow s.captures rest := by
    have := hext.captures
    rw [hcap, hcr] at this
    exact this.tail
  obtain ⟨hout, hnodup, hmem⟩ := hs.leaveLambda hs₂ (by omega) hvars₂ hdep hcr
  -- Whatever holds the parameters and the captures suffices for the body.
  have hcover : ∀ Δ, (∀ x ∈ syms, x ∈ Δ) → (∀ x ∈ c, x ∈ Δ) → Covers (env.inside m) s₂ Δ := by
    intro Δ hΔs hΔc sym hsym hd
    rcases hd with hd | hd
    · rcases (hvars₂ sym).mp hsym with hp | hv
      · exact hΔs sym hp
      · have := hs.depth sym hv
        change sym.depth = env.depth + 1 at hd
        omega
    · rw [hcr] at hd
      exact hΔc sym hd
  refine ⟨hfound, ⟨rfl, by change s.next ≤ s₂.next; omega, ?_⟩, ?_, fun Γ hΓ => ?_⟩
  · rw [hcr]
    exact hgrow
  · rw [hcr]
    exact hout
  · rw [hcr] at hΓ ⊢
    have hcΓ : ∀ x ∈ c, x ∈ Γ := fun x hx => hΓ x (hmem x hx).1 (hmem x hx).2
    have htyped' : ∀ Δ, (∀ x ∈ syms, x ∈ Δ) → (∀ x ∈ c, x ∈ Δ) →
        body'.Typed Φ env.routine Δ (s.next + syms.length) s₂.next found := by
      intro Δ hΔs hΔc
      have := htyped Δ (hcover Δ hΔs hΔc)
      rwa [hnext] at this
    refine ⟨syms, hps, htys, ?_, ?_, ?_, ?_⟩
    · simpa using hcΓ
    · rw [List.headD_cons, List.map_reverse]
      exact List.pairwise_reverse.mpr (hnodup.imp Ne.symm)
    · exact htyped' _ (by simp +contextual) (by simp +contextual)
    · exact htyped' _ (by simp +contextual) fun x hx => List.mem_append_right _ (hcΓ x hx)

end Typing

open Typing

/-! ## Expressions -/

theorem Ty.of_elementScalar? {t : Ty} {s : Scalar} (h : t.elementScalar? = some s) :
    t = .scalar s ∧ s ≠ .unit := by
  unfold Ty.elementScalar? at h
  split at h
  · cases h
  · cases h
    exact ⟨rfl, by rename_i hne; exact fun hs => hne (by rw [hs])⟩
  · cases h

theorem Ty.assignable_self (t : Ty) : t.assignable t = true := by
  simp [Ty.assignable]

theorem Ty.assignable_any {t : Ty} (h : t ≠ .unit) : t.assignable .any = true := by
  simp [Ty.assignable, h]

theorem Ty.of_element? {t : Ty} {s : Scalar} (h : t.element? = some s) :
    ∃ kind : CollectionKind, t = kind.ty s := by
  cases t with
  | array e => cases h; exact ⟨.array, rfl⟩
  | list e => cases h; exact ⟨.list, rfl⟩
  | scalar e => cases h
  | fn params result => cases h

theorem Typing.wantedElement?_complete {kind : CollectionKind} {wanted : Option Ty} {s : Scalar}
    (hw : Ty.CompleteOption wanted ∨ wanted = none) (h : wantedElement? kind wanted = some s) :
    s.isElement := by
  unfold wantedElement? at h
  split at h
  · split at h
    · cases h
      exact hw.resolve_right (by simp)
    · cases h
  · split at h
    · cases h
      exact hw.resolve_right (by simp)
    · cases h
  · cases h

section Check

variable {Φ : Signatures}

mutual

/-- What comes out of checking an expression is well-typed. -/
theorem Expr.steps_check {env : Env} {w : Option Ty}
    (hw : Ty.CompleteOption w ∨ w = none) : (e : Expr) → e.WellFormed →
    Steps Φ env (e.check w) (fun p => p.2.Complete)
      fun p Γ lo hi => p.1.Typed Φ env.routine Γ lo hi p.2
  | .int m n, _ => .pure (by simp [Ty.Complete]) fun _ _ => ⟨rfl, rfl, rfl⟩
  | .bool m b, _ => .pure (by simp [Ty.Complete]) fun _ _ => ⟨rfl, rfl, rfl⟩
  | .str m text splices, h => by
    refine (Splice.steps_checkList splices h).bind fun ss _ => ?_
    exact .pure (by simp [Ty.Complete]) fun _ _ _ hss => ⟨rfl, rfl, hss⟩
  | .read t, h => (Target.steps_check t h).bind fun p hp => .pure hp.1 fun _ _ _ ht => ht
  | .arith m op l r, h => by
    refine (Expr.steps_check (.inr rfl) l h.2.1).bind fun p _ => ?_
    refine (Expr.steps_check (.inr rfl) r h.2.2).bind fun q _ => ?_
    refine Steps.ite (fun ht => ?_) fun _ => steps_reject (by simp)
    refine .pure (by simp [Ty.Complete]) fun Γ hi mid hr lo hl => ?_
    exact ⟨rfl, rfl, h.1, mid, ht.1 ▸ hl, ht.2 ▸ hr⟩
  | .compare m op l r, h => by
    refine (Expr.steps_check (.inr rfl) l h.2.1).bind fun p _ => ?_
    refine (Expr.steps_check (.inr rfl) r h.2.2).bind fun q _ => ?_
    refine Steps.ite (fun ht => ?_) fun _ => steps_reject (by simp)
    refine .pure (by simp [Ty.Complete]) fun Γ hi mid hr lo hl => ?_
    obtain ⟨p, lt⟩ := p
    obtain ⟨q, rt⟩ := q
    have heq : lt = rt := by
      simp only [comparable, Bool.and_eq_true, beq_iff_eq] at ht
      exact ht.1
    subst heq
    exact ⟨rfl, rfl, h.1, mid, lt, ht, hl, hr⟩
  | .logic m op l r, h => by
    refine (Expr.steps_check (.inr rfl) l h.2.1).bind fun p _ => ?_
    refine (Expr.steps_check (.inr rfl) r h.2.2).bind fun q _ => ?_
    refine Steps.ite (fun ht => ?_) fun _ => steps_reject (by simp)
    refine .pure (by simp [Ty.Complete]) fun Γ hi mid hr lo hl => ?_
    exact ⟨rfl, rfl, h.1, mid, ht.1 ▸ hl, ht.2 ▸ hr⟩
  | .not m e, h => by
    refine (Expr.steps_check (.inr rfl) e h).bind fun p _ => ?_
    refine Steps.ite (fun ht => ?_) fun _ => steps_reject (by simp)
    exact .pure (by simp [Ty.Complete]) fun Γ hi lo he => ⟨rfl, rfl, ht ▸ he⟩
  | .incDec e, h => by
    refine (IncDec.steps_check e h).bind fun p hp => ?_
    exact .pure (by rw [hp]; simp [Ty.Complete]) fun Γ hi lo he => ⟨hp, he⟩
  | .collection m kind es, h => by
    refine Steps.bind (Expr.steps_checkElements (by simp) es h) fun p hp => ?_
    obtain ⟨es', found⟩ := p
    dsimp only
    cases hel : (if wantedElement? kind w = some .any then wantedElement? kind w
        else found.or (wantedElement? kind w)) with
    | none =>
      exact (steps_reject (by simp) (C := fun _ => False) (P := fun _ _ _ _ => False)).bind
        fun _ h => h.elim
    | some s =>
      have hs : s.isElement := by
        split at hel
        · exact wantedElement?_complete hw hel
        · rcases Option.or_eq_some_iff.mp hel with hf | ⟨-, hwant⟩
          · exact hp.1 s hf
          · exact wantedElement?_complete hw hwant
      refine .pure (kind.complete_ty hs) fun Γ hi lo hes => ⟨rfl, s, hs, rfl, hes s ?_ ?_⟩
      · intro hany
        rw [beq_iff_eq] at hany
        rw [if_pos hany, hany] at hel
        exact (Option.some.inj hel).symm
      · rintro hany f rfl
        rw [beq_eq_false_iff_ne] at hany
        rw [if_neg hany] at hel
        exact (Option.some.inj hel).symm
  | .sized m kind size gen, h => by
    refine (Expr.steps_check (.inl (by simp [Ty.CompleteOption, Ty.Complete])) size h.1).bind
      fun p _ => ?_
    refine steps_requireType.bind fun _ hsize => ?_
    refine Steps.unless (by simp) fun hlen => ?_
    refine (Lambda.steps_check (by simp [Ty.AllComplete, Ty.Complete]) (.inr rfl) gen h.2).bind
      fun q hq => ?_
    obtain ⟨gen', types, result⟩ := q
    obtain ⟨htypes, hcomplete, hresult⟩ := hq
    dsimp only at htypes hcomplete hresult ⊢
    refine Steps.unless (by simp) fun hfirst => ?_
    have hone : types = [.int] := by
      match types, htypes, hfirst with
      | [t], _, hfirst => simpa using hfirst
      | [], htypes, _ => simp at htypes; omega
      | _ :: _ :: _, htypes, _ => simp at htypes; omega
    cases hs : result.elementScalar? with
    | none => exact steps_reject (by simp)
    | some s =>
      obtain ⟨rfl, hsu⟩ := Ty.of_elementScalar? hs
      have helem : (if wantedElement? kind w = some .any then Scalar.any else s).isElement := by
        split
        · exact ⟨by decide, by decide⟩
        · exact ⟨hsu, by simpa [Ty.Complete] using hresult⟩
      refine .pure (kind.complete_ty helem) fun Γ hi mid hgen mid' hmid lo hlo => ?_
      refine ⟨rfl, _, mid, helem, rfl, ?_, hgen.2 rfl hone _ ?_ (by simpa using hsu)⟩
      · rw [← hmid, ← hsize]
        exact hlo
      · split
        · exact Ty.assignable_any (by simpa using hsu)
        · exact Ty.assignable_self _
  | .lambda l, h => by
    have hparts : Ty.AllComplete (functionParts w).1 ∧
        (Ty.CompleteOption (functionParts w).2 ∨ (functionParts w).2 = none) := by
      match w, hw with
      | some (.fn params result), .inl hw => exact ⟨hw.1, .inl hw.2⟩
      | some (.scalar _), _ | some (.array _), _ | some (.list _), _ | none, _ =>
        exact ⟨trivial, .inr rfl⟩
    refine (Lambda.steps_check hparts.1 hparts.2 l h).bind fun p hp => ?_
    obtain ⟨l', types, result⟩ := p
    exact .pure ⟨Ty.allComplete_iff.mpr hp.2.1, hp.2.2⟩ fun Γ hi lo hl => hl.1
  | .call c, h => (Call.steps_check c h).bind fun p hp => .pure hp fun _ _ _ hc => hc
  | .range r, _ => steps_reject (by simp)

theorem Expr.steps_checkElements {env : Env} {lexeme : String} {any : Bool} {first : Option Scalar}
    (hf : ∀ s, first = some s → s.isElement) : (es : List Expr) → Expr.AllWellFormed es →
    Steps Φ env (Expr.checkElements lexeme any first es)
      (fun p => (∀ s, p.2 = some s → s.isElement) ∧ ∀ s, first = some s → p.2 = some s)
      (fun p Γ lo hi => ∀ s, (any = true → s = .any) → (any = false → ∀ f, p.2 = some f → s = f) →
        Expr.ElementsTyped Φ env.routine Γ lo hi s p.1)
  | [], _ => .pure ⟨hf, fun _ h => h⟩ fun _ _ _ _ _ => rfl
  | e :: es, h => by
    refine (Expr.steps_check (.inr rfl) e h.1).bind fun p hp => ?_
    obtain ⟨e', t⟩ := p
    dsimp only at hp ⊢
    cases hs : t.elementScalar? with
    | none => exact steps_reject (by simp)
    | some s =>
      obtain ⟨rfl, hsu⟩ := Ty.of_elementScalar? hs
      have hse : s.isElement := ⟨hsu, by simpa [Ty.Complete] using hp⟩
      have hnext : ∀ x, first.or (some s) = some x → x.isElement := by
        intro x hx
        rcases Option.or_eq_some_iff.mp hx with hx | ⟨-, hx⟩
        · exact hf x hx
        · cases hx
          exact hse
      -- An element of another type than those before it goes through only if any will do.
      have hrest (hsame : any = false → ∀ f, first = some f → f = s) : Steps Φ env (do
          let (es, found) ← Expr.checkElements lexeme any (first.or (some s)) es
          return (e' :: es, found))
          (fun p => (∀ s, p.2 = some s → s.isElement) ∧ ∀ s, first = some s → p.2 = some s)
          (fun p Γ mid hi => ∀ lo, e'.Typed Φ env.routine Γ lo mid (.scalar s) → ∀ x,
            (any = true → x = .any) → (any = false → ∀ f, p.2 = some f → x = f) →
            Expr.ElementsTyped Φ env.routine Γ lo hi x p.1) := by
        refine (Expr.steps_checkElements hnext es h.2).bind fun q hq => ?_
        obtain ⟨es', found⟩ := q
        refine .pure ⟨hq.1, fun x hx => hq.2 x (by simp [hx])⟩ fun Γ hi mid hes lo he x hx hx' => ?_
        refine ⟨mid, .scalar s, he, ?_, by simpa using hsu, hes x hx hx'⟩
        cases any with
        | true => rw [hx rfl]; exact Ty.assignable_any (by simpa using hsu)
        | false =>
          have hxs : x = s := by
            cases first with
            | none => exact hx' rfl s (hq.2 s rfl)
            | some f =>
              obtain rfl := hsame rfl f rfl
              exact hx' rfl f (hq.2 f rfl)
          rw [hxs]
          exact Ty.assignable_self _
      cases first with
      | none => exact hrest (by simp)
      | some f =>
        refine Steps.unless (by simp) fun hmix => hrest ?_
        rintro rfl _ ⟨⟩
        simpa using hmix

theorem Splice.steps_checkList {env : Env} {size pos : Nat} : (splices : List Splice) →
    Splice.WellFormed size pos splices →
    Steps Φ env (Splice.checkList splices) (fun _ => True)
      fun ss Γ lo hi => Splice.Typed Φ env.routine Γ lo hi size pos ss
  | [], _ => .pure trivial fun _ _ => rfl
  | .mk offset e :: splices, h => by
    refine (Expr.steps_check (.inr rfl) e h.2.1).bind fun p _ => ?_
    refine Steps.unless (by simp) fun hp => ?_
    refine (Splice.steps_checkList splices h.2.2).bind fun ss _ => ?_
    refine .pure trivial fun Γ hi mid hss lo he => ?_
    exact ⟨h.1, mid, p.2, he, by simpa using hp, hss⟩

theorem Target.steps_check {env : Env} : (t : Target) → t.WellFormed →
    Steps Φ env t.check
      (fun p => p.2.Complete ∧ ((∀ id, t ≠ .name id) → ∀ id, p.1 ≠ .name id))
      fun p Γ lo hi => p.1.Typed Φ env.routine Γ lo hi p.2
  | .name id, _ => (steps_checkRead id).bind fun _ hp =>
    .pure ⟨hp, fun h => absurd rfl (h id)⟩ fun _ _ _ h => ⟨h.2.1, h.1⟩
  | .element m base index, h => by
    refine (steps_checkRead base).bind fun p hp => ?_
    obtain ⟨base', bt⟩ := p
    dsimp only at hp ⊢
    cases hs : bt.element? with
    | none => exact steps_reject (by simp)
    | some s =>
      have hint : Ty.CompleteOption (some .int) := by simp [Ty.CompleteOption, Ty.Complete]
      refine (Expr.steps_check (.inl hint) index h).bind fun q _ => ?_
      refine steps_requireType.bind fun _ hq => ?_
      refine .pure ⟨(hp.of_element? hs).2, by simp⟩ fun Γ hi n hn mid hi' lo hb => ?_
      obtain ⟨kind, rfl⟩ := Ty.of_element? hs
      obtain ⟨rfl, -, hholds⟩ := hb
      obtain rfl := hn
      exact ⟨rfl, kind, s, rfl, hholds s rfl, hq ▸ hi'⟩

theorem Target.steps_checkInt {env : Env} {op : String} : (t : Target) → t.WellFormed →
    Steps Φ env (t.checkInt op) (fun p => p.2 = .int)
      fun p Γ lo hi => p.1.Updates Φ env.routine Γ lo hi
  | .name id, _ => by
    refine (steps_checkWritable id false).bind fun sym _ => ?_
    refine Steps.unless (by simp) fun hty => ?_
    refine .pure (by simpa using hty) fun Γ n lo hn => ⟨?_, hn.1⟩
    exact ⟨sym, hn.2, rfl, by simpa using hty, by simpa using hty⟩
  | .element m base index, h => by
    refine (steps_checkRead base).bind fun p hp => ?_
    obtain ⟨base', bt⟩ := p
    dsimp only at hp ⊢
    cases hs : bt.element? with
    | none => exact steps_reject (by simp)
    | some s =>
      have hint : Ty.CompleteOption (some .int) := by simp [Ty.CompleteOption, Ty.Complete]
      refine (Expr.steps_check (.inl hint) index h).bind fun q _ => ?_
      refine steps_requireType.bind fun _ hq => ?_
      refine Steps.unless (by simp) fun hty => ?_
      obtain rfl : s = .int := by simpa using hty
      refine .pure rfl fun Γ hi n hn mid hi' lo hb => ?_
      obtain ⟨kind, rfl⟩ := Ty.of_element? hs
      obtain ⟨rfl, -, hholds⟩ := hb
      obtain rfl := hn
      exact ⟨rfl, kind, hholds .int rfl, hq ▸ hi'⟩

theorem IncDec.steps_check {env : Env} : (e : IncDec) → e.WellFormed →
    Steps Φ env e.check (fun p => p.2 = .int) fun p Γ lo hi => p.1.Typed Φ env.routine Γ lo hi
  | .mk m op before t, h => by
    refine (Target.steps_checkInt t h).bind fun p hp => .pure hp fun _ _ _ ht => ⟨?_, ht⟩
    exact congrArg some hp

theorem Lambda.steps_check {env : Env} {params : List Ty} {wanted : Option Ty}
    (hp : Ty.AllComplete params) (hw : Ty.CompleteOption wanted ∨ wanted = none) :
    (l : Lambda) → l.WellFormed →
    Steps Φ env (l.check params wanted)
      (fun p => p.2.1.length = l.params.length ∧ (∀ t ∈ p.2.1, t.Complete) ∧ p.2.2.Complete)
      (fun p Γ lo hi => p.1.Typed Φ env.routine Γ lo hi (.fn p.2.1 (some p.2.2)) ∧
        (wanted = none → p.2.1 = [.int] → ∀ s, p.2.2.assignable (.scalar s) = true →
          p.2.2 ≠ .unit → p.1.Generates Φ env.routine Γ lo hi s))
  | .mk m ps body _, h => by
    have hwanted : ∀ t, some t ∈ wantedParams ps.length params → t.Complete := by
      intro t ht
      unfold wantedParams at ht
      split at ht
      · exact Ty.allComplete_iff.mp hp t (by simpa using ht)
      · simp at ht
    refine (steps_lambdaParamTypes h.1 hwanted).bind fun types htypes => ?_
    refine (steps_lambdaBody htypes.1 htypes.2 (Expr.steps_check hw body h.2)).bind fun q hq => ?_
    obtain ⟨⟨ps', body', found⟩, caps⟩ := q
    have hcomplete : ∀ t ∈ types, t.Complete := fun t ht => (htypes.2 t ht).1
    cases wanted with
    | none =>
      refine .pure ⟨htypes.1, hcomplete, hq⟩ fun Γ hi mid hl lo hlo => ?_
      obtain ⟨syms, hps, rfl, hcaps, hnodup, hown, hall⟩ := hl
      obtain rfl := hlo
      refine ⟨⟨rfl, syms, found, found, hps, rfl, hq, hcaps, hnodup, hown,
        .inl (Ty.assignable_self _)⟩, fun _ hone s hs hu => ?_⟩
      obtain ⟨sym, rfl, hty⟩ := List.map_eq_singleton_iff.mp hone
      exact ⟨sym, found, hps, hty, hall, hs, hu⟩
    | some want =>
      refine Steps.unless (by simp) fun hfit => ?_
      refine .pure ⟨htypes.1, hcomplete, hw.resolve_right (by simp)⟩ fun Γ hi mid hl lo hlo => ?_
      obtain ⟨syms, hps, rfl, hcaps, hnodup, hown, -⟩ := hl
      obtain rfl := hlo
      refine ⟨⟨rfl, syms, want, found, hps, rfl, hw.resolve_right (by simp), hcaps, hnodup, hown,
        ?_⟩, by simp⟩
      simp only [Bool.and_eq_true, Bool.not_eq_true', decide_eq_true_eq, not_and,
        Decidable.not_not] at hfit
      cases ha : found.assignable want with
      | true => exact .inl rfl
      | false => exact .inr (hfit ha)

theorem Call.steps_check {env : Env} : (c : Call) → c.WellFormed →
    Steps Φ env c.check (fun p => p.2.Complete)
      fun p Γ lo hi => p.1.Typed Φ env.routine Γ lo hi p.2
  | .mk m callee args, h => by
    refine (steps_resolve? callee.name).bind fun o ho => ?_
    cases o with
    | none => exact steps_reject (by simp)
    | some sym =>
      obtain ⟨hc, -, hfun⟩ := ho sym rfl
      dsimp only
      cases hty : sym.ty with
      | scalar s => exact steps_reject (by simp)
      | array s => exact steps_reject (by simp)
      | list s => exact steps_reject (by simp)
      | fn params result =>
        rw [hty] at hc
        refine Steps.unless (by simp) fun hlen => ?_
        refine (Expr.steps_checkArgs args params h hc.1 (by simpa using hlen)).bind fun args' _ => ?_
        cases result with
        | none => exact hc.2.elim
        | some t =>
          refine .pure hc.2 fun Γ hi lo hargs lo' hlo => ?_
          obtain ⟨rfl, hvar⟩ := hlo
          refine ⟨rfl, hc.2, params, ?_, hargs⟩
          cases hf : sym.isFunction with
          | true => exact .inr ⟨sym, rfl, hf, hty, hty ▸ (hfun hf).1, rfl⟩
          | false => exact .inl ⟨sym, hvar sym rfl hf, rfl, hty, rfl⟩

theorem Expr.steps_checkArgs {env : Env} {name : String} {number : Nat} : (es : List Expr) →
    (wants : List Ty) → Expr.AllWellFormed es → Ty.AllComplete wants → es.length = wants.length →
    Steps Φ env (Expr.checkArgs name number es wants) (fun _ => True)
      fun es' Γ lo hi => Expr.ArgsTyped Φ env.routine Γ lo hi wants es'
  | [], [], _, _, _ => .pure trivial fun _ _ => rfl
  | e :: es, want :: wants, h, hc, hlen => by
    refine (Expr.steps_check (w := some want) (.inl hc.1) e h.1).bind fun p _ => ?_
    refine steps_requireValue.bind fun _ hp => ?_
    refine Steps.unless (by simp) fun hfit => ?_
    refine (Expr.steps_checkArgs es wants h.2 hc.2 (by simpa using hlen)).bind fun es' _ => ?_
    refine .pure trivial fun Γ hi mid hes mid' hmid lo he => ?_
    exact ⟨mid, p.2, hmid ▸ he, by simpa using hfit, hp, hes⟩
  | [], _ :: _, _, _, hlen => by simp at hlen
  | _ :: _, [], _, _, hlen => by simp at hlen

end

end Check

end Kotlet

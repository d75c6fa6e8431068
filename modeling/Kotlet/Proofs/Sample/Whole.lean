import Kotlet.Proofs.Sample.Statements

/-!
# Sample programs pass the checker and end

* `Offers` : scopes in which functions over numbers are found by their names;
* `IsFunction.ends_check`, `AreFunctions.ends_check` : functions can be called once they are checked;
* `declareFunctions_of_areFunctions` : their names do not clash;
* `Program.check_sample` : whole programs.
-/

namespace Kotlet
namespace Sample

open Typing

variable {Φ : Signatures} {env : Env} {F F' : Arities} {S : List Var} {G : Scope} {s : State} {k n : Nat}

/-! ## Functions -/

/-- The functions are found by their names. -/
def Offers (F : Arities) (functions : Kotlet.Scope) : Prop :=
  ∀ f ∈ F, ∃ sym, functions.find? f.1 = some sym ∧ sym.isFunction = true ∧ sym.name = f.1 ∧
    sym.ty = .fn (List.replicate f.2 .int) (some .int)

/-- At the start of a routine functions are known and nothing else. -/
theorem Offers.knows {functions : Kotlet.Scope} (h : Offers F functions) (hf : FunctionScope Φ functions)
    (kind : ScopeKind) : Knows F [] [] ⟨⟨kind, []⟩, [functions]⟩ where
  symbols := hf.vars kind
  nodup := List.nodup_nil
  vars := nofun
  functions f hfF := by
    obtain ⟨sym, hfind, hsym⟩ := h f hfF
    refine ⟨sym, ?_, hsym⟩
    unfold Scopes.find?
    rw [List.findSome?_cons, List.findSome?_cons, hfind]
    rfl
  locals := nofun

theorem paramTypes_eq {ps : List Param} (h : ∀ p ∈ ps, p.ty = some .int) :
    (ps.map fun p => p.ty.getD .unit) = List.replicate ps.length .int := by
  rw [← List.map_const']
  exact List.map_congr_left fun p hp => by rw [h p hp]; rfl

/-- Parameters that are numbers. -/
theorem ends_declareParams {ps : List Param} : ∀ {S : List Var} {G : Scope} {s : State},
    Fits Φ env F S G s → (∀ p ∈ ps, IsFresh F S p.name.name) → (ps.map fun p => p.name.name).Nodup →
    Ends (declareParams ps (List.replicate ps.length .int)) env s (fun _ => False) fun ps' s' =>
      ∃ syms G', Param.Declare env.routine s.next ps' syms ∧ (∀ sym ∈ syms, sym.ty = .int) ∧
        ps'.length = ps.length ∧ (∀ sym ∈ Scope.symbols G', sym ∈ syms ∨ sym ∈ G.symbols) ∧
        s.next ≤ s'.next ∧ Fits Φ env F (paramVars ps S) G' s' := by
  induction ps with
  | nil =>
    intro S G s hs _ _
    exact ⟨[], G, trivial, by simp, rfl, fun _ h => .inr h, Nat.le_refl _, hs⟩
  | cons p ps ih =>
    intro S G s hs hfresh hnodup
    obtain ⟨hp, hnodup⟩ := List.nodup_cons.mp hnodup
    rw [List.length_cons, List.replicate_succ]
    unfold declareParams
    rw [ends_bind]
    refine (ends_declare_number hs (hfresh p List.mem_cons_self) .parameter (by decide) true _).mono ?_
    rintro sym s₁ ⟨⟨-, hty, -⟩, hd, hnext, -, -, hs₁⟩
    have hfresh' : ∀ q ∈ ps, IsFresh F (⟨p.name.name, .number, false⟩ :: S) q.name.name := by
      intro q hq
      obtain ⟨hvars, hfunctions⟩ := hfresh q (List.mem_cons_of_mem _ hq)
      refine ⟨List.forall_mem_cons.mpr ⟨fun heq => hp ?_, hvars⟩, hfunctions⟩
      exact List.mem_map.mpr ⟨q, hq, heq.symm⟩
    rw [ends_bind]
    refine (ih hs₁ hfresh' hnodup).mono ?_
    rintro ps' s₂ ⟨syms, G', hps, htys, hlen, hG, hnext', hs₂⟩
    refine ⟨sym :: syms, G', ⟨rfl, hd, hnext ▸ hps⟩, List.forall_mem_cons.mpr ⟨hty, htys⟩,
      congrArg (· + 1) hlen, fun x hx => ?_, by omega, hs₂⟩
    rcases hG x hx with hx | hx
    · exact .inl (List.mem_cons_of_mem _ hx)
    · rcases List.mem_cons.mp hx with rfl | hx
      · exact .inl List.mem_cons_self
      · exact .inr hx

theorem passes_return {sc : Scopes} {tok : Token} {e : Expr} {name : String} (hk : Knows F S G sc)
    (henv : env.enclosing = some ⟨name, .int⟩) (he : IsNumber F S k e) :
    Passes Φ env sc (checkReturn tok (some e)) (fun _ => True) fun st Γ =>
      ∃ e', st = .ret tok (some e') ∧ Gives F Γ k 0 e' .int := by
  unfold checkReturn
  refine passes_env.bind ?_
  rintro _ rfl
  simp only [henv]
  rw [if_neg (by decide)]
  refine (passes_number he hk _).typed fun e' => ?_
  rw [if_neg (by simp [Ty.assignable_self])]
  exact .pure trivial fun Γ hgives _ => ⟨e', rfl, hgives⟩

theorem listAlwaysReturns_snoc (ss : List Stmt) (tok : Token) (e : Option Expr) :
    listAlwaysReturns (ss ++ [.ret tok e]) = true := by
  induction ss with
  | nil => rfl
  | cons s ss ih =>
    rw [List.cons_append, listAlwaysReturns, ih, Bool.or_true]

/-- A function over numbers can be called once it is checked. -/
theorem IsFunction.ends_check {c : Nat} {f : FunDecl} (h : IsFunction F c f) (hd : env.depth = 0)
    (he : env.enclosing = none) (hf : FunctionScope Φ env.functions) (hoffers : Offers F env.functions)
    {sym : Symbol} (hfind : env.functions.find? f.name.name = some sym) (hs : Sound Φ env s)
    (hkind : s.scopes.inner.kind = .script) :
    Ends f.check env s (fun _ => False) fun f' s' => f'.name.name = f.name.name ∧ s'.scopes = s.scopes ∧
      s'.next = s.next ∧ Sound Φ env s' ∧ ∀ (functions : List FunDecl) (rank : Nat),
        Provides functions rank F → Callable functions (rank + c + 1) 0 f.params.length (.function f') := by
  cases h with
  | @mk k k' S tok tok' brace close name params ss e hk hk' hparams hdistinct hfresh hbody he' =>
    replace hfind : env.functions.find? name.name = some sym := hfind
    have htypes := paramTypes_eq hparams
    unfold FunDecl.check
    simp only [ends_bind, ends_read, hfind, ends_get]
    rw [if_neg (by simp [he, hkind]), htypes]
    unfold inFunction
    simp only [ends_bind, ends_get, ends_read, ends_set, ends_withReader, ends_modify, ends_pure]
    have hinner : Fits Φ (env.inFunction sym tok .int) F [] []
        { s with scopes := ⟨⟨.function, []⟩, [env.functions]⟩, next := 1 } :=
      ⟨hs.enterFunction hf hd sym tok .int, hoffers.knows hf .function⟩
    refine (ends_declareParams hinner hfresh hdistinct).mono ?_
    rintro ps' s₁ ⟨syms, G₁, hps, htys, hlen, hG, -, hs₁⟩
    have ho : Stands false (env.inFunction sym tok .int) := ⟨rfl, by simp⟩
    rw [checkList_append, ends_bind]
    refine (hbody.accepted Φ _ s₁ G₁ [] ho hs₁).mono ?_
    rintro r s₂ ⟨ss', rfl, -, -, G₂, hs₂, hruns⟩
    unfold Stmt.checkList Stmt.check
    rw [ends_bind]
    refine ((passes_return hs₂.knows rfl he').run hs₂).mono ?_
    rintro _ s₃ ⟨⟨-, e₁, rfl, hgives⟩, -, -, hs₃⟩
    unfold Stmt.checkList
    simp only [List.reverse_cons, List.reverse_reverse, ends_pure, listAlwaysReturns_snoc]
    rw [if_neg (by simp)]
    refine ⟨rfl, trivial, trivial, ⟨hs.context, hs.depth, hs.functions, ?_⟩, fun functions rank hprovides => ?_⟩
    · have hcap := hs₃.sound.captured
      rw [hd]
      exact hcap.mono fun _ _ h => absurd h (Nat.not_lt_zero _)
    · have hsize : max k k' < span := Nat.max_lt.mpr ⟨hk, hk'⟩
      have hparams' : ∀ x ∈ G₁.symbols, x ∈ syms := fun x hx => (hG x hx).resolve_right (by simp)
      have hcall := callable_function
        (.mk tok { name with sym := some sym } ps' .int (.mk brace (r ++ [.ret tok' (some e₁)]) close))
        hsize hps htys rfl hparams' (hruns.mono (Nat.le_refl _) (Nat.le_max_left k k'))
        (hgives.mono (Nat.le_max_right k k')) hprovides
      exact hlen ▸ hcall

theorem AreFunctions.subset {c : Nat} {fs : List FunDecl} (h : AreFunctions c F fs F') : ∀ g ∈ F, g ∈ F' := by
  induction h with
  | nil => exact fun _ h => h
  | cons _ _ _ ih => exact fun g hg => ih g (List.mem_cons_of_mem _ hg)

/-- Functions can be called once they are checked, each as deep as those before it and once more. -/
theorem AreFunctions.ends_check {c : Nat} {fs : List FunDecl} (h : AreFunctions c F fs F')
    (hd : env.depth = 0) (he : env.enclosing = none) (hf : FunctionScope Φ env.functions)
    (hoffers : Offers F' env.functions) : ∀ (acc : List Stmt) (s : State), Sound Φ env s →
      s.scopes.inner.kind = .script →
      Ends (Stmt.checkList acc (fs.map .function)) env s (fun _ => False) fun r s' =>
        ∃ fs' : List FunDecl, r = acc.reverse ++ fs'.map .function ∧
          fs'.map (fun f => f.name.name) = fs.map (fun f => f.name.name) ∧ s'.scopes = s.scopes ∧
          s'.next = s.next ∧ Sound Φ env s' ∧ ∀ (functions : List FunDecl) (rank : Nat),
            (∀ f ∈ fs', Eval.functionOf? functions f.name.name = some f) → Provides functions rank F →
            Provides functions (rank + fs.length * (c + 1)) F' := by
  induction h with
  | nil =>
    intro acc s hs _
    exact ⟨[], by simp, rfl, rfl, rfl, hs, fun functions rank _ h => by simpa using h⟩
  | @cons F F' f fs hfun hname hfs ih =>
    intro acc s hs hkind
    have hself := hoffers _ (hfs.subset _ List.mem_cons_self)
    obtain ⟨sym, hfind, -⟩ := hself
    have hsub : Offers F env.functions := fun g hg => hoffers g (hfs.subset g (List.mem_cons_of_mem _ hg))
    rw [List.map_cons]
    unfold Stmt.checkList Stmt.check
    simp only [ends_bind, ends_pure]
    refine (hfun.ends_check hd he hf hsub hfind hs hkind).mono ?_
    rintro f' s₁ ⟨hname', hscopes, hnext, hs₁, hcall⟩
    refine (ih hoffers (.function f' :: acc) s₁ hs₁ (hscopes ▸ hkind)).mono ?_
    rintro r s₂ ⟨fs', rfl, hnames, hscopes', hnext', hs₂, hcalls⟩
    refine ⟨f' :: fs', by simp, by simp [hname', hnames], hscopes'.trans hscopes, hnext'.trans hnext, hs₂,
      fun functions rank hfound hprovides => ?_⟩
    obtain ⟨hfound', hfound⟩ := List.forall_mem_cons.mp hfound
    have hmore : Provides functions (rank + c + 1) ((f.name.name, f.params.length) :: F) := by
      refine List.forall_mem_cons.mpr ⟨⟨f', hname' ▸ hfound', hcall functions rank hprovides⟩, ?_⟩
      exact hprovides.mono (by omega)
    have hall := hcalls functions (rank + c + 1) hfound hmore
    have hrank : rank + c + 1 + fs.length * (c + 1) = rank + (f :: fs).length * (c + 1) := by
      rw [List.length_cons, Nat.succ_mul]
      omega
    exact hrank ▸ hall

/-! ## Programs -/

theorem find?_cons_self (scope : Kotlet.Scope) (sym : Symbol) :
    Kotlet.Scope.find? { scope with declared := sym :: scope.declared } sym.name = some sym := by
  unfold Kotlet.Scope.find?
  simp

theorem find?_cons_of_ne {scope : Kotlet.Scope} {sym : Symbol} {name : String} (h : sym.name ≠ name) :
    Kotlet.Scope.find? { scope with declared := sym :: scope.declared } name = scope.find? name := by
  unfold Kotlet.Scope.find?
  simp [h]

/-- The functions of a sample program are declared, since their names do not clash. -/
theorem declareFunctions_of_areFunctions {c : Nat} {fs : List FunDecl} (h : AreFunctions c F fs F') :
    ∀ (routine : Nat) (scope : Kotlet.Scope), Offers F scope →
      (∀ sym ∈ scope.declared, ∃ g ∈ F, g.1 = sym.name) →
      ∃ scope', declareFunctions routine scope fs = .ok scope' ∧ Offers F' scope' := by
  induction h with
  | nil => exact fun routine scope hoffers _ => ⟨scope, rfl, hoffers⟩
  | @cons F F' f fs hfun hname hfs ih =>
    intro routine scope hoffers hold
    have hnone : scope.find? f.name.name = none := by
      refine List.find?_eq_none.mpr fun sym hsym => ?_
      obtain ⟨g, hg, heq⟩ := hold sym hsym
      simpa [← heq] using hname g hg
    obtain ⟨hparams, hresult⟩ : (∀ p ∈ f.params, p.ty = some .int) ∧ f.result = .int := by
      cases hfun with
      | mk _ _ hparams => exact ⟨hparams, rfl⟩
    have hunit : unitParam? f.params = none :=
      List.find?_eq_none.mpr fun p hp => by simp [hparams p hp]
    have hsig : f.signature = .fn (List.replicate f.params.length .int) (some .int) := by
      rw [FunDecl.signature, FunDecl.paramTypes, paramTypes_eq hparams, hresult]
    unfold declareFunctions
    simp only [hnone, hunit, Option.isSome_none, Bool.false_eq_true, if_false]
    refine ih _ _ (List.forall_mem_cons.mpr ⟨?_, fun g hg => ?_⟩) (List.forall_mem_cons.mpr ⟨?_, fun sym hsym => ?_⟩)
    · exact ⟨_, find?_cons_self _ _, rfl, rfl, hsig⟩
    · obtain ⟨sym, hfind, hsym⟩ := hoffers g hg
      exact ⟨sym, (find?_cons_of_ne (fun heq => hname g hg heq.symm)).trans hfind, hsym⟩
    · exact ⟨_, List.mem_cons_self, rfl⟩
    · obtain ⟨g, hg, heq⟩ := hold sym hsym
      exact ⟨g, List.mem_cons_of_mem _ hg, heq⟩

theorem functionOf?_of_mem {fs : List FunDecl} (hnodup : (fs.map fun f => f.name.name).Nodup) {f : FunDecl}
    (hf : f ∈ fs) : Eval.functionOf? fs f.name.name = some f := by
  induction fs with
  | nil => cases hf
  | cons g gs ih =>
    obtain ⟨hg, hnodup⟩ := List.nodup_cons.mp hnodup
    unfold Eval.functionOf? at ih ⊢
    rw [List.find?_cons]
    rcases List.mem_cons.mp hf with rfl | hf
    · simp
    · have hne : g.name.name ≠ f.name.name := fun heq => hg (List.mem_map.mpr ⟨f, hf, heq.symm⟩)
      rw [beq_eq_false_iff_ne.mpr hne]
      exact ih hnodup hf

theorem functionsOf_map (fs : List FunDecl) : functionsOf (fs.map .function) = fs := by
  induction fs with
  | nil => rfl
  | cons f fs ih => rw [List.map_cons, functionsOf_cons, ih]; rfl

theorem scriptOf_map (fs : List FunDecl) (ss : List Stmt) :
    scriptOf (fs.map .function ++ ss) = scriptOf ss := by
  induction fs with
  | nil => rfl
  | cons f fs ih => exact ih

theorem scriptOf_of_plain {ss : List Stmt} (h : functionsOf ss = []) : scriptOf ss = ss := by
  induction ss with
  | nil => rfl
  | cons s ss ih =>
    rw [functionsOf_cons, List.append_eq_nil_iff] at h
    cases s with
    | function f => cases h.1
    | _ => exact congrArg _ (ih h.2)

/-- The statements of a sample program declare no function. -/
theorem Follows.functionsOf {b : Bool} {c k : Nat} {S S' : List Var} {ss : List Stmt}
    (h : Follows F b c k S ss S') : functionsOf ss = [] := by
  induction h with
  | append _ _ ih ih' => rw [functionsOf_append, ih, ih', List.append_nil]
  | weaken _ _ _ ih => exact ih
  | _ => rfl

/-- The checker accepts a sample program, and it runs without a fault. -/
theorem check_program {c c' : Nat} {fs : List FunDecl} {ss : List Stmt} {S' : List Var} {p : Program}
    (hw : p.WellFormed) (hp : p.stmts = fs.map .function ++ ss) (hfs : AreFunctions c [] fs F)
    (hss : Follows F false c' k [] ss S') : ∃ chk, p.check = .ok chk ∧ ∀ fuel,
      fs.length * (c + 1) + c' ≤ Machine.maxDepth → k + (fs.length * (c + 1) + c') * span ≤ fuel →
      (chk.runWith fuel).failure = none := by
  have hfunctions : p.functions = fs := by
    rw [Program.functions, hp, functionsOf_append, functionsOf_map, hss.functionsOf, List.append_nil]
  obtain ⟨functions, hdecl, hoffers⟩ :=
    declareFunctions_of_areFunctions hfs 1 ⟨.functions, []⟩ (by simp [Offers]) (by simp)
  rw [← hfunctions] at hdecl
  obtain ⟨hnodup, -⟩ := (declareFunctions_spec p.functions 1 ⟨.functions, []⟩).2 functions hdecl
  rw [hfunctions] at hnodup
  have hscope := functionScope_of_declareFunctions (fun f hf => hw.function hf) hdecl
  let env : Env := ⟨functions, 0, none, .program, 0, 0⟩
  have hsteps : Ends (Stmt.checkList [] p.stmts) env ⟨⟨⟨.script, []⟩, [functions]⟩, 0, [], []⟩
      (fun _ => False) fun r _ => ∃ fs' ss' G', r = fs'.map .function ++ ss' ∧ functionsOf ss' = [] ∧
        Proceeds F false c' k [] ss' G' ∧ Provides fs' (fs.length * (c + 1)) F := by
    rw [hp, checkList_append, ends_bind]
    refine (hfs.ends_check rfl rfl hscope hoffers [] _ hscope.sound rfl).mono ?_
    rintro _ s₁ ⟨fs', rfl, hnames, hscopes, hnext, hs₁, hprovides⟩
    have hknows : Knows F [] [] s₁.scopes := hscopes ▸ hoffers.knows hscope .script
    refine (hss.accepted _ _ s₁ [] _ ⟨rfl, nofun⟩ ⟨hs₁, hknows⟩).mono ?_
    rintro _ s₂ ⟨ss', rfl, hplain, -, G', -, hruns⟩
    refine ⟨fs', ss', G', by simp, hplain, hruns, ?_⟩
    have hfound : ∀ f ∈ fs', Eval.functionOf? fs' f.name.name = some f :=
      fun f hf => functionOf?_of_mem (hnames ▸ hnodup) hf
    simpa using hprovides fs' 0 hfound (by simp [Provides])
  cases hlist : Stmt.checkList [] p.stmts env ⟨⟨⟨.script, []⟩, [functions]⟩, 0, [], []⟩ with
  | error d => exact (hsteps.of_error hlist).elim
  | ok res =>
    obtain ⟨r, s⟩ := res
    obtain ⟨fs', ss', G', rfl, hplain, hruns, hprovides⟩ := hsteps.of_ok hlist
    refine ⟨⟨{ p with stmts := fs'.map .function ++ ss' }, fs', s.late⟩, ?_, fun fuel hroom hfuel => ?_⟩
    · unfold Program.check
      rw [hdecl]
      change (Stmt.checkList [] p.stmts env _ >>= _) = _
      rw [hlist]
      have hfs' : functionsOf (fs'.map .function ++ ss') = fs' := by
        rw [functionsOf_append, functionsOf_map, hplain, List.append_nil]
      simp [bind, Except.bind, pure, Except.pure, Program.functions, hfs']
    · have hdepth : Machine.start.depth = 0 := rfl
      have hready : Ready fs' F (fs.length * (c + 1)) (Scope.symbols []) .start :=
        ⟨hprovides, by simp [Triples, Machine.start], by simp, by omega⟩
      have hrun := hruns.runs fs' _ fuel .start hready (by omega) hfuel
      unfold Succeeds Eval.Ends at hrun
      unfold Checked.runWith Program.script
      dsimp only
      rw [scriptOf_map, scriptOf_of_plain hplain]
      cases hseq : Eval.sequence (Eval.stmt fs' fuel) ss' .start with
      | ok flow m => rfl
      | error f m =>
        rw [hseq] at hrun
        exact hrun.elim

end Sample
end Kotlet

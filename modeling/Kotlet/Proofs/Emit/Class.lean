import Kotlet.Emit.Class
import Kotlet.Proofs.Accepted
import Kotlet.Proofs.Emit.Show
import Kotlet.Proofs.Emit.Stmt

/-!
# Whole classes

The methods of a class are written one after another, and each has a name of its own.

* `methodName_inj`, `not_prefix_methodName` : the names of functions stay apart from each other, and
  from those of the methods that no function stands for;
* `ends_plainMethod`, `ends_functionMethod` and their kin : one method more;
* `ends_allMethods` : all of them. No step fails but for a limit of the format, and in the end every
  method is verified.
-/

namespace Kotlet
namespace Emit

open ClassFile

/-! ## Names -/

/-- The start of the names of lambdas. -/
def lambdaStem : List Char := "lambda$".toList

theorem ne_lambdaName {name : String} (h : ¬ lambdaStem <+: name.toList) (k : Nat) :
    name ≠ lambdaName k := by
  rintro rfl
  refine h ?_
  rw [lambdaName, String.toList_append]
  exact List.prefix_append _ _

theorem dollar_not_mem {name : String} (h : IsWord name) : '$' ∉ name.toList :=
  fun hmem => absurd (h '$' hmem) (by decide)

theorem not_prefix_methodName {name : String} (h : IsWord name) :
    ¬ lambdaStem <+: (methodName name).toList := by
  unfold methodName
  split
  · rename_i hres
    rcases hres with rfl | rfl <;> decide
  · exact fun hp => dollar_not_mem h (hp.subset (by decide))

/-- The methods that no function stands for. -/
def reserved : List String := ["<init>", entryName, scriptName, showName]

theorem methodName_not_mem {name : String} (h : IsWord name) : methodName name ∉ reserved := by
  unfold methodName
  split
  · rename_i hres
    rcases hres with rfl | rfl <;> decide
  · rename_i hres
    intro hmem
    simp only [reserved, List.mem_cons, List.not_mem_nil, or_false] at hmem
    rcases hmem with rfl | rfl | rfl | rfl
    · exact absurd (h '<' (by decide)) (by decide)
    · exact hres (.inl rfl)
    · exact hres (.inr rfl)
    · exact dollar_not_mem h (by decide)

theorem methodName_inj {a b : String} (ha : IsWord a) (hb : IsWord b)
    (h : methodName a = methodName b) : a = b := by
  have hdollar {c : String} (hc : IsWord c) (d : String) : d ++ "$" ≠ c := by
    rintro rfl
    exact dollar_not_mem hc (by simp)
  unfold methodName at h
  split at h <;> split at h
  · exact (String.append_left_inj "$").mp h
  · exact absurd h (hdollar hb a)
  · exact absurd h.symm (hdollar ha b)
  · exact h

section Class

variable {env : Env} {W : World} {s : State}

/-- The world with one method more. -/
def World.named (W : World) (name : String) : World := { W with names := name :: W.names }

/-- A name that no method has so far, and none will get as that of a lambda. -/
structure World.Free (W : World) (name : String) : Prop where
  new : name ∉ W.names
  own : ¬ lambdaStem <+: name.toList

theorem World.Free.fresh {name : String} (h : W.Free name) (hs : Good W s) :
    ∀ m ∈ s.methods, m.name ≠ name := by
  intro m hm heq
  rcases hs.names m hm with hmem | ⟨k, -, hk⟩
  · exact h.new (heq ▸ hmem)
  · exact ne_lambdaName h.own k (heq ▸ hk)

theorem World.Free.plain {name : String} (h : W.Free name) (hok : W.Ok) :
    ∀ n ∈ (W.named name).names, ∀ k, n ≠ lambdaName k := by
  intro n hn
  rcases List.mem_cons.mp hn with rfl | hn
  · exact ne_lambdaName h.own
  · exact hok.names n hn

/-! ## Methods that number their variables by themselves -/

/-- The world before the first instruction of such a method, with slots below `next`. -/
def World.outset (entry result : List Kind) (names : List String) (next : Nat) : World :=
  { Flow.start entry with
    entry := entry, result := result, vars := fun _ => none, count := 0, ahead := none
    next := next, numbered := false, names := names }

theorem good_outset {entry result : List Kind} {names : List String} {next n : Nat}
    (hbody : s.body = .start (.start n)) (hpool : Pool.Sound Plain s.pool)
    (hnamed : NamedBy names s) (hnext : entry.length ≤ next) (hmax : next ≤ 65536)
    (hplain : ∀ n ∈ names, ∀ k, n ≠ lambdaName k) : Good (.outset entry result names next) s := by
  refine ⟨hpool, ?_, fun id => ?_, fun h => absurd h Bool.false_ne_true, hnamed, hmax,
    fun k kind hk => ?_, fun _ hm => (List.not_mem_nil hm).elim, fun id l hl => ?_,
    fun _ hm => (List.not_mem_nil hm).elim, Nat.le_refl _, hplain⟩
  · rw [hbody]
    exact Code.flows_start s.pool _ _ n
  · rw [hbody]
    simp [Body.start, World.outset]
  · exact Nat.lt_of_lt_of_le (List.getElem?_eq_some_iff.mp hk).1 hnext
  · cases hl

/-- A method that no function stands for, whose end cannot be reached. -/
theorem ends_plainMethod {access : Access} {name desc : String} {steps : Emit Unit}
    {args res : List Kind} (next : Nat) (hs : Good W s) (hname : W.Free name)
    (hd : Calls desc args res)
    (hnext : (if access.has .isStatic then args else .ref :: args).length ≤ next)
    (hmax : next ≤ 65536)
    (hsteps : ∀ V : World, V.result = res → V.next = next →
      V.locals = (fun k => (if access.has .isStatic then args else .ref :: args)[k]?) →
        Writes env (V.withStack []) steps fun _ V' => V.Next V' ∧ V'.live = false) :
    Ends (plainMethod access name desc steps) env s (fun d => d.code = .formatLimit) fun _ s' =>
      Later s s' ∧ Good (W.named name) s' := by
  have hplain := hname.plain hs.ok
  refine ends_inMethod hs (hname.fresh hs) hd (.inl List.mem_cons_self)
    (fun _ h => List.mem_cons_of_mem _ h) hplain fun s₁ n hbody hpool hnamed => ?_
  rw [ends_bind]
  refine (hsteps (.outset _ res _ next) rfl rfl rfl s₁
    (good_outset hbody hpool hnamed hnext hmax hplain)).mono fun _ s₂ h₂ => ?_
  obtain ⟨hlater, V, hgood, hn, hlive⟩ := h₂
  refine (ends_finish hgood hn.opens hlive).mono fun _ s₃ h₃ => ?_
  obtain ⟨hlater', hpool', hnamed', hframed⟩ := h₃
  rw [hn.names] at hnamed'
  rw [hn.entry, hn.result] at hframed
  exact ⟨hlater.trans hlater', hpool', hnamed', hframed⟩

theorem ends_constructor (hs : Good W s) (hname : W.Free "<init>") :
    Ends constructor env s (fun d => d.code = .formatLimit) fun _ s' =>
      Later s s' ∧ Good (W.named "<init>") s' := by
  have hdesc : Calls "()V" [] [] := by decide
  refine ends_plainMethod 1 hs hname hdesc (by decide) (by decide) fun V hres _ hls => ?_
  have hthis : V.Has ⟨0, .any⟩ := by
    rw [World.Has, hls]
    rfl
  refine (turns_loadAs hthis rfl).seq ?_
  refine (turns_callInit [] [] hdesc).seq ?_
  exact (leads_vreturn hres []).writes ⟨(World.Past.refl V).dead.withStack [], rfl⟩

theorem ends_entryPoint (hs : Good W s) (hname : W.Free entryName) :
    Ends entryPoint env s (fun d => d.code = .formatLimit) fun _ s' =>
      Later s s' ∧ Good (W.named entryName) s' := by
  have hdesc : Calls (Jvm.method ["[" ++ Jvm.reference Jvm.string] "V") [.ref] [] := by decide
  refine ends_plainMethod 1 hs hname hdesc (by decide) (by decide) fun V hres _ _ => ?_
  refine writes_read_bind ?_
  refine (turns_callStatic [] [] (by decide) (by decide)).seq ?_
  exact (leads_vreturn hres []).writes ⟨(World.Past.refl V).dead.withStack [], rfl⟩

theorem ends_showMethod (hs : Good W s) (hname : W.Free showName) :
    Ends showMethod env s (fun d => d.code = .formatLimit) fun _ s' =>
      Later s s' ∧ Good (W.named showName) s' := by
  have hdesc : Calls showDescriptor [.ref] [.ref] := by decide
  refine ends_plainMethod 4 hs hname hdesc (by decide) (by decide) fun V hres hnext hls => ?_
  exact writes_showSteps hls (by rw [hnext]; decide) hres

/-! ## Methods of the program -/

variable {Φ : Signatures} {r : Nat}

/-- The steps of a method are those of its statements. -/
theorem writes_statements {Γ : List Symbol} {lo hi : Nat} {result : Ty} {names : List String}
    {ss : List Stmt} {V : World} (hk : env.Knows Φ) (hss : Stmt.ListTyped Φ r result false Γ lo hi ss)
    (hΓ : Context r lo Γ) (hV : V.Opening Γ result.kinds names lo) :
    Writes { env with result := result, loop := none } (V.withStack []) (Stmt.emitList ss)
      fun _ V' => V.Next V' := by
  have hscene : Scene Φ result false Γ lo { env with result := result, loop := none } V :=
    ⟨{ hk with }, fun _ => hV.holds, hV.count, hV.ahead, hV.numbered, rfl, hV.result,
      fun h => absurd h Bool.false_ne_true⟩
  refine (Stmt.yields_emitList ss hss hΓ _ V hscene).mono fun _ V' h => ?_
  obtain ⟨V₁, hn, -, rfl⟩ := h
  exact hn.withStack []

theorem ends_scriptMethod {p : Program} {hi : Nat} (hk : env.Knows Φ)
    (hscript : Stmt.ListTyped Φ 0 .unit false [] 0 hi p.script) (hs : Good W s)
    (hname : W.Free scriptName) :
    Ends (scriptMethod p) env s (fun d => d.code = .formatLimit) fun _ s' =>
      Later s s' ∧ Good (W.named scriptName) s' := by
  unfold scriptMethod
  have hmethod := @ends_method env W s [.isPrivate, .isStatic] scriptName [] .unit p.tok p.tok
    (Stmt.emitList p.script) (scriptName :: W.names) 0 hs (by decide) (hname.fresh hs)
    (.inl List.mem_cons_self) (fun _ h => List.mem_cons_of_mem _ h) (hname.plain hs.ok) (by simp)
    (fun h => by cases h) List.nodup_nil (by simp)
    fun V hV => writes_statements hk hscript (.nil 0 0) hV
  exact hmethod

theorem Param.Declare.params {ps : List Param} {syms : List Symbol} {i : Nat}
    (h : Param.Declare r i ps syms) : (ps.map fun p => p.name.sym) = syms.map some := by
  induction ps generalizing syms i with
  | nil =>
    cases syms with
    | nil => rfl
    | cons sym syms => exact h.elim
  | cons p ps ih =>
    cases syms with
    | nil => exact h.elim
    | cons sym syms => rw [List.map_cons, List.map_cons, h.1, ih h.2.2]

theorem ends_functionMethod {f : FunDecl} (hk : env.Knows Φ) (hf : f.Typed Φ r)
    (hmem : env.declared.contains f.name.name = true) (hs : Good W s)
    (hname : W.Free (methodName f.name.name)) :
    Ends (functionMethod f) env s (fun d => d.code = .formatLimit) fun _ s' =>
      Later s s' ∧ Good (W.named (methodName f.name.name)) s' := by
  obtain ⟨syms, hi, hps, htypes, hbody⟩ := hf.body
  have hΓ : Context r (1 + syms.length) syms := by
    simpa using (Context.nil r 1).params hps
  unfold functionMethod methodOf
  simp only [ends_bind, ends_read, ends_pure, hmem, if_true, htypes, Param.Declare.params hps]
  exact ends_method hs (by decide) (hname.fresh hs) (.inl List.mem_cons_self)
    (fun _ h => List.mem_cons_of_mem _ h) (hname.plain hs.ok)
    (fun sym hsym => ⟨hΓ.complete sym hsym, hΓ.hasValue sym hsym⟩) hf.complete
    (Param.Declare.nodup hps) hΓ.below fun V hV => writes_statements hk hbody hΓ hV

/-- The methods of functions, one after another. -/
theorem ends_functionMethods (hk : env.Knows Φ) : ∀ {fs : List FunDecl} {W : World} {s : State},
    (∀ f ∈ fs, ∃ r, f.Typed Φ r) → (∀ f ∈ fs, env.declared.contains f.name.name = true) →
      (fs.map fun f => f.name.name).Nodup → Good W s →
        (∀ f ∈ fs, W.Free (methodName f.name.name)) →
          Ends (functionMethods fs) env s (fun d => d.code = .formatLimit) fun _ s' =>
            Later s s' ∧ ∃ V : World, Good V s' ∧
              ∀ name, W.Free name → (∀ f ∈ fs, methodName f.name.name ≠ name) → V.Free name
  | [], W, s, _, _, _, hs, _ => ⟨.refl s, W, hs, fun _ h _ => h⟩
  | f :: fs, W, s, hf, hd, hnodup, hs, hfree => by
    obtain ⟨hnew, hnodup⟩ := List.nodup_cons.mp hnodup
    obtain ⟨r, htyped⟩ := hf f List.mem_cons_self
    unfold functionMethods
    rw [ends_bind]
    refine (ends_functionMethod hk htyped (hd f List.mem_cons_self) hs
      (hfree f List.mem_cons_self)).mono fun _ s₁ h₁ => ?_
    obtain ⟨hlater, hgood⟩ := h₁
    have hrest : ∀ g ∈ fs, (W.named (methodName f.name.name)).Free (methodName g.name.name) := by
      intro g hg
      have hg' := hfree g (List.mem_cons_of_mem _ hg)
      refine ⟨fun hmem => ?_, hg'.own⟩
      rcases List.mem_cons.mp hmem with heq | hmem
      · obtain ⟨r', hg''⟩ := hf g (List.mem_cons_of_mem _ hg)
        exact hnew (List.mem_map.mpr ⟨g, hg, methodName_inj hg''.word htyped.word heq⟩)
      · exact hg'.new hmem
    refine (ends_functionMethods hk (fun g hg => hf g (List.mem_cons_of_mem _ hg))
      (fun g hg => hd g (List.mem_cons_of_mem _ hg)) hnodup hgood hrest).mono fun _ s₂ h₂ => ?_
    obtain ⟨hlater', V, hgood', hV⟩ := h₂
    refine ⟨hlater.trans hlater', V, hgood', fun name hname hne => ?_⟩
    refine hV name ⟨fun hmem => ?_, hname.own⟩ fun g hg => hne g (List.mem_cons_of_mem _ hg)
    rcases List.mem_cons.mp hmem with heq | hmem
    · exact hne f List.mem_cons_self heq.symm
    · exact hname.new hmem

/-! ## All methods -/

/-- No step of a whole class fails but for a limit of the format, and in the end every method is
verified. -/
theorem ends_allMethods {p : Program} {hi : Nat} (hk : env.Knows Φ)
    (hf : ∀ f ∈ p.functions, ∃ r, f.Typed Φ r)
    (hd : ∀ f ∈ p.functions, env.declared.contains f.name.name = true)
    (hnodup : (p.functions.map fun f => f.name.name).Nodup)
    (hscript : Stmt.ListTyped Φ 0 .unit false [] 0 hi p.script) :
    Ends (allMethods p) env .start (fun d => d.code = .formatLimit) fun _ s =>
      s.pool.Sound Plain ∧ s.pool.error = none ∧ ∀ m ∈ s.methods, m.Verified s.pool := by
  have hs₀ : Good (.outset [] [] [] 0) State.start :=
    good_outset rfl (Pool.sound_empty _) (by simp [NamedBy, State.start]) (Nat.le_refl _) (by decide)
      (by simp)
  have hfree₀ {name : String} (h : ¬ lambdaStem <+: name.toList) :
      (World.outset [] [] [] 0).Free name := ⟨List.not_mem_nil, h⟩
  have hnamed {W : World} {a name : String} (h : W.Free name) (hne : name ≠ a) :
      (W.named a).Free name :=
    ⟨fun hmem => (List.mem_cons.mp hmem).elim hne h.new, h.own⟩
  -- What is free after the constructor, the entry point and the script.
  have hfree₃ {name : String} (h : ¬ lambdaStem <+: name.toList)
      (hne : name ≠ "<init>" ∧ name ≠ entryName ∧ name ≠ scriptName) :
      (((World.outset [] [] [] 0).named "<init>").named entryName).named scriptName |>.Free name :=
    hnamed (hnamed (hnamed (hfree₀ h) hne.1) hne.2.1) hne.2.2
  unfold allMethods
  rw [ends_bind]
  refine (ends_constructor hs₀ (hfree₀ (by decide))).mono fun _ s₁ h₁ => ?_
  obtain ⟨hlater₁, hs₁⟩ := h₁
  rw [ends_bind]
  refine (ends_entryPoint hs₁ (hnamed (hfree₀ (by decide)) (by decide))).mono fun _ s₂ h₂ => ?_
  obtain ⟨hlater₂, hs₂⟩ := h₂
  rw [ends_bind]
  refine (ends_scriptMethod hk hscript hs₂ (hnamed (hnamed (hfree₀ (by decide)) (by decide))
    (by decide))).mono fun _ s₃ h₃ => ?_
  obtain ⟨hlater₃, hs₃⟩ := h₃
  rw [ends_bind]
  refine (ends_functionMethods hk hf hd hnodup hs₃ fun f hmem => ?_).mono fun _ s₄ h₄ => ?_
  · obtain ⟨r, htyped⟩ := hf f hmem
    have hnot := methodName_not_mem htyped.word
    simp only [reserved, List.mem_cons, List.not_mem_nil, or_false, not_or] at hnot
    exact hfree₃ (not_prefix_methodName htyped.word) ⟨hnot.1, hnot.2.1, hnot.2.2.1⟩
  obtain ⟨hlater₄, V, hs₄, hV⟩ := h₄
  have hall₄ := hlater₁.trans (hlater₂.trans (hlater₃.trans hlater₄))
  -- The last check is the same whether or not the method is needed that shows any object.
  have hlimit : ∀ s V e, Good V s → s.pool.error = some e →
      (EmitError.build e).code = .formatLimit := by
    intro s V e hs he
    rw [EmitError.code, if_pos (hs.pool.limit e he)]
  have hverified : ∀ s, Later .start s → s.pool.error = none →
      ∀ m ∈ s.methods, m.Verified s.pool := by
    intro s hlater he m hm
    obtain ⟨i, hi⟩ := Array.mem_iff_getElem?.mp hm
    exact hlater.new he i m (Nat.zero_le i) hi
  rw [ends_bind, ends_get]
  cases hshow : s₄.usesShow with
  | false =>
    rw [if_neg Bool.false_ne_true, ends_bind, ends_get]
    cases he : s₄.pool.error with
    | some e => exact hlimit s₄ V e hs₄ he
    | none => exact ⟨hs₄.pool, he, hverified s₄ hall₄ he⟩
  | true =>
    have hfree : V.Free showName := by
      refine hV showName (hfree₃ (by decide) (by decide)) fun f hmem heq => ?_
      obtain ⟨r, htyped⟩ := hf f hmem
      exact methodName_not_mem htyped.word (by rw [heq]; decide)
    rw [if_pos rfl, ends_bind]
    refine (ends_showMethod hs₄ hfree).mono fun _ s₅ h₅ => ?_
    rw [ends_bind, ends_get]
    cases he : s₅.pool.error with
    | some e => exact hlimit s₅ _ e h₅.2 he
    | none => exact ⟨h₅.2.pool, he, hverified s₅ (hall₄.trans h₅.1) he⟩

end Class

end Emit
end Kotlet

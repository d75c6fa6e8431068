import Mathlib.Data.List.Nodup
import Kotlet.Proofs.Accepted
import Kotlet.Proofs.Typing.LexicalSteps

/-!
# The checker scopes names lexically

* `Typing.FirstOfRoutines` : every function has a routine of its own;
* `Typing.enrolls_check` : functions, whose bodies start with nothing in view;
* `Typing.Distinct` : different declarations have different symbols;
* `Typing.settles_checkTop` : the statements of a program;
* `Typing.TopSettled.declaration`, `Typing.TopSettled.confined` : what names mean, and what they cannot
  mean in a function;
* `Program.check_lexical` : whole programs.
-/

namespace Kotlet

open Typing

/-! ## Functions -/

namespace Typing

/-- Every function is the first symbol of a routine of its own, and none of them is the script. -/
structure FirstOfRoutines (functions : Scope) : Prop where
  first : ∀ sym ∈ functions.declared, sym.id.index = 0 ∧ sym.id.routine ≠ 0
  nodup : (functions.declared.map fun sym => sym.id.routine).Nodup

theorem firstOfRoutines_of_declareFunctions : ∀ {fs : List FunDecl} {routine : Nat}
    {scope scope' : Scope}, routine ≠ 0 → declareFunctions routine scope fs = .ok scope' →
    (∀ sym ∈ scope.declared, sym.id.routine < routine) → FirstOfRoutines scope →
    FirstOfRoutines scope'
  | [], _, _, _, _, h, _, hs => by
    cases h
    exact hs
  | f :: fs, routine, scope, scope', hr, h, hlt, hs => by
    unfold declareFunctions at h
    dsimp only at h
    split at h
    · cases h
    · split at h
      · cases h
      · refine firstOfRoutines_of_declareFunctions (Nat.succ_ne_zero routine) h (fun sym hsym => ?_)
          ⟨fun sym hsym => ?_, List.nodup_cons.mpr ⟨fun hmem => ?_, hs.nodup⟩⟩
        · rcases List.mem_cons.mp hsym with rfl | hsym
          · exact Nat.lt_succ_self routine
          · exact Nat.lt_succ_of_lt (hlt sym hsym)
        · rcases List.mem_cons.mp hsym with rfl | hsym
          · exact ⟨rfl, hr⟩
          · exact hs.first sym hsym
        · obtain ⟨sym, hsym, heq⟩ := List.mem_map.mp hmem
          exact Nat.lt_irrefl _ (heq ▸ hlt sym hsym)

theorem find?_spec {functions : Scope} {name : String} {sym : Symbol}
    (h : functions.find? name = some sym) : sym ∈ functions.declared ∧ sym.name = name :=
  ⟨List.mem_of_find?_eq_some h, by simpa using List.find?_some h⟩

/-- Functions of different names have different routines. -/
theorem FirstOfRoutines.name_eq {functions : Scope} (h : FirstOfRoutines functions)
    {name name' : String} {sym sym' : Symbol} (hs : functions.find? name = some sym)
    (hs' : functions.find? name' = some sym') (hr : sym.id.routine = sym'.id.routine) :
    name = name' := by
  obtain ⟨hmem, rfl⟩ := find?_spec hs
  obtain ⟨hmem', rfl⟩ := find?_spec hs'
  rw [List.inj_on_of_nodup_map h.nodup hmem hmem' hr]

/-- A function whose names are settled, in a routine of its own. -/
structure Enrolled (functions : Scope) (f f' : FunDecl) (sym : Symbol) : Prop where
  found : functions.find? f.name.name = some sym
  name : f'.name = { f.name with sym := some sym }
  settled : ∃ hi, Settled functions sym.id.routine 1 hi f.occurrences f'.occurrences f.declarations
    f'.declarations

/-- A function body starts with nothing in view but the functions. -/
theorem enrolls_check {env : Env} (f : FunDecl) (s : State) :
    Ends f.check env s (fun _ => True) fun f' s' => s'.scopes = s.scopes ∧ s'.next = s.next ∧
      ∃ sym, Enrolled env.functions f f' sym := by
  obtain ⟨tok, name, params, result, brace, ss, close⟩ := f
  unfold FunDecl.check
  rw [ends_bind, ends_read]
  cases hfind : env.functions.find? name.name with
  | none => trivial
  | some sym =>
    dsimp only
    rw [ends_bind, ends_get, ends_ite]
    refine ⟨fun _ => trivial, fun _ => ?_⟩
    unfold inFunction
    simp only [ends_bind, ends_get, ends_read, ends_set, ends_withReader, ends_modify, ends_pure]
    have hm : Mirrors env.functions [] ⟨⟨.function, []⟩, [env.functions]⟩ :=
      ⟨by simp [Scopes.symbols], fun _ h => absurd h List.not_mem_nil⟩
    refine (mirrors_declareParams (env.inFunction sym tok result) params
      (params.map fun p => p.ty.getD .unit) []
      { s with scopes := ⟨⟨.function, []⟩, [env.functions]⟩, next := 1 } (by simp) hm).mono ?_
    rintro ps' s₁ ⟨hm₁, hps⟩
    rw [List.append_nil] at hm₁
    have hv : (paramNames ps').reverse.map Ident.plain = (paramNames params).reverse.map Ident.plain := by
      rw [List.map_reverse, List.map_reverse, hps.declares]
    refine (Stmt.settles_checkList ss [] s₁ hv hm₁ (.inl rfl)).mono ?_
    rintro r s₂ ⟨ss', rfl, hss⟩
    rw [ends_ite]
    exact ⟨fun _ => trivial, fun _ => ⟨trivial, trivial, sym, hfind, rfl, _, hps.append hss⟩⟩

/-! ## Identities -/

/-- An identity that the script uses from a number on, or that belongs to one of some functions. -/
def Taken (functions : Scope) (lo : Nat) (fs : List FunDecl) (id : SymbolId) : Prop :=
  (id.routine = 0 ∧ lo ≤ id.index) ∨
    ∃ f ∈ fs, ∃ sym, functions.find? f.name.name = some sym ∧ id.routine = sym.id.routine

/-- Different declarations have different symbols. -/
def Distinct (functions : Scope) (lo : Nat) (fs : List FunDecl) (ds : List Ident) : Prop :=
  ∃ syms : List Symbol, ds.map Ident.sym = syms.map some ∧ (syms.map Symbol.id).Nodup ∧
    ∀ id ∈ syms.map Symbol.id, Taken functions lo fs id

section Distinct

variable {functions : Scope} {lo routine : Nat} {f : FunDecl} {fs : List FunDecl} {ds es : List Ident}

theorem mem_numbered {id : SymbolId} {n : Nat}
    (h : id ∈ (List.range' lo n).map (SymbolId.mk routine)) :
    id.routine = routine ∧ lo ≤ id.index ∧ id.index < lo + n := by
  obtain ⟨k, hk, rfl⟩ := List.mem_map.mp h
  exact ⟨rfl, List.mem_range'_1.mp hk⟩

theorem nodup_numbered (routine lo n : Nat) :
    ((List.range' lo n).map (SymbolId.mk routine)).Nodup :=
  List.Nodup.map (fun _ _ h => congrArg SymbolId.index h) List.nodup_range'

theorem Distinct.nil : Distinct functions lo [] [] := ⟨[], rfl, List.nodup_nil, by simp⟩

/-- More of the script, in front. -/
theorem Distinct.script (hr : FirstOfRoutines functions) (h : Numbered 0 lo ds)
    (h' : Distinct functions (lo + ds.length) fs es) : Distinct functions lo fs (ds ++ es) := by
  obtain ⟨xs, hxs, hids⟩ := h
  obtain ⟨ys, hys, hnodup, htaken⟩ := h'
  refine ⟨xs ++ ys, by rw [List.map_append, List.map_append, hxs, hys], ?_, ?_⟩
  · rw [List.map_append, hids]
    refine List.nodup_append.mpr ⟨nodup_numbered _ _ _, hnodup, fun a ha b hb hab => ?_⟩
    subst hab
    obtain ⟨hzero, -, hlt⟩ := mem_numbered ha
    rcases htaken a hb with ⟨-, hle⟩ | ⟨f, -, sym, hsym, heq⟩
    · exact absurd hlt (Nat.not_lt.mpr hle)
    · exact (hr.first sym (find?_spec hsym).1).2 (heq.symm.trans hzero)
  · intro id hid
    rw [List.map_append, hids] at hid
    rcases List.mem_append.mp hid with hid | hid
    · obtain ⟨hzero, hle, -⟩ := mem_numbered hid
      exact .inl ⟨hzero, hle⟩
    · exact (htaken id hid).imp_left fun ⟨hzero, hle⟩ =>
        ⟨hzero, Nat.le_trans (Nat.le_add_right _ _) hle⟩

/-- A function of another name, in front. -/
theorem Distinct.function (hr : FirstOfRoutines functions) {sym : Symbol} {d : Ident}
    (hd : d.sym = some sym) (hsym : functions.find? f.name.name = some sym)
    (hnew : ∀ g ∈ fs, g.name.name ≠ f.name.name) (h : Numbered sym.id.routine 1 ds)
    (h' : Distinct functions lo fs es) : Distinct functions lo (f :: fs) (d :: ds ++ es) := by
  obtain ⟨hfirst, hroutine⟩ := hr.first sym (find?_spec hsym).1
  obtain ⟨xs, hxs, hids⟩ := h
  obtain ⟨ys, hys, hnodup, htaken⟩ := h'
  have hown : (sym :: xs).map Symbol.id =
      (List.range' 0 (ds.length + 1)).map (SymbolId.mk sym.id.routine) := by
    have hid : sym.id = ⟨sym.id.routine, 0⟩ := congrArg (SymbolId.mk _) hfirst
    rw [List.map_cons, hids, List.range'_succ, List.map_cons]
    exact congrArg (· :: _) hid
  refine ⟨sym :: xs ++ ys, by simp [hd, hxs, hys], ?_, ?_⟩
  · rw [List.map_append, hown]
    refine List.nodup_append.mpr ⟨nodup_numbered _ _ _, hnodup, fun a ha b hb hab => ?_⟩
    subst hab
    obtain ⟨hself, -⟩ := mem_numbered ha
    rcases htaken a hb with ⟨hzero, -⟩ | ⟨g, hg, sym', hsym', heq⟩
    · exact hroutine (hself.symm.trans hzero)
    · exact hnew g hg (hr.name_eq hsym' hsym (heq.symm.trans hself))
  · intro id hid
    rw [List.map_append, hown] at hid
    rcases List.mem_append.mp hid with hid | hid
    · exact .inr ⟨f, List.mem_cons_self, sym, hsym, (mem_numbered hid).1⟩
    · exact (htaken id hid).imp_right fun ⟨g, hg, h⟩ => ⟨g, List.mem_cons_of_mem _ hg, h⟩

theorem Numbered.mem (h : Numbered routine lo ds) {d : Ident} (hd : d ∈ ds) :
    ∃ sym, d.sym = some sym ∧ sym.id.routine = routine ∧ lo ≤ sym.id.index := by
  obtain ⟨syms, hsyms, hids⟩ := h
  obtain ⟨sym, hsym, heq⟩ := List.mem_map.mp (hsyms ▸ List.mem_map_of_mem hd)
  obtain ⟨hroutine, hle, -⟩ := mem_numbered (hids ▸ List.mem_map_of_mem hsym)
  exact ⟨sym, heq.symm, hroutine, hle⟩

end Distinct

/-! ## Programs -/

/-- Where the symbols of a statement of the program belong: to the script, or to the function that the
statement declares. -/
def Belongs (functions : Scope) : Stmt → Prop
  | .function f => ∃ sym, functions.find? f.name.name = some sym ∧ f.name.sym = some sym ∧
      ∀ d ∈ f.declarations, ∃ x, d.sym = some x ∧ x.id.routine = sym.id.routine ∧ 1 ≤ x.id.index
  | s => ∀ d ∈ s.declarations, ∃ x, d.sym = some x ∧ x.id.routine = 0 ∧ 0 ≤ x.id.index

/-- Statements of a program that were checked. -/
structure TopSettled (functions : Scope) (lo : Nat) (old view : List Ident) (ss ss' : List Stmt) :
    Prop where
  uses : (Stmt.listOccurrences view ss').map Occurrence.plain =
    (Stmt.listOccurrences old ss).map Occurrence.plain
  declares : (Stmt.listDeclarations ss').map Ident.plain = (Stmt.listDeclarations ss).map Ident.plain
  names : ((functionsOf ss').map FunDecl.name).map Ident.plain =
    ((functionsOf ss).map FunDecl.name).map Ident.plain
  resolved : ∀ o ∈ Stmt.listOccurrences view ss', Resolved functions o
  belongs : ∀ st ∈ ss', Belongs functions st
  distinct : Distinct functions lo (functionsOf ss) (Stmt.listDeclarations ss')

section TopSettled

variable {functions : Scope} {lo : Nat} {old view : List Ident} {ss ss' : List Stmt}

theorem TopSettled.function (hr : FirstOfRoutines functions) {f f' : FunDecl} {sym : Symbol}
    (h : Enrolled functions f f' sym) (hnew : ∀ g ∈ functionsOf ss, g.name.name ≠ f.name.name)
    (h' : TopSettled functions lo old view ss ss') :
    TopSettled functions lo old view (.function f :: ss) (.function f' :: ss') := by
  obtain ⟨hi, hset⟩ := h.settled
  have hplain : f'.name.plain = f.name.plain := h.name ▸ rfl
  have hname : f'.name.name = f.name.name := h.name ▸ rfl
  have hsym : f'.name.sym = some sym := h.name ▸ rfl
  refine ⟨?_, ?_, ?_, fun o ho => ?_, fun st hst => ?_, ?_⟩
  · exact (List.map_append.trans (congrArg₂ (· ++ ·) hset.uses h'.uses)).trans List.map_append.symm
  · refine congrArg₂ List.cons hplain ?_
    exact (List.map_append.trans (congrArg₂ (· ++ ·) hset.declares h'.declares)).trans
      List.map_append.symm
  · exact congrArg₂ List.cons hplain h'.names
  · exact (List.mem_append.mp ho).elim (hset.resolved o) (h'.resolved o)
  · rcases List.mem_cons.mp hst with rfl | hst
    · exact ⟨sym, hname ▸ h.found, hsym, fun d hd => hset.numbered.mem hd⟩
    · exact h'.belongs st hst
  · exact h'.distinct.function hr hsym h.found hnew hset.numbered

theorem TopSettled.statement (hr : FirstOfRoutines functions) {st st' : Stmt} {mid : Nat}
    (hne : ∀ f, st ≠ .function f) (h : Proceeds functions 0 lo old view st st' mid)
    (h' : TopSettled functions mid (st.introduces ++ old) (st'.introduces ++ view) ss ss') :
    TopSettled functions lo old view (st :: ss) (st' :: ss') := by
  have hskip {x : Stmt} (hx : ∀ f, x ≠ .function f) (xs : List Stmt) :
      functionsOf (x :: xs) = functionsOf xs := by
    cases x with
    | function f => exact absurd rfl (hx f)
    | _ => rfl
  refine ⟨?_, ?_, ?_, fun o ho => ?_, fun x hx => ?_, ?_⟩
  · exact (List.map_append.trans (congrArg₂ (· ++ ·) h.settled.uses h'.uses)).trans
      List.map_append.symm
  · exact (List.map_append.trans (congrArg₂ (· ++ ·) h.settled.declares h'.declares)).trans
      List.map_append.symm
  · rw [hskip hne, hskip h.ne_function]
    exact h'.names
  · exact (List.mem_append.mp ho).elim (h.settled.resolved o) (h'.resolved o)
  · rcases List.mem_cons.mp hx with rfl | hx
    · have hall : ∀ d ∈ x.declarations, ∃ y, d.sym = some y ∧ y.id.routine = 0 ∧ 0 ≤ y.id.index := by
        intro d hd
        obtain ⟨y, hy, hzero, -⟩ := h.settled.numbered.mem hd
        exact ⟨y, hy, hzero, Nat.zero_le _⟩
      cases x with
      | function f => exact absurd rfl (h.ne_function f)
      | _ => exact hall
    · exact h'.belongs x hx
  · rw [hskip hne]
    have hdistinct := h'.distinct
    rw [h.settled.next] at hdistinct
    exact hdistinct.script hr h.settled.numbered

end TopSettled

/-- The statements of a program, one after the other. -/
theorem settles_checkTop (env : Env) (hroutine : env.routine = 0)
    (hr : FirstOfRoutines env.functions) (ss : List Stmt) {old view : List Ident}
    (acc : List Stmt) (s : State) (hv : view.map Ident.plain = old.map Ident.plain)
    (hm : Mirrors env.functions view s.scopes)
    (hnodup : ((functionsOf ss).map fun f => f.name.name).Nodup) :
    Ends (Stmt.checkList acc ss) env s (fun _ => True) fun r _ => ∃ ss', r = acc.reverse ++ ss' ∧
      TopSettled env.functions s.next old view ss ss' := by
  induction ss generalizing old view acc s with
  | nil =>
    refine ⟨[], by simp, rfl, rfl, rfl, ?_, ?_, Distinct.nil⟩
    · exact fun _ h => absurd h List.not_mem_nil
    · exact fun _ h => absurd h List.not_mem_nil
  | cons st ss ih =>
    unfold Stmt.checkList
    rw [ends_bind]
    by_cases hfun : ∃ f, st = .function f
    · obtain ⟨f, rfl⟩ := hfun
      obtain ⟨hnew, hnodup⟩ := List.nodup_cons.mp hnodup
      have hfresh : ∀ g ∈ functionsOf ss, g.name.name ≠ f.name.name :=
        fun g hg hname => hnew (List.mem_map.mpr ⟨g, hg, hname⟩)
      unfold Stmt.check
      simp only [ends_bind, ends_pure]
      refine (enrolls_check f s).mono ?_
      rintro f' s₁ ⟨hscopes, hnext, sym, hf⟩
      refine (ih (.function f' :: acc) s₁ hv (hscopes ▸ hm) hnodup).mono ?_
      rintro r s₂ ⟨ss', rfl, hss⟩
      exact ⟨.function f' :: ss', by simp, .function hr hf hfresh (hnext ▸ hss)⟩
    · have hne : ∀ f, st ≠ .function f := fun f h => hfun ⟨f, h⟩
      refine (Stmt.brings_check hv hm st fun f h => absurd h (hne f)).mono ?_
      rintro st' s₁ ⟨hm₁, -, hst⟩
      rw [hroutine] at hst
      have hv₁ : (st'.introduces ++ view).map Ident.plain =
          (st.introduces ++ old).map Ident.plain := by
        rw [List.map_append, List.map_append, hst.introduces, hv]
      have hnodup : ((functionsOf ss).map fun f => f.name.name).Nodup := by
        cases st with
        | function f => exact absurd rfl (hne f)
        | _ => exact hnodup
      refine (ih (st' :: acc) s₁ hv₁ hm₁ hnodup).mono ?_
      rintro r s₂ ⟨ss', rfl, hss⟩
      exact ⟨st' :: ss', by simp, .statement hr hne hst hss⟩

/-! ## Meaning -/

section Meaning

variable {functions : Scope} {lo : Nat} {old : List Ident} {ss ss' : List Stmt}

theorem mem_functionsOf {f : FunDecl} : f ∈ functionsOf ss ↔ .function f ∈ ss := by
  unfold functionsOf
  rw [List.mem_filterMap]
  constructor
  · rintro ⟨st, hst, heq⟩
    cases st with
    | function g =>
      obtain rfl : g = f := Option.some.inj heq
      exact hst
    | _ => cases heq
  · exact fun h => ⟨_, h, rfl⟩

/-- An occurrence that the checker resolved means a declaration with its symbol. -/
theorem TopSettled.declaration (h : TopSettled functions lo old [] ss ss')
    (hf : ∀ sym ∈ functions.declared, ∃ f ∈ functionsOf ss, sym.name = f.name.name) {o : Occurrence}
    (ho : o ∈ Stmt.listOccurrences [] ss') :
    ∃ d sym, o.declaration? (functionsOf ss') = some d ∧ d.sym = some sym ∧ o.id.sym = some sym := by
  obtain ⟨sym, hsym, hmeaning⟩ := h.resolved o ho
  unfold Occurrence.declaration?
  unfold meaning? at hmeaning
  cases hview : o.view.find? fun d => d.isNamed o.id.name with
  | some d =>
    rw [hview] at hmeaning
    have hd := (Stmt.sees_list ss' o ho d (List.mem_of_find?_eq_some hview)).resolve_left
      List.not_mem_nil
    obtain ⟨syms, hsyms, -⟩ := h.distinct
    obtain ⟨x, -, hx⟩ := List.mem_map.mp (hsyms ▸ List.mem_map_of_mem hd)
    rw [Option.bind_some, ← hx] at hmeaning
    exact ⟨d, sym, rfl, hx.symm.trans hmeaning, hsym⟩
  | none =>
    rw [hview] at hmeaning
    change functions.find? o.id.name = some sym at hmeaning
    obtain ⟨hmem, hname⟩ := find?_spec hmeaning
    obtain ⟨f, hfmem, hfname⟩ := hf sym hmem
    have hplain : f.name.plain ∈ ((functionsOf ss').map FunDecl.name).map Ident.plain := by
      rw [h.names]
      exact List.mem_map_of_mem (List.mem_map_of_mem hfmem)
    obtain ⟨d, hd, hdplain⟩ := List.mem_map.mp hplain
    have hdname : d.name = o.id.name :=
      (congrArg Ident.name hdplain).trans (hfname.symm.trans hname)
    cases hfind : ((functionsOf ss').map FunDecl.name).find? fun d => d.isNamed o.id.name with
    | none =>
      have := List.find?_eq_none.mp hfind d hd
      simp [Ident.isNamed, hdname] at this
    | some e =>
      obtain ⟨g, hg, rfl⟩ := List.mem_map.mp (List.mem_of_find?_eq_some hfind)
      obtain ⟨sym', hfound, hgsym, -⟩ := h.belongs _ (mem_functionsOf.mp hg)
      have hgname : g.name.name = o.id.name := by simpa [Ident.isNamed] using List.find?_some hfind
      rw [hgname, hmeaning] at hfound
      exact ⟨g.name, sym, rfl, hfound ▸ hgsym, hsym⟩

theorem mem_listOccurrences {f : FunDecl} {o : Occurrence} (ho : o ∈ f.occurrences) :
    ∀ {ss : List Stmt} {view : List Ident}, .function f ∈ ss → o ∈ Stmt.listOccurrences view ss
  | st :: ss, view, h => by
    refine List.mem_append.mpr ?_
    rcases List.mem_cons.mp h with rfl | h
    · exact .inl ho
    · exact .inr (mem_listOccurrences ho h)

/-- In a function a name means a local of the function or one of the functions. -/
theorem TopSettled.meaning (hr : FirstOfRoutines functions) (h : TopSettled functions lo old [] ss ss')
    {f : FunDecl} (hf : .function f ∈ ss') {o : Occurrence} (ho : o ∈ f.occurrences) :
    ∃ own sym, functions.find? f.name.name = some own ∧ o.id.sym = some sym ∧
      sym.id.routine ≠ 0 ∧ (1 ≤ sym.id.index → sym.id.routine = own.id.routine) := by
  obtain ⟨own, hown, -, hlocals⟩ := h.belongs _ hf
  obtain ⟨sym, hsym, hmeaning⟩ := h.resolved o (mem_listOccurrences ho hf)
  refine ⟨own, sym, hown, hsym, ?_⟩
  unfold meaning? at hmeaning
  cases hview : o.view.find? fun d => d.isNamed o.id.name with
  | some d =>
    have hd := (f.sees o ho d (List.mem_of_find?_eq_some hview)).resolve_left List.not_mem_nil
    obtain ⟨x, hx, hroutine, -⟩ := hlocals d hd
    rw [hview, Option.bind_some, hx] at hmeaning
    obtain rfl : x = sym := Option.some.inj hmeaning
    exact ⟨hroutine ▸ (hr.first own (find?_spec hown).1).2, fun _ => hroutine⟩
  | none =>
    rw [hview] at hmeaning
    obtain ⟨hfirst, hroutine⟩ := hr.first sym (find?_spec hmeaning).1
    exact ⟨hroutine, fun hle => absurd hfirst (Nat.ne_of_gt hle)⟩

/-- In a function no variable of the script is meant, and no local of another function. -/
theorem TopSettled.confined (hr : FirstOfRoutines functions)
    (h : TopSettled functions lo old [] ss ss')
    (hnodup : ((functionsOf ss').map fun f => f.name.name).Nodup) {before after : List Stmt}
    {f : FunDecl} (hss : ss' = before ++ .function f :: after) {o : Occurrence}
    (ho : o ∈ f.occurrences) {s : Stmt} (hs : s ∈ before ++ after) {d : Ident} (hd : d ∈ s.locals) :
    o.id.sym ≠ d.sym := by
  have hf : .function f ∈ ss' := hss ▸ List.mem_append_right _ List.mem_cons_self
  have hs' : s ∈ ss' := by
    rw [hss]
    rcases List.mem_append.mp hs with hs | hs
    · exact List.mem_append_left _ hs
    · exact List.mem_append_right _ (List.mem_cons_of_mem _ hs)
  obtain ⟨own, sym, hown, hsym, hroutine, hlocal⟩ := h.meaning hr hf ho
  have hbelongs := h.belongs s hs'
  rw [hsym]
  intro heq
  cases s with
  | function g =>
    obtain ⟨sym', hsym', -, hlocals⟩ := hbelongs
    obtain ⟨x, hx, hxroutine, hle⟩ := hlocals d hd
    obtain rfl : sym = x := Option.some.inj (heq.trans hx)
    have hname : f.name.name = g.name.name :=
      hr.name_eq hown hsym' ((hlocal hle).symm.trans hxroutine)
    have hsplit : functionsOf ss' = functionsOf before ++ f :: functionsOf after := by
      rw [hss]
      exact List.filterMap_append
    rw [hsplit, List.map_append, List.map_cons] at hnodup
    have hfresh := (List.nodup_middle.mp hnodup)
    refine (List.nodup_cons.mp hfresh).1 ?_
    rw [← List.map_append, hname]
    refine List.mem_map_of_mem (f := fun f : FunDecl => f.name.name) ?_
    rcases List.mem_append.mp hs with hs | hs
    · exact List.mem_append_left _ (mem_functionsOf.mpr hs)
    · exact List.mem_append_right _ (mem_functionsOf.mpr hs)
  | _ =>
    obtain ⟨x, hx, hzero, -⟩ := hbelongs d hd
    obtain rfl : sym = x := Option.some.inj (heq.trans hx)
    exact hroutine hzero

end Meaning

end Typing

theorem Program.check_scopes {p : Program} {c : Checked} (h : p.check = .ok c) : c.Lexical p := by
  obtain ⟨functions, stmts, s, hdecl, hlist, rfl⟩ := Program.check_eq_ok h
  obtain ⟨hnodup, -, -, hsyms⟩ := (declareFunctions_spec p.functions 1 _).2 functions hdecl
  have hr : FirstOfRoutines functions :=
    firstOfRoutines_of_declareFunctions Nat.one_ne_zero hdecl
      (fun _ h => absurd h List.not_mem_nil) ⟨fun _ h => absurd h List.not_mem_nil, List.nodup_nil⟩
  have hm : Mirrors functions [] ⟨⟨.script, []⟩, [functions]⟩ :=
    ⟨by simp [Scopes.symbols], fun _ h => absurd h List.not_mem_nil⟩
  have hrun := settles_checkTop ⟨functions, 0, none, .program, 0, 0⟩ rfl hr p.stmts []
    ⟨⟨⟨.script, []⟩, [functions]⟩, 0, [], []⟩ rfl hm hnodup
  obtain ⟨ss', hss, htop⟩ := hrun.of_ok hlist
  obtain rfl : stmts = ss' := by simpa using hss
  have hfunctions : ∀ sym ∈ functions.declared, ∃ f ∈ functionsOf p.stmts,
      sym.name = f.name.name := fun sym hsym => by
    obtain ⟨-, f, hf, hname, -⟩ := (hsyms sym hsym).resolve_left List.not_mem_nil
    exact ⟨f, hf, hname⟩
  have hnodup' : ((functionsOf stmts).map fun f => f.name.name).Nodup := by
    have hnames := congrArg (List.map Ident.name) htop.names
    simp only [List.map_map] at hnames
    exact hnames ▸ hnodup
  obtain ⟨syms, hsyms', hids, -⟩ := htop.distinct
  exact ⟨htop.uses, htop.declares, htop.names, fun o ho => htop.declaration hfunctions ho,
    ⟨syms, hsyms', hids⟩, fun before f after hsplit o ho s hs d hd =>
      htop.confined hr hnodup' hsplit ho hs hd⟩

/-- What the checker accepts is scoped lexically, and a program with a name that has no declaration is
rejected. -/
theorem Program.check_lexical (p : Program) :
    (∀ c, p.check = .ok c → c.Lexical p) ∧
      ((∃ o ∈ p.occurrences, o.declaration? p.functions = none) → ∃ d, p.check = .error d) := by
  refine ⟨fun c => Program.check_scopes, fun ⟨o, ho, hnone⟩ => ?_⟩
  cases hc : p.check with
  | error d => exact ⟨d, rfl⟩
  | ok c => exact absurd hnone ((Program.check_scopes hc).declared ho)

/-- A parameter, a variable of a block and a parameter of a lambda that hide a variable of the script,
a variable that hides a function behind it, and a function that cannot see a variable of the script. -/
theorem Program.check_lexical_shadowing :
    (∃ (p : Program) (c : Checked), p.OfText ("val x = 1\nfun f(x: Int): Int \x7b return g(x) \x7d\n" ++
      "fun g(y: Int): Int \x7b return y \x7d\nfor (i in 1..f(x)) \x7b val x = f(i); println(x) \x7d\n" ++
      "val f = \x7b x: Int -> x \x7d\nprintln(f(x))").toList ∧ p.check = .ok c ∧ c.Lexical p ∧
      c.program.occurrences.map (fun o => (o.id.name, o.id.sym.map Symbol.id)) =
        [("g", some ⟨2, 0⟩), ("x", some ⟨1, 1⟩), ("y", some ⟨2, 1⟩), ("f", some ⟨1, 0⟩),
          ("x", some ⟨0, 0⟩), ("f", some ⟨1, 0⟩), ("i", some ⟨0, 1⟩), ("x", some ⟨0, 2⟩),
          ("x", some ⟨0, 3⟩), ("f", some ⟨0, 4⟩), ("x", some ⟨0, 0⟩)]) ∧
      ∃ p : Program, p.OfText "val x = 1\nfun f() \x7b println(x) \x7d" ∧
        ∃ d, p.check = .error d := by
  constructor
  · have hrun : ((Program.ofText? ("val x = 1\nfun f(x: Int): Int \x7b return g(x) \x7d\n" ++
      "fun g(y: Int): Int \x7b return y \x7d\nfor (i in 1..f(x)) \x7b val x = f(i); println(x) \x7d\n" ++
      "val f = \x7b x: Int -> x \x7d\nprintln(f(x))").toList).map fun p => p.check.toOption.map fun c =>
        c.program.occurrences.map fun o => (o.id.name, o.id.sym.map Symbol.id)) =
        some (some [("g", some ⟨2, 0⟩), ("x", some ⟨1, 1⟩), ("y", some ⟨2, 1⟩), ("f", some ⟨1, 0⟩),
          ("x", some ⟨0, 0⟩), ("f", some ⟨1, 0⟩), ("i", some ⟨0, 1⟩), ("x", some ⟨0, 2⟩),
          ("x", some ⟨0, 3⟩), ("f", some ⟨0, 4⟩), ("x", some ⟨0, 0⟩)]) := by decide +kernel
    obtain ⟨p, hp, hc⟩ := Option.map_eq_some_iff.mp hrun
    obtain ⟨c, hc, hnames⟩ := Option.map_eq_some_iff.mp hc
    have hok : p.check = .ok c := by
      cases h : p.check with
      | error d => rw [h] at hc; cases hc
      | ok k => rw [h] at hc; exact congrArg _ (Option.some.inj hc)
    exact ⟨p, c, Program.ofText_of_eq_some hp, hok, (Program.check_lexical p).1 c hok, hnames⟩
  · have hrun : (Program.ofText? "val x = 1\nfun f() \x7b println(x) \x7d").map (fun p =>
        p.occurrences.map fun o => (o.declaration? p.functions).isSome) = some [false] := by
      decide +kernel
    obtain ⟨p, hp, hnone⟩ := Option.map_eq_some_iff.mp hrun
    refine ⟨p, Program.ofText_of_eq_some hp, (Program.check_lexical p).2 ?_⟩
    obtain ⟨o, ho, heq⟩ := List.mem_map.mp (hnone ▸ List.mem_singleton_self false)
    exact ⟨o, ho, by simpa using heq⟩

end Kotlet

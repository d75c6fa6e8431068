import Kotlet.Proofs.Sample.Checking

/-!
# The statements of sample programs pass the checker

* `Fits` : states of the checker in which the names of a sample program mean what they should;
* `Accepted` : statements that the checker accepts, and that run without a fault afterwards;
* `passes_checkWritable` : names that are assigned;
* `accepted_decl` .. `accepted_counting` : one lemma for each form;
* `Follows.accepted` : all statements of sample programs.
-/

namespace Kotlet
namespace Sample

open Typing

/-! ## Steps on statements -/

/-- The state of the checker fits the functions and variables that are known. -/
structure Fits (Φ : Signatures) (env : Env) (F : Arities) (S : List Var) (G : Scope) (s : State) :
    Prop where
  sound : Sound Φ env s
  knows : Knows F S G s.scopes

/-- Where statements stand: outside of lambdas, and inside a loop if they may leave one. -/
structure Stands (inLoop : Bool) (env : Env) : Prop where
  depth : env.depth = 0
  loops : inLoop = true → env.loops ≠ 0

/-- What checked statements come to: they run without a fault, and the state fits what is known
after them. -/
structure Arrives (Φ : Signatures) (env : Env) (F : Arities) (inLoop : Bool) (calls size : Nat)
    (G : Scope) (s : State) (S' : List Var) (ss' : List Stmt) (s' : State) : Prop where
  plain : functionsOf ss' = []
  next : s.next ≤ s'.next
  ends : ∃ G', Fits Φ env F S' G' s' ∧ Proceeds F inLoop calls size G ss' G'

/-- The checker accepts the statements. -/
def Accepted (F : Arities) (inLoop : Bool) (calls size : Nat) (S : List Var) (ss : List Stmt)
    (S' : List Var) : Prop :=
  ∀ (Φ : Signatures) (env : Env) (s : State) (G : Scope) (acc : List Stmt), Stands inLoop env →
    Fits Φ env F S G s → Ends (Stmt.checkList acc ss) env s (fun _ => False) fun r s' =>
      ∃ ss', r = acc.reverse ++ ss' ∧ Arrives Φ env F inLoop calls size G s S' ss' s'

section Steps

variable {α : Type} {Φ : Signatures} {env : Env} {F : Arities} {S S' S'' : List Var} {G : Scope}
  {s : State} {inLoop : Bool} {calls calls' k k' n : Nat} {ss ss' : List Stmt}

/-- In a state that fits, the variables in scope suffice. -/
theorem Passes.run {x : Check α} {C : α → Prop} {P : α → List Symbol → Prop}
    (h : Passes Φ env s.scopes x C P) (hs : Fits Φ env F S G s) :
    Ends x env s (fun _ => False) fun a s' => (C a ∧ P a G.symbols) ∧ s.next ≤ s'.next ∧
      s'.scopes = s.scopes ∧ Fits Φ env F S G s' := by
  refine (h s hs.sound rfl).mono fun a s' ⟨ha, he, hs', hP⟩ => ?_
  refine ⟨⟨ha, hP _ (hs.knows.symbols ▸ hs.sound.context) fun sym hsym _ => ?_⟩, he.next, he.scopes, hs',
    he.scopes ▸ hs.knows⟩
  rwa [← hs.knows.symbols, ← he.scopes]

theorem accepted_nil : Accepted F inLoop 0 0 S [] S := by
  intro Φ env s G acc _ hs
  exact ⟨[], by simp, rfl, Nat.le_refl _, G, hs, proceeds_nil F inLoop G⟩

theorem checkList_append (acc ss ss' : List Stmt) :
    Stmt.checkList acc (ss ++ ss') =
      Stmt.checkList acc ss >>= fun r => Stmt.checkList r.reverse ss' := by
  induction ss generalizing acc with
  | nil => simp [Stmt.checkList]
  | cons s ss ih =>
    rw [List.cons_append, Stmt.checkList, Stmt.checkList, bind_assoc]
    exact bind_congr fun s' => ih (s' :: acc)

theorem functionsOf_append (ss ss' : List Stmt) :
    functionsOf (ss ++ ss') = functionsOf ss ++ functionsOf ss' := List.filterMap_append

/-- Statements one after the other. -/
theorem Accepted.append (h : Accepted F inLoop calls k S ss S') (h' : Accepted F inLoop calls' k' S' ss' S'') :
    Accepted F inLoop (calls + calls') (max k k') S (ss ++ ss') S'' := by
  intro Φ env s G acc ho hs
  rw [checkList_append, ends_bind]
  refine (h Φ env s G acc ho hs).mono ?_
  rintro _ s₁ ⟨ts, rfl, hplain, hnext, G₁, hs₁, hruns⟩
  refine (h' Φ env s₁ G₁ _ ho hs₁).mono ?_
  rintro _ s₂ ⟨ts', rfl, hplain', hnext', G₂, hs₂, hruns'⟩
  refine ⟨ts ++ ts', by simp, ?_, Nat.le_trans hnext hnext', G₂, hs₂, hruns.append hruns'⟩
  rw [functionsOf_append, hplain, hplain']
  rfl

theorem Accepted.mono (h : Accepted F inLoop calls k S ss S') (hc : calls ≤ calls') (hk : k ≤ k') :
    Accepted F inLoop calls' k' S ss S' := by
  intro Φ env s G acc ho hs
  refine (h Φ env s G acc ho hs).mono ?_
  rintro r s' ⟨ss', hr, hplain, hnext, G', hs', hruns⟩
  exact ⟨ss', hr, hplain, hnext, G', hs', hruns.mono hc hk⟩

/-- One statement. -/
theorem accepted_one {st : Stmt} (h : ∀ (Φ : Signatures) (env : Env) (s : State) (G : Scope),
    Stands inLoop env → Fits Φ env F S G s → Ends st.check env s (fun _ => False) fun st' s' =>
      Arrives Φ env F inLoop calls n G s S' [st'] s') : Accepted F inLoop calls n S [st] S' := by
  intro Φ env s G acc ho hs
  unfold Stmt.checkList
  rw [ends_bind]
  refine (h Φ env s G ho hs).mono fun st' s' harrives => ?_
  exact ⟨[st'], List.reverse_cons, harrives⟩

/-- One statement that declares nothing and has none inside. -/
theorem accepted_simple {st : Stmt} (h : ∀ (Φ : Signatures) (env : Env) (sc : Scopes) (G : Scope),
    Stands inLoop env → Knows F S G sc → Passes Φ env sc st.check (fun st' => functionsOf [st'] = [])
      fun st' Γ => Γ = G.symbols → Proceeds F inLoop 0 n G [st'] G) :
    Accepted F inLoop 0 n S [st] S := by
  refine accepted_one fun Φ env s G ho hs => ?_
  refine ((h Φ env s.scopes G ho hs.knows).run hs).mono ?_
  rintro st' s' ⟨⟨hplain, hruns⟩, hnext, -, hs'⟩
  exact ⟨hplain, hnext, G, hs', hruns rfl⟩

/-- Notes about assignments concern nothing else. -/
theorem passes_noteLate {sc : Scopes} (f : State → List Late) :
    Passes Φ env sc (modify fun s => { s with late := f s } : Check PUnit) (fun _ => True)
      fun _ _ => True :=
  fun _ hs _ => ⟨trivial, ⟨rfl, Nat.le_refl _, Grow.refl _⟩,
    ⟨hs.context, hs.depth, hs.functions, hs.captured⟩, fun _ _ _ => trivial⟩

theorem Kind.Has.complete {kind : Kind} {t : Ty} (h : kind.Has t) : t.Complete ∧ t ≠ .unit := by
  cases kind with
  | number =>
    obtain rfl : t = .int := h
    simp [Ty.Complete]
  | collection =>
    obtain ⟨kind, rfl⟩ : ∃ kind : CollectionKind, t = kind.ty .int := h
    cases kind <;> simp [CollectionKind.ty, Ty.Complete, Scalar.isElement]
  | function =>
    obtain rfl : t = .fn [.int] (some .int) := h
    simp [Ty.Complete, Ty.AllComplete, Ty.CompleteOption]

/-- A variable is declared. -/
theorem Fits.declare (hs : Fits Φ env F S G s) {kind : Kind} {sym : Symbol} {w : Bool}
    (hd : sym.Declares env.routine s.next) (hdepth : sym.depth ≤ env.depth)
    (hfresh : IsFresh F S sym.name) (hty : kind.Has sym.ty) (hw : w = true → IsWritable (sym, w)) :
    Fits Φ env F (⟨sym.name, kind, w⟩ :: S) ((sym, w) :: G)
      { s with scopes := s.scopes.define sym, next := s.next + 1 } :=
  ⟨hs.sound.define hd hdepth, hs.knows.define hd.plain (hs.knows.id_ne hs.sound rfl hd) hfresh hty hw⟩

/-- Fresh symbols of a number, which later assignments leave alone. -/
theorem ends_declare_number (hs : Fits Φ env F S G s) {name : String} (hfresh : IsFresh F S name)
    (kind : Symbol.Kind) (hkind : kind ≠ .function) (constant : Bool) (site : Site) :
    Ends (Typing.declare name .int kind constant true site) env s (fun _ => False) fun sym s' =>
      (sym.name = name ∧ sym.ty = .int ∧ sym.kind = kind ∧ sym.constant = constant ∧
        sym.depth = env.depth) ∧ sym.Declares env.routine s.next ∧ s'.next = s.next + 1 ∧
        (∀ x ∈ G, x.1.id ≠ sym.id) ∧ s'.scopes.find? name = some sym ∧
        Fits Φ env F (⟨name, .number, false⟩ :: S) ((sym, false) :: G) s' := by
  refine (ends_declare_eq _ _ _ _ _ _ _).mono ?_
  rintro sym _ ⟨hsym, rfl⟩
  have hd : sym.Declares env.routine s.next := by
    subst hsym
    exact ⟨rfl, by simpa [Symbol.isFunction] using hkind, by simp [Ty.Complete], by simp⟩
  have hname : sym.name = name := hsym ▸ rfl
  have hty : sym.ty = .int := hsym ▸ rfl
  have hdepth : sym.depth = env.depth := hsym ▸ rfl
  subst hname
  refine ⟨⟨rfl, hty, hsym ▸ rfl, hsym ▸ rfl, hdepth⟩, hd, rfl, hs.knows.id_ne hs.sound rfl hd, ?_,
    hs.declare hd (Nat.le_of_eq hdepth) hfresh hty (by simp)⟩
  rw [find?_define, if_pos rfl]

end Steps

/-! ## Simple statements -/

section Simple

variable {Φ : Signatures} {env : Env} {F : Arities} {S S' S'' : List Var} {G : Scope} {sc : Scopes}
  {inLoop : Bool} {calls k n : Nat} {tok : Token} {e : Expr}

theorem Knows.isLocal (h : Knows F S G sc) {name : String} (hfresh : IsFresh F S name) :
    sc.isLocal name = false := by
  rw [Bool.eq_false_iff]
  intro hlocal
  obtain ⟨v, hv, hname⟩ := h.locals name hlocal
  exact hfresh.vars v hv hname

/-- A declaration. -/
theorem accepted_decl {w isMutable : Bool} {c : Nat} {name : Ident} {kind : Kind} (hk : k < n)
    (hfresh : IsFresh F S name.name) (hw : w = true → isMutable = true ∧ kind = .number)
    (he : IsValue F S k c kind e) :
    Accepted F inLoop c n S [.decl tok isMutable name none (some e)] (⟨name.name, kind, w⟩ :: S) := by
  refine accepted_one fun Φ env s G ho hs => ?_
  unfold Stmt.check checkDecl
  rw [ends_bind, ends_get, hs.knows.isLocal hfresh, if_neg (by simp), if_neg nofun]
  simp only
  rw [ends_bind]
  refine ((passes_value he hs.knows).run hs).mono ?_
  rintro ⟨e', t⟩ s₁ ⟨⟨ht, hgives⟩, hnext, hsc, hs₁⟩
  simp only [requireValue, if_neg ht.complete.2, pure_bind]
  rw [ends_bind]
  refine (ends_declare_eq _ _ _ _ _ _ _).mono ?_
  rintro sym s₂ ⟨hsym, rfl⟩
  have hd : sym.Declares env.routine s₁.next := by
    subst hsym
    exact ⟨rfl, rfl, ht.complete.1, ht.complete.2⟩
  have hname : sym.name = name.name := hsym ▸ rfl
  have hty : kind.Has sym.ty := hsym ▸ ht
  have hdepth : sym.depth = env.depth := hsym ▸ rfl
  have hwritable : w = true → IsWritable (sym, w) := by
    intro hflag
    obtain ⟨rfl, -⟩ := hw hflag
    subst hsym
    exact ⟨hflag, rfl, rfl, ho.depth⟩
  have hs₂ := hs₁.declare hd (Nat.le_of_eq hdepth) (hname ▸ hfresh) hty hwritable
  rw [hname] at hs₂
  have hnew := hs₁.knows.id_ne hs₁.sound rfl hd
  have hgives' : Gives F G.symbols k c e' sym.ty := hsym ▸ hgives
  exact ⟨rfl, Nat.le_succ_of_le hnext, _, hs₂, proceeds_decl hk rfl hnew hgives'⟩

/-! ### Assignments -/

theorem passes_get : Passes Φ env sc (get : Check State) (fun _ => True) fun _ _ => True :=
  fun s hs _ => ⟨trivial, Extends.refl s, hs, fun _ _ _ => trivial⟩

theorem passes_env : Passes Φ env sc (read : Check Env) (fun a => a = env) fun _ _ => True :=
  fun s hs _ => ⟨rfl, Extends.refl s, hs, fun _ _ _ => trivial⟩

theorem passes_requireValue {e : Expr} {t : Ty} (h : t ≠ .unit) :
    Passes Φ env sc (requireValue e t) (fun _ => True) fun _ _ => True := by
  unfold requireValue
  rw [if_neg h]
  exact .pure trivial fun _ => trivial

/-- The checker lets a variable be assigned where it was declared. -/
structure Assignable (env : Env) (sym : Symbol) : Prop where
  plain : sym.isFunction = false
  kind : sym.kind = .variable
  mutable : sym.constant = false
  depth : sym.depth = env.depth

theorem passes_checkWritable {id : Ident} {sym : Symbol} (hfind : sc.find? id.name = some sym)
    (hsym : Assignable env sym) (first : Bool) :
    Passes Φ env sc (id.checkWritable first) (fun a => a = sym) fun _ _ => True := by
  have hcaptured : Passes Φ env sc (isCaptured sym) (fun b => b = false) fun _ _ => True := by
    refine passes_env.bind ?_
    rintro _ rfl
    exact .pure (by simp [hsym.depth]) fun _ _ => trivial
  unfold Ident.checkWritable
  refine (passes_resolve? hfind).bind ?_
  rintro _ rfl
  refine passes_get.bind fun s _ => ?_
  extract_lets assigned loops
  rw [if_neg (by simp [hsym.plain]), if_neg (by simp [hsym.kind])]
  refine hcaptured.bind ?_
  rintro _ rfl
  simp only [hsym.mutable, Bool.false_and, Bool.false_eq_true, if_false]
  refine passes_env.bind ?_
  rintro _ rfl
  exact .pure rfl fun _ _ _ _ _ => trivial

/-- A variable that may be assigned. -/
theorem Knows.writable (hk : Knows F S G sc) {name : String} (h : ⟨name, .number, true⟩ ∈ S)
    (hd : env.depth = 0) : ∃ sym ∈ G.symbols, sc.find? name = some sym ∧ Assignable env sym ∧
      Writable G sym := by
  obtain ⟨x, hx, hfind, hty, hw⟩ := hk.vars _ h
  obtain ⟨hflag, hkind, hconst, hdepth⟩ := hw rfl
  refine ⟨x.1, List.mem_map_of_mem hx, hfind, ⟨hk.plain hx, hkind, hconst, hdepth.trans hd.symm⟩, hty, ?_⟩
  intro y hy hid
  obtain rfl : y = x := List.inj_on_of_nodup_map hk.nodup hy hx hid
  exact ⟨hflag, hty⟩

theorem accepted_assign {id : Ident} (hk : k < n) (hid : ⟨id.name, .number, true⟩ ∈ S)
    (he : IsNumber F S k e) : Accepted F inLoop 0 n S [.assign tok (.name id) e] S := by
  refine accepted_simple fun Φ env sc G ho hknows => ?_
  obtain ⟨sym, hmem, hfind, hassign, hwritable⟩ := hknows.writable hid ho.depth
  unfold Stmt.check checkAssign
  refine (passes_checkWritable hfind hassign true).bind ?_
  rintro _ rfl
  refine (passes_number he hknows _).typed fun e' => ?_
  refine (passes_requireValue (by simp)).bind fun _ _ => ?_
  rw [hwritable.1, if_neg (by decide)]
  refine (passes_noteLate _).bind fun _ _ => ?_
  refine .pure rfl fun Γ _ _ hgives _ hΓ => ?_
  exact proceeds_assign hk rfl hwritable (hΓ ▸ hgives)

theorem accepted_assignElement {m m' : Mark} {base : Ident} {i : Int32} (hk : k < n) (hn : 1 < n)
    (hbase : InScope S .collection base.name) (hi : IsIndex i) (he : IsNumber F S k e) :
    Accepted F inLoop 0 n S [.assign tok (.element m base (.int m' i)) e] S := by
  refine accepted_simple fun Φ env sc G ho hknows => ?_
  unfold Stmt.check checkAssign
  refine (passes_element hknows hbase).typed fun target => ?_
  refine (passes_number he hknows _).typed fun e' => ?_
  refine (passes_requireValue (by simp)).bind fun _ _ => ?_
  rw [if_neg (by decide)]
  refine .pure rfl fun Γ _ hgives htarget hΓ => ?_
  cases htarget with
  | mk hnames => exact proceeds_assignElement hk hn (hΓ ▸ hnames) hi (hΓ ▸ hgives)

theorem passes_checkInt_name {id : Ident} {sym : Symbol} {op : String} (hfind : sc.find? id.name = some sym)
    (hsym : Assignable env sym) (hty : sym.ty = .int) :
    Passes Φ env sc ((Target.name id).checkInt op)
      (fun p => (∃ id', p.1 = .name id' ∧ id'.sym = some sym) ∧ p.2 = .int) fun _ _ => True := by
  unfold Target.checkInt
  refine (passes_checkWritable hfind hsym false).bind ?_
  rintro _ rfl
  rw [if_neg (by simp [hty])]
  exact .pure ⟨⟨_, rfl, rfl⟩, hty⟩ fun _ _ => trivial

theorem passes_checkInt_element (hk : Knows F S G sc) {m m' : Mark} {base : Ident} {i : Int32} {op : String}
    (hbase : InScope S .collection base.name) :
    Passes Φ env sc ((Target.element m base (.int m' i)).checkInt op) (fun p => p.2 = .int)
      fun p Γ => IsElement Γ i p.1 := by
  unfold Target.checkInt
  refine (passes_checkRead hk hbase).bind ?_
  rintro ⟨base', _⟩ ⟨kind, rfl⟩
  have helement : (kind.ty .int).element? = some .int := by cases kind <;> rfl
  simp only [helement, Expr.check, pure_bind, requireType, if_pos]
  exact .pure rfl fun Γ hnames => .mk hnames

theorem accepted_compound {op : String} {id : Ident} (hk : k < n) (hop : Total (compoundOperator op))
    (hid : ⟨id.name, .number, true⟩ ∈ S) (he : IsNumber F S k e) :
    Accepted F inLoop 0 n S [.compound tok (.name id) op e] S := by
  refine accepted_simple fun Φ env sc G ho hknows => ?_
  obtain ⟨sym, hmem, hfind, hassign, hwritable⟩ := hknows.writable hid ho.depth
  unfold Stmt.check checkCompound
  refine (passes_checkInt_name hfind hassign hwritable.1).bind ?_
  rintro ⟨_, _⟩ ⟨⟨id', rfl, hsym⟩, rfl⟩
  refine (passes_number he hknows _).typed fun e' => ?_
  refine .pure rfl fun Γ hgives _ hΓ => ?_
  exact proceeds_compound hk hop hsym hmem hwritable (hΓ ▸ hgives)

theorem accepted_compoundElement {op : String} {m m' : Mark} {base : Ident} {i : Int32} (hk : k < n)
    (hn : 1 < n) (hop : Total (compoundOperator op)) (hbase : InScope S .collection base.name)
    (hi : IsIndex i) (he : IsNumber F S k e) :
    Accepted F inLoop 0 n S [.compound tok (.element m base (.int m' i)) op e] S := by
  refine accepted_simple fun Φ env sc G ho hknows => ?_
  unfold Stmt.check checkCompound
  refine (passes_checkInt_element hknows hbase).typed fun target => ?_
  refine (passes_number he hknows _).typed fun e' => ?_
  refine .pure rfl fun Γ hgives htarget hΓ => ?_
  cases htarget with
  | mk hnames => exact proceeds_compoundElement hk hn hop (hΓ ▸ hnames) hi (hΓ ▸ hgives)

theorem accepted_selfOp {before : Bool} {m : Mark} {op : String} {id : Ident} (hn : 0 < n)
    (hid : ⟨id.name, .number, true⟩ ∈ S) :
    Accepted F inLoop 0 n S [.selfOp tok (.mk m op before (.name id))] S := by
  refine accepted_simple fun Φ env sc G ho hknows => ?_
  obtain ⟨sym, hmem, hfind, hassign, hwritable⟩ := hknows.writable hid ho.depth
  unfold Stmt.check IncDec.check
  rw [bind_assoc]
  refine (passes_checkInt_name hfind hassign hwritable.1).bind ?_
  rintro ⟨_, _⟩ ⟨⟨id', rfl, hsym⟩, rfl⟩
  exact .pure rfl fun Γ _ _ => proceeds_selfOp hn hsym hmem hwritable

/-! ### Printing and leaving a loop -/

theorem accepted_print {newline : Bool} (hk : k < n) (he : IsPrinted F S k e) :
    Accepted F inLoop 0 n S [.print tok newline (some e)] S := by
  refine accepted_simple fun Φ env sc G ho hknows => ?_
  unfold Stmt.check
  refine (passes_printed he hknows none).bind ?_
  rintro ⟨e', t⟩ ht
  dsimp only
  rw [if_neg (by simpa using ht)]
  exact .pure rfl fun Γ hgives hΓ => proceeds_print hk (hΓ ▸ hgives)

theorem accepted_break (hn : 0 < n) (tok : Token) : Accepted F true 0 n S [.brk tok] S := by
  refine accepted_simple fun Φ env sc G ho hknows => ?_
  unfold Stmt.check checkJump
  refine passes_env.bind ?_
  rintro _ rfl
  rw [if_neg (ho.loops rfl)]
  exact .pure rfl fun Γ _ _ => proceeds_break hn tok

end Simple

/-! ## Compound statements -/

section Compound

variable {Φ : Signatures} {env : Env} {F : Arities} {S S' S'' : List Var} {G : Scope} {s : State}
  {inLoop : Bool} {calls k n : Nat} {tok brace close : Token} {e test : Expr} {ss ss' : List Stmt}

theorem passes_checkCondition {sc : Scopes} (hk : Knows F S G sc) (what : String) (h : IsTest F S k test) :
    Passes Φ env sc (checkCondition what test) (fun _ => True) fun c Γ => Gives F Γ k 0 c .boolean := by
  unfold checkCondition
  refine (passes_test h hk _).typed fun c => ?_
  simp only [requireType, if_pos, pure_bind]
  exact .pure trivial fun Γ hgives => hgives

/-- A block leaves the scope as it was. -/
theorem ends_block {P : List Stmt → Prop} (hd : env.depth = 0) (hs : Fits Φ env F S G s)
    (brace close : Token) (h : Ends (Stmt.checkList [] ss) env { s with scopes := s.scopes.enter .block }
      (fun _ => False) fun r s' => P r ∧ s.next ≤ s'.next ∧ Sound Φ env s') :
    Ends (Block.check (.mk brace ss close)) env s (fun _ => False) fun body s' =>
      P body.stmts ∧ s.next ≤ s'.next ∧ s'.scopes = s.scopes ∧ Fits Φ env F S G s' := by
  unfold Block.check Typing.inScope
  simp only [ends_bind, ends_get, ends_modify, ends_pure]
  refine h.mono ?_
  rintro r s₁ ⟨hr, hnext, hs₁⟩
  exact ⟨hr, hnext, trivial, Sound.leave hd hs.sound hs₁ hnext, hs.knows⟩

theorem Fits.enter (hs : Fits Φ env F S G s) (kind : ScopeKind) :
    Fits Φ env F S G { s with scopes := s.scopes.enter kind } :=
  ⟨hs.sound.enter kind, hs.knows.enter kind⟩

theorem Accepted.ends_block (h : Accepted F inLoop calls k S ss S') (ho : Stands inLoop env)
    (hs : Fits Φ env F S G s) (brace close : Token) :
    Ends (Block.check (.mk brace ss close)) env s (fun _ => False) fun body s' =>
      (∃ G', Proceeds F inLoop calls k G body.stmts G') ∧ s.next ≤ s'.next ∧ s'.scopes = s.scopes ∧
        Fits Φ env F S G s' := by
  refine Sample.ends_block (P := fun ss' => ∃ G', Proceeds F inLoop calls k G ss' G') ho.depth hs brace close ?_
  refine (h Φ env _ G [] ho (hs.enter .block)).mono ?_
  rintro r s₁ ⟨ss', rfl, -, hnext, G', hs₁, hruns⟩
  exact ⟨⟨G', hruns⟩, hnext, hs₁.sound⟩

/-- Steps inside a loop. -/
theorem ends_inLoop {α : Type} {x : Check α} {P : α → Prop}
    (h : Ends x { env with loops := env.loops + 1 } s (fun _ => False) fun a s' =>
      P a ∧ s.next ≤ s'.next ∧ s'.scopes = s.scopes ∧ Fits Φ { env with loops := env.loops + 1 } F S G s') :
    Ends (Kotlet.inLoop x) env s (fun _ => False) fun a s' =>
      P a ∧ s.next ≤ s'.next ∧ s'.scopes = s.scopes ∧ Fits Φ env F S G s' := by
  unfold Kotlet.inLoop
  rw [ends_withReader]
  refine h.mono ?_
  rintro a s₁ ⟨ha, hnext, hscopes, hs₁⟩
  exact ⟨ha, hnext, hscopes, ⟨hs₁.sound.context, hs₁.sound.depth, hs₁.sound.functions,
    hs₁.sound.captured⟩, hs₁.knows⟩

theorem Fits.looping (hs : Fits Φ env F S G s) : Fits Φ { env with loops := env.loops + 1 } F S G s :=
  ⟨⟨hs.sound.context, hs.sound.depth, hs.sound.functions, hs.sound.captured⟩, hs.knows⟩

theorem Stands.looping (ho : Stands inLoop env) : Stands true { env with loops := env.loops + 1 } :=
  ⟨ho.depth, fun _ => Nat.succ_ne_zero _⟩

/-- Notes about assignments concern nothing else. -/
theorem Fits.late (hs : Fits Φ env F S G s) (late : List Late) : Fits Φ env F S G { s with late := late } :=
  ⟨⟨hs.sound.context, hs.sound.depth, hs.sound.functions, hs.sound.captured⟩, hs.knows⟩

/-- `if`, with or without `else`. -/
theorem accepted_ifElse {elseB : Option Block} (hk : k < n) (htest : IsTest F S k test)
    (hthen : Accepted F inLoop calls k S ss S')
    (helse : ∀ b ∈ elseB, ∃ brace ss' close S'', b = .mk brace ss' close ∧
      Accepted F inLoop calls k S ss' S'') :
    Accepted F inLoop calls n S [.ifElse tok test (.mk brace ss close) elseB] S := by
  refine accepted_one fun Φ env s G ho hs => ?_
  unfold Stmt.check
  rw [ends_bind]
  refine ((passes_checkCondition hs.knows _ htest).run hs).mono ?_
  rintro c s₁ ⟨⟨-, hgives⟩, hnext, -, hs₁⟩
  rw [ends_bind, ends_get, ends_bind]
  refine (hthen.ends_block ho hs₁ brace close).mono ?_
  rintro body s₂ ⟨⟨G', hruns⟩, hnext', -, hs₂⟩
  rw [ends_bind, ends_get, ends_bind, ends_modify, ends_bind]
  have hsteps : Ends (Block.checkOption elseB) env { s₂ with late := rewind s₁.late s₂.late }
      (fun _ => False) fun elseB' s₃ => (∀ b ∈ elseB', ∃ G'', Proceeds F inLoop calls k G b.stmts G'') ∧
        s₂.next ≤ s₃.next ∧ Fits Φ env F S G s₃ := by
    cases elseB with
    | none => exact ⟨nofun, Nat.le_refl _, hs₂.late _⟩
    | some b =>
      obtain ⟨brace', ss', close', S'', rfl, hb⟩ := helse b rfl
      unfold Block.checkOption
      rw [ends_bind]
      refine (hb.ends_block ho (hs₂.late _) brace' close').mono ?_
      rintro b' s₃ ⟨hb', hnext'', -, hs₃⟩
      exact ⟨by simpa using hb', hnext'', hs₃⟩
  refine hsteps.mono ?_
  rintro elseB' s₃ ⟨hb', hnext'', hs₃⟩
  refine ⟨rfl, ?_, G, hs₃.late _, proceeds_ifElse hk hgives hruns hb'⟩
  change s.next ≤ s₃.next
  omega

/-- `for` over numbers, whatever its header. -/
theorem accepted_forLoop {id : Ident} {header : Header} {H : Header → List Symbol → Prop}
    (hheader : ∀ (Φ : Signatures) (env : Env) (sc : Scopes) (G : Scope), Knows F S G sc →
      Passes Φ env sc header.check (fun p => p.2 = .int) fun p Γ => H p.1 Γ)
    (hfresh : IsFresh F S id.name) (hbody : Accepted F true calls k (⟨id.name, .number, false⟩ :: S) ss S')
    (hruns : ∀ (G G' : Scope) (header' : Header) (id' : Ident) (sym : Symbol) (body : Block),
      H header' G.symbols → id'.sym = some sym → sym.ty = .int → (∀ x ∈ G, x.1.id ≠ sym.id) →
      Proceeds F true calls k ((sym, false) :: G) body.stmts G' →
      Proceeds F inLoop calls n G [.forLoop tok id' header' body] G) :
    Accepted F inLoop calls n S [.forLoop tok id header (.mk brace ss close)] S := by
  refine accepted_one fun Φ env s G ho hs => ?_
  unfold Stmt.check
  rw [ends_bind]
  refine ((hheader Φ env _ G hs.knows).run hs).mono ?_
  rintro ⟨header', _⟩ s₁ ⟨⟨rfl, hH⟩, hnext, -, hs₁⟩
  unfold Typing.inScope
  simp only [ends_bind, ends_get, ends_modify, ends_pure]
  have hinner : Fits Φ env F S G { s₁ with scopes := s₁.scopes.enter .block } :=
    ⟨hs₁.sound.enter .block, hs₁.knows.enter .block⟩
  refine (ends_declare_number hinner hfresh .variable (by decide) true _).mono ?_
  rintro sym s₂ ⟨⟨-, hty, -⟩, -, hnext', hnew, -, hs₂⟩
  refine (ends_inLoop (hbody.ends_block ho.looping hs₂.looping brace close)).mono ?_
  rintro body s₃ ⟨⟨G', hproceeds⟩, hnext'', -, hs₃⟩
  have hle : s₁.next + 1 ≤ s₃.next := hnext' ▸ hnext''
  refine ⟨rfl, ?_, G, ⟨Sound.leave ho.depth hs₁.sound hs₃.sound (by omega), hs₁.knows⟩,
    hruns G G' header' _ sym body hH rfl hty hnew hproceeds⟩
  change s.next ≤ s₃.next
  omega

/-- A bound that is written out. -/
theorem checkBound_int (what : String) (m : Mark) (i : Int32) :
    checkBound what (.int m i) = (pure (.int { m with ty := some .int } i) : Check Expr) := by
  simp [checkBound, Expr.check, requireType]

theorem accepted_range {id : Ident} {m m₁ m₂ : Mark} {first last : Int32} {step : Option Expr}
    (hk : k < n) (hn : 1 < n) (hfresh : IsFresh F S id.name) (hstep : IsStep step)
    (hbody : Accepted F true calls k (⟨id.name, .number, false⟩ :: S) ss S') :
    Accepted F inLoop calls n S
      [.forLoop tok id (.range (.mk m (.int m₁ first) (.int m₂ last) step)) (.mk brace ss close)] S := by
  refine accepted_forLoop (H := fun header _ => ∃ m m₁ m₂ step',
    header = .range (.mk m (.int m₁ first) (.int m₂ last) step') ∧ IsStep step') ?_ hfresh hbody ?_
  · intro Φ env sc G hk
    unfold Header.check
    simp only [checkBound_int, pure_bind]
    cases step with
    | none => exact .pure rfl fun Γ => ⟨_, _, _, none, rfl, by simp [IsStep]⟩
    | some e =>
      obtain ⟨m₃, i, rfl, hi⟩ := hstep e rfl
      simp only [checkBound_int, pure_bind, if_neg hi]
      exact .pure rfl fun Γ => ⟨_, _, _, _, rfl, by rintro _ ⟨⟩; exact ⟨_, i, rfl, hi⟩⟩
  · rintro G G' _ id' sym body ⟨m, m₁, m₂, step', rfl, hstep'⟩ hid hty hnew hruns
    exact proceeds_rangeLoop hk hn hid hty hnew hstep' hruns

theorem accepted_each {id base : Ident} (hk : k < n) (hn : 1 < n) (hfresh : IsFresh F S id.name)
    (hbase : InScope S .collection base.name)
    (hbody : Accepted F true calls k (⟨id.name, .number, false⟩ :: S) ss S') :
    Accepted F inLoop calls n S [.forLoop tok id (.each (.read (.name base))) (.mk brace ss close)] S := by
  refine accepted_forLoop (H := fun header Γ => ∃ base' kind,
    header = .each (.read (.name base')) ∧ Names Γ base' (CollectionKind.ty kind .int)) ?_ hfresh hbody ?_
  · intro Φ env sc G hk
    unfold Header.check
    refine (passes_read hk hbase none).bind ?_
    rintro ⟨e, _⟩ ⟨kind, rfl⟩
    have helement : (kind.ty .int).element? = some .int := by cases kind <;> rfl
    simp only [helement]
    refine .pure rfl fun Γ hread => ?_
    obtain ⟨base', rfl, hnames⟩ := hread
    exact ⟨base', kind, rfl, hnames⟩
  · rintro G G' _ id' sym body ⟨base', kind, rfl, hnames⟩ hid hty hnew hruns
    exact proceeds_eachLoop hk hn hid hty hnew hnames hruns

/-! ### Counting -/

/-- A counter is declared. -/
theorem ends_counter {name : Ident} {m : Mark} (hs : Fits Φ env F S G s)
    (hfresh : IsFresh F S name.name) :
    Ends (Stmt.check (.decl tok true name none (some (.int m 0)))) env s (fun _ => False) fun st s' =>
      ∃ (sym : Symbol) (m' : Mark), st = .decl tok true { name with sym := some sym } none (some (.int m' 0)) ∧
        Assignable env sym ∧ sym.ty = .int ∧ (∀ x ∈ G, x.1.id ≠ sym.id) ∧ s.next ≤ s'.next ∧
        s'.scopes.find? name.name = some sym ∧
        Fits Φ env F (⟨name.name, .number, false⟩ :: S) ((sym, false) :: G) s' := by
  unfold Stmt.check checkDecl
  rw [ends_bind, ends_get, hs.knows.isLocal hfresh, if_neg (by simp), if_neg nofun]
  simp only [Expr.check, pure_bind, requireValue, if_neg (by decide : ¬ Ty.int = .unit)]
  rw [ends_bind]
  refine (ends_declare_number hs hfresh .variable (by decide) _ _).mono ?_
  rintro sym s₁ ⟨⟨-, hty, hkind, hconst, hdepth⟩, hd, hnext, hnew, hfind, hs₁⟩
  exact ⟨sym, _, rfl, ⟨hd.plain, hkind, hconst, hdepth⟩, hty, hnew, by omega, hfind, hs₁⟩

/-- The condition of a loop that counts. -/
theorem passes_counting {sc : Scopes} {sym : Symbol} {m m' : Mark} {id : Ident} {bound : Int32}
    (hfind : sc.find? id.name = some sym) (hty : sym.ty = .int) (what : String) :
    Passes Φ env sc (checkCondition what (.compare m "<" (.read (.name id)) (.int m' bound)))
      (fun c => ∃ m m' id', c = .compare m "<" (.read (.name id')) (.int m' bound) ∧ id'.sym = some sym)
      fun _ _ => True := by
  unfold checkCondition Expr.check
  simp only [Expr.check, Target.check, Ident.checkRead, bind_assoc]
  refine (passes_resolve? hfind).bind ?_
  rintro _ rfl
  simp only [pure_bind, hty, comparable_of_ordered (.inl rfl), if_pos, requireType]
  exact .pure ⟨_, _, _, rfl, rfl⟩ fun _ _ => trivial

/-- The body of a loop that counts: the counter is assigned before anything else, which cannot assign
it. -/
theorem ends_countingBody {before : Bool} {m : Mark} {id : Ident} {sym : Symbol} {v : Var}
    (hbody : Accepted F true calls k (v :: S) ss S') (ho : Stands inLoop env)
    (hs : Fits Φ env F (v :: S) ((sym, false) :: G) s) (hassign : Assignable env sym)
    (hty : sym.ty = .int) (hfind : s.scopes.find? id.name = some sym) :
    Ends (Kotlet.inLoop (Block.check (.mk brace (.selfOp tok (.mk m "++" before (.name id)) :: ss) close)))
      env s (fun _ => False) fun body s' => (∃ m' id' ss' G',
        body.stmts = .selfOp tok (.mk m' "++" before (.name id')) :: ss' ∧ id'.sym = some sym ∧
        Proceeds F true calls k ((sym, false) :: G) ss' G') ∧ s.next ≤ s'.next ∧
        s'.scopes = s.scopes ∧ Fits Φ env F (v :: S) ((sym, false) :: G) s' := by
  refine ends_inLoop ?_
  refine ends_block (P := fun r => ∃ m' id' ss' G',
    r = .selfOp tok (.mk m' "++" before (.name id')) :: ss' ∧ id'.sym = some sym ∧
      Proceeds F true calls k ((sym, false) :: G) ss' G') ho.looping.depth hs.looping brace close ?_
  have hassign' : Assignable { env with loops := env.loops + 1 } sym :=
    ⟨hassign.plain, hassign.kind, hassign.mutable, hassign.depth⟩
  have hfind' : (s.scopes.enter .block).find? id.name = some sym := hfind
  unfold Stmt.checkList Stmt.check IncDec.check
  simp only [bind_assoc]
  rw [ends_bind]
  refine ((passes_checkInt_name hfind' hassign' hty).run (hs.looping.enter .block)).mono ?_
  rintro ⟨_, _⟩ s₁ ⟨⟨⟨⟨id', rfl, hid'⟩, rfl⟩, -⟩, hnext, -, hs₁⟩
  simp only [pure_bind]
  refine (hbody Φ _ s₁ _ _ ho.looping hs₁).mono ?_
  rintro _ s₂ ⟨ss', rfl, -, hnext', G', hs₂, hruns⟩
  exact ⟨⟨_, id', ss', G', rfl, hid', hruns⟩, Nat.le_trans hnext hnext', hs₂.sound⟩

theorem accepted_counting {before : Bool} {tok' tok'' : Token} {m m₁ m₂ m₃ : Mark} {name id id' : Ident}
    {bound : Int32} (hk : 1 < k) (hn : k < n) (hn' : 6 < n) (hfresh : IsFresh F S name.name)
    (hid : id.name = name.name) (hid' : id'.name = name.name) (hbound : bound.toInt ≤ 4)
    (hbody : Accepted F true calls k (⟨name.name, .number, false⟩ :: S) ss S') :
    Accepted F inLoop calls n S
      [.decl tok true name none (some (.int m 0)),
        .whileLoop tok' (.compare m₁ "<" (.read (.name id)) (.int m₂ bound))
          (.mk brace (.selfOp tok'' (.mk m₃ "++" before (.name id')) :: ss) close)]
      (⟨name.name, .number, false⟩ :: S) := by
  intro Φ env s G acc ho hs
  unfold Stmt.checkList
  rw [ends_bind]
  refine (ends_counter hs hfresh).mono ?_
  rintro _ s₁ ⟨sym, m', rfl, hassign, hty, hnew, hnext, hfind, hs₁⟩
  unfold Stmt.checkList Stmt.check
  simp only [bind_assoc]
  rw [ends_bind]
  refine ((passes_counting (hid ▸ hfind) hty _).run hs₁).mono ?_
  rintro _ s₂ ⟨⟨⟨m₁', m₂', id₁, rfl, hid₁⟩, -⟩, hnext', hscopes, hs₂⟩
  have hfind₂ : s₂.scopes.find? id'.name = some sym := by rw [hscopes, hid', hfind]
  rw [ends_bind]
  refine (ends_countingBody hbody ho hs₂ hassign hty hfind₂).mono ?_
  rintro body s₃ ⟨⟨m₃', id₂, ss', G', hstmts, hid₂, hruns⟩, hnext'', -, hs₃⟩
  have hproceeds : Proceeds F inLoop calls n G
      [.decl tok true { name with sym := some sym } none (some (.int m' 0)),
        .whileLoop tok' (.compare m₁' "<" (.read (.name id₁)) (.int m₂' bound)) body] ((sym, false) :: G) :=
    proceeds_while hk hn hn' rfl hid₁ hid₂ hty hassign.plain hnew hbound hstmts hruns
  exact ⟨_, by simp, rfl, by omega, _, hs₃, hproceeds⟩

end Compound

/-! ## All statements -/

/-- The checker accepts what sample programs consist of, and it runs without a fault. -/
theorem Follows.accepted {F : Arities} {b : Bool} {c k : Nat} {S S' : List Var} {ss : List Stmt}
    (h : Follows F b c k S ss S') : Accepted F b c k S ss S' := by
  induction h with
  | nil => exact accepted_nil
  | append _ _ ih ih' => exact ih.append ih'
  | weaken hc hk _ ih => exact ih.mono hc hk
  | decl hk hfresh hw he => exact accepted_decl hk hfresh hw he
  | assign hk hid he => exact accepted_assign hk hid he
  | assignElement hk hn hbase hi he => exact accepted_assignElement hk hn hbase hi he
  | compound hk hop hid he => exact accepted_compound hk hop hid he
  | compoundElement hk hn hop hbase hi he => exact accepted_compoundElement hk hn hop hbase hi he
  | selfOp hn hid => exact accepted_selfOp hn hid
  | print hk he => exact accepted_print hk he
  | brk hn tok => exact accepted_break hn tok
  | ifThen hk htest _ ihthen => exact accepted_ifElse hk htest ihthen nofun
  | ifElse hk htest _ _ ihthen ihelse =>
    refine accepted_ifElse hk htest ihthen ?_
    rintro _ ⟨⟩
    exact ⟨_, _, _, _, rfl, ihelse⟩
  | range hk hn hfresh hstep _ ih => exact accepted_range hk hn hfresh hstep ih
  | each hk hn hfresh hbase _ ih => exact accepted_each hk hn hfresh hbase ih
  | counting hk hn hn' hfresh hid hid' hbound _ ih =>
    exact accepted_counting hk hn hn' hfresh hid hid' hbound ih

end Sample
end Kotlet

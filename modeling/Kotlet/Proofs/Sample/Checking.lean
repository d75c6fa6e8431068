import Kotlet.Proofs.Sample.Shape
import Kotlet.Proofs.Typing.Stmt

/-!
# Sample programs pass the checker

The names of a sample program mean what its generator takes them for, so the checker finds the types
that it wants, and what it fills in runs without a fault.

* `Knows` : a scope in which the names of a sample program mean what they should;
* `Passes` : steps of the checker that do not fail in such a scope;
* `passes_number`, `passes_test`, `passes_printed`, `passes_value` : expressions.
-/

namespace Kotlet
namespace Sample

open Typing

/-! ## Scopes -/

/-- The types of the variables of a kind. -/
def Kind.Has : Kind → Ty → Prop
  | .number, t => t = .int
  | .collection, t => ∃ kind : CollectionKind, t = kind.ty .int
  | .function, t => t = .fn [.int] (some .int)

/-- The checker lets a statement assign the variable. -/
structure IsWritable (x : Symbol × Bool) : Prop where
  flag : x.2 = true
  kind : x.1.kind = .variable
  mutable : x.1.constant = false
  depth : x.1.depth = 0

/-- The functions and variables that are known are found by their names. -/
structure Knows (F : Arities) (S : List Var) (G : Scope) (sc : Scopes) : Prop where
  symbols : sc.vars = G.symbols
  nodup : (G.map fun x => x.1.id).Nodup
  vars : ∀ v ∈ S, ∃ x ∈ G, sc.find? v.name = some x.1 ∧ v.kind.Has x.1.ty ∧
    (v.writable = true → IsWritable x)
  functions : ∀ f ∈ F, ∃ sym, sc.find? f.1 = some sym ∧ sym.isFunction = true ∧ sym.name = f.1 ∧
    sym.ty = .fn (List.replicate f.2 .int) (some .int)
  locals : ∀ name, sc.isLocal name = true → ∃ v ∈ S, v.name = name

/-! ## Steps of the checker -/

/-- The steps do not fail in a scope. Their result satisfies `C`, and `P` with any variables that
suffice. -/
def Passes {α : Type} (Φ : Signatures) (env : Env) (sc : Scopes) (x : Check α) (C : α → Prop)
    (P : α → List Symbol → Prop) : Prop :=
  ∀ s, Sound Φ env s → s.scopes = sc → Ends x env s (fun _ => False) fun a s' =>
    C a ∧ Extends s s' ∧ Sound Φ env s' ∧
      ∀ Γ, Context env.routine s.next Γ → Covers env s' Γ → P a Γ

section Passes

variable {α β : Type} {Φ : Signatures} {env : Env} {sc : Scopes} {x : Check α} {C C' : α → Prop}
  {P P' : α → List Symbol → Prop} {D : β → Prop} {Q : β → List Symbol → Prop}

theorem Passes.mono (h : Passes Φ env sc x C P) (hc : ∀ a, C a → C' a)
    (hp : ∀ a Γ, C a → P a Γ → P' a Γ) : Passes Φ env sc x C' P' :=
  fun s hs hsc => (h s hs hsc).mono fun a _ ⟨ha, he, hs', hP⟩ =>
    ⟨hc a ha, he, hs', fun Γ hctx hΓ => hp a Γ ha (hP Γ hctx hΓ)⟩

theorem Passes.pure {a : α} (hc : C a) (hp : ∀ Γ, P a Γ) : Passes Φ env sc (pure a) C P :=
  fun s hs _ => ⟨hc, Extends.refl s, hs, fun Γ _ _ => hp Γ⟩

theorem Passes.bind {f : α → Check β} (h : Passes Φ env sc x C P)
    (hf : ∀ a, C a → Passes Φ env sc (f a) D fun b Γ => P a Γ → Q b Γ) :
    Passes Φ env sc (x >>= f) D Q := by
  intro s hs hsc
  rw [ends_bind]
  refine (h s hs hsc).mono fun a s' ⟨ha, he, hs', hP⟩ => ?_
  refine (hf a ha s' hs' (he.scopes.trans hsc)).mono fun b s'' ⟨hb, he', hs'', hQ⟩ => ?_
  refine ⟨hb, he.trans he', hs'', fun Γ hctx hΓ => ?_⟩
  exact hQ Γ (hctx.mono he.next) hΓ (hP Γ hctx (hΓ.of_extends he'))

/-- What comes after steps that find a type. -/
theorem Passes.typed {t : Ty} {x : Check (α × Ty)} {P : α × Ty → List Symbol → Prop}
    {f : α × Ty → Check β} (h : Passes Φ env sc x (fun p => p.2 = t) P)
    (hf : ∀ a, Passes Φ env sc (f (a, t)) D fun b Γ => P (a, t) Γ → Q b Γ) :
    Passes Φ env sc (x >>= f) D Q := by
  refine h.bind ?_
  rintro ⟨a, _⟩ rfl
  exact hf a

/-- A name that is found. -/
theorem passes_resolve? {name : String} {sym : Symbol} (h : sc.find? name = some sym) :
    Passes Φ env sc (resolve? name) (· = some sym)
      fun _ Γ => sym.isFunction = false → sym ∈ Γ := by
  rintro s hs rfl
  have hfound : Ends (resolve? name) env s (fun _ => False) fun o _ => o = some sym := by
    unfold resolve?
    rw [ends_bind, ends_read, ends_bind, ends_get, h]
    dsimp only
    split <;> exact rfl
  refine ((steps_resolve? name s hs).and_total hfound).mono ?_
  rintro o s' ⟨⟨-, he, hs', hP⟩, rfl⟩
  exact ⟨rfl, he, hs', fun Γ _ hΓ => (hP Γ hΓ).2 sym rfl⟩

end Passes

/-! ## Names -/

section Names

variable {Φ : Signatures} {env : Env} {sc : Scopes} {F : Arities} {S : List Var} {G : Scope}

theorem Knows.plain (h : Knows F S G sc) {x : Symbol × Bool} (hx : x ∈ G) : x.1.isFunction = false := by
  have hmem : x.1 ∈ sc.vars := h.symbols ▸ List.mem_map_of_mem hx
  exact (Scopes.mem_vars.mp hmem).2

theorem find?_define (sc : Scopes) (sym : Symbol) (name : String) :
    (sc.define sym).find? name = if sym.name = name then some sym else sc.find? name := by
  unfold Scopes.find? Scopes.define Scope.find?
  rw [List.findSome?_cons, List.findSome?_cons, List.find?_cons]
  by_cases h : sym.name = name
  · simp [h]
  · rw [if_neg h, beq_eq_false_iff_ne.mpr h]

/-- A fresh scope inside. -/
theorem Knows.enter (h : Knows F S G sc) (kind : ScopeKind) : Knows F S G (sc.enter kind) :=
  ⟨by rw [Scopes.vars_enter, h.symbols], h.nodup, h.vars, h.functions, fun name hname => by cases hname⟩

/-- One more variable with a name of its own. -/
theorem Knows.define (h : Knows F S G sc) {kind : Kind} {sym : Symbol} {w : Bool}
    (hplain : sym.isFunction = false) (hid : ∀ x ∈ G, x.1.id ≠ sym.id)
    (hfresh : IsFresh F S sym.name) (hty : kind.Has sym.ty) (hw : w = true → IsWritable (sym, w)) :
    Knows F (⟨sym.name, kind, w⟩ :: S) ((sym, w) :: G) (sc.define sym) where
  symbols := by rw [Scopes.vars_define hplain, h.symbols]; rfl
  nodup := by
    rw [List.map_cons, List.nodup_cons]
    refine ⟨fun hmem => ?_, h.nodup⟩
    obtain ⟨x, hx, heq⟩ := List.mem_map.mp hmem
    exact hid x hx heq
  vars v hv := by
    rcases List.mem_cons.mp hv with rfl | hv
    · exact ⟨(sym, w), List.mem_cons_self, by rw [find?_define, if_pos rfl], hty, hw⟩
    · obtain ⟨x, hx, hfind, hx'⟩ := h.vars v hv
      refine ⟨x, List.mem_cons_of_mem _ hx, ?_, hx'⟩
      rw [find?_define, if_neg fun heq => hfresh.vars v hv heq.symm, hfind]
  functions f hf := by
    obtain ⟨fn, hfind, hfn⟩ := h.functions f hf
    refine ⟨fn, ?_, hfn⟩
    rw [find?_define, if_neg fun heq => hfresh.functions f hf heq.symm, hfind]
  locals name hname := by
    change (Scope.find? { sc.inner with declared := sym :: sc.inner.declared } name).isSome = true at hname
    unfold Scope.find? at hname
    rw [List.find?_cons] at hname
    by_cases heq : sym.name = name
    · exact ⟨_, List.mem_cons_self, heq⟩
    · rw [beq_eq_false_iff_ne.mpr heq] at hname
      obtain ⟨v, hv, hvn⟩ := h.locals name hname
      exact ⟨v, List.mem_cons_of_mem _ hv, hvn⟩

/-- A name that is read as a variable of a kind. -/
theorem passes_checkRead (h : Knows F S G sc) {id : Ident} {kind : Kind}
    (hid : InScope S kind id.name) : Passes Φ env sc id.checkRead (fun p => kind.Has p.2)
      fun p Γ => Names Γ p.1 p.2 := by
  obtain ⟨w, hv⟩ := hid
  obtain ⟨x, hx, hfind, hty, -⟩ := h.vars _ hv
  refine (passes_resolve? hfind).bind ?_
  rintro _ rfl
  exact .pure hty fun Γ hmem => ⟨x.1, hmem (h.plain hx), rfl, h.plain hx, rfl⟩

/-! ## Numbers -/

theorem total_of_kind {t : Token} {op : String} (hkind : t.kind ∈ [.plus, .minus, .times])
    (hop : op = t.kind.text) : Total op := by
  simp only [List.mem_cons, List.not_mem_nil, or_false] at hkind
  rcases hkind with h | h | h <;> rw [hop, h]
  · exact ⟨.add, rfl, fun a b => ⟨a + b, rfl⟩⟩
  · exact ⟨.sub, rfl, fun a b => ⟨a - b, rfl⟩⟩
  · exact ⟨.mul, rfl, fun a b => ⟨a * b, rfl⟩⟩

theorem divides_of_kind {t : Token} {op : String} {d : Int32} (hkind : t.kind ∈ [.slash, .percent])
    (hop : op = t.kind.text) (hd : d ≠ 0) :
    ∃ o, ArithOp.ofText? op = some o ∧ ∀ a, ∃ c, o.apply a d = some c := by
  simp only [List.mem_cons, List.not_mem_nil, or_false] at hkind
  rcases hkind with h | h <;> rw [hop, h]
  · exact ⟨.div, rfl, fun a => ⟨a / d, if_neg hd⟩⟩
  · exact ⟨.rem, rfl, fun a => ⟨a % d, if_neg hd⟩⟩

section Numbers

variable {k n : Nat}

/-- A variable that is read. -/
theorem passes_read (hk : Knows F S G sc) {id : Ident} {kind : Kind} (hid : InScope S kind id.name)
    (w : Option Ty) : Passes Φ env sc ((Expr.read (.name id)).check w) (fun p => kind.Has p.2)
      fun p Γ => ∃ id', p.1 = .read (.name id') ∧ Names Γ id' p.2 := by
  unfold Expr.check Target.check
  rw [bind_assoc]
  refine (passes_checkRead hk hid).bind fun p hp => ?_
  exact .pure hp fun Γ hnames => ⟨p.1, rfl, hnames⟩

/-- An element with an index that is written out. -/
inductive IsElement (Γ : List Symbol) (i : Int32) : Target → Prop where
  | mk {m m' : Mark} {base : Ident} {kind : CollectionKind} (h : Names Γ base (kind.ty .int)) :
    IsElement Γ i (.element m base (.int m' i))

theorem passes_element (hk : Knows F S G sc) {m m' : Mark} {base : Ident} {i : Int32}
    (hbase : InScope S .collection base.name) :
    Passes Φ env sc (Target.check (.element m base (.int m' i))) (fun p => p.2 = .int)
      fun p Γ => IsElement Γ i p.1 := by
  unfold Target.check
  refine (passes_checkRead hk hbase).bind fun p hp => ?_
  obtain ⟨base', t⟩ := p
  obtain ⟨kind, rfl⟩ : ∃ kind : CollectionKind, t = kind.ty .int := hp
  have helement : (kind.ty .int).element? = some .int := by cases kind <;> rfl
  simp only [helement, Expr.check, pure_bind, requireType, if_pos]
  exact .pure rfl fun Γ hnames => .mk hnames

theorem passes_args {name : String} : ∀ {es : List Expr} (number : Nat),
    (∀ e ∈ es, ∀ w, Passes Φ env sc (e.check w) (fun p => p.2 = .int)
      fun p Γ => Gives F Γ k 0 p.1 .int) →
    Passes Φ env sc (Expr.checkArgs name number es (List.replicate es.length .int))
      (fun es' => es'.length = es.length) fun es' Γ => ∀ e ∈ es', Gives F Γ k 0 e .int
  | [], _, _ => .pure rfl fun _ => by simp
  | e :: es, number, h => by
    rw [List.length_cons, List.replicate_succ]
    unfold Expr.checkArgs
    refine (h e List.mem_cons_self (some .int)).typed fun e' => ?_
    refine Passes.bind (C := fun _ => True) (P := fun _ _ => True) (.pure trivial fun _ => trivial)
      fun _ _ => ?_
    rw [if_neg (by decide)]
    refine (passes_args (number + 1) fun x hx => h x (List.mem_cons_of_mem _ hx)).bind ?_
    intro es' hes'
    refine .pure (by simp [hes']) fun Γ hes _ he x hx => ?_
    rcases List.mem_cons.mp hx with rfl | hx
    · exact he
    · exact hes x hx

/-- A call of something that takes and gives numbers. -/
theorem passes_call {m : Mark} {callee : Ident} {args : List Expr} {sym : Symbol}
    (hfind : sc.find? callee.name = some sym)
    (hty : sym.ty = .fn (List.replicate args.length .int) (some .int))
    (hargs : ∀ e ∈ args, ∀ w, Passes Φ env sc (e.check w) (fun p => p.2 = .int)
      fun p Γ => Gives F Γ k 0 p.1 .int) (w : Option Ty) :
    Passes Φ env sc ((Expr.call (.mk m callee args)).check w) (fun p => p.2 = .int)
      fun p Γ => ∃ m' callee' args', p.1 = .call (.mk m' callee' args') ∧ callee'.sym = some sym ∧
        (sym.isFunction = false → sym ∈ Γ) ∧ args'.length = args.length ∧
        ∀ e ∈ args', Gives F Γ k 0 e .int := by
  unfold Expr.check Call.check
  rw [bind_assoc]
  refine (passes_resolve? hfind).bind ?_
  rintro _ rfl
  simp only [hty, List.length_replicate, ne_eq, not_true_eq_false, if_false, bind_assoc, pure_bind]
  refine (passes_args 1 hargs).bind fun args' hargs' => ?_
  exact .pure rfl fun Γ hgives hmem => ⟨_, _, args', rfl, rfl, hmem, hargs', hgives⟩

/-- Numbers have the type that is wanted, and run without a fault. -/
theorem passes_number {e : Expr} (h : IsNumber F S k e) (hk : Knows F S G sc) (w : Option Ty) :
    Passes Φ env sc (e.check w) (fun p => p.2 = .int) fun p Γ => Gives F Γ k 0 p.1 .int := by
  induction h generalizing w with
  | int hn m i => exact .pure rfl fun Γ => gives_int hn _ i
  | read hn hid =>
    refine (passes_read hk hid w).mono (fun p hp => hp) fun p Γ hp hread => ?_
    obtain ⟨id', heq, hnames⟩ := hread
    rw [heq]
    exact gives_read hn (hp ▸ hnames)
  | arith hn hkind hop hl hr ihl ihr =>
    unfold Expr.check
    refine (ihl none).typed fun l' => (ihr none).typed fun r' => ?_
    exact .pure rfl fun Γ hr hl => gives_arith (by omega) (by omega) (total_of_kind hkind hop) hl hr
  | divide hn hkind hop hd hl ih =>
    unfold Expr.check
    refine (ih none).typed fun l' => ?_
    obtain ⟨o, ho, happly⟩ := divides_of_kind hkind hop hd
    exact .pure rfl fun Γ hl => gives_divide (by omega) (by omega) ho happly hl
  | element hn hbase hi =>
    unfold Expr.check
    refine (passes_element hk hbase).typed fun t => .pure rfl fun Γ h => ?_
    cases h with
    | mk hnames => exact gives_element hn hnames hi
  | call hn hcallee hargs ih =>
    obtain ⟨sym, hfind, hfun, hname, hty⟩ := hk.functions _ hcallee
    refine (passes_call hfind hty ih w).mono (fun _ h => h) fun p Γ _ h => ?_
    obtain ⟨m', callee', args', heq, hsym, -, hlen, hgives⟩ := h
    rw [heq]
    exact gives_callFunction hn hgives hsym hfun (by rw [hlen, hname]; exact hcallee)
  | @apply k n m callee arg hn hcallee harg ih =>
    obtain ⟨v, hv⟩ := hcallee
    obtain ⟨x, hx, hfind, hty, -⟩ := hk.vars _ hv
    have harity : x.1.ty = .fn (List.replicate [arg].length .int) (some .int) := hty
    refine (passes_call hfind harity (by simpa using ih) w).mono (fun _ h => h) fun p Γ _ h => ?_
    obtain ⟨m', callee', args', heq, hsym, hmem, hlen, hgives⟩ := h
    obtain ⟨arg', rfl⟩ := List.length_eq_one_iff.mp hlen
    rw [heq]
    exact gives_callValue hn (hgives _ List.mem_cons_self)
      ⟨x.1, hmem (hk.plain hx), hsym, hk.plain hx, hty⟩

end Numbers

/-! ## Conditions -/

section Tests

variable {k n : Nat}

theorem comparable_of_ordered {op : String} {t : Ty} (ht : t = .int ∨ t = .string) :
    comparable op t t = true := by
  rcases ht with rfl | rfl <;> simp [comparable]

theorem passes_test {e : Expr} (h : IsTest F S k e) (hk : Knows F S G sc) (w : Option Ty) :
    Passes Φ env sc (e.check w) (fun p => p.2 = .boolean) fun p Γ => Gives F Γ k 0 p.1 .boolean := by
  induction h generalizing w with
  | bool hn m b => exact .pure rfl fun Γ => gives_bool hn _ b
  | numbers hk' hk'' hop hl hr =>
    obtain ⟨o, ho⟩ := Option.isSome_iff_exists.mp hop
    unfold Expr.check
    refine (passes_number hl hk none).typed fun l' => (passes_number hr hk none).typed fun r' => ?_
    dsimp only
    rw [if_pos (comparable_of_ordered (.inl rfl))]
    exact .pure rfl fun Γ hr hl => gives_compare hk' hk'' ho (.inl rfl) hl hr
  | texts hn hop =>
    obtain ⟨o, ho⟩ := Option.isSome_iff_exists.mp hop
    unfold Expr.check
    simp only [Expr.check, Splice.checkList, pure_bind]
    rw [if_pos (comparable_of_ordered (.inr rfl))]
    exact .pure rfl fun Γ =>
      gives_compare hn hn ho (.inr rfl) (gives_text Nat.one_pos _ _) (gives_text Nat.one_pos _ _)
  | logic hk' hk'' hl hr ihl ihr =>
    unfold Expr.check
    refine (ihl none).typed fun l' => (ihr none).typed fun r' => ?_
    exact .pure rfl fun Γ hr hl => gives_logic hk' hk'' hl hr
  | not hk' h ih =>
    unfold Expr.check
    refine (ih none).typed fun e' => ?_
    exact .pure rfl fun Γ h => gives_not hk' h

/-! ## What is printed -/

theorem passes_splices : ∀ {splices : List Splice},
    (∀ offset e, .mk offset e ∈ splices → IsNumber F S k e) → Knows F S G sc →
    Passes Φ env sc (Splice.checkList splices)
      (fun splices' => splices'.map Splice.offset = splices.map Splice.offset)
      fun splices' Γ => ∀ offset e, .mk offset e ∈ splices' → Gives F Γ k 0 e .int
  | [], _, _ => .pure rfl fun Γ => by simp
  | .mk offset e :: splices, h, hk => by
    unfold Splice.checkList
    refine (passes_number (h offset e List.mem_cons_self) hk none).typed fun e' => ?_
    refine (passes_splices (fun o x hx => h o x (List.mem_cons_of_mem _ hx)) hk).bind ?_
    intro splices' hplaces
    refine .pure (congrArg (offset :: ·) hplaces) fun Γ hsplices he o x hx => ?_
    rcases List.mem_cons.mp hx with heq | hx
    · cases heq
      exact he
    · exact hsplices o x hx

theorem passes_printed {e : Expr} (h : IsPrinted F S k e) (hk : Knows F S G sc) (w : Option Ty) :
    Passes Φ env sc (e.check w) (fun p => p.2.printable = true)
      fun p Γ => Gives F Γ k 0 p.1 p.2 := by
  cases h with
  | number h =>
    exact (passes_number h hk w).mono (fun p hp => by rw [hp]; rfl) fun p Γ hp hgives => hp ▸ hgives
  | test h =>
    exact (passes_test h hk w).mono (fun p hp => by rw [hp]; rfl) fun p Γ hp hgives => hp ▸ hgives
  | collection hn hid =>
    refine (passes_read hk hid w).mono (fun p hp => ?_) fun p Γ hp hread => ?_
    · obtain ⟨kind, hp⟩ : ∃ kind : CollectionKind, p.2 = kind.ty .int := hp
      rw [hp]
      cases kind <;> rfl
    · obtain ⟨id', heq, hnames⟩ := hread
      rw [heq]
      exact gives_read hn hnames
  | template hk' horder hsplices =>
    unfold Expr.check
    refine (passes_splices hsplices hk).bind fun splices' hplaces => ?_
    refine .pure rfl fun Γ hgives => gives_template hk' hgives ?_
    unfold Template.InOrder at horder ⊢
    rwa [hplaces]

end Tests

/-! ## What variables are declared with -/

section Values

variable {k n : Nat}

/-- Variables in scope have numbers below the next one. -/
theorem Knows.id_ne (h : Knows F S G sc) {s : State} (hs : Sound Φ env s) (hsc : s.scopes = sc)
    {sym : Symbol} (hd : sym.Declares env.routine s.next) : ∀ x ∈ G, x.1.id ≠ sym.id := by
  intro x hx heq
  have hmem : x.1 ∈ s.scopes.vars := by
    rw [hsc, h.symbols]
    exact List.mem_map_of_mem hx
  have hlt := hs.context.below x.1 hmem
  rw [heq, hd.id] at hlt
  exact absurd hlt (Nat.lt_irrefl _)

/-- A function value over numbers, by what it captures and by all that is around it. -/
inductive IsClosure (F : Arities) (k : Nat) (Γ : List Symbol) : Lambda → Prop where
  | mk {r lo : Nat} {m : Mark} {p : Param} {body : Expr} {caps : List Symbol} {sym : Symbol}
    (hmark : m.ty = some (.fn [.int] (some .int))) (hp : Param.Declare r lo [p] [sym])
    (hty : sym.ty = .int) (hctx : Context r lo Γ) (hcaps : ∀ c ∈ caps, c ∈ Γ)
    (hnodup : (caps.map Symbol.id).Nodup) (hown : Gives F (sym :: caps) k 0 body .int)
    (hall : Gives F (sym :: Γ) k 0 body .int) : IsClosure F k Γ (.mk m [p] body caps)

/-- A variable is declared. -/
theorem ends_declare_eq (name : String) (ty : Ty) (kind : Symbol.Kind) (constant initialized : Bool)
    (site : Site) (s : State) : Ends (Typing.declare name ty kind constant initialized site) env s
      (fun _ => False) fun sym s' => sym = ⟨⟨env.routine, s.next⟩, name, ty, kind, constant, initialized,
        env.depth, some env.owner, some site⟩ ∧
          s' = { s with scopes := s.scopes.define sym, next := s.next + 1 } :=
  ⟨rfl, rfl⟩

/-- The body of a lambda over numbers: it sees its parameter and what it captures. -/
theorem passes_lambdaBody (hk : Knows F S G sc) {m : Mark} {p : Param} {body : Expr}
    (hfresh : IsFresh F S p.name.name)
    (hbody : IsNumber F (⟨p.name.name, .number, false⟩ :: S) k body) :
    Passes Φ env sc
      (inLambda m do
        let ps ← declareParams [p] [.int]
        let (body, found) ← body.check none
        return (ps, body, found))
      (fun q => q.1.2.2 = .int) fun q Γ => ∀ m' : Mark, m'.ty = some (.fn [.int] (some .int)) →
        IsClosure F k Γ (.mk m' q.1.1 q.1.2.1 q.2) := by
  intro s hs hsc
  subst hsc
  unfold inLambda Typing.inScope declareParams
  simp only [ends_bind, ends_modify, ends_withReader, ends_get, ends_set, ends_pure]
  have henter := hs.enterLambda m
  refine (ends_declare_eq _ _ _ _ _ _ _).mono ?_
  rintro sym s₁ ⟨hsym, rfl⟩
  have hd : sym.Declares (env.inside m).routine s.next := by
    subst hsym
    exact ⟨rfl, rfl, by simp [Ty.Complete], by simp⟩
  have hty : sym.ty = .int := hsym ▸ rfl
  have hname : sym.name = p.name.name := hsym ▸ rfl
  have hdepth : sym.depth = env.depth + 1 := hsym ▸ rfl
  have hs₁ := henter.define hd (Nat.le_of_eq hdepth)
  have hknows : Knows F (⟨p.name.name, .number, false⟩ :: S) ((sym, false) :: G)
      ((s.scopes.enter .lambda).define sym) :=
    hname ▸ (hk.enter .lambda).define hd.plain (hk.id_ne hs rfl hd) (hname ▸ hfresh) hty (by simp)
  refine (passes_number hbody hknows none _ hs₁ rfl).mono ?_
  rintro ⟨body', found⟩ s₂ ⟨rfl, hext, hs₂, hgives⟩
  have hvars (x : Symbol) : x ∈ s₂.scopes.vars ↔ x ∈ [sym] ∨ x ∈ s.scopes.vars := by
    rw [hext.scopes, List.mem_singleton, ← List.mem_cons]
    change x ∈ ((s.scopes.enter .lambda).define sym).vars ↔ _
    rw [Scopes.vars_define hd.plain, Scopes.vars_enter]
  have hle : s.next + 1 ≤ s₂.next := hext.next
  obtain ⟨c, rest, hcr⟩ : ∃ c rest, s₂.captures = c :: rest := by
    have hcap := hs₂.captured
    cases hcs : s₂.captures with
    | nil => rw [hcs] at hcap; exact hcap.elim
    | cons c rest => exact ⟨c, rest, rfl⟩
  have hgrow : Grow s.captures rest := by
    have hcap := hext.captures
    rw [hcr] at hcap
    exact hcap.tail
  obtain ⟨hout, hnodup, hmem⟩ := hs.leaveLambda hs₂ (by omega) hvars (by simpa using hdepth) hcr
  -- Whatever holds the parameter and the captures suffices for the body.
  have hcover (Δ : List Symbol) (hΔs : sym ∈ Δ) (hΔc : ∀ x ∈ c, x ∈ Δ) : Covers (env.inside m) s₂ Δ := by
    intro x hx hdx
    rcases hdx with hdx | hdx
    · rcases (hvars x).mp hx with hp | hv
      · rwa [List.mem_singleton.mp hp]
      · have hlow := hs.depth x hv
        change x.depth = env.depth + 1 at hdx
        omega
    · rw [hcr] at hdx
      exact hΔc x hdx
  refine ⟨rfl, ⟨rfl, Nat.le_of_succ_le hle, ?_⟩, ?_, fun Γ hctx hΓ m' hm' => ?_⟩
  · rw [hcr]
    exact hgrow
  · rw [hcr]
    exact hout
  · rw [hcr] at hΓ ⊢
    have hcΓ : ∀ x ∈ c.reverse, x ∈ Γ := by
      intro x hx
      rw [List.mem_reverse] at hx
      exact hΓ x (hmem x hx).1 (hmem x hx).2
    have hown : Gives F (sym :: c.reverse) k 0 body' .int :=
      hgives _ ((hctx.subset hcΓ).cons hd) (hcover _ (by simp) (by simp +contextual))
    have hall : Gives F (sym :: Γ) k 0 body' .int :=
      hgives _ (hctx.cons hd) (hcover _ (by simp) fun x hx =>
        List.mem_cons_of_mem _ (hcΓ x (List.mem_reverse.mpr hx)))
    refine .mk hm' ⟨rfl, hd, trivial⟩ hty hctx hcΓ ?_ hown hall
    rw [List.headD_cons, List.map_reverse]
    exact List.pairwise_reverse.mpr (hnodup.imp Ne.symm)

/-- A lambda over numbers, whose parameter has a type or is given one. -/
theorem passes_lambda (hk : Knows F S G sc) {m : Mark} {p : Param} {body : Expr} {caps : List Symbol}
    {params : List Ty} (hty : p.ty = some .int ∨ p.ty = none ∧ params = [.int])
    (hfresh : IsFresh F S p.name.name)
    (hbody : IsNumber F (⟨p.name.name, .number, false⟩ :: S) k body) :
    Passes Φ env sc (Lambda.check params none (.mk m [p] body caps)) (fun q => q.2 = ([.int], .int))
      fun q Γ => IsClosure F k Γ q.1 := by
  have htypes : lambdaParamTypes [p] (wantedParams 1 params) = (pure [.int] : Check (List Ty)) := by
    rcases hty with hty | ⟨hty, rfl⟩ <;> simp [lambdaParamTypes, wantedParams, hty]
  unfold Lambda.check
  rw [List.length_singleton, htypes, pure_bind]
  refine (passes_lambdaBody hk hfresh hbody).bind ?_
  rintro ⟨⟨ps', body', _⟩, caps'⟩ rfl
  exact .pure rfl fun Γ hclosure => hclosure _ rfl

/-- Elements that are numbers. -/
theorem passes_elements (hk : Knows F S G sc) (lexeme : String) {es : List Expr}
    (hes : ∀ e ∈ es, IsNumber F S k e) (first : Option Scalar) (hfirst : ∀ f ∈ first, f = .int) :
    Passes Φ env sc (Expr.checkElements lexeme false first es)
      (fun p => p.1.length = es.length ∧ p.2 = first.or (es.head?.map fun _ => .int))
      fun p Γ => ∀ e ∈ p.1, Gives F Γ k 0 e .int := by
  induction es generalizing first with
  | nil => exact .pure ⟨rfl, by simp⟩ fun Γ => by simp
  | cons e es ih =>
    have hnext : first.or (some .int) = some .int := by
      cases first with
      | none => rfl
      | some f => exact congrArg some (hfirst f rfl)
    have hrest := ih (fun x hx => hes x (List.mem_cons_of_mem _ hx)) (some .int) (by simp)
    unfold Expr.checkElements
    refine (passes_number (hes e List.mem_cons_self) hk none).typed fun e' => ?_
    have hend : Passes Φ env sc
        (do
          let p ← Expr.checkElements lexeme false (first.or (some .int)) es
          return (e' :: p.1, p.2))
        (fun p => p.1.length = (e :: es).length ∧ p.2 = first.or (some .int))
        fun p Γ => Gives F Γ k 0 e' .int → ∀ x ∈ p.1, Gives F Γ k 0 x .int := by
      rw [hnext]
      refine hrest.bind fun q hq => .pure ⟨congrArg (· + 1) hq.1, by simp [hq.2]⟩ ?_
      exact fun Γ hq he => List.forall_mem_cons.mpr ⟨he, hq⟩
    simp only [Ty.elementScalar?]
    cases first with
    | none => simpa using hend
    | some f =>
      obtain rfl := hfirst f rfl
      simpa using hend

/-- What a variable is declared with: it has a type, and runs without a fault. -/
theorem passes_value {c : Nat} {kind : Kind} {e : Expr} (h : IsValue F S k c kind e)
    (hk : Knows F S G sc) : Passes Φ env sc (e.check none) (fun p => kind.Has p.2)
      fun p Γ => Gives F Γ k c p.1 p.2 := by
  cases h with
  | number h =>
    exact (passes_number h hk none).mono (fun _ hp => hp) fun p Γ hp hgives => hp ▸ hgives
  | @elements _ _ m kind es hk' hlen hes =>
    unfold Expr.check
    refine (passes_elements hk m.tok.shown hes none (by simp)).bind ?_
    rintro ⟨es', found⟩ ⟨hlen', hfound⟩
    obtain ⟨e, es, rfl⟩ := List.exists_cons_of_ne_nil (List.ne_nil_of_length_pos (by omega : 0 < es.length))
    obtain rfl : found = some .int := by simpa using hfound
    refine .pure ⟨kind, rfl⟩ fun Γ hgives => gives_collection hk' (hlen'.trans hlen) hgives
  | sized hk' hn hty hfresh hbody =>
    unfold Expr.check
    simp only [Expr.check, pure_bind, requireType, if_pos]
    refine (passes_lambda hk (.inr ⟨hty, rfl⟩) hfresh hbody).bind ?_
    rintro ⟨gen, _⟩ rfl
    refine .pure ⟨_, rfl⟩ fun Γ hclosure => ?_
    cases hclosure with
    | mk hmark hp hty hctx hcaps hnodup hown hall =>
      refine gives_sized hk' hn hp.1 hty (fun x hx heq => ?_) hall
      have hlt := hctx.below x hx
      rw [heq, hp.2.1.id] at hlt
      exact absurd hlt (Nat.lt_irrefl _)
  | function hn hk' hty hfresh hbody =>
    unfold Expr.check
    refine (passes_lambda hk (.inl hty) hfresh hbody).bind ?_
    rintro ⟨l, _⟩ rfl
    refine .pure rfl fun Γ hclosure => ?_
    cases hclosure with
    | mk hmark hp hty hctx hcaps hnodup hown hall =>
      exact gives_lambda hk' hn hmark hp hty hctx hcaps hnodup hown

end Values

end Names

end Sample
end Kotlet

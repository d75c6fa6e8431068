import Kotlet.Proofs.Sample.Behaviour

/-!
# How the statements of sample programs behave

Statements run in scopes that say of each variable whether it may be assigned. A collection, a
function value and the counter of a loop keep what they hold, a number that may be assigned stays a
number. So a loop body finds the same variables at every turn, and a `while` loop ends because its
body leaves the counter alone.

* `Spared` : what statements leave of the variables in scope;
* `Proceeds` : statements that run without a fault and go on, or leave the loop around them;
* `proceeds_decl` .. `proceeds_eachLoop` : one lemma for each form;
* `callable_function` : a function whose body proceeds and ends with a number can be called.
-/

namespace Kotlet
namespace Sample

open Eval

/-- The variables in scope, and whether each may be assigned. -/
abbrev Scope := List (Symbol × Bool)

/-- The variables in scope. -/
abbrev Scope.symbols (G : Scope) : List Symbol := G.map Prod.fst

/-- Steps after which variables are as they were, or are other numbers where they may be assigned. -/
structure Spared (G : Scope) (m m' : Machine) : Prop extends Leaves m m' where
  vars : ∀ x ∈ G, m'.vars[x.1.id]? = m.vars[x.1.id]? ∨
    x.2 = true ∧ x.1.ty = .int ∧ ∃ n, m'.vars[x.1.id]? = some (.int n)

section Spared

variable {functions : List FunDecl} {rank rank' : Nat} {F : List (String × Nat)} {G G' : Scope}
  {m m' m'' : Machine}

theorem Kept.spared (h : Kept G.symbols m m') : Spared G m m' :=
  ⟨h.toLeaves, fun _ hx => .inl (h.vars _ (List.mem_map_of_mem hx))⟩

theorem Spared.trans (h : Spared G m m') (h' : Spared G m' m'') : Spared G m m'' := by
  refine ⟨h.toLeaves.trans h'.toLeaves, fun x hx => ?_⟩
  rcases h'.vars x hx with hsame | hnew
  · rw [hsame]
    exact h.vars x hx
  · exact .inr hnew

theorem Spared.subset (h : Spared G' m m') (hs : ∀ x ∈ G, x ∈ G') : Spared G m m' :=
  ⟨h.toLeaves, fun x hx => h.vars x (hs x hx)⟩

theorem Ready.spared (hm : Ready functions F rank G.symbols m) (h : Spared G m m') :
    Ready functions F rank G.symbols m' := by
  refine ⟨hm.provides, h.triples, fun sym hsym => ?_, h.depth ▸ hm.room⟩
  obtain ⟨x, hx, rfl⟩ := List.mem_map.mp hsym
  obtain ⟨v, hv, hgood⟩ := hm.vars x.1 hsym
  rcases h.vars x hx with hsame | ⟨-, hty, n, hn⟩
  · exact ⟨v, hsame.trans hv, hgood.mono (Nat.le_refl _) h.grows⟩
  · exact ⟨.int n, hn, good_int hty n⟩

/-- The variable is a number that may be assigned. -/
def Writable (G : Scope) (sym : Symbol) : Prop :=
  sym.ty = .int ∧ ∀ x ∈ G, x.1.id = sym.id → x.2 = true ∧ x.1.ty = .int

theorem Ready.update (hm : Ready functions F rank G.symbols m) {sym : Symbol} (hsym : Writable G sym)
    (i : Int32) : Spared G m { m with vars := m.vars.insert sym.id (.int i) } := by
  refine ⟨⟨rfl, Nat.le_refl _, hm.triples⟩, fun x hx => ?_⟩
  by_cases hid : x.1.id = sym.id
  · obtain ⟨hflag, hty⟩ := hsym.2 x hx hid
    exact .inr ⟨hflag, hty, i, by rw [hid]; simp⟩
  · left
    rw [Std.HashMap.getElem?_insert]
    simp only [beq_iff_eq, ite_eq_right_iff]
    exact fun h => absurd h.symm hid

end Spared

/-! ## Statements -/

/-- How statements end that go on, or leave the loop around them. -/
def Goes (functions : List FunDecl) (F : List (String × Nat)) (rank : Nat) (inLoop : Bool)
    (G' : Scope) (m' : Machine) : Flow → Prop
  | .next => Ready functions F rank G'.symbols m'
  | .broke => inLoop = true
  | _ => False

/-- The statements run without a fault wherever these functions and variables are known, and then
more variables are known. They go `calls` deep besides the calls of what is known. -/
structure Proceeds (F : List (String × Nat)) (inLoop : Bool) (calls size : Nat) (G : Scope)
    (ss : List Stmt) (G' : Scope) : Prop where
  knows : ∀ x ∈ G, x ∈ G'
  runs : ∀ (functions : List FunDecl) (rank fuel : Nat) (m : Machine),
    Ready functions F rank G.symbols m → m.depth + rank + calls ≤ Machine.maxDepth →
    size + (rank + calls) * span ≤ fuel → Succeeds (Eval.sequence (stmt functions fuel) ss) m
      fun flow m' => Spared G m m' ∧ Goes functions F (rank + calls) inLoop G' m' flow

section Statements

variable {functions : List FunDecl} {rank fuel : Nat} {F : List (String × Nat)} {inLoop : Bool}
  {calls calls' k k' n : Nat} {G G' G'' : Scope} {ss ss' : List Stmt} {s : Stmt} {m m' : Machine}
  {e c : Expr} {t : Ty} {sym : Symbol}

theorem proceeds_nil (F : List (String × Nat)) (inLoop : Bool) (G : Scope) :
    Proceeds F inLoop 0 0 G [] G :=
  ⟨fun _ h => h, fun _ _ _ _ hm _ _ => ⟨hm.refl.spared, hm⟩⟩

theorem Proceeds.mono (h : Proceeds F inLoop calls k G ss G') (hc : calls ≤ calls') (hk : k ≤ k') :
    Proceeds F inLoop calls' k' G ss G' := by
  refine ⟨h.knows, fun functions rank fuel m hm hroom hfuel => ?_⟩
  have hspan : (rank + calls) * span ≤ (rank + calls') * span := Nat.mul_le_mul_right _ (by omega)
  refine (h.runs functions rank fuel m hm (by omega) (by omega)).mono ?_
  rintro flow m' ⟨hspared, hgoes⟩
  refine ⟨hspared, ?_⟩
  cases flow with
  | next => exact Ready.raise hgoes (by omega) (by rw [hspared.depth]; omega)
  | broke => exact hgoes
  | continued => exact hgoes
  | returned v => exact hgoes

theorem sequence_append (run : Stmt → Eval Flow) (ss ss' : List Stmt) :
    Eval.sequence run (ss ++ ss') = do
      match ← Eval.sequence run ss with
      | .next => Eval.sequence run ss'
      | f => return f := by
  induction ss with
  | nil => rfl
  | cons s ss ih =>
    simp only [List.cons_append, Eval.sequence, bind_assoc]
    refine bind_congr fun flow => ?_
    cases flow with
    | next => exact ih
    | broke => rfl
    | continued => rfl
    | returned v => rfl

/-- Statements one after the other. -/
theorem Proceeds.append (h : Proceeds F inLoop calls k G ss G')
    (h' : Proceeds F inLoop calls' k' G' ss' G'') :
    Proceeds F inLoop (calls + calls') (max k k') G (ss ++ ss') G'' := by
  refine ⟨fun x hx => h'.knows x (h.knows x hx), fun functions rank fuel m hm hroom hfuel => ?_⟩
  have hspan : (rank + calls) * span ≤ (rank + (calls + calls')) * span :=
    Nat.mul_le_mul_right _ (by omega)
  rw [sequence_append, Succeeds, Eval.ends_bind]
  refine (h.runs functions rank fuel m hm (by omega) (by omega)).mono ?_
  rintro flow m₁ ⟨hspared, hgoes⟩
  cases flow with
  | next =>
    refine (h'.runs functions (rank + calls) fuel m₁ hgoes (by rw [hspared.depth]; omega) ?_).mono ?_
    · rw [Nat.add_assoc]
      omega
    · rintro flow m₂ ⟨hspared', hgoes'⟩
      exact ⟨hspared.trans (hspared'.subset h.knows), Nat.add_assoc rank calls calls' ▸ hgoes'⟩
  | broke => exact ⟨hspared, hgoes⟩
  | continued => exact hgoes.elim
  | returned v => exact hgoes.elim

theorem sequence_one (run : Stmt → Eval Flow) (s : Stmt) : Eval.sequence run [s] = run s := by
  simp only [Eval.sequence]
  refine Eq.trans (bind_congr fun flow => ?_) (bind_pure (run s))
  cases flow <;> rfl

/-- One step of fuel is for the statement itself. -/
theorem proceeds_one (hn : 0 < n) (hknows : ∀ x ∈ G, x ∈ G')
    (h : ∀ functions rank fuel m, Ready functions F rank G.symbols m →
      m.depth + rank + calls ≤ Machine.maxDepth → n - 1 + (rank + calls) * span ≤ fuel →
      Succeeds (stmt functions (fuel + 1) s) m fun flow m' =>
        Spared G m m' ∧ Goes functions F (rank + calls) inLoop G' m' flow) :
    Proceeds F inLoop calls n G [s] G' := by
  refine ⟨hknows, fun functions rank fuel m hm hroom hfuel => ?_⟩
  obtain ⟨fuel, rfl⟩ : ∃ k, fuel = k + 1 := ⟨fuel - 1, by omega⟩
  rw [sequence_one]
  exact h functions rank fuel m hm hroom (by omega)

/-- A statement that goes on and declares nothing. -/
theorem proceeds_still (hn : 0 < n) (h : ∀ functions rank fuel m,
    Ready functions F rank G.symbols m → m.depth + rank + calls ≤ Machine.maxDepth →
    n - 1 + (rank + calls) * span ≤ fuel →
    Succeeds (stmt functions (fuel + 1) s) m fun flow m' => flow = .next ∧ Spared G m m') :
    Proceeds F inLoop calls n G [s] G := by
  refine proceeds_one hn (fun _ hx => hx) fun functions rank fuel m hm hroom hfuel => ?_
  refine (h functions rank fuel m hm hroom hfuel).mono ?_
  rintro flow m' ⟨rfl, hspared⟩
  exact ⟨hspared, (hm.spared hspared).raise (Nat.le_add_right rank calls)
    (by rw [hspared.depth]; omega)⟩

/-- Such a statement that makes no calls besides those of what is known. -/
theorem proceeds_simple (hn : 0 < n) (h : ∀ functions rank fuel m,
    Ready functions F rank G.symbols m → n - 1 + rank * span ≤ fuel →
    Succeeds (stmt functions (fuel + 1) s) m fun flow m' => flow = .next ∧ Spared G m m') :
    Proceeds F inLoop 0 n G [s] G :=
  proceeds_still hn fun functions rank fuel m hm _ hfuel => h functions rank fuel m hm hfuel

/-- Variables are forgotten at the end of their scope. -/
theorem Proceeds.leave (h : Proceeds F inLoop calls k G ss G') : Proceeds F inLoop calls k G ss G := by
  refine ⟨fun _ hx => hx, fun functions rank fuel m hm hroom hfuel => ?_⟩
  refine (h.runs functions rank fuel m hm hroom hfuel).mono ?_
  rintro flow m' ⟨hspared, hgoes⟩
  refine ⟨hspared, ?_⟩
  cases flow with
  | next =>
    exact (hm.spared hspared).raise (Nat.le_add_right rank calls) (by rw [hspared.depth]; omega)
  | broke => exact hgoes
  | continued => exact hgoes
  | returned v => exact hgoes

/-! ### Simple statements -/

/-- A declaration. -/
theorem proceeds_decl (hk : k < n) {more : Nat} {tok : Token} {isMutable : Bool} {name : Ident}
    {ty : Option Ty} {sym : Symbol} {writable : Bool} (hname : name.sym = some sym)
    (hnew : ∀ x ∈ G, x.1.id ≠ sym.id) (he : Gives F G.symbols k more e sym.ty) :
    Proceeds F inLoop more n G [.decl tok isMutable name ty (some e)] ((sym, writable) :: G) := by
  refine proceeds_one (by omega) (fun _ hx => List.mem_cons_of_mem _ hx)
    fun functions rank fuel m hm hroom hfuel => ?_
  have hspan : rank * span ≤ (rank + more) * span := Nat.mul_le_mul_right _ (by omega)
  unfold stmt
  simp only [symbolOf_eq hname, pure_bind]
  rw [Succeeds, Eval.ends_bind]
  refine (he functions rank fuel m hm (by omega)).mono ?_
  rintro v m₁ ⟨hgood, hkept⟩
  have hm₁ := (hm.kept hkept).raise (Nat.le_add_right rank more) (by rw [hkept.depth]; omega)
  obtain ⟨hkept', hm₂⟩ := hm₁.declare hgood fun x hx => by
    obtain ⟨y, hy, rfl⟩ := List.mem_map.mp hx
    exact hnew y hy
  exact ⟨(hkept.trans hkept').spared, hm₂⟩

/-- An assignment to a variable. -/
theorem proceeds_assign (hk : k < n) {tok : Token} {id : Ident} {sym : Symbol}
    (hid : id.sym = some sym) (hsym : Writable G sym) (he : Gives F G.symbols k 0 e .int) :
    Proceeds F inLoop 0 n G [.assign tok (.name id) e] G := by
  refine proceeds_simple (by omega) fun functions rank fuel m hm hfuel => ?_
  unfold stmt
  simp only [symbolOf_eq hid, pure_bind]
  refine he.bind hm (by omega) fun v m₁ ⟨i, hv⟩ hkept hm₁ => ?_
  rw [hv]
  exact ⟨rfl, hkept.spared.trans (hm₁.update hsym i)⟩

/-- An element of a collection gets a number. -/
theorem Ready.store (hm : Ready functions F rank G.symbols m) (a i : Nat) (x : Int32) :
    Spared G m { m with heap := m.heap.modify a fun es => es.setIfInBounds i (.int x) } := by
  refine ⟨⟨rfl, by simp, fun b es hes => ?_⟩, fun _ _ => .inl rfl⟩
  rw [Array.getElem?_modify] at hes
  split at hes
  · obtain ⟨old, hold, rfl⟩ := Option.map_eq_some_iff.mp hes
    obtain ⟨hsize, hints⟩ := hm.triples _ old hold
    refine ⟨by simpa using hsize, fun j v hv => ?_⟩
    rw [Array.getElem?_setIfInBounds] at hv
    split at hv
    · split at hv
      · obtain rfl := Option.some.inj hv
        exact ⟨x, rfl⟩
      · cases hv
    · exact hints j v hv
  · exact hm.triples b es hes

/-- An assignment to an element. -/
theorem proceeds_assignElement (hk : k < n) (hn : 1 < n) {tok : Token} {mk mk' : Mark} {id : Ident}
    {i : Int32} {kind : CollectionKind} (hid : Names G.symbols id (kind.ty .int)) (hi : IsIndex i)
    (he : Gives F G.symbols k 0 e .int) :
    Proceeds F inLoop 0 n G [.assign tok (.element mk id (.int mk' i)) e] G := by
  refine proceeds_simple (by omega) fun functions rank fuel m hm hfuel => ?_
  obtain ⟨fuel, rfl⟩ : ∃ k, fuel = k + 1 := ⟨fuel - 1, by omega⟩
  obtain ⟨a, helement, ha⟩ := hm.element hid fuel mk' i
  unfold stmt
  refine succeeds_bind_of_ok helement (he.bind hm (by omega) fun v m₁ ⟨x, hv⟩ hkept hm₁ => ?_)
  rw [hv]
  have ha₁ : a < m₁.heap.size := Nat.lt_of_lt_of_le ha hkept.grows
  refine succeeds_bind_of_ok (position_eq hm₁.triples ha₁ hi _) ?_
  exact ⟨rfl, hkept.spared.trans (hm₁.store a _ x)⟩

/-- An assignment to a variable that goes on from its value. -/
theorem proceeds_compound (hk : k < n) {tok : Token} {id : Ident} {sym : Symbol} {op : String}
    (hop : Total (compoundOperator op)) (hid : id.sym = some sym) (hmem : sym ∈ G.symbols)
    (hsym : Writable G sym) (he : Gives F G.symbols k 0 e .int) :
    Proceeds F inLoop 0 n G [.compound tok (.name id) op e] G := by
  refine proceeds_simple (by omega) fun functions rank fuel m hm hfuel => ?_
  obtain ⟨old, hold, hgood⟩ := hm.vars sym hmem
  rw [hsym.1] at hgood
  unfold stmt
  simp only [symbolOf_eq hid, pure_bind]
  refine succeeds_bind_of_ok (variableOf_of_vars hold) ?_
  refine he.bind hm (by omega) fun v m₁ hv hkept hm₁ => ?_
  obtain ⟨x, hx⟩ := hop.arithmetic tok hgood hv
  rw [hx]
  exact ⟨rfl, hkept.spared.trans (hm₁.update hsym x)⟩

/-- An assignment to an element that goes on from its value. -/
theorem proceeds_compoundElement (hk : k < n) (hn : 1 < n) {tok : Token} {mk mk' : Mark} {id : Ident}
    {i : Int32} {kind : CollectionKind} {op : String} (hop : Total (compoundOperator op))
    (hid : Names G.symbols id (kind.ty .int)) (hi : IsIndex i) (he : Gives F G.symbols k 0 e .int) :
    Proceeds F inLoop 0 n G [.compound tok (.element mk id (.int mk' i)) op e] G := by
  refine proceeds_simple (by omega) fun functions rank fuel m hm hfuel => ?_
  obtain ⟨fuel, rfl⟩ : ∃ k, fuel = k + 1 := ⟨fuel - 1, by omega⟩
  obtain ⟨a, helement, ha⟩ := hm.element hid fuel mk' i
  unfold stmt
  refine succeeds_bind_of_ok helement ?_
  refine succeeds_bind_of_ok (position_eq hm.triples ha hi _) ?_
  refine he.bind hm (by omega) fun v m₁ hv hkept hm₁ => ?_
  have ha₁ : a < m₁.heap.size := Nat.lt_of_lt_of_le ha hkept.grows
  obtain ⟨old, hload⟩ := load_eq hm₁.triples ha₁ hi.toNat_lt.2
  refine succeeds_bind_of_ok hload ?_
  obtain ⟨x, hx⟩ := hop.arithmetic tok ⟨old, rfl⟩ hv
  rw [hx]
  exact ⟨rfl, hkept.spared.trans (hm₁.store a _ x)⟩

/-- `++` or `--` on a variable. -/
theorem incDec_eq (functions : List FunDecl) (run : Expr → Eval Value) (mk : Mark) (op : String)
    (before : Bool) {id : Ident} {sym : Symbol} {x : Int32} (hid : id.sym = some sym)
    (hx : m.vars[sym.id]? = some (.int x)) :
    ∃ v, incDec functions run (.mk mk op before (.name id)) m = .ok v
      { m with vars := m.vars.insert sym.id (.int (x + if op = "--" then -1 else 1)) } := by
  unfold incDec
  simp only [symbolOf_eq hid, pure_bind]
  rw [bind_of_ok (variableOf_of_vars hx)]
  exact ⟨_, rfl⟩

theorem proceeds_selfOp (hn : 0 < n) {tok : Token} {mk : Mark} {op : String} {before : Bool}
    {id : Ident} {sym : Symbol} (hid : id.sym = some sym) (hmem : sym ∈ G.symbols)
    (hsym : Writable G sym) :
    Proceeds F inLoop 0 n G [.selfOp tok (.mk mk op before (.name id))] G := by
  refine proceeds_simple hn fun functions rank fuel m hm hfuel => ?_
  obtain ⟨old, hold, hgood⟩ := hm.vars sym hmem
  rw [hsym.1] at hgood
  obtain ⟨x, rfl⟩ := hgood
  unfold stmt
  obtain ⟨v, hv⟩ := incDec_eq functions (expr functions fuel) mk op before hid hold
  exact succeeds_bind_of_ok hv ⟨rfl, hm.update hsym _⟩

/-- Something is printed. -/
theorem proceeds_print (hk : k < n) {tok : Token} {newline : Bool} (he : Gives F G.symbols k 0 e t) :
    Proceeds F inLoop 0 n G [.print tok newline (some e)] G := by
  refine proceeds_simple (by omega) fun functions rank fuel m hm hfuel => ?_
  unfold stmt
  refine he.bind hm (by omega) fun v m₁ _ hkept hm₁ => ?_
  rw [Succeeds, Eval.ends_bind]
  refine (succeeds_shown hm₁.triples tok v).mono fun text m' hm' => ?_
  subst hm'
  exact ⟨rfl, hkept.spared.trans ⟨⟨rfl, Nat.le_refl _, hm₁.triples⟩, fun _ _ => .inl rfl⟩⟩

/-- The loop around is left. -/
theorem proceeds_break (hn : 0 < n) (tok : Token) : Proceeds F true 0 n G [.brk tok] G :=
  proceeds_one hn (fun _ hx => hx) fun _ _ _ _ hm _ _ => ⟨hm.refl.spared, rfl⟩

/-! ### Compound statements -/

/-- `if`, with or without `else`. -/
theorem proceeds_ifElse (hk : k < n) {tok : Token} {thenB : Block} {elseB : Option Block}
    (hc : Gives F G.symbols k 0 c .boolean)
    (hthen : Proceeds F inLoop calls k G thenB.stmts G')
    (helse : ∀ b ∈ elseB, ∃ G'', Proceeds F inLoop calls k G b.stmts G'') :
    Proceeds F inLoop calls n G [.ifElse tok c thenB elseB] G := by
  refine proceeds_one (by omega) (fun _ hx => hx) fun functions rank fuel m hm hroom hfuel => ?_
  have hspan : rank * span ≤ (rank + calls) * span := Nat.mul_le_mul_right _ (by omega)
  -- Either branch starts where the condition ended.
  have hbranch {ss : List Stmt} {G₁ : Scope} (h : Proceeds F inLoop calls k G ss G₁) {m₁ : Machine}
      (hkept : Kept G.symbols m m₁) (hm₁ : Ready functions F rank G.symbols m₁) :
      Succeeds (Eval.sequence (stmt functions fuel) ss) m₁ fun flow m' =>
        Spared G m m' ∧ Goes functions F (rank + calls) inLoop G m' flow := by
    refine (h.leave.runs functions rank fuel m₁ hm₁ (by rw [hkept.depth]; omega) (by omega)).mono ?_
    rintro flow m₂ ⟨hspared, hgoes⟩
    exact ⟨hkept.spared.trans hspared, hgoes⟩
  unfold stmt
  refine hc.bind hm (by omega) fun v m₁ ⟨b, hv⟩ hkept hm₁ => ?_
  simp only [hv, truth, pure_bind]
  split
  · exact hbranch hthen hkept hm₁
  · cases elseB with
    | none =>
      exact ⟨hkept.spared, hm₁.raise (Nat.le_add_right rank calls) (by rw [hkept.depth]; omega)⟩
    | some b =>
      obtain ⟨G'', hb⟩ := helse b rfl
      exact hbranch hb hkept hm₁

/-- A turn of a loop. -/
theorem succeeds_turn (h : Proceeds F true calls k G ss G') (hm : Ready functions F rank G.symbols m)
    (hroom : m.depth + rank + calls ≤ Machine.maxDepth) (hfuel : k + (rank + calls) * span ≤ fuel) :
    Succeeds (turn (Eval.sequence (stmt functions fuel) ss)) m fun o m' =>
      (o = none ∨ o = some .next) ∧ Spared G m m' := by
  unfold turn
  rw [Succeeds, Eval.ends_bind]
  refine (h.runs functions rank fuel m hm hroom hfuel).mono ?_
  rintro flow m' ⟨hspared, hgoes⟩
  cases flow with
  | next => exact ⟨.inl rfl, hspared⟩
  | broke => exact ⟨.inr rfl, hspared⟩
  | continued => exact hgoes.elim
  | returned v => exact hgoes.elim

/-- A turn of a loop whose variable gets a number. -/
theorem succeeds_turnWith (h : Proceeds F true calls k ((sym, false) :: G) ss G')
    (hty : sym.ty = .int) (hnew : ∀ x ∈ G, x.1.id ≠ sym.id)
    (hm : Ready functions F rank G.symbols m) (hroom : m.depth + rank + calls ≤ Machine.maxDepth)
    (hfuel : k + (rank + calls) * span ≤ fuel) (x : Int32) :
    Succeeds (turn (Eval.sequence (stmt functions fuel) ss))
      { m with vars := m.vars.insert sym.id (.int x) } fun o m' =>
        (o = none ∨ o = some .next) ∧ Spared G m m' := by
  obtain ⟨hkept, hm₁⟩ := hm.declare (good_int hty x) fun y hy => by
    obtain ⟨z, hz, rfl⟩ := List.mem_map.mp hy
    exact hnew z hz
  refine (succeeds_turn h hm₁ hroom hfuel).mono ?_
  rintro o m' ⟨ho, hspared⟩
  exact ⟨ho, hkept.spared.trans (hspared.subset fun y hy => List.mem_cons_of_mem _ hy)⟩

/-- `for` over numbers. -/
theorem succeeds_rangeLoop (h : Proceeds F true calls k ((sym, false) :: G) ss G')
    (hty : sym.ty = .int) (hnew : ∀ x ∈ G, x.1.id ≠ sym.id)
    (hm : Ready functions F rank G.symbols m) (hroom : m.depth + rank + calls ≤ Machine.maxDepth)
    (hfuel : k + (rank + calls) * span ≤ fuel) (last step : Int32) (i : Int64) :
    Succeeds (Eval.rangeLoop sym.id last step (Eval.sequence (stmt functions fuel) ss) i) m
      fun flow m' => flow = .next ∧ Spared G m m' := by
  induction i using Eval.rangeLoop.induct last step generalizing m with
  | case1 i hi ih =>
    rw [Eval.rangeLoop, if_pos hi]
    refine succeeds_bind_of_ok (a := ⟨⟩) rfl ?_
    rw [Succeeds, Eval.ends_bind]
    refine (succeeds_turnWith h hty hnew hm hroom hfuel _).mono ?_
    rintro o m₁ ⟨rfl | rfl, hspared⟩
    · refine (ih (hm.spared hspared) (by rw [hspared.depth]; omega)).mono ?_
      rintro flow m₂ ⟨rfl, hspared'⟩
      exact ⟨rfl, hspared.trans hspared'⟩
    · exact ⟨rfl, hspared⟩
  | case2 i hi =>
    rw [Eval.rangeLoop, if_neg hi]
    exact ⟨rfl, hm.refl.spared⟩

/-- The bounds of a range, and its step, are literals. -/
def IsStep (step : Option Expr) : Prop := ∀ e ∈ step, ∃ mk s, e = .int mk s ∧ ¬ s ≤ 0

theorem proceeds_rangeLoop (hk : k < n) (hn : 1 < n) {tok : Token} {id : Ident} {mk mk' mk'' : Mark}
    {a b : Int32} {step : Option Expr} {body : Block} (hid : id.sym = some sym) (hty : sym.ty = .int)
    (hnew : ∀ x ∈ G, x.1.id ≠ sym.id) (hstep : IsStep step)
    (h : Proceeds F true calls k ((sym, false) :: G) body.stmts G') :
    Proceeds F inLoop calls n G
      [.forLoop tok id (.range (.mk mk (.int mk' a) (.int mk'' b) step)) body] G := by
  refine proceeds_still (by omega) fun functions rank fuel m hm hroom hfuel => ?_
  obtain ⟨fuel, rfl⟩ : ∃ k, fuel = k + 1 := ⟨fuel - 1, by omega⟩
  have hbound (mk : Mark) (x : Int32) : bound (expr functions (fuel + 1)) (.int mk x) m = .ok x m :=
    rfl
  unfold stmt
  simp only [symbolOf_eq hid, pure_bind]
  refine succeeds_bind_of_ok (hbound mk' a) (succeeds_bind_of_ok (hbound mk'' b) ?_)
  cases step with
  | none => exact succeeds_rangeLoop h hty hnew hm hroom (by omega) _ _ _
  | some e =>
    obtain ⟨mk, s, rfl, hs⟩ := hstep e rfl
    simp only
    refine succeeds_bind_of_ok (hbound mk s) ?_
    rw [if_neg hs]
    exact succeeds_rangeLoop h hty hnew hm hroom (by omega) _ _ _

/-- `for` over the elements of a collection. -/
theorem succeeds_elementLoop (h : Proceeds F true calls k ((sym, false) :: G) ss G')
    (hty : sym.ty = .int) (hnew : ∀ x ∈ G, x.1.id ≠ sym.id)
    (hm : Ready functions F rank G.symbols m) (hroom : m.depth + rank + calls ≤ Machine.maxDepth)
    (hfuel : k + (rank + calls) * span ≤ fuel) {a : Nat} (ha : a < m.heap.size) (count i : Nat)
    (hi : i + count ≤ 3) :
    Succeeds (Eval.elementLoop sym.id a (Eval.sequence (stmt functions fuel) ss) count i) m
      fun flow m' => flow = .next ∧ Spared G m m' := by
  induction count generalizing m i with
  | zero => exact ⟨rfl, hm.refl.spared⟩
  | succ count ih =>
    obtain ⟨x, hload⟩ := load_eq (i := i) hm.triples ha (by omega)
    unfold Eval.elementLoop
    refine succeeds_bind_of_ok hload (succeeds_bind_of_ok (a := ⟨⟩) rfl ?_)
    rw [Succeeds, Eval.ends_bind]
    refine (succeeds_turnWith h hty hnew hm hroom hfuel _).mono ?_
    rintro o m₁ ⟨rfl | rfl, hspared⟩
    · refine (ih (hm.spared hspared) (by rw [hspared.depth]; omega)
        (Nat.lt_of_lt_of_le ha hspared.grows) (i + 1) (by omega)).mono ?_
      rintro flow m₂ ⟨rfl, hspared'⟩
      exact ⟨rfl, hspared.trans hspared'⟩
    · exact ⟨rfl, hspared⟩

theorem proceeds_eachLoop (hk : k < n) (hn : 1 < n) {tok : Token} {id base : Ident}
    {kind : CollectionKind} {body : Block} (hid : id.sym = some sym) (hty : sym.ty = .int)
    (hnew : ∀ x ∈ G, x.1.id ≠ sym.id) (hbase : Names G.symbols base (kind.ty .int))
    (h : Proceeds F true calls k ((sym, false) :: G) body.stmts G') :
    Proceeds F inLoop calls n G [.forLoop tok id (.each (.read (.name base))) body] G := by
  refine proceeds_still (by omega) fun functions rank fuel m hm hroom hfuel => ?_
  obtain ⟨fuel, rfl⟩ : ∃ k, fuel = k + 1 := ⟨fuel - 1, by omega⟩
  obtain ⟨v, hread, hgood⟩ := hm.read hbase
  obtain ⟨kind, a, rfl, ha⟩ := hgood.of_collection
  have hsize : length a m = .ok 3 m := by
    obtain ⟨hsize, -⟩ := hm.triples a _ (Array.getElem?_eq_getElem ha)
    change EStateM.Result.ok (m.heap.getD a #[]).size m = _
    rw [Array.getD_eq_getD_getElem?, Array.getElem?_eq_getElem ha, Option.getD_some, hsize]
  have hrun : expr functions (fuel + 1) (.read (.name base)) m = .ok (.collection kind a) m := hread
  unfold stmt
  simp only [symbolOf_eq hid, pure_bind]
  refine succeeds_bind_of_ok hrun (succeeds_bind_of_ok hsize ?_)
  exact succeeds_elementLoop h hty hnew hm hroom (by omega) ha 3 0 (by omega)

/-! ### `while` -/

/-- The condition of a loop that counts. -/
theorem counting_eq (functions : List FunDecl) (fuel : Nat) (mk mk' : Mark) (b : Int32) {id : Ident}
    {x : Int32} (hid : id.sym = some sym)
    (hplain : sym.isFunction = false) (hx : m.vars[sym.id]? = some (.int x)) :
    expr functions (fuel + 2) (.compare mk "<" (.read (.name id)) (.int mk' b)) m =
      .ok (.bool (decide (x.toInt < b.toInt))) m := by
  have hleft : expr functions (fuel + 1) (.read (.name id)) m = .ok (.int x) m :=
    read_of_vars hid hplain hx
  have hright : expr functions (fuel + 1) (.int mk' b) m = .ok (.int b) m := rfl
  change (expr functions (fuel + 1) _ >>= fun a => expr functions (fuel + 1) _ >>= fun b =>
    comparison mk.tok "<" a b) m = _
  rw [bind_of_ok hleft, bind_of_ok hright]
  have hop : CompareOp.ofText? "<" = some .lt := rfl
  simp only [comparison, hop, CompareOp.holds]
  have hlt : (compare x.toInt b.toInt == Ordering.lt) = decide (x.toInt < b.toInt) := by
    rw [Bool.eq_iff_iff, beq_iff_eq, Int.compare_eq_lt, decide_eq_true_iff]
  rw [hlt]
  rfl

theorem toInt_succ {x : Int32} (hlow : 0 ≤ x.toInt) (hhigh : x.toInt < 4) :
    (x + 1).toInt = x.toInt + 1 := by
  rw [Int32.toInt_add]
  have h1 : (1 : Int32).toInt = 1 := rfl
  rw [h1, Int.bmod_def]
  omega

theorem turn_cons {run : Stmt → Eval Flow} (h : run s m = .ok .next m') :
    turn (Eval.sequence run (s :: ss)) m = turn (Eval.sequence run ss) m' := by
  unfold turn
  rw [Eval.sequence, bind_assoc, bind_of_ok h]

/-- A turn that counts first. -/
theorem succeeds_countingTurn (hk : 1 < k) {tok : Token} {mk : Mark} {before : Bool} {id : Ident}
    {x : Int32} (hid : id.sym = some sym) (hty : sym.ty = .int) (hnew : ∀ x ∈ G, x.1.id ≠ sym.id)
    (h : Proceeds F true calls k ((sym, false) :: G) ss G') (hm : Ready functions F rank G.symbols m)
    (hx : m.vars[sym.id]? = some (.int x)) (hroom : m.depth + rank + calls ≤ Machine.maxDepth)
    (hfuel : k + (rank + calls) * span ≤ fuel) :
    Succeeds (turn (Eval.sequence (stmt functions fuel) (.selfOp tok (.mk mk "++" before (.name id)) :: ss)))
      m fun o m' => (o = none ∨ o = some .next) ∧ Spared G m m' ∧
        m'.vars[sym.id]? = some (.int (x + 1)) := by
  obtain ⟨fuel, rfl⟩ : ∃ k, fuel = k + 1 := ⟨fuel - 1, by omega⟩
  obtain ⟨v, hv⟩ := incDec_eq functions (expr functions fuel) mk "++" before hid hx
  rw [if_neg (by decide)] at hv
  have hcount : stmt functions (fuel + 1) (.selfOp tok (.mk mk "++" before (.name id))) m =
      .ok .next { m with vars := m.vars.insert sym.id (.int (x + 1)) } := by
    change (incDec functions (expr functions fuel) _ >>= fun _ => pure Flow.next) m = _
    rw [bind_of_ok hv]
    rfl
  obtain ⟨hkept, hm₁⟩ := hm.declare (good_int hty (x + 1)) fun y hy => by
    obtain ⟨z, hz, rfl⟩ := List.mem_map.mp hy
    exact hnew z hz
  unfold Succeeds Eval.Ends
  rw [turn_cons hcount]
  refine (succeeds_turn h hm₁ hroom hfuel).mono ?_
  rintro o m' ⟨ho, hspared⟩
  refine ⟨ho, hkept.spared.trans (hspared.subset fun y hy => List.mem_cons_of_mem _ hy), ?_⟩
  rcases hspared.vars _ List.mem_cons_self with hsame | ⟨hflag, -⟩
  · rw [hsame]
    simp
  · cases hflag

/-- A loop that counts a variable up to a bound, which its body leaves alone. -/
theorem succeeds_whileLoop (hk : 1 < k) {tok tok' : Token} {mk mk' mk'' : Mark} {before : Bool}
    {id id' : Ident} {b : Int32} (hid : id.sym = some sym) (hid' : id'.sym = some sym)
    (hty : sym.ty = .int) (hplain : sym.isFunction = false) (hnew : ∀ x ∈ G, x.1.id ≠ sym.id)
    (hb : b.toInt ≤ 4) (h : Proceeds F true calls k ((sym, false) :: G) ss G')
    (hfuel : k + (rank + calls) * span ≤ fuel) (count : Nat) {x : Int32}
    (hm : Ready functions F rank G.symbols m) (hx : m.vars[sym.id]? = some (.int x))
    (hlow : 0 ≤ x.toInt) (hcount : (b.toInt - x.toInt).toNat < count)
    (hroom : m.depth + rank + calls ≤ Machine.maxDepth) :
    let c : Expr := .compare mk "<" (.read (.name id)) (.int mk' b)
    Succeeds (Eval.whileLoop tok (do truth c.tok (← expr functions fuel c))
      (Eval.sequence (stmt functions fuel) (.selfOp tok' (.mk mk'' "++" before (.name id')) :: ss)) count)
      m fun flow m' => flow = .next ∧ Spared G m m' ∧ ∃ y, m'.vars[sym.id]? = some (.int y) := by
  intro c
  obtain ⟨fuel, rfl⟩ : ∃ k, fuel = k + 2 := ⟨fuel - 2, by omega⟩
  induction count generalizing m x with
  | zero => omega
  | succ count ih =>
    unfold Eval.whileLoop
    have htest := counting_eq functions fuel mk mk' b hid hplain hx
    rw [bind_assoc]
    refine succeeds_bind_of_ok htest (succeeds_bind_of_ok (a := decide (x.toInt < b.toInt)) rfl ?_)
    by_cases hlt : x.toInt < b.toInt
    · rw [if_pos (by simpa using hlt), Succeeds, Eval.ends_bind]
      refine (succeeds_countingTurn hk hid' hty hnew h hm hx hroom hfuel).mono ?_
      rintro o m₁ ⟨rfl | rfl, hspared, hx₁⟩
      · have hnext := toInt_succ hlow (by omega)
        refine (ih (hm.spared hspared) hx₁ (by omega) (by omega)
          (by rw [hspared.depth]; omega)).mono ?_
        rintro flow m₂ ⟨rfl, hspared', hy⟩
        exact ⟨rfl, hspared.trans hspared', hy⟩
      · exact ⟨rfl, hspared, _, hx₁⟩
    · rw [if_neg (by simpa using hlt)]
      exact ⟨rfl, hm.refl.spared, x, hx⟩

/-- A declaration of a counter with its loop. -/
theorem proceeds_while (hk : 1 < k) (hn : k < n) (hn' : 6 < n) {tok tok' tok'' : Token}
    {mk mk' mk'' mk₀ : Mark} {before isMutable : Bool} {ty : Option Ty} {name id id' : Ident}
    {b : Int32} {body : Block} (hname : name.sym = some sym) (hid : id.sym = some sym)
    (hid' : id'.sym = some sym) (hty : sym.ty = .int) (hplain : sym.isFunction = false)
    (hnew : ∀ x ∈ G, x.1.id ≠ sym.id) (hb : b.toInt ≤ 4)
    (hbody : body.stmts = .selfOp tok' (.mk mk'' "++" before (.name id')) :: ss)
    (h : Proceeds F true calls k ((sym, false) :: G) ss G') :
    Proceeds F inLoop calls n G [.decl tok isMutable name ty (some (.int mk₀ 0)),
      .whileLoop tok'' (.compare mk "<" (.read (.name id)) (.int mk' b)) body] ((sym, false) :: G) := by
  refine ⟨fun _ hx => List.mem_cons_of_mem _ hx, fun functions rank fuel m hm hroom hfuel => ?_⟩
  obtain ⟨fuel, rfl⟩ : ∃ k, fuel = k + 2 := ⟨fuel - 2, by omega⟩
  obtain ⟨hkept, hm₁⟩ := hm.declare (good_int hty 0) fun y hy => by
    obtain ⟨z, hz, rfl⟩ := List.mem_map.mp hy
    exact hnew z hz
  have hdecl : stmt functions (fuel + 2) (.decl tok isMutable name ty (some (.int mk₀ 0))) m =
      .ok .next { m with vars := m.vars.insert sym.id (.int 0) } := by
    unfold stmt
    simp only [symbolOf_eq hname, pure_bind]
    rfl
  have hm₂ := hm₁.subset fun x hx => List.mem_cons_of_mem _ hx
  rw [Eval.sequence]
  refine succeeds_bind_of_ok hdecl ?_
  simp only [sequence_one]
  unfold stmt
  simp only [hbody]
  refine (succeeds_whileLoop hk hid hid' hty hplain hnew hb h (by omega) (fuel + 1) hm₂ (x := 0)
    (by simp) (by decide) (by have : (0 : Int32).toInt = 0 := rfl; omega) hroom).mono ?_
  rintro flow m₁ ⟨rfl, hspared, y, hy⟩
  refine ⟨hkept.spared.trans hspared, ?_⟩
  have hm₃ := (hm₂.spared hspared).raise (Nat.le_add_right rank calls)
    (by rw [hspared.depth, ← Nat.add_assoc]; exact hroom)
  refine ⟨hm₃.provides, hm₃.triples, fun x hx => ?_, hm₃.room⟩
  rcases List.mem_cons.mp hx with rfl | hx
  · exact ⟨.int y, hy, good_int hty y⟩
  · exact hm₃.vars x hx

/-! ### Functions -/

/-- A function whose body goes on up to its `return` can be called: it calls one deeper than its
body does. -/
theorem callable_function (f : FunDecl) (hk : k < span) {r : Nat} {syms : List Symbol} {tok : Token}
    (hps : Param.Declare r 1 f.params syms) (hty : ∀ sym ∈ syms, sym.ty = .int)
    (hbody : f.body.stmts = ss ++ [.ret tok (some e)]) (hG : ∀ sym ∈ G.symbols, sym ∈ syms)
    (h : Proceeds F false calls k G ss G')
    (he : Gives F G'.symbols k 0 e .int) (hprovides : Provides functions rank F) :
    Callable functions (rank + calls + 1) 0 f.params.length (.function f) := by
  intro fuel m name tok args hfuel hroom _ htriples hlen hargs
  rw [Nat.succ_mul] at hfuel
  have hm : Ready functions F rank [] { m with vars := ∅ } :=
    ⟨hprovides, htriples, by simp, by change m.depth + rank ≤ _; omega⟩
  have hrun (m₁ : Machine) (hm₁ : Ready functions F rank (syms ++ []) m₁)
      (hdepth : m₁.depth = m.depth + 1) :
      Succeeds (Eval.sequence (stmt functions fuel) f.body.stmts) m₁ fun flow m₂ =>
        (∃ v, flow = .returned v ∧ IsInt v) ∧ Leaves m₁ m₂ := by
    rw [hbody, sequence_append, Succeeds, Eval.ends_bind]
    have hm₂ : Ready functions F rank G.symbols m₁ :=
      hm₁.subset fun sym hsym => List.mem_append_left _ (hG sym hsym)
    refine (h.runs functions rank fuel m₁ hm₂ (by omega) (by omega)).mono ?_
    rintro flow m₂ ⟨hspared, hgoes⟩
    cases flow with
    | next =>
      obtain ⟨fuel, rfl⟩ : ∃ k, fuel = k + 1 := ⟨fuel - 1, by omega⟩
      simp only [sequence_one]
      unfold stmt
      refine he.bind hgoes (by omega) fun v m₃ hv hkept _ => ?_
      exact ⟨⟨v, rfl, hv⟩, hspared.toLeaves.trans hkept.toLeaves⟩
    | broke => cases hgoes
    | continued => exact hgoes.elim
    | returned v => exact hgoes.elim
  unfold apply
  refine succeeds_bind_of_ok (a := m) rfl ?_
  rw [if_neg (by omega), Succeeds, Eval.ends_bind]
  refine (succeeds_inCall ⟨f.name.name, tok.line, tok.col⟩ tok hps (Context.nil r 1) hty hlen hargs hm
    (by omega) hrun).mono ?_
  rintro flow m₂ ⟨⟨v, rfl, hv⟩, hsame, hleaves⟩
  exact ⟨hv, hsame, hleaves⟩

end Statements

end Sample
end Kotlet

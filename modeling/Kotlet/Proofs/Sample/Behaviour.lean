import Kotlet.Proofs.Eval.Order
import Kotlet.Proofs.Syntax.Splicing

/-!
# How the expressions of sample programs behave

What the values of a sample program are like while it runs, by their types: numbers, collections of
three numbers, and function values that come to an end with a number wherever they are called. How
deep the calls of a function value go is its rank.

* `Triples` : heaps of collections of three numbers;
* `Callable`, `Good` : values that can be called, and the values of a type;
* `Kept`, `Ready` : what steps leave as it was, and machines that a piece of a program can run on;
* `Gives` : expressions that run without a fault, with fuel for their size and for the calls inside;
* `gives_int` .. `gives_lambda` : one lemma for each form.
-/

namespace Kotlet
namespace Sample

open Eval

/-- Runs without a fault, and ends in `post`. -/
abbrev Succeeds {α : Type} (x : Eval α) (m : Machine) (post : α → Machine → Prop) : Prop :=
  Eval.Ends x m (fun _ _ => False) post

/-- More steps inside each other than one activation of a sample program takes. -/
def span : Nat := 1000

/-! ## Values -/

/-- A number. -/
def IsInt (v : Value) : Prop := ∃ n, v = .int n

/-- Every collection has three elements, which are numbers. -/
def Triples (heap : Heap) : Prop := ∀ (a : Nat) (es : Array Value), heap[a]? = some es →
  es.size = 3 ∧ ∀ (i : Nat) (v : Value), es[i]? = some v → IsInt v

/-- No collection holds another one, so everything can be shown. -/
theorem Triples.show? {heap : Heap} (h : Triples heap) (v : Value) : ∃ text, v.show? heap = some text := by
  cases hv : v.show? heap with
  | some text => exact ⟨text, rfl⟩
  | none =>
    obtain ⟨a, ha⟩ := Value.isCircular_of_show? hv
    obtain ⟨b, ⟨kind, hb⟩, -⟩ := Relation.TransGen.head'_iff.mp ha
    rw [Array.getD_eq_getD_getElem?] at hb
    cases hes : heap[a]? with
    | none =>
      rw [hes] at hb
      exact absurd hb (Array.not_mem_empty _)
    | some es =>
      rw [hes] at hb
      obtain ⟨i, hi⟩ := Array.mem_iff_getElem?.mp hb
      obtain ⟨n, hn⟩ := (h a es hes).2 i _ hi
      cases hn

theorem succeeds_shown {m : Machine} (h : Triples m.heap) (tok : Token) (v : Value) :
    Succeeds (shown tok v) m fun _ m' => m' = m := by
  unfold shown
  rw [Succeeds, Eval.ends_bind, Eval.ends_get]
  obtain ⟨text, htext⟩ := h.show? v
  rw [htext]
  exact rfl

/-- What any step leaves of a machine: the calls that were active, and the collections. -/
structure Leaves (m m' : Machine) : Prop where
  depth : m'.depth = m.depth
  grows : m.heap.size ≤ m'.heap.size
  triples : Triples m'.heap

/-- Whoever calls the value with numbers gets a number, as long as `rank` more calls may be active
and the collections it refers to are there. -/
def Callable (functions : List FunDecl) (rank floor arity : Nat) (callee : Value) : Prop :=
  ∀ (fuel : Nat) (m : Machine) (name : String) (tok : Token) (args : List Value),
    rank * span ≤ fuel → m.depth + rank ≤ Machine.maxDepth → floor ≤ m.heap.size → Triples m.heap →
    args.length = arity → (∀ a ∈ args, IsInt a) →
    Succeeds (apply (Eval.sequence (stmt functions fuel)) (expr functions fuel) name tok callee args) m
      fun v m' => IsInt v ∧ m'.vars = m.vars ∧ Leaves m m'

/-- The values of a type, where all collections have addresses below `floor`. -/
def Good (functions : List FunDecl) (rank floor : Nat) : Ty → Value → Prop
  | .scalar .int, v => IsInt v
  | .scalar .boolean, v => ∃ b, v = .bool b
  | .scalar .string, v => ∃ s, v = .string s
  | .array .int, v | .list .int, v => ∃ kind a, v = .collection kind a ∧ a < floor
  | .fn [.scalar .int] (some (.scalar .int)), v => Callable functions rank floor 1 v
  | _, _ => False

variable {functions : List FunDecl} {rank rank' floor floor' arity : Nat} {v : Value}

theorem Callable.mono (h : Callable functions rank floor arity v) (hr : rank ≤ rank')
    (hf : floor ≤ floor') : Callable functions rank' floor' arity v := by
  intro fuel m name tok args hfuel hroom hfloor
  have hspan : rank * span ≤ rank' * span := Nat.mul_le_mul_right _ hr
  exact h fuel m name tok args (by omega) (by omega) (by omega)

theorem Good.mono {t : Ty} (h : Good functions rank floor t v) (hr : rank ≤ rank')
    (hf : floor ≤ floor') : Good functions rank' floor' t v := by
  unfold Good at h ⊢
  split at h
  · exact h
  · exact h
  · exact h
  · obtain ⟨kind, a, rfl, ha⟩ := h
    exact ⟨kind, a, rfl, by omega⟩
  · obtain ⟨kind, a, rfl, ha⟩ := h
    exact ⟨kind, a, rfl, by omega⟩
  · exact h.mono hr hf
  · exact h.elim

theorem Good.of_collection {kind : CollectionKind} (h : Good functions rank floor (kind.ty .int) v) :
    ∃ kind a, v = .collection kind a ∧ a < floor := by
  cases kind <;> exact h

theorem good_collection {kind : CollectionKind} {a : Nat} (h : a < floor) :
    Good functions rank floor (kind.ty .int) (.collection kind a) := by
  cases kind <;> exact ⟨_, a, rfl, h⟩

/-! ## Machines -/

/-- Steps that leave these variables as they were. -/
structure Kept (Γ : List Symbol) (m m' : Machine) : Prop extends Leaves m m' where
  vars : ∀ sym ∈ Γ, m'.vars[sym.id]? = m.vars[sym.id]?

/-- The functions of some names and numbers of parameters can be called. -/
def Provides (functions : List FunDecl) (rank : Nat) (F : List (String × Nat)) : Prop :=
  ∀ f ∈ F, ∃ d, functionOf? functions f.1 = some d ∧ Callable functions rank 0 f.2 (.function d)

/-- A machine on which a piece of a program can run that knows these functions and variables, and
that calls at most `rank` deep. -/
structure Ready (functions : List FunDecl) (F : List (String × Nat)) (rank : Nat)
    (Γ : List Symbol) (m : Machine) : Prop where
  provides : Provides functions rank F
  triples : Triples m.heap
  vars : ∀ sym ∈ Γ, ∃ v, m.vars[sym.id]? = some v ∧ Good functions rank m.heap.size sym.ty v
  room : m.depth + rank ≤ Machine.maxDepth

variable {F : List (String × Nat)} {Γ Δ : List Symbol} {m m' m'' : Machine}

theorem Leaves.refl (h : Triples m.heap) : Leaves m m := ⟨rfl, Nat.le_refl _, h⟩

theorem Leaves.trans (h : Leaves m m') (h' : Leaves m' m'') : Leaves m m'' :=
  ⟨h'.depth.trans h.depth, Nat.le_trans h.grows h'.grows, h'.triples⟩

theorem Kept.refl (h : Triples m.heap) : Kept Γ m m := ⟨Leaves.refl h, fun _ _ => rfl⟩

theorem Kept.trans (h : Kept Γ m m') (h' : Kept Γ m' m'') : Kept Γ m m'' :=
  ⟨h.toLeaves.trans h'.toLeaves, fun sym hs => (h'.vars sym hs).trans (h.vars sym hs)⟩

theorem Provides.mono (h : Provides functions rank F) (hr : rank ≤ rank') :
    Provides functions rank' F := by
  intro f hf
  obtain ⟨d, hd, hc⟩ := h f hf
  exact ⟨d, hd, hc.mono hr (Nat.le_refl _)⟩

theorem Ready.kept (h : Ready functions F rank Γ m) (hk : Kept Γ m m') :
    Ready functions F rank Γ m' := by
  refine ⟨h.provides, hk.triples, fun sym hs => ?_, hk.depth ▸ h.room⟩
  obtain ⟨v, hv, hgood⟩ := h.vars sym hs
  exact ⟨v, (hk.vars sym hs).trans hv, hgood.mono (Nat.le_refl _) hk.grows⟩

theorem Ready.refl (h : Ready functions F rank Γ m) : Kept Γ m m := Kept.refl h.triples

/-- A piece of a program may be counted as calling deeper than it does. -/
theorem Ready.raise (h : Ready functions F rank Γ m) (hr : rank ≤ rank')
    (hroom : m.depth + rank' ≤ Machine.maxDepth) : Ready functions F rank' Γ m := by
  refine ⟨h.provides.mono hr, h.triples, fun sym hs => ?_, hroom⟩
  obtain ⟨v, hv, hgood⟩ := h.vars sym hs
  exact ⟨v, hv, hgood.mono hr (Nat.le_refl _)⟩

/-! ## Expressions -/

/-- The expression runs without a fault wherever these functions and variables are known, and its
value has a type. Function values that it makes may have ranks higher by `more`. -/
def Gives (F : List (String × Nat)) (Γ : List Symbol) (size more : Nat) (e : Expr) (t : Ty) : Prop :=
  ∀ (functions : List FunDecl) (rank fuel : Nat) (m : Machine), Ready functions F rank Γ m →
    size + rank * span ≤ fuel → Succeeds (expr functions fuel e) m fun v m' =>
      Good functions (rank + more) m'.heap.size t v ∧ Kept Γ m m'

section Expressions

variable {k k' n more fuel : Nat} {e l r : Expr} {t : Ty}

/-- What comes after an expression starts from its value and from a machine as ready as before. -/
theorem Gives.bind {α : Type} (h : Gives F Γ k 0 e t) (hm : Ready functions F rank Γ m)
    (hfuel : k + rank * span ≤ fuel) {f : Value → Eval α} {post : α → Machine → Prop}
    (hf : ∀ v m', Good functions rank m'.heap.size t v → Kept Γ m m' → Ready functions F rank Γ m' →
      Succeeds (f v) m' post) : Succeeds (expr functions fuel e >>= f) m post := by
  rw [Succeeds, Eval.ends_bind]
  refine (h functions rank fuel m hm hfuel).mono fun v m' ⟨hv, hk⟩ => ?_
  exact hf v m' hv hk (hm.kept hk)

theorem Gives.mono (h : Gives F Γ k more e t) (hk : k ≤ k') : Gives F Γ k' more e t :=
  fun functions rank fuel m hm hfuel => h functions rank fuel m hm (by omega)

/-- One step of fuel is for the expression itself. -/
theorem gives_of_step (hn : 0 < n) (h : ∀ functions rank fuel m, Ready functions F rank Γ m →
    n - 1 + rank * span ≤ fuel → Succeeds (expr functions (fuel + 1) e) m fun v m' =>
      Good functions (rank + more) m'.heap.size t v ∧ Kept Γ m m') : Gives F Γ n more e t := by
  intro functions rank fuel m hm hfuel
  obtain ⟨fuel, rfl⟩ : ∃ k, fuel = k + 1 := ⟨fuel - 1, by omega⟩
  exact h functions rank fuel m hm (by omega)

theorem gives_int (hn : 0 < n) (mk : Mark) (i : Int32) : Gives F Γ n 0 (.int mk i) .int :=
  gives_of_step hn fun _ _ _ _ hm _ => ⟨⟨i, rfl⟩, hm.refl⟩

theorem gives_bool (hn : 0 < n) (mk : Mark) (b : Bool) : Gives F Γ n 0 (.bool mk b) .boolean :=
  gives_of_step hn fun _ _ _ _ hm _ => ⟨⟨b, rfl⟩, hm.refl⟩

theorem gives_text (hn : 0 < n) (mk : Mark) (s : String) : Gives F Γ n 0 (.str mk s []) .string :=
  gives_of_step hn fun _ _ _ _ hm _ => ⟨⟨s, rfl⟩, hm.refl⟩

/-- The name is that of a variable of a type. -/
def Names (Γ : List Symbol) (id : Ident) (t : Ty) : Prop :=
  ∃ sym ∈ Γ, id.sym = some sym ∧ sym.isFunction = false ∧ sym.ty = t

/-- The value of a variable. -/
theorem Ready.read (hm : Ready functions F rank Γ m) {id : Ident} (hid : Names Γ id t) :
    ∃ v, Eval.read functions id m = .ok v m ∧ Good functions rank m.heap.size t v := by
  obtain ⟨sym, hmem, hsym, hplain, rfl⟩ := hid
  obtain ⟨v, hv, hgood⟩ := hm.vars sym hmem
  exact ⟨v, read_of_vars hsym hplain hv, hgood⟩

theorem ends_of_ok {α : Type} {x : Eval α} {a : α} {post : α → Machine → Prop}
    (h : x m = .ok a m') (hpost : post a m') : Succeeds x m post := by
  unfold Succeeds Eval.Ends
  rw [h]
  exact hpost

theorem succeeds_bind_of_ok {α β : Type} {x : Eval α} {a : α} {f : α → Eval β}
    {post : β → Machine → Prop} (h : x m = .ok a m') (hf : Succeeds (f a) m' post) :
    Succeeds (x >>= f) m post := by
  unfold Succeeds Eval.Ends at hf ⊢
  rw [bind_of_ok h]
  exact hf

theorem gives_read (hn : 0 < n) {id : Ident} (hid : Names Γ id t) :
    Gives F Γ n 0 (.read (.name id)) t := by
  refine gives_of_step hn fun functions rank fuel m hm _ => ?_
  obtain ⟨v, hv, hgood⟩ := hm.read hid
  exact ends_of_ok hv ⟨hgood, hm.refl⟩

/-! ### Operators -/

theorem arithmetic_eq {tok : Token} {op : String} {o : ArithOp} {a b c : Int32}
    (ho : ArithOp.ofText? op = some o) (h : o.apply a b = some c) :
    arithmetic tok op (.int a) (.int b) = pure (.int c) := by
  simp [arithmetic, ho, h]

/-- An operation that has a result on all numbers. -/
def Total (op : String) : Prop :=
  ∃ o, ArithOp.ofText? op = some o ∧ ∀ a b, ∃ c, o.apply a b = some c

theorem Total.arithmetic {op : String} (h : Total op) (tok : Token) {x y : Value} (hx : IsInt x)
    (hy : IsInt y) : ∃ c, Eval.arithmetic tok op x y = pure (.int c) := by
  obtain ⟨o, ho, happly⟩ := h
  obtain ⟨a, rfl⟩ := hx
  obtain ⟨b, rfl⟩ := hy
  obtain ⟨c, hc⟩ := happly a b
  exact ⟨c, arithmetic_eq ho hc⟩

theorem gives_arith (hk : k < n) (hk' : k' < n) {mk : Mark} {op : String} (hop : Total op)
    (hl : Gives F Γ k 0 l .int) (hr : Gives F Γ k' 0 r .int) : Gives F Γ n 0 (.arith mk op l r) .int := by
  refine gives_of_step (by omega) fun functions rank fuel m hm hfuel => ?_
  unfold expr
  refine hl.bind hm (by omega) fun x m₁ hx hkept hm₁ => ?_
  refine hr.bind hm₁ (by omega) fun y m₂ hy hkept' hm₂ => ?_
  obtain ⟨c, hc⟩ := hop.arithmetic mk.tok hx hy
  rw [hc]
  exact ⟨⟨c, rfl⟩, hkept.trans hkept'⟩

/-- Nothing is divided by zero. -/
theorem gives_divide (hk : k < n) (hn : 1 < n) {mk mk' : Mark} {op : String} {o : ArithOp} {d : Int32}
    (ho : ArithOp.ofText? op = some o) (happly : ∀ a, ∃ c, o.apply a d = some c)
    (hl : Gives F Γ k 0 l .int) : Gives F Γ n 0 (.arith mk op l (.int mk' d)) .int := by
  refine gives_of_step (by omega) fun functions rank fuel m hm hfuel => ?_
  obtain ⟨fuel, rfl⟩ : ∃ k, fuel = k + 1 := ⟨fuel - 1, by omega⟩
  unfold expr
  refine hl.bind hm (by omega) fun x m₁ ⟨a, hx⟩ hkept hm₁ => ?_
  obtain ⟨c, hc⟩ := happly a
  rw [hx, expr, pure_bind, arithmetic_eq ho hc]
  exact ⟨⟨c, rfl⟩, hkept⟩

/-- Numbers are compared with numbers, and texts with texts. -/
theorem gives_compare (hk : k < n) (hk' : k' < n) {mk : Mark} {op : String} {o : CompareOp} {t : Ty}
    (ho : CompareOp.ofText? op = some o) (ht : t = .int ∨ t = .string) (hl : Gives F Γ k 0 l t)
    (hr : Gives F Γ k' 0 r t) : Gives F Γ n 0 (.compare mk op l r) .boolean := by
  refine gives_of_step (by omega) fun functions rank fuel m hm hfuel => ?_
  unfold expr
  refine hl.bind hm (by omega) fun x m₁ hx hkept hm₁ => ?_
  refine hr.bind hm₁ (by omega) fun y m₂ hy hkept' hm₂ => ?_
  rcases ht with rfl | rfl
  all_goals
    obtain ⟨a, rfl⟩ := hx
    obtain ⟨b, rfl⟩ := hy
    simp only [comparison, ho]
    exact ⟨⟨_, rfl⟩, hkept.trans hkept'⟩

theorem gives_logic (hk : k < n) (hk' : k' < n) {mk : Mark} {op : String}
    (hl : Gives F Γ k 0 l .boolean) (hr : Gives F Γ k' 0 r .boolean) :
    Gives F Γ n 0 (.logic mk op l r) .boolean := by
  refine gives_of_step (by omega) fun functions rank fuel m hm hfuel => ?_
  unfold expr
  refine hl.bind hm (by omega) fun x m₁ ⟨a, hx⟩ hkept hm₁ => ?_
  simp only [hx, truth, pure_bind]
  split
  · exact ⟨⟨_, rfl⟩, hkept⟩
  · split
    · exact ⟨⟨_, rfl⟩, hkept⟩
    · refine hr.bind hm₁ (by omega) fun y m₂ ⟨b, hy⟩ hkept' hm₂ => ?_
      rw [hy]
      exact ⟨⟨b, rfl⟩, hkept.trans hkept'⟩

theorem gives_not (hk : k < n) {mk : Mark} (h : Gives F Γ k 0 e .boolean) :
    Gives F Γ n 0 (.not mk e) .boolean := by
  refine gives_of_step (by omega) fun functions rank fuel m hm hfuel => ?_
  unfold expr
  refine h.bind hm (by omega) fun x m₁ ⟨a, hx⟩ hkept hm₁ => ?_
  rw [hx]
  exact ⟨⟨!a, rfl⟩, hkept⟩

/-! ### Elements -/

/-- An index below three. -/
def IsIndex (i : Int32) : Prop := 0 ≤ i ∧ i < 3

theorem IsIndex.toNat_lt {i : Int32} (h : IsIndex i) : ¬ i < 0 ∧ i.toInt.toNat < 3 := by
  obtain ⟨hlow, hhigh⟩ := h
  rw [Int32.le_iff_toInt_le] at hlow
  rw [Int32.lt_iff_toInt_lt] at hhigh
  rw [Int32.lt_iff_toInt_lt]
  have h0 : (0 : Int32).toInt = 0 := rfl
  have h3 : (3 : Int32).toInt = 3 := rfl
  omega

/-- The element of a collection and where it stands. -/
theorem Ready.element (hm : Ready functions F rank Γ m) {id : Ident} {kind : CollectionKind}
    (hid : Names Γ id (kind.ty .int)) (fuel : Nat) (mk : Mark) (i : Int32) :
    ∃ a, Eval.element functions (expr functions (fuel + 1)) id (.int mk i) m = .ok (a, i) m ∧
      a < m.heap.size := by
  obtain ⟨v, hread, hgood⟩ := hm.read hid
  obtain ⟨kind, a, rfl, ha⟩ := hgood.of_collection
  exact ⟨a, element_of_collection hread rfl, ha⟩

theorem position_eq (hm : Triples m.heap) {a : Nat} (ha : a < m.heap.size) {i : Int32}
    (hi : IsIndex i) (tok : Token) : position tok a i m = .ok i.toInt.toNat m := by
  obtain ⟨hneg, hlt⟩ := hi.toNat_lt
  have hes := Array.getElem?_eq_getElem ha
  rw [position_of_size hes, if_neg]
  have hsize := (hm a _ hes).1
  exact not_or.mpr ⟨hneg, by omega⟩

theorem load_eq (hm : Triples m.heap) {a : Nat} (ha : a < m.heap.size) {i : Nat} (hi : i < 3) :
    ∃ x, load a i m = .ok (.int x) m := by
  have hes := Array.getElem?_eq_getElem ha
  obtain ⟨hsize, hints⟩ := hm a _ hes
  have hlt : i < m.heap[a].size := by omega
  have hv := Array.getElem?_eq_getElem hlt
  obtain ⟨x, hx⟩ := hints i _ hv
  exact ⟨x, load_of_element (Option.bind_eq_some_iff.mpr ⟨_, hes, hx ▸ hv⟩)⟩

theorem gives_element (hn : 1 < n) {mk mk' : Mark} {id : Ident} {i : Int32} {kind : CollectionKind}
    (hid : Names Γ id (kind.ty .int)) (hi : IsIndex i) :
    Gives F Γ n 0 (.read (.element mk id (.int mk' i))) .int := by
  refine gives_of_step (by omega) fun functions rank fuel m hm hfuel => ?_
  obtain ⟨fuel, rfl⟩ : ∃ k, fuel = k + 1 := ⟨fuel - 1, by omega⟩
  obtain ⟨a, helement, ha⟩ := hm.element hid fuel mk' i
  obtain ⟨x, hload⟩ := load_eq hm.triples ha hi.toNat_lt.2
  unfold expr
  refine succeeds_bind_of_ok helement (succeeds_bind_of_ok (position_eq hm.triples ha hi _) ?_)
  exact ends_of_ok hload ⟨⟨x, rfl⟩, hm.refl⟩

/-! ### Calls -/

/-- Arguments are run from the first one to the last one. -/
theorem succeeds_values {es : List Expr} (hes : ∀ e ∈ es, Gives F Γ k 0 e .int)
    (hm : Ready functions F rank Γ m) (hfuel : k + rank * span ≤ fuel) (acc : Array Value) :
    Succeeds (values (expr functions fuel) acc es) m fun vs m' => Kept Γ m m' ∧
      ∃ new : List Value, vs.toList = acc.toList ++ new ∧ new.length = es.length ∧
        ∀ v ∈ new, IsInt v := by
  induction es generalizing acc m with
  | nil => exact ⟨hm.refl, [], by simp, rfl, by simp⟩
  | cons e es ih =>
    unfold values
    refine (hes e List.mem_cons_self).bind hm hfuel fun v m₁ hv hk hm₁ => ?_
    refine (ih (fun x hx => hes x (List.mem_cons_of_mem _ hx)) hm₁ (acc.push v)).mono ?_
    rintro vs m₂ ⟨hk', new, hvs, hlen, hints⟩
    refine ⟨hk.trans hk', v :: new, by simp [hvs], by simp [hlen], fun w hw => ?_⟩
    rcases List.mem_cons.mp hw with rfl | hw
    · exact hv
    · exact hints w hw

/-- A call of a value that is ready to be called. -/
theorem gives_call (hk : k < n) {mk : Mark} {callee : Ident} {args : List Expr}
    (hargs : ∀ e ∈ args, Gives F Γ k 0 e .int)
    (hcallee : ∀ functions rank m, Ready functions F rank Γ m → ∃ v,
      Eval.read functions callee m = .ok v m ∧
        Callable functions rank m.heap.size args.length v) :
    Gives F Γ n 0 (.call (.mk mk callee args)) .int := by
  refine gives_of_step (by omega) fun functions rank fuel m hm hfuel => ?_
  obtain ⟨f, hread, hcall⟩ := hcallee functions rank m hm
  unfold expr
  refine succeeds_bind_of_ok hread ?_
  rw [Succeeds, Eval.ends_bind]
  refine (succeeds_values hargs hm (by omega) #[]).mono ?_
  rintro vs m₁ ⟨hkept, new, hvs, hlen, hints⟩
  simp only [List.nil_append] at hvs
  have hm₁ := hm.kept hkept
  refine (hcall fuel m₁ callee.name mk.tok vs.toList (by omega) hm₁.room hkept.grows hm₁.triples
    (hvs ▸ hlen) (hvs ▸ hints)).mono ?_
  rintro v m₂ ⟨hv, hvars, hleaves⟩
  exact ⟨hv, hkept.trans ⟨hleaves, fun sym _ => by rw [hvars]⟩⟩

theorem gives_callFunction (hk : k < n) {mk : Mark} {callee : Ident} {args : List Expr} {sym : Symbol}
    (hargs : ∀ e ∈ args, Gives F Γ k 0 e .int) (hid : callee.sym = some sym)
    (hfun : sym.isFunction = true) (hmem : (sym.name, args.length) ∈ F) :
    Gives F Γ n 0 (.call (.mk mk callee args)) .int := by
  refine gives_call hk hargs fun functions rank m hm => ?_
  obtain ⟨d, hd, hcall⟩ := hm.provides _ hmem
  refine ⟨.function d, ?_, hcall.mono (Nat.le_refl _) (Nat.zero_le _)⟩
  unfold Eval.read
  rw [symbolOf_eq hid, pure_bind, if_pos hfun, hd]
  rfl

theorem gives_callValue (hk : k < n) {mk : Mark} {callee : Ident} {arg : Expr}
    (harg : Gives F Γ k 0 arg .int) (hid : Names Γ callee (.fn [.int] (some .int))) :
    Gives F Γ n 0 (.call (.mk mk callee [arg])) .int :=
  gives_call hk (by simpa using harg) fun _ _ _ hm => hm.read hid

/-! ### Strings -/

theorem succeeds_interpolate {splices : List Splice} {tok : Token}
    (hsplices : ∀ offset e, .mk offset e ∈ splices → Gives F Γ k 0 e .int)
    (hm : Ready functions F rank Γ m) (hfuel : k + rank * span ≤ fuel) {pos : Nat}
    {rest : List Char} (horder : Template.InOrder (pos + rest.length) pos splices) (acc : String) :
    Succeeds (interpolate (expr functions fuel) tok pos rest acc splices) m fun _ m' => Kept Γ m m' := by
  induction splices generalizing m pos rest acc with
  | nil => exact hm.refl
  | cons sp splices ih =>
    obtain ⟨offset, e⟩ := sp
    obtain ⟨hinside, horder⟩ := horder.step
    unfold interpolate
    rw [if_neg hinside]
    refine (hsplices offset e List.mem_cons_self).bind hm hfuel fun v m₁ _ hk hm₁ => ?_
    rw [Succeeds, Eval.ends_bind]
    refine (succeeds_shown hm₁.triples tok v).mono fun text m' hm' => ?_
    subst hm'
    exact (ih (fun o x hx => hsplices o x (List.mem_cons_of_mem _ hx)) hm₁ horder _).mono
      fun _ m₂ hk' => hk.trans hk'

theorem gives_template (hk : k < n) {mk : Mark} {text : String} {splices : List Splice}
    (hsplices : ∀ offset e, .mk offset e ∈ splices → Gives F Γ k 0 e .int)
    (horder : Template.InOrder text.toList.length 0 splices) : Gives F Γ n 0 (.str mk text splices) .string := by
  refine gives_of_step (by omega) fun functions rank fuel m hm hfuel => ?_
  cases splices with
  | nil => exact ⟨⟨text, rfl⟩, hm.refl⟩
  | cons sp splices =>
    unfold expr
    rw [Succeeds, Eval.ends_bind]
    refine (succeeds_interpolate hsplices hm (by omega) (by simpa using horder) "").mono fun s m₁ hkept => ?_
    exact ⟨⟨s, rfl⟩, hkept⟩

/-! ### Collections -/

theorem Triples.push {heap : Heap} (h : Triples heap) {es : Array Value} (hsize : es.size = 3)
    (hints : ∀ v ∈ es.toList, IsInt v) : Triples (heap.push es) := by
  intro a es' ha
  rw [Array.getElem?_push] at ha
  split at ha
  · obtain rfl := Option.some.inj ha
    refine ⟨hsize, fun i v hv => hints v ?_⟩
    exact Array.mem_toList_iff.mpr (Array.mem_of_getElem? hv)
  · exact h a es' ha

/-- A fresh collection of three numbers. -/
theorem succeeds_allocate (hm : Ready functions F rank Γ m) {kind : CollectionKind} {es : Array Value}
    (hsize : es.size = 3) (hints : ∀ v ∈ es.toList, IsInt v) :
    Succeeds (allocate kind es) m fun v m' =>
      Good functions rank m'.heap.size (kind.ty .int) v ∧ Kept Γ m m' := by
  refine ⟨good_collection (by simp), ⟨rfl, by simp, hm.triples.push hsize hints⟩, fun _ _ => rfl⟩

theorem gives_collection (hk : k < n) {mk : Mark} {kind : CollectionKind} {es : List Expr}
    (hlen : es.length = 3) (hes : ∀ e ∈ es, Gives F Γ k 0 e .int) :
    Gives F Γ n 0 (.collection mk kind es) (kind.ty .int) := by
  refine gives_of_step (by omega) fun functions rank fuel m hm hfuel => ?_
  unfold expr
  rw [Succeeds, Eval.ends_bind]
  refine (succeeds_values hes hm (by omega) #[]).mono ?_
  rintro vs m₁ ⟨hkept, new, hvs, hnew, hints⟩
  rw [List.nil_append] at hvs
  have hsize : vs.size = 3 := by rw [← Array.length_toList, hvs, hnew, hlen]
  refine (succeeds_allocate (hm.kept hkept) hsize (hvs ▸ hints)).mono ?_
  rintro v m₂ ⟨hgood, hkept'⟩
  exact ⟨hgood, hkept.trans hkept'⟩

/-- A variable that is not among those that are known gets a value. -/
theorem Ready.declare (hm : Ready functions F rank Γ m) {sym : Symbol} {v : Value}
    (hgood : Good functions rank m.heap.size sym.ty v) (hnew : ∀ x ∈ Γ, x.id ≠ sym.id) :
    Kept Γ m { m with vars := m.vars.insert sym.id v } ∧
      Ready functions F rank (sym :: Γ) { m with vars := m.vars.insert sym.id v } := by
  have hvars (x : Symbol) (hx : x ∈ Γ) : (m.vars.insert sym.id v)[x.id]? = m.vars[x.id]? := by
    rw [Std.HashMap.getElem?_insert]
    simp only [beq_iff_eq, ite_eq_right_iff]
    exact fun h => absurd h.symm (hnew x hx)
  refine ⟨⟨⟨rfl, Nat.le_refl _, hm.triples⟩, hvars⟩, hm.provides, hm.triples, fun x hx => ?_, hm.room⟩
  rcases List.mem_cons.mp hx with rfl | hx
  · exact ⟨v, by simp, hgood⟩
  · obtain ⟨w, hw, hgood⟩ := hm.vars x hx
    exact ⟨w, (hvars x hx).trans hw, hgood⟩

theorem good_int {t : Ty} (ht : t = .int) (i : Int32) : Good functions rank floor t (.int i) :=
  ht ▸ ⟨i, rfl⟩

theorem Kept.subset (h : Kept Δ m m') (hs : ∀ sym ∈ Γ, sym ∈ Δ) : Kept Γ m m' :=
  ⟨h.toLeaves, fun sym hsym => h.vars sym (hs sym hsym)⟩

/-- What a generator leaves in a collection. -/
theorem succeeds_generate {sym : Symbol} {body : Expr} (hty : sym.ty = .int)
    (hnew : ∀ x ∈ Γ, x.id ≠ sym.id) (hbody : Gives F (sym :: Γ) k 0 body .int)
    (hm : Ready functions F rank Γ m) (hfuel : k + rank * span ≤ fuel) (count i : Nat)
    (acc : Array Value) (hacc : ∀ v ∈ acc.toList, IsInt v) :
    Succeeds (generate sym.id (expr functions fuel body) count i acc) m fun vs m' =>
      Kept Γ m m' ∧ vs.size = acc.size + count ∧ ∀ v ∈ vs.toList, IsInt v := by
  induction count generalizing m i acc with
  | zero => exact ⟨hm.refl, rfl, hacc⟩
  | succ count ih =>
    unfold generate
    obtain ⟨hkept, hm₁⟩ := hm.declare (good_int hty (Int32.ofNat i)) hnew
    refine succeeds_bind_of_ok (a := ⟨⟩) rfl ?_
    refine hbody.bind hm₁ hfuel fun v m₂ hv hkept' _ => ?_
    have hall := hkept.trans (hkept'.subset fun x hx => List.mem_cons_of_mem _ hx)
    have hpush : ∀ w ∈ (acc.push v).toList, IsInt w := by
      intro w hw
      rw [Array.toList_push, List.mem_append, List.mem_singleton] at hw
      rcases hw with hw | rfl
      · exact hacc w hw
      · exact hv
    refine (ih (hm.kept hall) (i + 1) (acc.push v) hpush).mono ?_
    rintro vs m₃ ⟨hkept'', hsize, hints⟩
    refine ⟨hall.trans hkept'', ?_, hints⟩
    rw [hsize, Array.size_push]
    omega

theorem gives_sized (hk : k < n) (hn : 1 < n) {mk mk' mk'' : Mark} {kind : CollectionKind} {p : Param}
    {body : Expr} {caps : List Symbol} {sym : Symbol} (hp : p.name.sym = some sym)
    (hty : sym.ty = .int) (hnew : ∀ x ∈ Γ, x.id ≠ sym.id) (hbody : Gives F (sym :: Γ) k 0 body .int) :
    Gives F Γ n 0 (.sized mk kind (.int mk' 3) (.mk mk'' [p] body caps)) (kind.ty .int) := by
  refine gives_of_step (by omega) fun functions rank fuel m hm hfuel => ?_
  obtain ⟨fuel, rfl⟩ : ∃ k, fuel = k + 1 := ⟨fuel - 1, by omega⟩
  unfold expr
  refine succeeds_bind_of_ok (a := .int 3) rfl ?_
  simp only [Lambda.params, Lambda.body, symbolOf_eq hp, pure_bind]
  rw [if_neg (by decide), Succeeds, Eval.ends_bind]
  refine (succeeds_generate hty hnew hbody hm (by omega) _ 0 #[] (by simp)).mono ?_
  rintro es m₁ ⟨hkept, hsize, hints⟩
  refine (succeeds_allocate (hm.kept hkept) (by simpa using hsize) hints).mono ?_
  rintro v m₂ ⟨hgood, hkept'⟩
  exact ⟨hgood, hkept.trans hkept'⟩

/-! ### Function values -/

theorem Ready.subset (hm : Ready functions F rank Γ m) (hs : ∀ sym ∈ Δ, sym ∈ Γ) :
    Ready functions F rank Δ m :=
  ⟨hm.provides, hm.triples, fun sym hsym => hm.vars sym (hs sym hsym), hm.room⟩

/-- Parameters that get numbers. -/
theorem succeeds_bindParams {r : Nat} {ps : List Param} : ∀ {syms : List Symbol} {lo : Nat}
    {args : List Value} {Γ : List Symbol} {m : Machine}, Param.Declare r lo ps syms →
    Context r lo Γ → (∀ sym ∈ syms, sym.ty = .int) → args.length = ps.length →
    (∀ v ∈ args, IsInt v) → Ready functions F rank Γ m →
    Succeeds (bindParams ps args) m fun _ m' =>
      Ready functions F rank (syms ++ Γ) m' ∧ m'.depth = m.depth ∧ m'.heap = m.heap := by
  induction ps with
  | nil =>
    intro syms lo args Γ m hps hctx hty hlen hargs hm
    cases syms with
    | nil =>
      unfold bindParams
      exact ⟨hm, rfl, rfl⟩
    | cons => exact hps.elim
  | cons p ps ih =>
    intro syms lo args Γ m hps hctx hty hlen hargs hm
    cases syms with
    | nil => exact hps.elim
    | cons sym syms =>
      cases args with
      | nil => cases hlen
      | cons v vs =>
        obtain ⟨hsym, hd, hrest⟩ := hps
        obtain ⟨i, rfl⟩ := hargs v List.mem_cons_self
        have hnew : ∀ x ∈ Γ, x.id ≠ sym.id := fun x hx hid => by
          have := hctx.below x hx
          rw [hid, hd.id] at this
          exact absurd this (Nat.lt_irrefl _)
        have hm₁ := (hm.declare (good_int (hty sym List.mem_cons_self) i) hnew).2
        unfold bindParams
        rw [symbolOf_eq hsym, pure_bind]
        refine succeeds_bind_of_ok (a := ⟨⟩) rfl ?_
        refine (ih hrest (hctx.cons hd) (fun x hx => hty x (List.mem_cons_of_mem _ hx))
          (Nat.succ.inj hlen) (fun w hw => hargs w (List.mem_cons_of_mem _ hw)) hm₁).mono ?_
        rintro _ m₂ ⟨hm₂, hdepth, hheap⟩
        exact ⟨hm₂.subset fun x hx => by simpa [or_left_comm] using hx, hdepth, hheap⟩

/-- The body of a call runs in variables of its own, one call deeper, and the caller has its
variables back afterwards. -/
theorem succeeds_inCall {r lo : Nat} (frame : Frame) {vars : Activation} {ps : List Param}
    {syms : List Symbol} {args : List Value} (tok : Token) {α : Type} {body : Eval α} {P : α → Prop}
    (hps : Param.Declare r lo ps syms) (hctx : Context r lo Δ) (hty : ∀ sym ∈ syms, sym.ty = .int)
    (hlen : args.length = ps.length) (hargs : ∀ v ∈ args, IsInt v)
    (hm : Ready functions F rank Δ { m with vars := vars })
    (hroom : m.depth + 1 + rank ≤ Machine.maxDepth)
    (hbody : ∀ m', Ready functions F rank (syms ++ Δ) m' → m'.depth = m.depth + 1 →
      Succeeds body m' fun a m'' => P a ∧ Leaves m' m'') :
    Succeeds (inCall frame vars ps args tok body) m fun a m' =>
      P a ∧ m'.vars = m.vars ∧ Leaves m m' := by
  refine Eval.ends_inCall hlen.symm (fun _ _ _ h => h) ?_
  refine (succeeds_bindParams hps hctx hty hlen hargs hm).mono ?_
  rintro _ m₁ ⟨hm₁, hdepth, hheap⟩
  have hcalls : Machine.depth { m₁ with calls := frame :: m₁.calls } = m.depth + 1 :=
    congrArg (· + 1) hdepth
  have hm₂ : Ready functions F rank (syms ++ Δ) { m₁ with calls := frame :: m₁.calls } :=
    ⟨hm₁.provides, hm₁.triples, hm₁.vars, hcalls ▸ hroom⟩
  refine (hbody _ hm₂ hcalls).mono ?_
  rintro a m₃ ⟨ha, hleaves⟩
  refine ⟨ha, rfl, ?_, hheap ▸ hleaves.grows, hleaves.triples⟩
  have hdepth' : m₃.depth = m.depth + 1 := hleaves.depth.trans hcalls
  change m₃.calls.tail.length = m.depth
  rw [List.length_tail]
  exact Nat.sub_eq_of_eq_add hdepth'

/-- What a function value captures. -/
theorem Ready.captureAll (hm : Ready functions F rank Γ m) (tok : Token) {caps : List Symbol}
    (hcaps : ∀ c ∈ caps, c ∈ Γ) : ∃ captured, Eval.captureAll tok caps m = .ok captured m ∧
      captured.map Prod.fst = caps.map Symbol.id ∧ ∀ p ∈ captured, ∃ sym ∈ caps,
        sym.id = p.1 ∧ Good functions rank m.heap.size sym.ty p.2 := by
  induction caps with
  | nil => exact ⟨[], rfl, rfl, by simp⟩
  | cons sym syms ih =>
    obtain ⟨v, hv, hgood⟩ := hm.vars sym (hcaps sym List.mem_cons_self)
    obtain ⟨rest, hrest, hids, hvals⟩ := ih fun c hc => hcaps c (List.mem_cons_of_mem _ hc)
    refine ⟨(sym.id, v) :: rest, ?_, by simp [hids], fun p hp => ?_⟩
    · unfold Eval.captureAll
      have hlook : lookup? sym.id m = .ok (some v) m := congrArg (EStateM.Result.ok · m) hv
      rw [bind_of_ok hlook]
      exact bind_of_ok hrest fun vs => pure ((sym.id, v) :: vs)
    · rcases List.mem_cons.mp hp with rfl | hp
      · exact ⟨sym, List.mem_cons_self, rfl, hgood⟩
      · obtain ⟨x, hx, hid, hty⟩ := hvals p hp
        exact ⟨x, List.mem_cons_of_mem _ hx, hid, hty⟩

/-- A function value over numbers comes to an end wherever it is called: it calls one deeper than
its body does. -/
theorem gives_lambda (hk : k ≤ span) (hn : 0 < n) {r lo : Nat} {mk : Mark} {p : Param} {body : Expr}
    {caps : List Symbol} {sym : Symbol} (hmark : mk.ty = some (.fn [.int] (some .int)))
    (hp : Param.Declare r lo [p] [sym]) (hty : sym.ty = .int) (hctx : Context r lo Γ)
    (hcaps : ∀ c ∈ caps, c ∈ Γ) (hnodup : (caps.map Symbol.id).Nodup)
    (hbody : Gives F (sym :: caps) k 0 body .int) :
    Gives F Γ n 1 (.lambda (.mk mk [p] body caps)) (.fn [.int] (some .int)) := by
  refine gives_of_step hn fun functions rank fuel m hm _ => ?_
  obtain ⟨captured, hcaptured, hids, hvals⟩ := hm.captureAll mk.tok hcaps
  have hctx' : Context r lo caps := hctx.subset hcaps
  unfold expr
  refine succeeds_bind_of_ok hcaptured ⟨?_, hm.refl⟩
  intro fuel m' name tok args hfuel hroom hfloor htriples hlen hargs
  have hvars := vars_of_captured hnodup hids fun x hx v hv => by
    obtain ⟨y, hy, hid, hgood⟩ := hvals (x.id, v) hv
    rw [hctx'.unique y hy x hx hid] at hgood
    exact hgood.mono (Nat.le_refl _) hfloor
  have hm' : Ready functions F rank caps { m' with vars := .ofList captured } :=
    ⟨hm.provides, htriples, hvars, by change m'.depth + rank ≤ _; omega⟩
  unfold apply
  refine succeeds_bind_of_ok (a := m') rfl ?_
  rw [if_neg (by omega)]
  simp only [Lambda.params, Lambda.body, Lambda.mark, hmark]
  rw [Succeeds, Eval.ends_bind]
  have hrun (m₁ : Machine) (hm₁ : Ready functions F rank (sym :: caps) m₁) :
      Succeeds (expr functions fuel body) m₁ fun v m₂ => IsInt v ∧ Leaves m₁ m₂ := by
    rw [Nat.succ_mul] at hfuel
    exact (hbody functions rank fuel m₁ hm₁ (by omega)).mono fun v m₂ h => ⟨h.1, h.2.toLeaves⟩
  refine (succeeds_inCall ⟨name, tok.line, tok.col⟩ tok hp hctx' (by simpa using hty) hlen hargs hm'
    (by omega) fun m₁ hm₁ _ => hrun m₁ hm₁).mono ?_
  rintro v m₂ ⟨hv, hsame, hleaves⟩
  exact ⟨hv, hsame, hleaves⟩

end Expressions

end Sample
end Kotlet

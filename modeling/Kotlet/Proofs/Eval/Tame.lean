import Kotlet.Proofs.Eval.Typed
import Kotlet.Proofs.Typing.Assignment

/-!
# Closures that store to nothing

A closure stores to no variable, and a function is one of the program. Values, heaps and variables
keep this while a program runs.

* `Value.Tame`, `Machine.Tame` : values and machines of which this holds;
* `Eval.Quiet` : steps that keep it;
* one lemma for each operation of the machine.
-/

namespace Kotlet

/-- The functions in a value are among `F`, and its closures store to no variable. -/
inductive Value.Tame (F : List FunDecl) : Value → Prop where
  | int (n : Int32) : Tame F (.int n)
  | bool (b : Bool) : Tame F (.bool b)
  | string (s : String) : Tame F (.string s)
  | unit : Tame F .unit
  | null : Tame F .null
  | collection (kind : CollectionKind) (a : Nat) : Tame F (.collection kind a)
  | function {f : FunDecl} (hf : f ∈ F) : Tame F (.function f)
  | closure {l : Lambda} {captured : List (SymbolId × Value)} (hl : l.Steady)
    (hc : ∀ p ∈ captured, Tame F p.2) : Tame F (.closure l captured)

/-- All variables hold tame values. -/
def Activation.Tame (F : List FunDecl) (vars : Activation) : Prop :=
  ∀ (id : SymbolId) (v : Value), vars[id]? = some v → v.Tame F

/-- All variables and elements hold tame values. -/
structure Machine.Tame (F : List FunDecl) (m : Machine) : Prop where
  vars : Activation.Tame F m.vars
  heap : ∀ (a : Nat) (es : Array Value), m.heap[a]? = some es → ∀ v ∈ es, v.Tame F

variable {F : List FunDecl}

theorem Value.Tame.initial (t : Ty) : (Value.initial t).Tame F := by
  unfold Value.initial
  split
  · exact .int 0
  · exact .bool false
  · exact .string ""
  · exact .null

theorem Activation.Tame.insert {vars : Activation} (h : Tame F vars) (id : SymbolId) {v : Value}
    (hv : v.Tame F) : Tame F (vars.insert id v) := by
  intro x w hw
  rw [Std.HashMap.getElem?_insert] at hw
  split at hw
  · exact Option.some.inj hw ▸ hv
  · exact h x w hw

theorem Activation.Tame.insertMany : ∀ {captured : List (SymbolId × Value)} {vars : Activation},
    Tame F vars → (∀ p ∈ captured, p.2.Tame F) → Tame F (vars.insertMany captured)
  | [], _, h, _ => by
    rw [Std.HashMap.insertMany_nil]
    exact h
  | (id, v) :: captured, _, h, hc => by
    rw [Std.HashMap.insertMany_cons]
    exact (h.insert id (hc _ List.mem_cons_self)).insertMany fun p hp =>
      hc p (List.mem_cons_of_mem _ hp)

theorem Activation.Tame.empty : Tame F ∅ := fun _ _ h => by simp at h

theorem Activation.Tame.ofList {captured : List (SymbolId × Value)}
    (h : ∀ p ∈ captured, p.2.Tame F) : Tame F (.ofList captured) := by
  rw [Std.HashMap.ofList_eq_insertMany_empty]
  exact Activation.Tame.empty.insertMany h

theorem Machine.Tame.elements {m : Machine} (h : m.Tame F) (a : Nat) :
    ∀ v ∈ m.heap.getD a #[], v.Tame F := by
  rw [Array.getD_eq_getD_getElem?]
  cases ha : m.heap[a]? with
  | none => simp
  | some es => exact h.heap a es ha

theorem Machine.Tame.start : Machine.Tame F .start :=
  ⟨.empty, fun a es ha => by simp [Machine.start] at ha⟩

namespace Eval

variable {α β : Type} {x : Eval α} {P P' : α → Prop} {Q : β → Prop}

/-- Steps that keep the machine tame, and whose result satisfies `P`. -/
def Quiet (F : List FunDecl) (x : Eval α) (P : α → Prop) : Prop :=
  ∀ m : Machine, m.Tame F → Ends x m (fun _ _ => True) fun a m' => m'.Tame F ∧ P a

/-! ## Steps put together -/

theorem quiet_pure {a : α} (h : P a) : Quiet F (pure a) P := fun _ hm => ⟨hm, h⟩

theorem Quiet.bind {f : α → Eval β} (h : Quiet F x P) (hf : ∀ a, P a → Quiet F (f a) Q) :
    Quiet F (x >>= f) Q := by
  intro m hm
  rw [ends_bind]
  exact (h m hm).mono fun a m' ⟨hm', ha⟩ => hf a ha m' hm'

theorem quiet_fail (cause : Fault.Cause) (t : Token) : Quiet F (fail cause t) P :=
  fun _ _ => trivial

theorem Quiet.ite {c : Prop} [Decidable c] {y : Eval α} (hx : c → Quiet F x P)
    (hy : ¬ c → Quiet F y P) : Quiet F (if c then x else y) P := by
  by_cases h : c
  · rw [if_pos h]; exact hx h
  · rw [if_neg h]; exact hy h

theorem quiet_get : Quiet F (get : Eval Machine) (Machine.Tame F) := fun _ hm => ⟨hm, hm⟩

/-! ## Variables and collections -/

theorem quiet_assign (id : SymbolId) {v : Value} (hv : v.Tame F) :
    Quiet F (assign id v) fun _ => True :=
  fun _ hm => ⟨⟨hm.vars.insert id hv, hm.heap⟩, trivial⟩

theorem quiet_lookup? (id : SymbolId) :
    Quiet F (lookup? id) fun o => ∀ v, o = some v → v.Tame F :=
  quiet_get.bind fun _ hm => quiet_pure fun v hv => hm.vars id v hv

theorem quiet_symbolOf (id : Ident) : Quiet F (symbolOf id) fun sym => id.sym = some sym := by
  unfold symbolOf
  cases h : id.sym with
  | none => exact quiet_fail _ _
  | some sym => exact quiet_pure rfl

theorem quiet_variableOf (id : Ident) (sym : Symbol) :
    Quiet F (variableOf id sym) (Value.Tame F) := by
  refine (quiet_lookup? sym.id).bind fun o ho => ?_
  cases o with
  | none => exact quiet_fail _ _
  | some v => exact quiet_pure (ho v rfl)

theorem quiet_read (id : Ident) : Quiet F (read F id) (Value.Tame F) := by
  refine (quiet_symbolOf id).bind fun sym _ => Quiet.ite (fun _ => ?_) fun _ => ?_
  · cases hf : functionOf? F sym.name with
    | none => exact quiet_fail _ _
    | some f => exact quiet_pure (.function (List.mem_of_find?_eq_some hf))
  · exact quiet_variableOf id sym

theorem quiet_allocate (kind : CollectionKind) {es : Array Value} (hes : ∀ v ∈ es, v.Tame F) :
    Quiet F (allocate kind es) (Value.Tame F) := by
  refine fun m hm => ⟨⟨hm.vars, fun a es' ha => ?_⟩, .collection kind _⟩
  rw [Array.getElem?_push] at ha
  split at ha
  · exact Option.some.inj ha ▸ hes
  · exact hm.heap a es' ha

theorem quiet_length (a : Nat) : Quiet F (length a) fun _ => True :=
  quiet_get.bind fun _ _ => quiet_pure trivial

theorem quiet_load (a i : Nat) : Quiet F (load a i) (Value.Tame F) := by
  refine quiet_get.bind fun m hm => quiet_pure ?_
  rw [Array.getD_eq_getD_getElem?]
  cases hv : (m.heap.getD a #[])[i]? with
  | none => exact .null
  | some v => exact hm.elements a v (Array.mem_of_getElem? hv)

theorem quiet_shown (tok : Token) (v : Value) : Quiet F (shown tok v) fun _ => True := by
  refine quiet_get.bind fun m _ => ?_
  cases v.show? m.heap with
  | none => exact quiet_fail _ _
  | some text => exact quiet_pure trivial

theorem quiet_store (a i : Nat) {v : Value} (hv : v.Tame F) :
    Quiet F (store a i v) fun _ => True := by
  refine fun m hm => ⟨⟨hm.vars, fun b es hb => ?_⟩, trivial⟩
  rw [Array.getElem?_modify] at hb
  split at hb
  · obtain ⟨es', hes', rfl⟩ := Option.map_eq_some_iff.mp hb
    intro w hw
    rcases Array.mem_or_eq_of_mem_setIfInBounds hw with hw | rfl
    · exact hm.heap b es' hes' w hw
    · exact hv
  · exact hm.heap b es hb

theorem quiet_position (tok : Token) (a : Nat) (i : Int32) :
    Quiet F (position tok a i) fun _ => True :=
  (quiet_length a).bind fun _ _ =>
    Quiet.ite (fun _ => (quiet_fail (P := fun _ => False) _ _).bind fun _ h => h.elim)
      fun _ => quiet_pure trivial

theorem quiet_emit (text : String) : Quiet F (emit text) fun _ => True :=
  fun _ hm => ⟨⟨hm.vars, hm.heap⟩, trivial⟩

theorem quiet_bindParams : ∀ (ps : List Param) (vs : List Value), (∀ v ∈ vs, v.Tame F) →
    Quiet F (bindParams ps vs) fun _ => True
  | p :: ps, v :: vs, h => by
    refine (quiet_symbolOf p.name).bind fun sym _ => ?_
    refine (quiet_assign sym.id (h v List.mem_cons_self)).bind fun _ _ => ?_
    exact quiet_bindParams ps vs fun w hw => h w (List.mem_cons_of_mem _ hw)
  | [], _, _ => quiet_pure trivial
  | _ :: _, [], _ => quiet_pure trivial

theorem quiet_captureAll (tok : Token) : ∀ syms : List Symbol,
    Quiet F (captureAll tok syms) fun captured => ∀ p ∈ captured, p.2.Tame F
  | [] => quiet_pure (by simp)
  | sym :: syms => by
    refine (quiet_lookup? sym.id).bind fun o ho => ?_
    cases o with
    | none => exact quiet_fail _ _
    | some v =>
      refine (quiet_captureAll tok syms).bind fun captured hc => quiet_pure fun p hp => ?_
      rcases List.mem_cons.mp hp with rfl | hp
      · exact ho v rfl
      · exact hc p hp

/-! ## Operators -/

theorem quiet_arithmetic (tok : Token) (op : String) (a b : Value) :
    Quiet F (arithmetic tok op a b) (Value.Tame F) := by
  unfold arithmetic
  split
  · split
    · exact quiet_fail _ _
    · split
      · exact quiet_pure (.int _)
      · exact quiet_fail _ _
  · exact quiet_fail _ _

theorem quiet_comparison (tok : Token) (op : String) (a b : Value) :
    Quiet F (comparison tok op a b) (Value.Tame F) := by
  unfold comparison
  cases CompareOp.ofText? op with
  | none =>
    dsimp only
    split
    · exact quiet_fail _ _
    · exact quiet_fail _ _
    · exact Quiet.ite (fun _ => quiet_fail _ _) fun _ => quiet_fail _ _
    · exact quiet_fail _ _
  | some c =>
    dsimp only
    split
    · exact quiet_pure (.bool _)
    · exact quiet_pure (.bool _)
    · exact Quiet.ite (fun _ => quiet_pure (.bool _)) fun _ => quiet_fail _ _
    · exact quiet_fail _ _

theorem quiet_truth (tok : Token) (v : Value) : Quiet F (truth tok v) fun _ => True := by
  cases v with
  | bool b => exact quiet_pure trivial
  | _ => exact quiet_fail _ _

end Eval

end Kotlet

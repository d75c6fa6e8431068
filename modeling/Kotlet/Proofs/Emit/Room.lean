import Kotlet.Emit.Class
import Kotlet.Proofs.ClassFile.Room
import Kotlet.Proofs.Ends
import Mathlib.Data.Nat.Digits.Defs

/-!
# Room for steps of code generation

A step adds a few bytes, constants and variables, and no limit of the format is near while there are
few of them.

* `isShort_methodDescriptor`, `isShort_printing`, `isShort_lambdaName` : names that are made from others;
* `Env.Short` : no name around a piece of the program is too long;
* `State.Roomy n` : no limit is exceeded, and none is after `n` more steps;
* `Costs`, `Spends` : steps that exceed no limit where there is room for so many;
* `spends_op`, `spends_load`, `spends_callStatic` and their kin : single instructions;
* `costs_declare`, `spends_inMethod`, `spends_methodHandle` and their kin : slots, methods and
  conversions.
-/

namespace Kotlet

open ClassFile

/-! ## Short names -/

theorem Ty.length_descriptor_le (t : Ty) : t.descriptor.length ≤ 40 := by
  rcases t with s | s | s | _
  · cases s <;> decide
  · cases s <;> decide
  · exact (by decide : (Jvm.reference Jvm.list).length ≤ 40)
  · exact (by decide : (Jvm.reference Jvm.methodHandle).length ≤ 40)

/-- The descriptor of a method without very many parameters. -/
theorem isShort_methodDescriptor {ts : List Ty} (h : ts.length ≤ 200) (r : Option Ty) :
    Pool.IsShort (methodDescriptor ts r) := by
  have hjoin : ∀ ts : List Ty, (String.join (ts.map Ty.descriptor)).length ≤ 40 * ts.length := by
    intro ts
    induction ts with
    | nil => simp [String.join]
    | cons t ts ih =>
      have := t.length_descriptor_le
      rw [List.map_cons, String.join_cons, String.length_append, List.length_cons]
      omega
  have := hjoin ts
  have := (r.getD .unit).length_descriptor_le
  have hopen : "(".length = 1 := by decide
  have hclose : ")".length = 1 := by decide
  apply Pool.isShort_of_length
  simp only [methodDescriptor, Jvm.method, String.length_append]
  omega

/-- The descriptor of a method that takes a value to print it or to add it to a text. -/
theorem isShort_printing (t : Ty) {result : String} (h : result.length ≤ 100) :
    Pool.IsShort (Jvm.method [t.printDescriptor] result) := by
  have ht : t.printDescriptor.length ≤ 40 := by
    rcases t with s | s | s | _
    · cases s <;> decide
    · exact (by decide : (Jvm.reference Jvm.string).length ≤ 40)
    · exact (by decide : (Jvm.reference Jvm.object).length ≤ 40)
    · exact (by decide : (Jvm.reference Jvm.object).length ≤ 40)
  have hopen : "(".length = 1 := by decide
  have hclose : ")".length = 1 := by decide
  apply Pool.isShort_of_length
  simp only [Jvm.method, String.join_cons, String.join_nil, String.append_empty, String.length_append]
  omega

namespace Emit

theorem isShort_castName (t : Ty) : Pool.IsShort t.castName := by
  rcases t with s | s | s | _
  · cases s <;> decide
  · cases s <;> decide
  · exact (by decide : Pool.IsShort Jvm.list)
  · exact (by decide : Pool.IsShort Jvm.methodHandle)

theorem isShort_showName : Pool.IsShort showName ∧ Pool.IsShort showDescriptor := by decide

/-- The name of the method of a lambda. -/
theorem isShort_lambdaName {i : Nat} (h : i < 10 ^ 5) : Pool.IsShort ("lambda$" ++ toString i) := by
  have hdigits : (toString i).length ≤ 5 := Nat.repr_length i 5 (by decide) h
  have hstem : "lambda$".length = 7 := by decide
  apply Pool.isShort_of_length
  rw [String.length_append]
  omega

/-! ## Room -/

/-- Names and lists of parameters are short. -/
structure Env.Short (env : Env) : Prop where
  unit : Pool.IsShort env.unit
  names : ∀ name ∈ env.declared, Pool.IsShort (methodName name)
  params : ∀ f ∈ env.functions, f.paramTypes.length ≤ 200

/-- An instruction can name the slot. -/
def Local.Near (l : Local) : Prop := l.slot ≤ 65535

instance (l : Local) : Decidable l.Near := Nat.decLe _ _

/-- No limit was exceeded, and there is room for `n` more steps. -/
structure State.Roomy (n : Nat) (s : State) : Prop where
  pool : s.pool.Roomy (6 * n)
  code : s.body.code.Roomy (6 * n)
  next : s.body.next + n ≤ 65535
  slots : ∀ (id : SymbolId) (l : Local), s.body.slots[id]? = some l → l.Near
  lambdas : s.lambdas + n ≤ 65535

/-- Where there is room for `k` steps, the steps exceed no limit, and give a result of which `P` holds. -/
structure Costs {α : Type} (x : Emit α) (k : Nat) (P : α → Prop) : Prop where
  ends : ∀ env : Env, env.Short → ∀ n s, s.Roomy (n + k) →
    Ends x env s (fun d => d.code ≠ .formatLimit) fun a s' => P a ∧ s'.Roomy n

/-- Where there is room for `k` steps, the steps exceed no limit. -/
abbrev Spends {α : Type} (x : Emit α) (k : Nat) : Prop := Costs x k fun _ => True

/-- No more than that many steps ever have room. -/
def most : Nat := 5461

theorem State.Roomy.le {m n : Nat} {s : State} (h : s.Roomy n) (hle : m ≤ n) : s.Roomy m :=
  { h with
    pool := ⟨h.pool.1, Nat.le_trans (by omega) h.pool.2⟩
    code := h.code.le (by omega)
    next := Nat.le_trans (by omega) h.next
    lambdas := Nat.le_trans (by omega) h.lambdas }

theorem State.Roomy.le_most {n : Nat} {s : State} (h : s.Roomy n) : n ≤ most := by
  have := h.code.size
  unfold most
  omega

section Rules

variable {α β : Type} {x : Emit α} {f : α → Emit β} {P : α → Prop} {Q : β → Prop} {j k : Nat}

theorem costs_pure {a : α} (h : P a) : Costs (pure a) 0 P := ⟨fun _ _ _ _ hs => ⟨h, hs⟩⟩

theorem spends_nothing : Spends (pure () : Emit Unit) 0 := costs_pure trivial

theorem Costs.bind (h : Costs x j P) (hf : ∀ a, P a → Costs (f a) k Q) :
    Costs (x >>= f) (k + j) Q := by
  refine ⟨fun env henv n s hs => ?_⟩
  rw [ends_bind]
  refine (h.ends env henv (n + k) s (by rwa [Nat.add_assoc])).mono fun a t ⟨ha, ht⟩ => ?_
  exact (hf a ha).ends env henv n t ht

theorem Costs.seq (h : Costs x j P) (hf : ∀ a, Costs (f a) k Q) : Costs (x >>= f) (k + j) Q :=
  h.bind fun a _ => hf a

theorem Costs.le (h : Costs x j P) (hle : j ≤ k) : Costs x k P :=
  ⟨fun env henv n s hs => h.ends env henv n s (hs.le (Nat.add_le_add_left hle n))⟩

theorem Costs.imp {R : α → Prop} (h : Costs x k P) (hR : ∀ a, P a → R a) : Costs x k R :=
  ⟨fun env henv n s hs => (h.ends env henv n s hs).mono fun a _ ⟨ha, ht⟩ => ⟨hR a ha, ht⟩⟩

theorem Costs.spends (h : Costs x k P) : Spends x k := h.imp fun _ _ => trivial

/-- There is room for few steps only. -/
theorem Costs.of_le (h : k ≤ most → Costs x k P) : Costs x k P :=
  ⟨fun env henv n s hs => (h (Nat.le_trans (Nat.le_add_left k n) hs.le_most)).ends env henv n s hs⟩

theorem costs_reject {e : EmitError} {tok : Token} (he : e.code = .internalFault) :
    Costs (reject e tok : Emit α) k P :=
  ⟨fun _ _ _ _ _ => show e.code ≠ .formatLimit by rw [he]; decide⟩

theorem costs_reject_bind {e : EmitError} {tok : Token} (he : e.code = .internalFault) :
    Costs (reject e tok >>= f) k Q :=
  ⟨fun _ _ _ _ _ => show e.code ≠ .formatLimit by rw [he]; decide⟩

theorem costs_build {e : BuildError} {tok : Token} (he : e.isLimit = false) :
    Costs (reject (.build e) tok : Emit α) k P := costs_reject (by rw [EmitError.code, he]; rfl)

theorem costs_read : Costs (read : Emit Env) 0 Env.Short := ⟨fun _ henv _ _ hs => ⟨henv, hs⟩⟩

theorem costs_get : Costs (get : Emit State) 0 (State.Roomy 0) :=
  ⟨fun _ _ n _ hs => ⟨hs.le (Nat.zero_le n), hs⟩⟩

theorem spends_modify {g : State → State} (h : ∀ {n s}, s.Roomy (n + k) → (g s).Roomy n) :
    Spends (modify g) k := ⟨fun _ _ _ _ hs => ⟨trivial, h hs⟩⟩

theorem Costs.withReader {g : Env → Env} (h : Costs x k P) (hg : ∀ env, env.Short → (g env).Short) :
    Costs (withReader g x) k P :=
  ⟨fun env henv n s hs => h.ends (g env) (hg env henv) n s hs⟩

/-! ## Instructions -/

theorem spends_onCode {g : ClassFile.Code → ClassFile.Code}
    (h : ∀ {n c}, c.Roomy (n + 6) → (g c).Roomy n) : Spends (onCode g) 1 :=
  spends_modify fun hs =>
    let hle := hs.le (Nat.le_add_right _ 1)
    { hle with code := h hs.code }

/-- A step that writes nothing. -/
theorem spends_mark {g : ClassFile.Code → ClassFile.Code}
    (h : ∀ {n c}, c.Roomy n → (g c).Roomy n) : Spends (onCode g) 0 :=
  spends_modify fun hs => { hs with code := h hs.code }

theorem spends_onPool {g : Pool → ClassFile.Code → Pool × ClassFile.Code}
    (h : ∀ {n p c}, p.Roomy (n + 6) → c.Roomy (n + 6) → (g p c).1.Roomy n ∧ (g p c).2.Roomy n) :
    Spends (onPool g) 1 :=
  spends_modify fun hs =>
    let hle := hs.le (Nat.le_add_right _ 1)
    have hboth := h hs.pool hs.code
    { hle with pool := hboth.1, code := hboth.2 }

theorem costs_code : Costs code 0 (ClassFile.Code.Roomy 0) :=
  ⟨fun _ _ _ _ hs => ⟨hs.code.le (Nat.zero_le _), hs⟩⟩

theorem spends_op (o : Opcode) : Spends (op o) 1 := spends_onCode fun h => (h.le (by omega)).emit o

theorem spends_pushBool (b : Bool) : Spends (onCode fun c => c.pushBool b) 1 :=
  spends_onCode fun h => (h.le (by omega)).emit _

theorem spends_pushInt (i : Int32) : Spends (pushInt i) 1 := by
  unfold pushInt
  exact spends_onPool fun hp hc => hc.pushInt hp i

theorem spends_pushString {t : String} (ht : Pool.IsShort t) : Spends (pushString t) 1 :=
  spends_onPool fun hp hc => hc.pushString hp ht

theorem spends_pushClass {name : String} (hn : Pool.IsShort name) : Spends (pushClass name) 1 :=
  spends_onPool fun hp hc => hc.pushClass hp hn

theorem spends_load {l : Local} (hl : l.Near) : Spends (load l) 1 :=
  spends_onCode fun h => (h.le (by omega)).load _ hl

theorem spends_store {l : Local} (hl : l.Near) : Spends (store l) 1 :=
  spends_onCode fun h => (h.le (by omega)).store _ hl

theorem spends_increment (l : Local) (d : Int) : Spends (increment l d) 1 :=
  spends_onCode fun h => h.iinc _ d

theorem spends_newLabel : Spends newLabel 0 :=
  ⟨fun _ _ _ _ hs => ⟨trivial, { hs with code := hs.code.newLabel }⟩⟩

theorem spends_jump (o : Opcode) (l : Nat) : Spends (jump o l) 1 :=
  spends_onCode fun h => (h.le (by omega)).jump o l

theorem spends_bindLabel (l : Nat) : Spends (bindLabel l) 0 := spends_mark fun h => h.bind l

theorem spends_getStatic {owner name desc : String} (h : Member.IsShort ⟨owner, name, desc⟩) :
    Spends (getStatic owner name desc) 1 :=
  spends_onPool fun hp hc => hc.field (m := ⟨owner, name, desc⟩) hp _ h

theorem spends_callStatic {owner name desc : String} (h : Member.IsShort ⟨owner, name, desc⟩) :
    Spends (callStatic owner name desc) 1 :=
  spends_onPool fun hp hc => hc.invoke (m := ⟨owner, name, desc⟩) hp _ h

theorem spends_callVirtual {owner name desc : String} (h : Member.IsShort ⟨owner, name, desc⟩) :
    Spends (callVirtual owner name desc) 1 :=
  spends_onPool fun hp hc => hc.invoke (m := ⟨owner, name, desc⟩) hp _ h

theorem spends_callInit {owner desc : String} (h : Member.IsShort ⟨owner, "<init>", desc⟩) :
    Spends (callInit owner desc) 1 :=
  spends_onPool fun hp hc => hc.invoke (m := ⟨owner, "<init>", desc⟩) hp _ h

theorem spends_callInterface {owner name desc : String} (h : Member.IsShort ⟨owner, name, desc⟩) :
    Spends (callInterface owner name desc) 1 :=
  spends_onPool fun hp hc => hc.invoke (m := ⟨owner, name, desc⟩) hp _ h

theorem spends_onClass {name : String} (o : Opcode) (h : Pool.IsShort name) :
    Spends (onClass o name) 1 := spends_onPool fun hp hc => hc.typeOp hp o h

theorem spends_throwNew {cls message : String}
    (hc : Member.IsShort ⟨cls, "<init>", Jvm.method [Jvm.reference Jvm.string] "V"⟩)
    (hm : Pool.IsShort message) : Spends (throwNew cls message) 5 :=
  (spends_onClass _ hc.1).seq fun _ => (spends_op _).seq fun _ => (spends_pushString hm).seq fun _ =>
    (spends_callInit hc).seq fun _ => spends_op _

end Rules

/-! ## Slots -/

theorem spends_typeOf (e : Expr) : Spends (typeOf e) 0 := by
  unfold typeOf
  split
  · exact costs_pure trivial
  · exact costs_reject rfl

theorem spends_symbolOf (id : Ident) : Spends (symbolOf id) 0 := by
  unfold symbolOf
  split
  · exact costs_pure trivial
  · exact costs_reject rfl

theorem costs_scratch (ty : Ty) (tok : Token) : Costs (scratch ty tok) 1 Local.Near := by
  refine ⟨fun env _ n s hs => ?_⟩
  have hnext := hs.next
  have hle := hs.le (Nat.le_add_right n 1)
  unfold scratch
  rw [ends_bind, ends_get, if_neg (by omega)]
  refine ⟨show s.body.next ≤ 65535 by omega, { hle with next := ?_ }⟩
  show s.body.next + 1 + n ≤ 65535
  omega

theorem costs_slot? (sym : Symbol) : Costs (slot? sym) 0 fun o => ∀ l, o = some l → l.Near :=
  costs_get.bind fun _ hs => costs_pure fun l hl => hs.slots sym.id l hl

theorem costs_declare (sym : Symbol) (tok : Token) : Costs (declare sym tok) 1 Local.Near := by
  unfold declare
  refine (costs_slot? sym).bind (k := 1) fun o _ => ?_
  dsimp only
  split
  · exact costs_reject_bind rfl
  refine (costs_scratch sym.ty tok).bind (k := 0) fun l hl => ?_
  refine Costs.seq (j := 0) (k := 0) (spends_modify fun hs => { hs with slots := fun id l' h => ?_ })
    fun _ => costs_pure hl
  rw [Std.HashMap.getElem?_insert] at h
  split at h
  · exact Option.some.inj h ▸ hl
  · exact hs.slots id l' h

theorem costs_variableOf (id : Ident) : Costs (variableOf id) 0 Local.Near := by
  unfold variableOf
  refine (spends_symbolOf id).seq (k := 0) fun sym => (costs_slot? sym).bind (k := 0) fun o ho => ?_
  split
  · exact costs_pure (ho _ rfl)
  · exact costs_reject rfl

/-! ## Methods -/

theorem costs_methodOf (name : String) : Costs (methodOf name) 0 Pool.IsShort := by
  unfold methodOf
  refine costs_read.bind (k := 0) fun env henv => costs_pure ?_
  split
  · exact henv.names name (List.contains_iff_mem.mp ‹_›)
  · decide

theorem spends_declareParams (tok : Token) :
    ∀ params : List (Option Symbol), Spends (declareParams tok params) params.length
  | [] => costs_pure trivial
  | none :: _ => costs_reject rfl
  | some sym :: rest => (costs_declare sym tok).spends.seq fun _ => spends_declareParams tok rest

theorem spends_finish (tok : Token) : Spends (finish tok) 0 := by
  unfold finish
  refine Costs.seq (k := 0) (spends_mark fun h => h.finish _) fun _ => costs_code.bind (k := 0) ?_
  intro c hc
  split
  · exact costs_build (hc.error _ ‹_›)
  · exact costs_pure trivial

/-- The limits of the body outside are kept for it. -/
theorem spends_inMethod {access : Access} {name desc : String} {tok : Token} {steps : Emit Unit}
    {k : Nat} (h : Spends steps k) : Spends (inMethod access name desc tok steps) k := by
  refine ⟨fun env henv n s hs => ?_⟩
  unfold inMethod
  rw [ends_bind, ends_get, ends_bind, ends_get]
  unfold pushMethod
  by_cases hany : s.methods.any fun m => m.name == name && m.desc == desc
  · rw [if_pos hany]
    exact (costs_build rfl).ends env henv n s hs
  rw [if_neg hany]
  cases hd : descriptorSlots? desc with
  | none => exact (costs_build rfl).ends env henv n s hs
  | some slots =>
    -- The outer body comes back as it was, and the new one starts empty.
    have hle := hs.le (Nat.le_add_right n k)
    have hin : ∀ params, ({ s with
        methods := s.methods.push ⟨access, name, desc, .start params⟩
        body := .start (.start params) } : State).Roomy (n + k) := fun params =>
      { hs with
        code := .start params (Nat.le_trans (Nat.le_add_left _ _) hs.code.size)
        next := Nat.le_trans (Nat.add_le_add_right (Nat.zero_le _) _) hs.next
        slots := fun id l hl => by simp [Body.start] at hl }
    simp only [Array.back?_push, Option.map_some, Option.getD_some, ends_bind, ends_modify]
    refine (h.ends env henv n _ (hin _)).mono fun _ s' hs' => ⟨trivial, ?_⟩
    exact { hs'.2 with code := hle.code, next := hle.next, slots := hle.slots }

theorem spends_plainMethod {access : Access} {name desc : String} {steps : Emit Unit} {k : Nat}
    (h : Spends steps k) : Spends (plainMethod access name desc steps) k :=
  spends_inMethod ((h.seq fun _ => spends_finish .absent).le (Nat.le_of_eq (Nat.zero_add k)))

theorem spends_routine {params : List (Option Symbol)} {result : Ty} {close : Token}
    {steps : Emit Unit} {k : Nat} (h : Spends steps k) :
    Spends (routine params result close steps) (params.length + k + 5) := by
  unfold routine
  refine Costs.le ((spends_declareParams close params).seq (k := 5 + k) fun _ => ?_) (by omega)
  refine Costs.seq (k := 5) (Costs.withReader h fun _ henv => { henv with }) fun _ => ?_
  refine costs_code.bind (k := 5) fun c _ => ?_
  dsimp only
  split
  · split
    · exact ((spends_op _).seq fun _ => spends_finish close).le (by decide)
    · have hthrow : Spends (throwNew Jvm.illegalState "missing return") 5 :=
        spends_throwNew (by decide +kernel) (by decide)
      exact hthrow.seq fun _ => spends_finish close
  · exact (spends_nothing.seq fun _ => spends_finish close).le (by decide)

theorem spends_method {access : List Access} {name : String} {types : List Ty} {result : Ty}
    {tok close : Token} {params : List (Option Symbol)} {steps : Emit Unit} {k : Nat}
    (ht : types.length ≤ EmitError.maxParameters) (h : Spends steps k) :
    Spends (method access name types result tok params close steps) (params.length + k + 5) := by
  unfold method
  rw [if_neg (Nat.not_lt.mpr ht)]
  exact spends_inMethod (spends_routine h)

/-! ## Conversions -/

theorem spends_box (t : Ty) : Spends (box t) 1 := by
  unfold box
  split
  · exact spends_callStatic (by decide)
  split
  · exact spends_callStatic (by decide)
  · exact spends_nothing.le (by decide)

theorem spends_unbox (t : Ty) : Spends (unbox t) 2 := by
  unfold unbox
  split
  · exact (spends_onClass _ (by decide)).seq fun _ => spends_callVirtual (by decide)
  split
  · exact (spends_onClass _ (by decide)).seq fun _ => spends_callVirtual (by decide)
  split
  · exact spends_nothing.le (by decide)
  · exact (spends_onClass _ (isShort_castName t)).le (by decide)

theorem spends_coerce (source target : Ty) : Spends (coerce source target) 1 := by
  unfold coerce
  split
  · exact spends_box source
  · exact spends_nothing.le (by decide)

theorem spends_listGet (t : Ty) : Spends (listGet t) 3 :=
  (spends_callInterface (by decide)).seq fun _ => spends_unbox t

theorem spends_listSet : Spends listSet 2 :=
  (spends_callInterface (by decide)).seq fun _ => spends_op .pop

theorem spends_listAdd : Spends listAdd 2 :=
  (spends_callInterface (by decide)).seq fun _ => spends_op .pop

theorem spends_newArray (s : Scalar) : Spends (newArray s) 1 := by
  unfold newArray
  split
  · exact spends_onCode fun h => (h.le (by omega)).newArray _
  · exact spends_onCode fun h => (h.le (by omega)).newArray _
  · exact spends_onClass _ (by decide)
  · exact spends_onClass _ (by decide)

theorem spends_newList : Spends newList 4 :=
  (spends_onClass _ (by decide)).seq fun _ => (spends_op _).seq fun _ => (spends_op _).seq fun _ =>
    spends_callInit (by decide)

theorem spends_methodHandle {name desc : String} (hn : Pool.IsShort name) (hd : Pool.IsShort desc) :
    Spends (methodHandle name desc) 7 := by
  unfold methodHandle
  refine (spends_callStatic (by decide)).seq (k := 6) fun _ => costs_read.bind fun env henv => ?_
  exact (spends_pushClass henv.unit).seq fun _ => (spends_pushString hn).seq fun _ =>
    (spends_pushString hd).seq fun _ => (spends_op _).seq fun _ =>
      (spends_callStatic (by decide +kernel)).seq fun _ => spends_callVirtual (by decide +kernel)

end Emit
end Kotlet

import Kotlet.Emit.Expr
import Kotlet.Proofs.Emit.World.Slot

/-!
# Conversions and methods

A method is written while another one waits, and that one goes on as if nothing had happened.

* `turns_box`, `turns_unbox`, `turns_coerce` : values as objects and back;
* `turns_loadElement`, `turns_loadInt`, `turns_storeInt` : elements of arrays and lists;
* `turns_newArray`, `turns_newList` : empty collections;
* `turns_methodHandle` : function values;
* `leads_throwNew`, `leads_vreturn`, `leads_return` : the ends of methods;
* `Fills` : steps that write a whole body;
* `ends_inMethod` : a method whose body is filled is verified, and the waiting world is as it was;
* `good_entered` : parameters get their slots;
* `ends_ending` : an end that can be reached returns or fails;
* `fills_routine` : with steps between the two, the whole body of a method.
-/

namespace Kotlet
namespace Emit

open ClassFile

section Convert

variable {env : Env} {W : World} {st : List Kind}

/-! ## Objects -/

theorem turns_box (t : Ty) : Turns env W (t.localKind.kind :: st) (box t) (.ref :: st) := by
  unfold box
  by_cases hi : t = .int
  · rw [if_pos hi, hi]
    exact turns_callStatic [.int] [.ref] (by decide) (by decide)
  · rw [if_neg hi]
    by_cases hb : t = .boolean
    · rw [if_pos hb, hb]
      exact turns_callStatic [.int] [.ref] (by decide) (by decide)
    · rw [if_neg hb, show t.localKind = .ref by simp [Ty.localKind, Ty.isPrimitive, hi, hb]]
      exact turns_nothing

theorem turns_checkCast (name : String) :
    Turns env W (.ref :: st) (onClass .checkCast name) (.ref :: st) :=
  turns_onClass _ (by decide) rfl name

theorem turns_unbox (t : Ty) : Turns env W (.ref :: st) (unbox t) (t.localKind.kind :: st) := by
  unfold unbox
  by_cases hi : t = .int
  · rw [if_pos hi, hi]
    exact (turns_checkCast _).seq (turns_callVirtual [] [.int] (by decide) (by decide))
  · rw [if_neg hi]
    by_cases hb : t = .boolean
    · rw [if_pos hb, hb]
      exact (turns_checkCast _).seq (turns_callVirtual [] [.int] (by decide) (by decide))
    · rw [if_neg hb, show t.localKind = .ref by simp [Ty.localKind, Ty.isPrimitive, hi, hb]]
      by_cases ha : t = .any
      · rw [if_pos ha]
        exact turns_nothing
      · rw [if_neg ha]
        exact turns_checkCast _

/-- A value of one type as a value of another. -/
theorem turns_coerce {t want : Ty} (ha : t.assignable want = true) :
    Turns env W (t.localKind.kind :: st) (coerce t want) (want.localKind.kind :: st) := by
  unfold coerce
  by_cases hw : want = .any
  · rw [if_pos hw, hw]
    exact turns_box t
  · have ht : t = want := by simpa [Ty.assignable, hw] using ha
    rw [if_neg hw, ht]
    exact turns_nothing

/-! ## Collections -/

theorem turns_listGet (t : Ty) :
    Turns env W (.int :: .ref :: st) (listGet t) (t.localKind.kind :: st) := by
  unfold listGet
  refine (turns_callInterface [.int] [.ref] (by decide) (by decide) (by decide)).seq ?_
  exact turns_unbox t

theorem turns_listSet : Turns env W (.ref :: .int :: .ref :: st) listSet st := by
  unfold listSet
  refine (turns_callInterface [.int, .ref] [.ref] (by decide) (by decide) (by decide)).seq ?_
  exact turns_op _ (by decide) rfl

theorem turns_listAdd : Turns env W (.ref :: .ref :: st) listAdd st := by
  unfold listAdd
  refine (turns_callInterface [.ref] [.int] (by decide) (by decide) (by decide)).seq ?_
  exact turns_op _ (by decide) rfl

theorem turns_anewArray (name : String) :
    Turns env W (.int :: st) (onClass .anewArray name) (.ref :: st) :=
  turns_onClass _ (by decide) rfl name

theorem turns_newArray (s : Scalar) : Turns env W (.int :: st) (newArray s) (.ref :: st) := by
  cases s with
  | int => exact turns_newArrayOf (.inr rfl)
  | boolean => exact turns_newArrayOf (.inl rfl)
  | string | unit | any | unknown => exact turns_anewArray _

theorem turns_newList : Turns env W (.int :: st) newList (.ref :: st) := by
  unfold newList
  refine (turns_onClass (.ref :: .int :: st) (by decide) rfl _).seq ?_
  refine (turns_op (.ref :: .int :: .ref :: st) (by decide) rfl).seq ?_
  refine (turns_op (.int :: .ref :: .ref :: st) (by decide) rfl).seq ?_
  exact turns_callInit [.int] [] (by decide)

theorem turns_loadElement (kind : CollectionKind) (s : Scalar) :
    Turns env W (.int :: .ref :: st) (loadElement kind s)
      ((Ty.scalar s).localKind.kind :: st) := by
  cases kind with
  | list => exact turns_listGet (.scalar s)
  | array => cases s <;> exact turns_op _ (by decide) rfl

theorem turns_arrayStore (s : Scalar) :
    Turns env W ((Ty.scalar s).localKind.kind :: .int :: .ref :: st) (op (arrayStoreOp s)) st := by
  cases s <;> exact turns_op _ (by decide) rfl

theorem turns_loadInt (kind : CollectionKind) :
    Turns env W (.int :: .ref :: st) (loadInt kind) (.int :: st) := by
  cases kind with
  | list => exact turns_listGet .int
  | array => exact turns_op _ (by decide) rfl

theorem turns_storeInt (kind : CollectionKind) :
    Turns env W (.int :: .int :: .ref :: st) (storeInt kind) st := by
  cases kind with
  | list => exact (turns_box .int).seq turns_listSet
  | array => exact turns_op _ (by decide) rfl

/-! ## Functions -/

theorem turns_methodHandle (name desc : String) :
    Turns env W st (methodHandle name desc) (.ref :: st) := by
  unfold methodHandle
  refine (turns_callStatic [] [.ref] (by decide) (by decide)).seq ?_
  refine writes_read_bind ?_
  refine (turns_pushClass _).seq ?_
  refine (turns_pushString _).seq ?_
  refine (turns_pushString _).seq ?_
  refine (turns_op (.ref :: .ref :: .ref :: .ref :: .ref :: st) (by decide) rfl).seq ?_
  refine (turns_callStatic [.ref, .ref] [.ref] (by decide) (by decide)).seq ?_
  exact turns_callVirtual [.ref, .ref, .ref] [.ref] (by decide) (by decide)

/-- Throws an exception. -/
theorem leads_throwNew (cls message : String) (st' : List Kind) :
    Leads env (W.withStack st) (throwNew cls message) (W.dead.withStack st') := by
  unfold throwNew
  refine (turns_onClass (.ref :: st) (by decide) rfl cls).seq ?_
  refine (turns_op (.ref :: .ref :: st) (by decide) rfl).seq ?_
  refine (turns_pushString _).seq ?_
  refine (turns_callInit [.ref] [] (by decide)).seq ?_
  exact leads_end st st' (by decide) rfl rfl

theorem leads_vreturn (h : W.result = []) (st' : List Kind) :
    Leads env (W.withStack st) (op .vreturn) (W.dead.withStack st') :=
  leads_end st st' (by decide) (by rw [h]; decide) rfl

/-- Returns a value. -/
theorem leads_return {t : Ty} (ht : t ≠ .unit) (h : W.result = t.kinds) (st' : List Kind) :
    Leads env (W.withStack (t.localKind.kind :: st)) (op t.returnOp) (W.dead.withStack st') := by
  rw [Ty.kinds_of_ne ht] at h
  rw [Ty.returnOp, if_neg ht]
  cases hp : t.isPrimitive with
  | true =>
    have hk : t.localKind = .int := by rw [Ty.localKind, hp]; rfl
    rw [hk] at h ⊢
    exact leads_end st st' (by decide) (by rw [h]; decide) rfl
  | false =>
    have hk : t.localKind = .ref := by rw [Ty.localKind, hp]; rfl
    rw [hk] at h ⊢
    exact leads_end st st' (by decide) (by rw [h]; decide) rfl

end Convert

/-! ## Methods -/

/-- The methods have known names. -/
def NamedBy (names : List String) (s : State) : Prop :=
  ∀ m ∈ s.methods, m.name ∈ names ∨ ∃ k < s.lambdas, m.name = lambdaName k

/-- The steps write a whole body. -/
def Fills (env : Env) (entry result : List Kind) (names : List String) (steps : Emit Unit) : Prop :=
  ∀ s n, s.body = .start (.start n) → Pool.Sound Plain s.pool → NamedBy names s →
    Ends steps env s (fun d => d.code = .formatLimit) fun _ s' =>
      Later s s' ∧ Pool.Sound Plain s'.pool ∧ NamedBy names s' ∧
        (s'.pool.error = none → ∃ is F, s'.body.code.Framed s'.pool entry result is F)

section Method

variable {env : Env} {W : World} {s : State}

theorem pushMethod_eq {methods : Array Method} {name desc : String} {args res : List Kind}
    (access : Access) (hfresh : ∀ m ∈ methods, m.name ≠ name)
    (hd : descriptorKinds? desc = some (args, res)) : ∃ n,
      pushMethod methods access name desc =
        .ok (methods.push ⟨access, name, desc, .start n⟩) := by
  have hany : (methods.any fun m => m.name == name && m.desc == desc) = false := by
    rw [Array.any_eq_false']
    intro m hm
    simp [hfresh m hm]
  unfold pushMethod
  rw [hany, descriptorSlots?_of_kinds hd]
  exact ⟨_, rfl⟩

/-- A whole method; the method around it goes on afterwards. -/
theorem ends_inMethod {access : Access} {name desc : String} {tok : Token} {steps : Emit Unit}
    {args res : List Kind} {names : List String} (hs : Good W s)
    (hfresh : ∀ m ∈ s.methods, m.name ≠ name) (hd : Calls desc args res)
    (hname : name ∈ names ∨ ∃ k < s.lambdas, name = lambdaName k) (hsub : ∀ n ∈ W.names, n ∈ names)
    (hplain : ∀ n ∈ names, ∀ k, n ≠ lambdaName k)
    (hf : Fills env (if access.has .isStatic then args else .ref :: args) res names steps) :
    Ends (inMethod access name desc tok steps) env s (fun d => d.code = .formatLimit) fun _ s' =>
      Later s s' ∧ Good { W with names := names } s' := by
  obtain ⟨n, hpush⟩ := pushMethod_eq access hfresh hd.kinds
  unfold inMethod
  simp only [ends_bind, ends_get, hpush, Array.back?_push, Option.map_some, Option.getD_some,
    ends_modify]
  -- The state in which the body is written.
  refine (hf { s with
      methods := s.methods.push ⟨access, name, desc, .start n⟩
      body := .start (.start n) } n rfl hs.pool ?_).mono fun _ s' hfilled => ?_
  · intro m hm
    rcases Array.mem_push.mp hm with hm | rfl
    · exact (hs.names m hm).imp (hsub _) id
    · exact hname
  · obtain ⟨hlater, hpool, hnamed, hframed⟩ := hfilled
    have hsize : s.methods.size + 1 ≤ s'.methods.size := by
      have := hlater.size
      rwa [Array.size_push] at this
    have hold : ∀ i < s.methods.size, s'.methods[i]? = s.methods[i]? := by
      intro i hi
      rw [hlater.old i (by rw [Array.size_push]; omega), Array.getElem?_push, if_neg (by omega)]
    have hself : s'.methods[s.methods.size]? = some ⟨access, name, desc, .start n⟩ := by
      rw [hlater.old s.methods.size (by rw [Array.size_push]; omega)]
      exact Array.getElem?_push_size
    refine ⟨⟨hlater.pool, hlater.lambdas, ?_, fun i hi => ?_, fun he i m hi hm => ?_⟩, hpool,
      hs.flows.mono hlater.pool, hs.slots, hs.next, fun m hm => ?_,
      { hs.ok with names := hplain }⟩
    · simp only [Array.size_modify]
      omega
    · rw [Array.getElem?_modify, if_neg (by omega)]
      exact hold i hi
    · rw [Array.getElem?_modify] at hm
      split at hm
      · rename_i heq
        subst heq
        rw [hself] at hm
        cases hm
        obtain ⟨is, F, hframe⟩ := hframed he
        exact ⟨args, res, is, F, hd.kinds, hframe⟩
      · exact hlater.new he i m (by rw [Array.size_push]; omega) hm
    · obtain ⟨i, hi⟩ := Array.mem_iff_getElem?.mp hm
      rw [Array.getElem?_modify] at hi
      split at hi
      · obtain ⟨m', hm', heq⟩ := Option.map_eq_some_iff.mp hi
        rw [← heq]
        exact hnamed m' (Array.mem_iff_getElem?.mpr ⟨i, hm'⟩)
      · exact hnamed m (Array.mem_iff_getElem?.mpr ⟨i, hi⟩)

/-- The last checks of a body that ends and whose labels have their places. -/
theorem ends_finish {tok : Token} (hs : Good W s) (ho : W.opens = []) (hl : W.live = false) :
    Ends (finish tok) env s (fun d => d.code = .formatLimit) fun _ s' =>
      Later s s' ∧ Pool.Sound Plain s'.pool ∧ NamedBy W.names s' ∧ (s'.pool.error = none →
        ∃ is F, s'.body.code.Framed s'.pool W.entry W.result is F) := by
  obtain ⟨hlimit, hframed⟩ := hs.flows.finish ho hl
  unfold finish
  rw [ends_bind]
  change Ends _ env { s with body := { s.body with
    code := s.body.code.finish (List.range s.body.code.labels.size) } } _ _
  unfold code
  simp only [ends_bind, ends_get, ends_pure]
  cases he : (s.body.code.finish (List.range s.body.code.labels.size)).error with
  | some e =>
    change (EmitError.build e).code = .formatLimit
    rw [EmitError.code, if_pos (hlimit e he)]
  | none => exact ⟨.of_pool (.refl _) rfl (Nat.le_refl _), hs.pool, hs.names, hframed he⟩

/-! ## Parameters -/

theorem ends_declareParams {tok : Token} : ∀ {syms : List Symbol} {s : State},
    (syms.map Symbol.id).Nodup → (∀ sym ∈ syms, s.body.slots[sym.id]? = none) →
      Ends (declareParams tok (syms.map some)) env s (fun d => d.code = .formatLimit) fun _ s' =>
        (s'.pool = s.pool ∧ s'.methods = s.methods ∧ s'.lambdas = s.lambdas ∧
          s'.body.code = s.body.code) ∧ s'.body.next = s.body.next + syms.length ∧
        (∀ id l, s'.body.slots[id]? = some l →
          s.body.slots[id]? = some l ∨ ∃ sym ∈ syms, sym.id = id) ∧
        (∀ id, (∀ sym ∈ syms, sym.id ≠ id) → s'.body.slots[id]? = s.body.slots[id]?) ∧
        ∀ (i : Nat) (sym : Symbol), syms[i]? = some sym →
          s'.body.slots[sym.id]? = some ⟨s.body.next + i, sym.ty⟩
  | [], s, _, _ => by
    refine ⟨⟨rfl, rfl, rfl, rfl⟩, rfl, fun _ _ h => .inl h, fun _ _ => rfl, fun i sym h => ?_⟩
    cases h
  | sym :: syms, s, hnodup, hnone => by
    obtain ⟨hmem, hnodup⟩ := List.nodup_cons.mp hnodup
    have hne : ∀ x ∈ syms, x.id ≠ sym.id := fun x hx heq =>
      hmem (List.mem_map.mpr ⟨x, hx, heq⟩)
    simp only [List.map_cons, declareParams, declare, slot?, scratch, ends_bind, ends_get,
      ends_pure, hnone sym List.mem_cons_self, Option.isSome_none, Bool.false_eq_true, if_false]
    by_cases hn : 65535 < s.body.next
    · rw [if_pos hn]
      exact (rfl : EmitError.manyLocals.code = .formatLimit)
    · rw [if_neg hn]
      simp only [ends_modify]
      refine (ends_declareParams hnodup fun x hx => ?_).mono fun _ s' hs' => ?_
      · rw [Std.HashMap.getElem?_insert, if_neg (by rw [beq_iff_eq]; exact Ne.symm (hne x hx))]
        exact hnone x (List.mem_cons_of_mem _ hx)
      · obtain ⟨hsame, hnext, hslots, hothers, hget⟩ := hs'
        refine ⟨hsame, ?_, fun id l hl => ?_, fun id hid => ?_, fun i x hx => ?_⟩
        · rw [hnext, List.length_cons]
          change s.body.next + 1 + _ = _
          omega
        · rcases hslots id l hl with hl | ⟨x, hx, heq⟩
          · rw [Std.HashMap.getElem?_insert] at hl
            split at hl
            · rename_i heq
              exact .inr ⟨sym, List.mem_cons_self, by simpa using heq⟩
            · exact .inl hl
          · exact .inr ⟨x, List.mem_cons_of_mem _ hx, heq⟩
        · rw [hothers id fun x hx => hid x (List.mem_cons_of_mem _ hx),
            Std.HashMap.getElem?_insert, if_neg]
          rw [beq_iff_eq]
          exact hid sym List.mem_cons_self
        · cases i with
          | zero =>
            obtain rfl : sym = x := Option.some.inj hx
            rw [hothers sym.id hne, Std.HashMap.getElem?_insert, if_pos (beq_self_eq_true _)]
            rfl
          | succ i =>
            rw [hget i x hx]
            congr 2
            change s.body.next + 1 + i = _
            omega

/-- The world in which the steps of a method start. -/
structure World.Opening (W : World) (Γ : List Symbol) (result : List Kind) (names : List String)
    (count : Nat) : Prop where
  holds : W.Holds Γ
  opens : W.opens = []
  tops : W.tops = []
  count : W.count ≤ count
  ahead : W.ahead = none
  numbered : W.numbered = true
  result : W.result = result
  names : W.names = names

/-- The world after the parameters have got their slots. -/
def World.entered (syms : List Symbol) (result : List Kind) (vars : SymbolId → Option Local)
    (count : Nat) (names : List String) : World :=
  { Flow.start (syms.map fun sym => sym.ty.localKind.kind) with
    entry := syms.map fun sym => sym.ty.localKind.kind
    result := result, vars := vars, count := count, ahead := none, next := syms.length
    numbered := true, names := names }

section Entered

variable {syms : List Symbol} {result : List Kind} {vars : SymbolId → Option Local} {count : Nat}
  {names : List String}

theorem World.opening_entered
    (hget : ∀ (i : Nat) (sym : Symbol), syms[i]? = some sym → vars sym.id = some ⟨i, sym.ty⟩) :
    (World.entered syms result vars count names).Opening syms result names count := by
  refine ⟨fun sym hsym => ?_, rfl, rfl, Nat.le_refl _, rfl, rfl, rfl, rfl⟩
  obtain ⟨i, hi⟩ := List.mem_iff_getElem?.mp hsym
  refine ⟨⟨i, sym.ty⟩, hget i sym hi, rfl, ?_⟩
  change (syms.map fun sym => sym.ty.localKind.kind)[i]? = _
  rw [List.getElem?_map, hi]
  rfl

/-- A body in which nothing but the slots of the parameters is taken. -/
theorem good_entered {n : Nat} (hcode : s.body.code = .start n) (hpool : Pool.Sound Plain s.pool)
    (hnamed : NamedBy names s) (hnext : s.body.next = syms.length) (hlen : syms.length ≤ 255)
    (hvars : ∀ (id : SymbolId) l, s.body.slots[id]? = some l → id.index < count)
    (hplain : ∀ n ∈ names, ∀ k, n ≠ lambdaName k) :
    Good (World.entered syms result (fun id => s.body.slots[id]?) count names) s := by
  have hlocals : ∀ k kind, (syms.map fun sym => sym.ty.localKind.kind)[k]? = some kind →
      k < syms.length := fun k kind hk => by
    have := (List.getElem?_eq_some_iff.mp hk).1
    rwa [List.length_map] at this
  refine ⟨hpool, ?_, fun _ => rfl, fun _ => hnext, hnamed, ?_⟩
  · rw [hcode]
    exact Code.flows_start s.pool _ _ n
  · exact ⟨Nat.le_trans hlen (by decide), hlocals, fun _ hm => (List.not_mem_nil hm).elim,
      fun id l hl => .inl (hvars id l hl), fun _ hm => (List.not_mem_nil hm).elim, Nat.le_refl _,
      hplain⟩

end Entered

/-- An end that can be reached returns, or fails where a result is missing. So control does not go
on after the last instruction. -/
theorem ends_ending {result : Ty} {close : Token} (hs : Good W s) (hopens : W.opens = [])
    (hr : W.result = result.kinds) :
    Ends (do
      if (← code).reachable then
        if result = .unit then op .vreturn else throwNew Jvm.illegalState "missing return"
      finish close) env s (fun d => d.code = .formatLimit) fun _ s' =>
        Later s s' ∧ Pool.Sound Plain s'.pool ∧ NamedBy W.names s' ∧ (s'.pool.error = none →
          ∃ is F, s'.body.code.Framed s'.pool W.entry W.result is F) := by
  have hend : ∀ x : Emit Unit, Leads env W x W.dead →
      Ends (x >>= fun _ => finish close) env s (fun d => d.code = .formatLimit) fun _ s' =>
        Later s s' ∧ Pool.Sound Plain s'.pool ∧ NamedBy W.names s' ∧ (s'.pool.error = none →
          ∃ is F, s'.body.code.Framed s'.pool W.entry W.result is F) := by
    intro x hx
    rw [ends_bind]
    refine (hx s hs).mono fun _ s₁ ⟨hlater, W₁, hgood, heq⟩ => ?_
    subst heq
    exact (ends_finish hgood hopens rfl).mono
      fun _ s' ⟨hlater', hrest⟩ => ⟨hlater.trans hlater', hrest⟩
  unfold code
  simp only [ends_bind (x := get), ends_get, pure_bind, bind_assoc]
  cases hreach : s.body.code.reachable with
  | false =>
    have hdead : Good W.dead s := { hs with
      flows := hs.flows.silent hreach false _ _
      ok := hs.ok.dead }
    exact ends_finish (W := W.dead) hdead hopens rfl
  | true =>
    by_cases hu : result = .unit
    · rw [if_pos rfl, if_pos hu]
      exact hend _ (leads_vreturn (by rw [hr, hu]; rfl) W.stack)
    · rw [if_pos rfl, if_neg hu]
      have hx : Leads env W (throwNew Jvm.illegalState "missing return") W.dead :=
        leads_throwNew _ _ W.stack
      generalize throwNew Jvm.illegalState "missing return" = x at hx ⊢
      exact hend x hx

/-- The steps of a method, with its parameters before them and its end after them. -/
theorem fills_routine {syms : List Symbol} {result : Ty} {close : Token} {steps : Emit Unit}
    {names : List String} {count : Nat} (hnodup : (syms.map Symbol.id).Nodup)
    (hcount : ∀ sym ∈ syms, sym.id.index < count) (hlen : syms.length ≤ 255)
    (hplain : ∀ n ∈ names, ∀ k, n ≠ lambdaName k)
    (hsteps : ∀ W : World, W.Opening syms result.kinds names count →
      Writes { env with result := result, loop := none } (W.withStack []) steps
        fun _ W' => W.Next W') :
    Fills env (syms.map fun sym => sym.ty.localKind.kind) result.kinds names
      (routine (syms.map some) result close steps) := by
  intro s n hbody hpool hnamed
  have hslots₀ : ∀ id : SymbolId, s.body.slots[id]? = none := by
    rw [hbody]
    simp [Body.start]
  unfold routine
  rw [ends_bind]
  refine (ends_declareParams hnodup fun sym _ => hslots₀ sym.id).mono fun _ s₁ h₁ => ?_
  obtain ⟨⟨hp₁, hm₁, hl₁, hc₁⟩, hnext₁, hslots₁, -, hget₁⟩ := h₁
  rw [hbody] at hc₁ hnext₁ hget₁
  have hstart : Later s s₁ := .of_pool (by rw [hp₁]; exact .refl _) hm₁ (Nat.le_of_eq hl₁.symm)
  have hgood : Good (World.entered syms result.kinds (fun id => s₁.body.slots[id]?) count names)
      s₁ := by
    refine good_entered hc₁ (by rw [hp₁]; exact hpool) ?_ (hnext₁.trans (Nat.zero_add _)) hlen
      (fun id l hl => ?_) hplain
    · unfold NamedBy
      rw [hm₁, hl₁]
      exact hnamed
    · rcases hslots₁ id l hl with hl | ⟨sym, hsym, rfl⟩
      · rw [hslots₀] at hl
        cases hl
      · exact hcount sym hsym
  have hopening : (World.entered syms result.kinds (fun id => s₁.body.slots[id]?) count
      names).Opening syms result.kinds names count := by
    refine World.opening_entered fun i sym hi => (hget₁ i sym hi).trans ?_
    rw [show (Body.start (.start n)).next = 0 from rfl, Nat.zero_add]
  rw [ends_bind, ends_withReader]
  refine (hsteps _ hopening s₁ hgood).mono fun _ s₂ ⟨hlater₂, W₂, hgood₂, hnext₂⟩ => ?_
  refine (ends_ending hgood₂ hnext₂.opens hnext₂.result).mono
    fun _ s' ⟨hlater, hpool', hnamed', hframed⟩ =>
      ⟨hstart.trans (hlater₂.trans hlater), hpool', ?_, ?_⟩
  · rw [hnext₂.names] at hnamed'
    exact hnamed'
  · rw [hnext₂.entry, hnext₂.result] at hframed
    exact hframed

/-- The method of a function or a lambda. -/
theorem ends_method {access : List Access} {name : String} {syms : List Symbol} {result : Ty}
    {tok close : Token} {steps : Emit Unit} {names : List String} {count : Nat} (hs : Good W s)
    (hstatic : (Access.all access).has .isStatic = true) (hfresh : ∀ m ∈ s.methods, m.name ≠ name)
    (hname : name ∈ names ∨ ∃ k < s.lambdas, name = lambdaName k) (hsub : ∀ n ∈ W.names, n ∈ names)
    (hplain : ∀ n ∈ names, ∀ k, n ≠ lambdaName k)
    (hsyms : ∀ sym ∈ syms, sym.ty.Complete ∧ sym.ty ≠ .unit) (hresult : result.Complete)
    (hnodup : (syms.map Symbol.id).Nodup) (hcount : ∀ sym ∈ syms, sym.id.index < count)
    (hsteps : ∀ V : World, V.Opening syms result.kinds names count →
      Writes { env with result := result, loop := none } (V.withStack []) steps
        fun _ V' => V.Next V') :
    Ends (method access name (syms.map Symbol.ty) result tok (syms.map some) close steps) env s
      (fun d => d.code = .formatLimit) fun _ s' =>
        Later s s' ∧ Good { W with names := names } s' := by
  unfold method
  rw [List.length_map]
  by_cases hlen : EmitError.maxParameters < syms.length
  · rw [if_pos hlen]
    exact (rfl : (EmitError.manyParameters name syms.length).code = .formatLimit)
  · rw [if_neg hlen]
    have htypes : ∀ t ∈ syms.map Symbol.ty, t.Complete ∧ t ≠ .unit := fun t ht => by
      obtain ⟨sym, hsym, rfl⟩ := List.mem_map.mp ht
      exact hsyms sym hsym
    refine ends_inMethod hs hfresh (calls_methodDescriptor htypes hresult) hname hsub hplain ?_
    rw [hstatic, if_pos rfl, List.map_map]
    exact fills_routine hnodup hcount (Nat.le_of_not_lt hlen) hplain hsteps

end Method

end Emit
end Kotlet

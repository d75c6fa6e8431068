import Kotlet.Proofs.Eval.Watched

/-!
# The active calls of a run

A call is active while its body runs, and is over however the body ends. A failure tells which calls
were active.

* `Eval.Level` : steps that make no call;
* `Watched.Balanced` : steps that begin and end with the same active calls, with never too many in
  between, and whose failures tell which calls were active where they were raised;
* `Watched.balanced_inCall`, `Watched.balanced_apply` : calls;
* `Watched.balanced_expr_stmt` : expressions and statements, by induction on the fuel;
* `Checked.calls_disciplined` : the evaluator, and whole programs.
-/

namespace Kotlet

/-! ## Steps that make no call -/

namespace Eval

variable {α β : Type}

/-- Steps that leave the active calls alone, and whose failures have no trace. -/
def Level (x : Eval α) : Prop :=
  ∀ m, match x m with
  | .ok _ m' => m'.calls = m.calls
  | .error f m' => m'.calls = m.calls ∧ f.trace = []

section Level

variable {x : Eval α}

theorem level_pure (a : α) : Level (pure a) := fun _ => rfl

theorem level_fail (cause : Fault.Cause) (t : Token) : Level (fail cause t : Eval α) :=
  fun _ => ⟨rfl, rfl⟩

theorem level_get : Level (get : Eval Machine) := fun _ => rfl

theorem level_modify {f : Machine → Machine} (hf : ∀ m, (f m).calls = m.calls) :
    Level (modify f : Eval PUnit) := hf

theorem Level.bind {f : α → Eval β} (hx : Level x) (hf : ∀ a, Level (f a)) : Level (x >>= f) := by
  intro m
  have hm := hx m
  change match EStateM.bind x f m with | .ok _ m' => _ | .error f m' => _
  unfold EStateM.bind
  cases h : x m with
  | error e m' =>
    rw [h] at hm
    exact hm
  | ok a m' =>
    rw [h] at hm
    have hm' := hf a m'
    rw [hm] at hm'
    exact hm'

theorem Level.ite {c : Prop} [Decidable c] {y : Eval α} (hx : Level x) (hy : Level y) :
    Level (if c then x else y) := by
  split
  · exact hx
  · exact hy

theorem level_lookup? (id : SymbolId) : Level (lookup? id) := level_get.bind fun _ => level_pure _

theorem level_assign (id : SymbolId) (v : Value) : Level (assign id v) := fun _ => rfl

theorem level_allocate (kind : CollectionKind) (es : Array Value) : Level (allocate kind es) :=
  fun _ => rfl

theorem level_length (a : Nat) : Level (length a) := level_get.bind fun _ => level_pure _

theorem level_load (a i : Nat) : Level (load a i) := level_get.bind fun _ => level_pure _

theorem level_store (a i : Nat) (v : Value) : Level (store a i v) := fun _ => rfl

theorem level_emit (text : String) : Level (emit text) := fun _ => rfl

theorem level_symbolOf (id : Ident) : Level (symbolOf id) := by
  unfold symbolOf
  cases id.sym with
  | none => exact level_fail _ _
  | some sym => exact level_pure sym

theorem level_variableOf (id : Ident) (sym : Symbol) : Level (variableOf id sym) := by
  refine (level_lookup? sym.id).bind fun o => ?_
  cases o with
  | none => exact level_fail _ _
  | some v => exact level_pure v

theorem level_read (F : List FunDecl) (id : Ident) : Level (read F id) := by
  refine (level_symbolOf id).bind fun sym => Level.ite ?_ (level_variableOf id sym)
  cases functionOf? F sym.name with
  | none => exact level_fail _ _
  | some f => exact level_pure _

theorem level_shown (tok : Token) (v : Value) : Level (shown tok v) := by
  refine level_get.bind fun m => ?_
  cases v.show? m.heap with
  | none => exact level_fail _ _
  | some text => exact level_pure text

theorem level_truth (tok : Token) (v : Value) : Level (truth tok v) := by
  cases v with
  | bool b => exact level_pure b
  | _ => exact level_fail _ _

theorem level_position (tok : Token) (a : Nat) (i : Int32) : Level (position tok a i) :=
  (level_length a).bind fun _ =>
    Level.ite ((level_fail _ _).bind fun _ => level_pure _) (level_pure _)

theorem level_arithmetic (tok : Token) (op : String) (a b : Value) :
    Level (arithmetic tok op a b) := by
  unfold arithmetic
  split
  · split
    · exact level_fail _ _
    · split
      · exact level_pure _
      · exact level_fail _ _
  · exact level_fail _ _

theorem level_comparison (tok : Token) (op : String) (a b : Value) :
    Level (comparison tok op a b) := by
  unfold comparison
  cases CompareOp.ofText? op with
  | none =>
    dsimp only
    split
    · exact level_fail _ _
    · exact level_fail _ _
    · exact Level.ite (level_fail _ _) (level_fail _ _)
    · exact level_fail _ _
  | some c =>
    dsimp only
    split
    · exact level_pure _
    · exact level_pure _
    · exact Level.ite (level_pure _) (level_fail _ _)
    · exact level_fail _ _

theorem level_bindParams : ∀ (ps : List Param) (vs : List Value), Level (bindParams ps vs)
  | p :: ps, v :: vs =>
    (level_symbolOf p.name).bind fun _ => (level_assign _ v).bind fun _ => level_bindParams ps vs
  | [], _ => level_pure ()
  | _ :: _, [] => level_pure ()

theorem level_captureAll (tok : Token) : ∀ syms : List Symbol, Level (captureAll tok syms)
  | [] => level_pure []
  | sym :: syms => by
    refine (level_lookup? sym.id).bind fun o => ?_
    cases o with
    | none => exact level_fail _ _
    | some v => exact (level_captureAll tok syms).bind fun _ => level_pure _

end Level

end Eval

namespace Watched

open Eval

variable {α β : Type} {calls : List Frame}

/-! ## Balanced steps -/

/-- The machine at the end of a run. -/
def endOf : EStateM.Result Fault Machine α → Machine
  | .ok _ m => m
  | .error _ m => m

/-- A run where some calls are active, with the calls that are active at its steps. -/
structure Around (calls : List Frame) (active : List (List Frame))
    (r : EStateM.Result Fault Machine α) : Prop where
  /-- However the run ends, the same calls are active again. -/
  back : (endOf r).calls = calls
  /-- In between they stay active, below others. -/
  above : ∀ s ∈ active, calls <:+ s
  /-- No more calls are active than there may be. -/
  bounded : ∀ s ∈ active, s.length ≤ max Machine.maxDepth calls.length
  /-- A failure tells which calls were active at the step that failed, unless it has left none. -/
  raised : ∀ f m', r = .error f m' →
    ∃ s, active.getLast? = some s ∧ (f.trace = s ∨ f.trace = [] ∧ s = calls)

/-- Steps that run around any machine where these calls are active. -/
def Balanced (calls : List Frame) (x : Watched α) : Prop :=
  ∀ m : Machine, m.calls = calls → Around calls (x.active m) (x.run m)

section Balanced

variable {x : Watched α}

theorem balanced_lift {x : Eval α} (h : Level x) : Balanced calls (liftM x : Watched α) := by
  intro m hm
  have hlevel := h m
  have hactive : (liftM x : Watched α).active m = [calls] := congrArg (fun c => [c]) hm
  rw [hactive, run_lift]
  refine ⟨?_, fun s hs => ?_, fun s hs => ?_, fun f m' hx => ?_⟩
  · cases hx : x m with
    | ok a m' =>
      rw [hx] at hlevel
      exact hlevel.trans hm
    | error f m' =>
      rw [hx] at hlevel
      exact hlevel.1.trans hm
  · obtain rfl := List.mem_singleton.mp hs
    exact List.suffix_refl _
  · obtain rfl := List.mem_singleton.mp hs
    exact Nat.le_max_right _ _
  · rw [hx] at hlevel
    exact ⟨calls, rfl, .inr ⟨hlevel.2, rfl⟩⟩

theorem balanced_pure (a : α) : Balanced calls (pure a : Watched α) := balanced_lift (level_pure a)

theorem balanced_fail (cause : Fault.Cause) (t : Token) :
    Balanced calls (liftM (Eval.fail cause t : Eval α) : Watched α) :=
  balanced_lift (level_fail cause t)

/-- Steps that fail are the last ones. -/
theorem active_bind_error {m m' : Machine} {e : Fault} (h : x.run m = .error e m')
    (f : α → Watched β) : (x >>= f).active m = x.active m := by
  change x.active m ++ _ = _
  rw [h, List.append_nil]

theorem active_bind_ok {m m' : Machine} {a : α} (h : x.run m = .ok a m') (f : α → Watched β) :
    (x >>= f).active m = x.active m ++ (f a).active m' := by
  change x.active m ++ _ = _
  rw [h]

theorem run_bind_error {m m' : Machine} {e : Fault} (h : x.run m = .error e m')
    (f : α → Watched β) : (x >>= f).run m = .error e m' := by
  change EStateM.bind x.run _ m = _
  rw [EStateM.bind, h]

theorem run_bind_ok {m m' : Machine} {a : α} (h : x.run m = .ok a m') (f : α → Watched β) :
    (x >>= f).run m = (f a).run m' := by
  change EStateM.bind x.run _ m = _
  rw [EStateM.bind, h]

/-- Runs one after the other. -/
theorem Around.append {active active' : List (List Frame)} {r' : EStateM.Result Fault Machine β}
    {a : α} {m : Machine} (h : Around calls active (EStateM.Result.ok a m))
    (h' : Around calls active' r') : Around calls (active ++ active') r' where
  back := h'.back
  above s hs := (List.mem_append.mp hs).elim (h.above s) (h'.above s)
  bounded s hs := (List.mem_append.mp hs).elim (h.bounded s) (h'.bounded s)
  raised f m' hf := by
    obtain ⟨s, hlast, hs⟩ := h'.raised f m' hf
    exact ⟨s, by rw [List.getLast?_append, hlast, Option.some_or], hs⟩

theorem Around.error {active : List (List Frame)} {f : Fault} {m : Machine}
    (h : Around calls active (EStateM.Result.error f m : EStateM.Result Fault Machine α)) :
    Around calls active (EStateM.Result.error f m : EStateM.Result Fault Machine β) :=
  ⟨h.back, h.above, h.bounded, fun _ _ hf => h.raised _ _ (by cases hf; rfl)⟩

theorem Balanced.bind {f : α → Watched β} (h : Balanced calls x) (hf : ∀ a, Balanced calls (f a)) :
    Balanced calls (x >>= f) := by
  intro m hm
  have hx := h m hm
  cases hrun : x.run m with
  | error e m' =>
    rw [active_bind_error hrun, run_bind_error hrun]
    exact (hrun ▸ hx).error
  | ok a m' =>
    rw [hrun] at hx
    rw [active_bind_ok hrun, run_bind_ok hrun]
    exact hx.append (hf a m' hx.back)

theorem Balanced.bind_fails (h : Balanced calls x) (hx : ∀ m a m', x.run m ≠ .ok a m')
    (f : α → Watched β) : Balanced calls (x >>= f) := by
  intro m hm
  cases hrun : x.run m with
  | error e m' =>
    rw [active_bind_error hrun, run_bind_error hrun]
    exact (hrun ▸ h m hm).error
  | ok a m' => exact absurd hrun (hx m a m')

/-- The machine that steps look at has the active calls. -/
theorem Balanced.get_bind {f : Machine → Watched β}
    (hf : ∀ m, m.calls = calls → Balanced calls (f m)) :
    Balanced calls (liftM (get : Eval Machine) >>= f) :=
  fun m hm => (balanced_lift level_get m hm).append (hf m hm m hm)

theorem Balanced.ite {c : Prop} [Decidable c] {y : Watched α} (hx : c → Balanced calls x)
    (hy : ¬ c → Balanced calls y) : Balanced calls (if c then x else y) := by
  split
  · rename_i hc
    exact hx hc
  · rename_i hc
    exact hy hc

/-- A check that must be passed to go on. -/
theorem Balanced.unless {c : Prop} [Decidable c] {x : Watched Unit} {f : Unit → Watched α}
    (hx : Balanced calls x) (hf : ∀ u, Balanced calls (f u)) :
    Balanced calls (if c then x >>= f else f ()) :=
  Balanced.ite (fun _ => hx.bind hf) fun _ => hf ()

theorem balanced_put (e : Event) (id : SymbolId) (v : Value) : Balanced calls (put e id v) :=
  balanced_lift (level_assign id v)

/-! ## Calls -/

/-- Steps whose failures have the trace that tells where they were raised. -/
def Told (calls : List Frame) (x : Watched α) : Prop :=
  ∀ m : Machine, m.calls = calls → ∀ f m', x.run m = .error f m' →
    (x.active m).getLast? = some f.trace

/-- A failure without a trace was raised where it is traced first. -/
theorem Balanced.told (h : Balanced calls x) : Told calls (traced x) := by
  intro m hm f m' hf
  have hx := h m hm
  rw [run_traced, traced_eq] at hf
  cases hrun : x.run m with
  | ok a m₁ =>
    rw [hrun] at hf
    cases hf
  | error e m₁ =>
    rw [hrun] at hf hx
    cases hf
    have hback : m'.calls = calls := hx.back
    obtain ⟨s, hlast, hs⟩ := hx.raised e m' rfl
    have habove := hx.above s (List.mem_of_getLast? hlast)
    change (x.active m).getLast? = _
    rw [hlast, Fault.traced, hback]
    rcases hs with rfl | ⟨hnone, rfl⟩
    · cases htrace : e.trace with
      | nil =>
        rw [htrace] at habove
        rw [List.suffix_nil.mp habove]
        rfl
      | cons frame rest => rw [List.isEmpty_cons, if_neg Bool.false_ne_true, htrace]
    · rw [hnone]
      rfl

theorem Balanced.traced (h : Balanced calls x) : Balanced calls (traced x) := by
  intro m hm
  have hx := h m hm
  refine ⟨?_, hx.above, hx.bounded, fun f m' hf => ⟨f.trace, h.told m hm f m' hf, .inl rfl⟩⟩
  have hback := hx.back
  rw [run_traced, traced_eq]
  cases hrun : x.run m with
  | ok a m' =>
    rw [hrun] at hback
    exact hback
  | error e m' =>
    rw [hrun] at hback
    exact hback

theorem Told.get_bind {f : Machine → Watched β} (hf : ∀ m, m.calls = calls → Told calls (f m)) :
    Told calls (liftM (get : Eval Machine) >>= f) := by
  intro m hm e m' he
  have hlast := hf m hm m hm e m' he
  change ([m.calls] ++ (f m).active m).getLast? = _
  rw [List.getLast?_append, hlast, Option.some_or]

theorem Balanced.onFreshStack (h : Balanced calls x) (fresh : Bool) :
    Balanced calls (onFreshStack fresh x) := by
  intro m hm
  rw [run_onFreshStack, onFreshStack_eq]
  exact h m hm

theorem endOf_ending (f : Machine → Machine) (m : Machine) :
    endOf ((ending f x).run m) = f (endOf (x.run m)) := by
  rw [run_ending, finally_modify]
  cases x.run m <;> rfl

theorem ending_error {f : Machine → Machine} {m m' : Machine} {e : Fault}
    (h : (ending f x).run m = .error e m') : ∃ m₁, x.run m = .error e m₁ := by
  rw [run_ending, finally_modify] at h
  cases hrun : x.run m with
  | ok a m₁ =>
    rw [hrun] at h
    cases h
  | error e' m₁ =>
    rw [hrun] at h
    cases h
    exact ⟨m₁, rfl⟩

/-- A change at the end that leaves the active calls alone. -/
theorem Balanced.ending {f : Machine → Machine} (h : Balanced calls x)
    (hf : ∀ m, (f m).calls = m.calls) : Balanced calls (ending f x) := by
  intro m hm
  have hx := h m hm
  refine ⟨?_, hx.above, hx.bounded, fun e m' he => ?_⟩
  · rw [endOf_ending, hf]
    exact hx.back
  · obtain ⟨m₁, hrun⟩ := ending_error he
    exact hx.raised e m₁ hrun

/-- Steps inside one more call, which is over at their end. -/
theorem Balanced.within {frame : Frame} (hroom : calls.length < Machine.maxDepth)
    (h : Balanced (frame :: calls) x) (ht : Told (frame :: calls) x) :
    Balanced calls (liftM (modify fun m => { m with calls := frame :: m.calls } : Eval Unit) >>=
      fun _ => Watched.ending (fun m => { m with calls := m.calls.tail }) x) := by
  intro m hm
  have hinside : ({ m with calls := frame :: m.calls } : Machine).calls = frame :: calls :=
    congrArg (frame :: ·) hm
  have hx := h _ hinside
  refine ⟨?_, fun s hs => ?_, fun s hs => ?_, fun e m' he => ?_⟩
  · change (endOf ((Watched.ending _ x).run _)).calls = calls
    rw [endOf_ending]
    exact congrArg List.tail hx.back
  · rcases List.mem_append.mp hs with hs | hs
    · obtain rfl := (List.mem_singleton.mp hs).trans hm
      exact List.suffix_refl _
    · exact (List.suffix_cons frame calls).trans (hx.above s hs)
  · rcases List.mem_append.mp hs with hs | hs
    · obtain rfl := (List.mem_singleton.mp hs).trans hm
      exact Nat.le_max_right _ _
    · have hle := hx.bounded s hs
      rw [List.length_cons] at hle
      omega
  · obtain ⟨m₁, hrun⟩ := ending_error (x := x) he
    refine ⟨e.trace, ?_, .inl rfl⟩
    change ([m.calls] ++ x.active _).getLast? = _
    rw [List.getLast?_append, ht _ hinside e m₁ hrun, Option.some_or]

end Balanced

/-- A call runs its body below one frame more. -/
theorem balanced_inCall {event : List Event → Event} {frame : Frame} {vars : Activation}
    {ps : List Param} {args : List Value} {tok : Token} {body : Watched α}
    (hroom : calls.length < Machine.maxDepth) (h : Balanced (frame :: calls) body) :
    Balanced calls (inCall event frame vars ps args tok body) := by
  have hinside : Balanced (frame :: calls) (activation event body) := h
  have hset : Level (modify fun m => { m with vars := vars } : Eval Unit) := level_modify fun _ => rfl
  unfold inCall
  refine Balanced.unless (balanced_fail _ _) fun _ => (balanced_lift level_get).bind fun m₀ => ?_
  refine (balanced_lift hset).bind fun _ => Balanced.ending ?_ fun _ => rfl
  refine (balanced_lift (level_bindParams ps args)).bind fun _ => Balanced.within hroom ?_ ?_
  · exact Balanced.get_bind fun _ _ => (hinside.onFreshStack _).traced
  · exact Told.get_bind fun _ _ => (hinside.onFreshStack _).told

/-- Nothing is called where too many calls are active. -/
theorem balanced_apply {runStmts : List Stmt → Watched Flow} {run : Expr → Watched Value}
    (hstmts : ∀ calls ss, Balanced calls (runStmts ss)) (hrun : ∀ calls e, Balanced calls (run e))
    (name : String) (tok : Token) (callee : Value) (args : List Value) :
    Balanced calls (apply runStmts run name tok callee args) := by
  refine Balanced.get_bind fun m hm => Balanced.ite (fun _ => ?_) fun hfew => ?_
  · exact (balanced_fail _ _).traced.bind_fails (fun _ _ _ h => by cases h) _
  have hroom : calls.length < Machine.maxDepth := hm ▸ Nat.lt_of_not_le hfew
  cases callee with
  | function f =>
    refine (balanced_inCall hroom (hstmts _ _)).bind fun flow => ?_
    cases flow with
    | returned v => exact balanced_pure v
    | _ => exact Balanced.ite (fun _ => balanced_pure _) fun _ => balanced_fail _ _
  | closure l captured =>
    refine (balanced_inCall hroom (hrun _ _)).bind fun v => ?_
    split
    · exact balanced_pure _
    · exact balanced_pure v
  | _ => exact balanced_fail _ _

/-! ## Pieces of expressions -/

section Pieces

variable {F : List FunDecl} {run : Expr → Watched Value} (hrun : ∀ e, Balanced calls (run e))
include hrun

theorem balanced_element (base : Ident) (index : Expr) :
    Balanced calls (element F run base index) := by
  refine (balanced_lift (level_read F base)).bind fun c => (hrun index).bind fun v => ?_
  cases v with
  | int n =>
    cases c with
    | collection kind a => exact balanced_pure _
    | _ => exact balanced_fail _ _
  | _ => exact balanced_fail _ _

theorem balanced_interpolate (tok : Token) : ∀ (splices : List Splice) (pos : Nat)
    (rest : List Char) (acc : String), Balanced calls (interpolate run tok pos rest acc splices)
  | [], _, _, _ => balanced_pure _
  | .mk _ e :: splices, _, _, _ =>
    Balanced.unless (balanced_fail _ _) fun _ => (hrun e).bind fun v =>
      (balanced_lift (level_shown tok v)).bind fun _ => balanced_interpolate tok splices _ _ _

theorem balanced_values : ∀ (es : List Expr) (acc : Array Value),
    Balanced calls (values run acc es)
  | [], _ => balanced_pure _
  | e :: es, _ => (hrun e).bind fun _ => balanced_values es _

theorem balanced_bound (e : Expr) : Balanced calls (bound run e) := by
  refine (hrun e).bind fun v => ?_
  cases v with
  | int n => exact balanced_pure n
  | _ => exact balanced_fail _ _

theorem balanced_incDec (e : IncDec) : Balanced calls (incDec F run e) := by
  obtain ⟨m, op, before, target⟩ := e
  cases target with
  | name id =>
    refine (balanced_lift (level_symbolOf id)).bind fun sym => ?_
    refine (balanced_lift (level_variableOf id sym)).bind fun v => ?_
    cases v with
    | int n => exact (balanced_put _ _ _).bind fun _ => balanced_pure _
    | _ => exact balanced_fail _ _
  | element em base index =>
    refine (balanced_element hrun base index).bind fun p => ?_
    refine (balanced_lift (level_position em.tok p.1 p.2)).bind fun i => ?_
    refine (balanced_lift (level_load p.1 i)).bind fun v => ?_
    cases v with
    | int n => exact (balanced_lift (level_store _ _ _)).bind fun _ => balanced_pure _
    | _ => exact balanced_fail _ _

end Pieces

theorem balanced_generate (param : SymbolId) {body : Watched Value} (hbody : Balanced calls body) :
    ∀ (count i : Nat) (acc : Array Value), Balanced calls (generate param body count i acc)
  | 0, _, _ => balanced_pure _
  | count + 1, _, _ =>
    (balanced_lift (level_assign param _)).bind fun _ => hbody.bind fun _ =>
      balanced_generate param hbody count _ _

/-! ## Loops -/

theorem balanced_sequence {run : Stmt → Watched Flow} (hrun : ∀ s, Balanced calls (run s)) :
    ∀ ss : List Stmt, Balanced calls (sequence run ss) := by
  intro ss
  induction ss with
  | nil => exact balanced_pure _
  | cons s ss ih =>
    refine (hrun s).bind fun flow => ?_
    cases flow with
    | next => exact ih
    | _ => exact balanced_pure _

section Loops

variable {body : Watched Flow} (hbody : Balanced calls body)
include hbody

theorem balanced_turn : Balanced calls (turn body) := by
  refine hbody.bind fun flow => ?_
  cases flow <;> exact balanced_pure _

theorem balanced_whileLoop (tok : Token) {cond : Watched Bool} (hcond : Balanced calls cond) :
    ∀ fuel, Balanced calls (whileLoop tok cond body fuel)
  | 0 => balanced_fail _ _
  | fuel + 1 => by
    refine hcond.bind fun b => Balanced.ite (fun _ => (balanced_turn hbody).bind fun o => ?_)
      fun _ => balanced_pure _
    cases o with
    | none => exact balanced_whileLoop tok hcond fuel
    | some flow => exact balanced_pure flow

theorem balanced_rangeLoop (id : SymbolId) (last step : Int32) (n : Int64) :
    Balanced calls (rangeLoop id last step body n) := by
  induction n using Eval.rangeLoop.induct last step with
  | case1 n hn ih =>
    rw [rangeLoop, if_pos hn]
    refine (balanced_lift (level_assign id _)).bind fun _ => (balanced_turn hbody).bind fun o => ?_
    cases o with
    | none => exact ih
    | some flow => exact balanced_pure flow
  | case2 n hn =>
    rw [rangeLoop, if_neg hn]
    exact balanced_pure _

theorem balanced_elementLoop (id : SymbolId) (address : Nat) : ∀ count i : Nat,
    Balanced calls (elementLoop id address body count i)
  | 0, _ => balanced_pure _
  | count + 1, i => by
    refine (balanced_lift (level_load address i)).bind fun v => ?_
    refine (balanced_lift (level_assign id v)).bind fun _ => (balanced_turn hbody).bind fun o => ?_
    cases o with
    | none => exact balanced_elementLoop id address count (i + 1)
    | some flow => exact balanced_pure flow

end Loops

/-! ## Expressions and statements -/

section Fuel

variable {F : List FunDecl} {fuel : Nat} (hexpr : ∀ calls e, Balanced calls (expr F fuel e))
  (hstmt : ∀ calls s, Balanced calls (stmt F fuel s))
include hexpr hstmt

theorem balanced_expr_succ (e : Expr) : Balanced calls (expr F (fuel + 1) e) := by
  have hrun := hexpr calls
  unfold expr
  cases e with
  | int m n => exact balanced_pure _
  | bool m b => exact balanced_pure _
  | str m text splices =>
    cases splices with
    | nil => exact balanced_pure _
    | cons => exact (balanced_interpolate hrun _ _ _ _ _).bind fun _ => balanced_pure _
  | read target =>
    cases target with
    | name id => exact balanced_lift (level_read F id)
    | element m base index =>
      refine (balanced_element hrun base index).bind fun p => ?_
      exact (balanced_lift (level_position _ _ _)).bind fun _ => balanced_lift (level_load _ _)
  | arith m op l r =>
    exact (hrun l).bind fun _ => (hrun r).bind fun _ => balanced_lift (level_arithmetic _ _ _ _)
  | compare m op l r =>
    exact (hrun l).bind fun _ => (hrun r).bind fun _ => balanced_lift (level_comparison _ _ _ _)
  | logic m op l r =>
    refine (hrun l).bind fun _ => (balanced_lift (level_truth _ _)).bind fun _ => ?_
    refine Balanced.ite (fun _ => balanced_pure _) fun _ => ?_
    refine Balanced.ite (fun _ => balanced_pure _) fun _ => (hrun r).bind fun _ => ?_
    exact (balanced_lift (level_truth _ _)).bind fun _ => balanced_pure _
  | not m x =>
    refine (hrun x).bind fun v => ?_
    cases v with
    | bool b => exact balanced_pure _
    | _ => exact balanced_fail _ _
  | incDec x => exact balanced_incDec hrun x
  | collection m kind es =>
    exact (balanced_values hrun es _).bind fun _ => balanced_lift (level_allocate _ _)
  | sized m kind size gen =>
    refine (hrun size).bind fun v => ?_
    cases v with
    | int n =>
      refine Balanced.unless (balanced_fail _ _) fun _ => ?_
      cases gen.params with
      | nil => exact balanced_fail _ _
      | cons p ps =>
        refine (balanced_lift (level_symbolOf p.name)).bind fun param => ?_
        refine (balanced_generate param.id (hrun gen.body) _ _ _).bind fun _ => ?_
        exact balanced_lift (level_allocate _ _)
    | _ => exact balanced_fail _ _
  | lambda l => exact (balanced_lift (level_captureAll _ _)).bind fun _ => balanced_pure _
  | call c =>
    obtain ⟨m, callee, args⟩ := c
    refine (balanced_lift (level_read F callee)).bind fun f => ?_
    refine (balanced_values hrun args _).bind fun vs => ?_
    exact balanced_apply (fun calls => balanced_sequence (hstmt calls)) hexpr _ _ _ _
  | range r => exact balanced_fail _ _

omit hstmt in
theorem balanced_compound (tok : Token) (target : Target) (op : String) (value : Expr) :
    Balanced calls (stmt F (fuel + 1) (.compound tok target op value)) := by
  have hrun := hexpr calls
  unfold stmt
  cases target with
  | name id =>
    refine (balanced_lift (level_symbolOf id)).bind fun sym => ?_
    refine (balanced_lift (level_variableOf id sym)).bind fun _ => (hrun value).bind fun _ => ?_
    refine (balanced_lift (level_arithmetic _ _ _ _)).bind fun _ => ?_
    exact (balanced_put _ _ _).bind fun _ => balanced_pure _
  | element m base index =>
    refine (balanced_element hrun base index).bind fun p => ?_
    refine (balanced_lift (level_position _ _ _)).bind fun _ => (hrun value).bind fun _ => ?_
    refine (balanced_lift (level_load _ _)).bind fun _ => ?_
    refine (balanced_lift (level_arithmetic _ _ _ _)).bind fun _ => ?_
    exact (balanced_lift (level_store _ _ _)).bind fun _ => balanced_pure _

theorem balanced_forLoop (tok : Token) (x : Ident) (header : Header) (body : Block) :
    Balanced calls (stmt F (fuel + 1) (.forLoop tok x header body)) := by
  have hrun := hexpr calls
  have hbody : Balanced calls (sequence (stmt F fuel) body.stmts) := balanced_sequence (hstmt calls) body.stmts
  unfold stmt
  cases header with
  | range r =>
    obtain ⟨m, first, last, step⟩ := r
    refine (balanced_lift (level_symbolOf x)).bind fun sym => ?_
    refine (balanced_bound hrun first).bind fun a => (balanced_bound hrun last).bind fun b => ?_
    have hloop (n : Int32) : Balanced calls ((pure n : Watched Int32) >>= fun by_ =>
        rangeLoop sym.id b by_ (sequence (stmt F fuel) body.stmts) a.toInt64) :=
      (balanced_pure n).bind fun _ => balanced_rangeLoop hbody _ _ _ _
    cases step with
    | none => exact hloop 1
    | some e =>
      exact (balanced_bound hrun e).bind fun c =>
        Balanced.unless (balanced_fail _ _) fun _ => hloop c
  | each e =>
    refine (balanced_lift (level_symbolOf x)).bind fun sym => (hrun e).bind fun v => ?_
    cases v with
    | collection kind a =>
      refine (balanced_lift (level_length a)).bind fun _ => ?_
      exact balanced_elementLoop hbody _ _ _ _
    | _ => exact balanced_fail _ _

theorem balanced_stmt_succ (s : Stmt) : Balanced calls (stmt F (fuel + 1) s) := by
  have hrun := hexpr calls
  have hblock (b : Block) : Balanced calls (sequence (stmt F fuel) b.stmts) :=
    balanced_sequence (hstmt calls) b.stmts
  have hcond (tok : Token) (e : Expr) :
      Balanced calls (do Eval.truth tok (← expr F fuel e)) :=
    (hrun e).bind fun _ => balanced_lift (level_truth _ _)
  unfold stmt
  cases s with
  | decl tok isMutable name ty value =>
    refine (balanced_lift (level_symbolOf name)).bind fun sym => ?_
    cases value with
    | none => exact (balanced_put _ _ _).bind fun _ => balanced_pure _
    | some e => exact (hrun e).bind fun _ => (balanced_put _ _ _).bind fun _ => balanced_pure _
  | assign tok target value =>
    cases target with
    | name id =>
      refine (balanced_lift (level_symbolOf id)).bind fun sym => (hrun value).bind fun _ => ?_
      exact (balanced_put _ _ _).bind fun _ => balanced_pure _
    | element m base index =>
      refine (balanced_element hrun base index).bind fun p => (hrun value).bind fun _ => ?_
      refine (balanced_lift (level_position _ _ _)).bind fun _ => ?_
      exact (balanced_lift (level_store _ _ _)).bind fun _ => balanced_pure _
  | compound tok target op value => exact balanced_compound hexpr tok target op value
  | selfOp tok e => exact (balanced_incDec hrun e).bind fun _ => balanced_pure _
  | print tok newline value =>
    have hemit (text : String) :
        Balanced calls (liftM (Eval.emit text) >>= fun _ => (pure Flow.next : Watched Flow)) :=
      (balanced_lift (level_emit text)).bind fun _ => balanced_pure _
    cases value with
    | none => exact (balanced_pure "").bind fun _ => hemit _
    | some e =>
      exact (hrun e).bind fun v => (balanced_lift (level_shown tok v)).bind fun _ => hemit _
  | ifElse tok cond a b =>
    refine (hrun cond).bind fun _ => (balanced_lift (level_truth _ _)).bind fun _ => ?_
    refine Balanced.ite (fun _ => hblock a) fun _ => ?_
    cases b with
    | none => exact balanced_pure _
    | some b => exact hblock b
  | whileLoop tok cond body => exact balanced_whileLoop (hblock body) tok (hcond _ cond) fuel
  | forLoop tok x header body => exact balanced_forLoop hexpr hstmt tok x header body
  | function f => exact balanced_fail _ _
  | call tok c => exact (hrun (.call c)).bind fun _ => balanced_pure _
  | ret tok value =>
    cases value with
    | none => exact balanced_pure _
    | some e => exact (hrun e).bind fun _ => balanced_pure _
  | brk tok => exact balanced_pure _
  | cont tok => exact balanced_pure _
  | block b => exact hblock b

end Fuel

theorem balanced_expr_stmt (F : List FunDecl) (fuel : Nat) :
    (∀ calls e, Balanced calls (expr F fuel e)) ∧ ∀ calls s, Balanced calls (stmt F fuel s) := by
  induction fuel with
  | zero =>
    refine ⟨fun _ e => ?_, fun _ s => ?_⟩
    · unfold expr
      exact balanced_fail _ _
    · unfold stmt
      exact balanced_fail _ _
  | succ fuel ih =>
    exact ⟨fun _ => balanced_expr_succ ih.1 ih.2, fun _ => balanced_stmt_succ ih.1 ih.2⟩

end Watched

/-! ## Whole programs -/

/-- However an expression or a statement ends, the calls that were active before are active
afterwards; in between others come and go above them, never too many. The failure of a program has for
its trace the calls that were active at the step that failed, and it is reported with them. -/
theorem Checked.calls_balanced (c : Checked) (fuel : Nat) :
    (∀ e m, Watched.Around m.calls ((Watched.expr c.functions fuel e).active m)
      (Eval.expr c.functions fuel e m)) ∧
    (∀ s m, Watched.Around m.calls ((Watched.stmt c.functions fuel s).active m)
      (Eval.stmt c.functions fuel s m)) ∧
    (∀ s ∈ (c.watched fuel).active .start, s.length ≤ Machine.maxDepth) ∧
    match Eval.sequence (Eval.stmt c.functions fuel) c.program.script .start with
    | .ok _ m => m.calls = []
    | .error f m => m.calls = [] ∧ ((c.watched fuel).active .start).getLast? = some f.trace ∧
      c.runWith fuel = ⟨m.out, some (f.toDiagnostic c.program.file)⟩ := by
  obtain ⟨hexpr, hstmt⟩ := Watched.balanced_expr_stmt c.functions fuel
  have hscript : Watched.Around [] ((c.watched fuel).active .start)
      (Eval.sequence (Eval.stmt c.functions fuel) c.program.script .start) :=
    c.run_watched fuel ▸ Watched.balanced_sequence (hstmt []) c.program.script .start rfl
  refine ⟨fun e m => Watched.run_expr fuel e ▸ hexpr m.calls e m rfl,
    fun s m => Watched.run_stmt fuel s ▸ hstmt m.calls s m rfl, hscript.bounded, ?_⟩
  cases hrun : Eval.sequence (Eval.stmt c.functions fuel) c.program.script .start with
  | ok flow m =>
    rw [hrun] at hscript
    exact hscript.back
  | error f m =>
    rw [hrun] at hscript
    obtain ⟨s, hlast, hs⟩ := hscript.raised f m rfl
    refine ⟨hscript.back, ?_, ?_⟩
    · rcases hs with rfl | ⟨hnone, rfl⟩
      · exact hlast
      · rw [hlast, hnone]
    · unfold runWith
      rw [hrun]

end Kotlet

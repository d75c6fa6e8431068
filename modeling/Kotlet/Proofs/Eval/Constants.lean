import Kotlet.Proofs.Accepted
import Kotlet.Proofs.Eval.Ledger
import Kotlet.Proofs.Eval.Tame
import Kotlet.Proofs.Typing.AssignmentCheck

/-!
# Runs of accepted programs keep their constants

A run is followed with the ledger of its activation.

* `Watched.Abides` : steps whose events the ledger admits;
* `Watched.Keeps` : steps that leave the ledger as it is, like those of an expression;
* `Ledger.Fits`, `Ledger.Follows` : what the ledger says beside a tree that keeps its constants,
  before and after a statement;
* `Watched.abides_expr_stmt` : expressions and statements, by induction on the fuel;
* `Checked.OfText.constants_kept` : a run of an accepted program. Where the checker forgets what
  was assigned, a constant may be assigned again: `assigned_twice`.
-/

namespace Kotlet

/-! ## Ledgers -/

/-- How strictly activations are followed that do (or do not) tell how often constants are
assigned. -/
def Event.Rigor.of (once : Bool) : Event.Rigor := if once then .strict else .loose

theorem Event.Rigor.of_ne_closed (once : Bool) : Rigor.of once ≠ .closed := by
  cases once <;> decide

/-- What the ledger says where `Γ` are the variables, `D` the constants to be assigned, and `A`
tells which ones may have been. -/
structure Ledger.Fits (once : Bool) (Γ : List Symbol) (D : List SymbolId) (A : SymbolId → Prop)
    (L : Ledger) : Prop where
  free : ∀ sym ∈ Γ, sym.constant = false → L sym.id = .free
  fresh : ∀ id ∈ D, (once = true → ¬ A id) → L id = .fresh
  known : ∀ id ∈ D, ∃ sym ∈ Γ, sym.id = id

/-- The ledgers agree on some variables. -/
def Ledger.Agrees (Γ : List Symbol) (L L' : Ledger) : Prop := ∀ sym ∈ Γ, L' sym.id = L sym.id

/-- What the ledger says after statements: nothing has happened to variables that may not be
assigned, and unless they jumped, `Γ'`, `D'` and `A'` describe it. -/
structure Ledger.Follows (once : Bool) (Γ : List Symbol) (D : List SymbolId) (Γ' : List Symbol)
    (D' : List SymbolId) (A' : SymbolId → Prop) (L L' : Ledger) (flow : Flow) : Prop where
  frame : ∀ sym ∈ Γ, (once = true → sym.id ∉ D) → L' sym.id = L sym.id
  fits : flow = .next → L'.Fits once Γ' D' A'

namespace Ledger

variable {once : Bool} {Γ Γ' : List Symbol} {D D' : List SymbolId} {A A' : SymbolId → Prop}
  {L L' L'' : Ledger} {flow : Flow}

/-- Where an activation begins. -/
theorem fits_start (once : Bool) : Fits once [] [] (fun _ => False) fun _ => .free :=
  ⟨by simp, by simp, by simp⟩

theorem Fits.later (h : L.Fits once Γ D A) (hA : Later D A A') : L.Fits once Γ D A' :=
  ⟨h.free, fun id hid hno => h.fresh id hid fun ho ha => hno ho (hA id hid ha), h.known⟩

theorem Fits.subset (h : L.Fits once Γ' D' A) (hΓ : ∀ sym ∈ Γ, sym ∈ Γ') (hD : ∀ id ∈ D, id ∈ D')
    (hk : ∀ id ∈ D, ∃ sym ∈ Γ, sym.id = id) : L.Fits once Γ D A :=
  ⟨fun sym hsym => h.free sym (hΓ sym hsym), fun id hid => h.fresh id (hD id hid), hk⟩

theorem Fits.agrees (h : L.Fits once Γ D A) (ha : Agrees Γ L L') : L'.Fits once Γ D A := by
  refine ⟨fun sym hsym hc => (ha sym hsym).trans (h.free sym hsym hc), fun id hid hno => ?_, h.known⟩
  obtain ⟨sym, hsym, rfl⟩ := h.known id hid
  exact (ha sym hsym).trans (h.fresh _ hid hno)

theorem Fits.inside (h : L.Fits once Γ D A) : L.Fits once Γ (inside once D) A := by
  have hsub : ∀ id ∈ Kotlet.inside once D, id ∈ D := by
    intro id hid
    unfold Kotlet.inside at hid
    split at hid
    · cases hid
    · exact hid
  exact h.subset (fun _ h => h) hsub fun id hid => h.known id (hsub id hid)

theorem Agrees.refl (Γ : List Symbol) (L : Ledger) : Agrees Γ L L := fun _ _ => rfl

theorem Agrees.trans (h : Agrees Γ L L') (h' : Agrees Γ L' L'') : Agrees Γ L L'' :=
  fun sym hsym => (h' sym hsym).trans (h sym hsym)

/-- A turn of a loop leaves the variables around the loop alone. -/
theorem Follows.agrees (h : Follows once Γ (inside once D) Γ' D' A' L L' flow) : Agrees Γ L L' := by
  refine fun sym hsym => h.frame sym hsym fun ho => ?_
  rw [ho]
  exact List.not_mem_nil

/-- Statements that leave the ledger as it is. -/
theorem Fits.follows (h : L.Fits once Γ D A) (hA : Later D A A') (flow : Flow) :
    Follows once Γ D Γ D A' L L flow :=
  ⟨fun _ _ _ => rfl, fun _ => h.later hA⟩

/-- After a loop. -/
theorem Fits.follows_loop (h : L.Fits once Γ D A) (hA : Later D A A') (ha : Agrees Γ L L')
    (flow : Flow) : Follows once Γ D Γ D A' L L' flow :=
  ⟨fun sym hsym _ => ha sym hsym, fun _ => (h.agrees ha).later hA⟩

end Ledger

/-- Variables that stay variables. -/
theorem Stmt.subset_declares (s : Stmt) (Γ : List Symbol) : ∀ sym ∈ Γ, sym ∈ s.declares Γ := by
  intro sym hsym
  cases s <;> first | exact hsym | exact List.mem_append_right _ hsym

theorem Stmt.subset_leaves (s : Stmt) (D : List SymbolId) : ∀ id ∈ D, id ∈ s.leaves D := by
  intro id hid
  unfold Stmt.leaves
  split
  · exact List.mem_append_right _ hid
  · exact hid

/-- A declaration makes only its own variable one to be assigned. -/
theorem Stmt.Assigns.not_mem_leaves {once : Bool} {Γ : List Symbol} {D : List SymbolId}
    {A A' : SymbolId → Prop} {s : Stmt} (h : s.Assigns once Γ D A A') {sym : Symbol}
    (hsym : sym ∈ Γ) (hD : sym.id ∉ D) : sym.id ∉ s.leaves D := by
  unfold Stmt.leaves
  split
  · obtain ⟨⟨new, hnew, -, hfresh⟩, -⟩ := h
    rw [hnew]
    exact List.not_mem_cons_of_ne_of_not_mem (hfresh sym hsym) hD
  · exact hD

namespace Watched

open Event Ledger

variable {α β : Type} {F : List FunDecl} {rigors : String → Rigor} {rigor : Rigor} {L : Ledger}

/-- From tame machines on, the ledger admits the events of the steps, and `P` holds of the ledger
afterwards and of the result. -/
def Abides (F : List FunDecl) (rigors : String → Rigor) (rigor : Rigor) (L : Ledger)
    (x : Watched α) (P : Ledger → α → Prop) : Prop :=
  ∀ m : Machine, m.Tame F → AllAdmitted rigors rigor L (x.events m) ∧
    Eval.Ends x.run m (fun _ _ => True) fun a m' =>
      m'.Tame F ∧ P (afterAll rigor L (x.events m)) a

/-- Steps that leave the ledger as it is. -/
def Keeps (F : List FunDecl) (rigors : String → Rigor) (rigor : Rigor) (L : Ledger)
    (x : Watched α) (P : α → Prop) : Prop :=
  Abides F rigors rigor L x fun L' a => L' = L ∧ P a

/-! ## Steps put together -/

section Steps

variable {x : Watched α} {P P' : Ledger → α → Prop} {Q : Ledger → β → Prop} {p p' : α → Prop}
  {q : β → Prop}

theorem Abides.mono (h : Abides F rigors rigor L x P) (hp : ∀ L' a, P L' a → P' L' a) :
    Abides F rigors rigor L x P' := by
  intro m hm
  obtain ⟨hadm, hends⟩ := h m hm
  exact ⟨hadm, hends.mono fun a m' ⟨hm', ha⟩ => ⟨hm', hp _ a ha⟩⟩

/-- Steps that fail cause no more events. -/
theorem events_bind_error {m m' : Machine} {e : Fault} (h : x.run m = .error e m')
    (f : α → Watched β) : (x >>= f).events m = x.events m := by
  change x.events m ++ _ = _
  rw [h, List.append_nil]

theorem events_bind_ok {m m' : Machine} {a : α} (h : x.run m = .ok a m') (f : α → Watched β) :
    (x >>= f).events m = x.events m ++ (f a).events m' := by
  change x.events m ++ _ = _
  rw [h]

theorem Abides.bind {f : α → Watched β} (h : Abides F rigors rigor L x P)
    (hf : ∀ L' a, P L' a → Abides F rigors rigor L' (f a) Q) :
    Abides F rigors rigor L (x >>= f) Q := by
  intro m hm
  obtain ⟨hadm, hends⟩ := h m hm
  rw [run_bind, Eval.ends_bind]
  unfold Eval.Ends at hends ⊢
  cases hx : x.run m with
  | error e m' =>
    rw [events_bind_error hx]
    exact ⟨hadm, trivial⟩
  | ok a m' =>
    rw [hx] at hends
    obtain ⟨hadm', hends'⟩ := hf _ a hends.2 m' hends.1
    rw [events_bind_ok hx, allAdmitted_append, afterAll_append]
    exact ⟨⟨hadm, hadm'⟩, hends'⟩

theorem Abides.ite {c : Prop} [Decidable c] {y : Watched α} (hx : c → Abides F rigors rigor L x P)
    (hy : ¬ c → Abides F rigors rigor L y P) :
    Abides F rigors rigor L (if c then x else y) P := by
  by_cases h : c
  · rw [if_pos h]; exact hx h
  · rw [if_neg h]; exact hy h

theorem Keeps.bind_abides {f : α → Watched β} (h : Keeps F rigors rigor L x p)
    (hf : ∀ a, p a → Abides F rigors rigor L (f a) Q) : Abides F rigors rigor L (x >>= f) Q :=
  Abides.bind h fun _ a ⟨hL, ha⟩ => hL ▸ hf a ha

theorem Keeps.bind {f : α → Watched β} (h : Keeps F rigors rigor L x p)
    (hf : ∀ a, p a → Keeps F rigors rigor L (f a) q) : Keeps F rigors rigor L (x >>= f) q :=
  h.bind_abides hf

theorem abides_pure {a : α} (h : P L a) : Abides F rigors rigor L (pure a) P :=
  fun _ hm => ⟨trivial, hm, h⟩

theorem keeps_pure {a : α} (h : p a) : Keeps F rigors rigor L (pure a) p := abides_pure ⟨rfl, h⟩

/-- Steps of the evaluator that nobody watches. -/
theorem keeps_lift {x : Eval α} (h : Eval.Quiet F x p) : Keeps F rigors rigor L (liftM x) p :=
  fun m hm => ⟨trivial, (h m hm).mono fun _ _ ⟨hm', ha⟩ => ⟨hm', rfl, ha⟩⟩

theorem abides_fail (cause : Fault.Cause) (t : Token) :
    Abides F rigors rigor L (liftM (Eval.fail cause t : Eval α)) P := fun _ _ => ⟨trivial, trivial⟩

theorem keeps_fail (cause : Fault.Cause) (t : Token) :
    Keeps F rigors rigor L (liftM (Eval.fail cause t : Eval α)) p := abides_fail cause t

/-- A check that must be passed to go on; `x` only fails. -/
theorem Keeps.unless {c : Prop} [Decidable c] {x : Watched Unit} {f : Unit → Watched α}
    (hx : Keeps F rigors rigor L x fun _ => False) (hf : ¬ c → Keeps F rigors rigor L (f ()) p) :
    Keeps F rigors rigor L (if c then x >>= f else f ()) p :=
  Abides.ite (fun _ => hx.bind fun _ h => h.elim) hf

theorem Abides.traced (h : Abides F rigors rigor L x P) :
    Abides F rigors rigor L (traced x) P :=
  fun m hm => ⟨(h m hm).1, (h m hm).2.traced fun _ _ _ _ => trivial⟩

theorem Abides.onFreshStack (h : Abides F rigors rigor L x P) (fresh : Bool) :
    Abides F rigors rigor L (onFreshStack fresh x) P := by
  intro m hm
  rw [run_onFreshStack, Eval.onFreshStack_eq]
  exact h m hm

theorem Abides.ending {f : Machine → Machine} (h : Abides F rigors rigor L x P)
    (hf : ∀ m : Machine, m.Tame F → (f m).Tame F) : Abides F rigors rigor L (ending f x) P := by
  intro m hm
  obtain ⟨hadm, hends⟩ := h m hm
  rw [run_ending, Eval.ends_finally]
  · exact ⟨hadm, hends.mono fun a m' ⟨hm', ha⟩ => ⟨hf m' hm', ha⟩⟩
  · exact fun _ _ => Iff.rfl

/-- An event and the store that it tells of. -/
theorem abides_put {e : Event} {id : SymbolId} {v : Value} {P : Ledger → Unit → Prop}
    (he : e.Admitted rigors rigor L) (hv : v.Tame F) (hP : P (e.after rigor L) ()) :
    Abides F rigors rigor L (put e id v) P := by
  intro m hm
  exact ⟨⟨he, trivial⟩, ⟨hm.vars.insert id hv, hm.heap⟩, hP⟩

end Steps

/-! ## Pieces of expressions -/

/-- How an expression runs: it leaves the ledger as it is, if that leaves the variables free that
it may store to. -/
def KeepsExpr (F : List FunDecl) (rigors : String → Rigor) (run : Expr → Watched Value) : Prop :=
  ∀ {e : Expr} {V : List Symbol} {rigor : Rigor} {L : Ledger}, e.Steady V →
    (∀ sym ∈ V, rigor ≠ .closed ∧ L sym.id = .free) →
    Keeps F rigors rigor L (run e) (Value.Tame F)

section Pieces

variable {run : Expr → Watched Value} (hrun : KeepsExpr F rigors run) {V : List Symbol}
  (hV : ∀ sym ∈ V, rigor ≠ .closed ∧ L sym.id = .free)
include hrun hV

theorem keeps_element {base : Ident} {index : Expr} (h : index.Steady V) :
    Keeps F rigors rigor L (element F run base index) fun _ => True := by
  refine (keeps_lift (Eval.quiet_read base)).bind fun c _ => (hrun h hV).bind fun i _ => ?_
  cases i with
  | int n =>
    cases c with
    | collection kind a => exact keeps_pure trivial
    | _ => exact keeps_fail _ _
  | _ => exact keeps_fail _ _

theorem keeps_interpolate {tok : Token} : ∀ {splices : List Splice} {pos : Nat} {rest : List Char}
    {acc : String}, Splice.Steady V splices →
    Keeps F rigors rigor L (interpolate run tok pos rest acc splices) fun _ => True
  | [], _, _, _, _ => keeps_pure trivial
  | .mk _ _ :: _, _, _, _, h =>
    Keeps.unless (keeps_fail _ _) fun _ => (hrun h.1 hV).bind fun v _ =>
      (keeps_lift (Eval.quiet_shown tok v)).bind fun _ _ => keeps_interpolate h.2

theorem keeps_values : ∀ {es : List Expr} {acc : Array Value}, Expr.AllSteady V es →
    (∀ v ∈ acc, v.Tame F) →
    Keeps F rigors rigor L (values run acc es) fun vs => ∀ v ∈ vs, v.Tame F
  | [], _, _, hacc => keeps_pure hacc
  | e :: es, acc, h, hacc => by
    refine (hrun h.1 hV).bind fun v hv => keeps_values h.2 fun w hw => ?_
    rcases Array.mem_push.mp hw with hw | rfl
    · exact hacc w hw
    · exact hv

theorem keeps_bound {e : Expr} (h : e.Steady V) :
    Keeps F rigors rigor L (bound run e) fun _ => True := by
  refine (hrun h hV).bind fun v _ => ?_
  cases v with
  | int n => exact keeps_pure trivial
  | _ => exact keeps_fail _ _

theorem keeps_incDec {e : IncDec} (h : e.Steady V) :
    Keeps F rigors rigor L (incDec F run e) (Value.Tame F) := by
  obtain ⟨m, op, before, target⟩ := e
  cases target with
  | name id =>
    obtain ⟨sym, hsym, hid⟩ := h
    refine (keeps_lift (Eval.quiet_symbolOf id)).bind fun sym' hid' => ?_
    obtain rfl : sym = sym' := Option.some.inj (hid.symm.trans hid')
    refine (keeps_lift (Eval.quiet_variableOf id sym)).bind fun v _ => ?_
    cases v with
    | int n =>
      refine Keeps.bind (p := fun _ => True) (abides_put (hV sym hsym) (.int _) ⟨rfl, trivial⟩)
        fun _ _ => keeps_pure (.int _)
    | _ => exact keeps_fail _ _
  | element em base index =>
    refine (keeps_element hrun hV h).bind fun p _ => ?_
    refine (keeps_lift (Eval.quiet_position em.tok p.1 p.2)).bind fun i _ => ?_
    refine (keeps_lift (Eval.quiet_load p.1 i)).bind fun v _ => ?_
    cases v with
    | int n =>
      exact (keeps_lift (Eval.quiet_store p.1 i (.int _))).bind fun _ _ => keeps_pure (.int _)
    | _ => exact keeps_fail _ _

omit hrun hV in
theorem keeps_generate {param : SymbolId} {body : Watched Value}
    (hbody : Keeps F rigors rigor L body (Value.Tame F)) : ∀ {count i : Nat} {acc : Array Value},
    (∀ v ∈ acc, v.Tame F) →
    Keeps F rigors rigor L (generate param body count i acc) fun vs => ∀ v ∈ vs, v.Tame F
  | 0, _, _, hacc => keeps_pure hacc
  | count + 1, i, acc, hacc => by
    refine (keeps_lift (Eval.quiet_assign param (.int _))).bind fun _ _ => hbody.bind fun v hv => ?_
    refine keeps_generate hbody fun w hw => ?_
    rcases Array.mem_push.mp hw with hw | rfl
    · exact hacc w hw
    · exact hv

end Pieces

/-! ## Calls -/

/-- How the statements of a function run, from the moment where nothing is declared. -/
def KeepsBodies (F : List FunDecl) (rigors : String → Rigor) (run : List Stmt → Watched Flow) :
    Prop :=
  ∀ f ∈ F, Abides F rigors (rigors f.name.name) (fun _ => .free) (run f.body.stmts) fun _ flow =>
    ∀ v, flow = .returned v → v.Tame F

/-- A call runs in an activation of its own, where everything is free. -/
theorem keeps_inCall {event : List Event → Event} {rigor' : Rigor}
    (he : ∀ es, (event es).Admitted rigors rigor L ↔
      AllAdmitted rigors rigor' (fun _ => .free) es)
    (ha : ∀ es, (event es).after rigor L = L) {frame : Frame} {vars : Activation}
    {ps : List Param} {args : List Value} {tok : Token} {body : Watched α} {p : α → Prop}
    (hvars : vars.Tame F) (hargs : ∀ v ∈ args, v.Tame F)
    (hbody : Abides F rigors rigor' (fun _ => .free) body fun _ a => p a) :
    Keeps F rigors rigor L (inCall event frame vars ps args tok body) p := by
  have hset : Eval.Quiet F (modify fun m => { m with vars := vars }) fun _ => True :=
    fun m hm => ⟨⟨hvars, hm.heap⟩, trivial⟩
  have hpush : Eval.Quiet F (modify fun m => { m with calls := frame :: m.calls }) fun _ => True :=
    fun m hm => ⟨⟨hm.vars, hm.heap⟩, trivial⟩
  have hinside : Keeps F rigors rigor L (activation event body) p := by
    intro m hm
    obtain ⟨hadm, hends⟩ := hbody m hm
    exact ⟨⟨(he _).mpr hadm, trivial⟩, hends.mono fun a m' ⟨hm', hp⟩ => ⟨hm', ha _, hp⟩⟩
  unfold inCall
  refine Keeps.unless (keeps_fail _ _) fun _ => (keeps_lift Eval.quiet_get).bind fun m₀ hm₀ => ?_
  refine (keeps_lift hset).bind fun _ _ => Abides.ending ?_ fun m hm => ⟨hm₀.vars, hm.heap⟩
  refine (keeps_lift (Eval.quiet_bindParams ps args hargs)).bind fun _ _ => ?_
  refine (keeps_lift hpush).bind fun _ _ => Abides.ending ?_ fun m hm => ⟨hm.vars, hm.heap⟩
  exact (keeps_lift Eval.quiet_get).bind fun _ _ => (Abides.onFreshStack hinside _).traced

theorem keeps_apply {run : Expr → Watched Value} {runStmts : List Stmt → Watched Flow}
    (hrun : KeepsExpr F rigors run) (hstmts : KeepsBodies F rigors runStmts) {name : String}
    {tok : Token} {callee : Value} {args : List Value} (hc : callee.Tame F)
    (hargs : ∀ v ∈ args, v.Tame F) :
    Keeps F rigors rigor L (apply runStmts run name tok callee args) (Value.Tame F) := by
  refine (keeps_lift Eval.quiet_get).bind fun m _ => Keeps.unless (keeps_fail _ _).traced fun _ => ?_
  cases hc with
  | @function f hf =>
    refine (keeps_inCall (fun _ => Iff.rfl) (fun _ => rfl) .empty hargs (hstmts f hf)).bind
      fun flow hflow => ?_
    cases flow with
    | returned v => exact keeps_pure (hflow v rfl)
    | _ => exact Abides.ite (fun _ => keeps_pure .unit) fun _ => keeps_fail _ _
  | @closure l captured hl hcaptured =>
    have hbody : l.body.Steady [] := by
      obtain ⟨m, ps, body, caps⟩ := l
      exact hl
    have hrun' : Abides F rigors .closed (fun _ => .free) (run l.body) fun _ v => v.Tame F :=
      Abides.mono (hrun hbody (by simp)) fun _ _ h => h.2
    refine (keeps_inCall (fun _ => Iff.rfl) (fun _ => rfl) (.ofList hcaptured) hargs hrun').bind
      fun v hv => ?_
    split
    · refine keeps_pure ?_
      split
      · exact .unit
      · exact hv
    · exact keeps_pure hv
  | _ => exact keeps_fail _ _

/-! ## Statements -/

/-- How a statement runs: its events are admitted, and where it always jumps it does not go on. -/
def AbidesStmt (F : List FunDecl) (rigors : String → Rigor) (run : Stmt → Watched Flow) : Prop :=
  ∀ {s : Stmt} {once : Bool} {Γ : List Symbol} {D : List SymbolId} {A A' : SymbolId → Prop}
    {L : Ledger}, s.Assigns once Γ D A A' → L.Fits once Γ D A →
    Abides F rigors (.of once) L (run s) fun L' flow =>
      Follows once Γ D (s.declares Γ) (s.leaves D) A' L L' flow ∧
        (s.alwaysJumps = true → flow ≠ .next) ∧ ∀ v, flow = .returned v → v.Tame F

/-- How statements run in order, seen from where they begin. -/
def AbidesStmts (F : List FunDecl) (rigors : String → Rigor) (run : List Stmt → Watched Flow) :
    Prop :=
  ∀ {ss : List Stmt} {once : Bool} {Γ : List Symbol} {D : List SymbolId} {A A' : SymbolId → Prop}
    {L : Ledger}, Stmt.ListAssigns once Γ D A A' ss → L.Fits once Γ D A →
    Abides F rigors (.of once) L (run ss) fun L' flow =>
      Follows once Γ D Γ D A' L L' flow ∧
        (listAlwaysJumps ss = true → flow ≠ .next) ∧ ∀ v, flow = .returned v → v.Tame F

theorem abidesStmts_sequence {run : Stmt → Watched Flow} (h : AbidesStmt F rigors run) :
    AbidesStmts F rigors (sequence run) := by
  intro ss
  induction ss with
  | nil =>
    intro once Γ D A A' L hss hL
    exact abides_pure ⟨hL.follows hss _, by simp [listAlwaysJumps], fun _ h => by cases h⟩
  | cons s ss ih =>
    intro once Γ D A A' L hss hL
    obtain ⟨A₀, A₁, hA, hs, hss⟩ := hss
    refine (h hs (hL.later hA)).bind fun L₁ flow ⟨hfollows, hjumps, hvalue⟩ => ?_
    cases flow with
    | next =>
      refine (ih hss (hfollows.fits rfl)).mono fun L₂ flow ⟨hrest, hrestJumps, hrestValue⟩ => ?_
      refine ⟨⟨fun sym hsym hD => ?_, fun hn => ?_⟩, fun hj => ?_, hrestValue⟩
      · have hin := s.subset_declares Γ sym hsym
        rw [hrest.frame sym hin fun ho => hs.not_mem_leaves hsym (hD ho)]
        exact hfollows.frame sym hsym hD
      · exact (hrest.fits hn).subset (s.subset_declares Γ) (s.subset_leaves D) hL.known
      · rw [listAlwaysJumps, Bool.or_eq_true] at hj
        exact hrestJumps (hj.resolve_left fun h => hjumps h rfl)
    | _ =>
      exact abides_pure ⟨⟨hfollows.frame, fun h => by cases h⟩, fun _ h => (by cases h), hvalue⟩

section Loops

variable {once : Bool} {Γ : List Symbol} {body : Watched Flow}
  (hbody : ∀ L', Agrees Γ L L' → Abides F rigors (.of once) L' body fun L'' flow =>
    Agrees Γ L L'' ∧ ∀ v, flow = .returned v → v.Tame F)
include hbody

/-- What a loop ends in when a turn ends it. -/
theorem abides_turn (L' : Ledger) (hL' : Agrees Γ L L') :
    Abides F rigors (.of once) L' (turn body) fun L'' o => Agrees Γ L L'' ∧
      ∀ v, o = some (.returned v) → v.Tame F := by
  refine (hbody L' hL').bind fun L'' flow ⟨hL'', hv⟩ => ?_
  cases flow with
  | returned v => exact abides_pure ⟨hL'', fun w hw => by cases hw; exact hv v rfl⟩
  | _ => exact abides_pure ⟨hL'', fun w hw => by cases hw⟩

theorem abides_whileLoop {tok : Token} {cond : Watched Bool}
    (hcond : ∀ L', Agrees Γ L L' → Keeps F rigors (.of once) L' cond fun _ => True) :
    ∀ (fuel : Nat) (L' : Ledger), Agrees Γ L L' →
      Abides F rigors (.of once) L' (whileLoop tok cond body fuel) fun L'' flow =>
        Agrees Γ L L'' ∧ ∀ v, flow = .returned v → v.Tame F
  | 0, _, _ => abides_fail _ _
  | fuel + 1, L', hL' => by
    refine (hcond L' hL').bind_abides fun c _ => Abides.ite (fun _ => ?_) fun _ => ?_
    · refine (abides_turn hbody L' hL').bind fun L'' o ⟨hL'', hv⟩ => ?_
      cases o with
      | none => exact abides_whileLoop hcond fuel L'' hL''
      | some flow => exact abides_pure ⟨hL'', fun v h => hv v (h ▸ rfl)⟩
    · exact abides_pure ⟨hL', fun _ h => by cases h⟩

theorem abides_rangeLoop {id : SymbolId} {last step : Int32} (n : Int64) : ∀ L' : Ledger,
    Agrees Γ L L' → Abides F rigors (.of once) L' (rangeLoop id last step body n) fun L'' flow =>
      Agrees Γ L L'' ∧ ∀ v, flow = .returned v → v.Tame F := by
  induction n using Eval.rangeLoop.induct last step with
  | case1 n hn ih =>
    intro L' hL'
    rw [rangeLoop, if_pos hn]
    refine (keeps_lift (Eval.quiet_assign id (.int _))).bind_abides fun _ _ => ?_
    refine (abides_turn hbody L' hL').bind fun L'' o h => ?_
    obtain ⟨hL'', hv⟩ := h
    cases o with
    | none => exact ih L'' hL''
    | some flow => exact abides_pure ⟨hL'', fun v h => hv v (h ▸ rfl)⟩
  | case2 n hn =>
    intro L' hL'
    rw [rangeLoop, if_neg hn]
    exact abides_pure ⟨hL', fun _ h => by cases h⟩

theorem abides_elementLoop {id : SymbolId} {address : Nat} : ∀ (count i : Nat) (L' : Ledger),
    Agrees Γ L L' → Abides F rigors (.of once) L' (elementLoop id address body count i)
      fun L'' flow => Agrees Γ L L'' ∧ ∀ v, flow = .returned v → v.Tame F
  | 0, _, _, hL' => abides_pure ⟨hL', fun _ h => by cases h⟩
  | count + 1, i, L', hL' => by
    refine (keeps_lift (Eval.quiet_load address i)).bind_abides fun v hv => ?_
    refine (keeps_lift (Eval.quiet_assign id hv)).bind_abides fun _ _ => ?_
    refine (abides_turn hbody L' hL').bind fun L'' o h => ?_
    obtain ⟨hL'', hv⟩ := h
    cases o with
    | none => exact abides_elementLoop count _ L'' hL''
    | some flow => exact abides_pure ⟨hL'', fun v h => hv v (h ▸ rfl)⟩

end Loops

/-! ## Expressions and statements -/

section Fuel

variable {fuel : Nat} (hbodies : KeepsBodies F rigors (sequence (stmt F fuel)))
  (hexpr : KeepsExpr F rigors (expr F fuel)) (hstmt : AbidesStmt F rigors (stmt F fuel))

include hbodies hexpr in
theorem keepsExpr_succ : KeepsExpr F rigors (expr F (fuel + 1)) := by
  intro e V rigor L h hV
  unfold expr
  cases e with
  | int m n => exact keeps_pure (.int n)
  | bool m b => exact keeps_pure (.bool b)
  | str m text splices =>
    cases splices with
    | nil => exact keeps_pure (.string text)
    | cons sp splices => exact (keeps_interpolate hexpr hV h).bind fun _ _ => keeps_pure (.string _)
  | read target =>
    cases target with
    | name id => exact keeps_lift (Eval.quiet_read id)
    | element m base index =>
      have hindex : index.Steady V := h
      refine (keeps_element hexpr hV hindex).bind fun p _ => ?_
      refine (keeps_lift (Eval.quiet_position m.tok p.1 p.2)).bind fun i _ => ?_
      exact keeps_lift (Eval.quiet_load p.1 i)
  | arith m op l r =>
    refine (hexpr h.1 hV).bind fun a _ => (hexpr h.2 hV).bind fun b _ => ?_
    exact keeps_lift (Eval.quiet_arithmetic m.tok op a b)
  | compare m op l r =>
    refine (hexpr h.1 hV).bind fun a _ => (hexpr h.2 hV).bind fun b _ => ?_
    exact keeps_lift (Eval.quiet_comparison m.tok op a b)
  | logic m op l r =>
    refine (hexpr h.1 hV).bind fun a _ => (keeps_lift (Eval.quiet_truth l.tok a)).bind fun t _ => ?_
    refine Abides.ite (fun _ => keeps_pure (.bool false)) fun _ => ?_
    refine Abides.ite (fun _ => keeps_pure (.bool true)) fun _ => (hexpr h.2 hV).bind fun b _ => ?_
    exact (keeps_lift (Eval.quiet_truth r.tok b)).bind fun t _ => keeps_pure (.bool t)
  | not m x =>
    have hx : x.Steady V := h
    refine (hexpr hx hV).bind fun v _ => ?_
    cases v with
    | bool b => exact keeps_pure (.bool _)
    | _ => exact keeps_fail _ _
  | incDec x => exact keeps_incDec hexpr hV h
  | collection m kind es =>
    exact (keeps_values hexpr hV h (by simp)).bind fun vs hvs =>
      keeps_lift (Eval.quiet_allocate kind hvs)
  | sized m kind size gen =>
    obtain ⟨lm, ps, body, caps⟩ := gen
    refine (hexpr h.1 hV).bind fun v _ => ?_
    cases v with
    | int n =>
      refine Keeps.unless (keeps_fail _ _) fun _ => ?_
      cases ps with
      | nil => exact keeps_fail _ _
      | cons p ps =>
        refine (keeps_lift (Eval.quiet_symbolOf p.name)).bind fun param _ => ?_
        refine (keeps_generate (hexpr h.2 (by simp)) (by simp)).bind fun es hes => ?_
        exact keeps_lift (Eval.quiet_allocate kind hes)
    | _ => exact keeps_fail _ _
  | lambda l =>
    refine (keeps_lift (Eval.quiet_captureAll l.mark.tok l.captures)).bind fun captured hc => ?_
    exact keeps_pure (.closure h hc)
  | call c =>
    obtain ⟨m, callee, args⟩ := c
    refine (keeps_lift (Eval.quiet_read callee)).bind fun f hf => ?_
    refine (keeps_values hexpr hV h (by simp)).bind fun vs hvs => ?_
    exact keeps_apply hexpr hbodies hf fun v hv => hvs v (by simpa using hv)
  | range r => exact keeps_fail _ _

/-- Steps of a statement that declares nothing and leaves the ledger as it is. -/
theorem Keeps.abides_stmt {once : Bool} {Γ : List Symbol} {D : List SymbolId}
    {A A' : SymbolId → Prop} {L : Ledger} {x : Watched Flow} {jumps : Bool}
    (hL : L.Fits once Γ D A) (hA : Later D A A')
    (hx : Keeps F rigors (.of once) L x fun flow => (jumps = true → flow ≠ .next) ∧
      ∀ v, flow = .returned v → v.Tame F) :
    Abides F rigors (.of once) L x fun L' flow => Follows once Γ D Γ D A' L L' flow ∧
      (jumps = true → flow ≠ .next) ∧ ∀ v, flow = .returned v → v.Tame F :=
  Abides.mono hx fun _ flow h => by
    obtain ⟨rfl, h⟩ := h
    exact ⟨hL.follows hA flow, h⟩

section Stmt

variable {once : Bool} {Γ : List Symbol} {D : List SymbolId} {A A' : SymbolId → Prop} {L : Ledger}

/-- Expressions of an activation that is followed may store to its variables. -/
theorem mutables_free (hL : L.Fits once Γ D A) :
    ∀ sym ∈ mutables Γ, Rigor.of once ≠ .closed ∧ L sym.id = .free := by
  intro sym hsym
  obtain ⟨hmem, hc⟩ := mem_mutables.mp hsym
  exact ⟨Rigor.of_ne_closed once, hL.free sym hmem hc⟩

/-- After a declaration. -/
theorem follows_declared (hL : L.Fits once Γ D A) (hA : Later D A A') {tok : Token}
    {isMutable : Bool} {name : Ident} {ty : Option Ty} {value : Option Expr} {sym : Symbol}
    (hsym : name.sym = some sym) (hc : sym.constant = !isMutable) (hfresh : ∀ x ∈ Γ, x.id ≠ sym.id) :
    Follows once Γ D ((Stmt.decl tok isMutable name ty value).declares Γ)
      ((Stmt.decl tok isMutable name ty value).leaves D) A' L
      (L.set sym.id (standing (!isMutable) value.isSome)) .next := by
  have hold : ∀ x ∈ Γ, L.set sym.id (standing (!isMutable) value.isSome) x.id = L x.id :=
    fun x hx => L.set_ne _ (hfresh x hx)
  have hkept := (hL.agrees hold).later hA
  have hdeclares : (Stmt.decl tok isMutable name ty value).declares Γ = sym :: Γ := by
    simp [Stmt.declares, hsym]
  refine ⟨fun x hx _ => hold x hx, fun _ => ⟨?_, ?_, ?_⟩⟩
  · rw [hdeclares]
    intro x hx hconst
    rcases List.mem_cons.mp hx with rfl | hx
    · rw [L.set_self, ← hc, hconst]
      rfl
    · exact hkept.free x hx hconst
  · intro id hid hno
    cases isMutable with
    | true => exact hkept.fresh id hid hno
    | false =>
      cases value with
      | some e => exact hkept.fresh id hid hno
      | none =>
        have hid' : id = sym.id ∨ id ∈ D := by simpa [Stmt.leaves, hsym] using hid
        rcases hid' with rfl | hid'
        · exact L.set_self _ _
        · exact hkept.fresh id hid' hno
  · rw [hdeclares]
    intro id hid
    have hid' : id = sym.id ∨ id ∈ D := by
      unfold Stmt.leaves at hid
      split at hid
      · rename_i heq
        cases heq
        simpa [hsym] using hid
      · exact .inr hid
    rcases hid' with rfl | hid'
    · exact ⟨sym, List.mem_cons_self, rfl⟩
    · obtain ⟨x, hx, rfl⟩ := hL.known id hid'
      exact ⟨x, List.mem_cons_of_mem _ hx, rfl⟩

/-- After an assignment. -/
theorem follows_assigned (hL : L.Fits once Γ D A) (hA : Later D A A') {sym : Symbol}
    (hsym : sym ∈ Γ)
    (hc : sym.constant = true → sym.id ∈ D ∧ ¬ A sym.id ∧ (once = true → A' sym.id)) :
    Follows once Γ D Γ D A' L ((assigned sym.id).after (.of once) L) .next := by
  have hkept := hL.later hA
  rw [after_assigned]
  split
  · rename_i hchange
    obtain ⟨hnew, hstrict⟩ := hchange
    have honce : once = true := by
      cases once with
      | true => rfl
      | false => cases hstrict
    have hconst : sym.constant = true := by
      cases h : sym.constant with
      | true => rfl
      | false =>
        rw [hL.free sym hsym h] at hnew
        cases hnew
    obtain ⟨hD, -, hA'⟩ := hc hconst
    refine ⟨fun x hx hD' => L.set_ne _ fun h => hD' honce (h ▸ hD), fun _ => ⟨?_, ?_, hL.known⟩⟩
    · intro x hx hx'
      rw [L.set_ne _ fun h => ?_]
      · exact hL.free x hx hx'
      · rw [← h, hL.free x hx hx'] at hnew
        cases hnew
    · intro id hid hno
      rw [L.set_ne _ fun h => hno honce (by rw [h]; exact hA' honce)]
      exact hkept.fresh id hid hno
  · exact ⟨fun _ _ _ => rfl, fun _ => hkept⟩

include hexpr in
theorem abides_decl {tok : Token} {isMutable : Bool} {name : Ident} {ty : Option Ty}
    {value : Option Expr} (h : (Stmt.decl tok isMutable name ty value).Assigns once Γ D A A')
    (hL : L.Fits once Γ D A) :
    Abides F rigors (.of once) L (stmt F (fuel + 1) (.decl tok isMutable name ty value))
      fun L' flow => Follows once Γ D ((Stmt.decl tok isMutable name ty value).declares Γ)
        ((Stmt.decl tok isMutable name ty value).leaves D) A' L L' flow ∧
        ((Stmt.decl tok isMutable name ty value).alwaysJumps = true → flow ≠ .next) ∧
        ∀ v, flow = .returned v → v.Tame F := by
  obtain ⟨⟨sym, hsym, hc, hfresh⟩, hv, hA⟩ := h
  -- The declaration itself, and the end of the statement.
  have hput {v : Value} (hv : v.Tame F) : Abides F rigors (.of once) L
      (put (.declared sym.id (!isMutable) value.isSome) sym.id v >>= fun _ => pure .next)
      fun L' flow => Follows once Γ D ((Stmt.decl tok isMutable name ty value).declares Γ)
        ((Stmt.decl tok isMutable name ty value).leaves D) A' L L' flow ∧
        ((Stmt.decl tok isMutable name ty value).alwaysJumps = true → flow ≠ .next) ∧
        ∀ v, flow = .returned v → v.Tame F := by
    refine Abides.bind (P := fun L' _ => L' = L.set sym.id (standing (!isMutable) value.isSome))
      (abides_put (Rigor.of_ne_closed once) hv rfl) fun L' _ hL' => abides_pure ?_
    subst hL'
    exact ⟨follows_declared hL hA hsym hc hfresh, by simp [Stmt.alwaysJumps], by simp⟩
  unfold stmt
  refine (keeps_lift (Eval.quiet_symbolOf name)).bind_abides fun sym' hsym' => ?_
  obtain rfl : sym = sym' := Option.some.inj (hsym.symm.trans hsym')
  cases value with
  | none => exact hput (.initial sym.ty)
  | some e => exact (hexpr (hv e rfl) (mutables_free hL)).bind_abides fun v hv => hput hv

include hexpr in
theorem abides_assign {tok : Token} {target : Target} {value : Expr}
    (h : (Stmt.assign tok target value).Assigns once Γ D A A') (hL : L.Fits once Γ D A) :
    Abides F rigors (.of once) L (stmt F (fuel + 1) (.assign tok target value)) fun L' flow =>
      Follows once Γ D Γ D A' L L' flow ∧
        ((Stmt.assign tok target value).alwaysJumps = true → flow ≠ .next) ∧
        ∀ v, flow = .returned v → v.Tame F := by
  have hfree := mutables_free hL
  unfold stmt
  cases target with
  | name id =>
    obtain ⟨hv, hA, sym, hsym, hid, hc⟩ := h
    refine (keeps_lift (Eval.quiet_symbolOf id)).bind_abides fun sym' hid' => ?_
    obtain rfl : sym = sym' := Option.some.inj (hid.symm.trans hid')
    refine (hexpr hv hfree).bind_abides fun v hv => ?_
    have hadmitted : L sym.id = .free ∨ L sym.id = .fresh := by
      cases hconst : sym.constant with
      | false => exact .inl (hL.free sym hsym hconst)
      | true =>
        obtain ⟨hD, hno, -⟩ := hc hconst
        exact .inr (hL.fresh _ hD fun _ => hno)
    refine Abides.bind (P := fun L' _ => L' = (assigned sym.id).after (.of once) L)
      (abides_put ⟨Rigor.of_ne_closed once, hadmitted⟩ hv rfl) fun L' _ hL' => abides_pure ?_
    subst hL'
    exact ⟨follows_assigned hL hA hsym hc, by simp [Stmt.alwaysJumps], by simp⟩
  | element m base index =>
    obtain ⟨hindex, hv, hA⟩ := h
    refine Keeps.abides_stmt hL hA ?_
    refine (keeps_element hexpr hfree hindex).bind fun p _ => (hexpr hv hfree).bind fun v hv => ?_
    refine (keeps_lift (Eval.quiet_position m.tok p.1 p.2)).bind fun i _ => ?_
    refine (keeps_lift (Eval.quiet_store p.1 i hv)).bind fun _ _ => keeps_pure ?_
    simp [Stmt.alwaysJumps]

include hexpr in
theorem abides_compound {tok : Token} {target : Target} {op : String} {value : Expr}
    (h : (Stmt.compound tok target op value).Assigns once Γ D A A') (hL : L.Fits once Γ D A) :
    Abides F rigors (.of once) L (stmt F (fuel + 1) (.compound tok target op value)) fun L' flow =>
      Follows once Γ D Γ D A' L L' flow ∧
        ((Stmt.compound tok target op value).alwaysJumps = true → flow ≠ .next) ∧
        ∀ v, flow = .returned v → v.Tame F := by
  obtain ⟨ht, hv, hA⟩ := h
  have hfree := mutables_free hL
  refine Keeps.abides_stmt hL hA ?_
  unfold stmt
  cases target with
  | name id =>
    obtain ⟨sym, hsym, hid⟩ := ht
    refine (keeps_lift (Eval.quiet_symbolOf id)).bind fun sym' hid' => ?_
    obtain rfl : sym = sym' := Option.some.inj (hid.symm.trans hid')
    refine (keeps_lift (Eval.quiet_variableOf id sym)).bind fun old _ => ?_
    refine (hexpr hv hfree).bind fun v _ => ?_
    refine (keeps_lift (Eval.quiet_arithmetic tok _ old v)).bind fun w hw => ?_
    refine Keeps.bind (p := fun _ => True) (abides_put (hfree sym hsym) hw ⟨rfl, trivial⟩)
      fun _ _ => keeps_pure ?_
    simp [Stmt.alwaysJumps]
  | element m base index =>
    have hindex : index.Steady (mutables Γ) := ht
    refine (keeps_element hexpr hfree hindex).bind fun p _ => ?_
    refine (keeps_lift (Eval.quiet_position m.tok p.1 p.2)).bind fun i _ => ?_
    refine (hexpr hv hfree).bind fun v _ => ?_
    refine (keeps_lift (Eval.quiet_load p.1 i)).bind fun old _ => ?_
    refine (keeps_lift (Eval.quiet_arithmetic tok _ old v)).bind fun w hw => ?_
    refine (keeps_lift (Eval.quiet_store p.1 i hw)).bind fun _ _ => keeps_pure ?_
    simp [Stmt.alwaysJumps]

include hstmt in
theorem abides_block {b : Block} (h : b.Assigns once Γ D A A') (hL : L.Fits once Γ D A) :
    Abides F rigors (.of once) L (sequence (stmt F fuel) b.stmts) fun L' flow =>
      Follows once Γ D Γ D A' L L' flow ∧ (b.alwaysJumps = true → flow ≠ .next) ∧
        ∀ v, flow = .returned v → v.Tame F := by
  obtain ⟨tok, ss, close⟩ := b
  exact abidesStmts_sequence hstmt h hL

include hexpr hstmt in
theorem abides_ifElse {tok : Token} {cond : Expr} {a : Block} {b : Option Block}
    (h : (Stmt.ifElse tok cond a b).Assigns once Γ D A A') (hL : L.Fits once Γ D A) :
    Abides F rigors (.of once) L (stmt F (fuel + 1) (.ifElse tok cond a b)) fun L' flow =>
      Follows once Γ D Γ D A' L L' flow ∧
        ((Stmt.ifElse tok cond a b).alwaysJumps = true → flow ≠ .next) ∧
        ∀ v, flow = .returned v → v.Tame F := by
  obtain ⟨hc, A₁, A₀, A₂, ha, hA₀, hb, hA₁, hA₂⟩ := h
  unfold stmt
  refine (hexpr hc (mutables_free hL)).bind_abides fun v _ => ?_
  refine (keeps_lift (Eval.quiet_truth cond.tok v)).bind_abides fun t _ => ?_
  -- A branch that goes on does not always jump.
  have hgoes {jumps : Bool} {flow : Flow} (h : jumps = true → flow ≠ .next) (hn : flow = .next) :
      jumps = false := by
    cases jumps with
    | false => rfl
    | true => exact absurd hn (h rfl)
  refine Abides.ite (fun _ => ?_) fun _ => ?_
  · refine (abides_block hstmt ha hL).mono fun L' flow ⟨hf, hj, hv⟩ => ⟨⟨hf.frame, fun hn => ?_⟩, ?_, hv⟩
    · exact (hf.fits hn).later (hA₁ (hgoes hj hn))
    · cases b with
      | none => simp [Stmt.alwaysJumps]
      | some b =>
        rw [Stmt.alwaysJumps, Bool.and_eq_true]
        exact fun h => hj h.1
  · cases b with
    | none => exact abides_pure ⟨hL.follows ((hA₀.trans hb).trans (hA₂ rfl)) _,
        by simp [Stmt.alwaysJumps], by simp⟩
    | some b =>
      refine (abides_block hstmt hb (hL.later hA₀)).mono fun L' flow ⟨hf, hj, hv⟩ =>
        ⟨⟨hf.frame, fun hn => ?_⟩, ?_, hv⟩
      · exact (hf.fits hn).later (hA₂ (hgoes hj hn))
      · rw [Stmt.alwaysJumps, Bool.and_eq_true]
        exact fun h => hj h.2

include hstmt in
/-- The body of a loop, from any ledger that agrees with the one at its beginning. -/
theorem abides_loopBody {body : Block} {A₁ : SymbolId → Prop}
    (h : body.Assigns once Γ (inside once D) A A₁) (hL : L.Fits once Γ D A) :
    ∀ L', Agrees Γ L L' → Abides F rigors (.of once) L' (sequence (stmt F fuel) body.stmts)
      fun L'' flow => Agrees Γ L L'' ∧ ∀ v, flow = .returned v → v.Tame F := by
  intro L' hL'
  refine (abides_block hstmt h (hL.agrees hL').inside).mono fun L'' flow hflow => ?_
  exact ⟨hL'.trans hflow.1.agrees, hflow.2.2⟩

/-- A loop as a statement. -/
theorem Abides.loop {x : Watched Flow} (hL : L.Fits once Γ D A) (hA : Later D A A')
    (hx : Abides F rigors (.of once) L x fun L' flow => Agrees Γ L L' ∧
      ∀ v, flow = .returned v → v.Tame F) :
    Abides F rigors (.of once) L x fun L' flow => Follows once Γ D Γ D A' L L' flow ∧
      (false = true → flow ≠ .next) ∧ ∀ v, flow = .returned v → v.Tame F :=
  hx.mono fun _ flow ⟨hL', hv⟩ => ⟨hL.follows_loop hA hL' flow, by simp, hv⟩

include hexpr hstmt in
theorem abides_forLoop {tok : Token} {x : Ident} {header : Header} {body : Block}
    (h : (Stmt.forLoop tok x header body).Assigns once Γ D A A') (hL : L.Fits once Γ D A) :
    Abides F rigors (.of once) L (stmt F (fuel + 1) (.forLoop tok x header body)) fun L' flow =>
      Follows once Γ D Γ D A' L L' flow ∧ (false = true → flow ≠ .next) ∧
        ∀ v, flow = .returned v → v.Tame F := by
  obtain ⟨hh, hA, A₁, hb⟩ := h
  have hfree := mutables_free hL
  have hbody := abides_loopBody hstmt hb hL
  refine Abides.loop hL hA ?_
  unfold stmt
  cases header with
  | range r =>
    obtain ⟨m, first, last, step⟩ := r
    obtain ⟨hf, hl, hs⟩ := hh
    refine (keeps_lift (Eval.quiet_symbolOf x)).bind_abides fun sym _ => ?_
    refine (keeps_bound hexpr hfree hf).bind_abides fun n₁ _ => ?_
    refine (keeps_bound hexpr hfree hl).bind_abides fun n₂ _ => ?_
    cases step with
    | none => exact abides_rangeLoop hbody _ L (.refl Γ L)
    | some e =>
      refine (keeps_bound hexpr hfree (hs e rfl)).bind_abides fun n _ => ?_
      refine Abides.ite (fun _ => ?_) fun _ => abides_rangeLoop hbody _ L (.refl Γ L)
      exact (keeps_fail (p := fun _ => False) _ _).bind_abides fun _ h => h.elim
  | each e =>
    refine (keeps_lift (Eval.quiet_symbolOf x)).bind_abides fun sym _ => ?_
    refine (hexpr hh hfree).bind_abides fun v _ => ?_
    cases v with
    | collection kind a =>
      refine (keeps_lift (Eval.quiet_length a)).bind_abides fun n _ => ?_
      exact abides_elementLoop hbody _ _ L (.refl Γ L)
    | _ => exact abides_fail _ _

include hexpr hstmt in
theorem abidesStmt_succ : AbidesStmt F rigors (stmt F (fuel + 1)) := by
  intro s once Γ D A A' L h hL
  have hfree := mutables_free hL
  cases s with
  | decl tok isMutable name ty value => exact abides_decl hexpr h hL
  | assign tok target value => exact abides_assign hexpr h hL
  | compound tok target op value => exact abides_compound hexpr h hL
  | selfOp tok e =>
    refine Keeps.abides_stmt hL h.2 ?_
    unfold stmt
    exact (keeps_incDec hexpr hfree h.1).bind fun _ _ => keeps_pure (by simp [Stmt.alwaysJumps])
  | print tok newline value =>
    refine Keeps.abides_stmt hL h.2 ?_
    have hemit (text : String) : Keeps F rigors (.of once) L
        (liftM (Eval.emit text) >>= fun _ => pure Flow.next) fun flow =>
          ((Stmt.print tok newline value).alwaysJumps = true → flow ≠ .next) ∧
            ∀ v, flow = .returned v → v.Tame F :=
      (keeps_lift (Eval.quiet_emit text)).bind fun _ _ => keeps_pure (by simp [Stmt.alwaysJumps])
    unfold stmt
    cases value with
    | none => exact hemit _
    | some e =>
      refine (hexpr (h.1 e rfl) hfree).bind fun v _ => ?_
      exact (keeps_lift (Eval.quiet_shown tok v)).bind fun text _ => hemit _
  | ifElse tok cond a b => exact abides_ifElse hexpr hstmt h hL
  | whileLoop tok cond body =>
    obtain ⟨hc, hA, A₁, hb⟩ := h
    have hcond (L' : Ledger) (hL' : Agrees Γ L L') : Keeps F rigors (.of once) L'
        (do Eval.truth cond.tok (← expr F fuel cond)) fun _ => True :=
      (hexpr hc (mutables_free (hL.agrees hL'))).bind fun v _ => keeps_lift (Eval.quiet_truth _ v)
    unfold stmt
    exact Abides.loop hL hA (abides_whileLoop (abides_loopBody hstmt hb hL) hcond fuel L (.refl Γ L))
  | forLoop tok x header body => exact abides_forLoop hexpr hstmt h hL
  | function f =>
    unfold stmt
    exact abides_fail _ _
  | call tok c =>
    refine Keeps.abides_stmt hL h.2 ?_
    unfold stmt
    exact (hexpr (e := .call c) h.1 hfree).bind fun _ _ => keeps_pure (by simp [Stmt.alwaysJumps])
  | ret tok value =>
    refine Keeps.abides_stmt hL h.2 ?_
    unfold stmt
    cases value with
    | none => exact keeps_pure ⟨by simp, fun v hv => by cases hv; exact .unit⟩
    | some e =>
      refine (hexpr (h.1 e rfl) hfree).bind fun v hv => keeps_pure ⟨by simp, fun w hw => ?_⟩
      cases hw
      exact hv
  | brk tok =>
    unfold stmt
    exact Keeps.abides_stmt hL h (keeps_pure (by simp))
  | cont tok =>
    unfold stmt
    exact Keeps.abides_stmt hL h (keeps_pure (by simp))
  | block b =>
    unfold stmt
    exact abides_block hstmt h hL

end Stmt

end Fuel

/-- Expressions and statements of a program whose functions keep their constants. -/
theorem abides_expr_stmt
    (hF : ∀ f ∈ F, ∃ once A', rigors f.name.name = .of once ∧
      f.body.Assigns once [] [] (fun _ => False) A') (fuel : Nat) :
    KeepsExpr F rigors (expr F fuel) ∧ AbidesStmt F rigors (stmt F fuel) := by
  induction fuel with
  | zero =>
    refine ⟨fun _ _ => ?_, fun _ _ => ?_⟩
    · unfold expr
      exact keeps_fail _ _
    · unfold stmt
      exact abides_fail _ _
  | succ fuel ih =>
    refine ⟨keepsExpr_succ (fun f hf => ?_) ih.1, abidesStmt_succ ih.1 ih.2⟩
    obtain ⟨once, A', hr, hb⟩ := hF f hf
    rw [hr]
    exact (abides_block ih.2 hb (Ledger.fits_start once)).mono fun _ _ h => h.2.2

end Watched

/-! ## Whole programs -/

/-- How strictly the functions of a name are followed: those that restart only loosely. -/
def rigorsOf (F : List FunDecl) (name : String) : Event.Rigor :=
  .of (decide (∀ f ∈ F, f.name.name = name → ¬ f.body.Restarts))

/-- All events of a run are admitted, in the script and in its calls. -/
theorem Checked.Assigns.admitted {c : Checked} (h : c.Assigns) (fuel : Nat) (once : Bool)
    (honce : once = true → ¬ Stmt.ListRestarts c.program.stmts) :
    Event.AllAdmitted (rigorsOf c.functions) (.of once) (fun _ => .free) (c.events fuel) := by
  obtain ⟨A', hscript⟩ := h.script once honce
  have hF : ∀ f ∈ c.functions, ∃ once A', rigorsOf c.functions f.name.name = .of once ∧
      f.body.Assigns once [] [] (fun _ => False) A' := by
    intro f hf
    have hall := h.function f hf
    obtain ⟨tok, name, ps, result, body⟩ := f
    obtain ⟨A', hbody⟩ := hall (decide (∀ f ∈ c.functions, f.name.name = name.name →
      ¬ f.body.Restarts)) fun ho => of_decide_eq_true ho _ hf rfl
    exact ⟨_, A', rfl, hbody⟩
  have hrun := Watched.abidesStmts_sequence (Watched.abides_expr_stmt hF fuel).2 hscript
    (Ledger.fits_start once)
  exact (hrun .start .start).1

/-- What a run of an accepted program stores. Watching it changes nothing about the run. In every
activation, the constants with a value keep it until they are declared again, and nothing but
assignments stores to those without one; closures store to no variable. The script assigns constants
at most once unless it restarts, and so does a function. -/
theorem Checked.OfText.constants_kept {text : Text} {c : Checked} (h : c.OfText text) (fuel : Nat) :
    (c.watched fuel).run = Eval.sequence (Eval.stmt c.functions fuel) c.program.script ∧
      Event.KeepsValues (c.events fuel) ∧
      (¬ Stmt.ListRestarts c.program.stmts → Event.AssignsOnce (c.events fuel)) ∧
      (∀ name es, Event.Inside (.called name es) (c.events fuel) → Event.KeepsValues es ∧
        ((∀ f ∈ c.functions, f.name.name = name → ¬ f.body.Restarts) → Event.AssignsOnce es)) ∧
      ∀ es, Event.Inside (.applied es) (c.events fuel) → ∀ e ∈ es, e.stores = false := by
  obtain ⟨p, -, hc⟩ := h
  have hassigns := Program.check_assigns hc
  have hloose := hassigns.admitted fuel false fun h => by cases h
  refine ⟨c.run_watched fuel, hloose.keepsValues, fun hno => ?_, fun name es hi => ?_, fun es hi => ?_⟩
  · exact (hassigns.admitted fuel true fun _ => hno).assignsOnce
  · obtain ⟨rigor, L, hes⟩ := Event.AllAdmitted.inside hi hloose
    have hes : Event.AllAdmitted (rigorsOf c.functions) (rigorsOf c.functions name)
      (fun _ => .free) es := hes
    refine ⟨hes.keepsValues, fun hno => ?_⟩
    have hstrict : rigorsOf c.functions name = .strict := by
      unfold rigorsOf
      rw [decide_eq_true hno]
      rfl
    rw [hstrict] at hes
    exact hes.assignsOnce
  · obtain ⟨rigor, L, hes⟩ := Event.AllAdmitted.inside hi hloose
    exact Event.AllAdmitted.closed hes

/-- A function with a branch that returns, called from the script, each with a constant to be
assigned. -/
theorem Checked.OfText.constants_kept_pick : ∃ c : Checked,
    c.OfText ("fun pick(c: Boolean): Int \x7b val x: Int; if (c) \x7b x = 1; return x \x7d; " ++
      "x = 2; return x \x7d\nval y: Int\ny = pick(false)\nprintln(y)").toList ∧
      Event.AssignsOnce (c.events 30) ∧ ∀ es, Event.Inside (.called "pick" es) (c.events 30) →
        Event.KeepsValues es ∧ Event.AssignsOnce es := by
  have hrun : ((Checked.ofText? ("fun pick(c: Boolean): Int \x7b val x: Int; if (c) \x7b x = 1; " ++
      "return x \x7d; x = 2; return x \x7d\nval y: Int\ny = pick(false)\nprintln(y)").toList).map
        fun c => decide (¬ Stmt.ListRestarts c.program.stmts ∧
          ∀ f ∈ c.functions, ¬ f.body.Restarts)) = some true := by decide +kernel
  obtain ⟨c, hc, hno⟩ := Option.map_eq_some_iff.mp hrun
  obtain ⟨hscript, hfunctions⟩ := of_decide_eq_true hno
  have htext := Checked.ofText_of_eq_some hc
  obtain ⟨-, -, honce, hcalls, -⟩ := htext.constants_kept 30
  refine ⟨c, htext, honce hscript, fun es hi => ⟨(hcalls _ es hi).1, (hcalls _ es hi).2 ?_⟩⟩
  exact fun f hf _ => hfunctions f hf

/-- Where both branches of an `if` leave a function, the checker forgets that a constant of the
script was assigned before, and accepts a second assignment. -/
theorem Checked.OfText.assigned_twice : ∃ c : Checked,
    c.OfText ("val x: Int\nx = 1\nfun f() \x7b if (true) \x7b return \x7d else \x7b return " ++
      "\x7d \x7d\nx = 2\n").toList ∧ ¬ Event.AssignsOnce (c.events 4) := by
  have hrun : ((Checked.ofText? ("val x: Int\nx = 1\nfun f() \x7b if (true) \x7b return \x7d " ++
      "else \x7b return \x7d \x7d\nx = 2\n").toList).map fun c => (c.events 4).map fun e =>
        (e.opens ⟨0, 0⟩, e.assigns ⟨0, 0⟩)) =
      some [(true, false), (false, true), (false, true)] := by decide +kernel
  obtain ⟨c, hc, hevents⟩ := Option.map_eq_some_iff.mp hrun
  refine ⟨c, Checked.ofText_of_eq_some hc, fun honce => ?_⟩
  obtain ⟨opened, es, heq, hopened, hrest⟩ := List.map_eq_cons_iff.mp hevents
  obtain ⟨first, es, rfl, hfirst, hrest⟩ := List.map_eq_cons_iff.mp hrest
  obtain ⟨second, es, rfl, hsecond, hnil⟩ := List.map_eq_cons_iff.mp hrest
  obtain rfl := List.map_eq_nil_iff.mp hnil
  obtain rfl := Event.eq_of_opens (congrArg Prod.fst hopened)
  obtain rfl := Event.eq_of_assigns (congrArg Prod.snd hfirst)
  obtain rfl := Event.eq_of_assigns (congrArg Prod.snd hsecond)
  exact absurd (honce [] _ _ heq) (by decide)

end Kotlet

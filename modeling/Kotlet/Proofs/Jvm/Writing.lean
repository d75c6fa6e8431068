import Kotlet.Emit.Stmt
import Kotlet.Proofs.Emit.Layout
import Kotlet.Proofs.Emit.World.Slot
import Kotlet.Proofs.Jvm.Growth
import Kotlet.Proofs.Jvm.Machine

/-!
# Code on the way to a finished method

The steps of code generation are followed from the state before them to the state after them. What
they wrote is still there when the method is done, so the machine finds it there.

* `State.Begins` : what is kept from one state to a later one of the same method;
* `Whole`, `Span` : a finished method, and a part of the way to it;
* `Spans`, `Spans.bind` : what holds of steps in whatever method they are a part of, and of steps one
  after another;
* `Adds` : steps that write one instruction; `adds_op`, `adds_load` and their kin;
* `Adds.step?` : what the machine does there;
* `State.At`, `State.AtLabel` : the machine is where the method was so far, or at a label.
-/

namespace Kotlet
namespace Emit

open ClassFile
open ParsedClass (operandForm)

section Runs

variable {α β : Type} {env : Env} {s s' s'' : State}

/-- Steps put together have ended if each of them has. -/
theorem bind_ok {x : Emit α} {f : α → Emit β} {b : β} (h : (x >>= f) env s = .ok (b, s'')) :
    ∃ a s', x env s = .ok (a, s') ∧ f a env s' = .ok (b, s'') := by
  change (x env s >>= fun p => f p.1 env p.2) = _ at h
  cases hx : x env s with
  | error e => rw [hx] at h; cases h
  | ok p => rw [hx] at h; exact ⟨p.1, p.2, rfl, h⟩

theorem pure_ok {a b : α} (h : (pure a : Emit α) env s = .ok (b, s')) : b = a ∧ s' = s := by
  cases h
  exact ⟨rfl, rfl⟩

theorem reject_ok {e : EmitError} {tok : Token} {a : α}
    (h : (reject e tok : Emit α) env s = .ok (a, s')) : False := by cases h

end Runs

/-! ## Slots -/

/-- The slots of the variables are taken, and no two variables share one. -/
structure Body.Apart (b : Body) : Prop where
  limit : b.next ≤ 65536
  below : ∀ (id : SymbolId) l, b.slots[id]? = some l → l.slot < b.next
  inj : ∀ (i j : SymbolId) l k, b.slots[i]? = some l → b.slots[j]? = some k →
    l.slot = k.slot → i = j

/-! ## States -/

/-- The second state comes later in the same method. -/
structure State.Begins (s s' : State) : Prop where
  pool : Pool.Sound Plain s.pool → s.pool.Le s'.pool ∧ Pool.Sound Plain s'.pool
  code : s.body.code.Begins s'.body.code
  apart : s.body.Apart → s'.body.Apart
  next : s.body.next ≤ s'.body.next
  slots : ∀ (id : SymbolId) l, s.body.slots[id]? = some l → s'.body.slots[id]? = some l
  fresh : ∀ (id : SymbolId) l, s'.body.slots[id]? = some l →
    s.body.slots[id]? = some l ∨ s.body.next ≤ l.slot
  methods : s'.methods = s.methods
  usesShow : s'.usesShow = s.usesShow

namespace State.Begins

variable {s s' s'' : State}

theorem refl (s : State) : s.Begins s :=
  ⟨fun h => ⟨.refl _, h⟩, .refl _, id, Nat.le_refl _, fun _ _ h => h, fun _ _ h => .inl h, rfl, rfl⟩

theorem trans (h : s.Begins s') (h' : s'.Begins s'') : s.Begins s'' where
  pool hp := by
    obtain ⟨hle, hs⟩ := h.pool hp
    obtain ⟨hle', hs'⟩ := h'.pool hs
    exact ⟨hle.trans hle', hs'⟩
  code := h.code.trans h'.code
  apart ha := h'.apart (h.apart ha)
  next := Nat.le_trans h.next h'.next
  slots id l hl := h'.slots id l (h.slots id l hl)
  fresh id l hl := by
    rcases h'.fresh id l hl with hl | hle
    · exact h.fresh id l hl
    · exact .inr (Nat.le_trans h.next hle)
  methods := h'.methods.trans h.methods
  usesShow := h'.usesShow.trans h.usesShow

/-- Only the instructions and the constants change. -/
theorem of_code {p : Pool} {c : ClassFile.Code}
    (hp : Pool.Sound Plain s.pool → s.pool.Le p ∧ Pool.Sound Plain p) (hc : s.body.code.Begins c) :
    s.Begins { s with pool := p, body := { s.body with code := c } } :=
  ⟨hp, hc, fun h => ⟨h.limit, h.below, h.inj⟩, Nat.le_refl _, fun _ _ h => h, fun _ _ h => .inl h,
    rfl, rfl⟩

theorem size (h : s.Begins s') {l : Nat} (hl : l < s.body.code.labels.size) :
    l < s'.body.code.labels.size := Nat.lt_of_lt_of_le hl h.code.count

end State.Begins

/-- A method that is done with, and the constants of its class. -/
structure Whole where
  pool : Pool
  code : ClassFile.Code
  slots : SymbolId → Option Local

/-- A part of the way to a finished method. -/
structure Span (W : Whole) (s s' : State) : Prop where
  traced : ∃ T, s.body.code.Traced T
  sound : Pool.Sound Plain s.pool
  apart : s.body.Apart
  begins : s.Begins s'
  pool : s'.pool.Le W.pool
  code : s'.body.code.Begins W.code
  slots : ∀ (id : SymbolId) l, s'.body.slots[id]? = some l → W.slots id = some l
  fresh : ∀ id l, W.slots id = some l → s'.body.slots[id]? = some l ∨ s'.body.next ≤ l.slot
  inj : ∀ (i j : SymbolId) l k, W.slots i = some l → W.slots j = some k → l.slot = k.slot → i = j
  finished : W.code.Finished
  error : W.pool.error = none

namespace Span

variable {W : Whole} {s s' s'' : State}

/-- The two halves of a part of the way. -/
theorem split (h : Span W s s'') (hb : s.Begins s') (hb' : s'.Begins s'') :
    Span W s s' ∧ Span W s' s'' := by
  have hcode := hb'.code.trans h.code
  obtain ⟨hle, hsound⟩ := hb.pool h.sound
  have hpool := ((hb'.pool hsound).1).trans h.pool
  obtain ⟨T, hT⟩ := h.traced
  obtain ⟨T', hT'⟩ := hb.code.traced (hcode.error h.finished.error) T hT
  refine ⟨⟨h.traced, h.sound, h.apart, hb, hpool, hcode,
      fun id l hl => h.slots id l (hb'.slots id l hl), fun id l hl => ?_, h.inj, h.finished,
      h.error⟩,
    ⟨⟨_, hT'⟩, hsound, hb.apart h.apart, hb', h.pool, h.code, h.slots, h.fresh, h.inj, h.finished,
      h.error⟩⟩
  rcases h.fresh id l hl with hl | hle'
  · exact hb'.fresh id l hl
  · exact .inr (Nat.le_trans hb'.next hle')

theorem codeError (h : Span W s s') : s'.body.code.error = none := h.code.error h.finished.error

/-- A label that has its place has it in the finished method. -/
theorem place (h : Span W s s') {l o : Nat} (ho : (s'.body.code.label l).offset = some o) :
    W.code.place l = o := by
  rw [Code.place, h.code.offset l o ho]
  rfl

/-- The slot of a variable in the finished method is the one it has so far. -/
theorem slot (h : Span W s s') {id : SymbolId} {l : Local} (hl : s.body.slots[id]? = some l) :
    W.slots id = some l := h.slots id l (h.begins.slots id l hl)

/-- A slot that is taken on the way is that of no other variable. -/
theorem ne_of_fresh (h : Span W s s') {k : Nat} (hk : s.body.next ≤ k ∧ k < s'.body.next)
    (hs : s'.body.slots = s.body.slots) (id : SymbolId) (l : Local) (hl : W.slots id = some l) :
    l.slot ≠ k := by
  rcases h.fresh id l hl with hl | hle
  · rw [hs] at hl
    have := h.apart.below id l hl
    omega
  · omega

end Span

/-! ## Steps one after another -/

section Spans

variable {α β : Type} {env : Env} {s : State} {x : Emit α} {f : α → Emit β} {a : α}
  {P R : Whole → α → State → Prop} {Q : Whole → β → State → Prop}

/-- The steps go a part of the way from the state `s` on, and `P` holds of it in every finished
method. -/
def Spans (env : Env) (s : State) (x : Emit α) (P : Whole → α → State → Prop) : Prop :=
  ∀ ⦃a : α⦄ ⦃s' : State⦄, x env s = .ok (a, s') → s.Begins s' ∧
    ∀ ⦃W : Whole⦄, Span W s s' → P W a s'

/-- What holds of the first steps is known where the others are done. -/
theorem Spans.bind (h : Spans env s x P)
    (hf : ∀ a s₁, x env s = .ok (a, s₁) → s.Begins s₁ →
      Spans env s₁ (f a) fun W b s' => P W a s₁ → Q W b s') : Spans env s (x >>= f) Q := by
  intro b s' hx
  obtain ⟨a, s₁, h₁, h₂⟩ := bind_ok hx
  obtain ⟨b₁, hp⟩ := h h₁
  obtain ⟨b₂, hq⟩ := hf a s₁ h₁ b₁ h₂
  refine ⟨b₁.trans b₂, fun W hW => ?_⟩
  obtain ⟨w₁, w₂⟩ := hW.split b₁ b₂
  exact hq w₂ (hp w₁)

theorem Spans.imp (h : Spans env s x P) (hR : ∀ W a s', Span W s s' → P W a s' → R W a s') :
    Spans env s x R := by
  intro a s' hx
  obtain ⟨hb, hp⟩ := h hx
  exact ⟨hb, fun W hW => hR W a s' hW (hp hW)⟩

theorem spans_pure (h : ∀ W, Span W s s → P W a s) : Spans env s (pure a) P := by
  intro b s' hx
  obtain ⟨rfl, rfl⟩ := pure_ok hx
  exact ⟨.refl s', h⟩

end Spans

/-! ## The machine on the way -/

/-- The machine goes from one state to another. -/
abbrev Whole.Reaches (W : Whole) (σ σ' : Jvm.State) : Prop :=
  Jvm.Reaches W.pool W.code.bytes σ σ'

/-- The next instruction of the machine is the one that is written next. -/
structure State.At (s : State) (σ : Jvm.State) : Prop where
  live : s.body.code.reachable = true
  pc : σ.pc = s.body.code.bytes.size

/-- The machine has come to a label. -/
structure State.AtLabel (W : Whole) (s : State) (l : Nat) (σ : Jvm.State) : Prop where
  reached : (s.body.code.label l).depth.isSome = true
  pc : σ.pc = W.code.place l

theorem State.AtLabel.later {W : Whole} {s s' : State} {l : Nat} {σ : Jvm.State}
    (h : s.AtLabel W l σ) (hb : s.Begins s') : s'.AtLabel W l σ :=
  ⟨hb.code.depth l h.reached, h.pc⟩

/-! ## One instruction -/

/-- The steps write an instruction, if control can come there. -/
structure Adds (i : Instr) (s s' : State) : Prop where
  begins : s.Begins s'
  gains : s.body.code.reachable = true → Code.Gains i s.body.code s'.body.code

section Adds

variable {W : Whole} {i : Instr} {s s' : State} {σ σ' : Jvm.State}

/-- The machine performs the instruction that was written. -/
theorem Adds.step? (h : Adds i s s') (hW : Span W s s') (hσ : s.At σ) :
    Jvm.step? W.pool W.code.bytes σ =
      Jvm.perform? W.pool s'.body.code.bytes.size σ (W.code.resolve i) := by
  obtain ⟨T, hT⟩ := hW.traced
  obtain ⟨n, hsize, hd⟩ := (h.gains hσ.live).holds hT hW.code hW.finished
  rw [← hσ.pc] at hd
  simp only [Jvm.step?, hd, Option.bind_eq_bind, Option.bind_some]
  rw [hσ.pc, ← hsize]

theorem Adds.live (h : Adds i s s') (hW : Span W s s') (hσ : s.At σ) (hf : i.falls = true) :
    s'.body.code.reachable = true := by
  rw [(h.gains hσ.live).falls hW.codeError, hf]

/-- The machine goes on behind the instruction. -/
theorem Adds.reaches (h : Adds i s s') (hW : Span W s s') (hσ : s.At σ) (hf : i.falls = true)
    (hp : Jvm.perform? W.pool s'.body.code.bytes.size σ (W.code.resolve i) = some (.goes σ'))
    (hpc : σ'.pc = s'.body.code.bytes.size) : s'.At σ' ∧ W.Reaches σ σ' :=
  ⟨⟨h.live hW hσ hf, hpc⟩, .single ((h.step? hW hσ).trans hp)⟩

/-- The machine ends with the instruction. -/
theorem Adds.ends {e : Jvm.Ending} (h : Adds i s s') (hW : Span W s s') (hσ : s.At σ)
    (hp : Jvm.perform? W.pool s'.body.code.bytes.size σ (W.code.resolve i) = some (.ends e)) :
    Jvm.Ends W.pool W.code.bytes σ σ.out e :=
  ⟨σ, .refl σ, (h.step? hW hσ).trans hp, rfl⟩

end Adds

section Primitive

variable {env : Env} {s s' : State} {u : Unit}

/-- Instructions that are written where control can come, and left out elsewhere. -/
theorem adds_onCode {f : ClassFile.Code → ClassFile.Code} {i : Instr}
    (h : onCode f env s = .ok (u, s'))
    (hlive : s.body.code.reachable = true → Code.Gains i s.body.code (f s.body.code))
    (hdead : s.body.code.reachable = false → f s.body.code = s.body.code) : Adds i s s' := by
  cases h
  refine ⟨.of_code (fun hp => ⟨.refl _, hp⟩) ?_, hlive⟩
  cases hr : s.body.code.reachable with
  | true => exact (hlive hr).begins
  | false => rw [hdead hr]; exact .refl _

theorem adds_op {o : Opcode} (h : op o env s = .ok (u, s')) (hp : Instr.isPlain o = true) :
    Adds (.plain o) s s' :=
  adds_onCode h (fun hr => Code.gains_emit hr hp) fun hr => by simp [Code.emit, hr]

theorem adds_load {l : Local} (h : load l env s = .ok (u, s')) :
    Adds (.load l.ty.localKind l.slot) s s' :=
  adds_onCode h (fun hr => Code.gains_load hr _ _) fun hr => by simp [Code.load, hr]

theorem adds_store {l : Local} (h : store l env s = .ok (u, s')) :
    Adds (.store l.ty.localKind l.slot) s s' :=
  adds_onCode h (fun hr => Code.gains_store hr _ _) fun hr => by simp [Code.store, hr]

theorem adds_increment {l : Local} {d : Int} (h : increment l d env s = .ok (u, s'))
    (hs : l.slot ≤ 65535) : Adds (.increment l.slot d) s s' :=
  adds_onCode h (fun hr => Code.gains_iinc hr hs d) fun hr => by simp [Code.iinc, hr]

theorem adds_pushBool {b : Bool} (h : onCode (fun c => c.pushBool b) env s = .ok (u, s')) :
    Adds (.plain (if b then .iconst1 else .iconst0)) s s' := by
  refine adds_onCode h (fun hr => ?_) fun hr => ?_
  · refine Code.gains_emit hr (Instr.isPlain_iff.mpr ?_)
    cases b <;> decide
  · unfold Code.pushBool Code.emit
    rw [hr]
    rfl

/-! ## Constants and members -/

theorem onPool_ok {f : Pool → ClassFile.Code → Pool × ClassFile.Code}
    (h : onPool f env s = .ok (u, s')) :
    s'.pool = (f s.pool s.body.code).1 ∧ s'.body.code = (f s.pool s.body.code).2 := by
  cases h
  exact ⟨rfl, rfl⟩

/-- An instruction that refers to a constant, which is asked for first. -/
theorem adds_onPool {f : Pool → ClassFile.Code → Pool × ClassFile.Code} {i : Instr}
    (h : onPool f env s = .ok (u, s'))
    (hp : Pool.Sound Plain s.pool →
      s.pool.Le (f s.pool s.body.code).1 ∧ Pool.Sound Plain (f s.pool s.body.code).1)
    (hlive : s.body.code.reachable = true → Code.Gains i s.body.code (f s.pool s.body.code).2)
    (hdead : s.body.code.reachable = false → (f s.pool s.body.code).2 = s.body.code) :
    Adds i s s' := by
  cases h
  refine ⟨.of_code hp ?_, hlive⟩
  cases hr : s.body.code.reachable with
  | true => exact (hlive hr).begins
  | false => rw [hdead hr]; exact .refl _

/-- An instruction of three bytes that refers to a constant, or a failure. -/
theorem adds_refers {f : Pool → ClassFile.Code → Pool × ClassFile.Code} {o : Opcode} {k : Pool.Key}
    {i : Instr} {x : UInt16 × Pool} {d : Int} (h : onPool f env s = .ok (u, s'))
    (hx : Pool.Sound Plain s.pool → Pool.Answers Plain s.pool k x)
    (hform : operandForm o = .constant ∧ Instr.indexed o x.1 = i) (hfalls : i.falls = true)
    (hi : ∀ o l, i ≠ .branch o l)
    (hlive : s.body.code.reachable = true →
      (∃ e, f s.pool s.body.code = (s.pool, s.body.code.fail e)) ∨
      f s.pool s.body.code = (x.2, (s.body.code.write (o.byte :: bytes2 x.1)).adjust d))
    (hdead : s.body.code.reachable = false → f s.pool s.body.code = (s.pool, s.body.code)) :
    Adds i s s' ∧ ∀ W, Span W s s' → s.body.code.reachable = true →
      Pool.Answers Plain s.pool k x ∧ x.2.error = none ∧ x.2.Le W.pool := by
  refine ⟨adds_onPool h (fun hp => ?_) (fun hr => ?_) (fun hr => by rw [hdead hr]),
    fun W hW hr => ?_⟩
  · cases hr : s.body.code.reachable with
    | false => rw [hdead hr]; exact ⟨.refl _, hp⟩
    | true =>
      rcases hlive hr with ⟨e, he⟩ | heq
      · rw [he]; exact ⟨.refl _, hp⟩
      · rw [heq]; exact ⟨(hx hp).le, (hx hp).sound⟩
  · rcases hlive hr with ⟨e, he⟩ | heq
    · rw [he]
      exact Code.gains_fail _ e i
    · rw [heq]
      refine Code.gains_write hr ?_ (by simp) hfalls hi
      rw [← hform.2]
      exact Instr.decode_indexed o hform.1 x.1
  · obtain ⟨hpool, hcode⟩ := onPool_ok h
    rcases hlive hr with ⟨e, he⟩ | heq
    · exact absurd hW.codeError (by rw [hcode, he]; exact Code.fail_error _ e)
    · have hle : x.2.Le W.pool := by
        rw [show x.2 = s'.pool by rw [hpool, heq]]
        exact hW.pool
      exact ⟨hx hW.sound, hle.error hW.error, hle⟩

/-- The steps write an access to a member. -/
def Accesses (o : Opcode) (m : Member) (s s' : State) : Prop :=
  ∃ i, Adds (.member o i) s s' ∧
    ∀ W, Span W s s' → s.body.code.reachable = true → W.pool.member? i = some m

theorem accesses_getStatic {m : Member} (hm : Plain m)
    (h : getStatic m.owner m.name m.desc env s = .ok (u, s')) : Accesses .getStatic m s s' := by
  have hrefer := adds_refers (o := .getStatic) (x := s.pool.fieldRef m.owner m.name m.desc)
    (i := .member .getStatic (s.pool.fieldRef m.owner m.name m.desc).1) (d := slotSize m.desc) h
    (fun hp => Pool.answers_member hp hm (fun _ _ => rfl) fun ht hi hj => ⟨m, hm, ht, hi, hj⟩)
    ⟨by decide, rfl⟩ rfl (fun _ _ h => by cases h)
    (fun hr => .inr (by simp only [Code.field, hr, Bool.not_true, Bool.false_eq_true, if_false,
      if_true]))
    (fun hr => by simp [Code.field, hr])
  refine ⟨_, hrefer.1, fun W hW hr => ?_⟩
  obtain ⟨hx, he, hle⟩ := hrefer.2 W hW hr
  exact hle.member? (hx.member? legible_plain hm he (.inl rfl))

/-- The ways to call a method of a class. -/
def Calling (o : Opcode) : Prop := o = .invokeStatic ∨ o = .invokeVirtual ∨ o = .invokeSpecial

theorem accesses_invoke {o : Opcode} {m : Member} (ho : Calling o) (hm : Plain m)
    (h : onPool (fun p c => c.invoke p o m.owner m.name m.desc) env s = .ok (u, s')) :
    Accesses o m s s' := by
  -- The height that a call leaves depends on its descriptor.
  obtain ⟨d, hd⟩ : ∃ d : Int, s.body.code.reachable = true →
      (∃ e, s.body.code.invoke s.pool o m.owner m.name m.desc = (s.pool, s.body.code.fail e)) ∨
        s.body.code.invoke s.pool o m.owner m.name m.desc =
          ((s.pool.methodRef m.owner m.name m.desc).2, (s.body.code.write
            (o.byte :: bytes2 (s.pool.methodRef m.owner m.name m.desc).1)).adjust d) := by
    cases hk : descriptorSlots? m.desc with
    | none =>
      exact ⟨0, fun hr => .inl ⟨.badDescriptor m.desc, by simp [Code.invoke, hr, hk]⟩⟩
    | some p =>
      obtain ⟨args, result⟩ := p
      rcases ho with rfl | rfl | rfl
      · exact ⟨result - args, fun hr => .inr (by simp [Code.invoke, hr, hk])⟩
      · refine ⟨result - args - 1, fun hr => .inr ?_⟩
        have hne : Opcode.invokeVirtual ≠ .invokeStatic := by decide
        simp [Code.invoke, hr, hk, hne]
      · refine ⟨result - args - 1, fun hr => .inr ?_⟩
        have hne : Opcode.invokeSpecial ≠ .invokeStatic := by decide
        simp [Code.invoke, hr, hk, hne]
  have hform : operandForm o = .constant ∧ Instr.indexed o = .member o := by
    rcases ho with rfl | rfl | rfl <;> exact ⟨by decide, rfl⟩
  have hrefer := adds_refers (x := s.pool.methodRef m.owner m.name m.desc) h
    (fun hp => Pool.answers_member hp hm (fun _ _ => rfl) fun ht hi hj => ⟨m, hm, ht, hi, hj⟩)
    ⟨hform.1, by rw [hform.2]⟩ rfl (fun _ _ h => by cases h) hd
    (fun hr => by simp [Code.invoke, hr])
  refine ⟨_, hrefer.1, fun W hW hr => ?_⟩
  obtain ⟨hx, he, hle⟩ := hrefer.2 W hW hr
  exact hle.member? (hx.member? legible_plain hm he (.inr (.inl rfl)))

/-- The steps write an instruction that loads a word. -/
def Loads (w : Jvm.Word) (s s' : State) : Prop :=
  ∃ i, Adds i s s' ∧ i.falls = true ∧ ∀ W, Span W s s' → s.body.code.reachable = true →
    ∀ next σ, Jvm.perform? W.pool next σ (W.code.resolve i) =
      some (.goes (σ.goto next (w :: σ.stack)))

/-- An instruction that loads a constant. -/
theorem loads_constant {w : Jvm.Word} {f : Pool → ClassFile.Code → Pool × ClassFile.Code}
    {k : Pool.Key} {x : UInt16 × Pool} (h : onPool f env s = .ok (u, s'))
    (hf : f s.pool s.body.code = (x.2, s.body.code.ldc x.1))
    (hx : Pool.Sound Plain s.pool → Pool.Answers Plain s.pool k x)
    (hw : ∀ q : Pool, Pool.Answers Plain s.pool k x → x.2.error = none → x.2.Le q →
      Jvm.constant? q x.1 = some w) : Loads w s s' := by
  refine ⟨.constant x.1, adds_onPool h (fun hp => ?_) (fun hr => ?_) (fun hr => ?_), rfl,
    fun W hW _ next σ => ?_⟩
  · rw [hf]; exact ⟨(hx hp).le, (hx hp).sound⟩
  · rw [hf]; exact Code.gains_ldc hr x.1
  · rw [hf]; simp [Code.ldc, hr]
  · have hle : x.2.Le W.pool := by
      rw [show x.2 = s'.pool by rw [(onPool_ok h).1, hf]]
      exact hW.pool
    change (Jvm.constant? W.pool x.1).map _ = _
    rw [hw W.pool (hx hW.sound) (hle.error hW.error) hle]
    rfl

theorem loads_pushInt {n : Int32} (h : pushInt n env s = .ok (u, s')) : Loads (.int n) s s' := by
  by_cases hn : -1 ≤ n ∧ n ≤ 5
  · have hlo : -1 ≤ n.toInt := Int32.le_iff_toInt_le.mp hn.1
    have hhi : n.toInt ≤ 5 := Int32.le_iff_toInt_le.mp hn.2
    obtain ⟨k, hk⟩ : ∃ k : Fin 7, (3 + n.toInt).toNat = 2 + k :=
      ⟨⟨(1 + n.toInt).toNat, by omega⟩, by simp only; omega⟩
    have hall : ∀ k : Fin 7, Instr.isPlain ⟨UInt8.ofNat (2 + k)⟩ = true ∧
        Instr.falls (.plain ⟨UInt8.ofNat (2 + k)⟩) = true := by
      simp only [Instr.isPlain_iff]
      decide
    have hword : ∀ (k : Fin 7) next σ, Jvm.plain? ⟨UInt8.ofNat (2 + k)⟩ next σ =
        some (.goes (σ.goto next (.int (Int32.ofInt (k - 1)) :: σ.stack))) := by
      intro k next σ
      revert k
      simp only [Fin.forall_fin_succ]
      exact ⟨rfl, rfl, rfl, rfl, rfl, rfl, rfl, fun i => i.elim0⟩
    have hnk : Int32.ofInt ((k : Int) - 1) = n := by
      rw [show (k : Int) - 1 = n.toInt by omega, Int32.ofInt_toInt]
    have hpush : ∀ p (c : ClassFile.Code), c.pushInt p n = (p, c.emit ⟨UInt8.ofNat (2 + k)⟩) := by
      intro p c
      rw [Code.pushInt, if_pos hn, hk]
    refine ⟨.plain ⟨UInt8.ofNat (2 + k)⟩, adds_onPool h (fun hp => ?_) (fun hr => ?_)
      (fun hr => ?_),
      (hall k).2, fun W _ _ next σ => ?_⟩
    · rw [hpush]; exact ⟨.refl _, hp⟩
    · rw [hpush]; exact Code.gains_emit hr (hall k).1
    · rw [hpush]; simp [Code.emit, hr]
    · rw [← hnk]
      exact hword k next σ
  · refine loads_constant h (by rw [Code.pushInt, if_neg hn])
      (fun hp => Pool.answers_integer hp n) fun q hx he hle => ?_
    rw [Jvm.constant?, hle.constant? (hx.integer legible_plain he)]

theorem loads_pushBool {b : Bool} (h : onCode (fun c => c.pushBool b) env s = .ok (u, s')) :
    Loads (.int (if b then 1 else 0)) s s' :=
  ⟨_, adds_pushBool h, by cases b <;> rfl, fun _ _ _ _ _ => by cases b <;> rfl⟩

theorem loads_pushString {t : String} (h : pushString t env s = .ok (u, s')) :
    Loads (.text t) s s' := by
  have hpush (p : Pool) (c : ClassFile.Code) :
      c.pushString p t = ((p.string t).2, c.ldc (p.string t).1) := by
    unfold ClassFile.Code.pushString
    generalize p.string (Text.ofString t) = x
    rfl
  refine loads_constant h (hpush s.pool s.body.code)
    (fun hp => Pool.answers_string hp (Text.ofString t)) fun q hx he hle => ?_
  obtain ⟨i, hi, ht⟩ := hx.stringText he
  rw [Jvm.constant?, hle.constant? hi]
  exact congrArg (Option.map Jvm.Word.text) (hle.text? ht)

/-- The steps make an object. -/
theorem adds_newObject {name : String} (h : onClass .newObject name env s = .ok (u, s')) :
    ∃ i, Adds (.onType .newObject i) s s' ∧
      ∀ W, Span W s s' → s.body.code.reachable = true → W.pool.class? i = some name := by
  have hrefer := adds_refers (o := .newObject) (d := Opcode.newObject.effect?.getD 0) h
    (fun hp => Pool.answers_classRef hp name) ⟨by decide, rfl⟩ rfl (fun _ _ h => by cases h)
    (fun hr => .inr (by simp only [Code.typeOp, hr, Bool.not_true, Bool.false_eq_true, if_false,
      true_or, if_true]))
    (fun hr => by simp [Code.typeOp, hr])
  refine ⟨_, hrefer.1, fun W hW hr => ?_⟩
  obtain ⟨hx, he, hle⟩ := hrefer.2 W hW hr
  exact hle.class? (hx.class? he)

end Primitive

end Emit
end Kotlet

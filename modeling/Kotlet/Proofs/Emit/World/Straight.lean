import Kotlet.Proofs.Emit.World

/-!
# Straight-line steps

* `Turns` : steps that change the stack and nothing else;
* `turns_op`, `turns_load`, `turns_callStatic` and their kin : single instructions;
* `leads_end` : an instruction after which control does not go on;
* `leads_store`, `turns_store` : a slot gets a value for the first time, and again.
-/

namespace Kotlet
namespace Emit

open ClassFile

section Straight

variable {env : Env} {W : World} {st st' : List Kind}

theorem World.Ok.withStack (h : W.Ok) : (W.withStack st).Ok := { h with }

theorem World.Ok.dead (h : W.Ok) : W.dead.Ok := { h with }

/-- A step on the code that may use what holds of the world. -/
theorem writes_of_ok {α : Type} {x : Emit α} {Q : α → World → Prop}
    (h : W.Ok → Writes env (W.withStack st) x Q) : Writes env (W.withStack st) x Q :=
  fun s hs => h { hs.ok with } s hs

/-- The steps change the stack and nothing else. -/
def Turns (env : Env) (W : World) (st : List Kind) (x : Emit Unit) (st' : List Kind) : Prop :=
  Leads env (W.withStack st) x (W.withStack st')

theorem Turns.seq {β : Type} {x : Emit Unit} {f : Unit → Emit β} {R : β → World → Prop}
    (h : Turns env W st x st') (hf : Writes env (W.withStack st') (f ()) R) :
    Writes env (W.withStack st) (x >>= f) R := Leads.seq h hf

/-- A step on the instructions that changes the stack. -/
theorem turns_onCode {f : ClassFile.Code → ClassFile.Code}
    (hf : ∀ p c, c.Flows p W.entry W.result { W.toFlow with stack := st } →
      (f c).Flows p W.entry W.result { W.toFlow with stack := st' }) :
    Turns env W st (onCode f) st' :=
  writes_onCode (W.withStack st') hf ⟨rfl, ⟨rfl, rfl⟩, rfl⟩ World.Ok.withStack rfl

/-- A step that may add constants and changes the stack. -/
theorem turns_onPool {f : Pool → ClassFile.Code → Pool × ClassFile.Code}
    (hf : ∀ p c, Pool.Sound Plain p →
      c.Flows p W.entry W.result { W.toFlow with stack := st } →
      Code.Grows Plain p W.entry W.result { W.toFlow with stack := st' } (f p c)) :
    Turns env W st (onPool f) st' :=
  writes_onPool (W.withStack st') hf ⟨rfl, ⟨rfl, rfl⟩, rfl⟩ World.Ok.withStack rfl

theorem turns_nothing : Turns env W st (pure ()) st := writes_pure rfl

/-- An opcode that is an instruction by itself, after which control goes on. -/
def Simple (o : Opcode) : Prop :=
  Instr.isPlain o = true ∧ o.endsBlock = false ∧ o.returns? = none

instance (o : Opcode) : Decidable (Simple o) :=
  decidable_of_iff (_ ∧ o.endsBlock = false ∧ o.returns? = none)
    (and_congr_left' Instr.isPlain_iff.symm)

theorem turns_op {o : Opcode} (st' : List Kind) (ho : Simple o) (ha : o.act? st = some st') :
    Turns env W st (op o) st' := by
  refine turns_onCode fun p c h => ?_
  have hflow := h.emit ho.1 ha (by rw [ho.2.2]; rfl)
  rw [ho.2.1, Bool.not_false, Bool.and_true] at hflow
  exact hflow

/-- An opcode that is an instruction by itself, after which control does not go on. -/
def Last (o : Opcode) : Prop :=
  Instr.isPlain o = true ∧ o.endsBlock = true

instance (o : Opcode) : Decidable (Last o) :=
  decidable_of_iff (_ ∧ o.endsBlock = true) (and_congr_left' Instr.isPlain_iff.symm)

/-- An instruction after which control does not go on, so that any stack may be assumed. -/
theorem leads_end {o : Opcode} (rest st' : List Kind) (ho : Last o)
    (hr : o.returns?.getD W.result = W.result)
    (ha : o.act? st = some rest) : Leads env (W.withStack st) (op o) (W.dead.withStack st') := by
  refine writes_onCode (W.dead.withStack st') (fun p c h => ?_) ⟨rfl, ⟨rfl, rfl⟩, rfl⟩
    (fun hok => hok.withStack.dead) rfl
  have hflow := h.emit ho.1 ha hr
  exact hflow.silent (hflow.live (by rw [ho.2, Bool.not_true, Bool.and_false])) false _ _

theorem turns_pushInt (n : Int32) : Turns env W st (pushInt n) (.int :: st) :=
  turns_onPool fun _ _ hp h => h.pushInt legible_plain hp n

theorem turns_pushBool (b : Bool) : Turns env W st (onCode fun c => c.pushBool b) (.int :: st) := by
  cases b with
  | true => exact turns_op (o := .iconst1) _ (by decide) rfl
  | false => exact turns_op (o := .iconst0) _ (by decide) rfl

theorem turns_pushString (t : String) : Turns env W st (pushString t) (.ref :: st) :=
  turns_onPool fun _ _ hp h => h.pushString hp t

theorem turns_pushClass (name : String) : Turns env W st (pushClass name) (.ref :: st) :=
  turns_onPool fun _ _ hp h => h.pushClass hp name

/-- Slots with a value are in reach. -/
theorem World.Ok.slot (h : W.Ok) {l : Local} (hl : W.Has l) : l.slot ≤ 65535 := by
  have := h.locals _ _ hl
  have := h.next
  omega

theorem turns_load {l : Local} (hl : W.Has l) :
    Turns env W st (load l) (l.ty.localKind.kind :: st) :=
  writes_of_ok fun hok => turns_onCode fun _ _ h => h.load (hok.slot hl) hl

/-- A slot whose kind is known. -/
theorem turns_loadAs {l : Local} {k : Kind} (hl : W.Has l) (hk : l.ty.localKind.kind = k) :
    Turns env W st (load l) (k :: st) := hk ▸ turns_load hl

theorem turns_loadNumber {l : Local} (hl : W.Has l) (hty : l.ty = .int) :
    Turns env W st (load l) (.int :: st) := turns_loadAs hl (by rw [hty]; rfl)

theorem turns_increment {l : Local} {d : Int} (hl : W.Has l) (hk : l.ty.localKind = .int)
    (hd : -0x8000 ≤ d ∧ d ≤ 0x7fff) : Turns env W st (increment l d) st :=
  writes_of_ok fun hok =>
    turns_onCode fun _ _ h => h.iinc (hok.slot hl) (hl.trans (by rw [hk]; rfl)) hd

/-- The world after a value has been stored. -/
def World.storing (W : World) (l : Local) : World :=
  { W with locals := fun k => if k = l.slot then some l.ty.localKind.kind else W.locals k }

theorem World.storing_has (W : World) (l : Local) : (W.storing l).Has l := if_pos rfl

theorem leads_store {l : Local} (hslot : l.slot < W.next) :
    Leads env (W.withStack (l.ty.localKind.kind :: st)) (store l) ((W.storing l).withStack st) := by
  refine writes_of_ok fun hok => writes_onCode ((W.storing l).withStack st)
    (fun _ _ h => h.store (by have := hok.next; omega) rfl)
    ⟨rfl, ⟨rfl, rfl⟩, rfl⟩ (fun _ => ?_) rfl
  refine { hok with locals := fun k kind hk => ?_ }
  change (if k = l.slot then _ else _) = _ at hk
  split at hk
  · rename_i heq
    exact heq ▸ hslot
  · exact hok.locals k kind hk

/-- A value of the same kind is stored again. -/
theorem turns_store {l : Local} (hl : W.Has l) :
    Turns env W (l.ty.localKind.kind :: st) (store l) st := by
  refine writes_of_ok fun hok => ?_
  have hsame : W.storing l = W := by
    have hlocals : (fun k => if k = l.slot then some l.ty.localKind.kind else W.locals k) =
        W.locals := by
      funext k
      split
      · rename_i heq
        rw [heq]
        exact hl.symm
      · rfl
    unfold World.storing
    rw [hlocals]
  have hstore : Leads env (W.withStack (l.ty.localKind.kind :: st)) (store l)
      ((W.storing l).withStack st) := leads_store (hok.locals _ _ hl)
  rwa [hsame] at hstore

/-- The same, of a slot whose kind is known. -/
theorem turns_storeAs {l : Local} {k : Kind} (hl : W.Has l) (hk : l.ty.localKind.kind = k) :
    Turns env W (k :: st) (store l) st := hk ▸ turns_store hl

/-- Storing a value of the kind that the slot has, if it has one. -/
theorem World.Past.storing {W W' : World} {ls : List Nat} (h : W.Past ls W') {l : Local}
    (hl : ∀ kind, W.locals l.slot = some kind → kind = l.ty.localKind.kind) :
    W.Past ls (W'.storing l) := by
  refine { h with locals := fun k kind hk => ?_ }
  change (if k = l.slot then _ else _) = _
  split
  · rename_i heq
    rw [hl kind (heq ▸ hk)]
  · exact h.locals k kind hk

theorem turns_getStatic {owner name desc : String} {ks : List Kind} (hk : IsField desc ks)
    (hs : slotSize desc = ks.length) (hn : Clean name) (hd : Clean desc) :
    Turns env W st (getStatic owner name desc) (ks ++ st) :=
  turns_onPool fun _ _ hp h =>
    h.getStatic (m := ⟨owner, name, desc⟩) legible_plain hp ⟨hn, hd⟩ hk hs

/-- A descriptor of some kinds that can stand in the pool. -/
structure Calls (desc : String) (args res : List Kind) : Prop where
  kinds : descriptorKinds? desc = some (args, res)
  clean : Clean desc

instance (desc : String) (args res : List Kind) : Decidable (Calls desc args res) :=
  decidable_of_iff (descriptorKinds? desc = some (args, res) ∧ Clean desc)
    ⟨fun h => ⟨h.1, h.2⟩, fun h => ⟨h.1, h.2⟩⟩

theorem calls_methodDescriptor {ts : List Ty} {result : Ty}
    (hts : ∀ t ∈ ts, t.Complete ∧ t ≠ .unit) (hr : result.Complete) :
    Calls (methodDescriptor ts (some result)) (ts.map fun t => t.localKind.kind) result.kinds := by
  obtain ⟨hk, hc⟩ := descriptorKinds?_methodDescriptor hts hr
  exact ⟨hk, hc⟩

theorem turns_callStatic {owner name desc : String} (args res : List Kind)
    (hd : Calls desc args res) (hn : Clean name) :
    Turns env W (args.reverse ++ st) (callStatic owner name desc) (res ++ st) :=
  turns_onPool fun _ _ hp h => h.invoke (m := ⟨owner, name, desc⟩) st legible_plain hp
    ⟨hn, hd.clean⟩ (.inl rfl) hd.kinds (by simp [Code.takesObject])

theorem turns_callVirtual {owner name desc : String} (args res : List Kind)
    (hd : Calls desc args res) (hn : Clean name) :
    Turns env W (args.reverse ++ .ref :: st) (callVirtual owner name desc) (res ++ st) :=
  turns_onPool fun _ _ hp h => h.invoke (m := ⟨owner, name, desc⟩) st legible_plain hp
    ⟨hn, hd.clean⟩ (.inr (.inl rfl)) hd.kinds (by rw [List.append_assoc]; rfl)

theorem turns_callInit {owner desc : String} (args res : List Kind) (hd : Calls desc args res) :
    Turns env W (args.reverse ++ .ref :: st) (callInit owner desc) (res ++ st) :=
  turns_onPool fun _ _ hp h => h.invoke (m := ⟨owner, "<init>", desc⟩) st legible_plain hp
    ⟨show Clean "<init>" by decide, hd.clean⟩ (.inr (.inr rfl)) hd.kinds
    (by rw [List.append_assoc]; rfl)

theorem turns_callInterface {owner name desc : String} (args res : List Kind)
    (hd : Calls desc args res) (hn : Clean name) (hlen : args.length < 255) :
    Turns env W (args.reverse ++ .ref :: st) (callInterface owner name desc) (res ++ st) :=
  turns_onPool fun _ _ hp h =>
    h.invokeInterface (m := ⟨owner, name, desc⟩)
      (f := { W.toFlow with stack := args.reverse ++ .ref :: st }) legible_plain hp
      ⟨hn, hd.clean⟩ hd.kinds hlen rfl

theorem turns_onClass {o : Opcode} (st' : List Kind) (ho : Code.onClass o)
    (ha : o.act? st = some st') (name : String) : Turns env W st (onClass o name) st' :=
  turns_onPool fun _ _ hp h => h.typeOp hp ho ha name

theorem turns_newArrayOf {elements : UInt8}
    (he : elements = booleanElements ∨ elements = intElements) :
    Turns env W (.int :: st) (onCode fun c => c.newArray elements) (.ref :: st) :=
  turns_onCode fun _ _ h => h.newArray he rfl

end Straight

end Emit
end Kotlet

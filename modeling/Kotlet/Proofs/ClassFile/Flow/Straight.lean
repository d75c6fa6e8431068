import Kotlet.Proofs.ClassFile.Flow

/-!
# Straight-line code

What every instruction that is no branch does to the flow of control.

* `Flows.emit` : an opcode by itself;
* `Flows.load`, `Flows.store`, `Flows.iinc` : local variables;
* `Grows` : a step that may add constants to the pool;
* `Flows.getStatic`, `Flows.invoke`, `Flows.invokeInterface` : members of classes;
* `Flows.typeOp`, `Flows.newArray` : objects and arrays;
* `Flows.pushInt`, `Flows.pushString`, `Flows.pushClass` : constants.
-/

namespace Kotlet
namespace ClassFile

open ParsedClass Instr

namespace Code

variable {p : Pool} {entry result : List Kind} {f : Flow} {c : Code}

theorem adjust_of_eq {d : Int} {height : Nat} (h : (c.depth : Int) + d = height) :
    c.adjust d = { c with depth := height, maxStack := max c.maxStack height } := by
  simp only [adjust, h, if_neg (Int.not_lt.mpr (Int.natCast_nonneg height)), Int.toNat_natCast]

/-- An instruction that is written with a change of the height. -/
theorem extends_write {i : Instr} {bs : List UInt8} {d : Int} (height : Nat)
    (hr : c.reachable = true) (hd : (c.depth : Int) + d = height)
    (hi : decode (c.bytes ++ bs.toArray) c.bytes.size = some (i, bs.length)) (hpos : 0 < bs.length)
    (hf : i.falls = true) (hslot : i.slot? = none) (hplain : ∀ op l, i ≠ .branch op l) :
    Extends i height c ((c.write bs).adjust d) := by
  rw [adjust_of_eq (c := c.write bs) hd]
  exact
    { labels := rfl
      grows := by simp
      falls := hr.trans hf.symm
      ends := fun h => by rw [hf] at h; cases h
      depth := fun _ => ⟨rfl, Nat.le_max_right _ _⟩
      maxStack := Nat.le_max_left _ _
      maxLocals := Nat.le_refl _
      limits := ⟨id, fun _ he => .inl he⟩
      plain := hplain
      decodes := fun _ => ⟨bs, hpos, by simp, hi⟩
      slot := fun _ slot hs => by rw [hslot] at hs; cases hs }

theorem extends_emit {op : Opcode} {st st' : List Kind} (hr : c.reachable = true)
    (hd : c.depth = st.length) (hp : isPlain op = true) (ha : op.act? st = some st') :
    Extends (.plain op) st'.length c (c.emit op) := by
  have heff := Opcode.effect?_of_act? ha
  have hdepth : (c.depth : Int) + ((st'.length : Int) - st.length) = st'.length := by omega
  have hemit : c.emit op =
      { c.write [op.byte] with depth := st'.length, maxStack := max c.maxStack st'.length }.endBlock
        op := by
    simp only [emit, hr, Bool.not_true, Bool.false_eq_true, if_false, heff]
    rw [adjust_of_eq (c := c.write [op.byte]) hdepth]
    rfl
  have hbytes : (c.emit op).bytes = c.bytes ++ [op.byte].toArray := by
    rw [hemit, endBlock_bytes]
    exact write_bytes c [op.byte]
  have hrest : (c.emit op).labels = c.labels ∧ (c.emit op).error = c.error ∧
      (c.emit op).maxLocals = c.maxLocals ∧ (c.emit op).reachable = !op.endsBlock ∧
      (op.endsBlock = false → (c.emit op).depth = st'.length) ∧
      (c.emit op).maxStack = max c.maxStack st'.length := by
    rw [hemit]
    unfold endBlock
    cases hb : op.endsBlock with
    | true => exact ⟨rfl, rfl, rfl, rfl, (by simp), rfl⟩
    | false => exact ⟨rfl, rfl, rfl, hr, fun _ => rfl, rfl⟩
  obtain ⟨hlabels, herror, hlocals, hreach, hheight, hmax⟩ := hrest
  exact
    { labels := hlabels
      grows := by simp [hbytes]
      falls := hreach
      ends := fun _ => by simp [hbytes]
      depth := fun hf => by
        rw [hmax]
        exact ⟨hheight (by simpa [falls] using hf), Nat.le_max_right _ _⟩
      maxStack := by rw [hmax]; exact Nat.le_max_left _ _
      maxLocals := Nat.le_of_eq hlocals.symm
      limits := ⟨fun h => herror ▸ h, fun e he => .inl (herror ▸ he)⟩
      plain := fun _ _ h => by cases h
      decodes := fun _ => ⟨[op.byte], by simp, hbytes, decode_plain hp⟩
      slot := fun _ slot hs => by cases hs }

theorem Flows.emit {op : Opcode} {st : List Kind} (h : c.Flows p entry result f)
    (hp : isPlain op = true) (ha : op.act? f.stack = some st)
    (hres : op.returns?.getD result = result) :
    (c.emit op).Flows p entry result { f with live := f.live && !op.endsBlock, stack := st } := by
  cases hr : c.reachable with
  | false =>
    have hc : c.emit op = c := by simp [Code.emit, hr]
    rw [hc]
    exact h.silent hr _ _ _
  | true =>
    refine h.extend (i := .plain op) _ (.refl p) hr (extends_emit hr (h.depth hr).1 hp ha) fun _ => ?_
    refine ⟨?_, fun _ _ h => by cases h⟩
    have hst : stack? p result f.shape (.plain op) = some st := by
      rw [stack?, if_pos hres]
      exact ha
    rw [step?, hst]
    rfl

theorem Flows.ldc {i : UInt16} {k : Kind} (h : c.Flows p entry result f)
    (hk : p.error = none → ∃ x, p.constant? i = some x ∧ x.kind? = some k) :
    (c.ldc i).Flows p entry result { f with stack := k :: f.stack } := by
  cases hr : c.reachable with
  | false =>
    have hc : c.ldc i = c := by simp [Code.ldc, hr]
    rw [hc]
    exact h.silent hr _ _ _
  | true =>
    have hd : (c.depth : Int) + 1 = (k :: f.stack).length := by
      rw [(h.depth hr).1, List.length_cons]
      omega
    have hx : Extends (.constant i) (k :: f.stack).length c (c.ldc i) := by
      simp only [Code.ldc, hr, Bool.not_true, Bool.false_eq_true, if_false]
      split
      · rename_i hi
        exact extends_write _ hr hd (decode_ldc hi) (by simp) rfl rfl fun _ _ h => by cases h
      · exact extends_write _ hr hd (decode_indexed .ldcW (by decide) i) (by simp [bytes2]) rfl
          rfl fun _ _ h => by cases h
    have hflow := h.extend f.locals (.refl p) hr hx fun hp => by
      obtain ⟨x, hx, hxk⟩ := hk hp
      refine ⟨?_, fun _ _ h => by cases h⟩
      simp only [step?, stack?, hx, hxk, Option.bind_eq_bind, Option.bind_some]
      rfl
    simpa only [falls, Bool.and_true] using hflow

/-! ## Local variables -/

/-- An instruction on a local variable changes its slot count at most, besides what is written. -/
theorem extends_local {i : Instr} {bs : List UInt8} {d : Int} {height slot : Nat}
    (hr : c.reachable = true) (hd : (c.depth : Int) + d = height)
    (hi : decode (c.bytes ++ bs.toArray) c.bytes.size = some (i, bs.length)) (hpos : 0 < bs.length)
    (hf : i.falls = true) (hslot : i.slot? = some slot) (hplain : ∀ op l, i ≠ .branch op l) :
    Extends i height c (((c.write bs).useLocal slot).adjust d) := by
  rw [adjust_of_eq (c := (c.write bs).useLocal slot) hd]
  exact
    { labels := rfl
      grows := by simp [useLocal]
      falls := hr.trans hf.symm
      ends := fun h => by rw [hf] at h; cases h
      depth := fun _ => ⟨rfl, Nat.le_max_right _ _⟩
      maxStack := Nat.le_max_left _ _
      maxLocals := Nat.le_max_left _ _
      limits := ⟨id, fun _ he => .inl he⟩
      plain := hplain
      decodes := fun _ => ⟨bs, hpos, by simp [useLocal], hi⟩
      slot := fun _ k hk => by
        rw [hslot] at hk
        cases hk
        exact Nat.lt_of_lt_of_le (by omega) (Nat.le_max_right _ _) }

theorem extends_onLocal {first long : Opcode} {make : Nat → Instr} (ha : Instr.Access first long make)
    {d : Int} {slot : Nat} (height : Nat) (hs : slot ≤ 65535) (hr : c.reachable = true)
    (hd : (c.depth : Int) + d = height) (hf : (make slot).falls = true)
    (hslot : (make slot).slot? = some slot) (hplain : ∀ op l, make slot ≠ .branch op l) :
    Extends (make slot) height c ((c.onLocal first long slot).adjust d) := by
  unfold onLocal
  rw [if_neg (by omega : ¬ ((slot : Int) < 0 ∨ 65535 < (slot : Int)))]
  by_cases h3 : (slot : Int) ≤ 3
  · rw [if_pos h3]
    exact extends_local hr hd (decode_short ha (by omega)) (by simp) hf hslot hplain
  · rw [if_neg h3]
    by_cases h255 : (slot : Int) ≤ 255
    · rw [if_pos h255]
      exact extends_local hr hd (decode_slot ha.form (by omega) (ha.slot slot)) (by simp) hf hslot
        hplain
    · rw [if_neg h255]
      exact extends_local hr hd (decode_wide ha.ne hs (ha.slot slot)) (by simp [bytes2]) hf hslot
        hplain

theorem extends_load (kind : LocalKind) {slot : Nat} (height : Nat) (hs : slot ≤ 65535)
    (hr : c.reachable = true) (hd : c.depth + 1 = height) :
    Extends (.load kind slot) height c (c.load kind slot) := by
  have hx := extends_onLocal (c := c) (access_load kind) height hs hr (d := 1) (by omega) rfl rfl fun _ _ h => by cases h
  cases kind <;> simpa only [Code.load, hr, Bool.not_true, Bool.false_eq_true, if_false] using hx

theorem extends_store (kind : LocalKind) {slot : Nat} (height : Nat) (hs : slot ≤ 65535)
    (hr : c.reachable = true) (hd : c.depth = height + 1) :
    Extends (.store kind slot) height c (c.store kind slot) := by
  have hx := extends_onLocal (c := c) (access_store kind) height hs hr (d := -1) (by omega) rfl rfl fun _ _ h => by cases h
  cases kind <;> simpa only [Code.store, hr, Bool.not_true, Bool.false_eq_true, if_false] using hx

theorem Flows.load {kind : LocalKind} {slot : Nat} (h : c.Flows p entry result f)
    (hs : slot ≤ 65535) (hk : f.locals slot = some kind.kind) :
    (c.load kind slot).Flows p entry result { f with stack := kind.kind :: f.stack } := by
  cases hr : c.reachable with
  | false =>
    have hc : c.load kind slot = c := by simp [Code.load, hr]
    rw [hc]
    exact h.silent hr _ _ _
  | true =>
    have hx := extends_load kind (kind.kind :: f.stack).length hs hr
      (by rw [(h.depth hr).1]; rfl)
    have hflow := h.extend f.locals (.refl p) hr hx fun _ =>
      ⟨by rw [step?, stack?, if_pos (show f.shape.locals slot = _ from hk)]; rfl,
        fun _ _ h => by cases h⟩
    simpa only [falls, Bool.and_true] using hflow

theorem Flows.store {kind : LocalKind} {slot : Nat} {st : List Kind} (h : c.Flows p entry result f)
    (hs : slot ≤ 65535) (hst : f.stack = kind.kind :: st) :
    (c.store kind slot).Flows p entry result
      { f with
        stack := st
        locals := fun k => if k = slot then some kind.kind else f.locals k } := by
  cases hr : c.reachable with
  | false =>
    have hc : c.store kind slot = c := by simp [Code.store, hr]
    rw [hc]
    exact h.silent hr _ _ _
  | true =>
    have hx := extends_store kind st.length hs hr
      (by rw [(h.depth hr).1, hst]; rfl)
    have hflow := h.extend (fun k => if k = slot then some kind.kind else f.locals k)
      (.refl p) hr hx fun _ => by
        refine ⟨?_, fun _ _ h => by cases h⟩
        have hpop : pop? [kind.kind] f.shape.stack = some st := by
          rw [Flow.shape, hst]
          exact pop?_append [kind.kind] st
        rw [step?, stack?, hpop]
        rfl
    simpa only [falls, Bool.and_true] using hflow

theorem extends_iinc {slot : Nat} {delta : Int} (hs : slot ≤ 65535) (hr : c.reachable = true)
    (hd : c.depth ≤ c.maxStack) (hdelta : -0x8000 ≤ delta ∧ delta ≤ 0x7fff) :
    Extends (.increment slot delta) c.depth c (c.iinc slot delta) := by
  have hwrite : ∀ bs : List UInt8, 0 < bs.length →
      decode (c.bytes ++ bs.toArray) c.bytes.size = some (.increment slot delta, bs.length) →
        Extends (.increment slot delta) c.depth c ((c.write bs).useLocal slot) := fun bs hpos hi =>
    { labels := rfl
      grows := by simp [useLocal]
      falls := hr
      ends := fun h => by cases h
      depth := fun _ => ⟨rfl, hd⟩
      maxStack := Nat.le_refl _
      maxLocals := Nat.le_max_left _ _
      limits := ⟨id, fun _ he => .inl he⟩
      plain := fun _ _ h => by cases h
      decodes := fun _ => ⟨bs, hpos, by simp [useLocal], hi⟩
      slot := fun _ k hk => by
        cases hk
        exact Nat.lt_of_lt_of_le (by omega) (Nat.le_max_right _ _) }
  unfold iinc
  simp only [hr, Bool.not_true, Bool.false_eq_true, if_false]
  rw [if_neg (by omega : ¬ (delta < -0x8000 ∨ 0x7fff < delta))]
  by_cases h : (slot : Int) ≤ 255 ∧ -0x80 ≤ delta ∧ delta ≤ 0x7f
  · rw [if_pos h]
    exact hwrite _ (by simp) (decode_iinc slot (by omega) h.2)
  · rw [if_neg h]
    exact hwrite _ (by simp) (decode_wideIinc slot (by omega) hdelta)

theorem Flows.iinc {slot : Nat} {delta : Int} (h : c.Flows p entry result f) (hs : slot ≤ 65535)
    (hk : f.locals slot = some .int) (hdelta : -0x8000 ≤ delta ∧ delta ≤ 0x7fff) :
    (c.iinc slot delta).Flows p entry result f := by
  cases hr : c.reachable with
  | false =>
    have hc : c.iinc slot delta = c := by simp [Code.iinc, hr]
    rw [hc]
    exact h
  | true =>
    have hx := extends_iinc hs hr (by rw [(h.depth hr).1]; exact (h.depth hr).2) hdelta
    rw [(h.depth hr).1] at hx
    have hflow := h.extend f.locals (.refl p) hr hx fun _ =>
      ⟨by rw [step?, stack?, if_pos (show f.shape.locals slot = _ from hk)]; rfl,
        fun _ _ h => by cases h⟩
    simpa only [falls, Bool.and_true] using hflow

/-! ## Members and types -/

section Members

variable {A : Member → Prop}

/-- What a step that may add constants leaves. -/
structure Grows (A : Member → Prop) (p : Pool) (entry result : List Kind) (f : Flow)
    (x : Pool × Code) : Prop where
  le : p.Le x.1
  sound : Pool.Sound A x.1
  flows : x.2.Flows x.1 entry result f

theorem Flows.unreached (h : c.Flows p entry result f) (hp : Pool.Sound A p)
    (hr : c.reachable = false) (st : List Kind) :
    Grows A p entry result { f with stack := st } (p, c) :=
  ⟨.refl p, hp, h.silent hr _ _ _⟩

/-- A constant is added and an instruction is written that refers to it. -/
theorem Flows.refer {i : UInt16 → Instr} {k : Pool.Key} {x : UInt16 × Pool} {bs : List UInt8}
    {d : Int} {st : List Kind} (h : c.Flows p entry result f) (hx : Pool.Answers A p k x)
    (hr : c.reachable = true) (hd : (f.stack.length : Int) + d = st.length)
    (hi : decode (c.bytes ++ bs.toArray) c.bytes.size = some (i x.1, bs.length))
    (hpos : 0 < bs.length) (hf : (i x.1).falls = true) (hslot : (i x.1).slot? = none)
    (hplain : ∀ op l, i x.1 ≠ .branch op l)
    (hstep : x.2.error = none → (i x.1).step? x.2 result f.shape = some ⟨st, f.locals⟩ ∧
      ∀ j count, i x.1 = .interface j count → countedBy x.2 j count) :
    Grows A p entry result { f with stack := st } (x.2, (c.write bs).adjust d) := by
  refine ⟨hx.le, hx.sound, ?_⟩
  have hext := extends_write (c := c) (d := d) st.length hr
    (by rw [(h.depth hr).1]; exact hd) hi hpos hf hslot hplain
  have hflow := h.extend _ hx.le hr hext hstep
  simpa only [hf, Bool.and_true] using hflow

theorem access?_eq {m : Member} {op : Opcode} {i : UInt16} {pops pushes st : List Kind}
    (hm : p.member? i = some m) (hr : op.memberRule? m.desc = some (pops, pushes)) :
    access? p op i (pops ++ st) = some (pushes ++ st) := by
  simp [access?, hm, hr]

theorem Flows.getStatic {m : Member} {ks : List Kind} (hA : Pool.Legible A) (hp : Pool.Sound A p)
    (hm : A m) (h : c.Flows p entry result f) (hk : IsField m.desc ks)
    (hs : slotSize m.desc = ks.length) :
    Grows A p entry result { f with stack := ks ++ f.stack }
      (c.field p .getStatic m.owner m.name m.desc) := by
  cases hr : c.reachable with
  | false =>
    have hc : c.field p .getStatic m.owner m.name m.desc = (p, c) := by simp [Code.field, hr]
    rw [hc]
    exact h.unreached hp hr _
  | true =>
    have hx : Pool.Answers A p ⟨9, Text.ofString (Pool.memberText m)⟩
        (p.fieldRef m.owner m.name m.desc) :=
      Pool.answers_member hp hm (fun _ _ => rfl) fun ht hi hj => ⟨m, hm, ht, hi, hj⟩
    have hc : c.field p .getStatic m.owner m.name m.desc =
        ((p.fieldRef m.owner m.name m.desc).2,
          (c.write (Opcode.getStatic.byte :: bytes2 (p.fieldRef m.owner m.name m.desc).1)).adjust
            (slotSize m.desc)) := by
      simp only [Code.field, hr, Bool.not_true, Bool.false_eq_true, if_false, if_true]
    rw [hc]
    refine h.refer (i := fun i => .member .getStatic i) hx hr ?_
      (decode_indexed .getStatic (by decide) _) (by simp) rfl rfl
      (fun _ _ h => by cases h) fun he => ⟨?_, fun _ _ h => by cases h⟩
    · rw [hs, List.length_append]
      omega
    · have hmem := hx.member? hA hm he (.inl rfl)
      have hfield := hk []
      rw [List.append_nil] at hfield
      have hrule : Opcode.getStatic.memberRule? m.desc = some ([], ks) := by
        rw [Opcode.memberRule?, if_pos rfl, hfield]
      rw [step?, stack?, Flow.shape, ← List.nil_append f.stack, access?_eq hmem hrule]
      rfl

/-- The ways to call a method that is not one of an interface. -/
def takesObject (op : Opcode) : List Kind := if op = .invokeStatic then [] else [.ref]

theorem Flows.invoke {m : Member} {op : Opcode} {args res : List Kind}
    (h : c.Flows p entry result f) (st : List Kind) (hA : Pool.Legible A) (hp : Pool.Sound A p)
    (hm : A m)
    (hop : op = .invokeStatic ∨ op = .invokeVirtual ∨ op = .invokeSpecial)
    (hk : descriptorKinds? m.desc = some (args, res))
    (hst : f.stack = args.reverse ++ takesObject op ++ st) :
    Grows A p entry result { f with stack := res ++ st }
      (c.invoke p op m.owner m.name m.desc) := by
  cases hr : c.reachable with
  | false =>
    have hc : c.invoke p op m.owner m.name m.desc = (p, c) := by simp [Code.invoke, hr]
    rw [hc]
    exact h.unreached hp hr _
  | true =>
    have hx : Pool.Answers A p ⟨10, Text.ofString (Pool.memberText m)⟩
        (p.methodRef m.owner m.name m.desc) :=
      Pool.answers_member hp hm (fun _ _ => rfl) fun ht hi hj => ⟨m, hm, ht, hi, hj⟩
    have hc : c.invoke p op m.owner m.name m.desc =
        ((p.methodRef m.owner m.name m.desc).2,
          (c.write (op.byte :: bytes2 (p.methodRef m.owner m.name m.desc).1)).adjust
            ((res.length : Int) - args.length - (takesObject op).length)) := by
      simp only [Code.invoke, hr, Bool.not_true, Bool.false_eq_true, if_false,
        descriptorSlots?_of_kinds hk]
      rcases hop with rfl | rfl | rfl
      · rw [if_pos rfl]
        simp [takesObject]
      · rw [if_neg (by decide), if_pos (.inl rfl)]
        rfl
      · rw [if_neg (by decide), if_pos (.inr rfl)]
        rfl
    have hform : operandForm op = .constant ∧ indexed op = .member op ∧
        op.memberRule? m.desc = some (args.reverse ++ takesObject op, res) := by
      unfold Opcode.memberRule?
      rw [hk]
      rcases hop with rfl | rfl | rfl
      · exact ⟨by decide, rfl, by simp [takesObject, Opcode.getStatic, Opcode.invokeStatic]⟩
      · exact ⟨by decide, rfl, rfl⟩
      · exact ⟨by decide, rfl, rfl⟩
    obtain ⟨hform, hindexed, hrule⟩ := hform
    rw [hc]
    refine h.refer (i := fun i => .member op i) hx hr ?_
      ((decode_indexed _ hform _).trans (by rw [hindexed]; rfl)) (by simp) rfl rfl
      (fun _ _ h => by cases h) fun he => ⟨?_, fun _ _ h => by cases h⟩
    · rw [hst]
      simp only [List.length_append, List.length_reverse]
      omega
    · have hmem := hx.member? hA hm he (.inr (.inl rfl))
      rw [step?, stack?, Flow.shape, hst, access?_eq hmem hrule]
      rfl

theorem Flows.invokeInterface {m : Member} {args res st : List Kind} (hA : Pool.Legible A)
    (hp : Pool.Sound A p) (hm : A m) (h : c.Flows p entry result f)
    (hk : descriptorKinds? m.desc = some (args, res)) (hlen : args.length < 255)
    (hst : f.stack = args.reverse ++ .ref :: st) :
    Grows A p entry result { f with stack := res ++ st }
      (c.invoke p .invokeInterface m.owner m.name m.desc) := by
  cases hr : c.reachable with
  | false =>
    have hc : c.invoke p .invokeInterface m.owner m.name m.desc = (p, c) := by
      simp [Code.invoke, hr]
    rw [hc]
    exact h.unreached hp hr _
  | true =>
    have hx : Pool.Answers A p ⟨11, Text.ofString (Pool.memberText m)⟩
        (p.interfaceMethodRef m.owner m.name m.desc) :=
      Pool.answers_member hp hm (fun _ _ => rfl) fun ht hi hj => ⟨m, hm, ht, hi, hj⟩
    have hc : c.invoke p .invokeInterface m.owner m.name m.desc =
        ((p.interfaceMethodRef m.owner m.name m.desc).2,
          (c.write (Opcode.invokeInterface.byte ::
            (bytes2 (p.interfaceMethodRef m.owner m.name m.desc).1 ++
              [UInt8.ofNat (args.length + 1), 0]))).adjust
            ((res.length : Int) - args.length - 1)) := by
      simp only [Code.invoke, hr, Bool.not_true, Bool.false_eq_true, if_false,
        descriptorSlots?_of_kinds hk]
      rfl
    rw [hc]
    refine h.refer (i := fun i => .interface i (UInt8.ofNat (args.length + 1))) hx hr ?_
      (decode_interface _ _) (by simp) rfl rfl (fun _ _ h => by cases h) fun he => ?_
    · rw [hst]
      simp only [List.length_append, List.length_reverse, List.length_cons]
      omega
    · have hmem := hx.member? hA hm he (.inr (.inr rfl))
      have hrule : Opcode.invokeInterface.memberRule? m.desc = some (args.reverse ++ [.ref], res) := by
        unfold Opcode.memberRule?
        rw [hk]
        rfl
      refine ⟨?_, fun j count hj => ?_⟩
      · rw [step?, stack?, Flow.shape, hst, ← List.singleton_append, ← List.append_assoc,
          access?_eq hmem hrule]
        rfl
      · obtain ⟨rfl, rfl⟩ := Instr.interface.inj hj
        refine ⟨m, args, res, hmem, hk, ?_⟩
        rw [UInt8.toNat_ofNat']
        omega

/-- The opcodes on a class. -/
def onClass (op : Opcode) : Prop :=
  op = .newObject ∨ op = .anewArray ∨ op = .checkCast ∨ op = .instanceOf

instance (op : Opcode) : Decidable (onClass op) := inferInstanceAs (Decidable (_ ∨ _))

theorem Flows.typeOp {op : Opcode} {st : List Kind} (hp : Pool.Sound A p)
    (h : c.Flows p entry result f) (hop : onClass op) (ha : op.act? f.stack = some st)
    (name : String) :
    Grows A p entry result { f with stack := st } (c.typeOp p op name) := by
  cases hr : c.reachable with
  | false =>
    have hc : c.typeOp p op name = (p, c) := by simp [Code.typeOp, hr]
    rw [hc]
    exact h.unreached hp hr _
  | true =>
    have hx := Pool.answers_classRef hp name
    have heff := Opcode.effect?_of_act? ha
    have hc : c.typeOp p op name = ((p.classRef name).2,
        (c.write (op.byte :: bytes2 (p.classRef name).1)).adjust
          ((st.length : Int) - f.stack.length)) := by
      have hop' : op = .newObject ∨ op = .anewArray ∨ op = .checkCast ∨ op = .instanceOf := hop
      simp only [Code.typeOp, hr, Bool.not_true, Bool.false_eq_true, if_false, if_pos hop', heff,
        Option.getD_some]
    have hform : operandForm op = .constant ∧ indexed op = .onType op := by
      rcases hop with rfl | rfl | rfl | rfl <;> exact ⟨by decide, rfl⟩
    rw [hc]
    refine h.refer (i := fun i => .onType op i) hx hr (by omega)
      ((decode_indexed _ hform.1 _).trans (by rw [hform.2]; rfl)) (by simp) rfl rfl
      (fun _ _ h => by cases h) fun he => ⟨?_, fun _ _ h => by cases h⟩
    simp only [step?, stack?, hx.class? he, Option.bind_eq_bind, Option.bind_some, Flow.shape, ha]
    rfl

theorem Flows.newArray {elements : UInt8} {st : List Kind} (h : c.Flows p entry result f)
    (he : elements = booleanElements ∨ elements = intElements) (hst : f.stack = .int :: st) :
    (c.newArray elements).Flows p entry result { f with stack := .ref :: st } := by
  cases hr : c.reachable with
  | false =>
    have hc : c.newArray elements = c := by simp [Code.newArray, hr]
    rw [hc]
    exact h.silent hr _ _ _
  | true =>
    have hd := h.depth hr
    have hlen : f.stack.length = (Kind.ref :: st).length := by rw [hst]; rfl
    have hc : c.newArray elements = c.write [Opcode.newArray.byte, elements] := by
      simp only [Code.newArray, hr, Bool.not_true, Bool.false_eq_true, if_false]
    have hx : Extends (.newArray elements) (Kind.ref :: st).length c (c.newArray elements) := by
      rw [hc]
      exact
        { labels := rfl
          grows := by simp
          falls := hr
          ends := fun h => by cases h
          depth := fun _ => hlen ▸ hd
          maxStack := Nat.le_refl _
          maxLocals := Nat.le_refl _
          limits := .refl _
          plain := fun _ _ h => by cases h
          decodes := fun _ => ⟨_, by simp, write_bytes _ _, decode_newArray elements⟩
          slot := fun _ _ hs => by cases hs }
    have hflow := h.extend f.locals (.refl p) hr hx fun _ => by
      refine ⟨?_, fun _ _ h => by cases h⟩
      rw [step?, stack?, if_pos he, Flow.shape, hst]
      rfl
    simpa only [falls, Bool.and_true] using hflow

end Members

/-! ## Constants -/

theorem Flows.constant {A : Member → Prop} {key : Pool.Key} {x : UInt16 × Pool} {k : Kind}
    (h : c.Flows p entry result f) (hx : Pool.Answers A p key x)
    (hk : x.2.error = none → ∃ y, x.2.constant? x.1 = some y ∧ y.kind? = some k) :
    Grows A p entry result { f with stack := k :: f.stack } (x.2, c.ldc x.1) :=
  ⟨hx.le, hx.sound, (h.mono hx.le).ldc hk⟩

theorem Flows.pushInt {A : Member → Prop} (hA : Pool.Legible A) (hp : Pool.Sound A p)
    (h : c.Flows p entry result f) (n : Int32) :
    Grows A p entry result { f with stack := .int :: f.stack } (c.pushInt p n) := by
  unfold Code.pushInt
  split
  · rename_i hn
    refine ⟨.refl p, hp, ?_⟩
    have hall : ∀ k : Fin 7, isPlain ⟨UInt8.ofNat (2 + k)⟩ = true ∧
        Opcode.rule? ⟨UInt8.ofNat (2 + k)⟩ = some ([], [.int]) ∧
        (Opcode.shuffle? ⟨UInt8.ofNat (2 + k)⟩).isNone = true ∧
        Opcode.returns? ⟨UInt8.ofNat (2 + k)⟩ = none ∧
        Opcode.endsBlock ⟨UInt8.ofNat (2 + k)⟩ = false := by
      simp only [isPlain_iff]
      decide
    have hlo : -1 ≤ n.toInt := Int32.le_iff_toInt_le.mp hn.1
    have hhi : n.toInt ≤ 5 := Int32.le_iff_toInt_le.mp hn.2
    obtain ⟨k, hk⟩ : ∃ k : Fin 7, (3 + n.toInt).toNat = 2 + k :=
      ⟨⟨(1 + n.toInt).toNat, by omega⟩, by simp only; omega⟩
    obtain ⟨hplain, hrule, hsh, hret, hends⟩ := hall k
    rw [hk]
    have hact : Opcode.act? ⟨UInt8.ofNat (2 + k)⟩ f.stack = some (.int :: f.stack) := by
      rw [Opcode.act?, Option.isNone_iff_eq_none.mp hsh, hrule]
      rfl
    have hflow := h.emit hplain hact (by rw [hret]; rfl)
    rw [hends] at hflow
    simpa only [Bool.not_false, Bool.and_true] using hflow
  · have hx := Pool.answers_integer hp n
    generalize p.integer n = x at hx ⊢
    obtain ⟨i, q⟩ := x
    exact h.constant hx fun he => ⟨_, hx.integer hA he, rfl⟩

theorem Flows.pushString {A : Member → Prop} (hp : Pool.Sound A p)
    (h : c.Flows p entry result f) (t : String) :
    Grows A p entry result { f with stack := .ref :: f.stack } (c.pushString p t) := by
  have hx := Pool.answers_string hp (Text.ofString t)
  unfold Code.pushString
  generalize p.string (Text.ofString t) = x at hx ⊢
  obtain ⟨i, q⟩ := x
  refine h.constant hx fun he => ?_
  obtain ⟨i, hi⟩ := hx.string he
  exact ⟨_, hi, rfl⟩

theorem Flows.pushClass {A : Member → Prop} (hp : Pool.Sound A p)
    (h : c.Flows p entry result f) (name : String) :
    Grows A p entry result { f with stack := .ref :: f.stack } (c.pushClass p name) := by
  have hx := Pool.answers_classRef hp name
  unfold Code.pushClass
  generalize p.classRef name = x at hx ⊢
  obtain ⟨i, q⟩ := x
  refine h.constant hx fun he => ?_
  have hcls := hx.class? he
  unfold Pool.class? at hcls
  split at hcls
  · rename_i j hj
    exact ⟨_, hj, rfl⟩
  · cases hcls

end Code
end ClassFile
end Kotlet

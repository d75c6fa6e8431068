import Kotlet.Proofs.ClassFile.ModifiedUtf8
import Kotlet.Proofs.ClassFile.Request
import Kotlet.Proofs.ClassFile.Trace

/-!
# Room in a body

Only a long body exceeds a limit of the format.

* `Member.IsShort`, `Pool.isShort_of_length` : names that are not too long for the pool;
* `Label.Inside` : a label and the branches that wait for it lie in the body;
* `Code.Roomy n` : no limit is exceeded, and there is room for `n` more bytes;
* `Code.Roomy.emit`, `Code.Roomy.jump`, `Code.Roomy.invoke` and their kin : how much of the room a
  call takes.
-/

namespace Kotlet
namespace ClassFile

/-- The names of the member are short. -/
def Member.IsShort (m : Member) : Prop :=
  Pool.IsShort m.owner ∧ Pool.IsShort m.name ∧ Pool.IsShort m.desc

instance (m : Member) : Decidable m.IsShort := inferInstanceAs (Decidable (_ ∧ _ ∧ _))

/-- A name without very many characters. -/
theorem Pool.isShort_of_length {s : String} (h : s.length ≤ 10000) : Pool.IsShort s := by
  have hle : ∀ cs : List Char, (cs.flatMap ModifiedUtf8.encodeChar).length ≤ 6 * cs.length := by
    intro cs
    induction cs with
    | nil => simp
    | cons c cs ih =>
      have := ModifiedUtf8.length_encodeChar_le c
      rw [List.flatMap_cons, List.length_append, List.length_cons]
      omega
  unfold Pool.IsShort
  rw [← Array.length_toList, ModifiedUtf8.toList_encode_ofString]
  have := hle s.toList
  rw [String.length_toList] at this
  omega

theorem Pool.Roomy.le {m n : Nat} {p : Pool} (h : p.Roomy n) (hle : m ≤ n) : p.Roomy m :=
  ⟨h.1, Nat.le_trans (Nat.add_le_add_left hle _) h.2⟩

/-- A label, and the branches that wait for it, lie in the first `n` bytes. -/
structure Label.Inside (n : Nat) (l : Label) : Prop where
  offset : ∀ o, l.offset = some o → o ≤ n
  pending : ∀ o ∈ l.pending, o ≤ n

theorem Label.Inside.le {m n : Nat} {l : Label} (h : l.Inside m) (hle : m ≤ n) : l.Inside n :=
  ⟨fun o ho => Nat.le_trans (h.offset o ho) hle, fun o ho => Nat.le_trans (h.pending o ho) hle⟩

theorem Label.inside_default (n : Nat) : (default : Label).Inside n := ⟨nofun, nofun⟩

namespace Code

/-- No limit was exceeded, and with `n` more bytes every branch of the body is still short. -/
structure Roomy (n : Nat) (c : Code) : Prop where
  size : c.size + n ≤ 0x7fff
  error : ∀ e, c.error = some e → e.isLimit = false
  labels : ∀ x ∈ c.labels, x.Inside c.size

namespace Roomy

variable {m n : Nat} {c c' : Code} {op : Opcode} {l : Nat}

theorem le (h : c.Roomy n) (hle : m ≤ n) : c.Roomy m :=
  { h with size := Nat.le_trans (Nat.add_le_add_left hle _) h.size }

theorem start (params : Nat) (hn : n ≤ 0x7fff) : (Code.start params).Roomy n :=
  ⟨by simpa [Code.size, Code.start] using hn, nofun, by simp [Code.start]⟩

theorem label (h : c.Roomy n) (l : Nat) : (c.label l).Inside c.size := by
  unfold Code.label
  by_cases hl : l < c.labels.size
  · rw [Array.getD_eq_getD_getElem?, Array.getElem?_eq_getElem hl]
    exact h.labels _ (Array.getElem_mem hl)
  · rw [Array.getD_eq_getD_getElem?, Array.getElem?_eq_none (Nat.le_of_not_lt hl)]
    exact Label.inside_default _

theorem setLabel (h : c.Roomy n) {x : Label} (hx : x.Inside c.size) : (c.setLabel l x).Roomy n :=
  { h with
    labels := fun y hy => (Array.mem_or_eq_of_mem_setIfInBounds hy).elim (h.labels y) (· ▸ hx) }

/-! ## What leaves the bytes as they are -/

theorem fail (h : c.Roomy n) {e : BuildError} (he : e.isLimit = false) : (c.fail e).Roomy n := by
  unfold Code.fail
  split
  · exact h
  · exact { h with error := fun e' he' => Option.some.inj he' ▸ he }

theorem adjust (h : c.Roomy n) (d : Int) : (c.adjust d).Roomy n := by
  unfold Code.adjust
  dsimp only
  split
  · exact { h.fail (e := .underflow c.size) rfl with }
  · exact { h with }

theorem endBlock (h : c.Roomy n) (op : Opcode) : (c.endBlock op).Roomy n := by
  unfold Code.endBlock
  split
  · exact { h with }
  · exact h

theorem newLabel (h : c.Roomy n) : c.newLabel.2.Roomy n :=
  { h with
    labels := fun x hx =>
      (Array.mem_push.mp hx).elim (h.labels x) fun hx => hx ▸ Label.inside_default _ }

theorem arrive (h : c.Roomy n) (l : Nat) : (c.arrive l).Roomy n := by
  unfold Code.arrive
  dsimp only
  split
  · exact h.fail rfl
  · exact h.setLabel { h.label l with }
  · split
    · exact h
    · exact h.fail rfl

theorem size_arrive (c : Code) (l : Nat) : (c.arrive l).size = c.size := by
  unfold Code.arrive
  dsimp only
  split
  · obtain ⟨err, he⟩ := c.fail_eq .deadLabel
    rw [he]; rfl
  · rfl
  · split
    · rfl
    · rename_i d _ _
      obtain ⟨err, he⟩ := c.fail_eq (.depthMismatch d c.depth)
      rw [he]; rfl

/-! ## Plain instructions -/

theorem write (bs : List UInt8) (h : c.Roomy (n + bs.length)) : (c.write bs).Roomy n := by
  have hsize : (c.write bs).size = c.size + bs.length := by simp [Code.size]
  refine ⟨?_, h.error, fun x hx => (h.labels x hx).le (by omega)⟩
  have := h.size
  omega

theorem emit (h : c.Roomy (n + 1)) (op : Opcode) : (c.emit op).Roomy n := by
  unfold Code.emit
  split
  · exact h.le (Nat.le_add_right n 1)
  · split
    · exact (h.le (Nat.le_add_right n 1)).fail rfl
    · exact ((h.write _).adjust _).endBlock op

theorem ldc (h : c.Roomy (n + 3)) (i : UInt16) : (c.ldc i).Roomy n := by
  unfold Code.ldc
  split
  · exact h.le (by omega)
  · split
    · exact (Roomy.write _ (h.le (by simp))).adjust 1
    · exact (Roomy.write _ (h.le (by simp [bytes2]))).adjust 1

theorem onLocal (h : c.Roomy (n + 4)) (short long : Opcode) {slot : Nat} (hs : slot ≤ 65535) :
    (c.onLocal short long slot).Roomy n := by
  unfold Code.onLocal
  rw [if_neg (by omega)]
  split
  · exact { Roomy.write [short.byte + UInt8.ofNat slot] (h.le (by simp)) with }
  · split
    · exact { Roomy.write [long.byte, UInt8.ofNat slot] (h.le (by simp)) with }
    · exact { Roomy.write (Opcode.wide.byte :: long.byte :: bytes2 (UInt16.ofNat slot))
        (h.le (by simp [bytes2])) with }

theorem load (h : c.Roomy (n + 4)) (kind : LocalKind) {slot : Nat} (hs : slot ≤ 65535) :
    (c.load kind slot).Roomy n := by
  unfold Code.load
  split
  · exact h.le (by omega)
  · cases kind with
    | ref => exact (h.onLocal _ _ hs).adjust 1
    | int => exact (h.onLocal _ _ hs).adjust 1

theorem store (h : c.Roomy (n + 4)) (kind : LocalKind) {slot : Nat} (hs : slot ≤ 65535) :
    (c.store kind slot).Roomy n := by
  unfold Code.store
  split
  · exact h.le (by omega)
  · cases kind with
    | ref => exact (h.onLocal _ _ hs).adjust (-1)
    | int => exact (h.onLocal _ _ hs).adjust (-1)

theorem iinc (h : c.Roomy (n + 6)) (slot delta : Int) : (c.iinc slot delta).Roomy n := by
  unfold Code.iinc
  split
  · exact h.le (by omega)
  · dsimp only
    split
    · exact { (h.le (Nat.le_add_right n 6)).fail (e := .badIncrement delta) rfl with }
    · split
      · exact { Roomy.write [Opcode.iinc.byte, (Int8.ofInt slot).toUInt8,
          (Int8.ofInt delta).toUInt8] (h.le (by simp)) with }
      · exact { Roomy.write (Opcode.wide.byte :: Opcode.iinc.byte ::
          (bytes2 (Int16.ofInt slot).toUInt16 ++ bytes2 (Int16.ofInt delta).toUInt16))
          (h.le (by simp [bytes2])) with }

theorem newArray (h : c.Roomy (n + 2)) (elements : UInt8) : (c.newArray elements).Roomy n := by
  unfold Code.newArray
  split
  · exact h.le (by omega)
  · exact h.write _

/-! ## Branches -/

theorem size_patch (c : Code) (start target : Nat) : (c.patch start target).size = c.size := by
  unfold Code.patch
  dsimp only
  split
  · obtain ⟨err, he⟩ := c.fail_eq (.badBranch (target - start))
    rw [he]; rfl
  · simp [bytes2, Code.size]

theorem patch (h : c.Roomy n) {start target : Nat} (hs : start ≤ c.size) (ht : target ≤ c.size) :
    (c.patch start target).Roomy n := by
  have hsize := h.size
  unfold Code.patch
  dsimp only
  rw [if_neg (by omega)]
  refine ⟨?_, h.error, ?_⟩ <;> simp only [bytes2, Code.size, Array.size_setIfInBounds]
  · exact hsize
  · exact h.labels

theorem jump (h : c.Roomy (n + 3)) (op : Opcode) (l : Nat) : (c.jump op l).Roomy n := by
  unfold Code.jump
  split
  · exact h.le (by omega)
  split
  · exact (h.le (by omega)).fail rfl
  dsimp only
  have hc : (((c.write [op.byte, 0, 0]).adjust (op.effect?.getD 0)).arrive l).Roomy n :=
    ((Roomy.write _ h).adjust _).arrive l
  have hstart : c.size ≤ (((c.write [op.byte, 0, 0]).adjust (op.effect?.getD 0)).arrive l).size := by
    rw [size_arrive]
    simp [Code.size]
  refine Roomy.endBlock ?_ op
  split
  · exact hc.patch hstart ((hc.label l).offset _ ‹_›)
  · refine hc.setLabel ⟨(hc.label l).offset, fun o ho => ?_⟩
    rcases List.mem_append.mp ho with ho | ho
    · exact (hc.label l).pending o ho
    · exact List.mem_singleton.mp ho ▸ hstart

theorem patches (h : c.Roomy n) {target : Nat} (ht : target ≤ c.size) :
    ∀ {starts : List Nat}, (∀ o ∈ starts, o ≤ c.size) →
      (starts.foldl (fun c start => c.patch start target) c).Roomy n := by
  intro starts
  induction starts generalizing c with
  | nil => exact fun _ => h
  | cons start starts ih =>
    intro hs
    have hsize := size_patch c start target
    refine ih (h.patch (hs start List.mem_cons_self) ht) (hsize ▸ ht) fun o ho => ?_
    exact hsize ▸ hs o (List.mem_cons_of_mem _ ho)

theorem bind (h : c.Roomy n) (l : Nat) : (c.bind l).Roomy n := by
  have hplaced {b : Code} (hb : b.Roomy n) : ((b.label l).pending.foldl
      (fun c start => c.patch start b.size)
      (b.setLabel l { b.label l with offset := some b.size, pending := [] })).Roomy n := by
    refine Roomy.patches (hb.setLabel ⟨fun o ho => ?_, by simp⟩) (Nat.le_refl _) (hb.label l).pending
    exact Option.some.inj ho ▸ Nat.le_refl _
  unfold Code.bind
  split
  · exact h.fail rfl
  · refine hplaced ?_
    split
    · exact h.arrive l
    · split
      · exact { h with }
      · exact h

theorem failIf (h : c.Roomy n) (p : Prop) [Decidable p] {e : BuildError} (he : e.isLimit = false) :
    (if p then c.fail e else c).Roomy n := by
  split
  · exact h.fail he
  · exact h

theorem finish (h : c.Roomy n) (labels : List Nat) : (c.finish labels).Roomy n := by
  have hall := (h.failIf (labels.any fun l => !(c.label l).pending.isEmpty)
    (e := .unboundLabel) rfl).failIf
      ((if labels.any fun l => !(c.label l).pending.isEmpty then c.fail .unboundLabel else c).size = 0)
      (e := .emptyBody) rfl
  have hsize := hall.size
  unfold Code.finish
  dsimp only
  rw [if_neg (by omega)]
  exact hall

/-! ## Instructions with constants -/

section Constants

variable {p : Pool}

theorem pushInt (h : c.Roomy (n + 6)) (hp : p.Roomy (n + 6)) (i : Int32) :
    (c.pushInt p i).1.Roomy n ∧ (c.pushInt p i).2.Roomy n := by
  have hask := hp.ask (r := .integer i) trivial
  rw [Request.ask] at hask
  unfold Code.pushInt
  split
  · exact ⟨hp.le (by omega), (h.le (by omega)).emit _⟩
  · dsimp only
    exact ⟨hask, (h.le (by omega)).ldc _⟩

theorem pushString (h : c.Roomy (n + 6)) (hp : p.Roomy (n + 6)) {s : String} (hs : Pool.IsShort s) :
    (c.pushString p s).1.Roomy n ∧ (c.pushString p s).2.Roomy n := by
  have hask := hp.ask (r := .string s) hs
  rw [Request.ask] at hask
  unfold Code.pushString
  dsimp only
  exact ⟨hask, (h.le (by omega)).ldc _⟩

theorem pushClass (h : c.Roomy (n + 6)) (hp : p.Roomy (n + 6)) {name : String}
    (hs : Pool.IsShort name) :
    (c.pushClass p name).1.Roomy n ∧ (c.pushClass p name).2.Roomy n := by
  have hask := hp.ask (r := .classRef name) hs
  rw [Request.ask] at hask
  unfold Code.pushClass
  dsimp only
  exact ⟨hask, (h.le (by omega)).ldc _⟩

theorem indexed (h : c.Roomy (n + 6)) (op : Opcode) (i : UInt16) (d : Int) :
    ((c.write (op.byte :: bytes2 i)).adjust d).Roomy n :=
  (Roomy.write _ (h.le (by simp [bytes2]))).adjust d

theorem field (h : c.Roomy (n + 6)) (hp : p.Roomy (n + 6)) (op : Opcode) {m : Member}
    (hm : m.IsShort) : (c.field p op m.owner m.name m.desc).1.Roomy n ∧
      (c.field p op m.owner m.name m.desc).2.Roomy n := by
  have hp' := hp.le (Nat.le_add_right n 6)
  have h' := h.le (Nat.le_add_right n 6)
  have hask := hp.ask (r := .fieldRef m) hm
  rw [Request.ask] at hask
  unfold Code.field
  split
  · exact ⟨hp', h'⟩
  · dsimp only
    split
    · exact ⟨hp', h'.fail rfl⟩
    · dsimp only
      exact ⟨hask, h.indexed _ _ _⟩

theorem invoke (h : c.Roomy (n + 6)) (hp : p.Roomy (n + 6)) (op : Opcode) {m : Member}
    (hm : m.IsShort) : (c.invoke p op m.owner m.name m.desc).1.Roomy n ∧
      (c.invoke p op m.owner m.name m.desc).2.Roomy n := by
  have hp' := hp.le (Nat.le_add_right n 6)
  have h' := h.le (Nat.le_add_right n 6)
  have hask := hp.ask (r := .methodRef m) hm
  have hinterface := hp.ask (r := .interfaceMethodRef m) hm
  rw [Request.ask] at hask
  rw [Request.ask] at hinterface
  unfold Code.invoke
  split
  · exact ⟨hp', h'⟩
  split
  · exact ⟨hp', h'.fail rfl⟩
  dsimp only
  split
  · dsimp only
    exact ⟨hask, h.indexed _ _ _⟩
  split
  · dsimp only
    exact ⟨hask, h.indexed _ _ _⟩
  split
  · dsimp only
    refine ⟨hinterface, Roomy.adjust ?_ _⟩
    exact Roomy.write _ (h.le (by simp [bytes2]))
  · exact ⟨hp', h'.fail rfl⟩

theorem typeOp (h : c.Roomy (n + 6)) (hp : p.Roomy (n + 6)) (op : Opcode) {name : String}
    (hs : Pool.IsShort name) : (c.typeOp p op name).1.Roomy n ∧ (c.typeOp p op name).2.Roomy n := by
  have hp' := hp.le (Nat.le_add_right n 6)
  have h' := h.le (Nat.le_add_right n 6)
  have hask := hp.ask (r := .classRef name) hs
  rw [Request.ask] at hask
  unfold Code.typeOp
  split
  · exact ⟨hp', h'⟩
  split
  · dsimp only
    exact ⟨hask, h.indexed _ _ _⟩
  · exact ⟨hp', h'.fail rfl⟩

end Constants

end Roomy
end Code
end ClassFile
end Kotlet

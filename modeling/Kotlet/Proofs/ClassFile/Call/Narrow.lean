import Kotlet.Proofs.ClassFile.Call.Shown

/-!
# Numbers in narrow fields

Some numbers are written in one or two bytes. The variables of loads and stores are checked to fit
there. The variable of an increment, the count of the arguments of an interface method, the sizes of
the stack and of the variables, and the number of the methods of a class are not: they are cut to what
there is room for.

* `Call.given` : the number of a call that goes to a narrow field; `Instr.field` : what is found there;
* `Call.Roomy` : the number of a call has room in its field;
* `methodCount` : the number of methods that is read of a class;
* `fields_exact` : which fields of a finished body, and of the class around it, hold the numbers that
  they stand for;
* `increment_cut` : a variable whose number is too large, which goes unnoticed.
-/

namespace Kotlet
namespace ClassFile

/-- The number of a call that is written in a narrow field. -/
def Call.given : Call → Option Int
  | load _ slot | store _ slot | iinc slot _ => some slot
  | invoke op _ _ desc =>
    if op = .invokeInterface then (descriptorSlots? desc).map fun x => x.1 + 1 else none
  | _ => none

end ClassFile

/-- The number in the narrow field of an instruction. -/
def Instr.field : Instr → Option Int
  | load _ slot | store _ slot | increment slot _ => some slot
  | interface _ count => some count.toNat
  | _ => none

namespace ClassFile

open ParsedClass Instr

/-- The number of a call has room in its field. For loads and stores this is checked. -/
def Call.Roomy : Call → Prop
  | iinc slot _ => 0 ≤ slot ∧ slot ≤ 65535
  | invoke op _ _ desc =>
    op = .invokeInterface → ∀ args result, descriptorSlots? desc = some (args, result) → args ≤ 254
  | _ => True

/-! ## Single numbers -/

theorem incremented_iff {slot delta : Int} :
    (Call.incremented slot delta : Int) = slot ↔ 0 ≤ slot ∧ slot ≤ 65535 := by
  refine ⟨fun h => ?_, fun h => ?_⟩
  · have hlt : Call.incremented slot delta < 65536 := by
      unfold Call.incremented
      split
      · exact Nat.lt_of_lt_of_le (UInt8.toNat_lt _) (by decide)
      · exact UInt16.toNat_lt _
    omega
  · rw [Call.incremented_eq h]
    exact Int.toNat_of_nonneg h.1

theorem toNat_ofNat16_iff {n : Nat} : (UInt16.ofNat n).toNat = n ↔ n < 2 ^ 16 := by
  rw [UInt16.toNat_ofNat']
  omega

theorem toNat_ofNat8_iff {n : Nat} : (UInt8.ofNat (n + 1)).toNat = n + 1 ↔ n ≤ 254 := by
  rw [UInt8.toNat_ofNat']
  omega

/-- A variable of a load or a store is checked. -/
theorem slot_of_onLocal {c : Code} {first long : Opcode} {slot d : Int}
    (he : ((c.onLocal first long slot).adjust d).error = none) : 0 ≤ slot ∧ slot ≤ 65535 := by
  by_cases hbad : slot < 0 ∨ 65535 < slot
  · unfold Code.onLocal at he
    simp only [if_pos hbad] at he
    have hfail : ((c.fail (.badSlot slot)).useLocal slot).error = none := Code.adjust_error _ _ he
    exact absurd hfail (Code.fail_error c _)
  · omega

/-- A call that did not fail is written with its number exactly if that has room. -/
theorem Live.Took.field_iff {w : Live} {q : Pool} (h : w.Took q) :
    (w.call.instr w.pool).field = w.call.given ↔ w.call.Roomy := by
  obtain ⟨at_, p, call⟩ := w
  obtain ⟨⟨a, hr, he, -⟩, hwrites⟩ := h
  dsimp only at he hwrites ⊢
  have htrue {slot : Int} (hs : 0 ≤ slot ∧ slot ≤ 65535) : (slot.toNat : Int) = slot :=
    Int.toNat_of_nonneg hs.1
  cases call with
  | load kind slot =>
    have hs : 0 ≤ slot ∧ slot ≤ 65535 := by
      cases kind <;> simp only [Call.apply, Code.load, hr, Bool.not_true, Bool.false_eq_true,
        if_false] at he <;> exact slot_of_onLocal he
    simp [Call.instr, Instr.field, Call.given, Call.Roomy, htrue hs]
  | store kind slot =>
    have hs : 0 ≤ slot ∧ slot ≤ 65535 := by
      cases kind <;> simp only [Call.apply, Code.store, hr, Bool.not_true, Bool.false_eq_true,
        if_false] at he <;> exact slot_of_onLocal he
    simp [Call.instr, Instr.field, Call.given, Call.Roomy, htrue hs]
  | iinc slot delta =>
    simp only [Call.instr, Instr.field, Call.given, Call.Roomy, Option.some_inj, incremented_iff]
  | invoke op owner name desc =>
    by_cases hop : op = .invokeInterface
    · obtain ⟨slots, hslots⟩ : ∃ slots, descriptorSlots? desc = some slots := by
        cases hd : descriptorSlots? desc with
        | some slots => exact ⟨slots, rfl⟩
        | none =>
          simp only [Call.apply, Code.invoke, hr, hd, Bool.not_true, Bool.false_eq_true,
            if_false] at he
          exact absurd he (Code.fail_error a _)
      obtain ⟨args, result⟩ := slots
      have hcount := @toNat_ofNat8_iff args
      simp only [Call.instr, if_pos hop, Instr.field, Call.given, Call.argumentCount, hslots,
        Option.map_some, Option.some_inj, Call.Roomy, Prod.mk.injEq]
      constructor
      · rintro h - args' result' ⟨rfl, -⟩
        exact hcount.mp (by exact_mod_cast h)
      · intro h
        exact_mod_cast hcount.mpr (h hop args result ⟨rfl, rfl⟩)
    · simp [Call.instr, Instr.field, Call.given, Call.Roomy, hop]
  | pushInt n =>
    simp only [Call.instr, Call.given, Call.Roomy, iff_true]
    split <;> rfl
  | newLabel | bind l | finish ls => cases hwrites
  | _ => simp [Call.instr, Instr.field, Call.given, Call.Roomy]

/-! ## Whole bodies -/

theorem size_of_finish {c : Code} {labels : List Nat} (he : (c.finish labels).error = none) :
    c.size ≤ 65535 := by
  by_contra hlt
  have hsize : ∀ (P : Prop) [Decidable P] (x : Code) (e : BuildError),
      (if P then x.fail e else x).size = x.size := by
    intro P _ x e
    split
    · obtain ⟨err, heq⟩ := x.fail_eq e
      rw [heq]
      rfl
    · rfl
  unfold Code.finish at he
  simp only [hsize] at he
  rw [if_pos (by omega)] at he
  exact Code.fail_error _ _ he

/-- Reads a class up to the number of its methods. -/
def readCount : Reader UInt16 := do
  let _ ← u4
  let _ ← u2
  let _ ← u2
  let pool ← readPool
  let _ ← u2
  let _ ← u2
  let _ ← u2
  let readInterface : Reader String := do classAt pool (← u2)
  let _ ← times readInterface (← u2).toNat []
  let _ ← readMembers pool
  u2

/-- The number of methods that some bytes tell. -/
def methodCount (data : Array UInt8) : Except ReadError UInt16 := do
  let (n, _) ← readCount ⟨data, 0, true⟩
  return n

/-- The number of methods is written in two bytes, whether it fits or not. -/
theorem Built.methodCount_bytes {c : ClassFile} (h : Built c) {data : Array UInt8}
    (hdata : c.bytes = .ok data) : methodCount data = .ok (UInt16.ofNat c.methods.size) := by
  obtain ⟨hright, hread, hholds, rfl⟩ := h.image_of_bytes hdata
  obtain ⟨es, hes⟩ := hread.readAs
  have hlast : ReadsLast readCount (c.image (c.indices c.pool).1 (c.indices c.pool).2)
      (UInt16.ofNat c.methods.size) := by
    unfold readCount image
    refine (reads_u4 _).last ((reads_u2 _).last ((reads_u2 _).last ?_))
    refine (reads_pool hes hread hright.size).last ((reads_u2 _).last ((reads_u2 _).last ?_))
    refine (reads_u2 _).last ((reads_u2 0).last ((Reads.pure []).last_nil ?_))
    exact (reads_members (w := fun _ : Unit => []) (v := fun _ => default) [] (by simp) (n := 0)
      rfl).last ((reads_u2 _).readsLast _)
  obtain ⟨cursor, hrun⟩ := hlast []
  unfold methodCount
  rw [List.nil_append, List.length_nil] at hrun
  rw [hrun]
  rfl

/-- The fields of a finished body, and the number of the methods of a class, hold the numbers that
they stand for exactly where these have room. For loads and stores that is always so, for the other
fields nothing sees to it. -/
theorem fields_exact (p : Pool) (params : Nat) (calls : List Call)
    (hknown : Call.AllKnown 0 calls)
    (hfinish : ((Call.run (p, .start params) calls).2.finish
      (List.range (Call.run (p, .start params) calls).2.labels.size)).error = none) :
    let c := (Call.run (p, .start params) calls).2
    (∀ w ∈ Call.live (p, .start params) calls, ∃ i n, decode c.bytes w.at_ = some (i, n) ∧
      (i.field = w.call.given ↔ w.call.Roomy)) ∧
    (∃ body, parseBody c.image.toArray = .ok body ∧ body.code = c.bytes ∧
      (body.maxStack.toNat = c.maxStack ↔ c.maxStack < 2 ^ 16) ∧
      (body.maxLocals.toNat = c.maxLocals ↔ c.maxLocals < 2 ^ 16)) ∧
    ∀ (cls : ClassFile) (data : Array UInt8), Built cls → cls.bytes = .ok data →
      ∃ n, methodCount data = .ok n ∧ (n.toNat = cls.methods.size ↔ cls.methods.size < 2 ^ 16) := by
  intro c
  obtain ⟨herr, hall⟩ := Code.settled_of_finish hfinish
  obtain ⟨T, hT, -, hlive, -⟩ :=
    Code.levelled_calls calls (Code.levelled_start params) hknown herr
  rw [List.nil_append] at hT
  have hsize : 12 + c.size < 2 ^ 32 := by
    have hle : c.size ≤ 65535 := size_of_finish hfinish
    omega
  refine ⟨fun w hw => ?_, ⟨c.parsed, parseBody_image hsize, rfl, toNat_ofNat16_iff,
    toNat_ofNat16_iff⟩, fun cls data hbuilt hdata =>
      ⟨_, hbuilt.methodCount_bytes hdata, toNat_ofNat16_iff⟩⟩
  have hplaced : w.placed ∈ T.map fun e => (e.1.at_, e.1.instr) := by
    rw [hlive]
    exact List.mem_map_of_mem hw
  obtain ⟨e, hmem, heq⟩ := List.mem_map.mp hplaced
  obtain ⟨hat, hinstr⟩ := Prod.mk.inj heq
  have hdec := Code.decode_resolve hT.traced hall (List.mem_map_of_mem hmem)
  rw [hat, hinstr] at hdec
  have hfield : (c.resolve (w.call.instr w.pool)).field = (w.call.instr w.pool).field := by
    cases w.call.instr w.pool <;> rfl
  obtain ⟨htook, -⟩ := took_of_mem herr hw
  exact ⟨_, _, hdec, by rw [hfield]; exact htook.field_iff⟩

theorem fields_exact_countdown : Call.AllKnown 0 countdown ∧
    ((Call.run (.empty, .start 1) countdown).2.finish [0, 1]).error = none ∧
    (∃ i n, decode (Call.run (.empty, .start 1) countdown).2.bytes 4 = some (i, n) ∧
      i.field = some 0) ∧
    ∃ data n, identity.bytes = .ok data ∧ methodCount data = .ok n ∧ n.toNat = 1 := by
  have hknown : Call.AllKnown 0 countdown := by decide
  have hfinish : ((Call.run (.empty, .start 1) countdown).2.finish [0, 1]).error = none := by decide
  have hw : ⟨4, .empty, .iinc 0 (-1)⟩ ∈ Call.live (.empty, .start 1) countdown :=
    List.mem_cons_of_mem _ (List.mem_cons_of_mem _ List.mem_cons_self)
  obtain ⟨hfields, -, hcount⟩ := fields_exact .empty 1 countdown hknown hfinish
  obtain ⟨i, n, hi, hexact⟩ := hfields _ hw
  obtain ⟨data, hdata⟩ := bytes_identity
  obtain ⟨k, hk, hsize⟩ := hcount identity data built_identity hdata
  exact ⟨hknown, hfinish, ⟨i, n, hi, hexact.mpr ⟨by decide, by decide⟩⟩, data, k, hdata, hk,
    hsize.mpr (by decide)⟩

/-- The variable 65536 is counted up. -/
def cutIncrement : List Call := [.iinc 65536 1, .emit .vreturn]

/-- The class with that method, which is written without a failure. -/
def cutClass : ClassFile :=
  ⟨49, "Cut", "java/lang/Object", "", .empty,
    #[⟨.all [.isPublic, .isStatic], "m", "()V", (Call.run (.empty, .start 0) cutIncrement).2⟩]⟩

theorem increment_cut : Built cutClass ∧
    ((Call.run (.empty, .start 0) cutIncrement).2.finish []).error = none ∧
    (∃ data, cutClass.bytes = .ok data) ∧
    decode (Call.run (.empty, .start 0) cutIncrement).2.bytes 0 = some (.increment 0 1, 6) := by
  have hslots : descriptorSlots? "()V" = some (0, 0) := by decide
  have hadd : (start "Cut" "java/lang/Object" 49).addMethod (.all [.isPublic, .isStatic]) "m"
      "()V" = .ok ⟨49, "Cut", "java/lang/Object", "", .empty,
        #[⟨.all [.isPublic, .isStatic], "m", "()V", .start 0⟩]⟩ := by
    have hstatic : (Access.all [.isPublic, .isStatic]).has .isStatic = true := by decide
    simp [addMethod, pushMethod, start, hslots, hstatic, Except.map]
  have hbuilt : Built cutClass :=
    ((Built.method (.start _ _ _) hadd).call 0 (.iinc 65536 1)).call 0 (.emit .vreturn)
  have hall : ∀ m ∈ cutClass.methods, m = ⟨.all [.isPublic, .isStatic], "m", "()V",
      (Call.run (.empty, .start 0) cutIncrement).2⟩ := by
    intro m hm
    simpa [cutClass] using hm
  refine ⟨hbuilt, by decide, bytes_ok (c := cutClass) ⟨rfl, by decide⟩
    ⟨by decide, by decide, by decide, fun m hm => by rw [hall m hm]; exact ⟨by decide, by decide⟩⟩
    (fun m hm => by rw [hall m hm]; decide), by decide⟩

end ClassFile
end Kotlet

import Kotlet.Proofs.ClassFile.Call.Depth
import Kotlet.Proofs.ClassFile.Listing

/-!
# No dead code

A builder knows by one flag whether control can come to the end of the body, and writes nothing
where it cannot. Here the flag is related to the paths through the finished body.

* `Reaches` : control can come from the first instruction of a body to a place;
* `Code.Comes` : the same while the body is put together, when branches still name labels;
* `Alive` : control comes to all instructions so far, and to the end of the body if the flag says
  so; one lemma for each thing that a call can do;
* `reaches_instructions` : control comes to every instruction of a finished body.
-/

namespace Kotlet
namespace ClassFile

open ParsedClass Instr

/-- Control can come from the first instruction to a place: it goes on after an instruction that does
not end a block, and to the target of a branch. -/
inductive Reaches (code : Array UInt8) : Nat → Prop where
  | start : Reaches code 0
  | step {o next n : Nat} {i : Instr} (h : Reaches code o) (hi : decode code o = some (i, n))
      (hnext : next ∈ i.successors (o + n)) : Reaches code next

theorem Placed.Chain.last {T : List Placed} {e : Placed} {b : Nat} :
    ∀ {a : Nat}, Placed.Chain a (T ++ [e]) b → e.at_ + e.size = b := by
  induction T with
  | nil => exact fun h => by rw [h.1]; exact h.2.2
  | cons x T ih => exact fun h => ih h.2.2

namespace Code

/-- Control comes to a place of a body so far, along the instructions of its trace and to the labels
that have their places. -/
inductive Comes (T : List Logged) (c : Code) : Nat → Prop where
  | start : Comes T c 0
  | falls {e : Logged} (he : e ∈ T) (h : Comes T c e.1.at_) (hf : e.1.instr.falls = true) :
      Comes T c (e.1.at_ + e.1.size)
  | branches {e : Logged} {op : Opcode} {l o : Nat} (he : e ∈ T) (h : Comes T c e.1.at_)
      (hi : e.1.instr = .branch op l) (ho : (c.label l).offset = some o) : Comes T c o

/-- The flag of a body so far is right: control comes to all of it. -/
structure Alive (T : List Logged) (c : Code) : Prop where
  levelled : Levelled T c
  instrs : ∀ e ∈ T, Comes T c e.1.at_
  here : c.reachable = true → Comes T c c.size
  /-- A label without a place that has a height is the target of a branch. -/
  jumped : ∀ l, (c.label l).depth ≠ none → (c.label l).offset = none →
    ∃ e ∈ T, ∃ op, e.1.instr = .branch op l

variable {c c' : Code} {T : List Logged}

theorem alive_start (params : Nat) : Alive [] (start params) where
  levelled := levelled_start params
  instrs := by simp
  here _ := .start
  jumped l hd := absurd (by simp [start, label]; rfl) hd

theorem Comes.mono {T' : List Logged} (hT : ∀ e ∈ T, e ∈ T')
    (hl : ∀ l o, (c.label l).offset = some o → (c'.label l).offset = some o) {o : Nat}
    (h : Comes T c o) : Comes T' c' o := by
  induction h with
  | start => exact .start
  | falls he _ hf ih => exact .falls (hT _ he) ih hf
  | branches he _ hi ho ih => exact .branches (hT _ he) ih hi (hl _ _ ho)

/-! ## What one call keeps -/

theorem Alive.still (h : Alive T c) (hs : Still c c') : Alive T c' := by
  have hcomes : ∀ {o}, Comes T c o → Comes T c' o :=
    Comes.mono (fun _ he => he) fun l o ho => by rw [hs.label]; exact ho
  refine ⟨h.levelled.still hs, fun e he => hcomes (h.instrs e he), fun hr => ?_, fun l hd ho => ?_⟩
  · rw [size, hs.bytes]
    exact hcomes (h.here (hs.reachable ▸ hr))
  · rw [hs.label] at hd ho
    exact h.jumped l hd ho

/-- One instruction more, with the labels as they were or reached by it. -/
theorem Alive.snoc {e : Logged} (h : Alive T c) (hlev : Levelled (T ++ [e]) c')
    (hr : c.reachable = true) (hat : e.1.at_ = c.size) (hfall : c'.reachable = e.1.instr.falls)
    (hoff : ∀ l, (c'.label l).offset = (c.label l).offset)
    (hdepth : ∀ l, (c'.label l).depth ≠ none →
      (c.label l).depth ≠ none ∨ ∃ op, e.1.instr = .branch op l) : Alive (T ++ [e]) c' := by
  have hcomes : ∀ {o}, Comes T c o → Comes (T ++ [e]) c' o :=
    Comes.mono (fun _ he => List.mem_append_left _ he) fun l o ho => by rw [hoff]; exact ho
  have hlast : e ∈ T ++ [e] := List.mem_append_right _ List.mem_cons_self
  have hself : Comes (T ++ [e]) c' e.1.at_ := by
    rw [hat]
    exact hcomes (h.here hr)
  refine ⟨hlev, fun f hf => ?_, fun hr' => ?_, fun l hd ho => ?_⟩
  · rcases List.mem_append.mp hf with hf | hf
    · exact hcomes (h.instrs f hf)
    · obtain rfl := List.mem_singleton.mp hf
      exact hself
  · have hchain := hlev.traced.chain
    rw [List.map_append] at hchain
    rw [size, ← hchain.last]
    exact .falls hlast hself (hfall ▸ hr')
  · rw [hoff] at ho
    rcases hdepth l hd with hd | ⟨op, hi⟩
    · obtain ⟨f, hf, hi⟩ := h.jumped l hd ho
      exact ⟨f, List.mem_append_left _ hf, hi⟩
    · exact ⟨e, hlast, op, hi⟩

/-- A label gets its place: control goes on there if a branch came to it before. -/
theorem Alive.bind {l height : Nat} (h : Alive T c) (hlev : Levelled T c')
    (hb : Bound l height c c') (hfree : (c.label l).offset = none) : Alive T c' := by
  have hoff : ∀ k o, (c.label k).offset = some o → (c'.label k).offset = some o := by
    intro k o ho
    have hk : k ≠ l := fun hk => by rw [hk, hfree] at ho; cases ho
    rw [hb.others k hk]
    exact ho
  have hcomes : ∀ {o}, Comes T c o → Comes T c' o := Comes.mono (fun _ he => he) hoff
  refine ⟨hlev, fun e he => hcomes (h.instrs e he), fun hr => ?_, fun k hd ho => ?_⟩
  · rw [hb.reachable, Bool.or_eq_true] at hr
    rw [size, hb.size]
    rcases hr with hr | hr
    · exact hcomes (h.here hr)
    · obtain ⟨e, he, op, hi⟩ := h.jumped l (Option.isSome_iff_ne_none.mp hr) hfree
      exact .branches he (hcomes (h.instrs e he)) hi (by rw [hb.self])
  · have hk : k ≠ l := fun hk => by rw [hk, hb.self] at ho; cases ho
    rw [hb.others k hk] at hd ho
    exact h.jumped k hd ho

/-! ## Whole bodies -/

/-- Control comes to all of a body after a sequence of calls. -/
theorem alive_run (calls : List Call) {p : Pool} (h : Alive T c)
    (hknown : Call.AllKnown c.labels.size calls) (he : (Call.run (p, c) calls).2.error = none) :
    ∃ T', Alive T' (Call.run (p, c) calls).2 := by
  induction calls generalizing p c T with
  | nil => exact ⟨T, h⟩
  | cons call calls ih =>
    obtain ⟨q, a, hqa⟩ : ∃ q a, call.apply (p, c) = (q, a) := ⟨_, _, rfl⟩
    have hrun : Call.run (p, c) (call :: calls) = Call.run (q, a) calls := by
      rw [← hqa]
      rfl
    have ha : (call.apply (p, c)).2 = a := by rw [hqa]
    obtain ⟨hfirst, hrest⟩ := hknown
    rw [hrun] at he ⊢
    rw [← (later_of_apply p c call).2, ha] at hrest
    have hae : a.error = none := error_of_run he
    have hdid : Did p call c a := by
      rw [← ha]
      exact did_of_apply hfirst h.levelled.here (by rw [ha]; exact hae)
    cases hdid with
    | nothing _ _ hs => exact ih (h.still hs) hrest he
    | wrote _ hd hw =>
      obtain ⟨size, hlev⟩ := h.levelled.wrote hd hw
      exact ih (h.snoc hlev hw.live rfl hw.falls (fun l => by rw [hw.label])
        fun l hl => .inl (by rw [hw.label] at hl; exact hl)) hrest he
    | @jumped op l _ _ hr hd hj hsame hdead =>
      refine ih (h.snoc (h.levelled.jumped hr hd hj hsame hdead hae) hr rfl hj.reachable hj.offsets
        fun k hk => ?_) hrest he
      rw [hj.depths] at hk
      split at hk
      · rename_i hkl
        exact .inr ⟨op, by rw [hkl]⟩
      · exact .inl hk
    | bound _ hr hsame hb hfree =>
      exact ih (h.bind (h.levelled.bind hr hsame hb hae) hb hfree) hrest he

/-- Where control comes to while a body is put together, it comes to in the finished body. -/
theorem Levelled.reaches (h : Levelled T c) (hall : ∀ l, (c.label l).pending = []) {o : Nat}
    (hc : Comes T c o) : Reaches c.bytes o := by
  induction hc with
  | start => exact .start
  | @falls e he _ hf ih =>
    refine ih.step (decode_resolve h.traced hall (List.mem_map_of_mem he)) ?_
    refine List.mem_append_left _ ?_
    rw [resolve_falls, hf]
    exact List.mem_cons_self
  | @branches e op l o he _ hi ho ih =>
    refine ih.step (decode_resolve h.traced hall (List.mem_map_of_mem he)) ?_
    rw [hi, resolve, ho]
    exact List.mem_append_right _ List.mem_cons_self

end Code

/-- Control comes from the first instruction of a finished body to every instruction: to all that
are decoded from its bytes, and to all that a listing shows. A listing against some other pool may
have no end, since an instruction refers to a constant there that refers to itself. -/
theorem reaches_instructions (p : Pool) (params : Nat) (calls : List Call)
    (hknown : Call.AllKnown 0 calls)
    (hfinish : ((Call.run (p, .start params) calls).2.finish
      (List.range (Call.run (p, .start params) calls).2.labels.size)).error = none) :
    let code := (Call.run (p, .start params) calls).2.bytes
    ∃ is, decodeAll code = some is ∧ (∀ x ∈ is, Reaches code x.1) ∧
      ∀ c : ParsedClass, (∃ ls, c.instructions code = .ok ls ∧ ∀ l ∈ ls, Reaches code l.offset) ∨
        ∃ x ∈ is, ∃ k, x.2.index? = some k ∧ c.Circular k ∧
          c.instructions code = .error (.endless k.toNat) := by
  obtain ⟨he, hall⟩ := Code.settled_of_finish hfinish
  obtain ⟨T, hT⟩ := Code.alive_run calls (Code.alive_start params) hknown he
  have hdecode := hT.levelled.traced.decodeAll hall
  have hreaches : ∀ x ∈ (T.map Prod.fst).map fun e => (e.at_,
      (Call.run (p, .start params) calls).2.resolve e.instr),
      Reaches (Call.run (p, .start params) calls).2.bytes x.1 := by
    intro x hx
    obtain ⟨e, he, rfl⟩ := List.mem_map.mp hx
    obtain ⟨f, hf, rfl⟩ := List.mem_map.mp he
    exact hT.levelled.reaches hall (hT.instrs f hf)
  refine ⟨_, hdecode, hreaches, fun c => ?_⟩
  refine (instructions_shown hdecode c).imp_left fun ⟨ls, hls, hshown⟩ => ⟨ls, hls, ?_⟩
  have hoffsets : List.Forall₂ Eq (ls.map Instruction.offset)
      (List.map Prod.fst _) :=
    List.forall₂_map_left_iff.mpr (List.forall₂_map_right_iff.mpr (hshown.flip.imp fun _ _ h => h.1))
  rw [List.forall₂_eq_eq_eq] at hoffsets
  intro l hl
  obtain ⟨x, hx, hat⟩ := List.mem_map.mp (hoffsets ▸ List.mem_map_of_mem hl)
  rw [← hat]
  exact hreaches x hx

/-- A loop that counts a variable down. Two calls after its jump back write nothing, though a label
gets its place between them: nothing goes there. -/
def countDeadEnd : List Call :=
  [.newLabel, .newLabel, .newLabel, .bind 0, .load .int 0, .jump .ifEq 1, .iinc 0 (-1),
    .jump .goto 0, .emit .nop, .bind 2, .pushInt 7, .bind 1, .pushBool true, .emit .ireturn]

theorem reaches_instructions_countDeadEnd : Call.AllKnown 0 countDeadEnd ∧
    ((Call.run (.empty, .start 1) countDeadEnd).2.finish [0, 1, 2]).error = none ∧
    ∃ is, decodeAll (Call.run (.empty, .start 1) countDeadEnd).2.bytes = some is ∧ is.length = 6 ∧
      ∀ x ∈ is, Reaches (Call.run (.empty, .start 1) countDeadEnd).2.bytes x.1 := by
  have hknown : Call.AllKnown 0 countDeadEnd := by decide
  have hfinish : ((Call.run (.empty, .start 1) countDeadEnd).2.finish [0, 1, 2]).error = none := by
    decide
  have hsize : (decodeAll (Call.run (.empty, .start 1) countDeadEnd).2.bytes).map List.length =
    some 6 := by decide +kernel
  obtain ⟨is, his, hall, -⟩ := reaches_instructions .empty 1 countDeadEnd hknown hfinish
  rw [his] at hsize
  exact ⟨hknown, hfinish, is, his, Option.some.inj hsize, hall⟩

end ClassFile
end Kotlet

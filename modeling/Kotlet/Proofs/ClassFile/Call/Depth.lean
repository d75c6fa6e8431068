import Kotlet.Proofs.ClassFile.Call
import Kotlet.Proofs.ClassFile.Flow.Whole

/-!
# The height of the operand stack

The builder of a body knows one height at a time, that of the instruction it writes next. Here it is
related to all paths through the finished body.

* `Path` : a path from the first instruction, with the slots that the instructions on it add;
* `Recorded` : the heights that a builder records: before an instruction, at a label, and where the
  next instruction would come;
* `Levelled` : what holds of a body after every call, one lemma for each thing that a call can do;
* `Logs`, `levelled_calls` : what a sequence of calls adds to a body, by the two things that a call
  can do: it writes nothing, or an instruction where control can come;
* `path_recorded` : in a finished body, what the instructions of any path add up to is the height
  that was recorded where the path ends.
-/

namespace Kotlet
namespace ClassFile

open ParsedClass Instr

/-- Control can come from the first instruction to a place, and the instructions on the way add so
many slots to the stack. Where it can go is read from the bytes of the body. -/
inductive Path (code : Array UInt8) (log : List Written) : Nat → Int → Prop where
  | start : Path code log 0 0
  | step {o next n : Nat} {sum : Int} {w : Written} {i : Instr} (h : Path code log o sum)
      (hw : w ∈ log) (hat : w.at_ = o) (hi : decode code o = some (i, n))
      (hnext : next ∈ i.successors (o + n)) : Path code log next (sum + w.call.effect)

/-- The heights of the stack that were recorded for a place. -/
inductive Recorded (c : Code) (log : List Written) (o : Nat) : Nat → Prop where
  | instr {w : Written} (hw : w ∈ log) (hat : w.at_ = o) : Recorded c log o w.depth
  | label {l d : Nat} (ho : (c.label l).offset = some o) (hd : (c.label l).depth = some d) :
      Recorded c log o d
  | here (ho : o = c.size) (hr : c.reachable = true) : Recorded c log o c.depth

namespace Code

/-- An instruction of a trace, with the call that wrote it. -/
abbrev Logged := Placed × Written

/-- Control comes to the place `o` with the height `d`. -/
def Meets (T : List Logged) (c : Code) (o d : Nat) : Prop :=
  (∃ e ∈ T, e.1.at_ = o ∧ e.2.depth = d) ∨ o = c.bytes.size ∧ c.reachable = true ∧ c.depth = d

/-- The height after the instruction of a call. -/
def After (w : Written) (d : Nat) : Prop := (w.depth : Int) + w.call.effect = d

/-- The heights that were recorded for a body so far fit together. -/
structure Levelled (T : List Logged) (c : Code) : Prop where
  traced : c.Traced (T.map Prod.fst)
  places : ∀ e ∈ T, e.1.at_ = e.2.at_
  heights : ∀ e ∈ T, e.2.depth ≤ c.maxStack
  falls : ∀ e ∈ T, e.1.instr.falls = true → ∃ d, After e.2 d ∧ Meets T c (e.1.at_ + e.1.size) d
  branches : ∀ e ∈ T, ∀ op l, e.1.instr = .branch op l →
    ∃ d, After e.2 d ∧ (c.label l).depth = some d
  bound : ∀ l o d, (c.label l).offset = some o → (c.label l).depth = some d → Meets T c o d
  labels : ∀ l d, (c.label l).depth = some d → d ≤ c.maxStack
  here : c.reachable = true → c.depth ≤ c.maxStack
  entry : Meets T c 0 0

variable {c c' : Code} {T : List Logged}

theorem levelled_start (params : Nat) : Levelled [] (start params) where
  traced := traced_start params
  places := by simp
  heights := by simp
  falls := by simp
  branches := by simp
  bound l o d ho _ := by simp [start, label] at ho; cases ho
  labels l d hd := by simp [start, label] at hd; cases hd
  here _ := Nat.le_refl 0
  entry := .inr ⟨rfl, rfl, rfl⟩

/-- What is met stays met, if the present place does. -/
theorem Meets.mono {T' : List Logged} (hT : ∀ e ∈ T, e ∈ T')
    (hhere : c.reachable = true → Meets T' c' c.bytes.size c.depth) {o d : Nat}
    (h : Meets T c o d) : Meets T' c' o d := by
  rcases h with ⟨e, he, hat, hd⟩ | ⟨rfl, hr, rfl⟩
  · exact .inl ⟨e, hT e he, hat, hd⟩
  · exact hhere hr

/-! ## What one call keeps -/

theorem Levelled.still (h : Levelled T c) (hs : Still c c') : Levelled T c' := by
  have hmeets : ∀ {o d}, Meets T c o d → Meets T c' o d :=
    Meets.mono (fun _ he => he) fun hr =>
      .inr ⟨by rw [hs.bytes], by rw [hs.reachable]; exact hr, hs.depth⟩
  refine ⟨h.traced.congr hs.bytes hs.label, h.places, by rw [hs.maxStack]; exact h.heights,
    fun e he hf => ?_, fun e he op l hi => ?_, fun l o d ho hd => ?_, fun l d hd => ?_, ?_,
    hmeets h.entry⟩
  · obtain ⟨d, hd, hm⟩ := h.falls e he hf
    exact ⟨d, hd, hmeets hm⟩
  · obtain ⟨d, hd, hl⟩ := h.branches e he op l hi
    exact ⟨d, hd, by rw [hs.label]; exact hl⟩
  · rw [hs.label] at ho hd
    exact hmeets (h.bound l o d ho hd)
  · rw [hs.label] at hd
    rw [hs.maxStack]
    exact h.labels l d hd
  · rw [hs.reachable, hs.depth, hs.maxStack]
    exact h.here

/-- One instruction more, which is no branch. -/
theorem Levelled.wrote {call : Call} {i : Instr} {height : Nat} (h : Levelled T c)
    (hd : (c.depth : Int) + call.effect = height) (hw : Wrote i height c c') :
    ∃ size, Levelled (T ++ [(⟨c.size, size, i⟩, ⟨c.size, c.depth, call⟩)]) c' := by
  obtain ⟨bs, hpos, hbytes, hdec⟩ := hw.bytes
  refine ⟨bs.length, ?_⟩
  have hmeets : ∀ {o d}, Meets T c o d →
      Meets (T ++ [(⟨c.size, bs.length, i⟩, ⟨c.size, c.depth, call⟩)]) c' o d :=
    Meets.mono (fun e he => List.mem_append_left _ he) fun _ =>
      .inl ⟨_, List.mem_append_right _ List.mem_cons_self, rfl, rfl⟩
  refine ⟨?_, fun e he => ?_, fun e he => ?_, fun e he hf => ?_, fun e he op l hi => ?_,
    fun l o d ho hd => ?_, fun l d hd => ?_, fun hr => ?_, hmeets h.entry⟩
  · rw [List.map_append]
    exact h.traced.push hbytes (fun l => by rw [hw.label]; exact ⟨rfl, rfl⟩) hw.plain hpos hdec
  · rcases List.mem_append.mp he with he | he
    · exact h.places e he
    · obtain rfl := List.mem_singleton.mp he
      rfl
  · rcases List.mem_append.mp he with he | he
    · exact Nat.le_trans (h.heights e he) hw.maxStack
    · obtain rfl := List.mem_singleton.mp he
      exact Nat.le_trans (h.here hw.live) hw.maxStack
  · rcases List.mem_append.mp he with he | he
    · obtain ⟨d, hd, hm⟩ := h.falls e he hf
      exact ⟨d, hd, hmeets hm⟩
    · obtain rfl := List.mem_singleton.mp he
      refine ⟨height, hd, .inr ⟨?_, by rw [hw.falls]; exact hf, hw.depth hf⟩⟩
      simp [hbytes, size]
  · rcases List.mem_append.mp he with he | he
    · obtain ⟨d, hd, hl⟩ := h.branches e he op l hi
      exact ⟨d, hd, by rw [hw.label]; exact hl⟩
    · obtain rfl := List.mem_singleton.mp he
      exact absurd hi (hw.plain op l)
  · rw [hw.label] at ho hd
    exact hmeets (h.bound l o d ho hd)
  · rw [hw.label] at hd
    exact Nat.le_trans (h.labels l d hd) hw.maxStack
  · rw [hw.falls] at hr
    rw [hw.depth hr]
    exact hw.height

/-- One branch more. -/
theorem Levelled.jumped {call : Call} {op : Opcode} {l height : Nat} (h : Levelled T c)
    (hr : c.reachable = true) (hd : (c.depth : Int) + call.effect = height)
    (hj : Jumped op l height c c') (hsame : ∀ d, (c.label l).depth = some d → d = height)
    (hdead : (c.label l).depth = none → (c.label l).offset = none) (he : c'.error = none) :
    Levelled (T ++ [(⟨c.size, 3, .branch op l⟩, ⟨c.size, c.depth, call⟩)]) c' := by
  have hmeets : ∀ {o d}, Meets T c o d →
      Meets (T ++ [(⟨c.size, 3, .branch op l⟩, ⟨c.size, c.depth, call⟩)]) c' o d :=
    Meets.mono (fun e he => List.mem_append_left _ he) fun _ =>
      .inl ⟨_, List.mem_append_right _ List.mem_cons_self, rfl, rfl⟩
  have hmax : c.maxStack ≤ c'.maxStack := by rw [hj.maxStack]; exact Nat.le_max_left _ _
  have hheight : height ≤ c'.maxStack := by rw [hj.maxStack]; exact Nat.le_max_right _ _
  refine ⟨?_, fun e he => ?_, fun e he => ?_, fun e he hf => ?_, fun e he o k hi => ?_,
    fun k o d ho hk => ?_, fun k d hk => ?_, fun hr' => ?_, hmeets h.entry⟩
  · rw [List.map_append]
    exact hj.traced he _ h.traced
  · rcases List.mem_append.mp he with he | he
    · exact h.places e he
    · obtain rfl := List.mem_singleton.mp he
      rfl
  · rcases List.mem_append.mp he with he | he
    · exact Nat.le_trans (h.heights e he) hmax
    · obtain rfl := List.mem_singleton.mp he
      exact Nat.le_trans (h.here hr) hmax
  · rcases List.mem_append.mp he with he | he
    · obtain ⟨d, hd, hm⟩ := h.falls e he hf
      exact ⟨d, hd, hmeets hm⟩
    · obtain rfl := List.mem_singleton.mp he
      exact ⟨height, hd, .inr ⟨hj.size.symm, by rw [hj.reachable]; exact hf,
        hj.depth (by simpa [Instr.falls] using hf)⟩⟩
  · rcases List.mem_append.mp he with he | he
    · obtain ⟨d, hd, hl⟩ := h.branches e he o k hi
      refine ⟨d, hd, ?_⟩
      rw [hj.depths]
      split
      · rename_i hk
        rw [hsame d (hk ▸ hl)]
      · exact hl
    · obtain rfl := List.mem_singleton.mp he
      cases hi
      exact ⟨height, hd, by rw [hj.depths, if_pos rfl]⟩
  · rw [hj.offsets] at ho
    rw [hj.depths] at hk
    split at hk
    · rename_i hkl
      subst hkl
      -- A label with a place was reached before, with the same height.
      cases hold : (c.label k).depth with
      | none =>
        rw [hdead hold] at ho
        cases ho
      | some d' =>
        obtain rfl := hsame d' hold
        cases hk
        exact hmeets (h.bound k o _ ho hold)
    · exact hmeets (h.bound k o d ho hk)
  · rw [hj.depths] at hk
    split at hk
    · cases hk
      exact hheight
    · exact Nat.le_trans (h.labels k d hk) hmax
  · rw [hj.reachable] at hr'
    rw [hj.depth (by simpa using hr')]
    exact hheight

/-- A label gets its place. -/
theorem Levelled.bind {l height : Nat} (h : Levelled T c)
    (hr : c.reachable = true → c.depth = height)
    (hsame : ∀ d, (c.label l).depth = some d → d = height) (hb : Bound l height c c')
    (he : c'.error = none) : Levelled T c' := by
  have hhere : c'.reachable = true → Meets T c' c'.bytes.size height := fun hr' =>
    .inr ⟨rfl, hr', hb.depth hr'⟩
  have hmeets : ∀ {o d}, Meets T c o d → Meets T c' o d :=
    Meets.mono (fun _ he => he) fun hr' => by
      rw [hr hr', ← hb.size]
      exact hhere (by rw [hb.reachable, hr', Bool.true_or])
  -- A height that the label has now is the present one, and it was the one of the body or its own.
  have hself : ∀ d, (c'.label l).depth = some d →
      d = height ∧ c'.reachable = true ∧ d ≤ c'.maxStack := by
    intro d hd
    rw [hb.self] at hd
    rw [hb.reachable, hb.maxStack]
    cases hreach : c.reachable with
    | true =>
      rw [hreach] at hd
      cases hd
      exact ⟨rfl, rfl, hr hreach ▸ h.here hreach⟩
    | false =>
      rw [hreach] at hd
      have hd : (c.label l).depth = some d := hd
      exact ⟨hsame d hd, by rw [hd]; rfl, h.labels l d hd⟩
  have hdepth : ∀ k d, (c.label k).depth = some d → (c'.label k).depth = some d := by
    intro k d hk
    by_cases hkl : k = l
    · subst hkl
      rw [hb.self]
      dsimp only
      split
      · rw [hsame d hk]
      · exact hk
    · rw [hb.others k hkl]
      exact hk
  refine ⟨hb.traced he _ h.traced, h.places, by rw [hb.maxStack]; exact h.heights,
    fun e he hf => ?_, fun e he op k hi => ?_, fun k o d ho hd => ?_, fun k d hd => ?_,
    fun hr' => ?_, hmeets h.entry⟩
  · obtain ⟨d, hd, hm⟩ := h.falls e he hf
    exact ⟨d, hd, hmeets hm⟩
  · obtain ⟨d, hd, hl⟩ := h.branches e he op k hi
    exact ⟨d, hd, hdepth k d hl⟩
  · by_cases hkl : k = l
    · subst hkl
      obtain ⟨rfl, hr', -⟩ := hself d hd
      rw [hb.self] at ho
      cases ho
      rw [← hb.size]
      exact hhere hr'
    · rw [hb.others k hkl] at ho hd
      exact hmeets (h.bound k o d ho hd)
  · by_cases hkl : k = l
    · subst hkl
      exact (hself d hd).2.2
    · rw [hb.others k hkl] at hd
      rw [hb.maxStack]
      exact h.labels k d hd
  · rw [hb.depth hr', hb.maxStack]
    cases hreach : c.reachable with
    | true => exact hr hreach ▸ h.here hreach
    | false =>
      rw [hb.reachable, hreach, Bool.false_or] at hr'
      obtain ⟨d, hd⟩ := Option.isSome_iff_exists.mp hr'
      exact hsame d hd ▸ h.labels l d hd

/-! ## Whole bodies -/

/-- A sequence of calls, made in a body with the trace `T`, adds `T'` to it. -/
structure Logs (T T' : List Logged) (p : Pool) (c : Code) (calls : List Call) : Prop where
  levelled : Levelled (T ++ T') (Call.run (p, c) calls).2
  /-- The calls of the trace are those that wrote something, -/
  written : T'.map Prod.snd = Call.written (p, c) calls
  /-- and its instructions are those of the calls that were made where control could come. -/
  live : T'.map (fun e => (e.1.at_, e.1.instr)) = (Call.live (p, c) calls).map Live.placed
  /-- Labels have the places that they were given. -/
  places : ∀ l, ((Call.run (p, c) calls).2.label l).offset =
    (c.label l).offset.or (Call.boundAt l (p, c) calls)

section Logs

variable {T' : List Logged} {p q : Pool} {a : Code} {call : Call} {calls : List Call}

theorem run_cons (hqa : call.apply (p, c) = (q, a)) :
    Call.run (p, c) (call :: calls) = Call.run (q, a) calls := by
  rw [← hqa]
  rfl

/-- A call that writes nothing leaves the trace as it is. -/
theorem Logs.quiet (h : Logs T T' q a calls) (hqa : call.apply (p, c) = (q, a))
    (hno : (c.reachable && call.writes) = false) (hsize : a.size = c.size)
    (hplaces : ∀ l, (a.label l).offset.or (Call.boundAt l (q, a) calls) =
      (c.label l).offset.or (Call.boundAt l (p, c) (call :: calls))) :
    Logs T T' p c (call :: calls) where
  levelled := run_cons hqa ▸ h.levelled
  written := by
    rw [Call.written, hqa, h.written]
    simp only [hsize, Nat.lt_irrefl, if_false]
  live := by
    simp only [Call.live, hqa, h.live, hno, Bool.false_eq_true, if_false]
  places l := by rw [run_cons hqa, h.places, hplaces]

/-- A call for an instruction, made where control could come, adds the instruction. -/
theorem Logs.loud {e : Logged} (h : Logs (T ++ [e]) T' q a calls)
    (hqa : call.apply (p, c) = (q, a)) (hr : c.reachable = true) (hw : call.writes = true)
    (hsize : c.size < a.size) (hcall : e.2 = ⟨c.size, c.depth, call⟩)
    (hinstr : (e.1.at_, e.1.instr) = (c.size, call.instr p))
    (hplaces : ∀ l, (a.label l).offset = (c.label l).offset) :
    Logs T (e :: T') p c (call :: calls) where
  levelled := by
    rw [run_cons hqa, List.append_cons]
    exact h.levelled
  written := by
    rw [Call.written, hqa, List.map_cons, h.written, hcall]
    simp only [hsize, if_true]
  live := by
    simp only [Call.live, hqa, hr, hw, Bool.and_self, if_true, List.map_cons, h.live, hinstr,
      Live.placed]
  places l := by
    rw [run_cons hqa, h.places, hplaces, Call.boundAt_cons (fun k hk => by rw [hk] at hw; cases hw),
      hqa]

end Logs

/-- A body after a sequence of calls. -/
theorem levelled_calls (calls : List Call) {p : Pool} (h : Levelled T c)
    (hknown : Call.AllKnown c.labels.size calls) (he : (Call.run (p, c) calls).2.error = none) :
    ∃ T', Logs T T' p c calls := by
  induction calls generalizing p c T with
  | nil =>
    exact ⟨[], by rw [List.append_nil]; exact h, rfl, rfl, fun l => by simp [Call.boundAt, Call.run]⟩
  | cons call calls ih =>
    obtain ⟨q, a, hqa⟩ : ∃ q a, call.apply (p, c) = (q, a) := ⟨_, _, rfl⟩
    have ha : (call.apply (p, c)).2 = a := by rw [hqa]
    obtain ⟨hfirst, hrest⟩ := hknown
    rw [run_cons hqa] at he
    have hcount : a.labels.size = call.labelsAfter c.labels.size := by
      rw [← ha]
      exact (later_of_apply p c call).2
    rw [← hcount] at hrest
    have hae : a.error = none := error_of_run he
    have hdid : Did p call c a := by
      rw [← ha]
      exact did_of_apply hfirst h.here (by rw [ha]; exact hae)
    cases hdid with
    | nothing hn hq hs =>
      obtain ⟨T', hT'⟩ := ih (h.still hs) hrest he
      refine ⟨T', hT'.quiet hqa ?_ (by rw [size, hs.bytes]; rfl) fun l => ?_⟩
      · rcases hq with hq | hq <;> simp [hq]
      · rw [hs.label, Call.boundAt_cons hn, hqa]
    | wrote hwrites hd hw =>
      obtain ⟨bs, hpos, hbytes, -⟩ := hw.bytes
      obtain ⟨size, hlev⟩ := h.wrote hd hw
      obtain ⟨T', hT'⟩ := ih hlev hrest he
      refine ⟨_, hT'.loud hqa hw.live hwrites ?_ rfl rfl fun l => by rw [hw.label]⟩
      simp only [Code.size, hbytes, Array.size_append, List.size_toArray]
      omega
    | jumped hi hr hd hj hsame hdead =>
      subst hi
      obtain ⟨T', hT'⟩ := ih (h.jumped hr hd hj hsame hdead hae) hrest he
      refine ⟨_, hT'.loud hqa hr rfl ?_ rfl rfl hj.offsets⟩
      simp only [Code.size, hj.size]
      omega
    | @bound l _ hi hr hsame hb hnone =>
      subst hi
      obtain ⟨T', hT'⟩ := ih (h.bind hr hsame hb hae) hrest he
      refine ⟨T', hT'.quiet hqa (Bool.and_false _) hb.size fun k => ?_⟩
      rw [Call.boundAt, hqa]
      by_cases hk : k = l
      · subst hk
        rw [hb.self, hnone, if_pos rfl]
        rfl
      · rw [hb.others k hk, if_neg (Ne.symm hk)]

/-- The trace of a body with the calls that wrote it, after a sequence of calls. -/
theorem levelled_run (calls : List Call) {p : Pool} (h : Levelled T c)
    (hlegal : Call.AllLegal c.labels.size calls) (he : (Call.run (p, c) calls).2.error = none) :
    ∃ T', Levelled (T ++ T') (Call.run (p, c) calls).2 ∧
      T'.map Prod.snd = Call.written (p, c) calls := by
  obtain ⟨T', hT', hmap, -, -⟩ := levelled_calls calls h hlegal.known he
  exact ⟨T', hT', hmap⟩

/-- Control comes to a place with one height only. -/
theorem Meets.unique (h : Levelled T c) {o d d' : Nat} (hd : Meets T c o d)
    (hd' : Meets T c o d') : d = d' := by
  have hend : ∀ e ∈ T, e.1.at_ ≠ c.bytes.size := by
    intro e he
    have := h.traced.chain.bounds e.1 (List.mem_map_of_mem he)
    omega
  rcases hd with ⟨e, he, hat, rfl⟩ | ⟨rfl, hr, rfl⟩
  · rcases hd' with ⟨e', he', hat', rfl⟩ | ⟨ho, -, -⟩
    · have hnodup := nodup_of_chain h.traced.chain
      rw [List.map_map] at hnodup
      rw [List.inj_on_of_nodup_map hnodup he he' (hat.trans hat'.symm)]
    · exact absurd (hat.trans ho) (hend e he)
  · rcases hd' with ⟨e', he', hat', -⟩ | ⟨-, -, hd'⟩
    · exact absurd hat' (hend e' he')
    · exact hd'

theorem Levelled.le_maxStack (h : Levelled T c) {o d : Nat} (hd : Meets T c o d) :
    d ≤ c.maxStack := by
  rcases hd with ⟨e, he, -, rfl⟩ | ⟨-, hr, rfl⟩
  · exact h.heights e he
  · exact h.here hr

theorem Levelled.meets_of_recorded (h : Levelled T c) {o d : Nat}
    (hd : Recorded c (T.map Prod.snd) o d) : Meets T c o d := by
  cases hd with
  | instr hw hat =>
    obtain ⟨e, he, rfl⟩ := List.mem_map.mp hw
    exact .inl ⟨e, he, (h.places e he).trans hat, rfl⟩
  | label ho hd => exact h.bound _ o d ho hd
  | here ho hr => exact .inr ⟨ho, hr, rfl⟩

theorem Levelled.recorded_of_meets (h : Levelled T c) {o d : Nat} (hd : Meets T c o d) :
    Recorded c (T.map Prod.snd) o d := by
  rcases hd with ⟨e, he, hat, rfl⟩ | ⟨ho, hr, rfl⟩
  · exact .instr (List.mem_map_of_mem he) ((h.places e he).symm.trans hat)
  · exact .here ho hr

/-- What the instructions of a path add up to is met where it ends. -/
theorem Levelled.meets_of_path (h : Levelled T c) (hall : ∀ l, (c.label l).pending = []) {o : Nat}
    {sum : Int} (hp : Path c.bytes (T.map Prod.snd) o sum) :
    ∃ d : Nat, sum = d ∧ Meets T c o d := by
  induction hp with
  | start => exact ⟨0, rfl, h.entry⟩
  | @step o next n sum w i hp hw hat hi hnext ih =>
    obtain ⟨d, rfl, hd⟩ := ih
    obtain ⟨e, he, rfl⟩ := List.mem_map.mp hw
    have hplace : e.1.at_ = o := (h.places e he).trans hat
    obtain rfl : d = e.2.depth := hd.unique h (.inl ⟨e, he, hplace, rfl⟩)
    have hdec := decode_resolve h.traced hall (List.mem_map_of_mem he)
    rw [hplace, hi] at hdec
    obtain ⟨rfl, rfl⟩ := Prod.mk.inj (Option.some.inj hdec)
    rcases List.mem_append.mp hnext with hnext | hnext
    · split at hnext
      · rename_i hf
        obtain rfl := List.mem_singleton.mp hnext
        rw [resolve_falls] at hf
        obtain ⟨d, hd, hm⟩ := h.falls e he hf
        exact ⟨d, hd, hplace ▸ hm⟩
      · cases hnext
    · cases hinstr : e.1.instr with
      | branch op l =>
        rw [hinstr] at hnext
        obtain rfl := List.mem_singleton.mp hnext
        obtain ⟨d, hd, hl⟩ := h.branches e he op l hinstr
        cases ho : (c.label l).offset with
        | none =>
          have := h.traced.pending e.1 (List.mem_map_of_mem he) op l hinstr ho
          rw [hall l] at this
          cases this
        | some t => exact ⟨d, hd, h.bound l t d ho hl⟩
      | _ =>
        rw [hinstr] at hnext
        cases hnext

/-- The last checks of a body pass only if no branch waits for its label. -/
theorem settled_of_finish (he : (c.finish (List.range c.labels.size)).error = none) :
    c.error = none ∧ ∀ l, (c.label l).pending = [] := by
  refine ⟨(Later.finish c _).error he, fun l => ?_⟩
  by_cases hl : l < c.labels.size
  · by_contra hne
    have hany : (List.range c.labels.size).any (fun l => !(c.label l).pending.isEmpty) = true :=
      List.any_eq_true.mpr ⟨l, List.mem_range.mpr hl, by simpa using hne⟩
    have hsteps : Later (c.fail .unboundLabel) (c.finish (List.range c.labels.size)) := by
      simp only [finish, hany, if_true]
      exact (Later.guard _ _ _).trans (.guard _ _ _)
    exact fail_error c _ (hsteps.error he)
  · have hd : c.label l = default := by simp [label, hl]
    rw [hd]
    rfl

end Code

/-- The height of the stack is the same on all paths: what the instructions of a path add up to is
the height that was recorded where it ends. It is never negative, and never above the greatest
height of the body. -/
theorem path_recorded (p : Pool) (params : Nat) (calls : List Call)
    (hlegal : Call.AllLegal 0 calls)
    (hfinish : ((Call.run (p, .start params) calls).2.finish
      (List.range (Call.run (p, .start params) calls).2.labels.size)).error = none) :
    let c := (Call.run (p, .start params) calls).2
    let log := Call.written (p, .start params) calls
    (∀ w ∈ log, ∃ i n, decode c.bytes w.at_ = some (i, n)) ∧
      ∀ o sum, Path c.bytes log o sum →
        0 ≤ sum ∧ sum ≤ c.maxStack ∧ (∃ d, Recorded c log o d) ∧
          (∀ d, Recorded c log o d → sum = d) ∧ ∀ sum', Path c.bytes log o sum' → sum' = sum := by
  obtain ⟨he, hall⟩ := Code.settled_of_finish hfinish
  obtain ⟨T, hT, hmap⟩ := Code.levelled_run calls (Code.levelled_start params) hlegal he
  rw [List.nil_append] at hT
  simp only [← hmap]
  refine ⟨fun w hw => ?_, fun o sum hp => ?_⟩
  · obtain ⟨e, he, rfl⟩ := List.mem_map.mp hw
    rw [← hT.places e he]
    exact ⟨_, _, Code.decode_resolve hT.traced hall (List.mem_map_of_mem he)⟩
  · obtain ⟨d, rfl, hd⟩ := hT.meets_of_path hall hp
    refine ⟨Int.natCast_nonneg d, by exact_mod_cast hT.le_maxStack hd, ⟨d, hT.recorded_of_meets hd⟩,
      fun d' hd' => ?_, fun sum' hp' => ?_⟩
    · rw [hd.unique hT (hT.meets_of_recorded hd')]
    · obtain ⟨d', rfl, hd'⟩ := hT.meets_of_path hall hp'
      rw [hd'.unique hT hd]

/-- A loop that counts a variable down: its head is jumped to from below, its end from above. -/
def countdown : List Call :=
  [.newLabel, .newLabel, .bind 0, .load .int 0, .jump .ifEq 1, .iinc 0 (-1), .jump .goto 0, .bind 1,
    .pushBool true, .emit .ireturn]

theorem path_recorded_countdown : Call.AllLegal 0 countdown ∧
    ((Call.run (.empty, .start 1) countdown).2.finish [0, 1]).error = none ∧
      ∀ sum, Path (Call.run (.empty, .start 1) countdown).2.bytes
        (Call.written (.empty, .start 1) countdown) 0 sum → 0 ≤ sum ∧ sum ≤ 1 := by
  have hlegal : Call.AllLegal 0 countdown := by decide
  have hfinish : ((Call.run (.empty, .start 1) countdown).2.finish [0, 1]).error = none := by decide
  refine ⟨hlegal, hfinish, fun sum hp => ?_⟩
  obtain ⟨hnonneg, hmax, -⟩ := (path_recorded .empty 1 countdown hlegal hfinish).2 0 sum hp
  exact ⟨hnonneg, hmax⟩

end ClassFile
end Kotlet

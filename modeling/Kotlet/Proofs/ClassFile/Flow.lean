import Kotlet.Proofs.ClassFile.Shape

/-!
# Flow of control

While a body is put together, one knows of every label which shape there will be, and which shape
there is now. What is known grows with every instruction, and in the end it is an assignment of
shapes to all instructions.

* `Flow` : what is known of a body so far;
* `Code.Flows` : the body is as it is known to be, and it has failed for a limit of the format only;
* `Flows.silent`, `Flows.weaken`, `Flows.mono` : what may be assumed instead;
* `Flows.extend` : one instruction more, which is no branch.

Where control cannot come nothing is written, so there one may assume any shape. A label that gets
its place there is never jumped to, as long as nothing from outside brings control back: this is why
the heads of loops are kept apart.
-/

namespace Kotlet
namespace ClassFile

open ParsedClass Instr

/-- What is known of a body so far. -/
structure Flow where
  /-- The shapes at the labels. -/
  marks : List Shape
  /-- The labels that have no place yet. -/
  opens : List Nat
  /-- The heads of loops: they have a place, and may be jumped to. -/
  tops : List Nat
  /-- Nothing jumps to labels from here on. -/
  fresh : Nat
  /-- Whether control may come here. -/
  live : Bool
  /-- The operand stack, if control comes here. -/
  stack : List Kind
  /-- The local variables, if control comes here. -/
  locals : Nat → Option Kind

/-- The shape here. -/
def Flow.shape (f : Flow) : Shape := ⟨f.stack, f.locals⟩

/-- What is known of a body before its first instruction. -/
def Flow.start (entry : List Kind) : Flow := ⟨[], [], [], 0, true, [], fun k => entry[k]?⟩

namespace Code

/-- Control comes neither here nor to any label from `n` on. -/
def Dead (n : Nat) (c : Code) : Prop :=
  c.reachable = false ∧ ∀ l, n ≤ l → (c.label l).depth = none

/-- An instruction of a trace, with what it takes for granted. -/
abbrev Entry := Placed × Shape

/-- Control can go to the place `o` with the shape `s`: an instruction stands there, or it is the
place of the next one. -/
def Lands (T : List Entry) (f : Flow) (c : Code) (o : Nat) (s : Shape) : Prop :=
  (∃ e ∈ T, e.1.at_ = o ∧ e.2.Le s) ∨ o = c.bytes.size ∧ c.reachable = true ∧ f.shape.Le s

/-- An instruction finds what it needs, and control can go where it goes. -/
structure Sits (p : Pool) (result : List Kind) (T : List Entry) (f : Flow) (c : Code) (e : Entry)
    (after : Shape) : Prop where
  step : e.1.instr.step? p result e.2 = some after
  stack : e.2.stack.length ≤ c.maxStack
  locals : ∀ slot, e.1.instr.slot? = some slot → slot < c.maxLocals
  counts : ∀ i count, e.1.instr = .interface i count → countedBy p i count
  falls : e.1.instr.falls = true → Lands T f c (e.1.at_ + e.1.size) after
  branches : ∀ op l, e.1.instr = .branch op l →
    (c.label l).depth.isSome ∧ ∃ mark, f.marks[l]? = some mark ∧ mark.Le after

/-- The instructions so far with their shapes. -/
structure Story (p : Pool) (entry result : List Kind) (f : Flow) (c : Code) (T : List Entry) :
    Prop where
  traced : c.Traced (T.map Prod.fst)
  sits : ∀ e ∈ T, ∃ after, Sits p result T f c e after
  bound : ∀ l mark o, f.marks[l]? = some mark → (c.label l).offset = some o →
    (c.label l).depth.isSome → Lands T f c o mark
  entry : Lands T f c 0 ⟨[], fun k => entry[k]?⟩

/-- The labels of a body are as they are known to be. -/
structure Labelled (f : Flow) (c : Code) : Prop where
  size : c.labels.size = f.marks.length
  nodup : f.opens.Nodup
  opens : ∀ l, l ∈ f.opens ↔ l < f.marks.length ∧ (c.label l).offset = none
  settled : ∀ l, (c.label l).offset ≠ none → (c.label l).pending = []
  depths : ∀ l mark d, f.marks[l]? = some mark → (c.label l).depth = some d →
    d = mark.stack.length ∧ d ≤ c.maxStack
  tops : ∀ l ∈ f.tops, l < f.marks.length ∧ (c.label l).offset ≠ none ∧
    ((c.label l).depth ≠ none ∨ c.Dead l)
  fresh : ∀ l, f.fresh ≤ l → (c.label l).depth = none

/-- A body is as it is known to be. -/
structure Flows (p : Pool) (entry result : List Kind) (f : Flow) (c : Code) : Prop where
  labels : c.Labelled f
  live : f.live = false → c.reachable = false
  depth : c.reachable = true → c.depth = f.stack.length ∧ f.stack.length ≤ c.maxStack
  nonempty : c.reachable = false → 0 < c.bytes.size
  limits : ∀ e, c.error = some e → e.isLimit = true
  story : p.error = none → c.error = none → ∃ T, c.Story p entry result f T

variable {p q : Pool} {entry result : List Kind} {f f' : Flow} {c c' : Code} {T T' : List Entry}

theorem Lands.weaken {o : Nat} {s t : Shape} (h : Lands T f c o s) (hs : s.Le t) :
    Lands T f c o t := by
  rcases h with ⟨e, he, hat, hle⟩ | ⟨hat, hr, hle⟩
  · exact .inl ⟨e, he, hat, hle.trans hs⟩
  · exact .inr ⟨hat, hr, hle.trans hs⟩

/-! ## Longer bodies -/

/-- A body goes on from another one. -/
structure Continues (T T' : List Entry) (f f' : Flow) (c c' : Code) : Prop where
  trace : ∀ e ∈ T, e ∈ T'
  marks : f.marks <+: f'.marks
  maxStack : c.maxStack ≤ c'.maxStack
  maxLocals : c.maxLocals ≤ c'.maxLocals
  depth : ∀ l, (c.label l).depth.isSome → (c'.label l).depth.isSome
  current : c.reachable = true → Lands T' f' c' c.bytes.size f.shape

theorem getElem?_of_prefix {α : Type} {l l' : List α} (h : l <+: l') {i : Nat} {a : α}
    (hi : l[i]? = some a) : l'[i]? = some a := by
  obtain ⟨t, rfl⟩ := h
  rw [List.getElem?_append_left (List.getElem?_eq_some_iff.mp hi).1]
  exact hi

theorem Continues.lands (h : Continues T T' f f' c c') {o : Nat} {s : Shape}
    (hl : Lands T f c o s) : Lands T' f' c' o s := by
  rcases hl with ⟨e, he, hat, hle⟩ | ⟨rfl, hr, hle⟩
  · exact .inl ⟨e, h.trace e he, hat, hle⟩
  · exact (h.current hr).weaken hle

theorem Continues.sits (h : Continues T T' f f' c c') (hpq : p.Le q) {e : Entry} {after : Shape}
    (he : Sits p result T f c e after) : Sits q result T' f' c' e after where
  step := step?_mono hpq he.step
  stack := Nat.le_trans he.stack h.maxStack
  locals slot hs := Nat.lt_of_lt_of_le (he.locals slot hs) h.maxLocals
  counts i count hi := by
    obtain ⟨m, args, res, hm, hrest⟩ := he.counts i count hi
    exact ⟨m, args, res, hpq.member? hm, hrest⟩
  falls hf := h.lands (he.falls hf)
  branches op l hi := by
    obtain ⟨hd, mark, hm, hle⟩ := he.branches op l hi
    exact ⟨h.depth l hd, mark, getElem?_of_prefix h.marks hm, hle⟩

/-! ## Nothing is written -/

theorem Story.keep (hT : c.Story p entry result f T) (hpq : p.Le q) (hm : f'.marks = f.marks)
    (hs : c.reachable = true → f'.shape.Le f.shape) : c.Story q entry result f' T := by
  have hcont : Continues T T f f' c c :=
    ⟨fun _ he => he, hm ▸ List.prefix_refl _, Nat.le_refl _, Nat.le_refl _, fun _ hd => hd,
      fun hr => .inr ⟨rfl, hr, hs hr⟩⟩
  refine ⟨hT.traced, fun e he => ?_, fun l mark o hl ho hd => ?_, hcont.lands hT.entry⟩
  · obtain ⟨after, hs⟩ := hT.sits e he
    exact ⟨after, hcont.sits hpq hs⟩
  · rw [hm] at hl
    exact hcont.lands (hT.bound l mark o hl ho hd)

/-- Where control cannot come, any shape may be assumed. -/
theorem Flows.silent (h : c.Flows p entry result f) (hr : c.reachable = false) (live : Bool)
    (stack : List Kind) (locals : Nat → Option Kind) :
    c.Flows p entry result { f with live := live, stack := stack, locals := locals } where
  labels := { h.labels with }
  live _ := hr
  depth hr' := by rw [hr] at hr'; cases hr'
  nonempty := h.nonempty
  limits := h.limits
  story hp hc := by
    obtain ⟨T, hT⟩ := h.story hp hc
    exact ⟨T, hT.keep (.refl p) rfl fun hr' => by rw [hr] at hr'; cases hr'⟩

/-- What is known may be forgotten. -/
theorem Flows.weaken (h : c.Flows p entry result f) (hm : f'.marks = f.marks)
    (ho : f'.opens = f.opens) (ht : ∀ l ∈ f'.tops, l ∈ f.tops) (hf : f.fresh ≤ f'.fresh)
    (hl : f'.live = false → f.live = false) (hs : f'.shape.Le f.shape) :
    c.Flows p entry result f' where
  labels := by
    refine ⟨by rw [hm]; exact h.labels.size, by rw [ho]; exact h.labels.nodup, ?_,
      h.labels.settled, ?_, ?_, fun l hle => h.labels.fresh l (by omega)⟩
    · rw [ho, hm]
      exact h.labels.opens
    · rw [hm]
      exact h.labels.depths
    · intro l hmem
      rw [hm]
      exact h.labels.tops l (ht l hmem)
  live hl' := h.live (hl hl')
  depth hr := by
    have heq : f'.stack = f.stack := hs.stack
    rw [heq]
    exact h.depth hr
  nonempty := h.nonempty
  limits := h.limits
  story hp hc := by
    obtain ⟨T, hT⟩ := h.story hp hc
    exact ⟨T, hT.keep (.refl p) hm fun _ => hs⟩

/-- A pool with more constants does as well. -/
theorem Flows.mono (h : c.Flows p entry result f) (hpq : p.Le q) : c.Flows q entry result f :=
  { h with
    story := fun hq hc => by
      obtain ⟨T, hT⟩ := h.story (hpq.error hq) hc
      exact ⟨T, hT.keep hpq rfl fun _ => .refl _⟩ }

theorem flows_start (p : Pool) (entry result : List Kind) (params : Nat) :
    (start params).Flows p entry result (.start entry) where
  labels := by
    have hl : ∀ l, (start params).label l = default := fun l => by simp [start, label]
    exact ⟨rfl, List.nodup_nil, by simp [Flow.start], fun l ho => by rw [hl] at ho; exact absurd rfl ho,
      fun l mark d hm => by simp [Flow.start] at hm, by simp [Flow.start], fun l _ => by rw [hl]; rfl⟩
  live h := by cases h
  depth _ := ⟨rfl, Nat.zero_le _⟩
  nonempty h := by cases h
  limits e h := by cases h
  story _ _ := by
    refine ⟨[], traced_start params, by simp, fun l mark o hm => by simp [Flow.start] at hm, ?_⟩
    exact .inr ⟨rfl, rfl, .refl _⟩

/-! ## One instruction more -/

/-- The body gets an instruction that is no branch, or fails for a limit. -/
structure Extends (i : Instr) (height : Nat) (c c' : Code) : Prop where
  labels : c'.labels = c.labels
  grows : c.bytes.size ≤ c'.bytes.size
  falls : c'.reachable = i.falls
  ends : i.falls = false → 0 < c'.bytes.size
  depth : i.falls = true → c'.depth = height ∧ height ≤ c'.maxStack
  maxStack : c.maxStack ≤ c'.maxStack
  maxLocals : c.maxLocals ≤ c'.maxLocals
  limits : OnlyLimits c c'
  plain : ∀ op l, i ≠ .branch op l
  decodes : c'.error = none → ∃ bs : List UInt8, 0 < bs.length ∧
    c'.bytes = c.bytes ++ bs.toArray ∧
      decode (c.bytes ++ bs.toArray) c.bytes.size = some (i, bs.length)
  slot : c'.error = none → ∀ slot, i.slot? = some slot → slot < c'.maxLocals

theorem Labelled.congr (h : c.Labelled f) (hl : c'.labels = c.labels)
    (hmax : c.maxStack ≤ c'.maxStack) (hr : c.reachable = false → c'.reachable = false)
    (hm : f'.marks = f.marks) (ho : f'.opens = f.opens) (ht : f'.tops = f.tops) (hf : f'.fresh = f.fresh) :
    c'.Labelled f' := by
  have hlab : ∀ l, c'.label l = c.label l := fun l => by simp only [label, hl]
  refine ⟨by rw [hl, hm]; exact h.size, by rw [ho]; exact h.nodup, ?_, ?_, ?_, ?_, ?_⟩
  · simp only [ho, hm, hlab]
    exact h.opens
  · simp only [hlab]
    exact h.settled
  · simp only [hm, hlab]
    intro l mark d hl hd
    obtain ⟨heq, hle⟩ := h.depths l mark d hl hd
    exact ⟨heq, Nat.le_trans hle hmax⟩
  · simp only [ht, hm, hlab]
    intro l hmem
    obtain ⟨hlt, hoff, hd⟩ := h.tops l hmem
    refine ⟨hlt, hoff, hd.imp id fun hdead => ⟨hr hdead.1, fun k hk => ?_⟩⟩
    rw [hlab]
    exact hdead.2 k hk
  · simp only [hf, hlab]
    exact h.fresh

theorem Flows.extend {i : Instr} {st : List Kind} (h : c.Flows p entry result f)
    (ls : Nat → Option Kind) (hpq : p.Le q) (hr : c.reachable = true)
    (hx : Extends i st.length c c')
    (hstep : q.error = none → i.step? q result f.shape = some ⟨st, ls⟩ ∧
      ∀ k count, i = .interface k count → countedBy q k count) :
    c'.Flows q entry result { f with live := f.live && i.falls, stack := st, locals := ls } where
  labels := h.labels.congr hx.labels hx.maxStack (fun hr' => by rw [hr] at hr'; cases hr') rfl rfl
    rfl rfl
  live hl := by
    rw [hx.falls]
    cases hlive : f.live with
    | true => rw [hlive, Bool.true_and] at hl; exact hl
    | false =>
      have := h.live hlive
      rw [hr] at this
      cases this
  depth hr' := hx.depth (by rw [← hx.falls]; exact hr')
  nonempty hr' := hx.ends (by rw [← hx.falls]; exact hr')
  limits e he := (hx.limits.2 e he).elim (h.limits e) id
  story hq hc := by
    obtain ⟨T, hT⟩ := h.story (hpq.error hq) (hx.limits.1 hc)
    obtain ⟨bs, hpos, hbytes, hdec⟩ := hx.decodes hc
    obtain ⟨hstep, hcount⟩ := hstep hq
    have hlab : ∀ l, c'.label l = c.label l := fun l => by simp only [label, hx.labels]
    have hcont : Continues T (T ++ [(⟨c.bytes.size, bs.length, i⟩, f.shape)]) f
        { f with live := f.live && i.falls, stack := st, locals := ls } c c' :=
      ⟨fun e he => List.mem_append_left _ he, List.prefix_refl _, hx.maxStack, hx.maxLocals,
        fun l hd => by rw [hlab]; exact hd,
        fun _ => .inl ⟨_, List.mem_append_right _ List.mem_cons_self, rfl, .refl _⟩⟩
    refine ⟨_, ?_, fun e he => ?_, fun l mark o hm ho hd => ?_, hcont.lands hT.entry⟩
    · rw [List.map_append]
      exact hT.traced.push hbytes (.of_labels hx.labels) hx.plain hpos hdec
    · rcases List.mem_append.mp he with he | he
      · obtain ⟨after, hs⟩ := hT.sits e he
        exact ⟨after, hcont.sits hpq hs⟩
      · obtain rfl := List.mem_singleton.mp he
        refine ⟨⟨st, ls⟩, hstep, Nat.le_trans (h.depth hr).2 hx.maxStack, hx.slot hc, hcount,
          fun hf => .inr ⟨?_, by rw [hx.falls]; exact hf, .refl _⟩,
          fun op l hi => absurd hi (hx.plain op l)⟩
        simp [hbytes]
    · rw [hlab] at ho hd
      exact hcont.lands (hT.bound l mark o hm ho hd)

end Code
end ClassFile
end Kotlet

import Kotlet.Proofs.ClassFile.Flow.Straight

/-!
# Labels and branches

* `Flows.newLabel` : a fresh label, for which any shape may be chosen;
* `Flows.jump` : a branch;
* `Flows.bind`, `Flows.bindTop` : a label gets its place.

A branch and a place are said twice: once for the bytes and the labels (`Jumped`, `Bound`), and from
that for what is known of the body.
-/

namespace Kotlet
namespace ClassFile

open ParsedClass Instr

namespace Code

variable {p : Pool} {entry result : List Kind} {f : Flow} {c c' : Code}

theorem Traced.congr {T : List Placed} (h : c.Traced T) (hb : c'.bytes = c.bytes)
    (hl : ∀ l, c'.label l = c.label l) : c'.Traced T where
  chain := by rw [hb]; exact h.chain
  spells e he := by
    refine (h.spells e he).congr (h.chain.bounds e he).2.2 (fun l => by rw [hl]) fun k _ => ?_
    rw [hb]
  pending e he op l hi ho := by
    rw [hl] at ho ⊢
    exact h.pending e he op l hi ho
  waits l o ho := by
    rw [hl] at ho
    exact h.waits l o ho

theorem label_newLabel (c : Code) (l : Nat) : c.newLabel.2.label l = c.label l := by
  simp only [Code.newLabel, label, Array.getD_eq_getD_getElem?, Array.getElem?_push]
  split
  · rename_i hl
    subst hl
    simp
    rfl
  · rfl

/-- A fresh label, for which any shape may be chosen. -/
theorem Flows.newLabel (h : c.Flows p entry result f) (mark : Shape) :
    c.newLabel.1 = f.marks.length ∧ c.newLabel.2.Flows p entry result
      { f with marks := f.marks ++ [mark], opens := f.marks.length :: f.opens } := by
  have hlab := label_newLabel c
  have hlast : c.label f.marks.length = default := by
    rw [← h.labels.size]
    simp [label]
  have hold : ∀ l x, (f.marks ++ [mark])[l]? = some x → f.marks[l]? = some x ∨ l = f.marks.length := by
    intro l x hx
    have hlt := (List.getElem?_eq_some_iff.mp hx).1
    rw [List.length_append, List.length_singleton] at hlt
    by_cases hl : l < f.marks.length
    · rw [List.getElem?_append_left hl] at hx
      exact .inl hx
    · exact .inr (by omega)
  refine ⟨h.labels.size, ⟨⟨?_, ?_, fun l => ?_, fun l => ?_, fun l x d hx hd => ?_, fun l hl => ?_,
    fun l hl => ?_⟩, h.live, h.depth, h.nonempty, h.limits, fun hp hc => ?_⟩⟩
  · simp [Code.newLabel, h.labels.size]
  · refine List.nodup_cons.mpr ⟨fun hmem => ?_, h.labels.nodup⟩
    exact Nat.lt_irrefl _ ((h.labels.opens _).mp hmem).1
  · rw [hlab, List.mem_cons, h.labels.opens, List.length_append, List.length_singleton]
    constructor
    · rintro (rfl | ⟨hlt, ho⟩)
      · exact ⟨by omega, by rw [hlast]; rfl⟩
      · exact ⟨by omega, ho⟩
    · rintro ⟨hlt, ho⟩
      by_cases hl : l = f.marks.length
      · exact .inl hl
      · exact .inr ⟨by omega, ho⟩
  · rw [hlab]
    exact h.labels.settled l
  · rw [hlab] at hd
    rcases hold l x hx with hx | rfl
    · exact h.labels.depths l x d hx hd
    · rw [hlast] at hd
      cases hd
  · obtain ⟨hlt, ho, hd⟩ := h.labels.tops l hl
    rw [hlab, List.length_append]
    refine ⟨by omega, ho, hd.imp id fun hdead => ⟨hdead.1, fun k hk => ?_⟩⟩
    rw [hlab]
    exact hdead.2 k hk
  · rw [hlab]
    exact h.labels.fresh l hl
  · obtain ⟨T, hT⟩ := h.story hp hc
    have hcont : Continues T T f
        { f with marks := f.marks ++ [mark], opens := f.marks.length :: f.opens } c c.newLabel.2 :=
      ⟨fun _ he => he, List.prefix_append _ _, Nat.le_refl _, Nat.le_refl _,
        fun l hd => by rw [hlab]; exact hd, fun hr => .inr ⟨rfl, hr, .refl _⟩⟩
    refine ⟨T, hT.traced.congr rfl hlab, fun e he => ?_, fun l x o hx ho hd => ?_,
      hcont.lands hT.entry⟩
    · obtain ⟨after, hs⟩ := hT.sits e he
      exact ⟨after, hcont.sits (.refl p) hs⟩
    · rw [hlab] at ho hd
      rcases hold l x hx with hx | rfl
      · exact hcont.lands (hT.bound l x o hx ho hd)
      · rw [hlast] at hd
        cases hd

set_option maxRecDepth 2000 in
theorem operandForm_of_isBranch : ∀ {op : Opcode}, op.isBranch = true →
    operandForm op = .branch := by
  decide

/-- Control reaches a label whose height, if it has one, is the present one. -/
theorem arrive_spec {l : Nat} (hl : l < c.labels.size)
    (hd : ∀ d, (c.label l).depth = some d → d = c.depth)
    (ho : (c.label l).depth = none → (c.label l).offset = none) :
    ∃ labels, c.arrive l = { c with labels := labels } ∧ labels.size = c.labels.size ∧
      ∀ k, (c.arrive l).label k =
        if k = l then { c.label l with depth := some c.depth } else c.label k := by
  cases hdepth : (c.label l).depth with
  | none =>
    have heq : c.arrive l = c.setLabel l { c.label l with depth := some c.depth } := by
      unfold arrive
      simp only [hdepth, ho hdepth]
    rw [heq]
    exact ⟨_, rfl, by simp, label_setLabel hl _⟩
  | some d =>
    obtain rfl := hd d hdepth
    have heq : c.arrive l = c := by
      unfold arrive
      simp only [hdepth, if_true]
    rw [heq]
    refine ⟨c.labels, rfl, rfl, fun k => ?_⟩
    split
    · rename_i hk
      rw [hk, ← hdepth]
    · rfl

/-- A branch that was written gets its target, or waits for it. -/
def hook (c : Code) (l start : Nat) : Code :=
  match (c.label l).offset with
  | some target => c.patch start target
  | none => c.setLabel l { c.label l with pending := (c.label l).pending ++ [start] }

theorem hook_eq {l : Nat} (hl : l < c.labels.size) (start : Nat) : ∃ bytes labels err,
    c.hook l start = { c with bytes := bytes, labels := labels, error := err } ∧
      bytes.size = c.bytes.size ∧ labels.size = c.labels.size ∧ OnlyLimits c (c.hook l start) ∧
      ∀ k, ((c.hook l start).label k).offset = (c.label k).offset ∧
        ((c.hook l start).label k).depth = (c.label k).depth ∧
        ((c.label k).offset ≠ none → ((c.hook l start).label k).pending = (c.label k).pending) := by
  unfold hook
  cases ho : (c.label l).offset with
  | some target =>
    obtain ⟨bytes, err, heq, hsize, hlim⟩ := c.patch_eq start target
    refine ⟨bytes, c.labels, err, heq, hsize, rfl, hlim, fun k => ?_⟩
    have hlab : (c.patch start target).label k = c.label k := by rw [heq]; rfl
    dsimp only
    rw [hlab]
    exact ⟨rfl, rfl, fun _ => rfl⟩
  | none =>
    refine ⟨c.bytes, _, c.error, rfl, rfl, by simp, ⟨id, fun _ he => .inl he⟩, fun k => ?_⟩
    dsimp only
    rw [label_setLabel hl]
    split
    · rename_i hk
      subst hk
      exact ⟨rfl, rfl, fun hne => absurd ho hne⟩
    · exact ⟨rfl, rfl, fun _ => rfl⟩

@[simp] theorem endBlock_label (c : Code) (op : Opcode) (k : Nat) :
    (c.endBlock op).label k = c.label k := by
  simp only [label, endBlock_labels]

/-- A branch changes the height of the stack, reaches its label, and gets its target or waits for
it. -/
theorem jump_eq {op : Opcode} {l : Nat} (hr : c.reachable = true) (hop : op.isBranch = true) :
    c.jump op l = ((((c.write [op.byte, 0, 0]).adjust (op.effect?.getD 0)).arrive l).hook l
      c.bytes.size).endBlock op := by
  simp only [Code.jump, hr, hop, Bool.not_true, Bool.false_eq_true, if_false]
  rfl

/-- The trace of a body in which a branch was written and hooked. -/
theorem Traced.hooked {T : List Placed} {b : Code} {op : Opcode} {l : Nat} (h : Traced T c)
    (hop : op.isBranch = true) (hb : b.bytes = c.bytes ++ [op.byte, 0, 0].toArray)
    (hsame : SamePlaces c b) (hl : l < b.labels.size)
    (he : ((b.hook l c.bytes.size).endBlock op).error = none) :
    Traced (T ++ [⟨c.bytes.size, 3, .branch op l⟩]) ((b.hook l c.bytes.size).endBlock op) := by
  rw [endBlock_error] at he
  have hhook : Traced _ (b.hook l c.bytes.size) :=
    h.jump (operandForm_of_isBranch hop) hb hsame hl rfl he
  exact hhook.congr (endBlock_bytes _ op) (endBlock_label _ op)

/-- The body gets a branch to a label. -/
structure Jumped (op : Opcode) (l height : Nat) (c c' : Code) : Prop where
  size : c'.bytes.size = c.bytes.size + 3
  maxStack : c'.maxStack = max c.maxStack height
  maxLocals : c'.maxLocals = c.maxLocals
  reachable : c'.reachable = !op.endsBlock
  depth : op.endsBlock = false → c'.depth = height
  count : c'.labels.size = c.labels.size
  limits : OnlyLimits c c'
  offsets : ∀ k, (c'.label k).offset = (c.label k).offset
  depths : ∀ k, (c'.label k).depth = if k = l then some height else (c.label k).depth
  pending : ∀ k, (c.label k).offset ≠ none → (c'.label k).pending = (c.label k).pending
  traced : c'.error = none → ∀ T, c.Traced T →
    c'.Traced (T ++ [⟨c.bytes.size, 3, .branch op l⟩])

theorem jump_spec {op : Opcode} {l height : Nat} {d : Int} (hr : c.reachable = true)
    (hop : op.isBranch = true) (he : op.effect?.getD 0 = d) (hd : (c.depth : Int) + d = height)
    (hl : l < c.labels.size) (hheight : ∀ d, (c.label l).depth = some d → d = height)
    (hdead : (c.label l).depth = none → (c.label l).offset = none) :
    Jumped op l height c (c.jump op l) := by
  -- The body with the new height, then with the label reached, then with the branch hooked.
  obtain ⟨a, ha⟩ : ∃ a, a = { c.write [op.byte, 0, 0] with
      depth := height, maxStack := max c.maxStack height } := ⟨_, rfl⟩
  have hadj : (c.write [op.byte, 0, 0]).adjust (op.effect?.getD 0) = a := by
    rw [he, ha]
    exact adjust_of_eq hd
  have hlab : ∀ k, a.label k = c.label k := fun k => by rw [ha]; rfl
  have hla : l < a.labels.size := by rw [ha]; exact hl
  obtain ⟨labels, harr, hsize, hlab₁⟩ := arrive_spec hla
    (fun x hx => by rw [hlab] at hx; rw [hheight x hx, ha]) (fun hx => by
      rw [hlab] at hx ⊢
      exact hdead hx)
  simp only [hlab] at hlab₁
  obtain ⟨b, hb⟩ : ∃ b, b = a.arrive l := ⟨_, rfl⟩
  rw [← hb] at harr hlab₁
  have hlb : l < b.labels.size := by rw [harr]; exact hsize ▸ hla
  have hsame : SamePlaces c b := by
    intro k
    rw [hlab₁]
    split
    · rename_i hk
      rw [hk]
      exact ⟨rfl, rfl⟩
    · exact ⟨rfl, rfl⟩
  have hbytes : b.bytes = c.bytes ++ [op.byte, 0, 0].toArray := by
    rw [harr, ha]
    exact write_bytes c _
  have hfinal : c.jump op l = (b.hook l c.bytes.size).endBlock op := by
    rw [hb, ← hadj]
    exact jump_eq hr hop
  obtain ⟨bytes, labels', err, hhook, hbsize, hlsize, hlim, hlabels⟩ := hook_eq hlb c.bytes.size
  have hlab' : ∀ k, (c.jump op l).label k = (b.hook l c.bytes.size).label k := fun k => by
    rw [hfinal, endBlock_label]
  have herr : (c.jump op l).error = (b.hook l c.bytes.size).error := by
    rw [hfinal, endBlock_error]
  have hrest : (c.jump op l).maxStack = max c.maxStack height ∧
      (c.jump op l).maxLocals = c.maxLocals ∧ (c.jump op l).reachable = !op.endsBlock ∧
      (op.endsBlock = false → (c.jump op l).depth = height) := by
    rw [hfinal, hhook, harr, ha]
    unfold endBlock
    cases op.endsBlock with
    | true => exact ⟨rfl, rfl, rfl, (by simp)⟩
    | false => exact ⟨rfl, rfl, hr, fun _ => rfl⟩
  refine ⟨?_, hrest.1, hrest.2.1, hrest.2.2.1, hrest.2.2.2, ?_, ?_, fun k => ?_, fun k => ?_,
    fun k hk => ?_, fun he T hT => ?_⟩
  · rw [hfinal, endBlock_bytes, hhook]
    exact hbsize.trans (by simp [hbytes])
  · rw [hfinal, endBlock_labels, hhook]
    refine hlsize.trans ?_
    rw [harr]
    exact hsize.trans (by rw [ha]; rfl)
  · have hba : OnlyLimits c b := by rw [harr, ha]; exact .refl c
    refine hba.trans ⟨fun h => hlim.1 (herr ▸ h), fun e he => hlim.2 e (herr ▸ he)⟩
  · rw [hlab', (hlabels k).1]
    exact (hsame k).1
  · rw [hlab', (hlabels k).2.1, hlab₁]
    split
    · rw [ha]
    · rfl
  · rw [hlab', (hlabels k).2.2 (by rw [(hsame k).1]; exact hk)]
    exact (hsame k).2
  · rw [hfinal] at he ⊢
    exact hT.hooked hop hbytes hsame hlb he

theorem Jumped.depth_ne {op : Opcode} {l height k : Nat} (h : Jumped op l height c c')
    (hk : (c.label k).depth ≠ none) : (c'.label k).depth ≠ none := by
  rw [h.depths]
  split
  · simp
  · exact hk

/-- The labels after a branch. -/
theorem Labelled.jump {o : Opcode} {l : Nat} {mark : Shape} (h : c.Labelled f)
    (hj : Jumped o l mark.stack.length c c') (hm : f.marks[l]? = some mark)
    (htops : ∀ k ∈ f.tops, (c.label k).depth ≠ none) (live : Bool) (st : List Kind) :
    c'.Labelled { f with live := live, stack := st, fresh := max f.fresh (l + 1) } where
  size := by rw [hj.count]; exact h.size
  nodup := h.nodup
  opens k := by rw [hj.offsets]; exact h.opens k
  settled k hk := by
    rw [hj.offsets] at hk
    rw [hj.pending k hk]
    exact h.settled k hk
  depths k x d hx hd := by
    rw [hj.depths] at hd
    rw [hj.maxStack]
    split at hd
    · rename_i hk
      subst hk
      cases hd
      cases hm.symm.trans hx
      exact ⟨rfl, Nat.le_max_right _ _⟩
    · obtain ⟨heq, hle⟩ := h.depths k x d hx hd
      exact ⟨heq, Nat.le_trans hle (Nat.le_max_left _ _)⟩
  tops k hk := by
    obtain ⟨hk', ho, -⟩ := h.tops k hk
    rw [hj.offsets]
    exact ⟨hk', ho, .inl (hj.depth_ne (htops k hk))⟩
  fresh k hk := by
    have hle : max f.fresh (l + 1) ≤ k := hk
    rw [hj.depths, if_neg (by omega)]
    exact h.fresh k (by omega)

/-- The instructions with a branch behind them, to a label that has no place or is reached. -/
theorem Story.jump {T : List Entry} {o : Opcode} {l : Nat} {mark : Shape} {st : List Kind}
    (h : c.Story p entry result f T) (hj : Jumped o l st.length c c') (he : c'.error = none)
    (ha : o.act? f.stack = some st) (hstack : f.stack.length ≤ c.maxStack)
    (hm : f.marks[l]? = some mark) (hmark : mark.Le ⟨st, f.locals⟩)
    (hl : (c.label l).offset = none ∨ (c.label l).depth ≠ none) (live : Bool) :
    c'.Story p entry result { f with live := live, stack := st, fresh := max f.fresh (l + 1) }
      (T ++ [(⟨c.bytes.size, 3, .branch o l⟩, f.shape)]) := by
  have hcont : Continues T (T ++ [(⟨c.bytes.size, 3, .branch o l⟩, f.shape)]) f
      { f with live := live, stack := st, fresh := max f.fresh (l + 1) } c c' := by
    refine ⟨fun e he => List.mem_append_left _ he, List.prefix_refl _,
      by rw [hj.maxStack]; exact Nat.le_max_left _ _, Nat.le_of_eq hj.maxLocals.symm, fun k hk => ?_,
      fun _ => .inl ⟨_, List.mem_append_right _ List.mem_cons_self, rfl, .refl _⟩⟩
    rw [Option.isSome_iff_ne_none] at hk ⊢
    exact hj.depth_ne hk
  refine ⟨?_, fun e he => ?_, fun k x o hx ho hd => ?_, hcont.lands h.entry⟩
  · rw [List.map_append]
    exact hj.traced he _ h.traced
  · rcases List.mem_append.mp he with he | he
    · obtain ⟨after, hs⟩ := h.sits e he
      exact ⟨after, hcont.sits (.refl p) hs⟩
    · obtain rfl := List.mem_singleton.mp he
      refine ⟨⟨st, f.locals⟩, ?_, ?_, (fun _ hs => by cases hs), (fun _ _ hi => by cases hi),
        fun hf => .inr ⟨hj.size.symm, ?_, .refl _⟩, fun o' l' hi => ?_⟩
      · rw [step?, stack?]
        exact congrArg (Option.map _) ha
      · rw [hj.maxStack]
        exact Nat.le_trans hstack (Nat.le_max_left _ _)
      · rw [hj.reachable]
        exact hf
      · cases hi
        rw [hj.depths, if_pos rfl]
        exact ⟨rfl, mark, hm, hmark⟩
  · rw [hj.offsets] at ho
    by_cases hk : (c.label k).depth.isSome
    · exact hcont.lands (h.bound k x o hx ho hk)
    · -- The label was not reached before, so it is the target, and it had no place.
      have hkl : k = l := by
        by_contra hne
        rw [hj.depths, if_neg hne] at hd
        exact hk hd
      subst hkl
      rcases hl with hnone | hreached
      · rw [hnone] at ho
        cases ho
      · exact absurd (by simpa using hk) hreached

/-- Where code comes after an instruction, it is known to. -/
theorem Flows.live_of_reachable (h : c.Flows p entry result f) (hr : c.reachable = true) :
    f.live = true := by
  by_contra hne
  rw [h.live (by simpa using hne)] at hr
  cases hr

/-- A branch to a label whose shape is the one after it. -/
theorem Flows.jump {o : Opcode} {l : Nat} {mark : Shape} (h : c.Flows p entry result f)
    (st : List Kind) (hop : o.isBranch = true) (ha : o.act? f.stack = some st)
    (hm : f.marks[l]? = some mark) (hl : l ∈ f.opens ∨ l ∈ f.tops)
    (hmark : mark.Le ⟨st, f.locals⟩) :
    (c.jump o l).Flows p entry result
      { f with live := f.live && !o.endsBlock, stack := st, fresh := max f.fresh (l + 1) } := by
  cases hr : c.reachable with
  | false =>
    have hc : c.jump o l = c := by simp [Code.jump, hr]
    rw [hc]
    exact (h.silent hr (f.live && !o.endsBlock) st f.locals).weaken rfl rfl (fun _ h => h)
      (Nat.le_max_left _ _) id (.refl _)
  | true =>
    have hlive := h.live_of_reachable hr
    obtain rfl : mark.stack = st := hmark.stack
    have htops : ∀ k ∈ f.tops, (c.label k).depth ≠ none := fun k hk => by
      obtain ⟨-, -, hd | hdead⟩ := h.labels.tops k hk
      · exact hd
      · exact absurd (hdead.1.symm.trans hr) (by decide)
    have htarget : (c.label l).offset = none ∨ (c.label l).depth ≠ none :=
      hl.imp (fun hl => ((h.labels.opens l).mp hl).2) (htops l)
    have hj : Jumped o l mark.stack.length c (c.jump o l) := by
      refine jump_spec hr hop (congrArg (·.getD 0) (Opcode.effect?_of_act? ha)) ?_ ?_ (fun d hd => ?_)
        fun hnone => ?_
      · have := (h.depth hr).1
        rw [Option.getD_some]
        omega
      · rw [h.labels.size]
        exact (List.getElem?_eq_some_iff.mp hm).1
      · exact (h.labels.depths l mark d hm hd).1
      · exact htarget.resolve_right fun hne => hne hnone
    refine ⟨h.labels.jump hj hm htops _ _, fun hl' => ?_, fun hr' => ⟨hj.depth ?_, ?_⟩,
      fun _ => by rw [hj.size]; omega, fun e he => (hj.limits.2 e he).elim (h.limits e) id,
      fun hp hc => ?_⟩
    · rw [hlive, Bool.true_and] at hl'
      rw [hj.reachable]
      exact hl'
    · rw [hj.reachable] at hr'
      simpa using hr'
    · rw [hj.maxStack]
      exact Nat.le_max_right _ _
    · obtain ⟨T, hT⟩ := h.story hp (hj.limits.1 hc)
      exact ⟨_, hT.jump hj hc ha (h.depth hr).2 hm hmark htarget _⟩

/-- A label gets its place here. -/
structure Bound (l height : Nat) (c c' : Code) : Prop where
  size : c'.bytes.size = c.bytes.size
  maxStack : c'.maxStack = c.maxStack
  maxLocals : c'.maxLocals = c.maxLocals
  reachable : c'.reachable = (c.reachable || (c.label l).depth.isSome)
  depth : c'.reachable = true → c'.depth = height
  count : c'.labels.size = c.labels.size
  limits : OnlyLimits c c'
  self : c'.label l =
    ⟨some c.bytes.size, if c.reachable then some height else (c.label l).depth, []⟩
  others : ∀ k, k ≠ l → c'.label k = c.label k
  traced : c'.error = none → ∀ T, c.Traced T → c'.Traced T

/-- The body before the branches to the label get their targets. -/
theorem reach_spec {l height : Nat} (hl : l < c.labels.size) (ho : (c.label l).offset = none)
    (hheight : ∀ d, (c.label l).depth = some d → d = height)
    (hr : c.reachable = true → c.depth = height) :
    ∃ b depth labels, (if c.reachable then c.arrive l else
      match (c.label l).depth with
      | some d => { c with reachable := true, depth := d }
      | none => c) = b ∧
      b = { c with
        reachable := c.reachable || (c.label l).depth.isSome, depth := depth, labels := labels } ∧
      (b.reachable = true → depth = height) ∧ labels.size = c.labels.size ∧
      ∀ k, b.label k = if k = l then { c.label l with
        depth := if c.reachable then some height else (c.label l).depth } else c.label k := by
  cases hreach : c.reachable with
  | true =>
    have hd := hr hreach
    obtain ⟨labels, heq, hsize, hlab⟩ := arrive_spec hl (fun d h => by rw [hheight d h, hd])
      fun _ => ho
    refine ⟨_, c.depth, labels, rfl, ?_, fun _ => hd, hsize, fun k => ?_⟩
    · rw [if_pos rfl, heq, Bool.true_or, ← hreach]
    · rw [if_pos rfl, if_pos rfl, hlab, hd]
  | false =>
    have hself : ∀ k, c.label k =
        if k = l then { c.label l with depth := (c.label l).depth } else c.label k := by
      intro k
      split
      · rename_i hk
        rw [hk]
      · rfl
    cases hdepth : (c.label l).depth with
    | some d =>
      refine ⟨{ c with reachable := true, depth := d }, d, c.labels, rfl, rfl,
        fun _ => hheight d hdepth, rfl, fun k => ?_⟩
      rw [hdepth] at hself
      exact hself k
    | none =>
      refine ⟨c, c.depth, c.labels, rfl, ?_, (fun h => by rw [hreach] at h; cases h), rfl,
        fun k => ?_⟩
      · rw [Option.isSome_none, Bool.or_self, ← hreach]
      · rw [hdepth] at hself
        exact hself k

theorem bind_spec {l height : Nat} (hl : l < c.labels.size) (ho : (c.label l).offset = none)
    (hheight : ∀ d, (c.label l).depth = some d → d = height)
    (hr : c.reachable = true → c.depth = height) : Bound l height c (c.bind l) := by
  obtain ⟨b, depth, labels, hb, hbeq, hdepth, hsize, hlab⟩ := reach_spec hl ho hheight hr
  have hlb : l < b.labels.size := by rw [hbeq]; exact hsize ▸ hl
  have hfinal : c.bind l = (b.label l).pending.foldl (fun c s => c.patch s b.bytes.size)
      (b.setLabel l { b.label l with offset := some b.bytes.size, pending := [] }) := by
    rw [← hb]
    unfold Code.bind
    rw [ho]
    rfl
  have hsame : SamePlaces c b := by
    intro k
    rw [hlab]
    split
    · rename_i hk
      rw [hk]
      exact ⟨rfl, rfl⟩
    · exact ⟨rfl, rfl⟩
  have hbytes : b.bytes = c.bytes := by rw [hbeq]
  obtain ⟨bytes, err, heq, hbsize, hlim⟩ := patches_eq (b.label l).pending
    (b.setLabel l { b.label l with offset := some b.bytes.size, pending := [] }) b.bytes.size
  rw [← hfinal] at heq hlim
  have hlab' : ∀ k, (c.bind l).label k =
      if k = l then { b.label l with offset := some b.bytes.size, pending := [] }
      else b.label k := fun k => by
    rw [heq]
    exact label_setLabel hlb _ k
  refine ⟨?_, ?_, ?_, ?_, fun h => ?_, ?_, ?_, ?_, fun k hk => ?_, fun he T hT => ?_⟩
  · rw [heq]
    exact hbsize.trans (by rw [setLabel, hbytes])
  · rw [heq, setLabel, hbeq]
  · rw [heq, setLabel, hbeq]
  · rw [heq, setLabel, hbeq]
  · rw [heq, setLabel] at h ⊢
    have := hdepth h
    rw [hbeq]
    exact this
  · rw [heq, setLabel]
    simp only [Array.size_setIfInBounds]
    rw [hbeq]
    exact hsize
  · have herr : b.error = c.error := by rw [hbeq]
    refine OnlyLimits.trans ⟨fun h => herr ▸ h, fun e h => .inl (herr ▸ h)⟩ hlim
  · rw [hlab', if_pos rfl, hlab, if_pos rfl, hbytes]
  · rw [hlab', if_neg hk, hlab, if_neg hk]
  · exact hT.bind hbytes hsame hlb hfinal ho he

theorem Flows.bound {l : Nat} {mark : Shape} (h : c.Flows p entry result f)
    (hm : f.marks[l]? = some mark) (ho : l ∈ f.opens) (hmark : f.live = true → mark.Le f.shape) :
    Bound l mark.stack.length c (c.bind l) := by
  obtain ⟨hlt, hoff⟩ := (h.labels.opens l).mp ho
  refine bind_spec (by rw [h.labels.size]; exact hlt) hoff
    (fun d hd => (h.labels.depths l mark d hm hd).1) fun hr => ?_
  rw [(h.depth hr).1]
  exact congrArg List.length (hmark (h.live_of_reachable hr)).stack.symm

/-- The height at a label that has got its place. -/
theorem Bound.height {l : Nat} {mark : Shape} (hb : Bound l mark.stack.length c c')
    (h : c.Labelled f) (hm : f.marks[l]? = some mark)
    (hr : c.reachable = true → mark.stack.length ≤ c.maxStack) {d : Nat}
    (hd : (c'.label l).depth = some d) : d = mark.stack.length ∧ d ≤ c.maxStack := by
  rw [hb.self] at hd
  cases hreach : c.reachable with
  | true =>
    rw [hreach] at hd
    obtain rfl := Option.some.inj hd
    exact ⟨rfl, hr hreach⟩
  | false =>
    rw [hreach] at hd
    exact h.depths l mark d hm hd

/-- A label that control has come to is reached where it got its place. -/
theorem Bound.reached {l height : Nat} (hb : Bound l height c c') :
    (c'.label l).depth.isSome = c'.reachable := by
  rw [hb.self, hb.reachable]
  cases c.reachable <;> rfl

/-- The labels after one of them has got its place. -/
theorem Labelled.bind {l : Nat} {mark : Shape} (h : c.Labelled f)
    (hb : Bound l mark.stack.length c c') (hm : f.marks[l]? = some mark)
    (hr : c.reachable = true → mark.stack.length ≤ c.maxStack) (ht : ∀ t ∈ f.tops, t < l)
    (live : Bool) (st : List Kind) (locals : Nat → Option Kind) :
    c'.Labelled { f with
      opens := f.opens.erase l, fresh := max f.fresh (l + 1), live := live, stack := st
      locals := locals } where
  size := by rw [hb.count]; exact h.size
  nodup := h.nodup.erase l
  opens k := by
    rw [h.nodup.mem_erase_iff, h.opens]
    by_cases hk : k = l
    · subst hk
      rw [hb.self]
      simp
    · rw [hb.others k hk]
      simp [hk]
  settled k hk := by
    by_cases hkl : k = l
    · rw [hkl, hb.self]
    · rw [hb.others k hkl] at hk ⊢
      exact h.settled k hk
  depths k x d hx hd := by
    rw [hb.maxStack]
    by_cases hkl : k = l
    · subst hkl
      cases hm.symm.trans hx
      exact hb.height h hm hr hd
    · rw [hb.others k hkl] at hd
      exact h.depths k x d hx hd
  tops k hk := by
    have hkl : k < l := ht k hk
    obtain ⟨hlt, hoff, hd⟩ := h.tops k hk
    rw [hb.others k (by omega)]
    refine ⟨hlt, hoff, hd.imp id fun hdead => ⟨?_, fun j hj => ?_⟩⟩
    · rw [hb.reachable, hdead.1, hdead.2 l (by omega)]
      rfl
    · by_cases hjl : j = l
      · rw [hjl, hb.self, hdead.1]
        exact hdead.2 l (by omega)
      · rw [hb.others j hjl]
        exact hdead.2 j hj
  fresh k hk := by
    have hle : max f.fresh (l + 1) ≤ k := hk
    rw [hb.others k (by omega)]
    exact h.fresh k (by omega)

/-- The instructions stay as they are. Control can go to the label now. -/
theorem Story.bind {T : List Entry} {l : Nat} {mark : Shape} (h : c.Story p entry result f T)
    (hb : Bound l mark.stack.length c c') (he : c'.error = none) (hm : f.marks[l]? = some mark)
    (hlive : c.reachable = true → mark.Le f.shape) :
    c'.Story p entry result { f with
      opens := f.opens.erase l, fresh := max f.fresh (l + 1), live := true, stack := mark.stack
      locals := mark.locals } T := by
  have hcont : Continues T T f { f with
      opens := f.opens.erase l, fresh := max f.fresh (l + 1), live := true, stack := mark.stack
      locals := mark.locals } c c' := by
    refine ⟨fun _ he => he, List.prefix_refl _, Nat.le_of_eq hb.maxStack.symm,
      Nat.le_of_eq hb.maxLocals.symm, fun k hk => ?_, fun hr => .inr ⟨hb.size.symm, ?_, hlive hr⟩⟩
    · by_cases hkl : k = l
      · rw [hkl, hb.reached, hb.reachable, ← hkl, hk, Bool.or_true]
      · rw [hb.others k hkl]
        exact hk
    · rw [hb.reachable, hr, Bool.true_or]
  refine ⟨hb.traced he _ h.traced, fun e he => ?_, fun k x o hx ho hd => ?_, hcont.lands h.entry⟩
  · obtain ⟨after, hs⟩ := h.sits e he
    exact ⟨after, hcont.sits (.refl p) hs⟩
  · by_cases hkl : k = l
    · subst hkl
      cases hm.symm.trans hx
      rw [hb.reached] at hd
      rw [hb.self] at ho
      cases ho
      exact .inr ⟨hb.size.symm, hd, .refl _⟩
    · rw [hb.others k hkl] at ho hd
      exact hcont.lands (h.bound k x o hx ho hd)

/-- A label gets its place. From here on its shape is the present one. -/
theorem Flows.bind {l : Nat} {mark : Shape} (h : c.Flows p entry result f)
    (hm : f.marks[l]? = some mark) (ho : l ∈ f.opens) (hmark : f.live = true → mark.Le f.shape)
    (ht : ∀ t ∈ f.tops, t < l) :
    (c.bind l).Flows p entry result
      { f with
        opens := f.opens.erase l, fresh := max f.fresh (l + 1), live := true,
        stack := mark.stack, locals := mark.locals } := by
  have hb := h.bound hm ho hmark
  have hlive (hr : c.reachable = true) : mark.Le f.shape := hmark (h.live_of_reachable hr)
  have hstack (hr : c.reachable = true) : mark.stack.length ≤ c.maxStack := by
    rw [(hlive hr).stack]
    exact (h.depth hr).2
  refine ⟨h.labels.bind hb hm hstack ht _ _ _, (fun hl => by cases hl),
    fun hr => ⟨hb.depth hr, ?_⟩, fun hr => ?_,
    fun e he => (hb.limits.2 e he).elim (h.limits e) id, fun hp hc => ?_⟩
  · rw [hb.maxStack]
    rw [← hb.reached] at hr
    obtain ⟨d, hd⟩ := Option.isSome_iff_exists.mp hr
    obtain ⟨heq, hle⟩ := hb.height h.labels hm hstack hd
    exact heq ▸ hle
  · rw [hb.size]
    refine h.nonempty ?_
    rw [hb.reachable, Bool.or_eq_false_iff] at hr
    exact hr.1
  · obtain ⟨T, hT⟩ := h.story hp (hb.limits.1 hc)
    exact ⟨T, hT.bind hb hc hm hlive⟩

/-- The head of a loop gets its place. Nothing has jumped to it or to a later label before. -/
theorem Flows.bindTop {l : Nat} {mark : Shape} (h : c.Flows p entry result f)
    (hm : f.marks[l]? = some mark) (ho : l ∈ f.opens) (hmark : f.live = true → mark.Le f.shape)
    (ht : ∀ t ∈ f.tops, t < l) (hf : f.fresh ≤ l) :
    (c.bind l).Flows p entry result
      { f with
        opens := f.opens.erase l, tops := l :: f.tops, fresh := max f.fresh (l + 1), live := true,
        stack := mark.stack, locals := mark.locals } := by
  have hb := h.bound hm ho hmark
  have hflow := h.bind hm ho hmark ht
  have htop : ((c.bind l).label l).offset ≠ none ∧
      (((c.bind l).label l).depth ≠ none ∨ (c.bind l).Dead l) := by
    rw [hb.self]
    refine ⟨by simp, ?_⟩
    cases hr : c.reachable with
    | true => exact .inl (by simp)
    | false =>
      have hnone := h.labels.fresh l hf
      refine .inr ⟨by rw [hb.reachable, hr, hnone]; rfl, fun k hk => ?_⟩
      by_cases hkl : k = l
      · rw [hkl, hb.self, hr]
        exact hnone
      · rw [hb.others k hkl]
        exact h.labels.fresh k (by omega)
  refine ⟨{ hflow.labels with tops := fun k hk => ?_ }, hflow.live, hflow.depth, hflow.nonempty,
    hflow.limits, fun hp hc => ?_⟩
  · rcases List.mem_cons.mp hk with rfl | hk
    · exact ⟨((h.labels.opens k).mp ho).1, htop⟩
    · exact hflow.labels.tops k hk
  · obtain ⟨T, hT⟩ := hflow.story hp hc
    exact ⟨T, hT.keep (.refl p) rfl fun _ => .refl _⟩

end Code
end ClassFile
end Kotlet

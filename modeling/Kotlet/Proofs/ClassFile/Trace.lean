import Kotlet.Proofs.ClassFile.Instr

/-!
# Bodies as traces

While a body is put together, its branches name labels, and the bytes of a branch whose label has
no place yet are not final. A trace is the list of the instructions so far, in this form.

* `Placed` : an instruction with its place and its size; `Placed.Chain` : one after the other;
* `Code.Traced` : the trace of a body that has not failed;
* `Traced.push`, `Traced.jump`, `Traced.bind` : one instruction more, one branch more, a label that
  gets its place;
* `Traced.decodeAll` : once every label has its place, the bytes decode to the trace.
-/

namespace Kotlet
namespace ClassFile

open ParsedClass Instr

/-- An instruction at a place. Branches name labels. -/
structure Placed where
  /-- The place. -/
  at_ : Nat
  /-- The number of bytes. -/
  size : Nat
  /-- The instruction. -/
  instr : Instr

/-- Instructions one after the other, from one place to another. -/
def Placed.Chain : Nat → List Placed → Nat → Prop
  | a, [], b => a = b
  | a, e :: es, b => e.at_ = a ∧ 0 < e.size ∧ Placed.Chain (a + e.size) es b

namespace Placed.Chain

variable {a b : Nat} {T : List Placed}

theorem snoc {e : Placed} (h : Placed.Chain a T b) (he : e.at_ = b) (hs : 0 < e.size) :
    Placed.Chain a (T ++ [e]) (b + e.size) := by
  induction T generalizing a with
  | nil => subst h; exact ⟨he, hs, rfl⟩
  | cons x T ih => exact ⟨h.1, h.2.1, ih h.2.2⟩

theorem bounds (h : Placed.Chain a T b) : ∀ e ∈ T, a ≤ e.at_ ∧ e.at_ + e.size ≤ b ∧ 0 < e.size := by
  induction T generalizing a with
  | nil => simp
  | cons x T ih =>
    obtain ⟨hx, hs, hT⟩ := h
    have hle : a + x.size ≤ b := by
      cases T with
      | nil => exact Nat.le_of_eq hT
      | cons y T =>
        have := ih hT y List.mem_cons_self
        omega
    intro e he
    rcases List.mem_cons.mp he with rfl | he
    · omega
    · have := ih hT e he
      omega

/-- Instructions do not overlap. -/
theorem disjoint (h : Placed.Chain a T b) : ∀ e ∈ T, ∀ f ∈ T,
    e = f ∨ e.at_ + e.size ≤ f.at_ ∨ f.at_ + f.size ≤ e.at_ := by
  induction T generalizing a with
  | nil => simp
  | cons x T ih =>
    obtain ⟨hx, hs, hT⟩ := h
    intro e he f hf
    rcases List.mem_cons.mp he with he | he
    · rcases List.mem_cons.mp hf with hf | hf
      · exact .inl (he.trans hf.symm)
      · have := hT.bounds f hf
        subst he
        exact .inr (.inl (by omega))
    · rcases List.mem_cons.mp hf with hf | hf
      · have := hT.bounds e he
        subst hf
        exact .inr (.inr (by omega))
      · exact ih hT e he f hf

end Placed.Chain

/-! ## Failures and plain changes -/

namespace Code

variable {c : Code}

@[simp] theorem write_bytes (c : Code) (bs : List UInt8) :
    (c.write bs).bytes = c.bytes ++ bs.toArray := by
  simp [write]

theorem fail_error (c : Code) (e : BuildError) : (c.fail e).error ≠ none := by
  unfold fail
  split
  · rename_i h
    intro hn
    simp [hn] at h
  · simp

theorem fail_eq (c : Code) (e : BuildError) : ∃ err, c.fail e = { c with error := err } := by
  unfold fail
  split
  · exact ⟨c.error, rfl⟩
  · exact ⟨_, rfl⟩

theorem adjust_eq (c : Code) (d : Int) : ∃ depth maxStack err,
    c.adjust d = { c with depth := depth, maxStack := maxStack, error := err } ∧
      (err = none → c.error = none) := by
  obtain ⟨err, h⟩ := c.fail_eq (.underflow c.size)
  by_cases hd : (c.depth : Int) + d < 0
  · refine ⟨0, c.maxStack, err, ?_, fun he => ?_⟩
    · simp only [adjust, if_pos hd, h]
    · exact absurd (by rw [h]; exact he) (fail_error c (.underflow c.size))
  · refine ⟨(c.depth + d).toNat, max c.maxStack (c.depth + d).toNat, c.error, ?_, id⟩
    simp only [adjust, if_neg hd]

@[simp] theorem adjust_bytes (c : Code) (d : Int) : (c.adjust d).bytes = c.bytes := by
  obtain ⟨_, _, _, h, -⟩ := c.adjust_eq d
  rw [h]

@[simp] theorem adjust_labels (c : Code) (d : Int) : (c.adjust d).labels = c.labels := by
  obtain ⟨_, _, _, h, -⟩ := c.adjust_eq d
  rw [h]

theorem adjust_error (c : Code) (d : Int) (h : (c.adjust d).error = none) : c.error = none := by
  obtain ⟨_, _, _, heq, herr⟩ := c.adjust_eq d
  rw [heq] at h
  exact herr h

@[simp] theorem endBlock_bytes (c : Code) (op : Opcode) : (c.endBlock op).bytes = c.bytes := by
  unfold endBlock
  split <;> rfl

@[simp] theorem endBlock_labels (c : Code) (op : Opcode) : (c.endBlock op).labels = c.labels := by
  unfold endBlock
  split <;> rfl

@[simp] theorem endBlock_error (c : Code) (op : Opcode) : (c.endBlock op).error = c.error := by
  unfold endBlock
  split <;> rfl

/-! ## Traces -/

/-- How an instruction stands in a body. A branch to a label without a place has its opcode. -/
def Spells (c : Code) (e : Placed) : Prop :=
  match e.instr with
  | .branch op l => e.size = 3 ∧ operandForm op = .branch ∧ c.bytes[e.at_]? = some op.byte ∧
      ∀ t, (c.label l).offset = some t → decode c.bytes e.at_ = some (.branch op t, 3)
  | i => decode c.bytes e.at_ = some (i, e.size)

/-- The instructions of a body so far. -/
structure Traced (T : List Placed) (c : Code) : Prop where
  chain : Placed.Chain 0 T c.bytes.size
  spells : ∀ e ∈ T, c.Spells e
  pending : ∀ e ∈ T, ∀ op l, e.instr = .branch op l → (c.label l).offset = none →
    e.at_ ∈ (c.label l).pending
  waits : ∀ l, ∀ o ∈ (c.label l).pending, ∃ e ∈ T, e.at_ = o ∧ ∃ op, e.instr = .branch op l

theorem traced_start (params : Nat) : Traced [] (start params) where
  chain := rfl
  spells := by simp
  pending := by simp
  waits l o ho := by
    have hl : (start params).label l = default := by simp [start, label]
    rw [hl] at ho
    cases ho

/-- The labels have the same places, and the same branches wait for them. -/
def SamePlaces (c c' : Code) : Prop :=
  ∀ l, (c'.label l).offset = (c.label l).offset ∧ (c'.label l).pending = (c.label l).pending

theorem SamePlaces.of_labels {c c' : Code} (h : c'.labels = c.labels) : SamePlaces c c' := by
  intro l
  simp only [label, h, and_self]

/-- The bytes of an instruction do not change. -/
theorem Spells.congr {c c' : Code} {e : Placed} (h : c.Spells e) (hs : 0 < e.size)
    (hl : ∀ l, (c'.label l).offset = (c.label l).offset) (hb : SameAt c.bytes c'.bytes e.at_ e.size) : c'.Spells e := by
  unfold Spells at h ⊢
  split at h
  · rename_i op l hi
    obtain ⟨hsize, hform, hop, ht⟩ := h
    rw [hsize] at hb
    refine ⟨hsize, hform, ?_, fun t ht' => ?_⟩
    · simpa [hop] using hb 0 (by omega)
    · rw [hl l] at ht'
      exact decode_congr (ht t ht') (by omega) hb
  · exact decode_congr h hs hb

theorem sameAt_append {c : Code} {bs : List UInt8} {o n : Nat} (h : o + n ≤ c.bytes.size) :
    SameAt c.bytes (c.bytes ++ bs.toArray) o n := by
  intro k hk
  rw [Array.getElem?_append_left (by omega)]

/-- One instruction more, which is no branch. -/
theorem Traced.push {T : List Placed} {c c' : Code} {bs : List UInt8} {i : Instr}
    (h : Traced T c) (hb : c'.bytes = c.bytes ++ bs.toArray) (hl : SamePlaces c c')
    (hn : ∀ op l, i ≠ .branch op l) (hbs : 0 < bs.length)
    (hd : decode (c.bytes ++ bs.toArray) c.bytes.size = some (i, bs.length)) :
    Traced (T ++ [⟨c.bytes.size, bs.length, i⟩]) c' where
  chain := by
    rw [hb, Array.size_append, List.size_toArray]
    exact h.chain.snoc rfl hbs
  spells e he := by
    rcases List.mem_append.mp he with he | he
    · have hbound := h.chain.bounds e he
      refine (h.spells e he).congr hbound.2.2 (fun l => (hl l).1) ?_
      rw [hb]
      exact sameAt_append hbound.2.1
    · obtain rfl := List.mem_singleton.mp he
      unfold Spells
      cases i with
      | branch op l => exact absurd rfl (hn op l)
      | _ => rw [hb]; exact hd
  pending e he op l hi ho := by
    rw [(hl l).1] at ho
    rw [(hl l).2]
    rcases List.mem_append.mp he with he | he
    · exact h.pending e he op l hi ho
    · obtain rfl := List.mem_singleton.mp he
      exact absurd hi (hn op l)
  waits l o ho := by
    rw [(hl l).2] at ho
    obtain ⟨e, he, heq⟩ := h.waits l o ho
    exact ⟨e, List.mem_append_left _ he, heq⟩

/-! ## Branches -/

/-- The branch at `start` goes to `target`. -/
structure Patched (c : Code) (start target : Nat) : Prop where
  reach : -0x8000 ≤ (target : Int) - start ∧ (target : Int) - start ≤ 0x7fff
  distance : u2? c.bytes (start + 1) = some (Int16.ofInt (target - start)).toUInt16

/-- A body that differs from another one in the offsets of some branches at most. -/
structure Repaired (starts : List Nat) (c c' : Code) : Prop where
  size : c'.bytes.size = c.bytes.size
  same : ∀ k, (∀ s ∈ starts, k ≠ s + 1 ∧ k ≠ s + 2) → c'.bytes[k]? = c.bytes[k]?
  labels : c'.labels = c.labels
  error : c'.error = none → c.error = none

theorem u2?_set {bytes : Array UInt8} {k : Nat} (h : k + 1 < bytes.size) (n : UInt16) :
    u2? ((bytes.setIfInBounds k (n >>> 8).toUInt8).setIfInBounds (k + 1) n.toUInt8) k = some n := by
  refine u2?_eq ?_ ?_
  · rw [Array.getElem?_setIfInBounds_ne (by omega), Array.getElem?_setIfInBounds_self_of_lt (by omega)]
  · rw [Array.getElem?_setIfInBounds_self_of_lt (by simpa using h)]

theorem patch_spec {c : Code} (start target : Nat) (hs : start + 2 < c.bytes.size)
    (he : (c.patch start target).error = none) :
    Repaired [start] c (c.patch start target) ∧ (c.patch start target).Patched start target := by
  unfold patch at he ⊢
  by_cases hr : (target : Int) - start < -0x8000 ∨ 0x7fff < (target : Int) - start
  · simp only [if_pos hr] at he
    exact absurd he (fail_error c _)
  · simp only [if_neg hr, bytes2] at he ⊢
    refine ⟨⟨by simp, fun k hk => ?_, rfl, fun _ => he⟩, by omega, u2?_set hs _⟩
    have := hk start List.mem_cons_self
    rw [Array.getElem?_setIfInBounds_ne (by omega), Array.getElem?_setIfInBounds_ne (by omega)]

/-- Other branches are as they were. -/
theorem Patched.congr {c c' : Code} {starts : List Nat} {s t : Nat} (h : c.Patched s t)
    (hr : Repaired starts c c') (hs : ∀ s' ∈ starts, s + 3 ≤ s' ∨ s' + 3 ≤ s) : c'.Patched s t := by
  refine ⟨h.reach, ?_⟩
  rw [← h.distance]
  have hsame : SameAt c.bytes c'.bytes (s + 1) 2 := by
    intro k hk
    refine hr.same _ fun s' hs' => ?_
    have := hs s' hs'
    omega
  exact u2?_congr hsame (k := 0) (by omega)

theorem Repaired.trans {starts starts' : List Nat} {c c' c'' : Code} (h : Repaired starts c c')
    (h' : Repaired starts' c' c'') : Repaired (starts ++ starts') c c'' where
  size := h'.size.trans h.size
  same k hk := by
    rw [h'.same k fun s hs => hk s (List.mem_append_right _ hs),
      h.same k fun s hs => hk s (List.mem_append_left _ hs)]
  labels := h'.labels.trans h.labels
  error he := h.error (h'.error he)

/-- A failure that came in between two bodies, if there was one, is that of a limit. -/
def OnlyLimits (c c' : Code) : Prop :=
  (c'.error = none → c.error = none) ∧
    ∀ e, c'.error = some e → c.error = some e ∨ e.isLimit = true

theorem OnlyLimits.refl (c : Code) : OnlyLimits c c := ⟨id, fun _ h => .inl h⟩

theorem OnlyLimits.trans {c c' c'' : Code} (h : OnlyLimits c c') (h' : OnlyLimits c' c'') :
    OnlyLimits c c'' := by
  refine ⟨fun he => h.1 (h'.1 he), fun e he => ?_⟩
  rcases h'.2 e he with he | he
  · exact h.2 e he
  · exact .inr he

theorem OnlyLimits.fail (c : Code) {e : BuildError} (he : e.isLimit = true) :
    OnlyLimits c (c.fail e) := by
  refine ⟨fun h => absurd h (fail_error c e), fun e' h => ?_⟩
  unfold Code.fail at h
  split at h
  · exact .inl h
  · cases h
    exact .inr he

theorem patch_eq (c : Code) (start target : Nat) : ∃ bytes err,
    c.patch start target = { c with bytes := bytes, error := err } ∧ bytes.size = c.bytes.size ∧
      OnlyLimits c (c.patch start target) := by
  unfold patch
  by_cases hr : (target : Int) - start < -0x8000 ∨ 0x7fff < (target : Int) - start
  · obtain ⟨err, h⟩ := c.fail_eq (.badBranch (target - start))
    simp only [if_pos hr]
    exact ⟨c.bytes, err, h, rfl, .fail c rfl⟩
  · simp only [if_neg hr, bytes2]
    exact ⟨_, c.error, rfl, by simp, .refl _⟩

theorem patches_eq (starts : List Nat) (c : Code) (t : Nat) : ∃ bytes err,
    starts.foldl (fun c s => c.patch s t) c = { c with bytes := bytes, error := err } ∧
      bytes.size = c.bytes.size ∧ OnlyLimits c (starts.foldl (fun c s => c.patch s t) c) := by
  induction starts generalizing c with
  | nil => exact ⟨c.bytes, c.error, rfl, rfl, .refl c⟩
  | cons s starts ih =>
    obtain ⟨bytes, err, heq, hsize, hlim⟩ := c.patch_eq s t
    obtain ⟨bytes', err', heq', hsize', hlim'⟩ := ih (c.patch s t)
    refine ⟨bytes', err', ?_, ?_, hlim.trans hlim'⟩
    · rw [List.foldl_cons, heq', heq]
    · rw [hsize', heq, hsize]

/-- All branches that wait for a label get its place. -/
theorem patches_spec {starts : List Nat} {c : Code} {t : Nat}
    (hs : ∀ s ∈ starts, s + 2 < c.bytes.size)
    (hdis : ∀ s ∈ starts, ∀ s' ∈ starts, s = s' ∨ s + 3 ≤ s' ∨ s' + 3 ≤ s)
    (he : (starts.foldl (fun c s => c.patch s t) c).error = none) :
    Repaired starts c (starts.foldl (fun c s => c.patch s t) c) ∧
      ∀ s ∈ starts, (starts.foldl (fun c s => c.patch s t) c).Patched s t := by
  induction starts generalizing c with
  | nil => exact ⟨⟨rfl, fun _ _ => rfl, rfl, id⟩, by simp⟩
  | cons s starts ih =>
    simp only [List.foldl_cons] at he ⊢
    obtain ⟨_, _, _, _, hlim⟩ := patches_eq starts (c.patch s t) t
    obtain ⟨hone, hpatched⟩ := patch_spec s t (hs s List.mem_cons_self) (hlim.1 he)
    obtain ⟨hrest, hall⟩ := ih
      (fun s' hs' => by rw [hone.size]; exact hs s' (List.mem_cons_of_mem _ hs'))
      (fun a ha b hb => hdis a (List.mem_cons_of_mem _ ha) b (List.mem_cons_of_mem _ hb)) he
    refine ⟨hone.trans hrest, fun s' hs' => ?_⟩
    rcases List.mem_cons.mp hs' with rfl | hs'
    · by_cases hmem : s' ∈ starts
      · exact hall s' hmem
      · refine hpatched.congr hrest fun a ha => ?_
        rcases hdis s' List.mem_cons_self a (List.mem_cons_of_mem _ ha) with h | h
        · exact absurd (h ▸ ha) hmem
        · exact h
    · exact hall s' hs'

theorem label_setLabel {c : Code} {l : Nat} (hl : l < c.labels.size) (x : Label) (k : Nat) :
    (c.setLabel l x).label k = if k = l then x else c.label k := by
  simp only [setLabel, label, Array.getD_eq_getD_getElem?, Array.getElem?_setIfInBounds]
  by_cases h : k = l
  · subst h
    simp [hl]
  · rw [if_neg (Ne.symm h), if_neg h]

/-- A branch that was given its target. -/
theorem Patched.decode {c : Code} {op : Opcode} {s t : Nat} (h : c.Patched s t)
    (hf : operandForm op = .branch) (hop : c.bytes[s]? = some op.byte) :
    decode c.bytes s = some (.branch op t, 3) := decode_branch hf hop h.reach h.distance

/-- The branches that wait for a label are instructions of their own. -/
theorem Traced.starts {T : List Placed} {c : Code} (h : Traced T c) (starts : List Nat)
    (hs : ∀ o ∈ starts, ∃ e ∈ T, e.at_ = o ∧ ∃ op l, e.instr = .branch op l) :
    (∀ s ∈ starts, s + 2 < c.bytes.size) ∧
      (∀ s ∈ starts, ∀ s' ∈ starts, s = s' ∨ s + 3 ≤ s' ∨ s' + 3 ≤ s) ∧
      ∀ e ∈ T, ∀ s ∈ starts, e.at_ = s ∨ e.at_ + e.size ≤ s ∨ s + 3 ≤ e.at_ := by
  have hsize : ∀ s ∈ starts, ∃ e ∈ T, e.at_ = s ∧ e.size = 3 := by
    intro s hs'
    obtain ⟨e, he, hat, op, l, hi⟩ := hs s hs'
    have := h.spells e he
    rw [Spells, hi] at this
    exact ⟨e, he, hat, this.1⟩
  refine ⟨fun s hs' => ?_, fun s hs' s' hs'' => ?_, fun e he s hs' => ?_⟩
  · obtain ⟨e, he, rfl, h3⟩ := hsize s hs'
    have := (h.chain.bounds e he).2.1
    omega
  · obtain ⟨e, he, rfl, h3⟩ := hsize s hs'
    obtain ⟨e', he', rfl, h3'⟩ := hsize s' hs''
    rcases h.chain.disjoint e he e' he' with rfl | hd
    · exact .inl rfl
    · exact .inr (by omega)
  · obtain ⟨e', he', rfl, h3'⟩ := hsize s hs'
    rcases h.chain.disjoint e he e' he' with rfl | hd
    · exact .inl rfl
    · exact .inr (by omega)

/-- The instructions in front of a new branch, in a body that changed behind them only. -/
theorem Traced.spells_of_longer {T : List Placed} {c c' : Code} (h : Traced T c)
    (hb : ∀ k < c.bytes.size, c'.bytes[k]? = c.bytes[k]?)
    (hl : ∀ k, (c'.label k).offset = (c.label k).offset) : ∀ e ∈ T, c'.Spells e := by
  intro e he
  have hbound := h.chain.bounds e he
  exact (h.spells e he).congr hbound.2.2 hl fun k hk => hb _ (by omega)

section Jump

variable {T : List Placed} {c c₁ c₂ : Code} {op : Opcode} {l : Nat}

/-- The bytes of a new branch, before it has a target: those in front of it are the same. -/
theorem branch_bytes (hb : c₁.bytes = c.bytes ++ [op.byte, 0, 0].toArray) :
    c₁.bytes.size = c.bytes.size + 3 ∧ c₁.bytes[c.bytes.size]? = some op.byte ∧
      ∀ k < c.bytes.size, c₁.bytes[k]? = c.bytes[k]? := by
  refine ⟨by simp [hb], ?_, fun k hk => ?_⟩
  · rw [hb]
    exact getElem?_append_size 0
  · rw [hb, Array.getElem?_append_left hk]

/-- One branch more, to a label with a place: it gets its target at once. -/
theorem Traced.jump_placed {target : Nat} (h : Traced T c) (hf : operandForm op = .branch)
    (hb : c₁.bytes = c.bytes ++ [op.byte, 0, 0].toArray) (hl : SamePlaces c c₁)
    (ho : (c₁.label l).offset = some target)
    (he : (c₁.patch c.bytes.size target).error = none) :
    Traced (T ++ [⟨c.bytes.size, 3, .branch op l⟩]) (c₁.patch c.bytes.size target) := by
  obtain ⟨hsize, hop, hfront⟩ := branch_bytes hb
  obtain ⟨hr, hpatched⟩ := patch_spec (c := c₁) c.bytes.size target (by omega) he
  generalize c₁.patch c.bytes.size target = c₂ at hr hpatched
  have hlab : ∀ k, c₂.label k = c₁.label k := fun k => by simp only [label, hr.labels]
  have hnew : c₂.Spells ⟨c.bytes.size, 3, .branch op l⟩ := by
    have hop₂ : c₂.bytes[c.bytes.size]? = some op.byte := by
      rw [hr.same _ (by simp)]
      exact hop
    refine ⟨rfl, hf, hop₂, fun t ht => ?_⟩
    rw [hlab, ho] at ht
    cases ht
    exact hpatched.decode hf hop₂
  refine ⟨?_, fun e he => ?_, fun e he o k hi hk => ?_, fun k o hk => ?_⟩
  · rw [hr.size, hsize]
    exact h.chain.snoc rfl (by simp)
  · rcases List.mem_append.mp he with he | he
    · refine h.spells_of_longer (fun k hk => ?_) (fun k => by rw [hlab, (hl k).1]) e he
      rw [hr.same k (by simp; omega), hfront k hk]
    · obtain rfl := List.mem_singleton.mp he
      exact hnew
  · rw [hlab] at hk ⊢
    rcases List.mem_append.mp he with he | he
    · rw [(hl k).2]
      exact h.pending e he o k hi ((hl k).1 ▸ hk)
    · obtain rfl := List.mem_singleton.mp he
      cases hi
      rw [ho] at hk
      cases hk
  · rw [hlab, (hl k).2] at hk
    obtain ⟨e, he, heq⟩ := h.waits k o hk
    exact ⟨e, List.mem_append_left _ he, heq⟩

/-- One branch more, to a label without a place: it waits for its label. -/
theorem Traced.jump_waiting (h : Traced T c) (hf : operandForm op = .branch)
    (hb : c₁.bytes = c.bytes ++ [op.byte, 0, 0].toArray) (hl : SamePlaces c c₁)
    (hlt : l < c₁.labels.size) (ho : (c₁.label l).offset = none)
    (hc : c₂ = c₁.setLabel l
      { c₁.label l with pending := (c₁.label l).pending ++ [c.bytes.size] }) :
    Traced (T ++ [⟨c.bytes.size, 3, .branch op l⟩]) c₂ := by
  obtain ⟨hsize, hop, hfront⟩ := branch_bytes hb
  have hbytes : c₂.bytes = c₁.bytes := by rw [hc]; rfl
  have hlab : ∀ k, c₂.label k = if k = l then
      { c₁.label l with pending := (c₁.label l).pending ++ [c.bytes.size] } else c₁.label k := by
    rw [hc]
    exact label_setLabel hlt _
  have hoff : ∀ k, (c₂.label k).offset = (c₁.label k).offset := by
    intro k
    rw [hlab]
    split
    · rename_i hk
      rw [hk]
    · rfl
  have hpend : ∀ k o, o ∈ (c₂.label k).pending ↔
      o ∈ (c₁.label k).pending ∨ k = l ∧ o = c.bytes.size := by
    intro k o
    rw [hlab]
    split
    · rename_i hk
      simp [hk]
    · rename_i hk
      simp [hk]
  refine ⟨?_, fun e he => ?_, fun e he o k hi hk => ?_, fun k o hk => ?_⟩
  · rw [hbytes, hsize]
    exact h.chain.snoc rfl (by simp)
  · rcases List.mem_append.mp he with he | he
    · refine h.spells_of_longer (fun k hk => ?_) (fun k => (hoff k).trans (hl k).1) e he
      rw [hbytes, hfront k hk]
    · obtain rfl := List.mem_singleton.mp he
      refine ⟨rfl, hf, by rw [hbytes]; exact hop, fun t ht => ?_⟩
      rw [hoff, ho] at ht
      cases ht
  · rcases List.mem_append.mp he with he | he
    · refine (hpend k e.at_).mpr (.inl ?_)
      rw [(hl k).2]
      exact h.pending e he o k hi (by rw [← (hl k).1, ← hoff]; exact hk)
    · obtain rfl := List.mem_singleton.mp he
      cases hi
      exact (hpend l _).mpr (.inr ⟨rfl, rfl⟩)
  · rcases (hpend k o).mp hk with hk | ⟨rfl, rfl⟩
    · rw [(hl k).2] at hk
      obtain ⟨e, he, heq⟩ := h.waits k o hk
      exact ⟨e, List.mem_append_left _ he, heq⟩
    · exact ⟨_, List.mem_append_right _ List.mem_cons_self, rfl, op, rfl⟩

/-- One branch more: it waits for its label, or gets its target at once. -/
theorem Traced.jump (h : Traced T c) (hf : operandForm op = .branch)
    (hb : c₁.bytes = c.bytes ++ [op.byte, 0, 0].toArray)
    (hl : SamePlaces c c₁) (hlt : l < c₁.labels.size)
    (hc : c₂ = match (c₁.label l).offset with
      | some target => c₁.patch c.bytes.size target
      | none => c₁.setLabel l
          { c₁.label l with pending := (c₁.label l).pending ++ [c.bytes.size] })
    (he : c₂.error = none) : Traced (T ++ [⟨c.bytes.size, 3, .branch op l⟩]) c₂ := by
  cases ho : (c₁.label l).offset with
  | some target =>
    simp only [ho] at hc
    subst hc
    exact h.jump_placed hf hb hl ho he
  | none =>
    simp only [ho] at hc
    exact h.jump_waiting hf hb hl hlt ho (by simp only [hc, ho])

end Jump

/-- A branch that waits for a label is one to this label. -/
theorem Traced.target_of_waiting {T : List Placed} {c : Code} {e : Placed} {l : Nat}
    (h : Traced T c) (he : e ∈ T) (hwait : e.at_ ∈ (c.label l).pending) :
    ∃ op, e.instr = .branch op l := by
  obtain ⟨f, hf, hat, op, hi⟩ := h.waits l e.at_ hwait
  have hbound := h.chain.bounds e he
  have hbound' := h.chain.bounds f hf
  rcases h.chain.disjoint f hf e he with rfl | hd
  · exact ⟨op, hi⟩
  · omega

/-- An instruction of a body in which a label gets its place. One that waits for the label is told
its target, and all others are as they were. -/
theorem Traced.spells_bound {T : List Placed} {c c₂ : Code} {e : Placed} {l t : Nat}
    (h : Traced T c) (he : e ∈ T) (ho : (c.label l).offset = none)
    (hl : ∀ k, (c₂.label k).offset = if k = l then some t else (c.label k).offset)
    (hb : ∀ k, (∀ s ∈ (c.label l).pending, k ≠ s + 1 ∧ k ≠ s + 2) → c₂.bytes[k]? = c.bytes[k]?)
    (hpatched : ∀ s ∈ (c.label l).pending, c₂.Patched s t) : c₂.Spells e := by
  obtain ⟨-, -, hapart⟩ := h.starts (c.label l).pending fun o hk => by
    obtain ⟨e, he, hat, op, hi⟩ := h.waits l o hk
    exact ⟨e, he, hat, op, l, hi⟩
  have hspell := h.spells e he
  by_cases hwait : e.at_ ∈ (c.label l).pending
  · obtain ⟨op, hi⟩ := h.target_of_waiting he hwait
    rw [Spells, hi] at hspell ⊢
    obtain ⟨h3, hform, hop, -⟩ := hspell
    have hop₂ : c₂.bytes[e.at_]? = some op.byte := by
      rw [hb _ fun s hs => ?_]
      · exact hop
      · have := hapart e he s hs
        omega
    refine ⟨h3, hform, hop₂, fun t' ht => ?_⟩
    rw [hl, if_pos rfl] at ht
    cases ht
    exact (hpatched e.at_ hwait).decode hform hop₂
  · have hsame : SameAt c.bytes c₂.bytes e.at_ e.size := by
      intro k hk
      refine hb _ fun s hs => ?_
      have hne : e.at_ ≠ s := fun heq => hwait (heq ▸ hs)
      have := hapart e he s hs
      omega
    unfold Spells at hspell ⊢
    split at hspell
    · rename_i op k hi
      have hkl : k ≠ l := fun hkl => by
        subst hkl
        exact hwait (h.pending e he op k hi ho)
      obtain ⟨h3, hform, hop, ht⟩ := hspell
      refine ⟨h3, hform, by simpa [hop] using hsame 0 (by omega), fun t' ht' => ?_⟩
      rw [hl, if_neg hkl] at ht'
      exact decode_congr (ht t' ht') (by omega) (h3 ▸ hsame)
    · exact decode_congr hspell (h.chain.bounds e he).2.2 hsame

/-- A label gets its place, and so do all branches that wait for it. -/
theorem Traced.bind {T : List Placed} {c c₁ c₂ : Code} {l : Nat} (h : Traced T c)
    (hb : c₁.bytes = c.bytes) (hl : SamePlaces c c₁) (hlt : l < c₁.labels.size)
    (hc : c₂ = (c₁.label l).pending.foldl (fun c s => c.patch s c₁.bytes.size)
      (c₁.setLabel l { c₁.label l with offset := some c₁.bytes.size, pending := [] }))
    (ho : (c.label l).offset = none) (he : c₂.error = none) : Traced T c₂ := by
  have hlab := label_setLabel hlt { c₁.label l with offset := some c₁.bytes.size, pending := [] }
  rw [(hl l).2] at hc
  obtain ⟨hs, hdis, -⟩ := h.starts (c.label l).pending fun o hk => by
    obtain ⟨e, he, hat, op, hi⟩ := h.waits l o hk
    exact ⟨e, he, hat, op, l, hi⟩
  obtain ⟨hr, hpatched⟩ := patches_spec (t := c₁.bytes.size)
    (c := c₁.setLabel l { c₁.label l with offset := some c₁.bytes.size, pending := [] })
    (by rw [← hb] at hs; exact hs) hdis (hc ▸ he)
  rw [← hc] at hr hpatched
  have hlab₂ : ∀ k, c₂.label k = if k = l then
      { c₁.label l with offset := some c₁.bytes.size, pending := [] } else c₁.label k := by
    intro k
    rw [← hlab]
    simp only [label, hr.labels]
  have hsize : c₂.bytes.size = c.bytes.size := by rw [hr.size, ← hb]; rfl
  refine ⟨hsize ▸ h.chain, fun e he => ?_, fun e he op k hi hk => ?_, fun k o hk => ?_⟩
  · refine h.spells_bound he ho (fun k => ?_) (fun k hk => ?_) hpatched
    · rw [hlab₂]
      split
      · rfl
      · exact (hl k).1
    · rw [hr.same k hk, ← hb]
      rfl
  · rw [hlab₂] at hk ⊢
    split at hk
    · cases hk
    · rename_i hkl
      rw [if_neg hkl, (hl k).2]
      exact h.pending e he op k hi ((hl k).1 ▸ hk)
  · rw [hlab₂] at hk
    split at hk
    · cases hk
    · rw [(hl k).2] at hk
      exact h.waits k o hk

/-! ## Whole bodies -/

/-- The instruction of a body, once its label has a place. -/
def resolve (c : Code) : Instr → Instr
  | .branch op l => .branch op ((c.label l).offset.getD 0)
  | i => i

theorem decode_resolve {c : Code} {T : List Placed} (h : Traced T c)
    (hall : ∀ l, (c.label l).pending = []) {e : Placed} (he : e ∈ T) :
    decode c.bytes e.at_ = some (c.resolve e.instr, e.size) := by
  have hspell := h.spells e he
  unfold Spells at hspell
  split at hspell
  · rename_i op l hi
    cases ho : (c.label l).offset with
    | none =>
      have := h.pending e he op l hi ho
      rw [hall l] at this
      cases this
    | some t => rw [hi, resolve, ho, Option.getD_some, hspell.1, hspell.2.2.2 t ho]
  · rename_i hi
    rw [hspell]
    cases hinstr : e.instr with
    | branch op l => exact absurd hinstr (hi op l)
    | _ => rfl

theorem decodeFrom_chain {c : Code} {T : List Placed} {a : Nat}
    (hc : Placed.Chain a T c.bytes.size)
    (hd : ∀ e ∈ T, decode c.bytes e.at_ = some (c.resolve e.instr, e.size)) :
    ∀ turns, c.bytes.size ≤ a + turns →
      decodeFrom c.bytes turns a = some (T.map fun e => (e.at_, c.resolve e.instr)) := by
  induction T generalizing a with
  | nil =>
    intro turns _
    cases turns <;> simp [decodeFrom, show a = c.bytes.size from hc]
  | cons e T ih =>
    intro turns hturns
    have hbound := hc.bounds e List.mem_cons_self
    obtain ⟨hat, hpos, hc⟩ := hc
    cases turns with
    | zero => omega
    | succ turns =>
      have hrest := ih hc (fun f hf => hd f (List.mem_cons_of_mem _ hf)) turns (by omega)
      rw [decodeFrom, if_neg (by omega), ← hat, hd e List.mem_cons_self]
      simp only [Option.bind_eq_bind, Option.bind_some]
      rw [hat, hrest]
      simp [hat]

/-- A finished body decodes to its trace. -/
theorem Traced.decodeAll {c : Code} {T : List Placed} (h : Traced T c)
    (hall : ∀ l, (c.label l).pending = []) :
    decodeAll c.bytes = some (T.map fun e => (e.at_, c.resolve e.instr)) :=
  decodeFrom_chain h.chain (fun _ he => decode_resolve h hall he) _ (by omega)

end Code
end ClassFile
end Kotlet

import Kotlet.Proofs.ClassFile.Flow.Label

/-!
# Bodies that grow

What is kept of a body while instructions are added to it, in whatever way control flows.

* `Code.Begins` : the first body is a beginning of the second one: its instructions are still there,
  its labels keep their places, and what could be reached still can;
* `Code.Gains` : a body that got one instruction more;
* `gains_emit`, `gains_load` and their kin : what each way to add an instruction adds;
* `Code.Finished`, `Code.Holds` : a body that is done with, and an instruction in it.
-/

namespace Kotlet
namespace ClassFile

open ParsedClass Instr

namespace Code

/-- The first body is a beginning of the second one, unless that has failed. -/
structure Begins (c c' : Code) : Prop where
  error : c'.error = none → c.error = none
  traced : c'.error = none → ∀ T, c.Traced T → ∃ T', c'.Traced (T ++ T')
  count : c.labels.size ≤ c'.labels.size
  offset : ∀ l o, (c.label l).offset = some o → (c'.label l).offset = some o
  depth : ∀ l, (c.label l).depth.isSome = true → (c'.label l).depth.isSome = true

variable {c c' c'' : Code}

theorem Begins.refl (c : Code) : c.Begins c :=
  ⟨id, fun _ T h => ⟨[], by simpa using h⟩, Nat.le_refl _, fun _ _ h => h, fun _ h => h⟩

theorem Begins.trans (h : c.Begins c') (h' : c'.Begins c'') : c.Begins c'' where
  error he := h.error (h'.error he)
  traced he T hT := by
    obtain ⟨T', hT'⟩ := h.traced (h'.error he) T hT
    obtain ⟨T'', hT''⟩ := h'.traced he _ hT'
    exact ⟨T' ++ T'', by rwa [← List.append_assoc]⟩
  count := Nat.le_trans h.count h'.count
  offset l o ho := h'.offset l o (h.offset l o ho)
  depth l hd := h'.depth l (h.depth l hd)

/-- A failure that is noted. -/
theorem begins_fail (c : Code) (e : BuildError) : c.Begins (c.fail e) := by
  obtain ⟨err, h⟩ := c.fail_eq e
  refine ⟨fun he => absurd he (fail_error c e), fun he => absurd he (fail_error c e), ?_, ?_, ?_⟩
  · exact Nat.le_of_eq (by rw [h])
  · intro l o ho; rw [h]; exact ho
  · intro l hd; rw [h]; exact hd

/-- The body gets one instruction more, unless it fails. -/
structure Gains (i : Instr) (c c' : Code) : Prop where
  begins : c.Begins c'
  falls : c'.error = none → c'.reachable = i.falls
  placed : c'.error = none → ∃ n, c'.bytes.size = c.bytes.size + n ∧
    ∀ T, c.Traced T → c'.Traced (T ++ [⟨c.bytes.size, n, i⟩])

/-- Bytes that decode to an instruction are appended. -/
theorem gains_of_bytes {i : Instr} (bs : List UInt8) (hl : c'.labels = c.labels)
    (he : c'.error = none → c.error = none) (hr : c'.error = none → c'.reachable = i.falls)
    (hi : ∀ op l, i ≠ .branch op l) (hb : c'.error = none → 0 < bs.length ∧
      c'.bytes = c.bytes ++ bs.toArray ∧
        decode (c.bytes ++ bs.toArray) c.bytes.size = some (i, bs.length)) :
    Gains i c c' := by
  have hlab : ∀ l, c'.label l = c.label l := fun l => by simp only [label, hl]
  have htraced : c'.error = none → ∀ T, c.Traced T →
      c'.Traced (T ++ [⟨c.bytes.size, bs.length, i⟩]) := fun he' T hT => by
    obtain ⟨hpos, hbytes, hdec⟩ := hb he'
    exact hT.push hbytes (.of_labels hl) hi hpos hdec
  refine ⟨⟨he, fun he' T hT => ⟨_, htraced he' T hT⟩, Nat.le_of_eq (by rw [hl]),
    fun l o ho => by rw [hlab]; exact ho, fun l hd => by rw [hlab]; exact hd⟩, hr,
    fun he' => ⟨bs.length, ?_, htraced he'⟩⟩
  rw [(hb he').2.1]
  simp

/-- Nothing comes of a body that fails. -/
theorem gains_fail (c : Code) (e : BuildError) (i : Instr) : Gains i c (c.fail e) :=
  ⟨begins_fail c e, fun he => absurd he (fail_error c e), fun he => absurd he (fail_error c e)⟩

/-! ## Plain instructions -/

/-- An instruction that is written with a change of the height. -/
theorem gains_write {i : Instr} {bs : List UInt8} {d : Int} (hr : c.reachable = true)
    (hd : decode (c.bytes ++ bs.toArray) c.bytes.size = some (i, bs.length)) (hpos : 0 < bs.length)
    (hf : i.falls = true) (hi : ∀ op l, i ≠ .branch op l) : Gains i c ((c.write bs).adjust d) := by
  obtain ⟨depth, maxStack, err, heq, herr⟩ := (c.write bs).adjust_eq d
  refine gains_of_bytes bs (by simp [write]) (fun he => adjust_error (c.write bs) d he)
    (fun _ => ?_) hi fun _ => ⟨hpos, by simp, hd⟩
  rw [heq, hf]
  exact hr

theorem gains_emit {op : Opcode} (hr : c.reachable = true) (hp : isPlain op = true) :
    Gains (.plain op) c (c.emit op) := by
  have hlive : (!c.reachable) = false := by rw [hr]; rfl
  unfold emit
  rw [if_neg (by simp [hlive])]
  cases op.effect? with
  | none =>
    exact gains_fail c _ _
  | some d =>
    refine gains_of_bytes [op.byte] (by simp [write]) (fun he => ?_) (fun _ => ?_)
      (fun _ _ h => by cases h) fun _ => ⟨by simp, by simp, decode_plain hp⟩
    · rw [endBlock_error] at he
      exact adjust_error (c.write [op.byte]) d he
    · obtain ⟨depth, maxStack, err, heq, -⟩ := (c.write [op.byte]).adjust_eq d
      dsimp only
      rw [heq]
      unfold endBlock
      cases hb : op.endsBlock with
      | true => simp [falls, hb]
      | false => simpa [falls, hb, write] using hr

theorem gains_ldc (hr : c.reachable = true) (i : UInt16) : Gains (.constant i) c (c.ldc i) := by
  have hlive : (!c.reachable) = false := by rw [hr]; rfl
  unfold ldc
  rw [if_neg (by simp [hlive])]
  split
  · rename_i hi
    exact gains_write hr (decode_ldc hi) (by simp) rfl fun _ _ h => by cases h
  · exact gains_write hr (decode_indexed .ldcW (by decide) i) (by simp [bytes2]) rfl
      fun _ _ h => by cases h

/-! ## Local variables -/

theorem onLocal_eq (c : Code) (short long : Opcode) (slot : Int) : ∃ bytes maxLocals err,
    c.onLocal short long slot = { c with bytes := bytes, maxLocals := maxLocals, error := err } ∧
      (err = none → c.error = none) := by
  unfold onLocal useLocal
  by_cases hbad : slot < 0 ∨ 65535 < slot
  · obtain ⟨err, h⟩ := c.fail_eq (.badSlot slot)
    have hfail := fail_error c (.badSlot slot)
    rw [h] at hfail
    simp only [if_pos hbad, h]
    exact ⟨_, _, _, rfl, fun he => absurd he hfail⟩
  · simp only [if_neg hbad]
    split
    · exact ⟨_, _, c.error, rfl, id⟩
    · split
      · exact ⟨_, _, c.error, rfl, id⟩
      · exact ⟨_, _, c.error, rfl, id⟩

theorem gains_onLocal {first long : Opcode} {make : Nat → Instr}
    (ha : Instr.Access first long make) (d : Int) (slot : Nat) (hr : c.reachable = true)
    (hf : (make slot).falls = true) (hi : ∀ op l, make slot ≠ .branch op l) :
    Gains (make slot) c ((c.onLocal first long slot).adjust d) := by
  obtain ⟨depth, maxStack, err, heq, -⟩ := (c.onLocal first long slot).adjust_eq d
  obtain ⟨bytes, maxLocals, err', hon, herr⟩ := c.onLocal_eq first long slot
  have hlab : ((c.onLocal first long slot).adjust d).labels = c.labels := by
    rw [adjust_labels, hon]
  have hback : ((c.onLocal first long slot).adjust d).error = none → c.error = none := fun he => by
    have hmid := adjust_error _ _ he
    rw [hon] at hmid
    exact herr hmid
  have hreach : ((c.onLocal first long slot).adjust d).reachable = (make slot).falls := by
    rw [heq, hon, hf]
    exact hr
  by_cases hs : slot ≤ 65535
  · by_cases h3 : slot ≤ 3
    · refine gains_of_bytes [first.byte + UInt8.ofNat slot] hlab hback (fun _ => hreach) hi
        fun _ => ⟨by simp, ?_, decode_short ha h3⟩
      rw [adjust_bytes, onLocal, if_neg (by omega), if_pos (by omega)]
      simp [useLocal]
    · by_cases h255 : slot ≤ 255
      · refine gains_of_bytes [long.byte, UInt8.ofNat slot] hlab hback (fun _ => hreach) hi
          fun _ => ⟨by simp, ?_, decode_slot ha.form h255 (ha.slot slot)⟩
        rw [adjust_bytes, onLocal, if_neg (by omega), if_neg (by omega), if_pos (by omega)]
        simp [useLocal]
      · refine gains_of_bytes (Opcode.wide.byte :: long.byte :: bytes2 (UInt16.ofNat slot))
          hlab hback (fun _ => hreach) hi
          fun _ => ⟨by simp, ?_, decode_wide ha.ne hs (ha.slot slot)⟩
        rw [adjust_bytes, onLocal, if_neg (by omega), if_neg (by omega), if_neg (by omega)]
        simp [useLocal]
  · -- There is no such variable.
    have hfail : ((c.onLocal first long slot).adjust d).error ≠ none := fun he => by
      have hmid := adjust_error _ _ he
      rw [onLocal, if_pos (by omega)] at hmid
      exact fail_error c _ hmid
    exact gains_of_bytes [] hlab hback (fun _ => hreach) hi fun he => absurd he hfail

theorem gains_load (hr : c.reachable = true) (kind : LocalKind) (slot : Nat) :
    Gains (.load kind slot) c (c.load kind slot) := by
  have hlive : (!c.reachable) = false := by rw [hr]; rfl
  have h := gains_onLocal (access_load kind) 1 slot hr rfl fun _ _ h => by cases h
  unfold load
  rw [if_neg (by simp [hlive])]
  cases kind <;> exact h

theorem gains_store (hr : c.reachable = true) (kind : LocalKind) (slot : Nat) :
    Gains (.store kind slot) c (c.store kind slot) := by
  have hlive : (!c.reachable) = false := by rw [hr]; rfl
  have h := gains_onLocal (access_store kind) (-1) slot hr rfl fun _ _ h => by cases h
  unfold store
  rw [if_neg (by simp [hlive])]
  cases kind <;> exact h

theorem gains_iinc (hr : c.reachable = true) {slot : Nat} (hs : slot ≤ 65535) (delta : Int) :
    Gains (.increment slot delta) c (c.iinc slot delta) := by
  have hlive : (!c.reachable) = false := by rw [hr]; rfl
  unfold iinc useLocal
  rw [if_neg (by simp [hlive])]
  by_cases hbad : delta < -0x8000 ∨ 0x7fff < delta
  · obtain ⟨err, h⟩ := c.fail_eq (.badIncrement delta)
    have hfail := fail_error c (.badIncrement delta)
    rw [h] at hfail
    simp only [if_pos hbad, h]
    exact gains_of_bytes [] rfl (fun he => absurd he hfail) (fun _ => hr)
      (fun _ _ h => by cases h) fun he => absurd he hfail
  · simp only [if_neg hbad]
    split
    · rename_i h
      exact gains_of_bytes _ rfl id (fun _ => hr) (fun _ _ h => by cases h) fun _ =>
        ⟨by simp, write_bytes c _, decode_iinc slot (by omega) h.2⟩
    · exact gains_of_bytes _ rfl id (fun _ => hr) (fun _ _ h => by cases h) fun _ =>
        ⟨by simp, write_bytes c _, decode_wideIinc slot (by omega) (by omega)⟩

/-! ## Labels -/

theorem begins_newLabel (c : Code) : c.Begins c.newLabel.2 where
  error := id
  traced _ T hT := ⟨[], by
    rw [List.append_nil]
    exact hT.congr rfl (label_newLabel c)⟩
  count := by simp [newLabel]
  offset l o ho := by rw [label_newLabel]; exact ho
  depth l hd := by rw [label_newLabel]; exact hd

theorem depth_of_arrive {l d : Nat} (he : (c.arrive l).error = none)
    (hd : (c.label l).depth = some d) : d = c.depth := by
  by_contra hne
  unfold arrive at he
  simp only [hd, if_neg hne] at he
  exact fail_error c _ he

/-- Control reaches a label. -/
theorem arrive_eq {l : Nat} (hl : l < c.labels.size) (he : (c.arrive l).error = none) :
    ∃ labels, c.arrive l = { c with labels := labels } ∧ labels.size = c.labels.size ∧
      ∀ k, (c.arrive l).label k =
        if k = l then { c.label l with depth := some c.depth } else c.label k := by
  refine arrive_spec hl (fun d hd => depth_of_arrive he hd) fun hd => ?_
  by_contra hne
  obtain ⟨o, ho⟩ := Option.ne_none_iff_exists'.mp hne
  unfold arrive at he
  simp only [hd, ho] at he
  exact fail_error c _ he

/-- Reaching a label gives it a height at most. -/
structure Arrives (c c' : Code) : Prop where
  error : c'.error = none → c.error = none
  count : c'.labels.size = c.labels.size
  offset : ∀ k, (c'.label k).offset = (c.label k).offset
  depth : ∀ k, (c.label k).depth.isSome = true → (c'.label k).depth.isSome = true

theorem arrives_fail (c : Code) (e : BuildError) : Arrives c (c.fail e) := by
  obtain ⟨err, h⟩ := c.fail_eq e
  have hlab : ∀ k, (c.fail e).label k = c.label k := fun k => by rw [h]; rfl
  refine ⟨fun he => absurd he (fail_error c e), by rw [h], fun k => by rw [hlab], fun k hd => ?_⟩
  rw [hlab]
  exact hd

theorem arrives_arrive {l : Nat} (hl : l < c.labels.size) : Arrives c (c.arrive l) := by
  unfold arrive
  dsimp only
  split
  · exact arrives_fail c _
  · refine ⟨id, by simp [setLabel], fun k => ?_, fun k hd => ?_⟩
    · rw [label_setLabel hl]
      split
      · rename_i hk
        rw [hk]
      · rfl
    · rw [label_setLabel hl]
      split
      · rfl
      · exact hd
  · split
    · exact ⟨id, rfl, fun _ => rfl, fun _ hd => hd⟩
    · exact arrives_fail c _

/-- A branch to a label, which control reaches with it. -/
theorem gains_jump {op : Opcode} {l : Nat} (hr : c.reachable = true) (hop : op.isBranch = true)
    (hl : l < c.labels.size) : Gains (.branch op l) c (c.jump op l) ∧
      ((c.jump op l).error = none → ((c.jump op l).label l).depth.isSome = true) := by
  -- The body with the new height, then with the label reached, then with the branch hooked.
  obtain ⟨a, ha⟩ : ∃ a, a = (c.write [op.byte, 0, 0]).adjust (op.effect?.getD 0) := ⟨_, rfl⟩
  obtain ⟨depth, maxStack, err, hadj, herr⟩ :=
    (c.write [op.byte, 0, 0]).adjust_eq (op.effect?.getD 0)
  rw [← ha] at hadj
  have hlab : ∀ k, a.label k = c.label k := fun k => by rw [hadj]; rfl
  have hla : l < a.labels.size := by rw [hadj]; exact hl
  obtain ⟨b, hb⟩ : ∃ b, b = a.arrive l := ⟨_, rfl⟩
  have harr : Arrives a b := hb ▸ arrives_arrive hla
  have hlb : l < b.labels.size := by rw [harr.count]; exact hla
  obtain ⟨bytes, labels, err', hhook, hbsize, hlsize, hlim, hlabels⟩ := hook_eq hlb c.bytes.size
  have hjump : c.jump op l = (b.hook l c.bytes.size).endBlock op := by
    rw [hb, ha]
    exact jump_eq hr hop
  have hlab' : ∀ k, (c.jump op l).label k = (b.hook l c.bytes.size).label k := fun k => by
    rw [hjump, endBlock_label]
  have herror : (c.jump op l).error = none → b.error = none := fun he => by
    rw [hjump, endBlock_error] at he
    exact hlim.1 he
  have hback : (c.jump op l).error = none → c.error = none := fun he => by
    have hea := harr.error (herror he)
    rw [hadj] at hea
    exact herr hea
  -- Where nothing has failed, the label is reached.
  have hplaces : (c.jump op l).error = none → SamePlaces c b ∧
      b.bytes = c.bytes ++ [op.byte, 0, 0].toArray ∧ (b.label l).depth.isSome = true ∧
        b.reachable = true := fun he => by
    obtain ⟨labels, heq, -, hk⟩ := arrive_eq hla (hb ▸ herror he)
    rw [← hb] at heq hk
    refine ⟨fun k => ?_, ?_, by rw [hk, if_pos rfl]; rfl, ?_⟩
    · rw [hk, hlab, hlab]
      split
      · rename_i hkl
        rw [hkl]
        exact ⟨rfl, rfl⟩
      · exact ⟨rfl, rfl⟩
    · rw [heq, hadj]
      exact write_bytes c _
    · rw [heq, hadj]
      exact hr
  have htraced : (c.jump op l).error = none → ∀ T, c.Traced T →
      (c.jump op l).Traced (T ++ [⟨c.bytes.size, 3, .branch op l⟩]) := fun he T hT => by
    obtain ⟨hsame, hbytes, -, -⟩ := hplaces he
    rw [hjump] at he ⊢
    exact hT.hooked hop hbytes hsame hlb he
  refine ⟨⟨⟨hback, fun he T hT => ⟨_, htraced he T hT⟩, ?_, fun k o ho => ?_, fun k hd => ?_⟩,
    fun he => ?_, fun he => ⟨3, ?_, htraced he⟩⟩, fun he => ?_⟩
  · rw [hjump, endBlock_labels, hhook]
    exact Nat.le_of_eq ((hadj ▸ rfl : c.labels.size = a.labels.size).trans
      (harr.count.symm.trans hlsize.symm))
  · rw [hlab', (hlabels k).1, harr.offset, hlab]
    exact ho
  · rw [hlab', (hlabels k).2.1]
    exact harr.depth k (by rw [hlab]; exact hd)
  · obtain ⟨-, -, -, hlive⟩ := hplaces he
    rw [hjump, hhook]
    unfold endBlock
    cases hends : op.endsBlock with
    | true => simp [falls, hends]
    | false => simpa [falls, hends] using hlive
  · obtain ⟨-, hbytes, -, -⟩ := hplaces he
    rw [hjump, endBlock_bytes, hhook]
    simp [hbsize, hbytes]
  · rw [hlab', (hlabels l).2.1]
    exact (hplaces he).2.2.1

/-- A label gets its place. Control can come there if it came so far, or if it reached the label. -/
structure Places (l : Nat) (c c' : Code) : Prop where
  begins : c.Begins c'
  size : c'.error = none → c'.bytes.size = c.bytes.size
  offset : c'.error = none → (c'.label l).offset = some c.bytes.size
  live : c'.error = none → c.reachable = true ∨ (c.label l).depth.isSome = true →
    c'.reachable = true
  reached : c'.error = none → c.reachable = true → (c'.label l).depth.isSome = true

/-- The body before the branches to a label get their targets. -/
def reach (c : Code) (l : Nat) : Code :=
  if c.reachable then c.arrive l
  else
    match (c.label l).depth with
    | some d => { c with reachable := true, depth := d }
    | none => c

theorem arrives_reach {l : Nat} (hl : l < c.labels.size) : Arrives c (c.reach l) := by
  unfold reach
  split
  · exact arrives_arrive hl
  · split
    · exact ⟨id, rfl, fun _ => rfl, fun _ hd => hd⟩
    · exact ⟨id, rfl, fun _ => rfl, fun _ hd => hd⟩

theorem bind_eq {l : Nat} (ho : (c.label l).offset = none) :
    c.bind l = ((c.reach l).label l).pending.foldl (fun x s => x.patch s (c.reach l).bytes.size)
      ((c.reach l).setLabel l
        { (c.reach l).label l with offset := some (c.reach l).bytes.size, pending := [] }) := by
  unfold Code.bind
  rw [ho]
  rfl

theorem places_bind {l : Nat} (hl : l < c.labels.size) : Places l c (c.bind l) := by
  cases ho : (c.label l).offset with
  | some o =>
    have hfail : c.bind l = c.fail .boundTwice := by
      unfold Code.bind
      rw [ho]
      rfl
    have hne : (c.bind l).error ≠ none := hfail ▸ fail_error c _
    exact ⟨hfail ▸ begins_fail c _, fun he => absurd he hne, fun he => absurd he hne,
      fun he => absurd he hne, fun he => absurd he hne⟩
  | none =>
    have hreach := arrives_reach hl
    obtain ⟨bytes, err, heq, -, hlim⟩ := patches_eq ((c.reach l).label l).pending
      ((c.reach l).setLabel l
        { (c.reach l).label l with offset := some (c.reach l).bytes.size, pending := [] })
      (c.reach l).bytes.size
    rw [← bind_eq ho] at heq hlim
    have hlab : ∀ k, (c.bind l).label k = if k = l then
        { (c.reach l).label l with offset := some (c.reach l).bytes.size, pending := [] }
        else (c.reach l).label k := fun k => by
      rw [heq]
      exact label_setLabel (hreach.count ▸ hl) _ k
    have herror : (c.bind l).error = none → (c.reach l).error = none := hlim.1
    -- Where nothing has failed, all ways to the label agree on the height.
    obtain ⟨height, hheight⟩ : ∃ height, (c.bind l).error = none →
        (∀ d, (c.label l).depth = some d → d = height) ∧
          (c.reachable = true → c.depth = height) := by
      cases hr : c.reachable with
      | true =>
        refine ⟨c.depth, fun he => ⟨fun d hd => ?_, fun _ => rfl⟩⟩
        have he' := herror he
        rw [reach, if_pos hr] at he'
        exact depth_of_arrive he' hd
      | false =>
        refine ⟨(c.label l).depth.getD 0, fun _ => ⟨fun d hd => ?_, fun h => by cases h⟩⟩
        rw [hd, Option.getD_some]
    have hbound : (c.bind l).error = none → Bound l height c (c.bind l) := fun he =>
      bind_spec hl ho (hheight he).1 (hheight he).2
    refine ⟨⟨fun he => hreach.error (herror he), fun he T hT => ⟨[], ?_⟩, ?_, fun k o hk => ?_,
      fun k hd => ?_⟩, fun he => (hbound he).size, fun he => ?_, fun he h => ?_, fun he hr => ?_⟩
    · rw [List.append_nil]
      exact (hbound he).traced he T hT
    · rw [heq]
      simp only [setLabel, Array.size_setIfInBounds]
      exact Nat.le_of_eq hreach.count.symm
    · have hne : k ≠ l := fun h => by rw [h, ho] at hk; cases hk
      rw [hlab, if_neg hne, hreach.offset]
      exact hk
    · rw [hlab]
      split
      · rename_i hk
        exact hreach.depth l (hk ▸ hd)
      · exact hreach.depth k hd
    · rw [(hbound he).self]
    · rw [(hbound he).reachable, Bool.or_eq_true]
      exact h
    · rw [(hbound he).self, if_pos hr]
      rfl

/-! ## Bodies that are done with -/

/-- A body that has not failed and whose labels have their places, if anything jumps to them. -/
structure Finished (c : Code) : Prop where
  error : c.error = none
  settled : ∀ l, (c.label l).pending = []

/-- Where a label is. -/
def place (c : Code) (l : Nat) : Nat := (c.label l).offset.getD 0

/-- What was written into a body is there to the end. -/
theorem Gains.holds {F : Code} {i : Instr} {T : List Placed} (hT : c.Traced T)
    (h : Gains i c c') (hF : c'.Begins F) (hdone : F.Finished) : ∃ n,
      c'.bytes.size = c.bytes.size + n ∧
        decode F.bytes c.bytes.size = some (F.resolve i, n) := by
  obtain ⟨n, hsize, htraced⟩ := h.placed (hF.error hdone.error)
  obtain ⟨T', hT'⟩ := hF.traced hdone.error _ (htraced T hT)
  have hmem : (⟨c.bytes.size, n, i⟩ : Placed) ∈ T ++ [⟨c.bytes.size, n, i⟩] ++ T' := by simp
  exact ⟨n, hsize, decode_resolve hT' hdone.settled hmem⟩

end Code

end ClassFile
end Kotlet

import Kotlet.Proofs.Jvm.Writing

/-!
# What the machine does with what was written

One lemma for each step of code generation: from where the method was before it, the machine comes
to where the method is after it.

* `Moves` : the machine goes on behind the code so far;
* `spans_op`, `spans_load`, `spans_pushInt` and their kin : single instructions;
* `spans_jump`, `spans_goto`, `spans_bindLabel` : branches, and labels that get their place;
* `spans_throwNew` : an exception with a message;
* `scratch_ok`, `declare_ok`, `variableOf_ok` : slots.
-/

namespace Kotlet
namespace Emit

open ClassFile

/-! ## Slots and labels -/

section Slots

variable {env : Env} {s s' : State}

/-- The second state has a fresh label. -/
structure Labelled (l : Nat) (s s' : State) : Prop where
  begins : s.Begins s'
  size : l < s'.body.code.labels.size
  stays : ∀ {σ : Jvm.State}, s.At σ → s'.At σ
  next : s'.body.next = s.body.next

theorem labelled_newLabel {l : Nat} (h : newLabel env s = .ok (l, s')) : Labelled l s s' := by
  cases h
  exact ⟨.of_code (fun hp => ⟨.refl _, hp⟩) (Code.begins_newLabel _), by simp,
    fun hσ => ⟨hσ.live, hσ.pc⟩, rfl⟩

/-- The steps that follow may use the label. -/
theorem spans_newLabel {α : Type} {f : Nat → Emit α} {Q : Whole → α → State → Prop}
    (hf : ∀ l s₁, Labelled l s s₁ → Spans env s₁ (f l) Q) : Spans env s (newLabel >>= f) Q := by
  have hlabel : Spans env s newLabel fun _ _ _ => True :=
    fun _ _ h => ⟨(labelled_newLabel h).begins, fun _ _ => trivial⟩
  refine hlabel.bind fun l s₁ h _ => ?_
  exact (hf l s₁ (labelled_newLabel h)).imp fun _ _ _ _ hq _ => hq

theorem begins_bindLabel {l : Nat} {u : Unit} (h : bindLabel l env s = .ok (u, s'))
    (hl : l < s.body.code.labels.size) : s.Begins s' := by
  cases h
  exact .of_code (fun hp => ⟨.refl _, hp⟩) (Code.places_bind hl).begins

theorem adds_jump {o : Opcode} {l : Nat} {u : Unit} (h : jump o l env s = .ok (u, s'))
    (ho : o.isBranch = true) (hl : l < s.body.code.labels.size) : Adds (.branch o l) s s' :=
  adds_onCode h (fun hr => (Code.gains_jump hr ho hl).1) fun hr => by simp [Code.jump, hr]

/-- A slot without a name. -/
theorem scratch_ok {ty : Ty} {tok : Token} {l : Local} (h : scratch ty tok env s = .ok (l, s')) :
    l = ⟨s.body.next, ty⟩ ∧ s.body.next ≤ 65535 ∧
      s' = { s with body := { s.body with next := s.body.next + 1 } } := by
  unfold scratch at h
  obtain ⟨s₀, s₁, hget, h₁⟩ := bind_ok h
  cases hget
  dsimp only at h₁
  split at h₁
  · cases h₁
  · rename_i hn
    obtain ⟨_, s₂, hmod, h₂⟩ := bind_ok h₁
    cases hmod
    cases h₂
    exact ⟨rfl, Nat.le_of_not_lt hn, rfl⟩

theorem begins_scratch {ty : Ty} {tok : Token} {l : Local}
    (h : scratch ty tok env s = .ok (l, s')) : s.Begins s' := by
  obtain ⟨-, hn, rfl⟩ := scratch_ok h
  refine ⟨fun hp => ⟨.refl _, hp⟩, .refl _, fun ha => ⟨Nat.succ_le_succ hn, fun id l hl =>
    Nat.lt_succ_of_lt (ha.below id l hl), ha.inj⟩, Nat.le_succ _, fun _ _ hl => hl,
    fun _ _ hl => .inl hl, rfl, rfl⟩

/-- The slot of a variable. -/
theorem variableOf_ok {id : Ident} {sym : Symbol} {l : Local} (hsym : id.sym = some sym)
    (h : variableOf id env s = .ok (l, s')) : s' = s ∧ s.body.slots[sym.id]? = some l := by
  unfold variableOf at h
  rw [symbolOf_eq hsym, pure_bind] at h
  obtain ⟨o, s₁, ho, h₁⟩ := bind_ok h
  cases ho
  cases hslot : s.body.slots[sym.id]? with
  | none =>
    simp only [hslot] at h₁
    exact (reject_ok h₁).elim
  | some k =>
    simp only [hslot] at h₁
    obtain ⟨rfl, rfl⟩ := pure_ok h₁
    exact ⟨rfl, rfl⟩

theorem spans_variableOf {α : Type} {id : Ident} {sym : Symbol} {f : Local → Emit α}
    {Q : Whole → α → State → Prop} (hsym : id.sym = some sym)
    (hf : ∀ l, s.body.slots[sym.id]? = some l → Spans env s (f l) Q) :
    Spans env s (variableOf id >>= f) Q := by
  intro a s' h
  obtain ⟨l, s₁, h₁, h₂⟩ := bind_ok h
  obtain ⟨rfl, hl⟩ := variableOf_ok hsym h₁
  exact hf l hl h₂

/-- A slot for a variable. -/
theorem declare_ok {sym : Symbol} {tok : Token} {l : Local}
    (h : declare sym tok env s = .ok (l, s')) :
    l = ⟨s.body.next, sym.ty⟩ ∧ s.body.next ≤ 65535 ∧ s.body.slots[sym.id]? = none ∧
      s' = { s with body :=
        { s.body with slots := s.body.slots.insert sym.id l, next := s.body.next + 1 } } := by
  unfold declare at h
  obtain ⟨o, s₁, ho, h₁⟩ := bind_ok h
  cases ho
  dsimp only at h₁
  split at h₁
  · obtain ⟨_, _, hrej, -⟩ := bind_ok h₁
    exact (reject_ok hrej).elim
  · rename_i hslot
    obtain ⟨k, s₂, hk, h₂⟩ := bind_ok h₁
    obtain ⟨rfl, hn, rfl⟩ := scratch_ok hk
    obtain ⟨_, s₃, hmod, h₃⟩ := bind_ok h₂
    cases hmod
    obtain ⟨rfl, rfl⟩ := pure_ok h₃
    exact ⟨rfl, hn, Option.not_isSome_iff_eq_none.mp hslot, rfl⟩

theorem begins_declare {sym : Symbol} {tok : Token} {l : Local}
    (h : declare sym tok env s = .ok (l, s')) : s.Begins s' := by
  obtain ⟨rfl, hn, hfree, rfl⟩ := declare_ok h
  have hget : ∀ id : SymbolId, (s.body.slots.insert sym.id ⟨s.body.next, sym.ty⟩)[id]? =
      if sym.id = id then some ⟨s.body.next, sym.ty⟩ else s.body.slots[id]? := by
    intro id
    rw [Std.HashMap.getElem?_insert]
    simp
  refine ⟨fun hp => ⟨.refl _, hp⟩, .refl _, fun ha => ⟨Nat.succ_le_succ hn, fun id l hl => ?_,
    fun i j l k hl hk hs => ?_⟩, Nat.le_succ _, fun id l hl => ?_, fun id l hl => ?_, rfl, rfl⟩
  · simp only [hget] at hl
    split at hl
    · cases hl
      exact Nat.lt_succ_self _
    · exact Nat.lt_succ_of_lt (ha.below id l hl)
  · simp only [hget] at hl hk
    split at hl
    · rename_i hi
      split at hk
      · rename_i hj
        rw [← hi, ← hj]
      · have := ha.below j k hk
        cases hl
        dsimp only at hs
        omega
    · split at hk
      · have := ha.below i l hl
        cases hk
        dsimp only at hs
        omega
      · exact ha.inj i j l k hl hk hs
  · simp only [hget]
    split
    · rename_i heq
      rw [← heq, hfree] at hl
      cases hl
    · exact hl
  · simp only [hget] at hl
    split at hl
    · cases hl
      exact .inr (Nat.le_refl _)
    · exact .inl hl

end Slots

/-! ## Single instructions -/

/-- The machine goes on behind the code so far. -/
structure Moves (W : Whole) (s' : State) (σ τ : Jvm.State) : Prop where
  stands : s'.At τ
  reaches : W.Reaches σ τ

theorem Moves.trans {W : Whole} {s s' : State} {σ τ υ : Jvm.State} (h : Moves W s σ τ)
    (h' : Moves W s' τ υ) : Moves W s' σ υ := ⟨h'.stands, h.reaches.trans h'.reaches⟩

/-- The machine behind the code so far, with a stack. -/
def State.behind (s : State) (σ : Jvm.State) (st : List Jvm.Word) : Jvm.State :=
  σ.goto s.body.code.bytes.size st

section Steps

variable {env : Env} {W : Whole} {s s' : State} {σ : Jvm.State} {u : Unit} {st : List Jvm.Word}

/-- Steps that load a word. -/
theorem spans_loads {x : Emit Unit} {w : Jvm.Word}
    (h : ∀ ⦃u s'⦄, x env s = .ok (u, s') → Loads w s s') : Spans env s x fun W _ s' =>
      ∀ ⦃σ : Jvm.State⦄, s.At σ → Moves W s' σ (s'.behind σ (w :: σ.stack)) := by
  intro u s' hx
  obtain ⟨i, hi, hf, hp⟩ := h hx
  refine ⟨hi.begins, fun W hW σ hσ => ?_⟩
  obtain ⟨hat, hr⟩ := hi.reaches hW hσ hf (hp W hW hσ.live _ σ) rfl
  exact ⟨hat, hr⟩

theorem spans_pushInt (n : Int32) : Spans env s (pushInt n) fun W _ s' =>
    ∀ ⦃σ : Jvm.State⦄, s.At σ → Moves W s' σ (s'.behind σ (.int n :: σ.stack)) :=
  spans_loads fun _ _ => loads_pushInt

theorem begins_op {o : Opcode} (h : op o env s = .ok (u, s')) (ho : Instr.isPlain o = true) :
    s.Begins s' := (adds_op h ho).begins

theorem Simple.ne {o : Opcode} (ho : Simple o) : o ≠ .vreturn ∧ o ≠ .athrow :=
  ⟨fun h => absurd ho.2.1 (by rw [h]; decide), fun h => absurd ho.2.1 (by rw [h]; decide)⟩

theorem spans_op {o : Opcode} (ho : Simple o) : Spans env s (op o) fun W _ s' =>
    ∀ ⦃σ : Jvm.State⦄ ⦃st : List Jvm.Word⦄, s.At σ → Jvm.compute? o σ.stack = some (.ok st) →
      Moves W s' σ (s'.behind σ st) := by
  intro u s' h
  refine ⟨begins_op h ho.1, fun W hW σ st hσ hc => ?_⟩
  have hfalls : Instr.falls (.plain o) = true := by rw [Instr.falls, ho.2.1]; rfl
  obtain ⟨hat, hr⟩ := (adds_op h ho.1).reaches hW hσ hfalls
    (by change Jvm.plain? o _ σ = _
        rw [Jvm.plain?, if_neg ho.ne.1, if_neg ho.ne.2, hc]) rfl
  exact ⟨hat, hr⟩

/-- An operation that throws. -/
theorem ends_op {o : Opcode} {e : Jvm.Ending} (h : op o env s = .ok (u, s')) (ho : Simple o)
    (hW : Span W s s') (hσ : s.At σ) (hc : Jvm.compute? o σ.stack = some (.error e)) :
    Jvm.Ends W.pool W.code.bytes σ σ.out e :=
  (adds_op h ho.1).ends hW hσ <| by
    change Jvm.plain? o _ σ = _
    rw [Jvm.plain?, if_neg ho.ne.1, if_neg ho.ne.2, hc]

theorem spans_vreturn : Spans env s (op .vreturn) fun W _ _ =>
    ∀ ⦃σ : Jvm.State⦄, s.At σ → Jvm.Ends W.pool W.code.bytes σ σ.out .returned := by
  intro u s' h
  have hplain : Instr.isPlain .vreturn = true := Instr.isPlain_iff.mpr (by decide)
  exact ⟨begins_op h hplain, fun W hW σ hσ => (adds_op h hplain).ends hW hσ rfl⟩

theorem spans_load {l : Local} : Spans env s (load l) fun W _ s' =>
    ∀ ⦃σ : Jvm.State⦄ ⦃w : Jvm.Word⦄, s.At σ → σ.locals l.slot = some w →
      w.fits l.ty.localKind = true → Moves W s' σ (s'.behind σ (w :: σ.stack)) := by
  intro u s' h
  refine ⟨(adds_load h).begins, fun W hW σ w hσ hw hf => ?_⟩
  obtain ⟨hat, hr⟩ := (adds_load h).reaches hW hσ rfl
    (by change Jvm.perform? _ _ _ (.load _ _) = _
        simp only [Jvm.perform?, hw, hf, if_true]; rfl) rfl
  exact ⟨hat, hr⟩

theorem spans_store {l : Local} : Spans env s (store l) fun W _ s' =>
    ∀ ⦃σ : Jvm.State⦄ ⦃w : Jvm.Word⦄ ⦃st : List Jvm.Word⦄, s.At σ → σ.stack = w :: st →
      w.fits l.ty.localKind = true → Moves W s' σ (s'.behind (σ.set l.slot w) st) := by
  intro u s' h
  refine ⟨(adds_store h).begins, fun W hW σ w st hσ hst hf => ?_⟩
  obtain ⟨hat, hr⟩ := (adds_store h).reaches hW hσ rfl
    (by change Jvm.perform? _ _ _ (.store _ _) = _
        simp only [Jvm.perform?, hst, hf, if_true]; rfl) rfl
  exact ⟨hat, hr⟩

theorem spans_increment {l : Local} (d : Int) (hs : l.slot ≤ 65535) :
    Spans env s (increment l d) fun W _ s' => ∀ ⦃σ : Jvm.State⦄ ⦃n : Int32⦄, s.At σ →
      σ.locals l.slot = some (.int n) →
        Moves W s' σ (s'.behind (σ.set l.slot (.int (n + Int32.ofInt d))) σ.stack) := by
  intro u s' h
  refine ⟨(adds_increment h hs).begins, fun W hW σ n hσ hn => ?_⟩
  obtain ⟨hat, hr⟩ := (adds_increment h hs).reaches hW hσ rfl
    (by change Jvm.perform? _ _ _ (.increment _ _) = _
        simp only [Jvm.perform?, hn]; rfl) rfl
  exact ⟨hat, hr⟩

/-! ## Branches -/

/-- The machine has come to a label if it has branched, and else it goes on behind the code so
far. -/
def State.Branched (s : State) (W : Whole) (taken : Bool) (l : Nat) (σ : Jvm.State) : Prop :=
  (taken = true → s.AtLabel W l σ) ∧ (taken = false → s.At σ)

/-- A branch that is taken or not. -/
theorem spans_jump {o : Opcode} {l : Nat} (ho : o.isBranch = true) (he : o.endsBlock = false)
    (hl : l < s.body.code.labels.size) : Spans env s (jump o l) fun W _ s' =>
      ∀ ⦃σ : Jvm.State⦄ ⦃taken : Bool⦄ ⦃st : List Jvm.Word⦄, s.At σ →
        Jvm.branch? o σ.stack = some (taken, st) →
          ∃ pc, W.Reaches σ (σ.goto pc st) ∧ s'.Branched W taken l (σ.goto pc st) := by
  intro u s' h
  have hadds := adds_jump h ho hl
  refine ⟨hadds.begins, fun W hW σ taken st hσ hb => ?_⟩
  have hp : Jvm.perform? W.pool s'.body.code.bytes.size σ (W.code.resolve (.branch o l)) =
      some (.goes (σ.goto (if taken then W.code.place l else s'.body.code.bytes.size) st)) := by
    rw [Code.resolve, Jvm.perform?, hb]
    rfl
  refine ⟨_, .single ((hadds.step? hW hσ).trans hp), fun ht => ⟨?_, by rw [ht]; rfl⟩,
    fun ht => ⟨?_, by rw [ht]; rfl⟩⟩
  · cases h
    exact (Code.gains_jump hσ.live ho hl).2 hW.codeError
  · exact hadds.live hW hσ (by rw [Instr.falls, he]; rfl)

/-- A jump. -/
theorem spans_goto {l : Nat} (hl : l < s.body.code.labels.size) :
    Spans env s (jump .goto l) fun W _ s' => ∀ ⦃σ : Jvm.State⦄, s.At σ →
      W.Reaches σ (σ.goto (W.code.place l) σ.stack) ∧
        s'.AtLabel W l (σ.goto (W.code.place l) σ.stack) := by
  intro u s' h
  have hadds := adds_jump h (by decide) hl
  refine ⟨hadds.begins, fun W hW σ hσ => ⟨.single ((hadds.step? hW hσ).trans rfl), ?_⟩⟩
  cases h
  exact ⟨(Code.gains_jump hσ.live (by decide) hl).2 hW.codeError, rfl⟩

/-- A label gets its place, where control comes to it in either way. -/
structure Bound (W : Whole) (l : Nat) (s s' : State) : Prop where
  binds : ∀ {σ : Jvm.State}, s.At σ ∨ s.AtLabel W l σ → s'.At σ
  place : W.code.place l = s'.body.code.bytes.size

theorem spans_bindLabel {l : Nat} (hl : l < s.body.code.labels.size) :
    Spans env s (bindLabel l) fun W _ s' => Bound W l s s' := by
  intro u s' h
  refine ⟨begins_bindLabel h hl, fun W hW => ?_⟩
  cases h
  have hplaces := Code.places_bind (c := s.body.code) hl
  have hplace := hW.place (hplaces.offset hW.codeError)
  have hsize := hplaces.size hW.codeError
  refine ⟨fun hσ => ?_, hplace.trans hsize.symm⟩
  rcases hσ with hσ | hσ
  · exact ⟨hplaces.live hW.codeError (.inl hσ.live), hσ.pc.trans hsize.symm⟩
  · exact ⟨hplaces.live hW.codeError (.inr hσ.reached), (hσ.pc.trans hplace).trans hsize.symm⟩

/-! ## The library -/

/-- Steps that access a member of the library. -/
theorem spans_accesses {x : Emit Unit} {o : Opcode} {m : Member}
    (h : ∀ ⦃u s'⦄, x env s = .ok (u, s') → Accesses o m s s') : Spans env s x fun W _ s' =>
      ∀ ⦃σ τ : Jvm.State⦄, s.At σ → Jvm.access? o m σ = some τ →
        Moves W s' σ { τ with pc := s'.body.code.bytes.size } := by
  intro u s' hx
  obtain ⟨i, hi, hm⟩ := h hx
  refine ⟨hi.begins, fun W hW σ τ hσ ha => ?_⟩
  obtain ⟨hat, hr⟩ := hi.reaches hW hσ rfl
    (by change Jvm.perform? _ _ _ (.member _ _) = _
        simp only [Jvm.perform?, hm W hW hσ.live, Option.bind_eq_bind, Option.bind_some, ha]
        rfl) rfl
  exact ⟨hat, hr⟩

/-- A new object, which has no message so far. -/
theorem spans_newObject (cls : String) : Spans env s (onClass .newObject cls) fun W _ s' =>
    ∀ ⦃σ : Jvm.State⦄, s.At σ → Moves W s' σ
      { s'.behind σ (.object σ.objects.size :: σ.stack) with
        objects := σ.objects.push (cls, none) } := by
  intro u s' h
  obtain ⟨i, hi, hcls⟩ := adds_newObject h
  refine ⟨hi.begins, fun W hW σ hσ => ?_⟩
  obtain ⟨hat, hr⟩ := hi.reaches hW hσ rfl
    (by change Jvm.perform? _ _ _ (.onType _ _) = _
        simp only [Jvm.perform?, hcls W hW hσ.live, Option.bind_eq_bind, Option.bind_some, if_true]
        rfl) rfl
  exact ⟨hat, hr⟩

/-- The constructor of an exception with a message. -/
def messageInit (cls : String) : Member :=
  ⟨cls, "<init>", Jvm.method [Jvm.reference Jvm.string] "V"⟩

theorem plain_messageInit (cls : String) : Plain (messageInit cls) :=
  ⟨show Clean "<init>" by decide,
    show Clean (Jvm.method [Jvm.reference Jvm.string] "V") by decide⟩

/-- An object is thrown. -/
theorem spans_athrow : Spans env s (op .athrow) fun W _ _ =>
    ∀ ⦃σ : Jvm.State⦄ ⦃i : Nat⦄ ⦃o : String × Option String⦄ ⦃st : List Jvm.Word⦄, s.At σ →
      σ.stack = .object i :: st → σ.objects[i]? = some o →
        Jvm.Ends W.pool W.code.bytes σ σ.out (.threw o.1 o.2) := by
  intro u s' h
  have hplain : Instr.isPlain .athrow = true := Instr.isPlain_iff.mpr (by decide)
  refine ⟨begins_op h hplain, fun W hW σ i o st hσ hst ho => (adds_op h hplain).ends hW hσ ?_⟩
  change Jvm.plain? .athrow s'.body.code.bytes.size σ = _
  rw [Jvm.plain?, if_neg (by decide), if_pos rfl, hst]
  simp only [ho, Option.map_some]

/-- An exception with a message. -/
theorem spans_throwNew (cls message : String) : Spans env s (throwNew cls message) fun W _ _ =>
    ∀ ⦃σ : Jvm.State⦄, s.At σ →
      Jvm.Ends W.pool W.code.bytes σ σ.out (.threw cls (some message)) := by
  refine (spans_newObject cls).bind fun _ s₁ _ _ => ?_
  refine (spans_op (o := .dup) (by decide)).bind fun _ s₂ _ _ => ?_
  refine (spans_loads fun _ _ => loads_pushString).bind fun _ s₃ _ _ => ?_
  refine (spans_accesses fun _ _ =>
    accesses_invoke (.inr (.inr rfl)) (plain_messageInit cls)).bind fun _ s₄ _ _ => ?_
  refine spans_athrow.imp fun W _ _ _ p₅ p₄ p₃ p₂ p₁ σ hσ => ?_
  -- The object, then twice, then with its message.
  have m₁ := p₁ hσ
  have m₂ := m₁.trans (p₂ m₁.stands rfl)
  have m₃ := m₂.trans (p₃ m₂.stands)
  have m₄ := m₃.trans (p₄ m₃.stands rfl)
  refine m₄.reaches.ends ?_
  refine p₅ (o := (cls, some message)) m₄.stands rfl ?_
  change ((σ.objects.push (cls, none)).modify σ.objects.size fun o =>
    if o.1 = cls then (o.1, some message) else o)[σ.objects.size]? = _
  rw [Array.getElem?_modify, if_pos rfl, Array.getElem?_push_size]
  simp

end Steps

end Emit
end Kotlet

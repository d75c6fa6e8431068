import Kotlet.Proofs.Emit.World.Label

/-!
# Types, symbols and slots

* `typeOf_eq`, `symbolOf_eq`, `writes_variableOf` : what is recorded of a name or an expression;
* `writes_scratch`, `writes_declare` : new slots;
* `writes_keep`, `writes_keepAs`, `writes_keepIn` : new slots with a value.
-/

namespace Kotlet
namespace Emit

open ClassFile

section Slots

variable {env : Env} {W : World} {st : List Kind}

theorem typeOf_eq {e : Expr} {t : Ty} (h : e.recorded? = some t) : typeOf e = pure t := by
  rw [typeOf, h]

theorem symbolOf_eq {id : Ident} {sym : Symbol} (h : id.sym = some sym) :
    symbolOf id = pure sym := by
  rw [symbolOf, h]

/-- The slot of a symbol, and the steps after it. -/
theorem writes_slot? {α : Type} {sym : Symbol} {f : Option Local → Emit α} {Q : α → World → Prop}
    (h : Writes env W (f (W.vars sym.id)) Q) : Writes env W (slot? sym >>= f) Q := by
  have hslot : Writes env W (slot? sym) fun o w => o = W.vars sym.id ∧ w = W :=
    fun s hs => ⟨.refl s, W, hs, hs.slots sym.id, rfl⟩
  refine writes_bind hslot fun o w ⟨ho, hw⟩ => ?_
  rw [ho, hw]
  exact h

/-- The slot of a variable, and the steps after it. -/
theorem writes_variableOf {α : Type} {id : Ident} {f : Local → Emit α} {Q : α → World → Prop}
    {Γ : List Symbol} {t : Ty} (hid : id.Holds Γ t) (hΓ : W.Holds Γ)
    (h : ∀ l : Local, l.ty = t → W.Has l → Writes env (W.withStack st) (f l) Q) :
    Writes env (W.withStack st) (variableOf id >>= f) Q := by
  obtain ⟨sym, hmem, hsym, hty, -⟩ := hid
  obtain ⟨l, hl, hlty, hhas⟩ := hΓ sym hmem
  unfold variableOf
  rw [symbolOf_eq hsym, pure_bind, bind_assoc]
  refine writes_slot? ?_
  rw [show (W.withStack st).vars sym.id = some l from hl]
  exact h l (hlty.trans hty) hhas

/-- The world with one slot more. -/
def World.widened (W : World) : World := { W with next := W.next + 1 }

theorem World.Ok.widened (h : W.Ok) (hn : W.next ≤ 65535) : W.widened.Ok where
  next := Nat.succ_le_succ hn
  locals k kind hk := Nat.lt_succ_of_lt (h.locals k kind hk)
  marks m hm k kind hk := Nat.lt_succ_of_lt (h.marks m hm k kind hk)
  vars := h.vars
  tops := h.tops
  fresh := h.fresh
  names := h.names

theorem World.Past.widened {W W' : World} {ls : List Nat} (h : W.Past ls W') :
    W.Past ls W'.widened := { h with next := Nat.le_succ_of_le h.next }

/-- The next slot is free. -/
theorem World.Ok.free (h : W.Ok) : W.locals W.next = none := by
  cases hk : W.locals W.next with
  | none => rfl
  | some kind => exact absurd (h.locals _ kind hk) (Nat.lt_irrefl _)

/-- A slot without a name, and the steps after it. -/
theorem writes_scratch {α : Type} {ty : Ty} {tok : Token} {f : Local → Emit α}
    {Q : α → World → Prop} (hw : W.numbered = true)
    (h : W.locals W.next = none → Writes env (W.widened.withStack st) (f ⟨W.next, ty⟩) Q) :
    Writes env (W.withStack st) (scratch ty tok >>= f) Q := by
  have hnew : Writes env (W.withStack st) (scratch ty tok) fun l w =>
      l = ⟨W.next, ty⟩ ∧ w = W.widened.withStack st := by
    intro s hs
    unfold scratch
    rw [ends_bind, ends_get]
    by_cases hn : 65535 < s.body.next
    · rw [if_pos hn]
      exact (rfl : EmitError.manyLocals.code = .formatLimit)
    · rw [if_neg hn]
      have hnext : s.body.next = W.next := hs.next hw
      refine ⟨.of_pool (.refl _) rfl (Nat.le_refl _), W.widened.withStack st, ⟨hs.pool, hs.flows,
        hs.slots, ?_, hs.names, ?_⟩, ?_, rfl⟩
      · exact fun _ => congrArg (· + 1) hnext
      · exact World.Ok.widened hs.ok (by change W.next ≤ _; omega)
      · exact congrArg (Local.mk · ty) hnext
  refine writes_of_ok fun hok => writes_bind hnew fun l w ⟨hl, hw⟩ => ?_
  rw [hl, hw]
  exact h hok.free

/-- The world with one variable more, and numbers for those that may come. -/
def World.declared (W : World) (sym : Symbol) (count : Nat) (ahead : Option Nat) : World :=
  { W with
    vars := fun id => if id = sym.id then some ⟨W.next, sym.ty⟩ else W.vars id
    count := count
    ahead := ahead
    next := W.next + 1 }

theorem World.Past.declared {W W' : World} {ls : List Nat} (h : W.Past ls W') {sym : Symbol}
    (hs : W'.vars sym.id = none) (count : Nat) :
    W.Past ls (W'.declared sym count W'.ahead) := by
  refine { h with vars := fun id l hl => ?_, next := Nat.le_succ_of_le h.next }
  have hid := h.vars id l hl
  change (if id = sym.id then _ else _) = _
  split
  · rename_i heq
    rw [heq, hs] at hid
    cases hid
  · exact hid

/-- A slot for a symbol, and the steps after it. -/
theorem writes_declare {α : Type} {sym : Symbol} {tok : Token} {f : Local → Emit α}
    {Q : α → World → Prop} (count : Nat) (ahead : Option Nat) (hw : W.numbered = true)
    (hf : ¬ W.Numbered sym.id.index)
    (hn : ∀ i, W.Numbered i ∨ i = sym.id.index → i < count ∨ ahead = some i)
    (h : W.locals W.next = none → W.vars sym.id = none →
      Writes env ((W.declared sym count ahead).withStack st) (f ⟨W.next, sym.ty⟩) Q) :
    Writes env (W.withStack st) (declare sym tok >>= f) Q := by
  refine writes_of_ok fun hok => ?_
  have hnone : W.vars sym.id = none := by
    cases hv : W.vars sym.id with
    | none => rfl
    | some l => exact absurd (hok.vars _ _ hv) hf
  unfold declare
  rw [bind_assoc]
  refine writes_slot? ?_
  rw [show (W.withStack st).vars sym.id = none from hnone]
  simp only [Option.isSome_none, Bool.false_eq_true, if_false, bind_assoc]
  refine writes_scratch hw fun hfree => ?_
  have hinsert : Leads env (W.widened.withStack st) (modify fun s => { s with body :=
      { s.body with slots := s.body.slots.insert sym.id ⟨W.next, sym.ty⟩ } })
      ((W.declared sym count ahead).withStack st) := by
    intro s hs
    refine ⟨.of_pool (.refl _) rfl (Nat.le_refl _), (W.declared sym count ahead).withStack st,
      ⟨hs.pool, hs.flows, fun id => ?_, hs.next, hs.names, ?_⟩, rfl⟩
    · change (s.body.slots.insert sym.id ⟨W.next, sym.ty⟩)[id]? = if id = sym.id then _ else _
      rw [Std.HashMap.getElem?_insert, hs.slots id]
      by_cases hid : id = sym.id
      · rw [if_pos hid, if_pos (by rw [hid]; exact beq_self_eq_true _)]
      · rw [if_neg hid, if_neg (by rw [beq_iff_eq]; exact Ne.symm hid)]
        rfl
    · refine { hs.ok with vars := fun id l hl => ?_ }
      change (if id = sym.id then _ else _) = _ at hl
      split at hl
      · rename_i hid
        exact hn _ (.inr (by rw [hid]))
      · exact hn _ (.inl (hok.vars id l hl))
  exact hinsert.seq (h hfree hnone)

/-- A value gets a slot without a name. -/
theorem writes_keep {α : Type} {ty : Ty} {tok : Token} {f : Local → Emit α} {Q : α → World → Prop}
    (hw : W.numbered = true) (h : ∀ (l : Local) (W' : World), l.ty = ty → W.Next W' → W'.Has l → W'.count = W.count →
      Writes env (W'.withStack st) (f l) Q) :
    Writes env (W.withStack (ty.localKind.kind :: st))
      (scratch ty tok >>= fun l => store l >>= fun _ => f l) Q := by
  refine writes_scratch hw fun hfree => ?_
  refine (leads_store (W := W.widened) (l := ⟨W.next, ty⟩) (Nat.lt_succ_self _)).seq ?_
  refine h _ _ rfl ((World.Past.refl W).widened.storing fun kind hk => ?_)
    (W.widened.storing_has _) rfl
  rw [show W.locals W.next = some kind from hk] at hfree
  cases hfree

/-- The slot of a symbol gets a value. -/
theorem writes_keepIn {α : Type} {sym : Symbol} {tok : Token} {f : Local → Emit α}
    {Q : α → World → Prop} (count : Nat) (ahead : Option Nat) (hw : W.numbered = true)
    (hf : ¬ W.Numbered sym.id.index)
    (hn : ∀ i, W.Numbered i ∨ i = sym.id.index → i < count ∨ ahead = some i)
    (h : ∀ (l : Local) (W' : World), l.ty = sym.ty → W.Next { W' with ahead := W.ahead } →
      W'.Has l → W'.vars sym.id = some l → W'.count = count → W'.ahead = ahead →
      Writes env (W'.withStack st) (f l) Q) :
    Writes env (W.withStack (sym.ty.localKind.kind :: st))
      (declare sym tok >>= fun l => store l >>= fun _ => f l) Q := by
  refine writes_declare count ahead hw hf hn fun hfree hnone => ?_
  refine (leads_store (W := W.declared sym count ahead) (l := ⟨W.next, sym.ty⟩)
    (Nat.lt_succ_self _)).seq ?_
  have hpast : W.Next ((W.declared sym count W.ahead).storing ⟨W.next, sym.ty⟩) :=
    ((World.Past.refl W).declared hnone count).storing fun kind hk => by
      rw [show W.locals W.next = some kind from hk] at hfree
      cases hfree
  exact h _ _ rfl hpast ((W.declared sym count ahead).storing_has _) (if_pos rfl) rfl rfl

/-- A value gets the slot of the next symbol. -/
theorem writes_keepAs {α : Type} {sym : Symbol} {tok : Token} {f : Local → Emit α}
    {Q : α → World → Prop} (hw : W.numbered = true) (hc : W.count ≤ sym.id.index)
    (ha : W.ahead ≠ some sym.id.index)
    (h : ∀ (l : Local) (W' : World), l.ty = sym.ty → W.Next W' → W'.Has l →
      W'.vars sym.id = some l → W'.count = sym.id.index + 1 → Writes env (W'.withStack st) (f l) Q) :
    Writes env (W.withStack (sym.ty.localKind.kind :: st))
      (declare sym tok >>= fun l => store l >>= fun _ => f l) Q := by
  refine writes_keepIn (sym.id.index + 1) W.ahead hw
    (fun hnum => hnum.elim (fun hlt => Nat.lt_irrefl _ (Nat.lt_of_lt_of_le hlt hc)) ha)
    (fun i hi => ?_) fun l W' hty hn hhas hvar hcount hahead => ?_
  · rcases hi with (hlt | hahead) | rfl
    · exact .inl (Nat.lt_succ_of_le (Nat.le_trans (Nat.le_of_lt hlt) hc))
    · exact .inr hahead
    · exact .inl (Nat.lt_succ_self _)
  · exact h l W' hty { hn with ahead := hahead } hhas hvar hcount

/-- A number that was ahead is not ahead any more. -/
theorem writes_settle {α : Type} {x : Emit α} {Q : α → World → Prop} {i : Nat}
    (hc : W.count ≤ i) (ha : W.ahead = some i)
    (h : Writes env ({ W with count := i + 1, ahead := none }.withStack st) x Q) :
    Writes env (W.withStack st) x Q := by
  have hvars (hok : W.Ok) : ∀ id l, W.vars id = some l → id.index < i + 1 ∨ none = some id.index := by
    intro id l hl
    rcases hok.vars id l hl with hlt | heq
    · exact .inl (Nat.lt_succ_of_le (Nat.le_trans (Nat.le_of_lt hlt) hc))
    · obtain rfl : i = id.index := Option.some.inj (ha.symm.trans heq)
      exact .inl (Nat.lt_succ_self _)
  exact h.weaken fun _ hs => { hs with ok := { hs.ok with vars := hvars { hs.ok with } } }

theorem World.Holds.cons {Γ : List Symbol} {sym : Symbol} {l : Local} (h : W.Holds Γ)
    (hv : W.vars sym.id = some l) (hty : l.ty = sym.ty) (hl : W.Has l) : W.Holds (sym :: Γ) := by
  intro x hx
  rcases List.mem_cons.mp hx with rfl | hx
  · exact ⟨l, hv, hty, hl⟩
  · exact h x hx

end Slots

end Emit
end Kotlet

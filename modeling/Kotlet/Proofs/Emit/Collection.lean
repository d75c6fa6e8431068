import Kotlet.Proofs.Emit.Piece

/-!
# Places and collections

* `Place.Reads`, `Place.Updates` : places whose values, or numbers, are of some use;
* `writes_elementPlace` : a collection and an index on the stack;
* `yields_read` : the value of a place;
* `yields_incDec` : `++` and `--` as values;
* `ArgsCompile` : several pieces for values of some types;
* `yields_collection` : a collection with its elements written out;
* `yields_fillTurns`, `yields_sized` : a collection that a generator fills. Its loop runs above whatever
  is on the stack.
-/

namespace Kotlet
namespace Emit

open ClassFile

/-- A place with a value of a type. -/
def Place.Reads (Φ : Signatures) (Γ : List Symbol) (lo hi : Nat) (t : Ty) : Place → Prop
  | .name id => id.Denotes Φ Γ t ∧ lo = hi
  | .element _ base index =>
    ∃ (kind : CollectionKind) (s : Scalar), t = .scalar s ∧ s ≠ .unit ∧ base.Holds Γ (kind.ty s) ∧
      index.Compiles Φ Γ lo hi .int

/-- A place with a number. -/
def Place.Updates (Φ : Signatures) (Γ : List Symbol) (lo hi : Nat) : Place → Prop
  | .name id => id.Holds Γ .int ∧ lo = hi
  | .element _ base index =>
    ∃ kind : CollectionKind, base.Holds Γ (kind.ty .int) ∧ index.Compiles Φ Γ lo hi .int

section Places

variable {Φ : Signatures} {Γ : List Symbol} {lo mid hi : Nat} {t : Ty} {env : Env} {W : World}
  {st : List Kind}

/-! ## Functions by name -/

/-- A name with a type is that of a function which gets a method. -/
theorem Env.Knows.find {name : String} (h : env.Knows Φ) (hf : Φ name = some t) :
    ∃ f ∈ env.functions, (env.functions.find? fun f => f.name.name == name) = some f ∧
      f.name.name = name ∧ f.signature = t := by
  rw [h.signatures] at hf
  obtain ⟨f, hfind, hsig⟩ := Option.map_eq_some_iff.mp hf
  exact ⟨f, List.mem_of_find?_eq_some hfind, hfind, by simpa using List.find?_some hfind, hsig⟩

theorem clean_of_isWord {name : String} (h : IsWord name) : Clean name := by
  intro c hc
  have hword := h c hc
  constructor <;> rintro rfl <;> cases hword

theorem clean_methodName {name : String} (h : IsWord name) : Clean (methodName name) := by
  unfold methodName
  split
  · exact .append (clean_of_isWord h) (by decide)
  · exact clean_of_isWord h

/-- The method of a function that is known. -/
theorem writes_methodOf {α : Type} {name : String} {f : String → Emit α} {Q : α → World → Prop}
    (h : env.Knows Φ) (hf : Φ name = some t) (hn : Writes env W (f (methodName name)) Q) :
    Writes env W (methodOf name >>= f) Q := by
  obtain ⟨d, hd, -, rfl, -⟩ := h.find hf
  unfold methodOf
  rw [bind_assoc]
  refine writes_read_bind ?_
  rw [h.declared d hd, if_pos rfl, pure_bind]
  exact hn

/-! ## Variables -/

theorem yields_readName {r : Nat} {id : Ident} (hid : id.Denotes Φ Γ t) (hΓ : Context r lo Γ)
    (h : Stage Φ Γ lo hi env W) : Yields env W st (readName id) lo (t.kinds ++ st) := by
  unfold readName
  rcases hid with hid | ⟨sym, hsym, hfun, hty, hsig, -⟩
  · have ⟨sym, hmem, hsym, hty, _⟩ := hid
    rw [symbolOf_eq hsym, pure_bind, hΓ.plain sym hmem, if_neg Bool.false_ne_true]
    refine writes_variableOf hid h.holds fun l hl hhas => ?_
    rw [Ty.kinds_of_ne (hty ▸ hΓ.hasValue sym hmem), ← hl]
    exact (turns_load hhas).yields h.count
  · obtain ⟨f, -, hfind, -, rfl⟩ := h.knows.find hsig
    rw [symbolOf_eq hsym, pure_bind, hfun, if_pos rfl]
    refine writes_read_bind ?_
    rw [hfind]
    refine writes_methodOf h.knows hsig ?_
    exact (turns_methodHandle _ _).yields h.count

/-! ## Elements -/

theorem CollectionKind.localKind_ty (kind : CollectionKind) (s : Scalar) :
    (kind.ty s).localKind = .ref := by
  cases kind <;> rfl

/-- A collection and an index on the stack. -/
theorem writes_elementPlace {α : Type} {m : Mark} {base : Ident} {index : Piece}
    {kind : CollectionKind} {s : Scalar} {f : CollectionKind × Scalar → Emit α}
    {Q : α → World → Prop} (hb : base.Holds Γ (kind.ty s)) (hx : index.Compiles Φ Γ lo hi .int)
    (h : Stage Φ Γ lo hi env W)
    (hf : ∀ W', W.Next W' → W'.count ≤ hi →
      Writes env (W'.withStack (.int :: .ref :: st)) (f (kind, s)) Q) :
    Writes env (W.withStack st) (elementPlace m base index >>= f) Q := by
  have hplace : Writes env (W.withStack st) (elementPlace m base index) fun ks V =>
      ks = (kind, s) ∧ W.Ready hi (.int :: .ref :: st) V := by
    unfold elementPlace
    refine writes_variableOf hb h.holds fun l hl hhas => ?_
    have hload : Turns env W st (load l) (.ref :: st) :=
      turns_loadAs hhas (by rw [hl, CollectionKind.localKind_ty]; rfl)
    have hrest : Writes env (W.withStack st)
        (do load l; index.value; return (kind, s)) fun ks V =>
          ks = (kind, s) ∧ W.Ready hi (.int :: .ref :: st) V := by
      refine hload.seq ((hx.value h).seq fun W₁ hn hc => ?_)
      exact writes_pure ⟨rfl, W₁, hn, hc, rfl⟩
    rw [hl]
    cases kind with
    | array => exact hrest
    | list => exact hrest
  refine writes_bind hplace fun ks V ⟨hks, W₁, hn, hc, hV⟩ => ?_
  rw [hks, hV]
  exact hf W₁ hn hc

/-- The value of a place. -/
theorem yields_read {r : Nat} {p : Place} (hp : p.Reads Φ Γ lo hi t) (hΓ : Context r lo Γ)
    (h : Stage Φ Γ lo hi env W) : Yields env W st p.read hi (t.kinds ++ st) := by
  cases p with
  | name id =>
    obtain ⟨hid, rfl⟩ := hp
    exact yields_readName hid hΓ h
  | element m base index =>
    obtain ⟨kind, s, rfl, hs, hb, hi⟩ := hp
    refine writes_elementPlace hb hi h fun W₁ hn hc => ?_
    rw [Ty.kinds_of_ne fun he => hs (Ty.scalar.inj he)]
    exact (turns_loadElement kind s).ready hn hc

theorem delta_bounds (sign : String) : -0x8000 ≤ (delta sign).toInt ∧ (delta sign).toInt ≤ 0x7fff := by
  unfold delta
  split <;> decide

/-- The number at a place is stored again, and one of its two values is left. -/
theorem yields_incDec {sign : String} {before : Bool} {p : Place} (hp : p.Updates Φ Γ lo hi)
    (h : Stage Φ Γ lo hi env W) : Yields env W st (incDec sign before p) hi (.int :: st) := by
  cases p with
  | name id =>
    obtain ⟨hid, rfl⟩ := hp
    unfold incDec
    refine writes_variableOf hid h.holds fun l hl hhas => ?_
    have hload {st : List Kind} : Turns env W st (load l) (.int :: st) :=
      turns_loadNumber hhas hl
    have hinc {st : List Kind} : Turns env W st (increment l (delta sign).toInt) st :=
      turns_increment hhas (by rw [hl]; rfl) (delta_bounds sign)
    cases before with
    | true => exact hinc.seq (hload.yields h.count)
    | false => exact hload.seq (hinc.yields h.count)
  | element m base index =>
    obtain ⟨kind, hb, hi⟩ := hp
    unfold incDec
    refine writes_elementPlace hb hi h fun W₁ hn hc => ?_
    refine (turns_op (.int :: .ref :: .int :: .ref :: st) (by decide) rfl).seq ?_
    refine (turns_loadInt kind).seq ?_
    have hkeep : Turns env W₁ (.int :: .int :: .ref :: st) (op .dupX2)
        (.int :: .int :: .ref :: .int :: st) := turns_op _ (by decide) rfl
    have hadd {st : List Kind} {f : Unit → Emit Unit} {R : Unit → World → Prop}
        (hf : Writes env (W₁.withStack (.int :: st)) (f ()) R) :
        Writes env (W₁.withStack (.int :: st))
          (do pushInt (delta sign); let u ← op .iadd; f u) R :=
      (turns_pushInt _).seq ((turns_op _ (by decide) rfl).seq hf)
    cases before with
    | true => exact hadd (hkeep.seq ((turns_storeInt kind).ready hn hc))
    | false => exact hkeep.seq (hadd ((turns_storeInt kind).ready hn hc))

end Places

/-- Pieces for values of some types. -/
def ArgsCompile (Φ : Signatures) (Γ : List Symbol) (hi : Nat) : Nat → List Ty → List Piece → Prop
  | lo, [], [] => lo = hi
  | lo, want :: wants, p :: ps =>
    ∃ mid t, p.Compiles Φ Γ lo mid t ∧ t.assignable want = true ∧ t ≠ .unit ∧
      ArgsCompile Φ Γ hi mid wants ps
  | _, _, _ => False

theorem assignable_any {t : Ty} (h : t ≠ .unit) : t.assignable .any = true := by
  simp [Ty.assignable, h]

theorem ArgsCompile.le {Φ : Signatures} {Γ : List Symbol} {hi : Nat} : ∀ {wants : List Ty}
    {ps : List Piece} {lo : Nat}, ArgsCompile Φ Γ hi lo wants ps → lo ≤ hi
  | [], [], _, h => Nat.le_of_eq h
  | [], _ :: _, _, h => h.elim
  | _ :: _, [], _, h => h.elim
  | _ :: _, _ :: _, _, ⟨_, _, hp, _, _, hps⟩ => Nat.le_trans hp.le hps.le

/-- What has a value is an object, too. -/
theorem ArgsCompile.any {Φ : Signatures} {Γ : List Symbol} {hi : Nat} : ∀ {wants : List Ty}
    {ps : List Piece} {lo : Nat}, ArgsCompile Φ Γ hi lo wants ps →
      ArgsCompile Φ Γ hi lo (ps.map fun _ => .any) ps
  | [], [], _, h => h
  | [], _ :: _, _, h => h.elim
  | _ :: _, [], _, h => h.elim
  | _ :: _, _ :: _, _, ⟨mid, t, hp, _, hu, hps⟩ => ⟨mid, t, hp, assignable_any hu, hu, hps.any⟩

section Collections

variable {Φ : Signatures} {Γ : List Symbol} {lo mid hi : Nat} {t : Ty} {env : Env} {W : World}
  {st : List Kind}

theorem yields_addAll : ∀ {ps : List Piece} {lo : Nat} {W : World},
    ArgsCompile Φ Γ hi lo (ps.map fun _ => .any) ps → Stage Φ Γ lo hi env W →
      Yields env W (.ref :: st) (addAll ps) hi (.ref :: st)
  | [], lo, W, hps, h => turns_nothing.yields (hps ▸ h.count)
  | p :: ps, lo, W, ⟨mid, t, hp, ha, hu, hps⟩, h => by
    unfold addAll
    refine (turns_op (.ref :: .ref :: st) (by decide) rfl).seq ?_
    refine (yields_valueAs hp ha hu (h.upTo hps.le)).seq fun W₁ hn hc => ?_
    refine turns_listAdd.seq ?_
    exact (yields_addAll hps (h.next hn hc)).ready hn

/-- The instruction takes a value of the type, an index and an array. -/
def Stores (o : Opcode) (t : Ty) : Prop :=
  ∀ {env W st}, Turns env W (t.localKind.kind :: .int :: .ref :: st) (op o) st

theorem yields_storeAll {o : Opcode} (ho : Stores o t) : ∀ {ps : List Piece} {i lo : Nat} {W : World},
    ArgsCompile Φ Γ hi lo (ps.map fun _ => t) ps → Stage Φ Γ lo hi env W →
      Yields env W (.ref :: st) (storeAll t o i ps) hi (.ref :: st)
  | [], _, lo, W, hps, h => turns_nothing.yields (hps ▸ h.count)
  | p :: ps, i, lo, W, ⟨mid, t', hp, ha, hu, hps⟩, h => by
    unfold storeAll
    refine (turns_op (.ref :: .ref :: st) (by decide) rfl).seq ?_
    refine (turns_pushInt _).seq ?_
    refine (yields_valueAs hp ha hu (h.upTo hps.le)).seq fun W₁ hn hc => ?_
    refine Turns.seq ho ?_
    exact (yields_storeAll ho hps (h.next hn hc)).ready hn

theorem collectionParts_eq {e : Expr} {kind : CollectionKind} {s : Scalar}
    (h : e.recorded? = some (kind.ty s)) : collectionParts e = pure (kind.ty s, kind, s) := by
  unfold collectionParts
  rw [typeOf_eq h, pure_bind]
  cases kind <;> rfl

theorem yields_collection {e : Expr} {kind : CollectionKind} {s : Scalar} {ps : List Piece}
    (hr : e.recorded? = some (kind.ty s)) (hps : ArgsCompile Φ Γ hi lo (ps.map fun _ => .scalar s) ps)
    (h : Stage Φ Γ lo hi env W) : Yields env W st (collection e ps) hi (.ref :: st) := by
  unfold collection
  rw [collectionParts_eq hr, pure_bind]
  refine (turns_pushInt _).seq ?_
  cases kind with
  | list => exact turns_newList.seq (yields_addAll hps.any h)
  | array => exact (turns_newArray s).seq (yields_storeAll (turns_arrayStore s) hps h)

/-- The turns of the loop that fills a collection. -/
def fillTurns (kind : CollectionKind) (s : Scalar) (body : Piece) (i count result : Local) :
    Emit Unit := do
  let top ← newLabel
  let exit ← newLabel
  bindLabel top
  load i
  load count
  jump .ifIcmpGe exit
  load result
  match kind with
  | .list =>
    valueAs body .any
    listAdd
  | .array =>
    load i
    valueAs body (.scalar s)
    op (arrayStoreOp s)
  increment i 1
  jump .goto top
  bindLabel exit
  load result

/-- The loop runs above whatever is on the stack. -/
theorem yields_fillTurns {i count result : Local} {body : Piece} {kind : CollectionKind} {s : Scalar}
    (hindex : W.Has i) (hit : i.ty = .int) (hc : W.Has count) (hct : count.ty = .int)
    (hr : W.Has result) (hrt : result.ty = kind.ty s) (hb : body.Compiles Φ Γ lo hi t)
    (ha : t.assignable (.scalar s) = true) (hu : t ≠ .unit) (h : Stage Φ Γ lo hi env W) :
    Yields env W st (fillTurns kind s body i count result) hi (.ref :: st) := by
  refine writes_of_ok fun hok => ?_
  refine (World.Opened.refl W).newLabel ⟨st, W.locals⟩ (fun _ _ h => h) fun top V₀ h₀ => ?_
  refine h₀.newLabel ⟨st, W.locals⟩ (fun _ _ h => h) fun exit V ho => ?_
  have htarget {l : Nat} (hl : l = top ∨ l = exit) : (V.looping top W.locals).Target l st :=
    ho.looping_target (by rcases hl with rfl | rfl <;> simp)
  have hloop : (W.within top).Past [exit] (V.looping top W.locals) := ho.looping [exit] [] rfl
  have hjumped := hloop.jumped exit
  have hkind : result.ty.localKind.kind = .ref := by rw [hrt, CollectionKind.localKind_ty]; rfl
  -- The end of the loop, and what comes after it.
  have hend : ∀ W₁, ((V.looping top W.locals).jumped exit).Next W₁ → W₁.count ≤ hi →
      Writes env (W₁.withStack st) (do
        increment i 1
        jump .goto top
        bindLabel exit
        load result) fun _ V => W.Ready hi (.ref :: st) V := by
    intro W₁ hn₁ hc₁
    refine (turns_increment (hn₁.has (hjumped.has hindex)) (by rw [hit]; rfl) (by decide)).seq ?_
    refine (leads_goto (hn₁.target (htarget (.inl rfl)))).seq ?_
    obtain ⟨hexit, hafter⟩ := leads_exit ((hjumped.trans hn₁).jumped top) (ho.above hok (by simp))
      (hn₁.mark (ho.label exit ⟨st, W.locals⟩ (by simp)))
    refine hexit.seq ?_
    exact (turns_loadAs (hafter.has hr) hkind).ready hafter hc₁
  have hstage : Stage Φ Γ lo hi env ((V.looping top W.locals).jumped exit) :=
    (h.within top).next hjumped (ho.count ▸ h.count)
  refine (ho.bindTop hok (by simp)).seq ?_
  refine (turns_loadNumber (hloop.has hindex) hit).seq ?_
  refine (turns_loadNumber (hloop.has hc) hct).seq ?_
  refine (leads_jump (by decide) (by decide) rfl (htarget (.inr rfl))).seq ?_
  refine (turns_loadAs (hjumped.has hr) hkind).seq ?_
  cases kind with
  | list =>
    refine (yields_valueAs hb (assignable_any hu) hu hstage).seq fun W₁ hn₁ hc₁ => ?_
    exact turns_listAdd.seq (hend W₁ hn₁ hc₁)
  | array =>
    refine (turns_loadNumber (hjumped.has hindex) hit).seq ?_
    refine (yields_valueAs hb ha hu hstage).seq fun W₁ hn₁ hc₁ => ?_
    exact (turns_arrayStore s).seq (hend W₁ hn₁ hc₁)

/-- A collection that a generator fills: the index has a slot, and so have the size and the
collection, which are not on the stack while the body runs. -/
theorem yields_sized {r : Nat} {e : Expr} {size body : Piece} {gen : Mark} {params : List Param}
    {kind : CollectionKind} {s : Scalar} {sym : Symbol} (hr : e.recorded? = some (kind.ty s))
    (hs : size.Compiles Φ Γ lo mid .int) (hp : Param.Declare r mid params [sym])
    (hty : sym.ty = .int) (hb : body.Compiles Φ (sym :: Γ) (mid + 1) hi t)
    (ha : t.assignable (.scalar s) = true) (hu : t ≠ .unit) (h : Stage Φ Γ lo hi env W) :
    Yields env W st (sized e size gen params body) hi (.ref :: st) := by
  obtain ⟨p, rfl⟩ : ∃ p, params = [p] := List.length_eq_one_iff.mp hp.length
  obtain ⟨hsym, hd, -⟩ := hp
  -- The number of the index is free: what is ahead comes after all of this.
  have hfree {W' : World} (hn : W.Next W') : W'.ahead ≠ some sym.id.index := fun ha => by
    have hlt := h.ahead _ (hn.ahead.symm.trans ha)
    rw [hd.id] at hlt
    exact Nat.lt_irrefl _ (Nat.lt_of_lt_of_le hb.le hlt)
  unfold sized
  simp only [collectionParts_eq hr, pure_bind, symbolOf_eq hsym]
  refine (hs.value (h.upTo (Nat.le_trans (Nat.le_succ mid) hb.le))).seq fun W₁ hn₁ hc₁ => ?_
  have hnum : W₁.numbered = true := hn₁.numbered.trans h.numbered
  refine writes_keep hnum fun count W₂ hcount hn₂ hhas₂ hc₂ => ?_
  refine (turns_loadNumber hhas₂ hcount).seq ?_
  have hfill (result : Local) (W₃ : World) (hres : result.ty = kind.ty s) (hn₃ : W₂.Next W₃)
      (hhas₃ : W₃.Has result) (hc₃ : W₃.count = W₂.count) : Yields env W₃ st (do
        pushInt 0
        let i ← declare sym p.name.tok
        store i
        fillTurns kind s body i count result) hi (.ref :: st) := by
    refine (turns_pushInt 0).seq ?_
    rw [show Kind.int = sym.ty.localKind.kind by rw [hty]; rfl]
    refine writes_keepAs ((hn₂.trans hn₃).numbered.trans hnum) (by rw [hd.id, hc₃, hc₂]; exact hc₁)
      (hfree (hn₁.trans (hn₂.trans hn₃))) fun i W₄ hity hn₄ hhas₄ hvar₄ hc₄ => ?_
    have hn : W.Next W₄ := hn₁.trans (hn₂.trans (hn₃.trans hn₄))
    have hstage : Stage Φ (sym :: Γ) (mid + 1) hi env W₄ :=
      ⟨h.knows, (hn.holds h.holds).cons hvar₄ hity hhas₄, Nat.le_of_eq (by rw [hc₄, hd.id]),
        fun i ha => h.ahead i (hn.ahead.symm.trans ha), hn.numbered.trans h.numbered⟩
    exact (yields_fillTurns hhas₄ (hity.trans hty) (hn₄.has (hn₃.has hhas₂)) hcount
      (hn₄.has hhas₃) hres hb ha hu hstage).ready hn₄
  cases kind with
  | list =>
    exact turns_newList.seq (writes_keep (hn₂.numbered.trans hnum)
      fun result W₃ hres hn₃ hhas₃ hc₃ =>
        (hfill result W₃ hres hn₃ hhas₃ hc₃).ready ((hn₁.trans hn₂).trans hn₃))
  | array =>
    exact (turns_newArray s).seq (writes_keep (hn₂.numbered.trans hnum)
      fun result W₃ hres hn₃ hhas₃ hc₃ =>
        (hfill result W₃ hres hn₃ hhas₃ hc₃).ready ((hn₁.trans hn₂).trans hn₃))

end Collections

end Emit
end Kotlet

import Kotlet.Proofs.Emit.Method

/-!
# Pieces of code

* `Env.Knows`, `Stage` : what is around a piece of the program when its code is written;
* `Yields` : steps after which the next piece can be written;
* `Piece.Compiles` : code that leaves a value of a type, or branches on it;
* `Piece.ArgsCompile`, `Piece.SplicesCompile` : several such pieces;
* `compiles_ofValue`, `compiles_ofJump` : either use gives the other one.
-/

namespace Kotlet
namespace Emit

open ClassFile

/-- The functions that the steps can see are those of the program. -/
structure Env.Knows (Φ : Signatures) (env : Env) : Prop where
  signatures : Φ = signatures env.functions
  declared : ∀ f ∈ env.functions, env.declared.contains f.name.name = true
  word : ∀ f ∈ env.functions, IsWord f.name.name
  types : ∀ f ∈ env.functions, ∀ t ∈ f.paramTypes, t.Complete ∧ t ≠ .unit
  result : ∀ f ∈ env.functions, f.result.Complete

/-- What is around a piece of the program with the variables `Γ`, in which the numbers from `lo` up to
`hi` are free. -/
structure Stage (Φ : Signatures) (Γ : List Symbol) (lo hi : Nat) (env : Env) (W : World) : Prop where
  knows : env.Knows Φ
  holds : W.Holds Γ
  count : W.count ≤ lo
  ahead : ∀ i, W.ahead = some i → hi ≤ i
  numbered : W.numbered = true

/-- A world after a piece of the program that leaves a stack. -/
def World.Ready (W : World) (hi : Nat) (st : List Kind) (V : World) : Prop :=
  ∃ W', W.Next W' ∧ W'.count ≤ hi ∧ V = W'.withStack st

/-- The steps leave a stack, and the next piece can be written. -/
def Yields (env : Env) (W : World) (st : List Kind) (x : Emit Unit) (hi : Nat)
    (st' : List Kind) : Prop :=
  Writes env (W.withStack st) x fun _ V => W.Ready hi st' V

section Rules

variable {Φ : Signatures} {Γ Δ : List Symbol} {lo mid hi : Nat} {env : Env} {W V W' : World}
  {st st' : List Kind} {x : Emit Unit} {ls : List Nat}

theorem Stage.next (h : Stage Φ Γ lo hi env W) (hn : W.Past ls W') (hc : W'.count ≤ mid) :
    Stage Φ Γ mid hi env W' :=
  ⟨h.knows, hn.holds h.holds, hc, fun i hi => h.ahead i (hn.ahead.symm.trans hi),
    hn.numbered.trans h.numbered⟩

theorem Stage.within (h : Stage Φ Γ lo hi env W) (l : Nat) : Stage Φ Γ lo hi env (W.within l) :=
  { h with }

theorem Stage.upTo (h : Stage Φ Γ lo hi env W) (hle : mid ≤ hi) : Stage Φ Γ lo mid env W :=
  { h with ahead := fun i hi => Nat.le_trans hle (h.ahead i hi) }

theorem Yields.seq {β : Type} {f : Unit → Emit β} {R : β → World → Prop}
    (h : Yields env W st x hi st')
    (hf : ∀ W', W.Next W' → W'.count ≤ hi → Writes env (W'.withStack st') (f ()) R) :
    Writes env (W.withStack st) (x >>= f) R :=
  writes_bind h fun _ _ ⟨W', hn, hc, hV⟩ => hV ▸ hf W' hn hc

theorem Leads.ready (h : Leads env (V.withStack st) x (W'.withStack st')) (hn : W.Next W')
    (hc : W'.count ≤ hi) : Writes env (V.withStack st) x fun _ w => W.Ready hi st' w :=
  h.writes ⟨W', hn, hc, rfl⟩

theorem Turns.ready (h : Turns env V st x st') (hn : W.Next V) (hc : V.count ≤ hi) :
    Writes env (V.withStack st) x fun _ w => W.Ready hi st' w := Leads.ready h hn hc

theorem Turns.yields (h : Turns env W st x st') (hc : W.count ≤ hi) :
    Yields env W st x hi st' := h.ready (.refl W) hc

theorem Yields.ready (h : Yields env V st x hi st') (hn : W.Next V) :
    Writes env (V.withStack st) x fun _ w => W.Ready hi st' w :=
  h.mono fun _ _ ⟨W', hn', hc, hV⟩ => ⟨W', hn.trans hn', hc, hV⟩

end Rules

/-! ## Pieces -/

/-- The code leaves a value of a type, or branches on it. -/
structure Piece.Compiles (Φ : Signatures) (Γ : List Symbol) (lo hi : Nat) (t : Ty) (p : Piece) :
    Prop where
  recorded : p.expr.recorded? = some t
  le : lo ≤ hi
  value : ∀ {env W st}, Stage Φ Γ lo hi env W → Yields env W st p.value hi (t.kinds ++ st)
  jump : ∀ {env W st want l}, t = .boolean → Stage Φ Γ lo hi env W → W.Target l st →
    Yields env W st (p.jump want l) hi st

/-- A branch that takes the given kinds from the stack. -/
structure IsBranch (o : Opcode) (ks : List Kind) : Prop where
  branch : o.isBranch = true
  goesOn : o.endsBlock = false
  act : ∀ st, o.act? (ks ++ st) = some st

section Pieces

variable {Φ : Signatures} {Γ : List Symbol} {lo mid hi : Nat} {t : Ty} {e : Expr} {env : Env}
  {W V : World} {st : List Kind} {l : Nat}

theorem IsBranch.leads {o : Opcode} {ks : List Kind} (h : IsBranch o ks) (ht : W.Target l st) :
    Leads env (W.withStack (ks ++ st)) (jump o l) ((W.jumped l).withStack st) :=
  leads_jump h.branch h.goesOn (h.act st) ht

theorem isBranch_truth (want : Bool) : IsBranch (if want then .ifNe else .ifEq) [.int] := by
  cases want with
  | true => exact ⟨by decide, by decide, fun _ => rfl⟩
  | false => exact ⟨by decide, by decide, fun _ => rfl⟩

theorem compiles_ofValue {value : Emit Unit} (hr : e.recorded? = some t) (hle : lo ≤ hi)
    (hv : ∀ {env W st}, Stage Φ Γ lo hi env W → Yields env W st value hi (t.kinds ++ st)) :
    (Piece.ofValue e value).Compiles Φ Γ lo hi t where
  recorded := hr
  le := hle
  value := hv
  jump {env W st want l} ht h hl := by
    subst ht
    refine (hv h).seq fun W₁ hn hc => ?_
    exact ((isBranch_truth want).leads (hn.target hl)).ready (hn.jumped l) hc

/-- A condition as a value. -/
theorem yields_materialize {branch : Bool → Nat → Emit Unit} (h : Stage Φ Γ lo hi env W)
    (hb : ∀ {W st want l}, Stage Φ Γ lo hi env W → W.Target l st →
      Yields env W st (branch want l) hi st) :
    Yields env W st (materialize branch) hi (.int :: st) := by
  refine writes_of_ok fun hok => ?_
  unfold materialize
  refine (World.Opened.refl W).newLabel ⟨st, W.locals⟩ (fun _ _ h => h) fun isTrue V₀ h₀ => ?_
  refine h₀.newLabel ⟨.int :: st, W.locals⟩ (fun _ _ h => h) fun done V ho => ?_
  have hTrue := ho.label isTrue ⟨st, W.locals⟩ (by simp)
  have hDone := ho.label done ⟨.int :: st, W.locals⟩ (by simp)
  have hne : isTrue ∉ [done] := by
    have := ho.nodup
    simp_all [eq_comm]
  have hstage : Stage Φ Γ lo hi env V := h.next ho.past (ho.count ▸ h.count)
  refine (hb hstage (ho.target (by simp) fun _ _ h => h)).seq fun W₁ hn hc => ?_
  refine (turns_pushInt 0).seq ?_
  refine (leads_goto (hn.target (ho.target (by simp) fun _ _ h => h))).seq ?_
  have h₁ : W.Past [done, isTrue] (W₁.jumped done).dead := ((ho.past.trans hn).jumped done).dead
  refine (leads_bindFresh [done] h₁ (ho.above hok (by simp)) (hn.mark hTrue) nofun).seq ?_
  have h₂ := h₁.bound [done] hne fun _ _ h => h
  refine (turns_pushInt 1).seq ?_
  refine (leads_bindFresh [] h₂ (ho.above hok (by simp)) (hn.mark hDone) fun _ =>
    .refl _).ready ?_ hc
  exact h₂.bound [] (by simp) fun _ _ h => h

theorem compiles_ofJump {branch : Bool → Nat → Emit Unit} (hr : e.recorded? = some .boolean)
    (hle : lo ≤ hi) (hb : ∀ {env W st want l}, Stage Φ Γ lo hi env W → W.Target l st →
      Yields env W st (branch want l) hi st) :
    (Piece.ofJump e branch).Compiles Φ Γ lo hi .boolean where
  recorded := hr
  le := hle
  value h := yields_materialize h hb
  jump _ h ht := hb h ht

/-! ## Operators -/

theorem compiles_bool {m : Mark} {b : Bool} (hm : m.ty = some .boolean) :
    (Expr.bool m b).piece.Compiles Φ Γ lo lo .boolean where
  recorded := hm
  le := Nat.le_refl _
  value h := (turns_pushBool b).yields h.count
  jump {env W st want l} _ h ht := by
    change Yields env W st (if b = want then jump .goto l else pure ()) lo st
    split
    · exact (leads_goto ht).ready ((World.Past.refl W).jumped l).dead h.count
    · exact turns_nothing.yields h.count

theorem compiles_not {m : Mark} (hm : m.ty = some .boolean)
    (hp : e.piece.Compiles Φ Γ lo hi .boolean) :
    (Expr.not m e).piece.Compiles Φ Γ lo hi .boolean where
  recorded := hm
  le := hp.le
  value {env W st} h := by
    refine (hp.value h).seq fun W₁ hn hc => ?_
    refine (turns_pushInt 1).seq ?_
    exact (turns_op _ (by decide) rfl).ready hn hc
  jump ht h hl := hp.jump ht h hl

theorem yields_arithmetic {tok : Token} {sign : String} {left right : Piece}
    (hsign : (ArithOp.ofText? sign).isSome = true) (hl : left.Compiles Φ Γ lo mid .int)
    (hr : right.Compiles Φ Γ mid hi .int) (h : Stage Φ Γ lo hi env W) :
    Yields env W st (arithmetic tok sign left right) hi (.int :: st) := by
  unfold arithmetic
  refine (hl.value (h.upTo hr.le)).seq fun W₁ hn₁ hc₁ => ?_
  refine (hr.value (h.next hn₁ hc₁)).seq fun W₂ hn₂ hc₂ => ?_
  obtain ⟨o, ho⟩ := Option.isSome_iff_exists.mp hsign
  rw [ho]
  refine Turns.ready ?_ (hn₁.trans hn₂) hc₂
  cases o <;> exact turns_op _ (by decide) rfl

/-- Both sides of a connective are conditions; the second one may be skipped. -/
theorem yields_connective {sign : String} {left right : Piece} {want : Bool}
    (hl : left.Compiles Φ Γ lo mid .boolean) (hr : right.Compiles Φ Γ mid hi .boolean)
    (h : Stage Φ Γ lo hi env W) (ht : W.Target l st) :
    Yields env W st (connective sign left right want l) hi st := by
  unfold connective
  split
  · refine writes_of_ok fun hok => ?_
    refine (World.Opened.refl W).newLabel ⟨st, W.locals⟩ (fun _ _ h => h) fun skip V ho => ?_
    have hSkip := ho.label skip ⟨st, W.locals⟩ (by simp)
    have hstage : Stage Φ Γ lo hi env V := h.next ho.past (ho.count ▸ h.count)
    refine (hl.jump rfl (hstage.upTo hr.le) (ho.target (by simp) fun _ _ h => h)).seq fun W₁ hn₁ hc₁ => ?_
    have h₁ := ho.past.trans hn₁
    refine (hr.jump rfl (h.next h₁ hc₁) (h₁.target ht)).seq fun W₂ hn₂ hc₂ => ?_
    have h₂ : W.Past [skip] W₂ := h₁.trans hn₂
    refine (leads_bindFresh [] h₂ (ho.above hok (by simp)) (hn₂.mark (hn₁.mark hSkip))
      fun _ => ⟨rfl, h₂.locals⟩).ready ?_ hc₂
    exact h₂.bound [] (by simp) fun _ _ h => h
  · refine (hl.jump rfl (h.upTo hr.le) ht).seq fun W₁ hn₁ hc₁ => ?_
    exact (hr.jump rfl (h.next hn₁ hc₁) (hn₁.target ht)).ready hn₁

theorem isBranch_intBranch (o : CompareOp) (want : Bool) :
    IsBranch (if want then o.intBranch else o.intBranch.negate) [.int, .int] := by
  cases o <;> cases want <;> exact ⟨by decide, by decide, fun _ => rfl⟩

theorem isBranch_zeroBranch (o : CompareOp) (want : Bool) :
    IsBranch (if want then o.zeroBranch else o.zeroBranch.negate) [.int] := by
  cases o <;> cases want <;> exact ⟨by decide, by decide, fun _ => rfl⟩

theorem isBranch_equality (o : CompareOp) (want : Bool) :
    IsBranch (if want then (if o = .ne then .ifEq else .ifNe)
      else Opcode.negate (if o = .ne then .ifEq else .ifNe)) [.int] := by
  cases o <;> cases want <;> exact ⟨by decide, by decide, fun _ => rfl⟩

theorem comparable_cases {sign : String} {t : Ty} (h : Typing.comparable sign t t = true) :
    t = .int ∨ t = .boolean ∨ t = .string := by
  unfold Typing.comparable at h
  split at h
  · simpa [or_assoc] using h
  · rcases (by simpa using h : t = .int ∨ t = .string) with h | h
    · exact .inl h
    · exact .inr (.inr h)

theorem yields_comparison {tok : Token} {sign : String} {left right : Piece} {want : Bool}
    (hsign : (CompareOp.ofText? sign).isSome = true) (hc : Typing.comparable sign t t = true)
    (hl : left.Compiles Φ Γ lo mid t) (hr : right.Compiles Φ Γ mid hi t)
    (h : Stage Φ Γ lo hi env W) (ht : W.Target l st) :
    Yields env W st (comparison tok sign left right want l) hi st := by
  unfold comparison
  rw [typeOf_eq hl.recorded, pure_bind]
  obtain ⟨o, ho⟩ := Option.isSome_iff_exists.mp hsign
  rw [ho]
  refine (hl.value (h.upTo hr.le)).seq fun W₁ hn₁ hc₁ => ?_
  simp only [pure_bind]
  -- Texts are compared by their own methods, which take both operands.
  by_cases hs : t = .string
  · subst hs
    rw [if_pos rfl]
    refine (hr.value (h.next hn₁ hc₁)).seq fun W₂ hn₂ hc₂ => ?_
    have hn := hn₁.trans hn₂
    split
    · refine (turns_callVirtual [.ref] [.int] (by decide) (by decide)).seq ?_
      exact ((isBranch_equality o want).leads (hn.target ht)).ready (hn.jumped l) hc₂
    · refine (turns_callVirtual [.ref] [.int] (by decide) (by decide)).seq ?_
      exact ((isBranch_zeroBranch o want).leads (hn.target ht)).ready (hn.jumped l) hc₂
  · rw [if_neg hs]
    have hk : t.kinds = [.int] := by
      rcases comparable_cases hc with rfl | rfl | rfl
      · rfl
      · rfl
      · exact absurd rfl hs
    rw [hk]
    split
    · exact ((isBranch_zeroBranch o want).leads (hn₁.target ht)).ready (hn₁.jumped l)
        (Nat.le_trans hc₁ hr.le)
    · refine (hr.value (h.next hn₁ hc₁)).seq fun W₂ hn₂ hc₂ => ?_
      have hn := hn₁.trans hn₂
      rw [hk]
      exact ((isBranch_intBranch o want).leads (hn.target ht)).ready (hn.jumped l) hc₂

/-- The value of a piece as a value of another type. -/
theorem yields_valueAs {p : Piece} {want : Ty} (hp : p.Compiles Φ Γ lo hi t)
    (ha : t.assignable want = true) (hu : t ≠ .unit) (h : Stage Φ Γ lo hi env W) :
    Yields env W st (valueAs p want) hi (want.localKind.kind :: st) := by
  unfold valueAs
  rw [typeOf_eq hp.recorded, pure_bind]
  refine (hp.value h).seq fun W₁ hn hc => ?_
  rw [Ty.kinds_of_ne hu]
  exact (turns_coerce ha).ready hn hc

/-! ## Texts -/

theorem calls_single {d r : String} {k : Kind} {res : List Kind} (hd : IsField d [k])
    (hc : Clean d) (hr : resultKinds? r.toList = some res) (hrc : Clean r) :
    Calls (Jvm.method [d] r) [k] res where
  kinds := descriptorKinds?_join (.cons hd .nil) hr
  clean := .append (.append (.append (by decide) (.join (by simpa using hc))) (by decide)) hrc

theorem turns_append {d : String} {k : Kind} (hd : IsField d [k]) (hc : Clean d) :
    Turns env W (k :: .ref :: st) (append d) (.ref :: st) :=
  turns_callVirtual [k] [.ref] (calls_single hd hc (by decide) (by decide)) (by decide)

theorem turns_callShow : Turns env W (.ref :: st) callShow (.ref :: st) := by
  unfold callShow
  have hmark : Turns env W (.ref :: st) (modify fun s => { s with usesShow := true })
      (.ref :: st) := fun s hs => ⟨.of_pool (.refl _) rfl (Nat.le_refl _), _, { hs with }, rfl⟩
  refine hmark.seq ?_
  refine writes_read_bind ?_
  exact turns_callStatic [.ref] [.ref] (by decide) (by decide)

theorem turns_arrayText (s : Scalar) :
    Turns env W (.ref :: st) (callStatic Jvm.arrays "toString" (arrayTextDescriptor s))
      (.ref :: st) := by
  cases s <;> exact turns_callStatic [.ref] [.ref] (by decide) (by decide)

/-- What is left on the stack can be printed. -/
theorem writes_printable {p : Piece} (hp : p.Compiles Φ Γ lo hi t) (ht : t.printable = true)
    (h : Stage Φ Γ lo hi env W) :
    Writes env (W.withStack st) (printable p) fun t' V =>
      ∃ k, IsField t'.printDescriptor [k] ∧ Clean t'.printDescriptor ∧
        W.Ready hi (k :: st) V := by
  unfold printable
  rw [typeOf_eq hp.recorded, pure_bind]
  refine (hp.value h).seq fun W₁ hn hc => ?_
  have hready {k : Kind} : W.Ready hi (k :: st) (W₁.withStack (k :: st)) := ⟨W₁, hn, hc, rfl⟩
  have hshow : Writes env (W₁.withStack (.ref :: st)) (do callShow; return Ty.string) fun t' V =>
      ∃ k, IsField t'.printDescriptor [k] ∧ Clean t'.printDescriptor ∧ W.Ready hi (k :: st) V :=
    turns_callShow.seq (writes_pure ⟨.ref, isField_class (by decide),
      show Clean (Jvm.reference Jvm.string) by decide, hready⟩)
  cases t with
  | fn params result => cases ht
  | list s =>
    split
    · exact hshow
    · exact writes_pure ⟨.ref, isField_class (by decide),
        show Clean (Jvm.reference Jvm.object) by decide, hready⟩
  | array s =>
    split
    · exact hshow
    · exact (turns_arrayText s).seq (writes_pure ⟨.ref, isField_class (by decide),
        show Clean (Jvm.reference Jvm.string) by decide, hready⟩)
  | scalar s =>
    have hs : s ≠ .unit := by simpa [Ty.printable] using ht
    rw [Ty.kinds_of_ne fun he => hs (Ty.scalar.inj he)]
    split
    · rename_i hany
      obtain rfl : s = .any := by simpa [Ty.needsShow] using hany
      exact hshow
    · obtain ⟨hfield, hclean⟩ := Scalar.isField_descriptor hs
      exact writes_pure ⟨_, hfield, hclean, hready⟩

theorem turns_appendChars (cs : List Char) :
    Turns env W (.ref :: st) (appendChars cs) (.ref :: st) := by
  unfold appendChars
  split
  · exact turns_nothing
  · refine (turns_pushString _).seq ?_
    exact turns_append (isField_class (by decide)) (show Clean (Jvm.reference Jvm.string) by decide)

/-- Templates in order, from the place `pos` on, in a text of `size` characters. -/
def SplicesCompile (Φ : Signatures) (Γ : List Symbol) (size hi : Nat) :
    Nat → Nat → List (Int × Piece) → Prop
  | lo, _, [] => lo = hi
  | lo, pos, (offset, p) :: splices =>
    (pos ≤ offset ∧ offset ≤ size) ∧ ∃ mid t, p.Compiles Φ Γ lo mid t ∧ t.printable = true ∧
      SplicesCompile Φ Γ size hi mid offset.toNat splices

theorem SplicesCompile.le {size hi : Nat} : ∀ {splices : List (Int × Piece)} {lo pos : Nat},
    SplicesCompile Φ Γ size hi lo pos splices → lo ≤ hi
  | [], _, _, h => Nat.le_of_eq h
  | _ :: _, _, _, ⟨_, _, _, hp, _, hs⟩ => Nat.le_trans hp.le hs.le

/-- The places of the templates are in the text and in order. -/
theorem yields_appendSplices {tok : Token} {size : Nat} : ∀ {splices : List (Int × Piece)}
    {lo pos : Nat} {rest : List Char} {W : World}, SplicesCompile Φ Γ size hi lo pos splices →
      pos + rest.length = size → Stage Φ Γ lo hi env W →
      Yields env W (.ref :: st) (appendSplices tok pos rest splices) hi (.ref :: st)
  | [], lo, pos, rest, W, hs, _, h => (turns_appendChars rest).yields (hs ▸ h.count)
  | (offset, p) :: splices, lo, pos, rest, W, hs, hsize, h => by
    obtain ⟨⟨hlow, hhigh⟩, mid, t, hp, ht, hs⟩ := hs
    have hstep : pos + (offset - pos).toNat = offset.toNat := by omega
    unfold appendSplices
    rw [if_neg (by omega)]
    refine (turns_appendChars _).seq ?_
    refine writes_bind (writes_printable hp ht (h.upTo hs.le)) fun t' V ⟨k, hfield, hclean, hready⟩ => ?_
    obtain ⟨W₁, hn, hc, rfl⟩ := hready
    refine (turns_append hfield hclean).seq ?_
    rw [hstep]
    refine (yields_appendSplices hs ?_ (h.next hn hc)).ready hn
    rw [List.length_drop]
    omega

theorem yields_template {tok : Token} {text : String} {splices : List (Int × Piece)}
    (hs : SplicesCompile Φ Γ text.toList.length hi lo 0 splices) (h : Stage Φ Γ lo hi env W) :
    Yields env W st (template tok text splices) hi (.ref :: st) := by
  unfold template
  refine (turns_onClass (.ref :: st) (by decide) rfl _).seq ?_
  refine (turns_op (.ref :: .ref :: st) (by decide) rfl).seq ?_
  refine (turns_callInit [] [] (by decide)).seq ?_
  refine (yields_appendSplices hs (Nat.zero_add _) h).seq fun W₁ hn hc => ?_
  exact (turns_callVirtual [] [.ref] (by decide) (by decide)).ready hn hc

end Pieces

end Emit
end Kotlet

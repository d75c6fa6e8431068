import Kotlet.Emit.Show
import Kotlet.Proofs.Emit.Piece

/-!
# The method that shows any object

It numbers its variables by itself, and what it stores in them is known at its labels only.

* `World.Comes` : a world after a part of the method, with the variables that have values there;
* `writes_showPlainArray`, `writes_findElements`, `writes_showElements` : the parts;
* `writes_showSteps` : the whole method, whose end cannot be reached.
-/

namespace Kotlet
namespace Emit

open ClassFile

/-- A world after steps that leave an empty stack and values in these variables. -/
def World.Comes (W : World) (ls : Nat → Option Kind) (V : World) : Prop :=
  ∃ W', W.Next W' ∧ W'.locals = ls ∧ V = W'.withStack []

section Show

variable {env : Env} {W : World} {st : List Kind} {l : Nat}

theorem leads_areturn (h : W.result = [.ref]) :
    Leads env (W.withStack (.ref :: st)) (op .areturn) (W.dead.withStack []) :=
  leads_end st [] (by decide) (by rw [h]; decide) rfl

theorem leads_castOr {cls : String} (hs : W.Has shownSlot) (ht : W.Target l st) :
    Leads env (W.withStack st) (castOr cls l) ((W.jumped l).withStack (.ref :: st)) := by
  unfold castOr
  refine (turns_loadAs hs rfl).seq ?_
  refine (turns_onClass (.int :: st) (by decide) rfl cls).seq ?_
  refine (leads_jump (by decide) (by decide) rfl ht).seq ?_
  have hs' : (W.jumped l).Has shownSlot := hs
  refine (turns_loadAs hs' rfl).seq ?_
  exact turns_checkCast cls

theorem turns_appendText : Turns env W (.ref :: .ref :: st) appendText (.ref :: st) :=
  turns_append (isField_class (by decide)) (show Clean (Jvm.reference Jvm.string) by decide)

/-- An array of plain values is shown; otherwise control goes on. -/
theorem writes_showPlainArray {s : Scalar} (hs : W.Has shownSlot) (hres : W.result = [.ref]) :
    Writes env (W.withStack []) (showPlainArray s) fun _ V => W.Comes W.locals V := by
  refine writes_of_ok fun hok => ?_
  unfold showPlainArray
  refine (World.Opened.refl W).newLabel ⟨[], W.locals⟩ (fun _ _ h => h) fun next V ho => ?_
  refine (leads_castOr (ho.past.has hs) (ho.target (by simp) fun _ _ h => h)).seq ?_
  refine (turns_arrayText s).seq ?_
  have hpast := ho.past.jumped next
  refine (leads_areturn (hpast.result.trans hres)).seq ?_
  refine (leads_bindFresh [] hpast.dead (ho.above hok (by simp))
    (ho.label next ⟨[], W.locals⟩ (by simp)) fun h => absurd h Bool.false_ne_true).writes ?_
  exact ⟨_, hpast.dead.bound [] (by simp) fun _ _ h => h, rfl, rfl⟩

/-- The elements of a list or an array of objects are stored; otherwise control goes elsewhere. -/
theorem writes_findElements (hs : W.Has shownSlot) (hslot : elementsSlot.slot < W.next)
    (hfree : W.locals elementsSlot.slot = none) (ht : W.Target l []) :
    Writes env (W.withStack []) (findElements l) fun _ V =>
      W.Comes (W.storing elementsSlot).locals V := by
  refine writes_of_ok fun hok => ?_
  have hmono : ∀ k kind, W.locals k = some kind → (W.storing elementsSlot).locals k = some kind :=
    ((World.Past.refl W).storing fun kind hk => by rw [hfree] at hk; cases hk).locals
  unfold findElements
  refine (World.Opened.refl W).newLabel ⟨[], W.locals⟩ (fun _ _ h => h) fun notList V₀ h₀ => ?_
  refine h₀.newMark ⟨[], (W.storing elementsSlot).locals⟩ (fun _ k kind hk => ?_) fun join V ho => ?_
  · have hnext := h₀.past.next
    change (if k = elementsSlot.slot then _ else W.locals k) = some kind at hk
    split at hk
    · omega
    · exact Nat.lt_of_lt_of_le (hok.locals k kind hk) hnext
  have hne : notList ∉ [join] := by
    have := ho.nodup
    simp_all [eq_comm]
  have hstored : ∀ {ls : List Nat} {V' : World}, W.Past ls V' → W.Past ls (V'.storing elementsSlot) :=
    fun h => h.storing fun kind hk => by rw [hfree] at hk; cases hk
  have hJoin := ho.label join ⟨[], (W.storing elementsSlot).locals⟩ (by simp)
  refine (leads_castOr (ho.past.has hs) (ho.target (by simp) fun _ _ h => h)).seq ?_
  refine (turns_callInterface [] [.ref] (by decide) (by decide) (by decide)).seq ?_
  refine (leads_store (Nat.lt_of_lt_of_le hslot (ho.past.jumped notList).next)).seq ?_
  have h₁ := hstored (ho.past.jumped notList)
  have hjoin : ((V.jumped notList).storing elementsSlot).Target join [] := by
    refine ⟨.inl ?_, _, hJoin, rfl, fun k kind hk => ?_⟩
    · rw [h₁.opens]
      exact List.mem_cons_self
    · change (if k = elementsSlot.slot then _ else V.locals k) = _
      rw [ho.locals]
      exact hk
  refine (leads_goto hjoin).seq ?_
  have h₂ := (h₁.jumped join).dead
  refine (leads_bindFresh [join] h₂ (ho.above hok (by simp))
    (ho.label notList ⟨[], W.locals⟩ (by simp)) fun h => absurd h Bool.false_ne_true).seq ?_
  have h₃ := h₂.bound [join] hne fun _ _ h => h
  refine (leads_castOr (h₃.has hs) (h₃.target ht)).seq ?_
  refine (leads_store (Nat.lt_of_lt_of_le hslot (h₃.jumped l).next)).seq ?_
  have h₄ := hstored (h₃.jumped l)
  refine (leads_bindFresh [] h₄ (ho.above hok (by simp)) hJoin fun _ => .refl _).writes ?_
  exact ⟨_, h₄.bound [] (by simp) hmono, rfl, rfl⟩

/-- The elements are shown in brackets. -/
theorem writes_showElements (he : W.Has elementsSlot) (hslot : indexSlot.slot < W.next)
    (htext : W.locals textSlot.slot = none) (hindex : W.locals indexSlot.slot = none)
    (hres : W.result = [.ref]) :
    Writes env (W.withStack []) showElements fun _ V =>
      ∃ W', W.Next W' ∧ V = W'.dead.withStack [] := by
  unfold showElements
  refine (turns_onClass [.ref] (by decide) rfl _).seq ?_
  refine (turns_op [.ref, .ref] (by decide) rfl).seq ?_
  refine (turns_pushString _).seq ?_
  refine (turns_callInit [.ref] [] (by decide)).seq ?_
  have hlow : textSlot.slot < W.next := Nat.lt_trans (by decide) hslot
  refine (leads_store hlow).seq ?_
  have h₁ : W.Next (W.storing textSlot) :=
    (World.Past.refl W).storing fun kind hk => by rw [htext] at hk; cases hk
  refine (turns_pushInt _).seq ?_
  refine (leads_store (Nat.lt_of_lt_of_le hslot h₁.next)).seq ?_
  have h₂ : W.Next ((W.storing textSlot).storing indexSlot) :=
    h₁.storing fun kind hk => by rw [hindex] at hk; cases hk
  have ht : ((W.storing textSlot).storing indexSlot).Has textSlot := rfl
  have hi : ((W.storing textSlot).storing indexSlot).Has indexSlot := rfl
  have he' := h₂.has he
  have hres' := h₂.result.trans hres
  -- From here on the three variables have values, at all labels of the loop.
  generalize (W.storing textSlot).storing indexSlot = L at h₂ ht hi he' hres'
  refine writes_of_ok fun hok => ?_
  refine (World.Opened.refl L).newLabel ⟨[], L.locals⟩ (fun _ _ h => h) fun top V₀ h₀ => ?_
  refine h₀.newLabel ⟨[], L.locals⟩ (fun _ _ h => h) fun first V₁ h₁ => ?_
  refine h₁.newLabel ⟨[], L.locals⟩ (fun _ _ h => h) fun done V ho => ?_
  have htarget {l : Nat} (hl : l = top ∨ l = first ∨ l = done) :
      (V.looping top L.locals).Target l [] :=
    ho.looping_target (by rcases hl with rfl | rfl | rfl <;> simp)
  have hloop : (L.within top).Past [done, first] (V.looping top L.locals) :=
    ho.looping [done, first] [] rfl
  refine (ho.bindTop hok (by simp)).seq ?_
  refine (turns_loadAs (hloop.has hi) rfl).seq ?_
  refine (turns_loadAs (hloop.has he') rfl).seq ?_
  refine (turns_op [.int, .int] (by decide) rfl).seq ?_
  refine (leads_jump (by decide) (by decide) rfl (htarget (.inr (.inr rfl)))).seq ?_
  have h₃ := hloop.jumped done
  refine (turns_loadAs (h₃.has hi) rfl).seq ?_
  refine (leads_jump (by decide) (by decide) rfl
    (((World.Past.refl _).jumped done).target (htarget (.inr (.inl rfl))))).seq ?_
  have h₄ := h₃.jumped first
  refine (turns_loadAs (h₄.has ht) rfl).seq ?_
  refine (turns_pushString _).seq ?_
  refine turns_appendText.seq ?_
  refine (turns_op [] (by decide) rfl).seq ?_
  obtain ⟨hfirst, h₅, -, htop⟩ := ho.bindNext hok
    (((World.Past.refl (V.looping top L.locals)).jumped done).jumped first)
  refine hfirst.seq ?_
  refine (turns_loadAs (h₅.has ht) rfl).seq ?_
  refine (turns_loadAs (h₅.has he') rfl).seq ?_
  refine (turns_loadAs (h₅.has hi) rfl).seq ?_
  refine (turns_op [.ref, .ref] (by decide) rfl).seq ?_
  refine writes_read_bind ?_
  refine (turns_callStatic [.ref] [.ref] (by decide) (by decide)).seq ?_
  refine turns_appendText.seq ?_
  refine (turns_op [] (by decide) rfl).seq ?_
  refine (turns_increment (h₅.has hi) rfl (by decide)).seq ?_
  refine (leads_goto htop).seq ?_
  obtain ⟨hexit, hafter⟩ := leads_exit (h₅.jumped top) (ho.above hok (by simp))
    (ho.label done ⟨[], L.locals⟩ (by simp))
  refine hexit.seq ?_
  refine (turns_loadAs (hafter.has ht) rfl).seq ?_
  refine (turns_pushString _).seq ?_
  refine turns_appendText.seq ?_
  refine (turns_callVirtual [] [.ref] (by decide) (by decide)).seq ?_
  exact (leads_areturn (hafter.result.trans hres')).writes ⟨_, h₂.trans hafter, rfl⟩

/-- The end of the method cannot be reached. -/
theorem writes_showSteps (hls : W.locals = fun k => [Kind.ref][k]?) (hslot : elementsSlot.slot < W.next)
    (hres : W.result = [.ref]) :
    Writes env (W.withStack []) showSteps fun _ V => W.Next V ∧ V.live = false := by
  have hshown : W.Has shownSlot := by
    rw [World.Has, hls]
    rfl
  unfold showSteps
  refine writes_bind (writes_showPlainArray hshown hres) fun _ _ ⟨W₁, hn₁, hl₁, hV₁⟩ => ?_
  rw [hV₁]
  refine writes_bind (writes_showPlainArray (hn₁.has hshown) (hn₁.result.trans hres))
    fun _ _ ⟨W₂, hn₂, hl₂, hV₂⟩ => ?_
  rw [hV₂]
  have hn := hn₁.trans hn₂
  have hls₂ : W₂.locals = fun k => [Kind.ref][k]? := hl₂.trans (hl₁.trans hls)
  refine writes_of_ok fun hok => ?_
  refine (World.Opened.refl W₂).newLabel ⟨[], W₂.locals⟩ (fun _ _ h => h) fun other V ho => ?_
  have hlsV : V.locals = fun k => [Kind.ref][k]? := ho.locals.trans hls₂
  have hslotV := Nat.lt_of_lt_of_le hslot (Nat.le_trans hn.next ho.past.next)
  refine writes_bind (writes_findElements (ho.past.has (hn.has hshown)) hslotV (by rw [hlsV]; rfl)
    (ho.target (by simp) fun _ _ h => h)) fun _ _ ⟨W₃, hn₃, hl₃, hV₃⟩ => ?_
  rw [hV₃]
  have hfree {l : Local} (hne : l.slot ≠ elementsSlot.slot) (hl : [Kind.ref][l.slot]? = none) :
      W₃.locals l.slot = none := by
    rw [hl₃]
    change (if l.slot = elementsSlot.slot then _ else V.locals l.slot) = none
    rw [if_neg hne, hlsV]
    exact hl
  refine writes_bind (writes_showElements (by rw [World.Has, hl₃]; rfl)
    (Nat.lt_of_lt_of_le (Nat.lt_trans (by decide) hslotV) hn₃.next) (hfree (by decide) rfl)
    (hfree (by decide) rfl) (hn₃.result.trans (ho.past.result.trans (hn.result.trans hres))))
    fun _ _ ⟨W₄, hn₄, hV₄⟩ => ?_
  rw [hV₄]
  have h₄ := (ho.past.trans (hn₃.trans hn₄)).dead
  refine (leads_bindFresh [] h₄ (ho.above hok (by simp))
    ((hn₃.trans hn₄).mark (ho.label other ⟨[], W₂.locals⟩ (by simp)))
    fun h => absurd h Bool.false_ne_true).seq ?_
  have h₅ := h₄.bound [] (by simp) fun _ _ h => h
  refine (turns_loadAs (h₅.has (hn.has hshown)) rfl).seq ?_
  refine (turns_callStatic [.ref] [.ref] (by decide) (by decide)).seq ?_
  exact (leads_areturn (h₅.result.trans (hn.result.trans hres))).writes
    ⟨((hn.trans h₅).dead).withStack [], rfl⟩

end Show

end Emit
end Kotlet

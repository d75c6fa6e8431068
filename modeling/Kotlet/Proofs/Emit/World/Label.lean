import Kotlet.Proofs.Emit.World.Straight

/-!
# Labels

* `World.Opened`, `World.Opened.newLabel` : fresh labels;
* `leads_jump`, `leads_goto` : branches;
* `leads_bindLabel`, `leads_bindFresh` : a label gets its place;
* `World.Opened.bindTop`, `World.within`, `leads_exit` : the head of a loop, what is seen inside, and
  the label after it.
-/

namespace Kotlet
namespace Emit

open ClassFile

section Labels

variable {env : Env} {W : World} {st st' : List Kind} {ls : Nat → Option Kind} {k l : Nat}

/-- The world with a fresh label. -/
def World.labelled (W : World) (mark : Shape) : World :=
  { W with marks := W.marks ++ [mark], opens := W.marks.length :: W.opens }

@[simp] theorem World.labelled_mark (W : World) (mark : Shape) :
    (W.labelled mark).marks[W.marks.length]? = some mark := by
  simp [World.labelled]

@[simp] theorem World.labelled_length (W : World) (mark : Shape) :
    (W.labelled mark).marks.length = W.marks.length + 1 := by
  simp [World.labelled]

theorem World.labelled_prefix (W : World) (mark : Shape) :
    W.marks <+: (W.labelled mark).marks := List.prefix_append _ _

/-- A fresh label, and the steps after it. -/
theorem writes_newLabel {α : Type} {f : Nat → Emit α} {Q : α → World → Prop} (mark : Shape)
    (hm : W.Ok → ∀ k kind, mark.locals k = some kind → k < W.next)
    (h : Writes env ((W.labelled mark).withStack st) (f W.marks.length) Q) :
    Writes env (W.withStack st) (newLabel >>= f) Q := by
  have hnew : Writes env (W.withStack st) newLabel fun l w =>
      l = W.marks.length ∧ w = (W.labelled mark).withStack st := by
    intro s hs
    obtain ⟨heq, hflow⟩ := hs.flows.newLabel mark
    refine ⟨.of_pool (.refl _) rfl (Nat.le_refl _), (W.labelled mark).withStack st,
      ⟨hs.pool, hflow, hs.slots, hs.next, hs.names, ?_⟩, heq, rfl⟩
    have hlen := W.labelled_length mark
    refine { hs.ok with marks := fun m hmem k kind hk => ?_, tops := fun t ht => ?_, fresh := ?_ }
    · rcases List.mem_append.mp hmem with hmem | hmem
      · exact hs.ok.marks m hmem k kind hk
      · obtain rfl := List.mem_singleton.mp hmem
        exact hm { hs.ok with } k kind hk
    · exact Nat.lt_of_lt_of_eq (Nat.lt_succ_of_lt (hs.ok.tops t ht)) hlen.symm
    · exact Nat.le_trans (Nat.le_succ_of_le hs.ok.fresh) (Nat.le_of_eq hlen.symm)
  refine writes_bind hnew fun l w ⟨hl, hw⟩ => ?_
  rw [hl, hw]
  exact h

theorem World.Past.labelled {V : World} {ls : List Nat} (h : V.Past ls W) (mark : Shape) :
    V.Past (W.marks.length :: ls) (W.labelled mark) :=
  { h with
    marks := h.marks.trans (W.labelled_prefix mark)
    opens := congrArg (W.marks.length :: ·) h.opens }

/-- The second world is the first one with fresh labels, the last one first. -/
structure World.Opened (W : World) (ms : List (Nat × Shape)) (V : World) : Prop where
  past : W.Past (ms.map Prod.fst) V
  label : ∀ l mark, (l, mark) ∈ ms → V.marks[l]? = some mark
  fresh : ∀ l ∈ ms.map Prod.fst, W.marks.length ≤ l
  order : (ms.map Prod.fst).Pairwise (· > ·)
  locals : V.locals = W.locals
  live : V.live = W.live
  count : V.count = W.count
  unused : V.fresh = W.fresh

theorem World.Opened.refl (W : World) : W.Opened [] W :=
  ⟨.refl W, by simp, by simp, by simp, rfl, rfl, rfl, rfl⟩

/-- A fresh label among others, whose variables may get their values later, and the steps after it. -/
theorem World.Opened.newMark {α : Type} {f : Nat → Emit α} {Q : α → World → Prop} {V : World}
    {ms : List (Nat × Shape)} (h : W.Opened ms V) (mark : Shape)
    (hm : V.Ok → ∀ k kind, mark.locals k = some kind → k < V.next)
    (hf : ∀ l V', W.Opened ((l, mark) :: ms) V' → Writes env (V'.withStack st) (f l) Q) :
    Writes env (V.withStack st) (newLabel >>= f) Q := by
  refine writes_newLabel mark hm (hf _ _ ?_)
  have hlast := V.labelled_mark mark
  refine ⟨h.past.labelled mark, fun l m hl => ?_, fun l hl => ?_, ?_, h.locals, h.live, h.count,
    h.unused⟩
  · rcases List.mem_cons.mp hl with heq | hl
    · obtain ⟨rfl, rfl⟩ := Prod.mk.inj heq
      exact hlast
    · exact Code.getElem?_of_prefix (V.labelled_prefix mark) (h.label l m hl)
  · rcases List.mem_cons.mp hl with rfl | hl
    · exact h.past.marks.length_le
    · exact h.fresh l hl
  · refine List.pairwise_cons.mpr ⟨fun l hmem => ?_, h.order⟩
    obtain ⟨x, hx, rfl⟩ := List.mem_map.mp hmem
    exact (List.getElem?_eq_some_iff.mp (h.label x.1 x.2 hx)).1

/-- A fresh label among others, and the steps after it. -/
theorem World.Opened.newLabel {α : Type} {f : Nat → Emit α} {Q : α → World → Prop} {V : World}
    {ms : List (Nat × Shape)} (h : W.Opened ms V) (mark : Shape)
    (hm : ∀ k kind, mark.locals k = some kind → W.locals k = some kind)
    (hf : ∀ l V', W.Opened ((l, mark) :: ms) V' → Writes env (V'.withStack st) (f l) Q) :
    Writes env (V.withStack st) (newLabel >>= f) Q :=
  h.newMark mark (fun hok k kind hk => hok.locals k kind (by rw [h.locals]; exact hm k kind hk)) hf

theorem World.Opened.nodup {V : World} {ms : List (Nat × Shape)} (h : W.Opened ms V) :
    (ms.map Prod.fst).Nodup := h.order.imp fun hgt => Nat.ne_of_gt hgt

/-- Fresh labels are younger than the heads of the loops around them. -/
theorem World.Opened.above {V : World} {ms : List (Nat × Shape)} (h : W.Opened ms V) (hok : W.Ok)
    (hl : l ∈ ms.map Prod.fst) : ∀ t ∈ W.tops, t < l := fun t ht =>
  Nat.lt_of_lt_of_le (hok.tops t ht) (h.fresh l hl)

/-- A fresh label can be jumped to as long as its shape is at hand. -/
theorem World.Opened.target {V : World} {ms : List (Nat × Shape)} (h : W.Opened ms V)
    (hl : (l, ⟨st, ls⟩) ∈ ms) (hls : ∀ k kind, ls k = some kind → W.locals k = some kind) :
    V.Target l st := by
  refine ⟨.inl ?_, ⟨st, ls⟩, h.label l _ hl, rfl, by rw [h.locals]; exact hls⟩
  rw [h.past.opens]
  exact List.mem_append_left _ (List.mem_map.mpr ⟨_, hl, rfl⟩)

/-- The world after something has jumped to a label. -/
def World.jumped (W : World) (l : Nat) : World := { W with fresh := max W.fresh (l + 1) }

theorem World.Past.jumped {W W' : World} {ls : List Nat} (h : W.Past ls W') (l : Nat) :
    W.Past ls (W'.jumped l) := { h with }

theorem World.Ok.jumped {mark : Shape} (h : W.Ok) (hm : W.marks[l]? = some mark) :
    (W.jumped l).Ok := by
  refine { h with fresh := ?_ }
  have := (List.getElem?_eq_some_iff.mp hm).1
  exact Nat.max_le.mpr ⟨h.fresh, this⟩

/-- A branch on a condition. -/
theorem leads_jump {o : Opcode} (hb : o.isBranch = true) (he : o.endsBlock = false)
    (ha : o.act? st = some st') (ht : W.Target l st') :
    Leads env (W.withStack st) (jump o l) ((W.jumped l).withStack st') := by
  obtain ⟨hmem, mark, hm, hle⟩ := ht
  refine writes_onCode ((W.jumped l).withStack st') (fun p c h => ?_) ⟨rfl, ⟨rfl, rfl⟩, rfl⟩
    (fun hok => (hok.jumped hm).withStack) rfl
  have hflow := h.jump st' hb ha hm hmem hle
  rw [he, Bool.not_false, Bool.and_true] at hflow
  exact hflow

/-- A jump. -/
theorem leads_goto (ht : W.Target l st) :
    Leads env (W.withStack st) (jump .goto l) ((W.jumped l).dead.withStack st) := by
  obtain ⟨hmem, mark, hm, hle⟩ := ht
  refine writes_onCode ((W.jumped l).dead.withStack st) (fun p c h => ?_) ⟨rfl, ⟨rfl, rfl⟩, rfl⟩
    (fun hok => (hok.jumped hm).dead.withStack) rfl
  have hflow := h.jump (o := .goto) st (by decide) rfl hm hmem hle
  rw [show Opcode.goto.endsBlock = true by decide, Bool.not_true, Bool.and_false] at hflow
  exact hflow

/-- The world after a label has got its place. -/
def World.bound (W : World) (l : Nat) (ls : Nat → Option Kind) : World :=
  { W with opens := W.opens.erase l, fresh := max W.fresh (l + 1), live := true, locals := ls }

theorem World.Ok.bound (h : W.Ok) (hm : W.marks[l]? = some ⟨st, ls⟩) : (W.bound l ls).Ok := by
  refine { h with locals := fun k kind hk => ?_, fresh := ?_ }
  · exact h.marks _ (List.mem_of_getElem? hm) k kind hk
  · have := (List.getElem?_eq_some_iff.mp hm).1
    exact Nat.max_le.mpr ⟨h.fresh, this⟩

/-- A label that was made in between gets its place. -/
theorem World.Past.bound {V : World} {bs : List Nat} (as : List Nat)
    (h : V.Past (as ++ l :: bs) W) (hl : l ∉ as)
    (hm : ∀ k kind, V.locals k = some kind → ls k = some kind) :
    V.Past (as ++ bs) (W.bound l ls) :=
  { h with
    opens := by
      change W.opens.erase l = _
      rw [h.opens, List.append_assoc, List.erase_append_right _ hl, List.cons_append,
        List.erase_cons_head, List.append_assoc]
    locals := hm }

/-- A label gets its place. It is not older than the heads of the loops around it. -/
theorem leads_bindLabel (hm : W.marks[l]? = some ⟨st', ls⟩) (ho : l ∈ W.opens)
    (hle : W.live = true → Shape.Le ⟨st', ls⟩ ⟨st, W.locals⟩) (ht : ∀ t ∈ W.tops, t < l) :
    Leads env (W.withStack st) (bindLabel l) ((W.bound l ls).withStack st') :=
  writes_onCode ((W.bound l ls).withStack st') (fun _ _ h => h.bind hm ho hle ht) ⟨rfl, ⟨rfl, rfl⟩, rfl⟩
    (fun hok => (World.Ok.bound hok hm).withStack) rfl

/-- The same for a label that was made in between. -/
theorem leads_bindFresh {V : World} {bs : List Nat} (as : List Nat) (h : V.Past (as ++ l :: bs) W)
    (ht : ∀ t ∈ V.tops, t < l) (hm : W.marks[l]? = some ⟨st', ls⟩)
    (hle : W.live = true → Shape.Le ⟨st', ls⟩ ⟨st, W.locals⟩) :
    Leads env (W.withStack st) (bindLabel l) ((W.bound l ls).withStack st') := by
  refine leads_bindLabel hm ?_ hle (by rwa [h.tops])
  rw [h.opens]
  simp

/-- The world at the head of a loop. -/
def World.looping (W : World) (l : Nat) (ls : Nat → Option Kind) : World :=
  { W.bound l ls with tops := l :: W.tops }

theorem leads_bindTop (hm : W.marks[l]? = some ⟨st', ls⟩) (ho : l ∈ W.opens)
    (hle : W.live = true → Shape.Le ⟨st', ls⟩ ⟨st, W.locals⟩) (ht : ∀ t ∈ W.tops, t < l)
    (hf : W.fresh ≤ l) :
    Leads env (W.withStack st) (bindLabel l) ((W.looping l ls).withStack st') := by
  refine writes_onCode ((W.looping l ls).withStack st') (fun _ _ h => h.bindTop hm ho hle ht hf)
    ⟨rfl, ⟨rfl, rfl⟩, rfl⟩ (fun hok => ?_) rfl
  refine { World.Ok.bound hok hm with tops := fun t hmem => ?_ }
  rcases List.mem_cons.mp hmem with rfl | hmem
  · exact (List.getElem?_eq_some_iff.mp hm).1
  · exact hok.tops t hmem

/-- The head of a loop gets its place. -/
theorem World.Opened.bindTop {V : World} {ms : List (Nat × Shape)} (h : W.Opened ms V) (hok : W.Ok)
    (hl : (l, ⟨st, W.locals⟩) ∈ ms) :
    Leads env (V.withStack st) (bindLabel l) ((V.looping l W.locals).withStack st) := by
  have hmem : l ∈ ms.map Prod.fst := List.mem_map.mpr ⟨_, hl, rfl⟩
  refine leads_bindTop (h.label l _ hl) ?_ (fun _ => ?_) ?_ ?_
  · rw [h.past.opens]
    exact List.mem_append_left _ hmem
  · rw [h.locals]
    exact .refl _
  · rw [h.past.tops]
    exact h.above hok hmem
  · rw [h.unused]
    exact Nat.le_trans hok.fresh (h.fresh l hmem)

/-- The world as it is seen from inside a loop. -/
def World.within (W : World) (l : Nat) : World := { W with tops := l :: W.tops }

/-- The head of a loop is the first of its labels that gets a place. -/
theorem World.Opened.looping {V : World} {ms : List (Nat × Shape)} (h : W.Opened ms V)
    (as bs : List Nat) (hms : ms.map Prod.fst = as ++ l :: bs) :
    (W.within l).Past (as ++ bs) (V.looping l W.locals) := by
  have hl : l ∉ as := fun hmem => by
    have := h.order
    rw [hms, List.pairwise_append] at this
    exact Nat.lt_irrefl _ (this.2.2 l hmem l List.mem_cons_self)
  have hbound := (hms ▸ h.past).bound as hl (fun _ _ hk => hk)
  exact { hbound with tops := congrArg (l :: ·) hbound.tops }

/-- All labels of a loop can be jumped to from inside. -/
theorem World.Opened.looping_target {V : World} {ms : List (Nat × Shape)}
    (h : W.Opened ms V) (hk : (k, ⟨st, W.locals⟩) ∈ ms) :
    (V.looping l W.locals).Target k st := by
  refine ⟨?_, _, h.label k _ hk, .refl _⟩
  by_cases hkl : k = l
  · rw [hkl]
    exact .inr List.mem_cons_self
  · left
    change k ∈ V.opens.erase l
    rw [List.mem_erase_of_ne hkl, h.past.opens]
    exact List.mem_append_left _ (List.mem_map.mpr ⟨_, hk, rfl⟩)

/-- The labels that were made after the head of a loop are younger than all heads. -/
theorem World.Opened.above_within {V : World} {ms : List (Nat × Shape)} {k : Nat}
    (h : W.Opened ms V) (hok : W.Ok) (hk : k ∈ ms.map Prod.fst) (hlt : l < k) :
    ∀ t ∈ (W.within l).tops, t < k := fun t ht => by
  rcases List.mem_cons.mp ht with rfl | ht
  · exact hlt
  · exact h.above hok hk t ht

/-- Leaving a loop. -/
theorem World.Past.leave {W' : World} {bs : List Nat} (h : (W.within l).Past bs W') :
    W.Past bs { W' with tops := W.tops } := { h with tops := rfl }

theorem World.within_target (h : W.Target k st) : (W.within l).Target k st :=
  ⟨h.1.imp id (List.mem_cons_of_mem _), h.2⟩

/-- The head of a loop is not jumped to any more. -/
theorem Good.dropTops {s : State} {tops : List Nat} (h : Good W s) (ht : ∀ t ∈ tops, t ∈ W.tops) :
    Good { W with tops := tops } s :=
  { h with
    flows := h.flows.weaken rfl rfl ht (Nat.le_refl _) id (.refl _)
    ok := { h.ok with tops := fun t hmem => h.ok.tops t (ht t hmem) } }

/-- The steps after a loop. -/
theorem writes_leave {α : Type} {x : Emit α} {Q : α → World → Prop} {V : World} {bs : List Nat}
    (h : (V.within l).Past bs W) (hx : Writes env ({ W with tops := V.tops }.withStack st) x Q) :
    Writes env (W.withStack st) x Q :=
  hx.weaken fun _ hs => hs.dropTops fun _ ht => by
    change _ ∈ W.tops
    rw [h.tops]
    exact List.mem_cons_of_mem _ ht

/-- The world after a loop. -/
def World.exited (W V : World) (l : Nat) : World := { V with tops := W.tops }.bound l W.locals

/-- The label after a loop gets its place. -/
theorem leads_exit {V : World} (h : (V.within l).Past [k] W) (ht : ∀ t ∈ V.tops, t < k)
    (hm : W.marks[k]? = some ⟨st, V.locals⟩) :
    Leads env (W.dead.withStack st') (bindLabel k) ((V.exited W.dead k).withStack st) ∧
      V.Next (V.exited W.dead k) := by
  have hpast := h.dead.leave
  refine ⟨writes_leave h.dead (leads_bindFresh [] hpast ht hm nofun), ?_⟩
  exact hpast.bound [] (by simp) fun _ _ hk => hk

/-- The label of the next turn of a loop gets its place after the body. -/
theorem World.Opened.bindNext {V B : World} {top next exit : Nat}
    (h : W.Opened [(exit, ⟨st, W.locals⟩), (next, ⟨st, W.locals⟩), (top, ⟨st, W.locals⟩)] V)
    (hok : W.Ok) (hn : (V.looping top W.locals).Next B) :
    Leads env (B.withStack st) (bindLabel next) ((B.bound next W.locals).withStack st) ∧
      (W.within top).Past [exit] (B.bound next W.locals) ∧
      (B.bound next W.locals).Target exit st ∧ (B.bound next W.locals).Target top st := by
  have horder := h.order
  simp only [List.map_cons, List.map_nil, List.pairwise_cons, List.mem_cons, List.not_mem_nil,
    or_false, forall_eq_or_imp, forall_eq] at horder
  have hpast : (W.within top).Past [exit, next] B := (h.looping [exit, next] [] rfl).trans hn
  have hbound : (W.within top).Past [exit] (B.bound next W.locals) :=
    hpast.bound [exit] (by simp; omega) fun _ _ hk => hk
  refine ⟨?_, hbound, ⟨.inl ?_, _, hn.mark (h.label exit ⟨st, W.locals⟩ (by simp)), .refl _⟩,
    ⟨.inr ?_, _, hn.mark (h.label top ⟨st, W.locals⟩ (by simp)), .refl _⟩⟩
  · exact leads_bindFresh [exit] hpast (h.above_within hok (by simp) horder.2.1)
      (hn.mark (h.label next ⟨st, W.locals⟩ (by simp))) fun _ => ⟨rfl, hpast.locals⟩
  · rw [hbound.opens]
    exact List.mem_cons_self
  · rw [hbound.tops]
    exact List.mem_cons_self

end Labels

end Emit
end Kotlet

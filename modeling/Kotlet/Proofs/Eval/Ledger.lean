import Kotlet.Proofs.Eval.Watched

/-!
# What the stores of a run amount to

* `Event.KeepsValues`, `Event.AssignsOnce` : the constants of an activation keep their values until
  they are declared again, and those without one get it at most once;
* `Event.Inside` : the events of a run, those in its calls included;
* `Event.Admitted` : the same said event by event, with a ledger of what was stored so far. This is
  what a run can be followed with;
* `Event.AllAdmitted.keepsValues` and its kin : what is admitted event by event is right as a whole.
-/

namespace Kotlet

namespace Event

/-! ## What is right as a whole -/

/-- Whether a variable is declared. -/
def declares (id : SymbolId) : Event → Bool
  | declared id' _ _ => id' = id
  | _ => false

/-- Whether a variable is assigned. -/
def assigns (id : SymbolId) : Event → Bool
  | assigned id' => id' = id
  | _ => false

theorem eq_of_assigns {id : SymbolId} {e : Event} (h : e.assigns id = true) : e = assigned id := by
  cases e with
  | assigned id' => exact congrArg assigned (of_decide_eq_true h)
  | _ => cases h

/-- Whether a constant without a value is declared. -/
def opens (id : SymbolId) : Event → Bool
  | declared id' constant initialized => id' = id && constant && !initialized
  | _ => false

theorem eq_of_opens {id : SymbolId} {e : Event} (h : e.opens id = true) :
    e = declared id true false := by
  cases e with
  | declared id' constant initialized => simp_all [opens]
  | _ => cases h

/-- Whether anything is stored to variables of the activation. -/
def stores : Event → Bool
  | declared _ _ _ => true
  | assigned _ => true
  | updated _ => true
  | called _ _ => false
  | applied _ => false

/-- The events until a variable is declared again. -/
def span (id : SymbolId) (es : List Event) : List Event := es.takeWhile fun e => !e.declares id

/-- From a declaration of a constant to the next one it is never updated, and never assigned if it
has a value. -/
def KeepsValues (es : List Event) : Prop :=
  ∀ before id initialized after, es = before ++ declared id true initialized :: after →
    updated id ∉ span id after ∧ (initialized = true → assigned id ∉ span id after)

/-- From a declaration of a constant without a value to the next one it is assigned at most once. -/
def AssignsOnce (es : List Event) : Prop :=
  ∀ before id after, es = before ++ declared id true false :: after →
    ((span id after).filter (assigns id)).length ≤ 1

/-- The events of a run, at any depth. -/
inductive Inside (e : Event) : List Event → Prop where
  | here {es : List Event} (h : e ∈ es) : Inside e es
  | called {es inner : List Event} {name : String} (h : called name inner ∈ es) (hi : Inside e inner) :
    Inside e es
  | applied {es inner : List Event} (h : applied inner ∈ es) (hi : Inside e inner) : Inside e es

/-! ## Event by event -/

/-- How a variable stands since its last declaration: it is free, a constant without a value, a
constant that was assigned, or a constant with a value from the beginning. -/
inductive Standing where
  | free | fresh | assigned | sealed
  deriving DecidableEq

end Event

/-- How the variables of an activation stand. -/
abbrev Ledger := SymbolId → Event.Standing

/-- The entry of a variable is replaced. -/
def Ledger.set (L : Ledger) (id : SymbolId) (standing : Event.Standing) : Ledger :=
  fun x => if x = id then standing else L x

theorem Ledger.set_self (L : Ledger) (id : SymbolId) (standing : Event.Standing) :
    L.set id standing id = standing := if_pos rfl

theorem Ledger.set_ne (L : Ledger) {id x : SymbolId} (standing : Event.Standing) (h : x ≠ id) :
    L.set id standing x = L x := if_neg h

namespace Event

/-- How strictly an activation is followed: closures store to no variable at all; elsewhere it may
matter how often constants are assigned, or not. -/
inductive Rigor where
  | loose | strict | closed
  deriving DecidableEq

/-- How a variable stands after its declaration. -/
def standing (constant initialized : Bool) : Standing :=
  if constant then if initialized then .sealed else .fresh else .free

/-- The ledger after an event. -/
def after (rigor : Rigor) (L : Ledger) : Event → Ledger
  | declared id constant initialized => L.set id (standing constant initialized)
  | assigned id => if L id = .fresh ∧ rigor = .strict then L.set id .assigned else L
  | _ => L

mutual

/-- An event that may happen. `rigors` tells how strictly the functions are followed. -/
def Admitted (rigors : String → Rigor) (rigor : Rigor) (L : Ledger) : Event → Prop
  | declared _ _ _ => rigor ≠ .closed
  | assigned id => rigor ≠ .closed ∧ (L id = .free ∨ L id = .fresh)
  | updated id => rigor ≠ .closed ∧ L id = .free
  | called name es => AllAdmitted rigors (rigors name) (fun _ => .free) es
  | applied es => AllAdmitted rigors .closed (fun _ => .free) es

/-- Events that may happen one after the other. -/
def AllAdmitted (rigors : String → Rigor) (rigor : Rigor) (L : Ledger) : List Event → Prop
  | [] => True
  | e :: es => e.Admitted rigors rigor L ∧ AllAdmitted rigors rigor (e.after rigor L) es

end

/-- The ledger after some events. -/
def afterAll (rigor : Rigor) (L : Ledger) (es : List Event) : Ledger :=
  es.foldl (fun L e => e.after rigor L) L

theorem afterAll_append (rigor : Rigor) (L : Ledger) (es es' : List Event) :
    afterAll rigor L (es ++ es') = afterAll rigor (afterAll rigor L es) es' := List.foldl_append

variable {rigors : String → Rigor} {rigor : Rigor}

theorem allAdmitted_append : ∀ {L : Ledger} {es es' : List Event},
    AllAdmitted rigors rigor L (es ++ es') ↔
      AllAdmitted rigors rigor L es ∧ AllAdmitted rigors rigor (afterAll rigor L es) es'
  | _, [], _ => by simp [AllAdmitted, afterAll]
  | L, e :: es, es' => by
    simp only [List.cons_append, AllAdmitted, allAdmitted_append, and_assoc]
    rfl

/-- Every event of an activation is admitted after some ledger. -/
theorem AllAdmitted.admitted {L : Ledger} {es : List Event} (h : AllAdmitted rigors rigor L es)
    {e : Event} (he : e ∈ es) : ∃ L', e.Admitted rigors rigor L' := by
  obtain ⟨before, after, rfl⟩ := List.append_of_mem he
  exact ⟨_, (allAdmitted_append.mp h).2.1⟩

theorem span_cons (id : SymbolId) (e : Event) (es : List Event) :
    span id (e :: es) = if e.declares id then [] else e :: span id es := by
  unfold span
  rw [List.takeWhile_cons]
  cases e.declares id <;> rfl

theorem filter_of_not_mem {id : SymbolId} {es : List Event} (h : assigned id ∉ es) :
    es.filter (assigns id) = [] := by
  refine List.filter_eq_nil_iff.mpr fun e he ha => ?_
  cases e with
  | assigned id' =>
    obtain rfl : id' = id := by simpa [assigns] using ha
    exact h he
  | _ => cases ha

theorem after_assigned (rigor : Rigor) (L : Ledger) (id : SymbolId) :
    (assigned id).after rigor L =
      if L id = .fresh ∧ rigor = .strict then L.set id .assigned else L := rfl

/-- The entry of a variable changes only where the variable is declared or assigned. -/
theorem after_of_other {L : Ledger} {id : SymbolId} {e : Event} (hd : e.declares id = false)
    (ha : e.assigns id = false) : e.after rigor L id = L id := by
  cases e with
  | declared id' constant initialized =>
    have hne : id ≠ id' := fun h => by simp [declares, h] at hd
    exact L.set_ne _ hne
  | assigned id' =>
    have hne : id ≠ id' := fun h => by simp [assigns, h] at ha
    rw [after_assigned]
    split
    · exact L.set_ne _ hne
    · rfl
  | _ => rfl

/-- What is admitted for a constant until it is declared again. -/
theorem AllAdmitted.span {id : SymbolId} : ∀ {es : List Event} {L : Ledger},
    AllAdmitted rigors rigor L es → L id ≠ .free →
      updated id ∉ span id es ∧ (L id ≠ .fresh → assigned id ∉ span id es) ∧
        (rigor = .strict → ((Event.span id es).filter (assigns id)).length ≤ 1)
  | [], _, _, _ => ⟨List.not_mem_nil, fun _ => List.not_mem_nil, fun _ => Nat.zero_le 1⟩
  | e :: es, L, h, hL => by
    obtain ⟨he, hes⟩ := h
    rw [span_cons]
    cases hd : e.declares id with
    | true => exact ⟨List.not_mem_nil, fun _ => List.not_mem_nil, fun _ => Nat.zero_le 1⟩
    | false =>
      rw [if_neg Bool.false_ne_true]
      cases ha : e.assigns id with
      | false =>
        -- Nothing happens to the variable but, at most, an update, which is not admitted.
        have hkeep : e.after rigor L id = L id := after_of_other hd ha
        obtain ⟨hu, hn, hc⟩ := AllAdmitted.span hes (hkeep ▸ hL)
        rw [hkeep] at hn
        refine ⟨fun hm => ?_, fun hf hm => ?_, fun hs => ?_⟩
        · rcases List.mem_cons.mp hm with rfl | hm
          · exact hL he.2
          · exact hu hm
        · rcases List.mem_cons.mp hm with rfl | hm
          · simp [assigns] at ha
          · exact hn hf hm
        · rw [List.filter_cons_of_neg (by simp [ha])]
          exact hc hs
      | true =>
        cases e with
        | assigned id' =>
          obtain rfl : id' = id := by simpa [assigns] using ha
          have hfresh : L id' = .fresh := he.2.resolve_left hL
          have hafter : (assigned id').after rigor L id' ≠ .free := by
            rw [after_assigned]
            split
            · rw [L.set_self]
              decide
            · exact hL
          obtain ⟨hu, hn, -⟩ := AllAdmitted.span hes hafter
          refine ⟨fun hm => ?_, fun hf => absurd hfresh hf, fun hs => ?_⟩
          · rcases List.mem_cons.mp hm with h | hm
            · cases h
            · exact hu hm
          · have hnone : assigned id' ∉ Event.span id' es := by
              refine hn ?_
              rw [after_assigned, if_pos ⟨hfresh, hs⟩, L.set_self]
              decide
            rw [List.filter_cons_of_pos (by simp [assigns]), filter_of_not_mem hnone]
            exact Nat.le_refl 1
        | _ => cases ha

/-- What is known of the events after a declaration. -/
theorem AllAdmitted.after_declared {L : Ledger} {before after : List Event} {id : SymbolId}
    {constant initialized : Bool}
    (h : AllAdmitted rigors rigor L (before ++ declared id constant initialized :: after)) :
    ∃ L', L' id = standing constant initialized ∧ AllAdmitted rigors rigor L' after := by
  obtain ⟨-, -, hafter⟩ := allAdmitted_append.mp h
  exact ⟨_, Ledger.set_self _ _ _, hafter⟩

theorem AllAdmitted.keepsValues {L : Ledger} {es : List Event} (h : AllAdmitted rigors rigor L es) :
    KeepsValues es := by
  rintro before id initialized after rfl
  obtain ⟨L', hL', hafter⟩ := h.after_declared
  have hspan (hfree : L' id ≠ .free) := hafter.span hfree
  cases initialized with
  | false =>
    have hfresh : L' id = .fresh := hL'
    exact ⟨(hspan (by rw [hfresh]; decide)).1, fun h => absurd h Bool.false_ne_true⟩
  | true =>
    have hsealed : L' id = .sealed := hL'
    obtain ⟨hu, hn, -⟩ := hspan (by rw [hsealed]; decide)
    exact ⟨hu, fun _ => hn (by rw [hsealed]; decide)⟩

theorem AllAdmitted.assignsOnce {L : Ledger} {es : List Event}
    (h : AllAdmitted rigors .strict L es) : AssignsOnce es := by
  rintro before id after rfl
  obtain ⟨L', hL', hafter⟩ := h.after_declared
  have hfresh : L' id = .fresh := hL'
  exact (AllAdmitted.span hafter (by rw [hfresh]; decide)).2.2 rfl

/-- Closures store to no variable. -/
theorem AllAdmitted.closed {L : Ledger} {es : List Event} (h : AllAdmitted rigors .closed L es) :
    ∀ e ∈ es, e.stores = false := by
  intro e he
  obtain ⟨L', hL'⟩ := h.admitted he
  cases e with
  | called name inner => rfl
  | applied inner => rfl
  | declared id constant initialized => exact absurd rfl hL'
  | assigned id => exact absurd rfl hL'.1
  | updated id => exact absurd rfl hL'.1

/-- The calls inside a run are admitted as well. -/
theorem AllAdmitted.inside {e : Event} {es : List Event} (hi : Inside e es) :
    ∀ {rigor : Rigor} {L : Ledger}, AllAdmitted rigors rigor L es →
      ∃ rigor' L', e.Admitted rigors rigor' L' := by
  induction hi with
  | here he =>
    intro rigor L h
    obtain ⟨L', hL'⟩ := h.admitted he
    exact ⟨rigor, L', hL'⟩
  | called he _ ih =>
    intro rigor L h
    obtain ⟨L', hL'⟩ := h.admitted he
    exact ih hL'
  | applied he _ ih =>
    intro rigor L h
    obtain ⟨L', hL'⟩ := h.admitted he
    exact ih hL'

end Event
end Kotlet

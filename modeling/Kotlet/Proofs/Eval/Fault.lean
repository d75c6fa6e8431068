import Kotlet.Eval.Fault
import Kotlet.Proofs.Circle

/-!
# Faults of well-typed programs

* `Heap.IsCircular` : a collection holds itself, and `Value.show?_eq_none_iff` : just the collections
  from which one comes to such a one have no text;
* `Fault.Cause.isRuntime` : the causes that a well-typed program can run into;
* `Fault.Cause.isInternal` : the causes that only trees which were never checked can run into;
* `Fault.Expected` : faults of the first kind, those of runs that had not enough fuel, and those of
  runs that have no end since a collection holds itself;
* `Fault.Expected.message_ne` : an expected fault never reads as an internal one.
-/

namespace Kotlet

/-! ## Collections that hold themselves -/

namespace Heap

/-- The collection at `a` has the one at `b` as an element. -/
def Holds (heap : Heap) (a b : Nat) : Prop := ∃ kind, .collection kind b ∈ heap.getD a #[]

/-- A collection holds itself, as an element or inside of one. -/
def IsCircular (heap : Heap) : Prop := ∃ a, Relation.TransGen heap.Holds a a

theorem lt_size_of_holds {heap : Heap} {a b : Nat} (h : heap.Holds a b) : a < heap.size := by
  obtain ⟨kind, h⟩ := h
  by_contra ha
  rw [Array.getD_eq_getD_getElem?, Array.getElem?_eq_none (by omega)] at h
  exact absurd h (Array.not_mem_empty _)

end Heap

theorem mapM_eq_none_iff {α β : Type} {f : α → Option β} {l : List α} :
    l.mapM f = none ↔ ∃ a ∈ l, f a = none := by
  induction l with
  | nil => simp
  | cons a l ih =>
    rw [List.mapM_cons]
    simp only [List.mem_cons, exists_eq_or_imp, ← ih]
    cases f a with
    | none => simp
    | some b => cases l.mapM f <;> simp

namespace Value

/-- What is no collection is always shown. -/
theorem showWithin_isSome {heap : Heap} {v : Value} (hv : ∀ kind a, v ≠ .collection kind a) (n : Nat) :
    (v.showWithin heap n).isSome = true := by
  cases v with
  | collection kind a => exact absurd rfl (hv kind a)
  | _ => cases n <;> rfl

/-- A collection is not shown with so many inside each other just if there are as many. -/
theorem showWithin_collection {heap : Heap} {n : Nat} : ∀ {kind : CollectionKind} {a : Nat},
    (collection kind a).showWithin heap n = none ↔ Goes heap.Holds n a := by
  induction n with
  | zero => exact ⟨fun _ => trivial, fun _ => rfl⟩
  | succ n ih =>
    intro kind a
    rw [showWithin, Option.map_eq_none_iff, mapM_eq_none_iff, Goes]
    refine ⟨fun ⟨v, hv, hnone⟩ => ?_, fun ⟨b, ⟨kind', hb⟩, hgoes⟩ =>
      ⟨.collection kind' b, Array.mem_toList_iff.mpr hb, ih.mpr hgoes⟩⟩
    cases v with
    | collection kind' b => exact ⟨b, ⟨kind', Array.mem_toList_iff.mp hv⟩, ih.mp hnone⟩
    | _ => cases n <;> cases hnone

/-- Just the collections from which one comes to one that holds itself have no text. -/
theorem show?_eq_none_iff {heap : Heap} {v : Value} :
    v.show? heap = none ↔ ∃ kind a, v = .collection kind a ∧ Circles heap.Holds a := by
  have hiff {kind : CollectionKind} {a : Nat} :
      (collection kind a).show? heap = none ↔ Circles heap.Holds a :=
    showWithin_collection.trans (goes_iff_circles fun _ _ => Heap.lt_size_of_holds)
  refine ⟨fun h => ?_, fun ⟨kind, a, hv, hcircles⟩ => hv ▸ hiff.mpr hcircles⟩
  by_cases hv : ∃ kind a, v = .collection kind a
  · obtain ⟨kind, a, rfl⟩ := hv
    exact ⟨kind, a, rfl, hiff.mp h⟩
  · have hsome : (v.show? heap).isSome = true := showWithin_isSome (fun kind a ha => hv ⟨kind, a, ha⟩) _
    rw [h] at hsome
    cases hsome

/-- A list whose second element is the list. -/
example : (collection .list 0).show? #[#[.int 1, .collection .list 0]] = none := by decide

theorem isCircular_of_show? {heap : Heap} {v : Value} (h : v.show? heap = none) : heap.IsCircular := by
  obtain ⟨_, _, _, b, _, hb⟩ := show?_eq_none_iff.mp h
  exact ⟨b, hb⟩

end Value

/-! ## Causes -/

namespace Fault.Cause

/-- The causes that a well-typed program can run into. The last one is a loop over a collection
that was never assigned. -/
def isRuntime : Fault.Cause → Bool
  | divisionByZero | outOfBounds _ _ | negativeSize _ | badStep _ | stackOverflow | isNull _ => true
  | notIterable found => found == Value.null.typeName
  | _ => false

/-- The causes of runs that have no end. -/
def isUnending (c : Fault.Cause) : Bool := c == outOfFuel || c == endless

/-- All other causes. -/
def isInternal (c : Fault.Cause) : Bool := !c.isRuntime && !c.isUnending

/-- Three letters of a message that tell the causes apart: the first ones, or the last ones if a
quoted name comes first. -/
def cueOf (message : String) : List Char :=
  if message.toList.head? = some '\'' then '\'' :: message.toList.reverse.take 2
  else message.toList.take 3

/-- The three letters for each cause. -/
@[grind =] def cue : Fault.Cause → List Char
  | divisionByZero => ['/', ' ', 'b']
  | outOfBounds _ _ => ['I', 'n', 'd']
  | negativeSize _ => ['N', 'e', 'g']
  | badStep _ => ['S', 't', 'e']
  | stackOverflow => ['s', 't', 'a']
  | isNull _ => ['\'', 'l', 'l']
  | cancelled => ['e', 'x', 'e']
  | outOfFuel => ['o', 'u', 't']
  | endless => ['a', ' ', 'c']
  | unresolved _ => ['\'', 'd', 'e']
  | noValue _ => ['\'', 'e', 'u']
  | captureNoValue _ => ['c', 'a', 'p']
  | noDeclaration _ => ['f', 'u', 'n']
  | badOperands _ _ _ => ['o', 'p', 'e']
  | badOperand _ _ => ['o', 'p', 'e']
  | unknownOperator _ => ['u', 'n', 'k']
  | notBoolean _ => ['c', 'o', 'n']
  | badIndex _ => ['i', 'n', 'd']
  | notIndexable _ _ => ['\'', 'e', 'l']
  | badSize _ => ['s', 'i', 'z']
  | notCallable _ _ => ['\'', 'e', 'l']
  | notIterable _ => ['c', 'a', 'n']
  | badBound _ => ['r', 'a', 'n']
  | argumentCount _ _ => ['e', 'x', 'p']
  | missingReturn => ['m', 'i', 's']
  | strayRange => ['a', ' ', 'r']
  | nestedFunction _ => ['f', 'u', 'n']
  | badOffset _ => ['i', 'n', 't']

theorem cueOf_message (c : Fault.Cause) : cueOf c.message = c.cue := by
  unfold cueOf message cue
  cases c <;> dsimp only <;> simp

/-- The letters for the causes that are to be expected. -/
def expectedCues : List (List Char) :=
  [['/', ' ', 'b'], ['I', 'n', 'd'], ['N', 'e', 'g'], ['S', 't', 'e'], ['s', 't', 'a'],
    ['\'', 'l', 'l'], ['c', 'a', 'n'], ['o', 'u', 't'], ['a', ' ', 'c']]

theorem cue_mem {a : Fault.Cause} (ha : a.isInternal = false) : a.cue ∈ expectedCues := by
  cases a <;> first | (simp only [cue]; decide) | cases ha

theorem cue_not_mem {b : Fault.Cause} (hb : b.isInternal = true)
    (hn : ∀ found, b ≠ notIterable found) : b.cue ∉ expectedCues := by
  cases b with
  | notIterable found => exact absurd rfl (hn found)
  | _ => first | (simp only [cue]; decide) | cases hb

/-- Only loops over something without elements are of both kinds. -/
theorem cue_ne {a b : Fault.Cause} (ha : a.isInternal = false)
    (hb : b.isInternal = true) (hn : ∀ found, b ≠ notIterable found) : a.cue ≠ b.cue :=
  fun h => cue_not_mem hb hn (h ▸ cue_mem ha)

theorem notIterable_of_cue {c : Fault.Cause} {found : String}
    (h : c.cue = (notIterable found).cue) : ∃ found', c = notIterable found' := by
  cases c with
  | notIterable found' => exact ⟨found', rfl⟩
  | _ => exact absurd h (by simp only [cue]; decide)

theorem message_ne {a b : Fault.Cause} (ha : a.isInternal = false)
    (hb : b.isInternal = true) : a.message ≠ b.message := by
  intro h
  have hcue : a.cue = b.cue := by rw [← cueOf_message, ← cueOf_message, h]
  by_cases hn : ∃ found, b = notIterable found
  · obtain ⟨found, rfl⟩ := hn
    obtain ⟨found', rfl⟩ := notIterable_of_cue hcue
    obtain rfl : found' = found := by
      have hl := congrArg String.toList h
      unfold message at hl
      simpa [String.toList_inj] using hl
    rw [ha] at hb
    cases hb
  · exact cue_ne ha hb (fun found hf => hn ⟨found, hf⟩) hcue

end Fault.Cause

/-- The fault has a cause that a well-typed program can run into; or the fuel was not enough; or a
collection was to be shown that has no text, since one of those on the heap holds itself. -/
def Fault.Expected (f : Fault) (heap : Heap) : Prop :=
  ∃ cause : Fault.Cause, (cause.isRuntime = true ∨ cause = .outOfFuel ∨
    cause = .endless ∧ heap.IsCircular) ∧ f.message = cause.message

theorem Fault.Expected.message_ne {f : Fault} {heap : Heap} (h : f.Expected heap) {cause : Fault.Cause}
    (hc : cause.isInternal = true) : f.message ≠ cause.message := by
  obtain ⟨c, hr, hm⟩ := h
  rw [hm]
  refine Cause.message_ne ?_ hc
  rcases hr with hr | rfl | ⟨rfl, -⟩
  · rw [Cause.isInternal, hr]
    rfl
  · rfl
  · rfl

/-- A trace changes nothing about the cause. -/
theorem Fault.Expected.traced {f : Fault} {heap : Heap} (h : f.Expected heap) (calls : List Frame) :
    (f.traced calls).Expected heap := by
  obtain ⟨cause, hc, hm⟩ := h
  refine ⟨cause, hc, ?_⟩
  unfold Fault.traced
  split
  · exact hm
  · exact hm

end Kotlet

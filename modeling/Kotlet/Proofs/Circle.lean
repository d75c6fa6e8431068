import Mathlib.Data.List.Perm.Subperm
import Mathlib.Logic.Relation

/-!
# Paths that go round in a circle

In a finite graph, whoever can go more steps than there are places comes to a place for the second
time, and so can go on for ever.

* `Goes` : how many steps can be gone from a place;
* `Circles` : one comes to where one can go round in a circle;
* `goes_iff_circles` : more steps than there are places are as good as a circle;
* `not_circles_of_lt` : whoever only goes down does not go round in a circle.
-/

namespace Kotlet

open Relation

variable {α : Type} {r : α → α → Prop} {a b : α}

/-- One can go `n` steps from `a`. -/
def Goes (r : α → α → Prop) : Nat → α → Prop
  | 0, _ => True
  | n + 1, a => ∃ b, r a b ∧ Goes r n b

/-- From `a` one comes to a place from where one comes back to it. -/
def Circles (r : α → α → Prop) (a : α) : Prop := ∃ b, ReflTransGen r a b ∧ TransGen r b b

theorem Circles.head (h : r a b) (hb : Circles r b) : Circles r a := by
  obtain ⟨c, hbc, hc⟩ := hb
  exact ⟨c, .head h hbc, hc⟩

/-- Round a circle, and on the way to it, there is always a next step. -/
theorem Circles.next (h : Circles r a) : ∃ b, r a b ∧ Circles r b := by
  obtain ⟨c, hac, hc⟩ := h
  rcases hac.cases_head with rfl | ⟨b, hab, hbc⟩
  · obtain ⟨b, hab, hba⟩ := TransGen.head'_iff.mp hc
    exact ⟨b, hab, a, hba, hc⟩
  · exact ⟨b, hab, c, hbc, hc⟩

theorem Circles.goes (h : Circles r a) (n : Nat) : Goes r n a := by
  induction n generalizing a with
  | zero => trivial
  | succ n ih =>
    obtain ⟨b, hab, hb⟩ := h.next
    exact ⟨b, hab, ih hb⟩

/-- The places that were passed are kept in `seen`. Either one of them comes again, or there are still
enough others for the steps to come. -/
theorem circles_or_le {r : Nat → Nat → Prop} {size : Nat} (hr : ∀ a b, r a b → a < size) (n : Nat) :
    ∀ {seen : List Nat} {a : Nat}, Goes r n a → seen.Nodup → (∀ s ∈ seen, s < size ∧ TransGen r s a) →
      Circles r a ∨ seen.length + n ≤ size := by
  induction n with
  | zero =>
    intro seen a _ hnodup hseen
    have hsub : seen ⊆ List.range size := fun s hs => List.mem_range.mpr (hseen s hs).1
    have hle := (List.subperm_of_subset hnodup hsub).length_le
    rw [List.length_range] at hle
    exact .inr hle
  | succ n ih =>
    intro seen a hgoes hnodup hseen
    obtain ⟨b, hab, hb⟩ := hgoes
    by_cases ha : a ∈ seen
    · exact .inl ⟨a, .refl, (hseen a ha).2⟩
    · have hseen' : ∀ s ∈ a :: seen, s < size ∧ TransGen r s b := by
        intro s hs
        rcases List.mem_cons.mp hs with rfl | hs
        · exact ⟨hr s b hab, .single hab⟩
        · exact ⟨(hseen s hs).1, (hseen s hs).2.tail hab⟩
      rcases ih hb (List.nodup_cons.mpr ⟨ha, hnodup⟩) hseen' with hcircles | hle
      · exact .inl (hcircles.head hab)
      · rw [List.length_cons] at hle
        exact .inr (by omega)

/-- Whoever can go more steps than there are places comes to a circle. -/
theorem goes_iff_circles {r : Nat → Nat → Prop} {size a : Nat} (hr : ∀ a b, r a b → a < size) :
    Goes r (size + 1) a ↔ Circles r a := by
  refine ⟨fun h => ?_, fun h => h.goes _⟩
  rcases circles_or_le hr (size + 1) h .nil (by simp) with hcircles | hle
  · exact hcircles
  · rw [List.length_nil] at hle
    omega

theorem not_circles_of_lt {r : Nat → Nat → Prop} (hr : ∀ a b, r a b → b < a) (a : Nat) :
    ¬ Circles r a := by
  rintro ⟨b, -, hb⟩
  have hlt : ∀ {x y : Nat}, TransGen r x y → y < x := by
    intro x y h
    induction h with
    | single h => exact hr _ _ h
    | tail _ h ih => exact Nat.lt_trans (hr _ _ h) ih
  exact Nat.lt_irrefl b (hlt hb)

end Kotlet

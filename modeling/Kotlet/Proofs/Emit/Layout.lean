import Kotlet.Emit.Layout
import Kotlet.Proofs.ClassFile.Pool
import Kotlet.Proofs.ClassFile.Shape
import Kotlet.Proofs.Syntax.WellFormed

/-!
# Layout by kind

* `Clean`, `Plain` : names and descriptors without the characters that put the text of a member
  together; `legible_plain` : such members can be told from their texts;
* `Ty.kinds` : what a value of a type takes on the stack;
* `Ty.isField_descriptor`, `descriptorKinds?_methodDescriptor` : the descriptors of complete types.
-/

namespace Kotlet

open ClassFile

/-- A text without the characters that put the text of a member together. -/
def Clean (s : String) : Prop := ∀ c ∈ s.toList, c ≠ '.' ∧ c ≠ ':'

instance (s : String) : Decidable (Clean s) := List.decidableBAll _ s.toList

theorem Clean.append {s t : String} (hs : Clean s) (ht : Clean t) : Clean (s ++ t) := by
  intro c hc
  rw [String.toList_append, List.mem_append] at hc
  exact hc.elim (hs c) (ht c)

theorem Clean.join {ds : List String} (h : ∀ d ∈ ds, Clean d) : Clean (String.join ds) := by
  intro c hc
  rw [String.toList_join, List.mem_flatMap] at hc
  obtain ⟨d, hd, hc⟩ := hc
  exact h d hd c hc

/-- A member with such a name and descriptor. -/
def Plain (m : Member) : Prop := Clean m.name ∧ Clean m.desc

theorem pair_of_pairText {m n : Member} (hm : Plain m) (hn : Plain n)
    (h : Pool.pairText m.name m.desc = Pool.pairText n.name n.desc) :
    m.name = n.name ∧ m.desc = n.desc := by
  have hl := congrArg String.toList h
  simp only [Pool.pairText, String.toList_append] at hl
  rw [show (":" : String).toList = [':'] from rfl, List.append_assoc, List.append_assoc,
    List.singleton_append, List.singleton_append] at hl
  obtain ⟨hname, hdesc⟩ := Pool.eq_of_append_cons (fun hc => (hm.2 _ hc).2 rfl)
    (fun hc => (hn.2 _ hc).2 rfl) hl
  exact ⟨String.toList_inj.mp hname, String.toList_inj.mp hdesc⟩

theorem legible_plain : Pool.Legible Plain where
  pair := pair_of_pairText
  member {m n} hm hn h := by
    have hl := congrArg String.toList h
    simp only [Pool.memberText, String.toList_append] at hl
    rw [show (":" : String).toList = [':'] from rfl, show ("." : String).toList = ['.'] from rfl] at hl
    simp only [List.append_assoc, List.singleton_append] at hl
    rw [← List.append_assoc, ← List.append_assoc] at hl
    obtain ⟨hleft, hdesc⟩ := Pool.eq_of_append_cons (fun hc => (hm.2 _ hc).2 rfl)
      (fun hc => (hn.2 _ hc).2 rfl) hl
    obtain ⟨howner, hname⟩ := Pool.eq_of_append_cons (fun hc => (hm.1 _ hc).1 rfl)
      (fun hc => (hn.1 _ hc).1 rfl) hleft
    cases m
    cases n
    simp only [String.toList_inj] at howner hname hdesc
    rw [howner, hname, hdesc]

/-! ## Types -/

/-- What a value of a type takes on the stack. -/
def Ty.kinds (t : Ty) : List Kind := if t = .unit then [] else [t.localKind.kind]

theorem Ty.kinds_of_ne {t : Ty} (h : t ≠ .unit) : t.kinds = [t.localKind.kind] := if_neg h

theorem Scalar.isField_descriptor {s : Scalar} (h : s ≠ .unit) :
    IsField s.descriptor [(Ty.scalar s).localKind.kind] ∧ Clean s.descriptor := by
  cases s with
  | int => exact ⟨isField_int, by decide⟩
  | boolean => exact ⟨isField_boolean, by decide⟩
  | string | any | unknown => exact ⟨isField_class (by decide), by decide⟩
  | unit => exact absurd rfl h

theorem Ty.isField_descriptor {t : Ty} (hc : t.Complete) (hu : t ≠ .unit) :
    IsField t.descriptor [t.localKind.kind] ∧ Clean t.descriptor := by
  cases t with
  | scalar s => exact Scalar.isField_descriptor fun h => hu (by rw [h])
  | array s =>
    obtain ⟨hf, hclean⟩ := Scalar.isField_descriptor (s := s) hc.1
    exact ⟨isField_array hf, .append (by decide) hclean⟩
  | list s => exact ⟨isField_class (by decide), show Clean (Jvm.reference Jvm.list) by decide⟩
  | fn params result =>
    exact ⟨isField_class (by decide), show Clean (Jvm.reference Jvm.methodHandle) by decide⟩

theorem Ty.resultKinds?_descriptor {t : Ty} (hc : t.Complete) :
    resultKinds? t.descriptor.toList = some t.kinds ∧ Clean t.descriptor := by
  by_cases hu : t = .unit
  · subst hu
    exact ⟨by decide, by decide⟩
  · obtain ⟨hf, hclean⟩ := Ty.isField_descriptor hc hu
    rw [Ty.kinds_of_ne hu]
    exact ⟨hf.result, hclean⟩

/-- The kinds of the parameters and of the result are those of the types. -/
theorem descriptorKinds?_methodDescriptor {ts : List Ty} {result : Ty}
    (hts : ∀ t ∈ ts, t.Complete ∧ t ≠ .unit) (hr : result.Complete) :
    descriptorKinds? (methodDescriptor ts (some result)) =
        some (ts.map fun t => t.localKind.kind, result.kinds) ∧
      Clean (methodDescriptor ts (some result)) := by
  obtain ⟨hres, hclean⟩ := Ty.resultKinds?_descriptor hr
  have hfields : List.Forall₂ IsField (ts.map Ty.descriptor)
      (ts.map fun t => [t.localKind.kind]) := by
    rw [List.forall₂_map_left_iff, List.forall₂_map_right_iff, List.forall₂_same]
    exact fun t ht => (Ty.isField_descriptor (hts t ht).1 (hts t ht).2).1
  refine ⟨?_, ?_⟩
  · have hjoin := descriptorKinds?_join hfields hres
    rw [← List.flatMap_def, ← List.map_eq_flatMap] at hjoin
    exact hjoin
  · refine .append (.append (.append (by decide) (.join fun d hd => ?_)) (by decide)) hclean
    obtain ⟨t, ht, rfl⟩ := List.mem_map.mp hd
    exact (Ty.isField_descriptor (hts t ht).1 (hts t ht).2).2

end Kotlet

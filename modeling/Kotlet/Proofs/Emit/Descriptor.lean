import Kotlet.Emit.Layout
import Kotlet.Proofs.ClassFile.Descriptor.Grammar

/-!
# Descriptors of types are read back

Every type but `Unit` and an array of `Unit` has the descriptor of a field, which takes one slot. In
the descriptor of a method the scanner finds those of the parameters one by one, as they were written.

* `Ty.HasField` : the types whose values can be kept;
* `Ty.isFieldType_descriptor_iff` : they are those that have the descriptor of a field;
* `isMethodType_methodDescriptor_iff` : how the descriptor of a method is read;
* `descriptors_read_back` : the slots of such a descriptor, and of any text.
-/

namespace Kotlet

open ClassFile

/-- The type has values that can be kept: it is neither `Unit` nor an array of it. -/
def Ty.HasField (t : Ty) : Prop := t ≠ .unit ∧ t ≠ .array .unit

instance (t : Ty) : Decidable t.HasField := inferInstanceAs (Decidable (_ ∧ _))

/-! ## One type -/

section Types

variable {t : Ty} {rest : List Char}

theorem Scalar.isFieldType_descriptor {s : Scalar} (h : s ≠ .unit) : IsFieldType s.descriptor := by
  cases s with
  | int => exact .base (c := 'I') (by decide)
  | boolean => exact .base (c := 'Z') (by decide)
  | string | any | unknown => exact .object (by decide)
  | unit => exact absurd rfl h

theorem Ty.isFieldType_descriptor (h : t.HasField) : IsFieldType t.descriptor := by
  cases t with
  | scalar s => exact Scalar.isFieldType_descriptor fun hs => h.1 (by rw [hs])
  | array s => exact .array (Scalar.isFieldType_descriptor fun hs => h.2 (by rw [hs]))
  | list s => exact .object (by decide)
  | fn params result => exact .object (by decide)

/-- The scanner finds no field at the start of the descriptor of `Unit`, or of an array of it. -/
theorem Ty.hasField_of_fieldType? {p : Nat × List Char}
    (h : fieldType? (t.descriptor.toList ++ rest) = some p) : t.HasField := by
  constructor
  · rintro rfl
    cases h
  · rintro rfl
    cases h

theorem Ty.isFieldType_descriptor_iff : IsFieldType t.descriptor ↔ t.HasField :=
  ⟨fun h => Ty.hasField_of_fieldType? (fieldType?_append h []), Ty.isFieldType_descriptor⟩

theorem Ty.slotSize_descriptor (t : Ty) : slotSize t.descriptor = 1 := by
  cases t with
  | scalar s => cases s <;> decide
  | array s => exact slotSize_array s.descriptor
  | list s => exact slotSize_object Jvm.list
  | fn params result => exact slotSize_object Jvm.methodHandle

theorem Ty.descriptor_eq_void_iff : t.descriptor = "V" ↔ t = .unit := by
  constructor
  · intro h
    by_contra hu
    by_cases ha : t = .array .unit
    · subst ha
      exact absurd h (by decide)
    · obtain ⟨c, cs, hcs, -, hc⟩ := (Ty.isFieldType_descriptor ⟨hu, ha⟩).head
      rw [h] at hcs
      exact hc (List.cons.inj hcs).1.symm
  · rintro rfl
    rfl

theorem Ty.isResult_descriptor_iff :
    t.descriptor = "V" ∨ IsFieldType t.descriptor ↔ t ≠ .array .unit := by
  rw [Ty.descriptor_eq_void_iff, Ty.isFieldType_descriptor_iff]
  by_cases hu : t = .unit
  · subst hu
    exact iff_of_true (.inl rfl) (by decide)
  · exact (or_iff_right hu).trans (and_iff_right hu)

theorem Ty.resultSize_descriptor (t : Ty) :
    resultSize t.descriptor = if t = .unit then 0 else 1 := by
  simp only [resultSize, Ty.descriptor_eq_void_iff, Ty.slotSize_descriptor]

theorem Ty.descriptor_head (t : Ty) : ∃ c cs, t.descriptor.toList = c :: cs ∧ c ≠ ')' := by
  by_cases hu : t = .unit
  · subst hu
    exact ⟨'V', [], rfl, by decide⟩
  by_cases ha : t = .array .unit
  · subst ha
    exact ⟨'[', ['V'], rfl, by decide⟩
  obtain ⟨c, cs, hcs, hc, -⟩ := (Ty.isFieldType_descriptor ⟨hu, ha⟩).head
  exact ⟨c, cs, hcs, hc⟩

end Types

/-! ## Methods -/

section Methods

variable {ts : List Ty} {result : Option Ty}

/-- Descriptors up to a parenthesis are read in one way only: as those of the types. -/
theorem eq_descriptors {x y : List Char} : ∀ {ts : List Ty} {ds : List String},
    (∀ d ∈ ds, IsFieldType d) →
    (ts.map Ty.descriptor).flatMap String.toList ++ ')' :: x =
      ds.flatMap String.toList ++ ')' :: y → ds = ts.map Ty.descriptor ∧ x = y := by
  intro ts
  induction ts with
  | nil =>
    intro ds hds h
    cases ds with
    | nil => exact ⟨rfl, (List.cons.inj h).2⟩
    | cons d ds =>
      obtain ⟨c, cs, hcs, hc, -⟩ := (hds d List.mem_cons_self).head
      rw [List.flatMap_cons, hcs] at h
      exact absurd (List.cons.inj h).1.symm hc
  | cons t ts ih =>
    intro ds hds h
    cases ds with
    | nil =>
      obtain ⟨c, cs, hcs, hc⟩ := t.descriptor_head
      rw [List.map_cons, List.flatMap_cons, hcs] at h
      exact absurd (List.cons.inj h).1 hc
    | cons d ds =>
      obtain ⟨hd, htail⟩ := List.forall_mem_cons.mp hds
      rw [List.map_cons, List.flatMap_cons, List.flatMap_cons, List.append_assoc,
        List.append_assoc] at h
      -- a descriptor stands at this place, so that of the type is one
      have hscan := fieldType?_append hd (ds.flatMap String.toList ++ ')' :: y)
      rw [← h] at hscan
      obtain ⟨rfl, hrest⟩ := hd.append_inj
        (Ty.isFieldType_descriptor (Ty.hasField_of_fieldType? hscan)) h.symm
      obtain ⟨rfl, hxy⟩ := ih htail hrest.symm
      exact ⟨rfl, hxy⟩

/-- The descriptor of a method is read as the descriptors of its types. -/
theorem isMethodType_methodDescriptor_iff {ds : List String} {r : String} :
    IsMethodType (methodDescriptor ts result) ds r ↔
      (∀ t ∈ ts, t.HasField) ∧ result.getD .unit ≠ .array .unit ∧
        ds = ts.map Ty.descriptor ∧ r = (result.getD .unit).descriptor := by
  constructor
  · intro h
    have htext := congrArg String.toList h.text
    rw [methodDescriptor, Jvm.method, toList_methodType, toList_methodType] at htext
    obtain ⟨rfl, hr⟩ := eq_descriptors h.params (List.cons.inj htext).2
    obtain rfl := String.toList_inj.mp hr
    refine ⟨fun t ht => ?_, Ty.isResult_descriptor_iff.mp h.result, rfl, rfl⟩
    exact Ty.isFieldType_descriptor_iff.mp (h.params _ (List.mem_map_of_mem ht))
  · rintro ⟨hts, hresult, rfl, rfl⟩
    refine ⟨rfl, fun d hd => ?_, Ty.isResult_descriptor_iff.mpr hresult⟩
    obtain ⟨t, ht, rfl⟩ := List.mem_map.mp hd
    exact Ty.isFieldType_descriptor (hts t ht)

theorem sum_slotSize_descriptors (ts : List Ty) :
    ((ts.map Ty.descriptor).map slotSize).sum = ts.length := by
  induction ts with
  | nil => rfl
  | cons t ts ih =>
    rw [List.map_cons, List.map_cons, List.sum_cons, ih, Ty.slotSize_descriptor, List.length_cons,
      Nat.add_comm]

/-- The descriptor of a method of some types is read back, with a slot for each parameter and one for
a result that is not `Unit`. This fails only for a parameter that is `Unit`, and for arrays of `Unit`,
which no program can write. A text is the descriptor of a method exactly if it has descriptors of
fields between parentheses and then `V` or one such descriptor; their slots are added up. -/
theorem descriptors_read_back :
    (∀ (params : List Ty) (result : Option Ty) (args ret : Nat),
      descriptorSlots? (methodDescriptor params result) = some (args, ret) ↔
        (∀ t ∈ params, t.HasField) ∧ result.getD .unit ≠ .array .unit ∧
          args = params.length ∧ ret = if result.getD .unit = .unit then 0 else 1) ∧
      ∀ (desc : String) (args ret : Nat), descriptorSlots? desc = some (args, ret) ↔
        ∃ params result, IsMethodType desc params result ∧
          args = (params.map slotSize).sum ∧ ret = resultSize result := by
  refine ⟨fun params result args ret => ?_, fun desc args ret => descriptorSlots?_eq_some_iff⟩
  rw [descriptorSlots?_eq_some_iff]
  constructor
  · rintro ⟨ds, r, h, rfl, rfl⟩
    obtain ⟨hparams, hresult, rfl, rfl⟩ := isMethodType_methodDescriptor_iff.mp h
    exact ⟨hparams, hresult, sum_slotSize_descriptors params, Ty.resultSize_descriptor _⟩
  · rintro ⟨hparams, hresult, rfl, rfl⟩
    exact ⟨params.map Ty.descriptor, (result.getD .unit).descriptor,
      isMethodType_methodDescriptor_iff.mpr ⟨hparams, hresult, rfl, rfl⟩,
      (sum_slotSize_descriptors params).symm, (Ty.resultSize_descriptor _).symm⟩

/-- Functions take one slot, whatever they take and return, and so do arrays of what takes two. -/
theorem descriptors_read_back_nested :
    (∀ t ∈ [Ty.fn [.unit, .fn [.array .unit] none] (some .unit), .array .any], t.HasField) ∧
      descriptorSlots? (methodDescriptor
        [.fn [.unit, .fn [.array .unit] none] (some .unit), .array .any] (some (.array .int))) =
          some (2, 1) ∧
      IsMethodType "(J[[DL;)D" ["J", "[[D", "L;"] "D" ∧
      descriptorSlots? "(J[[DL;)D" = some (4, 2) := by
  have hlong : IsFieldType "J" := .base (c := 'J') (by decide)
  have hdouble : IsFieldType "D" := .base (c := 'D') (by decide)
  have hobject : IsFieldType "L;" := @IsFieldType.object "" (by decide)
  have hmethod : IsMethodType "(J[[DL;)D" ["J", "[[D", "L;"] "D" :=
    ⟨by decide, by simpa using ⟨hlong, hdouble.array.array, hobject⟩, .inr hdouble⟩
  exact ⟨by decide, (descriptors_read_back.1 _ _ _ _).mpr ⟨by decide, by decide, rfl, rfl⟩, hmethod,
    (descriptors_read_back.2 _ _ _).mpr ⟨_, _, hmethod, by decide, by decide⟩⟩

end Methods

end Kotlet

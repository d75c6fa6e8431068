import Mathlib.Algebra.GroupWithZero.Nat
import Mathlib.Algebra.Order.BigOperators.Group.List
import Kotlet.Proofs.ClassFile.Descriptor

/-!
# The grammar of descriptors

The descriptors of a method's parameters stand one after the other without anything between them, so
the scanner has to find by itself where each of them ends. It reads every text that the grammar
allows, and no other.

* `IsFieldType`, `IsMethodType` : the descriptors of fields and of methods;
* `resultSize` : the slots of a result;
* `fieldType?_eq_some_iff` : the descriptor of a field at the start of a text;
* `descriptorSlots?_eq_some_iff` : the descriptor of a method.
-/

namespace Kotlet
namespace ClassFile

/-- The descriptor of a field. -/
inductive IsFieldType : String → Prop where
  | base {c : Char} (h : c ∈ ['B', 'C', 'D', 'F', 'I', 'J', 'S', 'Z']) :
      IsFieldType (String.singleton c)
  | object {name : String} (h : ';' ∉ name.toList) : IsFieldType ("L" ++ name ++ ";")
  | array {d : String} (h : IsFieldType d) : IsFieldType ("[" ++ d)

/-- The descriptor of a method with parameters and a result of such descriptors. -/
structure IsMethodType (desc : String) (params : List String) (result : String) : Prop where
  text : desc = "(" ++ String.join params ++ ")" ++ result
  params : ∀ d ∈ params, IsFieldType d
  result : result = "V" ∨ IsFieldType result

/-- The slots of a result. -/
def resultSize (result : String) : Nat := if result = "V" then 0 else slotSize result

/-! ## One field -/

section Field

variable {d : String} {cs rest : List Char} {n : Nat}

theorem slotSize_of_head {c : Char} (hd : d.toList = c :: cs) (hJ : c ≠ 'J') (hD : c ≠ 'D') :
    slotSize d = 1 := by
  refine if_neg ?_
  rintro (rfl | rfl)
  · exact hJ (List.cons.inj hd).1.symm
  · exact hD (List.cons.inj hd).1.symm

theorem slotSize_object (name : String) : slotSize ("L" ++ name ++ ";") = 1 := by
  have hl : ("L" ++ name ++ ";").toList = 'L' :: (name.toList ++ [';']) := by
    simp
  exact slotSize_of_head hl (by decide) (by decide)

theorem slotSize_array (d : String) : slotSize ("[" ++ d) = 1 := by
  have hl : ("[" ++ d).toList = '[' :: d.toList := by
    simp
  exact slotSize_of_head hl (by decide) (by decide)

/-- What comes after the next semicolon, and what stands before it. -/
theorem eq_of_afterSemicolon? (h : afterSemicolon? cs = some rest) :
    ∃ name : List Char, ';' ∉ name ∧ cs = name ++ ';' :: rest := by
  induction cs with
  | nil => cases h
  | cons c cs ih =>
    rw [afterSemicolon?] at h
    split at h
    · rename_i hc
      cases h
      exact ⟨[], List.not_mem_nil, by rw [hc]; rfl⟩
    · rename_i hc
      obtain ⟨name, hname, rfl⟩ := ih h
      refine ⟨c :: name, ?_, rfl⟩
      rw [List.mem_cons, not_or]
      exact ⟨Ne.symm hc, hname⟩

theorem fieldType?_object (cs : List Char) :
    fieldType? ('L' :: cs) = (afterSemicolon? cs).map fun rest => (1, rest) := rfl

theorem fieldType?_array (cs : List Char) :
    fieldType? ('[' :: cs) = (fieldType? cs).map fun p => (1, p.2) := rfl

theorem fieldType?_other {c : Char} (hbase : c ∉ ['B', 'C', 'D', 'F', 'I', 'J', 'S', 'Z'])
    (hobject : c ≠ 'L') (harray : c ≠ '[') : fieldType? (c :: cs) = none := by
  unfold fieldType?
  split <;> simp_all

/-- A descriptor is scanned up to its end, whatever comes after it. -/
theorem fieldType?_append (h : IsFieldType d) :
    ∀ rest, fieldType? (d.toList ++ rest) = some (slotSize d, rest) := by
  induction h with
  | base hc =>
    simp only [List.mem_cons, List.not_mem_nil, or_false] at hc
    rcases hc with rfl | rfl | rfl | rfl | rfl | rfl | rfl | rfl <;> exact fun _ => rfl
  | @object name hname =>
    intro rest
    have hl : ("L" ++ name ++ ";").toList ++ rest = 'L' :: (name.toList ++ ';' :: rest) := by
      simp
    rw [hl, slotSize_object, fieldType?_object, afterSemicolon?_append hname]
    rfl
  | @array d _ ih =>
    intro rest
    have hl : ("[" ++ d).toList ++ rest = '[' :: (d.toList ++ rest) := by
      simp
    rw [hl, slotSize_array, fieldType?_array, ih rest]
    rfl

/-- What is scanned is a descriptor. -/
theorem isFieldType_of_fieldType? : ∀ {cs : List Char} {n : Nat},
    fieldType? cs = some (n, rest) →
      ∃ d, IsFieldType d ∧ slotSize d = n ∧ cs = d.toList ++ rest := by
  intro cs
  induction cs with
  | nil => intro n h; cases h
  | cons c cs ih =>
    intro n h
    by_cases hbase : c ∈ ['B', 'C', 'D', 'F', 'I', 'J', 'S', 'Z']
    · have hscan := fieldType?_append (.base hbase) cs
      rw [String.toList_singleton, List.singleton_append, h] at hscan
      obtain ⟨rfl, rfl⟩ := Prod.mk.inj (Option.some.inj hscan)
      exact ⟨String.singleton c, .base hbase, rfl, by simp⟩
    by_cases hobject : c = 'L'
    · rw [hobject, fieldType?_object] at h
      obtain ⟨r, hr, heq⟩ := Option.map_eq_some_iff.mp h
      cases heq
      obtain ⟨name, hname, rfl⟩ := eq_of_afterSemicolon? hr
      refine ⟨"L" ++ String.ofList name ++ ";", .object ?_, slotSize_object _, ?_⟩
      · rwa [String.toList_ofList]
      · simp [hobject]
    by_cases harray : c = '['
    · rw [harray, fieldType?_array] at h
      obtain ⟨⟨k, r⟩, hr, heq⟩ := Option.map_eq_some_iff.mp h
      cases heq
      obtain ⟨d, hd, -, rfl⟩ := ih hr
      exact ⟨"[" ++ d, .array hd, slotSize_array d, by simp [harray]⟩
    · rw [fieldType?_other hbase hobject harray] at h
      cases h

/-- The scanner reads exactly the descriptors of fields. -/
theorem fieldType?_eq_some_iff : fieldType? cs = some (n, rest) ↔
    ∃ d, IsFieldType d ∧ slotSize d = n ∧ cs = d.toList ++ rest := by
  constructor
  · exact isFieldType_of_fieldType?
  · rintro ⟨d, hd, rfl, rfl⟩
    exact fieldType?_append hd rest

/-- A descriptor ends in one place only. -/
theorem IsFieldType.append_inj {e : String} {more : List Char} (hd : IsFieldType d)
    (he : IsFieldType e) (h : d.toList ++ rest = e.toList ++ more) : d = e ∧ rest = more := by
  have hscan := fieldType?_append hd rest
  rw [h, fieldType?_append he more] at hscan
  obtain rfl : more = rest := (Prod.mk.inj (Option.some.inj hscan)).2
  exact ⟨String.toList_inj.mp (List.append_cancel_right h), rfl⟩

theorem IsFieldType.head (h : IsFieldType d) :
    ∃ c cs, d.toList = c :: cs ∧ c ≠ ')' ∧ c ≠ 'V' := by
  have hscan := fieldType?_append h []
  rw [List.append_nil] at hscan
  cases hd : d.toList with
  | nil => rw [hd] at hscan; cases hscan
  | cons c cs =>
    rw [hd] at hscan
    refine ⟨c, cs, rfl, ?_, ?_⟩
    · rintro rfl
      cases hscan
    · rintro rfl
      cases hscan

end Field

/-! ## Parameters and result -/

section Method

variable {ds : List String} {cs rest : List Char} {desc r : String} {args n ret : Nat}

/-- Parameters are scanned up to the parenthesis. -/
theorem argumentSlots?_join (h : ∀ d ∈ ds, IsFieldType d) (rest : List Char) :
    ∀ turns slots, ds.length < turns →
      argumentSlots? turns slots (ds.flatMap String.toList ++ ')' :: rest) =
        some (slots + (ds.map slotSize).sum, rest) := by
  induction ds with
  | nil =>
    intro turns slots ht
    cases turns with
    | zero => omega
    | succ turns => simp [argumentSlots?]
  | cons d ds ih =>
    intro turns slots ht
    obtain ⟨hd, hds⟩ := List.forall_mem_cons.mp h
    obtain ⟨c, cs, hcs, hc, -⟩ := hd.head
    cases turns with
    | zero => omega
    | succ turns =>
      rw [List.length_cons] at ht
      have hfield := fieldType?_append hd (ds.flatMap String.toList ++ ')' :: rest)
      have hnext := ih hds turns (slots + slotSize d) (by omega)
      rw [List.flatMap_cons, List.append_assoc]
      rw [hcs, List.cons_append] at hfield ⊢
      rw [argumentSlots?, if_neg hc, hfield]
      dsimp only
      rw [hnext, List.map_cons, List.sum_cons, Nat.add_assoc]

/-- What is scanned up to the parenthesis are descriptors of parameters. -/
theorem isFieldType_of_argumentSlots? {turns : Nat} : ∀ {slots : Nat} {cs : List Char},
    argumentSlots? turns slots cs = some (n, rest) →
      ∃ ds : List String, (∀ d ∈ ds, IsFieldType d) ∧
        cs = ds.flatMap String.toList ++ ')' :: rest ∧ n = slots + (ds.map slotSize).sum := by
  induction turns with
  | zero => intro slots cs h; cases h
  | succ turns ih =>
    intro slots cs h
    cases cs with
    | nil => cases h
    | cons c cs =>
      rw [argumentSlots?] at h
      split at h
      · rename_i hc
        cases h
        exact ⟨[], List.forall_mem_nil _, by rw [hc]; rfl, rfl⟩
      · split at h
        · cases h
        · rename_i k more hfield
          obtain ⟨d, hd, rfl, heq⟩ := fieldType?_eq_some_iff.mp hfield
          obtain ⟨ds, hds, rfl, rfl⟩ := ih h
          refine ⟨d :: ds, List.forall_mem_cons.mpr ⟨hd, hds⟩, ?_, ?_⟩
          · rw [heq, List.flatMap_cons, List.append_assoc]
          · rw [List.map_cons, List.sum_cons, Nat.add_assoc]

theorem resultSlots?_eq_some_iff :
    resultSlots? r.toList = some n ↔ (r = "V" ∨ IsFieldType r) ∧ n = resultSize r := by
  by_cases hr : r = "V"
  · subst hr
    rw [resultSlots?, if_pos (show "V".toList = ['V'] from rfl), resultSize, if_pos rfl,
      Option.some_inj, eq_comm]
    exact (and_iff_right (.inl rfl)).symm
  · have hl : r.toList ≠ ['V'] := fun h => hr (String.toList_inj.mp h)
    rw [resultSlots?, if_neg hl, resultSize, if_neg hr]
    constructor
    · intro h
      split at h
      · rename_i k hfield
        cases h
        obtain ⟨d, hd, rfl, heq⟩ := fieldType?_eq_some_iff.mp hfield
        rw [List.append_nil, String.toList_inj] at heq
        subst heq
        exact ⟨.inr hd, rfl⟩
      · cases h
    · rintro ⟨hfield, rfl⟩
      have hscan := fieldType?_append (hfield.resolve_left hr) []
      rw [List.append_nil] at hscan
      rw [hscan]

theorem length_le_length_flatMap (h : ∀ d ∈ ds, IsFieldType d) :
    ds.length ≤ (ds.flatMap String.toList).length := by
  rw [List.length_flatMap, ← List.length_map (f := fun d : String => d.toList.length)]
  refine List.length_le_sum_of_one_le _ fun k hk => ?_
  obtain ⟨d, hd, rfl⟩ := List.mem_map.mp hk
  obtain ⟨c, cs, hcs, -⟩ := (h d hd).head
  rw [hcs, List.length_cons]
  omega

theorem toList_methodType (ds : List String) (r : String) :
    ("(" ++ String.join ds ++ ")" ++ r).toList =
      '(' :: (ds.flatMap String.toList ++ ')' :: r.toList) := by
  simp

/-- The slots of a method can be told exactly if it has a descriptor: they are those of its
parameters and of its result. -/
theorem descriptorSlots?_eq_some_iff : descriptorSlots? desc = some (args, ret) ↔
    ∃ params result, IsMethodType desc params result ∧
      args = (params.map slotSize).sum ∧ ret = resultSize result := by
  constructor
  · intro h
    unfold descriptorSlots? at h
    split at h
    · rename_i cs hcs
      split at h
      · cases h
      · rename_i k rest hargs
        obtain ⟨m, hm, heq⟩ := Option.map_eq_some_iff.mp h
        cases heq
        obtain ⟨ds, hds, rfl, rfl⟩ := isFieldType_of_argumentSlots? hargs
        rw [← String.toList_ofList (l := rest), resultSlots?_eq_some_iff] at hm
        refine ⟨ds, String.ofList rest, ⟨?_, hds, hm.1⟩, Nat.zero_add _, hm.2⟩
        rw [← String.toList_inj, toList_methodType, String.toList_ofList, hcs]
    · cases h
  · rintro ⟨ds, r, ⟨rfl, hds, hr⟩, rfl, rfl⟩
    have hlen := length_le_length_flatMap hds
    have hargs := argumentSlots?_join hds r.toList
      ((ds.flatMap String.toList ++ ')' :: r.toList).length + 1) 0
      (by rw [List.length_append]; omega)
    have hresult := resultSlots?_eq_some_iff.mpr ⟨hr, rfl⟩
    unfold descriptorSlots?
    simp only [toList_methodType, hargs, hresult, Option.map_some, Nat.zero_add]

end Method

end ClassFile
end Kotlet

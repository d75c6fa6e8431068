import Mathlib.Data.List.Forall2
import Kotlet.ClassFile.Descriptor

/-!
# Descriptors by kind

What the types of a descriptor take on the operand stack and in the local variables, slot by slot.

* `Kind` : the kinds of slots;
* `descriptorKinds?` : the kinds of the arguments and of the result of a method;
* `descriptorSlots?_of_kinds` : kinds and slots are counted alike;
* `IsField` : a descriptor of a field that can stand anywhere in a longer one;
* `descriptorKinds?_join` : a descriptor that is put together from those of its parts.
-/

namespace Kotlet
namespace ClassFile

/-- The kind of a slot. -/
inductive Kind where
  | int
  /-- Half of a long number. -/
  | half
  | ref
  deriving DecidableEq


/-- The kinds of the field type at the start of a text, and what comes after it. -/
def fieldKinds? : List Char → Option (List Kind × List Char)
  | [] => none
  | c :: cs =>
    match c with
    | 'B' | 'C' | 'I' | 'S' | 'Z' => some ([.int], cs)
    | 'J' => some ([.half, .half], cs)
    | 'L' => (afterSemicolon? cs).map fun rest => ([.ref], rest)
    | '[' => (fieldType? cs).map fun p => ([.ref], p.2)
    | _ => none

/-- The kinds of argument types up to the closing parenthesis, after those in `acc`, and what comes
after it; there are fewer types than `turns`. -/
def argumentKinds? : Nat → List Kind → List Char → Option (List Kind × List Char)
  | 0, _, _ => none
  | _, _, [] => none
  | turns + 1, acc, c :: cs =>
    if c = ')' then some (acc, cs)
    else
      match fieldKinds? (c :: cs) with
      | none => none
      | some (ks, rest) => argumentKinds? turns (acc ++ ks) rest

/-- The kinds of a result type. -/
def resultKinds? (cs : List Char) : Option (List Kind) :=
  if cs = ['V'] then some []
  else
    match fieldKinds? cs with
    | some (ks, []) => some ks
    | _ => none

/-- The kinds of the arguments and of the result of a method. -/
def descriptorKinds? (desc : String) : Option (List Kind × List Kind) :=
  match desc.toList with
  | '(' :: cs =>
    match argumentKinds? (cs.length + 1) [] cs with
    | none => none
    | some (args, rest) => (resultKinds? rest).map fun result => (args, result)
  | _ => none

theorem fieldType?_of_kinds {cs rest : List Char} {ks : List Kind}
    (h : fieldKinds? cs = some (ks, rest)) : fieldType? cs = some (ks.length, rest) := by
  cases cs with
  | nil => simp [fieldKinds?] at h
  | cons c cs =>
    unfold fieldKinds? at h
    dsimp only at h
    split at h
    all_goals try (cases h; rfl)
    · obtain ⟨r, hr, heq⟩ := Option.map_eq_some_iff.mp h
      cases heq
      exact congrArg (Option.map fun rest => (1, rest)) hr
    · obtain ⟨r, hr, heq⟩ := Option.map_eq_some_iff.mp h
      cases heq
      exact congrArg (Option.map fun p => (1, p.2)) hr
    · cases h

theorem argumentSlots?_of_kinds {turns : Nat} : ∀ {acc ks : List Kind} {cs rest : List Char},
    argumentKinds? turns acc cs = some (ks, rest) →
      argumentSlots? turns acc.length cs = some (ks.length, rest) := by
  induction turns with
  | zero => intro acc ks cs rest h; simp [argumentKinds?] at h
  | succ turns ih =>
    intro acc ks cs rest h
    cases cs with
    | nil => simp [argumentKinds?] at h
    | cons c cs =>
      unfold argumentKinds? at h
      unfold argumentSlots?
      split at h
      · rename_i hc
        cases h
        rw [if_pos hc]
      · rename_i hc
        rw [if_neg hc]
        cases hf : fieldKinds? (c :: cs) with
        | none => rw [hf] at h; cases h
        | some p =>
          obtain ⟨fs, more⟩ := p
          rw [hf] at h
          rw [fieldType?_of_kinds hf]
          have := ih h
          rw [List.length_append] at this
          exact this

theorem resultSlots?_of_kinds {cs : List Char} {ks : List Kind} (h : resultKinds? cs = some ks) :
    resultSlots? cs = some ks.length := by
  unfold resultKinds? at h
  unfold resultSlots?
  split at h
  · rename_i hv
    cases h
    rw [if_pos hv]
    rfl
  · rename_i hv
    rw [if_neg hv]
    split at h
    · rename_i hf
      cases h
      rw [fieldType?_of_kinds hf]
    · cases h

/-- Kinds and slots are counted alike. -/
theorem descriptorSlots?_of_kinds {desc : String} {args result : List Kind}
    (h : descriptorKinds? desc = some (args, result)) :
    descriptorSlots? desc = some (args.length, result.length) := by
  unfold descriptorKinds? at h
  split at h
  · rename_i cs hcs
    simp only [descriptorSlots?, hcs]
    split at h
    · cases h
    · rename_i as rest hargs
      obtain ⟨r, hr, heq⟩ := Option.map_eq_some_iff.mp h
      cases heq
      have := argumentSlots?_of_kinds hargs
      simp only [List.length_nil] at this
      simp [this, resultSlots?_of_kinds hr]
  · cases h

/-! ## Descriptors put together -/

/-- A descriptor of a field, wherever it stands. -/
def IsField (d : String) (ks : List Kind) : Prop :=
  ∀ rest, fieldKinds? (d.toList ++ rest) = some (ks, rest)

theorem isField_int : IsField "I" [.int] := fun _ => rfl

theorem isField_boolean : IsField "Z" [.int] := fun _ => rfl

theorem afterSemicolon?_append {cs : List Char} (h : ';' ∉ cs) (rest : List Char) :
    afterSemicolon? (cs ++ ';' :: rest) = some rest := by
  induction cs with
  | nil => rfl
  | cons c cs ih =>
    obtain ⟨hc, hcs⟩ := not_or.mp (List.mem_cons.not.mp h)
    rw [List.cons_append, afterSemicolon?, if_neg (Ne.symm hc)]
    exact ih hcs

theorem isField_class {name : String} (h : ';' ∉ name.toList) :
    IsField ("L" ++ name ++ ";") [.ref] := by
  intro rest
  have hl : ("L" ++ name ++ ";").toList ++ rest = 'L' :: (name.toList ++ ';' :: rest) := by
    simp
  rw [hl]
  unfold fieldKinds?
  dsimp only
  rw [afterSemicolon?_append h]
  rfl

theorem isField_array {d : String} {ks : List Kind} (h : IsField d ks) :
    IsField ("[" ++ d) [.ref] := by
  intro rest
  have hl : ("[" ++ d).toList ++ rest = '[' :: (d.toList ++ rest) := by
    simp
  rw [hl]
  unfold fieldKinds?
  dsimp only
  rw [fieldType?_of_kinds (h rest)]
  rfl

/-- A field starts with a character of its own. -/
theorem IsField.head {d : String} {ks : List Kind} (h : IsField d ks) :
    ∃ c cs, d.toList = c :: cs ∧ c ≠ ')' ∧ c ≠ 'V' := by
  have h₀ := h []
  rw [List.append_nil] at h₀
  cases hd : d.toList with
  | nil => rw [hd] at h₀; cases h₀
  | cons c cs =>
    rw [hd] at h₀
    refine ⟨c, cs, rfl, ?_, ?_⟩
    · rintro rfl
      cases h₀
    · rintro rfl
      cases h₀

theorem argumentKinds?_join {ds : List String} {kss : List (List Kind)}
    (h : List.Forall₂ IsField ds kss) (rest : List Char) : ∀ (turns : Nat) (acc : List Kind),
      ds.length < turns → argumentKinds? turns acc (ds.flatMap String.toList ++ ')' :: rest) =
        some (acc ++ kss.flatten, rest) := by
  induction h with
  | nil =>
    intro turns acc ht
    cases turns with
    | zero => omega
    | succ turns => simp [argumentKinds?]
  | @cons d ks ds kss hd hrest ih =>
    intro turns acc ht
    obtain ⟨c, cs, hcs, hc, -⟩ := hd.head
    cases turns with
    | zero => omega
    | succ turns =>
      rw [List.length_cons] at ht
      have hfield := hd (ds.flatMap String.toList ++ ')' :: rest)
      have hnext := ih turns (acc ++ ks) (by omega)
      rw [List.flatMap_cons, List.append_assoc]
      rw [hcs, List.cons_append] at hfield ⊢
      rw [argumentKinds?, if_neg hc, hfield]
      dsimp only
      rw [hnext, List.flatten_cons, List.append_assoc]

theorem IsField.result {d : String} {ks : List Kind} (h : IsField d ks) :
    resultKinds? d.toList = some ks := by
  have hfield := h []
  rw [List.append_nil] at hfield
  obtain ⟨c, cs, hcs, -, hc⟩ := h.head
  have hne : d.toList ≠ ['V'] := by
    rw [hcs]
    intro heq
    cases heq
    exact hc rfl
  rw [resultKinds?, if_neg hne, hfield]

/-- The kinds of a descriptor are those of its parts. -/
theorem descriptorKinds?_join {ds : List String} {kss : List (List Kind)} {r : String}
    {ks : List Kind} (h : List.Forall₂ IsField ds kss) (hr : resultKinds? r.toList = some ks) :
    descriptorKinds? ("(" ++ String.join ds ++ ")" ++ r) = some (kss.flatten, ks) := by
  have hl : ("(" ++ String.join ds ++ ")" ++ r).toList =
      '(' :: (ds.flatMap String.toList ++ ')' :: r.toList) := by
    simp
  have hlen : ds.length ≤ (ds.flatMap String.toList).length := by
    clear hl hr
    induction h with
    | nil => simp
    | cons hd _ ih =>
      obtain ⟨c, cs, hcs, -⟩ := hd.head
      simp only [List.flatMap_cons, List.length_append, List.length_cons, hcs]
      omega
  have hargs := argumentKinds?_join h r.toList
    ((ds.flatMap String.toList ++ ')' :: r.toList).length + 1) []
    (by simp only [List.length_append]; omega)
  unfold descriptorKinds?
  simp only [hl, hargs, hr, Option.map_some, List.nil_append]

end ClassFile
end Kotlet

import Kotlet.Eval
import Kotlet.Proofs.ClassFile.ModifiedUtf8

/-!
# The order of strings

Strings are ordered by their UTF-16 code units. A character beyond U+FFFF starts with a surrogate
and comes before the characters from U+E000 to U+FFFF, so this is neither the order of code points
nor that of bytes. It is linear all the same.

* `units_injective` : a string is known from its code units;
* `compareUnits_eq_compare`, `compareUnits_eq_lt` : the comparison of code units is lexicographic;
* `Eval.compare_strings` : a comparison of two strings in a running program;
* `compareByUnits_linear` : the order is linear, and the six comparisons follow it.
-/

namespace Kotlet

/-! ## Sequences of code units -/

/-- A string is known from its code units: they are read back as its characters. -/
theorem units_injective : Function.Injective units := by
  intro s t h
  have hchars (u : String) : ModifiedUtf8.charsOfUnits [] (units u) = u.toList :=
    ModifiedUtf8.charsOfUnits_flatMap u.toList []
  apply String.toList_injective
  rw [← hchars s, ← hchars t, h]

theorem compareUnits_eq_compare (us vs : List Nat) : compareUnits us vs = compare us vs := by
  induction us generalizing vs with
  | nil => cases vs <;> rfl
  | cons a us ih =>
    cases vs with
    | nil => rfl
    | cons b vs =>
      rw [compareUnits, List.compare_cons_cons, ih]
      rcases Nat.lt_trichotomy a b with h | rfl | h
      · rw [if_pos h, Nat.compare_eq_lt.mpr h]
        rfl
      · rw [if_neg (Nat.lt_irrefl a), if_neg (Nat.lt_irrefl a), Nat.compare_eq_eq.mpr rfl]
        rfl
      · rw [if_neg (Nat.lt_asymm h), if_pos h, Nat.compare_eq_gt.mpr h]
        rfl

theorem compareUnits_eq_lt {us vs : List Nat} : compareUnits us vs = .lt ↔ us < vs := by
  induction us generalizing vs with
  | nil => cases vs <;> simp [compareUnits]
  | cons a us ih =>
    cases vs with
    | nil => simp [compareUnits]
    | cons b vs =>
      rw [compareUnits, List.cons_lt_cons_iff, ← ih]
      split
      · simp [*]
      · split
        · simp only [reduceCtorEq, false_iff]
          omega
        · simp only [*, false_or]
          exact ⟨fun h => ⟨by omega, h⟩, And.right⟩

/-! ## Strings -/

theorem compareByUnits_eq {s t : String} : compareByUnits s t = .eq ↔ s = t := by
  rw [compareByUnits, compareUnits_eq_compare, Std.compare_eq_iff_eq]
  exact units_injective.eq_iff

theorem compareByUnits_swap (s t : String) : compareByUnits t s = (compareByUnits s t).swap := by
  rw [compareByUnits, compareByUnits, compareUnits_eq_compare, compareUnits_eq_compare]
  exact Std.OrientedCmp.eq_swap

theorem compareByUnits_le_trans {s t u : String} (hst : (compareByUnits s t).isLE)
    (htu : (compareByUnits t u).isLE) : (compareByUnits s u).isLE := by
  rw [compareByUnits, compareUnits_eq_compare] at *
  exact Std.TransCmp.isLE_trans hst htu

/-- Two steps of the same sign make one of that sign. -/
theorem compareByUnits_trans {s t u : String} (h : compareByUnits s t = compareByUnits t u) :
    compareByUnits s u = compareByUnits s t := by
  cases hst : compareByUnits s t with
  | eq => rw [compareByUnits_eq.mp hst, ← h, hst]
  | lt =>
    rw [hst] at h
    rw [compareByUnits, compareUnits_eq_compare] at *
    exact Std.TransCmp.lt_trans hst h.symm
  | gt =>
    rw [hst] at h
    rw [compareByUnits, compareUnits_eq_compare] at *
    exact Std.TransCmp.gt_trans hst h.symm

/-! ## Comparisons in a running program -/

namespace Eval

/-- A comparison of two strings asks for their order by code units. -/
theorem compare_strings {functions : List FunDecl} {fuel : Nat} {l r : Expr} {s t : String}
    {m m₁ m₂ : Machine} (hl : expr functions fuel l m = .ok (.string s) m₁)
    (hr : expr functions fuel r m₁ = .ok (.string t) m₂) (mark : Mark) {op : String} {c : CompareOp}
    (hop : CompareOp.ofText? op = some c) :
    expr functions (fuel + 1) (.compare mark op l r) m =
      .ok (.bool (c.holds (compareByUnits s t))) m₂ := by
  have hrun : expr functions (fuel + 1) (.compare mark op l r) m =
      comparison mark.tok op (.string s) (.string t) m₂ := by
    rw [expr]
    simp only [bind, EStateM.bind, hl, hr]
  rw [hrun, comparison]
  simp only [hop]
  rfl

/-- Of two strings exactly one of `<`, `==` and `>` holds, and the other three comparisons are the
opposites of these. -/
theorem compare_strings_trichotomy {functions : List FunDecl} {fuel : Nat} {l r : Expr} {s t : String}
    {m m₁ m₂ : Machine} (hl : expr functions fuel l m = .ok (.string s) m₁)
    (hr : expr functions fuel r m₁ = .ok (.string t) m₂) (mark : Mark) :
    ∃ lt eq gt : Bool, [lt, eq, gt].count true = 1 ∧ (eq = true ↔ s = t) ∧
      ∀ op b, (op, b) ∈ [("<", lt), ("==", eq), (">", gt), (">=", !lt), ("!=", !eq), ("<=", !gt)] →
        expr functions (fuel + 1) (.compare mark op l r) m = .ok (.bool b) m₂ := by
  have hasks (op : String) (c : CompareOp) (hop : CompareOp.ofText? op = some c) :=
    compare_strings hl hr mark hop
  refine ⟨CompareOp.lt.holds (compareByUnits s t), CompareOp.eq.holds (compareByUnits s t),
    CompareOp.gt.holds (compareByUnits s t), ?_, ?_, ?_⟩
  · cases compareByUnits s t <;> rfl
  · rw [← compareByUnits_eq]
    exact beq_iff_eq
  · simp only [List.mem_cons, Prod.mk.injEq, List.not_mem_nil, or_false]
    rintro op b (⟨rfl, rfl⟩ | ⟨rfl, rfl⟩ | ⟨rfl, rfl⟩ | ⟨rfl, rfl⟩ | ⟨rfl, rfl⟩ | ⟨rfl, rfl⟩)
    · exact hasks "<" .lt rfl
    · exact hasks "==" .eq rfl
    · exact hasks ">" .gt rfl
    · exact hasks ">=" .ge rfl
    · exact hasks "!=" .ne rfl
    · exact hasks "<=" .le rfl

end Eval

/-- The order of strings by code units is linear: only equal strings are level, the sign turns
around with the strings, it is transitive, and it is that of the lexicographic order of the code
units. In a running program exactly one of `<`, `==` and `>` holds of two strings, and `>=`, `!=`
and `<=` are the opposites of these. -/
theorem compareByUnits_linear :
    (∀ s t : String, compareByUnits s t = .eq ↔ s = t) ∧
      (∀ s t : String, compareByUnits t s = (compareByUnits s t).swap) ∧
      (∀ s t u : String, (compareByUnits s t).isLE → (compareByUnits t u).isLE →
        (compareByUnits s u).isLE) ∧
      (∀ s t u : String, compareByUnits s t = compareByUnits t u →
        compareByUnits s u = compareByUnits s t) ∧
      (∀ s t : String, compareByUnits s t = .lt ↔ units s < units t) ∧
      ∀ (functions : List FunDecl) (fuel : Nat) (mark : Mark) (l r : Expr) (s t : String)
        (m m₁ m₂ : Machine), Eval.expr functions fuel l m = .ok (.string s) m₁ →
        Eval.expr functions fuel r m₁ = .ok (.string t) m₂ →
        ∃ lt eq gt : Bool, [lt, eq, gt].count true = 1 ∧ (eq = true ↔ s = t) ∧
          ∀ op b, (op, b) ∈
              [("<", lt), ("==", eq), (">", gt), (">=", !lt), ("!=", !eq), ("<=", !gt)] →
            Eval.expr functions (fuel + 1) (.compare mark op l r) m = .ok (.bool b) m₂ :=
  ⟨fun _ _ => compareByUnits_eq, compareByUnits_swap, fun _ _ _ => compareByUnits_le_trans,
    fun _ _ _ => compareByUnits_trans, fun _ _ => compareUnits_eq_lt,
    fun _ _ mark _ _ _ _ _ _ _ hl hr => Eval.compare_strings_trichotomy hl hr mark⟩

/-- U+1F600 comes before U+FFFD, although its code point is larger and so are its bytes. -/
theorem compareByUnits_linear_surrogates :
    compareByUnits (String.singleton (Char.ofNat 0x1f600)) "\ufffd" = .lt ∧
      ∃ lt eq gt : Bool, [lt, eq, gt].count true = 1 ∧
        (eq = true ↔ String.singleton (Char.ofNat 0x1f600) = "\ufffd") ∧
        ∀ op b, (op, b) ∈ [("<", lt), ("==", eq), (">", gt), (">=", !lt), ("!=", !eq), ("<=", !gt)] →
          Eval.expr [] 2 (.compare default op
            (.str default (String.singleton (Char.ofNat 0x1f600)) []) (.str default "\ufffd" []))
            .start = .ok (.bool b) .start :=
  ⟨by decide, compareByUnits_linear.2.2.2.2.2 [] 1 default _ _ _ _ .start .start .start rfl rfl⟩

end Kotlet

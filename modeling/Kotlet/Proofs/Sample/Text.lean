import Kotlet.Proofs.Sample.Draft
import Mathlib.Algebra.Group.Nat.Defs

/-!
# The expressions of sample programs as texts

What the texts of expressions are read as. A text that is put between two others is read together with
them: behind an operator the operands of a number are grouped anew, and the number is still one.

* `Reads` : a text that a rule of the grammar reads as something with a property;
* `reads_nat`, `reads_name`, `reads_parens`, `reads_call` : what stands between operators;
* `Extends`, `isSum_append` : a number behind another one and an operator;
* `ReadsNumber`, `leads_int` : numbers;
* `leads_condition` : conditions;
* `reads_string`, `leads_printing` : strings with templates in them.
-/

namespace Kotlet
namespace Sample

open Token (IsSpelling Free free_cons free_nil isNumeral)
open Written (IsName Is First Then Writes writes_nil writes_operator name_of_is lineEnds_nil Infix)
open Grammar

variable {α β : Type} {lit : Token → Expr → Prop} {F : Arities} {S : List Var} {d d' : Draft}
  {depth i j k n : Nat} {text a b op v : String} {R : Reading α} {R' : Reading β} {P : α → Prop} {Q : β → Prop}

/-! ## Texts and rules -/

/-- The rule reads the text as something with a property. -/
def Reads (text : String) (R : Reading α) (P : α → Prop) : Prop :=
  Writes false text.toList fun us => ∃ a, R us a ∧ P a

theorem Reads.map (h : Reads text R P) (hR : ∀ us a, R us a → P a → ∃ b, R' us b ∧ Q b) : Reads text R' Q := by
  refine Writes.mono h ?_
  rintro us ⟨a, ha, hP⟩
  exact hR us a ha hP

theorem Reads.mono {P' : α → Prop} (h : Reads text R P) (hP : ∀ a, P a → P' a) : Reads text R P' :=
  h.map fun _ a hread ha => ⟨a, hread, hP a ha⟩

/-! ## What stands between operators -/

section Primary

variable {u : Reading Expr} {P Q : Expr → Prop}

theorem Reads.product (h : Reads text u P) : Reads text (IsProduct u) P :=
  h.map fun _ e hread he => ⟨e, .one hread, he⟩

theorem Reads.sum (h : Reads text u P) : Reads text (IsSum u) P :=
  h.map fun _ e hread he => ⟨e, .one (.one hread), he⟩

theorem Reads.comparison (h : Reads text (IsSum u) P) : Reads text (IsComparison u) P :=
  h.map fun _ e hread he => ⟨e, .one hread, he⟩

theorem Reads.logical (h : Reads text (IsComparison u) P) : Reads text (IsLogical u) P :=
  h.map fun _ e hread he => ⟨e, .one hread, he⟩

theorem Reads.unary (h : Reads text (IsPrimary lit (IsExpr lit n)) P) : Reads text (IsUnary lit n) P :=
  h.map fun _ e hread he => ⟨e, isUnary_of_isPrimary hread, he⟩

theorem toInt_ofNat (hi : i < 2 ^ 31) : (Int32.ofNat i).toInt = i := Int32.toInt_ofNat_of_lt hi

/-- The digits of a number that is not too large. -/
theorem writes_nat (hi : i < 2 ^ 31) : Writes false (toString i).toList fun us =>
    ∃ t, us = [t] ∧ t.kind = .int ∧ t.literal = .int (Int32.ofNat i) := by
  have hvalue := toInt_ofNat hi
  have hpos : ¬ Int32.ofNat i < 0 := by
    rw [Int32.lt_iff_toInt_lt, hvalue]
    exact Int.not_lt.mpr (Int.natCast_nonneg i)
  have htext : (toString (Int32.ofNat i).toInt).toList = (toString i).toList := by rw [hvalue]; rfl
  rw [← htext]
  intro p rest ts hrest hts
  exact ⟨[_], ⟨_, rfl, rfl, rfl⟩, fun b _ => (hts true).integer (fun hneg => absurd hneg hpos) hrest⟩

theorem reads_nat (hi : i < 2 ^ 31) :
    Reads (toString i) (IsUnary lit n) fun e => ∃ m, e = .int m (Int32.ofNat i) := by
  refine Writes.mono (writes_nat hi) ?_
  rintro _ ⟨t, rfl, hkind, hliteral⟩
  exact ⟨_, isUnary_of_isPrimary (.int hkind), .ofToken t, by simp [number, hliteral]⟩

/-- A number as an operand, as an argument or as an index. -/
theorem reads_natExpr (hi : i < 2 ^ 31) :
    Reads (toString i) (IsExpr lit (n + 1)) fun e => ∃ m, e = .int m (Int32.ofNat i) :=
  (reads_nat hi).sum.comparison.logical

theorem writes_name (hv : IsName v) : Writes false v.toList fun us =>
    ∃ t, us = [t] ∧ t.kind = .ident ∧ (Grammar.name t).name = v := by
  obtain ⟨hspelling, hkind⟩ := hv
  refine ((writes_nil.word hspelling free_nil nofun).mono ?_).of_eq (List.append_nil _).symm
  rintro _ ⟨t, _, rfl, ht, rfl⟩
  exact ⟨t, rfl, ht.kind.trans hkind, name_of_is ht⟩

theorem reads_name (hv : IsName v) {E : Reading Expr} :
    Reads v (IsTarget E) fun t => ∃ id, t = .name id ∧ id.name = v := by
  refine Writes.mono (writes_name hv) ?_
  rintro _ ⟨t, rfl, hkind, hname⟩
  exact ⟨_, .name hkind, _, rfl, hname⟩

theorem Reads.read {P : Target → Prop} (h : Reads text (IsTarget (IsExpr lit n)) P) :
    Reads text (IsUnary lit n) fun e => ∃ t, e = .read t ∧ P t :=
  h.map fun _ t hread ht => ⟨.read t, isUnary_of_isPrimary (.read hread), t, rfl, ht⟩

/-- An expression between parentheses, brackets or braces. -/
theorem reads_parens {E : Reading Expr} (h : Reads text E P) :
    Reads ("(" ++ text ++ ")") (IsPrimary lit E) P := by
  have hall := (Writes.append h (writes_nil.lone (c := ')') rfl nofun) (free_cons rfl (by decide))).lone
    (c := '(') rfl nofun
  refine (hall.mono ?_).of_eq (by simp)
  rintro _ ⟨o, _, rfl, ho, us, _, rfl, ⟨e, hread, he⟩, c, _, rfl, hc, rfl⟩
  exact ⟨e, .parens ho.kind lineEnds_nil hread lineEnds_nil hc.kind, he⟩

theorem reads_element {E : Reading Expr} (hv : IsName v)
    (hE : Reads (toString i) E fun e => ∃ m, e = .int m (Int32.ofNat i)) :
    Reads (v ++ "[" ++ toString i ++ "]") (IsTarget E) fun t =>
      ∃ m m' base, t = .element m base (.int m' (Int32.ofNat i)) ∧ base.name = v := by
  have hindex := (Writes.append hE (writes_nil.lone (c := ']') rfl nofun) (free_cons rfl (by decide))).lone
    (c := '[') rfl nofun
  refine (((writes_name hv).append hindex (free_cons rfl (by decide))).mono ?_).of_eq (by simp)
  rintro _ ⟨_, _, rfl, ⟨t, rfl, hkind, hname⟩, o, _, rfl, ho, us, _, rfl, ⟨_, hread, m, rfl⟩, c, _, rfl, hc, rfl⟩
  exact ⟨_, .element hkind ho.kind lineEnds_nil hread lineEnds_nil hc.kind, _, m, _, rfl, hname⟩

/-- Texts with commas between them, each of which is read as something of its own. -/
theorem writes_commas {γ : Type} {comma : List Token → Prop} (hcomma : ∀ t, t.kind = .comma → comma [t])
    {f : γ → String} {Q : γ → α → Prop} {xs : List γ} (hne : xs ≠ []) (h : ∀ x ∈ xs, Reads (f x) R (Q x)) :
    Writes false (", ".intercalate (xs.map f)).toList fun us =>
      ∃ as, Separated comma R us as ∧ List.Forall₂ Q xs as := by
  suffices Writes false ([',', ' '].intercalate (xs.map (String.toList ∘ f))) _ from this.of_eq (by simp)
  induction xs with
  | nil => exact absurd rfl hne
  | cons x xs ih =>
    have hfirst := h x List.mem_cons_self
    cases xs with
    | nil =>
      refine (Writes.mono hfirst ?_).of_eq (by simp)
      rintro us ⟨a, hread, ha⟩
      exact ⟨[a], .one hread, .cons ha .nil⟩
    | cons x' xs =>
      have hrest := ih (List.cons_ne_nil _ _) fun y hy => h y (List.mem_cons_of_mem _ hy)
      rw [List.map_cons, List.map_cons, List.intercalate_cons_cons, ← List.map_cons]
      refine ((Writes.append hfirst (hrest.spaced (c := ',') rfl nofun) (free_cons rfl (by decide))).mono
        ?_).of_eq (by simp)
      rintro _ ⟨us, _, rfl, ⟨a, hread, ha⟩, c, vs, rfl, hc, as, hreads, has⟩
      exact ⟨a :: as, .more hread (hcomma c hc.kind) hreads, .cons ha has⟩

theorem forall_of_forall₂ {P : β → Prop} {as : List α} {bs : List β}
    (h : List.Forall₂ (fun _ b => P b) as bs) : ∀ b ∈ bs, P b := by
  induction h with
  | nil => exact nofun
  | cons hb _ ih => exact List.forall_mem_cons.mpr ⟨hb, ih⟩

/-- Expressions with commas between them, up to the parenthesis behind them. -/
theorem writes_elements {E : Reading Expr} {texts : List String} (hne : texts ≠ [])
    (h : ∀ t ∈ texts, Reads t E P) : Writes false ((", ".intercalate texts).toList ++ [')']) fun us =>
      ∃ vs t es, us = vs ++ [t] ∧ t.kind = .rparen ∧ Separated LinesCommaLines E vs es ∧
        es.length = texts.length ∧ ∀ e ∈ es, P e := by
  have hcommas := writes_commas (f := id) (fun _ => Written.linesCommaLines_singleton) hne h
  rw [List.map_id] at hcommas
  refine (hcommas.append (writes_nil.lone (c := ')') rfl nofun) (free_cons rfl (by decide))).mono ?_
  rintro _ ⟨vs, _, rfl, ⟨es, hreads, hes⟩, t, _, rfl, ht, rfl⟩
  exact ⟨vs, t, es, rfl, ht.kind, hreads, hes.length_eq.symm, forall_of_forall₂ hes⟩

theorem reads_call {E : Reading Expr} {args : List String} (hv : IsName v) (h : ∀ t ∈ args, Reads t E P) :
    Reads (v ++ "(" ++ ", ".intercalate args ++ ")") (IsPrimary lit E) fun e =>
      ∃ m callee es, e = .call (.mk m callee es) ∧ callee.name = v ∧ es.length = args.length ∧
        ∀ e ∈ es, P e := by
  suffices Writes false ((", ".intercalate args).toList ++ [')']) fun us =>
      ∃ es, AreArguments E us es ∧ es.length = args.length ∧ ∀ e ∈ es, P e by
    refine (((writes_name hv).append (this.lone (c := '(') rfl nofun) (free_cons rfl (by decide))).mono ?_).of_eq
      (by simp)
    rintro _ ⟨_, _, rfl, ⟨t, rfl, hkind, hname⟩, o, vs, rfl, ho, es, hargs, hes⟩
    exact ⟨_, .call (.mk hkind ho.kind hargs), _, _, es, rfl, hname, hes⟩
  by_cases hne : args = []
  · subst hne
    refine ((writes_nil.lone (c := ')') rfl nofun).mono ?_).of_eq (by simp)
    rintro _ ⟨t, _, rfl, ht, rfl⟩
    exact ⟨[], .none lineEnds_nil ht.kind, rfl, by simp⟩
  · refine (writes_elements hne h).mono ?_
    rintro _ ⟨vs, t, es, rfl, ht, hreads, hes⟩
    exact ⟨es, .some lineEnds_nil hreads lineEnds_nil ht, hes⟩

end Primary

/-! ## Operators -/

/-- Behind these tokens, of size `j`, every number that the one rule reads is read by the other as the
end of a number. -/
def Extends (F : Arities) (S : List Var) (before : List Token) (j : Nat) (A B : Reading Expr) : Prop :=
  ∀ ⦃us e k⦄, A us e → IsNumber F S k e → ∃ e', B (before ++ us) e' ∧ IsNumber F S (j + k) e'

/-- In a chain they stand in front of the first operand, and what is behind it is grouped anew. -/
theorem Extends.chain {before : List Token} {kinds : List Token.Kind} {operand : Reading Expr}
    (h : Extends F S before j operand (Chain kinds .arith operand)) :
    Extends F S before j (Chain kinds .arith operand) (Chain kinds .arith operand) := by
  intro us e k hread he
  induction hread generalizing k with
  | one hread => exact h hread he
  | @more op ts g us l r _ hop hg hr ih =>
    have happend : before ++ (ts ++ op :: (g ++ us)) = before ++ ts ++ op :: (g ++ us) :=
      (List.append_assoc _ _ _).symm
    rw [happend]
    cases he with
    | arith hn hkind htext hl hr' =>
      obtain ⟨l', hread, hl'⟩ := ih hl
      exact ⟨_, .more hread hop hg hr, .arith (by omega) hkind htext hl' hr'⟩
    | divide hn hkind htext hd hl =>
      obtain ⟨l', hread, hl'⟩ := ih hl
      exact ⟨_, .more hread hop hg hr, .divide (by omega) hkind htext hd hl'⟩

section Operators

variable {u : Reading Expr} {ts us : List Token} {l r : Expr} {o : Token}

theorem extends_more {kinds : List Token.Kind} {operand : Reading Expr} (hl : Chain kinds .arith operand ts l)
    (hl' : IsNumber F S j l) (ho : o.kind ∈ kinds) (hkind : o.kind ∈ [.plus, .minus, .times])
    (hlexeme : o.shown = o.kind.text) :
    Extends F S (ts ++ [o]) (j + 1) operand (Chain kinds .arith operand) := by
  intro us e k hread he
  have happend : ts ++ [o] ++ us = ts ++ o :: ([] ++ us) := by simp
  rw [happend]
  exact ⟨_, .more hl ho lineEnds_nil hread, .arith (by omega) hkind hlexeme hl' he⟩

/-- A product behind a sum and `*` belongs to the last summand. -/
theorem extends_times (hl : IsSum u ts l) (hl' : IsNumber F S j l) (ho : o.kind = .times)
    (hlexeme : o.shown = o.kind.text) : Extends F S (ts ++ [o]) (j + 1) (IsProduct u) (IsSum u) := by
  have hproduct {vs : List Token} {x : Expr} {j : Nat} (hx : IsProduct u vs x) (hx' : IsNumber F S j x) :
      Extends F S (vs ++ [o]) (j + 1) (IsProduct u) (IsProduct u) :=
    (extends_more hx hx' (by simp [ho]) (by simp [ho]) hlexeme).chain
  intro us e k hread he
  cases hl with
  | one hl =>
    obtain ⟨e', hread', he'⟩ := hproduct hl hl' hread he
    exact ⟨e', .one hread', he'⟩
  | @more plus vs g ws x y hx hplus hg hy =>
    have happend : vs ++ plus :: (g ++ ws) ++ [o] ++ us = vs ++ plus :: (g ++ (ws ++ [o] ++ us)) := by simp
    rw [happend]
    cases hl' with
    | arith hn hkind htext hx' hy' =>
      obtain ⟨e', hread', he'⟩ := hproduct hy hy' hread he
      exact ⟨_, .more hx hplus hg hread', .arith (by omega) hkind htext hx' he'⟩
    | divide hn hkind =>
      -- sums have no `/` and no `%` between them
      have hdisjoint : ∀ kind ∈ [Token.Kind.plus, .minus], kind ∉ [Token.Kind.slash, .percent] := by decide
      exact absurd hkind (hdisjoint _ hplus)

/-- Two numbers with `+`, `-` or `*` between them are a number, however they are grouped. -/
theorem isSum_append (hl : IsSum u ts l) (hl' : IsNumber F S j l) (hr : IsSum u us r) (hr' : IsNumber F S k r)
    (ho : o.kind ∈ [.plus, .minus, .times]) (hlexeme : o.shown = o.kind.text) :
    ∃ e, IsSum u (ts ++ o :: us) e ∧ IsNumber F S (j + 1 + k) e := by
  have happend : ts ++ o :: us = ts ++ [o] ++ us := by simp
  rw [happend]
  by_cases htimes : o.kind = .times
  · exact (extends_times hl hl' htimes hlexeme).chain hr hr'
  · have hplus : o.kind ∈ [.plus, .minus] := by simpa [htimes] using ho
    exact (extends_more hl hl' hplus ho hlexeme).chain hr hr'

end Operators

/-! ## Numbers -/

/-- The text is read as a number of a size, where `depth` more expressions may lie inside each other. -/
def ReadsNumber (lit : Token → Expr → Prop) (F : Arities) (S : List Var) (depth k : Nat) (text : String) : Prop :=
  ∀ n, depth ≤ n → Reads text (IsSum (IsUnary lit n)) (IsNumber F S k)

theorem ReadsNumber.expr (h : ReadsNumber lit F S depth k text) (hn : depth ≤ n) :
    Reads text (IsExpr lit (n + 1)) (IsNumber F S k) := (h n hn).comparison.logical

theorem ReadsNumber.mono (h : ReadsNumber lit F S depth k text) {depth' k' : Nat} (hdepth : depth ≤ depth')
    (hk : k ≤ k') : ReadsNumber lit F S depth' k' text :=
  fun n hn => (h n (Nat.le_trans hdepth hn)).mono fun _ he => he.mono hk

theorem readsNumber_nat (hi : i < 2 ^ 31) : ReadsNumber lit F S 0 1 (toString i) := by
  refine fun n _ => (reads_nat hi).sum.mono ?_
  rintro _ ⟨m, rfl⟩
  exact .int (by decide) m _

theorem readsNumber_name (hv : IsName v) (hscope : InScope S .number v) : ReadsNumber lit F S 0 1 v := by
  refine fun n _ => (reads_name hv).read.sum.mono ?_
  rintro _ ⟨_, rfl, id, rfl, rfl⟩
  exact .read (by decide) hscope

theorem readsNumber_arith (ha : ReadsNumber lit F S depth j a) (hb : ReadsNumber lit F S depth k b)
    (hop : op ∈ ["+", "-", "*"]) : ReadsNumber lit F S depth (j + 1 + k) (a ++ " " ++ op ++ " " ++ b) := by
  intro n hn
  obtain ⟨kind, hkind, rfl⟩ : ∃ kind ∈ [Token.Kind.plus, .minus, .times], op = kind.text := by
    simp only [List.mem_cons, List.not_mem_nil, or_false] at hop
    rcases hop with rfl | rfl | rfl
    · exact ⟨.plus, by decide, rfl⟩
    · exact ⟨.minus, by decide, rfl⟩
    · exact ⟨.times, by decide, rfl⟩
  have hoperator : ∀ kind ∈ [Token.Kind.plus, .minus, .times], Infix kind := by decide
  have hright := (writes_operator (hb n hn) (hoperator kind hkind)).blank
  refine ((Writes.append (ha n hn) hright (free_cons rfl (by decide))).mono ?_).of_eq (by simp)
  rintro _ ⟨ts, _, rfl, ⟨l, hl, hl'⟩, o, us, rfl, ho, r, hr, hr'⟩
  exact isSum_append hl hl' hr hr' (ho.kind ▸ hkind) (by rw [ho.shown, ho.kind])

theorem readsNumber_divide (ha : ReadsNumber lit F S depth k a) (hop : op ∈ ["/", "%"]) (hi : i < 9) :
    ReadsNumber lit F S (depth + 1) (k + 2) ("(" ++ a ++ ") " ++ op ++ " " ++ toString (i + 1)) := by
  intro n hn
  obtain ⟨n, rfl⟩ : ∃ j, n = j + 1 := ⟨n - 1, by omega⟩
  obtain ⟨kind, hkind, rfl⟩ : ∃ kind ∈ [Token.Kind.slash, .percent], op = kind.text := by
    simp only [List.mem_cons, List.not_mem_nil, or_false] at hop
    rcases hop with rfl | rfl
    · exact ⟨.slash, by decide, rfl⟩
    · exact ⟨.percent, by decide, rfl⟩
  have hoperator : ∀ kind ∈ [Token.Kind.slash, .percent], Infix kind := by decide
  have hproduct : ∀ kind ∈ [Token.Kind.slash, .percent], kind ∈ [Token.Kind.times, .slash, .percent] := by decide
  have hlt : i + 1 < 2 ^ 31 := by omega
  have hne : Int32.ofNat (i + 1) ≠ 0 := fun hzero => by
    have hvalue := toInt_ofNat hlt
    rw [hzero, Int32.toInt_zero] at hvalue
    omega
  have hleft := (reads_parens (ha.expr (Nat.le_of_succ_le_succ hn))).unary.product
  have hright := (writes_operator (@reads_nat lit _ (n + 1) hlt) (hoperator kind hkind)).blank
  refine ((Writes.append hleft hright (free_cons rfl (by decide))).mono ?_).of_eq (by simp)
  rintro _ ⟨ts, _, rfl, ⟨l, hl, hl'⟩, o, us, rfl, ho, _, hr, m, rfl⟩
  refine ⟨_, .one (.more (g := []) hl (hproduct _ (ho.kind ▸ hkind)) lineEnds_nil hr), ?_⟩
  exact .divide (by omega) (ho.kind ▸ hkind) (by rw [ho.shown]; exact congrArg _ ho.kind.symm) hne hl'

theorem readsNumber_parens (ha : ReadsNumber lit F S depth k a) :
    ReadsNumber lit F S (depth + 1) k ("(" ++ a ++ ")") := by
  intro n hn
  obtain ⟨n, rfl⟩ : ∃ j, n = j + 1 := ⟨n - 1, by omega⟩
  exact (reads_parens (ha.expr (Nat.le_of_succ_le_succ hn))).unary.sum

theorem readsNumber_call {args : List String} (hv : IsName v) (hF : (v, args.length) ∈ F)
    (h : ∀ t ∈ args, ReadsNumber lit F S depth k t) :
    ReadsNumber lit F S (depth + 1) (k + 1) (v ++ "(" ++ ", ".intercalate args ++ ")") := by
  intro n hn
  obtain ⟨n, rfl⟩ : ∃ j, n = j + 1 := ⟨n - 1, by omega⟩
  refine (reads_call hv fun t ht => (h t ht).expr (Nat.le_of_succ_le_succ hn)).unary.sum.mono ?_
  rintro _ ⟨m, callee, es, rfl, rfl, hlen, hes⟩
  exact .call (Nat.lt_succ_self k) (hlen ▸ hF) hes

theorem readsNumber_apply (hv : IsName v) (hscope : InScope S .function v) (ha : ReadsNumber lit F S depth k a) :
    ReadsNumber lit F S (depth + 1) (k + 1) (v ++ "(" ++ a ++ ")") := by
  intro n hn
  obtain ⟨n, rfl⟩ : ∃ j, n = j + 1 := ⟨n - 1, by omega⟩
  have hcall : Reads (v ++ "(" ++ ", ".intercalate [a] ++ ")") (IsPrimary lit (IsExpr lit (n + 1))) _ :=
    reads_call hv fun t ht => List.mem_singleton.mp ht ▸ ha.expr (Nat.le_of_succ_le_succ hn)
  refine hcall.unary.sum.mono ?_
  rintro _ ⟨m, callee, es, rfl, rfl, hlen, hes⟩
  obtain ⟨e, rfl⟩ := List.length_eq_one_iff.mp hlen
  exact .apply (Nat.lt_succ_self k) hscope (hes e (by simp))

theorem isIndex_ofNat (hi : i < 3) : IsIndex (Int32.ofNat i) := by
  have hvalue := toInt_ofNat (i := i) (by omega)
  exact ⟨Int32.le_iff_toInt_le.mpr (by rw [hvalue, Int32.toInt_zero]; omega),
    Int32.lt_iff_toInt_lt.mpr (by rw [hvalue]; exact Int.ofNat_lt.mpr hi)⟩

theorem readsNumber_element (hv : IsName v) (hscope : InScope S .collection v) (hi : i < 3) :
    ReadsNumber lit F S 1 2 (v ++ "[" ++ toString i ++ "]") := by
  intro n hn
  obtain ⟨n, rfl⟩ : ∃ j, n = j + 1 := ⟨n - 1, by omega⟩
  refine (reads_element hv (reads_natExpr (by omega))).read.sum.mono ?_
  rintro _ ⟨_, rfl, m, m', base, rfl, rfl⟩
  exact .element (by decide) hscope (isIndex_ofNat hi)

/-! ## Choices of numbers -/

theorem makes_literal : Makes F S literal fun text => ∃ i < 2 ^ 31, text = toString i := by
  unfold literal
  refine (makes_draw 100).bind fun i hi => .pure ⟨i, ?_, rfl⟩
  have hlt := hi (by decide)
  omega

variable (lit)

theorem makes_atom : Makes F S atom (ReadsNumber lit F S 0 1) := by
  have hliteral : Makes F S literal (ReadsNumber lit F S 0 1) := makes_literal.mono fun _ htext => by
    obtain ⟨i, hi, rfl⟩ := htext
    exact readsNumber_nat hi
  unfold atom
  refine (makes_pick? .number false).bind fun o ho => ?_
  cases o with
  | none => exact hliteral
  | some v =>
    obtain ⟨hv, w, hw, -⟩ := ho v rfl
    refine (makes_draw 2).bind fun i _ => ?_
    split
    · exact .pure (readsNumber_name hv ⟨w, hw⟩)
    · exact hliteral

/-- How large numbers of a depth are. -/
def numberSize : Nat → Nat
  | 0 => 2
  | depth + 1 => 2 * numberSize depth + 2

theorem two_le_numberSize (depth : Nat) : 2 ≤ numberSize depth := by
  cases depth with
  | zero => exact Nat.le_refl 2
  | succ depth => exact Nat.le_add_left 2 _

theorem makes_intWithin (depth : Nat) :
    Makes F S (intWithin depth) (ReadsNumber lit F S depth (numberSize depth)) := by
  have hatom {depth : Nat} : Makes F S atom (ReadsNumber lit F S depth (numberSize depth)) :=
    (makes_atom lit).mono fun _ h => h.mono (Nat.zero_le _) (Nat.le_of_succ_le (two_le_numberSize _))
  induction depth with
  | zero => exact hatom
  | succ depth ih =>
    have hsize := two_le_numberSize depth
    have hdouble : numberSize (depth + 1) = 2 * numberSize depth + 2 := rfl
    have harith : Makes F S (do
        let op ← oneOf ["+", "-", "*"]
        let a ← intWithin depth
        let b ← intWithin depth
        return a ++ " " ++ op ++ " " ++ b) (ReadsNumber lit F S (depth + 1) (numberSize (depth + 1))) := by
      refine (makes_oneOf (List.cons_ne_nil _ _)).bind fun op hop => ih.bind fun a ha => ih.bind fun b hb => ?_
      exact .pure ((readsNumber_arith ha hb hop).mono (Nat.le_succ _) (by omega))
    unfold intWithin
    refine (makes_draw 9).bind fun i _ => ?_
    split
    · exact harith
    · exact harith
    · refine (makes_oneOf (List.cons_ne_nil _ _)).bind fun op hop => ih.bind fun a ha => ?_
      refine (makes_draw 9).bind fun i hi => .pure ?_
      exact (readsNumber_divide ha hop (hi (by decide))).mono (Nat.le_refl _) (by omega)
    · exact ih.bind fun a ha => .pure ((readsNumber_parens ha).mono (Nat.le_refl _) (by omega))
    · refine makes_functions.bind fun d hd => ?_
      obtain ⟨hF, hnames⟩ := hd
      change Makes F S (if d.functions.isEmpty then atom else _) _
      split
      · exact hatom
      · rename_i hne
        refine (makes_draw d.functions.size).bind fun i hi => ?_
        have hlt := hi (Array.size_pos_iff.mpr (by simpa using hne))
        have hmem : d.functions.getD i ("", 0) ∈ F := by
          rw [← hF, List.mem_reverse, Array.mem_toList_iff, Array.getD_eq_getD_getElem?, Array.getElem?_eq_getElem hlt]
          exact Array.getElem_mem hlt
        generalize d.functions.getD i ("", 0) = f at hmem ⊢
        obtain ⟨name, params⟩ := f
        refine (makes_times ih params).bind fun args hargs => .pure ?_
        obtain ⟨hlen, hargs⟩ := hargs
        exact (readsNumber_call (hnames _ hmem) (hlen ▸ hmem) hargs).mono (Nat.le_refl _) (by omega)
    · refine (makes_pick? .function false).bind fun o ho => ?_
      cases o with
      | none => exact hatom
      | some f =>
        obtain ⟨hf, w, hw, -⟩ := ho f rfl
        refine ih.bind fun a ha => .pure ?_
        exact (readsNumber_apply hf ⟨w, hw⟩ ha).mono (Nat.le_refl _) (by omega)
    · refine (makes_pick? .collection false).bind fun o ho => ?_
      cases o with
      | none => exact hatom
      | some a =>
        obtain ⟨ha, w, hw, -⟩ := ho a rfl
        refine (makes_draw 3).bind fun i hi => .pure ?_
        exact (readsNumber_element ha ⟨w, hw⟩ (hi (by decide))).mono (Nat.le_add_left 1 depth) (by omega)
    · exact hatom

/-- A number with up to three levels inside. -/
theorem makes_int : Makes F S int (ReadsNumber lit F S 3 30) := makes_intWithin lit 3

/-! ## Strings -/

section Strings

variable {lit} {cs rest : List Char} {P : Expr → Prop}

open Template (pieces piecesFrom_acc piecesFrom_bare continuesName)
open Parse (joinPieces templateWithin)

/-- What may stand between quotes as it is, without a template. -/
def IsPlain (cs : List Char) : Prop := ∀ c ∈ cs, c ≠ '"' ∧ c ≠ '\\' ∧ c ≠ '$'

instance : DecidablePred IsPlain := fun cs => List.decidableBAll _ cs

theorem isPlain_of_isName (hv : IsName v) : IsPlain v.toList := by
  intro c hc
  have hword := hv.1.2 c hc
  refine ⟨?_, ?_, ?_⟩ <;> (rintro rfl; revert hword; decide)

theorem pieces_plain (h : IsPlain cs) (rest : List Char) :
    pieces (cs ++ rest) = cs.map .char ++ pieces rest := by
  induction cs with
  | nil => rfl
  | cons c cs ih =>
    obtain ⟨hc, hcs⟩ := List.forall_mem_cons.mp h
    rw [List.cons_append, pieces, Written.piecesFrom_char hc.2.2, piecesFrom_acc, ih hcs]
    rfl

/-- A name behind a dollar sign goes as far as names go. -/
theorem pieces_name (hv : IsName v) (hrest : ∀ c ∈ rest.head?, continuesName c = false) :
    pieces ('$' :: (v.toList ++ rest)) = .code v.toList :: pieces rest := by
  obtain ⟨hhead, hall⟩ := hv.1
  obtain ⟨c, cs, hcs⟩ := List.exists_cons_of_ne_nil fun hnil : v.toList = [] => by simp [hnil] at hhead
  rw [hcs] at hhead hall ⊢
  have hnames : ∀ x ∈ cs, continuesName x = true := fun x hx =>
    Template.continuesName_of_continuesWord (hall x (List.mem_cons_of_mem _ hx))
  obtain ⟨htake, hdrop⟩ : rest.takeWhile continuesName = [] ∧ rest.dropWhile continuesName = rest := by
    cases rest with
    | nil => exact ⟨rfl, rfl⟩
    | cons x rest => simp [hrest x rfl]
  rw [List.cons_append, pieces, piecesFrom_bare (by simpa using hhead), List.takeWhile_append_of_pos hnames,
    List.dropWhile_append_of_pos hnames, htake, hdrop, List.append_nil, piecesFrom_acc]
  rfl

theorem pieces_braced {code : List Char} (h : Written.Neat false code) :
    pieces (Written.Bit.braced code ++ rest) = .code code :: pieces rest :=
  (Written.piecesFrom_braced h [] rest).trans (piecesFrom_acc _ _)

/-- Pieces make up a string literal if each template among them is closed and is read. -/
theorem joinPieces_of_codes {template : List Char → Except Diagnostic Expr} {tok : Token}
    {ps : List Template.Piece} (hclosed : .unclosed ∉ ps)
    (hcodes : ∀ code, .code code ∈ ps → ∃ e, template code = .ok e) :
    ∀ text size splices, ∃ e, joinPieces template tok text size splices ps = .ok e := by
  induction ps with
  | nil => exact fun text size splices => ⟨_, rfl⟩
  | cons p ps ih =>
    intro text size splices
    have hrest := ih (fun h => hclosed (List.mem_cons_of_mem _ h)) fun code h => hcodes code (List.mem_cons_of_mem _ h)
    cases p with
    | char c => exact hrest _ _ _
    | code code =>
      obtain ⟨e, he⟩ := hcodes code List.mem_cons_self
      unfold joinPieces
      rw [he]
      exact hrest _ _ _
    | unclosed => exact absurd List.mem_cons_self hclosed

/-- A string is read as a literal whose templates are what their texts are read as. -/
theorem reads_string {s : String} (hplain : ∀ c ∈ s.toList, c ≠ '"' ∧ c ≠ '\\')
    (hclosed : .unclosed ∉ pieces s.toList)
    (hcodes : ∀ code, .code code ∈ pieces s.toList → ∀ t, ∃ e, templateWithin depth t code = .ok e ∧ P e) :
    Reads ("\"" ++ s ++ "\"") (IsUnary (stringAt depth) n) fun e => ∃ m text splices, e = .str m text splices ∧
      Template.InOrder text.toList.length 0 splices ∧ ∀ offset e, .mk offset e ∈ splices → P e := by
  refine ((Written.writes_string (Written.inside_of_plain hplain)).mono ?_).of_eq (by simp)
  rintro _ ⟨t, rfl, hkind, hliteral⟩
  have htext : t.literal.toText.toList = s.toList := by simp [hliteral, Token.Literal.toText]
  obtain ⟨e, he⟩ : ∃ e, joinPieces (templateWithin depth t) t [] 0 [] (pieces s.toList) = .ok e :=
    joinPieces_of_codes hclosed (fun code hcode => (hcodes code hcode t).imp fun _ h => h.1) [] 0 []
  obtain ⟨text, splices, parts, rfl, hsplits⟩ := Template.splits_of_joinPieces he
  have hread : stringAt depth t (.str (.ofToken t) text splices) := by rw [stringAt, htext]; exact he
  refine ⟨_, isUnary_of_isPrimary (.string hkind hread), _, text, splices, rfl, hsplits.inOrder,
    fun offset e hmem => ?_⟩
  obtain ⟨text', all, heq, hall⟩ := tok_of_joinPieces he
  cases heq
  obtain hnil | ⟨offset', code, y, heq, hcode, hy⟩ := hall _ hmem
  · cases hnil
  · cases heq
    obtain ⟨e', he', hP⟩ := hcodes code hcode t
    exact Except.ok.inj (he'.symm.trans hy) ▸ hP

theorem reads_plainString {s : String} (hs : IsPlain s.toList) :
    Reads ("\"" ++ s ++ "\"") (IsUnary (stringAt depth) n) fun e => ∃ m text, e = .str m text [] := by
  have hpieces : pieces s.toList = s.toList.map .char := by
    have h := pieces_plain hs []
    simpa [pieces, Template.piecesFrom] using h
  have hnone (code : List Char) : .code code ∉ pieces s.toList := by simp [hpieces]
  have hread : Reads ("\"" ++ s ++ "\"") (IsUnary (stringAt depth) n) _ :=
    reads_string (P := fun _ => False) (fun c hc => ⟨(hs c hc).1, (hs c hc).2.1⟩) (by simp [hpieces])
      fun code hcode => absurd hcode (hnone code)
  refine hread.mono ?_
  rintro _ ⟨m, text, splices, rfl, -, hsplices⟩
  obtain rfl : splices = [] := List.eq_nil_iff_forall_not_mem.mpr fun x hx => by
    cases x
    exact hsplices _ _ hx
  exact ⟨m, text, rfl⟩

theorem templateWithin_of_readsNumber (h : ReadsNumber (stringAt depth) F S 0 k text) (t : Token) :
    ∃ e, templateWithin (depth + 1) t text.toList = .ok e ∧ IsNumber F S k e :=
  Written.templateWithin_of_writes (h.expr (Nat.zero_le 255)) t

/-- The name and value of a variable, and the value twice. -/
def shown (v : String) : String := v ++ " is $" ++ v ++ ", twice $\x7b" ++ (v ++ " * 2") ++ "\x7d"

theorem pieces_shown (hv : IsName v) : pieces (shown v).toList = v.toList.map .char ++ (" is ".toList.map .char ++
    .code v.toList :: (", twice ".toList.map .char ++ [.code (v ++ " * 2").toList])) := by
  have hneat : Written.Neat false (v ++ " * 2").toList := fun d => by
    simp [Written.neat_word hv.1 d, Written.braceStep]
  have hcomma : ∀ c ∈ (", twice ".toList ++ (Written.Bit.braced (v ++ " * 2").toList ++ [])).head?,
      continuesName c = false := fun c hc => by
    obtain rfl : ',' = c := by simpa using hc
    decide
  have htext : (shown v).toList = v.toList ++ (" is ".toList ++ '$' :: (v.toList ++ (", twice ".toList ++
      (Written.Bit.braced (v ++ " * 2").toList ++ [])))) := by
    simp [shown, Written.Bit.braced]
  rw [htext, pieces_plain (isPlain_of_isName hv), pieces_plain (by decide), pieces_name hv hcomma,
    pieces_plain (by decide), pieces_braced hneat]
  simp [pieces, Template.piecesFrom]

/-- A name ends no string and escapes nothing. -/
theorem unquoted_of_isName (hv : IsName v) : ∀ c ∈ v.toList, c ≠ '"' ∧ c ≠ '\\' := by
  intro c hc
  obtain ⟨hquote, hslash, -⟩ := isPlain_of_isName hv c hc
  exact ⟨hquote, hslash⟩

theorem unquoted_shown (hv : IsName v) : ∀ c ∈ (shown v).toList, c ≠ '"' ∧ c ≠ '\\' := by
  have hname := unquoted_of_isName hv
  simp only [shown, String.toList_append, List.forall_mem_append]
  exact ⟨⟨⟨⟨⟨hname, by simp⟩, hname⟩, by simp⟩, hname, by simp⟩, by simp⟩

theorem reads_shown (hv : IsName v) (hscope : InScope S .number v) :
    Reads ("\"" ++ shown v ++ "\"") (IsUnary (stringAt (depth + 1)) n) (IsPrinted F S 4) := by
  have hname : ReadsNumber (stringAt depth) F S 0 1 v := readsNumber_name hv hscope
  have hdouble : ReadsNumber (stringAt depth) F S 0 3 (v ++ " * 2") := by
    have harith : ReadsNumber (stringAt depth) F S 0 3 (v ++ " " ++ "*" ++ " " ++ toString 2) :=
      readsNumber_arith hname (readsNumber_nat (by decide)) (by decide)
    rw [String.append_assoc, String.append_assoc, String.append_assoc] at harith
    exact harith
  refine (reads_string (P := IsNumber F S 3) (unquoted_shown hv) ?_ fun code hcode t => ?_).mono ?_
  · rw [pieces_shown hv]
    simp [-String.toList_append]
  · have hcodes : code = v.toList ∨ code = (v ++ " * 2").toList := by
      rw [pieces_shown hv] at hcode
      simpa [-String.toList_append] using hcode
    rcases hcodes with rfl | rfl
    · exact templateWithin_of_readsNumber (hname.mono (Nat.le_refl _) (by decide)) t
    · exact templateWithin_of_readsNumber hdouble t
  · rintro _ ⟨m, text, splices, rfl, horder, hsplices⟩
    exact .template (Nat.lt_succ_self 3) horder hsplices

end Strings

/-! ## Conditions -/

section Conditions

variable {lit} {u : Reading Expr} {P Q : Expr → Prop}

/-- The operators that conditions compare with. -/
def comparisons : List String := ["<", "<=", ">", ">=", "==", "!="]

theorem reads_compare (ha : Reads a (IsSum u) P) (hb : Reads b (IsSum u) Q) (hop : op ∈ comparisons) :
    Reads (a ++ " " ++ op ++ " " ++ b) (IsComparison u) fun e =>
      ∃ m l r, e = .compare m op l r ∧ (CompareOp.ofText? op).isSome = true ∧ P l ∧ Q r := by
  obtain ⟨hsome, kind, hkind, rfl⟩ : (CompareOp.ofText? op).isSome = true ∧
      ∃ kind ∈ [Token.Kind.eq, .notEq, .lt, .gt, .le, .ge], op = kind.text := by
    simp only [comparisons, List.mem_cons, List.not_mem_nil, or_false] at hop
    rcases hop with rfl | rfl | rfl | rfl | rfl | rfl
    · exact ⟨rfl, .lt, by decide, rfl⟩
    · exact ⟨rfl, .le, by decide, rfl⟩
    · exact ⟨rfl, .gt, by decide, rfl⟩
    · exact ⟨rfl, .ge, by decide, rfl⟩
    · exact ⟨rfl, .eq, by decide, rfl⟩
    · exact ⟨rfl, .notEq, by decide, rfl⟩
  have hoperator : ∀ kind ∈ [Token.Kind.eq, .notEq, .lt, .gt, .le, .ge], Infix kind := by decide
  have hright := (writes_operator hb (hoperator kind hkind)).blank
  refine ((Writes.append ha hright (free_cons rfl (by decide))).mono ?_).of_eq (by simp)
  rintro _ ⟨ts, _, rfl, ⟨l, hl, hP⟩, o, us, rfl, ho, r, hr, hQ⟩
  exact ⟨_, .two (g := []) hl (ho.kind ▸ hkind) lineEnds_nil hr, .ofToken o, l, r, by rw [ho.shown], hsome, hP, hQ⟩

theorem reads_and_or (ha : Reads a (IsComparison u) (IsTest F S k)) (hb : Reads b (IsComparison u) (IsTest F S k))
    (hop : op ∈ ["&&", "||"]) : Reads (a ++ " " ++ op ++ " " ++ b) (IsLogical u) (IsTest F S (k + 1)) := by
  obtain ⟨kind, hkind, rfl⟩ : ∃ kind ∈ [Token.Kind.and, .or], op = kind.text := by
    simp only [List.mem_cons, List.not_mem_nil, or_false] at hop
    rcases hop with rfl | rfl
    · exact ⟨.and, by decide, rfl⟩
    · exact ⟨.or, by decide, rfl⟩
  have hoperator : ∀ kind ∈ [Token.Kind.and, .or], Infix kind := by decide
  have hright := (writes_operator hb (hoperator kind hkind)).blank
  refine ((Writes.append ha hright (free_cons rfl (by decide))).mono ?_).of_eq (by simp)
  rintro _ ⟨ts, _, rfl, ⟨l, hl, hl'⟩, o, us, rfl, ho, r, hr, hr'⟩
  exact ⟨_, .more (g := []) (.one hl) (ho.kind ▸ hkind) lineEnds_nil hr,
    .logic (Nat.lt_succ_self k) (Nat.lt_succ_self k) hl' hr'⟩

theorem reads_not (ha : Reads a (IsComparison (IsUnary lit n)) (IsTest F S k)) :
    Reads ("!(" ++ a ++ ")") (IsUnary lit (n + 2)) (IsTest F S (k + 1)) := by
  have hparens : Reads ("(" ++ a ++ ")") (IsUnary lit (n + 1)) (IsTest F S k) :=
    Reads.unary (reads_parens (E := IsExpr lit (n + 1)) ha.logical)
  have hbang := Writes.char (c := '!') hparens rfl nofun fun rest _ c hc => Written.apart_of_ne_assign (.inl rfl) ?_
  · refine (hbang.mono ?_).of_eq (by simp)
    rintro _ ⟨o, us, rfl, ho, x, hx, hx'⟩
    exact ⟨_, .inr ⟨o, us, x, ho.kind, hx, rfl, rfl⟩, .not (Nat.lt_succ_self k) hx'⟩
  · obtain rfl : '(' = c := by simpa using hc
    decide

theorem reads_bool {w : String} (hw : w ∈ ["true", "false"]) :
    Reads w (IsComparison (IsUnary lit n)) (IsTest F S 1) := by
  obtain ⟨hspelling, c, hread⟩ : IsSpelling w ∧ ∃ c, ∀ t : Token, t.kind = Token.Kind.ofWord w →
      IsPrimary lit (IsExpr lit n) [t] (.bool (.ofToken t) c) := by
    simp only [List.mem_cons, List.not_mem_nil, or_false] at hw
    rcases hw with rfl | rfl
    · exact ⟨by decide, true, fun t ht => .true ht⟩
    · exact ⟨by decide, false, fun t ht => .false ht⟩
  suffices hprimary : Reads w (IsPrimary lit (IsExpr lit n)) (IsTest F S 1) from hprimary.unary.sum.comparison
  refine ((writes_nil.word hspelling free_nil nofun).mono ?_).of_eq (List.append_nil _).symm
  rintro _ ⟨t, _, rfl, ht, rfl⟩
  exact ⟨_, hread t ht.kind, .bool (by decide) _ c⟩

theorem reads_numbers (ha : ReadsNumber lit F S 0 1 a) (hb : ReadsNumber lit F S 0 1 b) (hop : op ∈ comparisons) :
    Reads (a ++ " " ++ op ++ " " ++ b) (IsComparison (IsUnary lit n)) (IsTest F S 2) := by
  refine (reads_compare (ha n (Nat.zero_le n)) (hb n (Nat.zero_le n)) hop).mono ?_
  rintro _ ⟨m, l, r, rfl, hsome, hl, hr⟩
  exact .numbers (by decide) (by decide) hsome hl hr

theorem reads_texts {s t : String} (hs : IsPlain s.toList) (ht : IsPlain t.toList) (hop : op ∈ comparisons) :
    Reads ("\"" ++ s ++ "\"" ++ " " ++ op ++ " " ++ ("\"" ++ t ++ "\""))
      (IsComparison (IsUnary (stringAt depth) n)) (IsTest F S 2) := by
  refine (reads_compare (reads_plainString hs).sum (reads_plainString ht).sum hop).mono ?_
  rintro _ ⟨m, _, _, rfl, hsome, ⟨_, _, rfl⟩, _, _, rfl⟩
  exact .texts (by decide) hsome

end Conditions

theorem spaced_eq (a op b : String) : a ++ " " ++ op ++ " " ++ b = a ++ (" " ++ op ++ " ") ++ b := by
  simp [String.append_assoc]

theorem makes_freshText (letter : String) : Makes F S (fresh letter) fun name =>
    ∃ i, name.toList = letter.toList ++ Nat.toDigits 10 i := by
  intro d hd
  refine (leads_fresh_text hd letter).mono ?_
  rintro name d' ⟨hk, -, hname⟩
  exact ⟨hk, _, hname⟩

theorem isPlain_of_digits {name : String} {c : Char} (hc : IsPlain [c])
    (hname : name.toList = [c] ++ Nat.toDigits 10 i) : IsPlain name.toList := by
  intro x hx
  rw [hname, List.mem_append] at hx
  rcases hx with hx | hx
  · exact hc x hx
  · have hdigit := Token.isNumeral_of_mem_toDigits hx
    refine ⟨?_, ?_, ?_⟩ <;> (rintro rfl; revert hdigit; decide)

/-- The text is read as a condition, where two more expressions may lie inside each other. -/
def ReadsTest (lit : Token → Expr → Prop) (F : Arities) (S : List Var) (k : Nat) (text : String) : Prop :=
  ∀ n, Reads text (IsLogical (IsUnary lit (n + 2))) (IsTest F S k)

theorem makes_conditionAtom (depth : Nat) : Makes F S conditionAtom fun text =>
    ∀ n, Reads text (IsComparison (IsUnary (stringAt depth) n)) (IsTest F S 2) := by
  unfold conditionAtom
  refine (makes_draw 3).bind fun i _ => ?_
  split
  · exact (makes_oneOf (List.cons_ne_nil _ _)).mono fun w hw n => (reads_bool hw).mono fun _ h => h.mono (by decide)
  · refine (makes_freshText "s").bind fun s hs => (makes_freshText "t").bind fun t ht => .pure fun n => ?_
    obtain ⟨i, hs⟩ := hs
    obtain ⟨j, ht⟩ := ht
    have hread : Reads _ (IsComparison (IsUnary (stringAt depth) n)) (IsTest F S 2) :=
      reads_texts (isPlain_of_digits (c := 's') (by decide) hs) (isPlain_of_digits (c := 't') (by decide) ht)
        (show "<" ∈ comparisons by decide)
    have htext : "\"" ++ s ++ "\"" ++ " " ++ "<" ++ " " ++ ("\"" ++ t ++ "\"") =
        "\"" ++ s ++ "\" < \"" ++ t ++ "\"" := by
      rw [← String.toList_inj]
      simp
    exact htext ▸ hread
  · refine (makes_atom (stringAt depth)).bind fun a ha => ?_
    refine (makes_atom (stringAt depth)).bind fun b hb => .pure fun n => ?_
    have hread := reads_numbers (n := n) ha hb (show "==" ∈ comparisons by decide)
    rw [spaced_eq] at hread
    exact hread

theorem makes_condition (depth : Nat) : Makes F S condition (ReadsTest (stringAt depth) F S 3) := by
  unfold condition
  refine (makes_atom (stringAt depth)).bind fun a ha => (makes_oneOf (List.cons_ne_nil _ _)).bind fun op hop =>
    (makes_atom (stringAt depth)).bind fun b hb => (makes_draw 5).bind fun i _ => ?_
  have htest (n : Nat) :
      Reads (a ++ " " ++ op ++ " " ++ b) (IsComparison (IsUnary (stringAt depth) n)) (IsTest F S 2) :=
    reads_numbers ha hb hop
  split
  · refine (makes_conditionAtom depth).bind fun c hc => .pure fun n => ?_
    have hread := reads_and_or (htest (n + 2)) (hc (n + 2)) (show "&&" ∈ ["&&", "||"] by decide)
    rw [spaced_eq] at hread
    exact hread
  · refine (makes_conditionAtom depth).bind fun c hc => .pure fun n => ?_
    have hread := reads_and_or (htest (n + 2)) (hc (n + 2)) (show "||" ∈ ["&&", "||"] by decide)
    rw [spaced_eq] at hread
    exact hread
  · exact .pure fun n => (reads_not (htest n)).sum.comparison.logical
  · exact .pure fun n => (htest (n + 2)).logical.mono fun _ h => h.mono (by decide)

end Sample
end Kotlet

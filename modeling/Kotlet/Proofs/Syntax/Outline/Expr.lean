import Kotlet.Proofs.Syntax.Outline.Told

/-!
# Expressions told from each other

The first word of an outline tells the sort of an expression; the parts of two expressions of one sort
are told from each other in turn.

* `told_outlineNode`, `told_part` : nodes, given their parts;
* `Expr.sort`, `sortOf_opening` : the sort of an expression, and the word that tells it;
* `Expr.told` with `Target.told`, `Lambda.told` and their kin : expressions.
-/

namespace Kotlet
namespace Outline

open Written (IsName)

/-! ## Heads -/

theorem opens_outlineNode {head : String} (hhead : Unbroken head.toList) (parts : List String) :
    Opens Stop ("(" ++ head).toList (outlineNode head parts).toList := by
  rw [toList_outlineNode, String.toList_append]
  exact opens_node hhead _

theorem told_outlineNode {head head' : String} {parts parts' : List String} {Q : Prop} (hhead : Unbroken head.toList)
    (hhead' : Unbroken head'.toList)
    (h : Told Stop (closed [' '] (parts.map String.toList)) (closed [' '] (parts'.map String.toList)) Q) :
    Told Stop (outlineNode head parts).toList (outlineNode head' parts').toList (head = head' ∧ Q) := by
  rw [toList_outlineNode, toList_outlineNode]
  exact (told_node hhead hhead' h).mono fun hq => ⟨String.toList_inj.mp hq.1, hq.2⟩

theorem told_part {x y : String} {xs ys : List String} {Q R : Prop} (h : Told Stop x.toList y.toList Q)
    (hs : Told Stop (closed [' '] (xs.map String.toList)) (closed [' '] (ys.map String.toList)) R) :
    Told Stop (closed [' '] ((x :: xs).map String.toList)) (closed [' '] ((y :: ys).map String.toList)) (Q ∧ R) :=
  h.item separates_blank hs

theorem told_name_node {x head : String} {parts : List String} {Q : Prop} (hx : IsName x) :
    Told Stop x.toList (outlineNode head parts).toList Q ∧ Told Stop (outlineNode head parts).toList x.toList Q := by
  obtain ⟨c, cs, hcs, -⟩ := starts_name hx
  have hne : c ≠ '(' := by
    rintro rfl
    have hword := hx.1.2 '(' (hcs ▸ List.mem_cons_self)
    exact absurd hword (by decide)
  rw [toList_outlineNode, hcs]
  exact ⟨told_of_ne hne, told_of_ne hne.symm⟩

/-- The head of an increment or decrement. -/
def stepHead (op : String) (before : Bool) : String := if before then op ++ "pre" else "post" ++ op

theorem incDec_outline (m : Mark) (op : String) (before : Bool) (t : Target) :
    (IncDec.mk m op before t).outline = outlineNode (stepHead op before) [t.outline] := by
  cases before <;> simp [IncDec.outline, stepHead]

theorem unbroken_step : ∀ op ∈ ["++", "--"], ∀ before, Unbroken (stepHead op before).toList := by decide

theorem stepHead_inj : ∀ op ∈ ["++", "--"], ∀ op' ∈ ["++", "--"], ∀ before before',
    stepHead op before = stepHead op' before' → op = op' ∧ before = before' := by decide

theorem unbroken_arith : ∀ op ∈ ["+", "-", "*", "/", "%"], Unbroken op.toList := by decide

theorem unbroken_compare : ∀ op ∈ ["==", "!=", "<", ">", "<=", ">="], Unbroken op.toList := by decide

theorem unbroken_logic : ∀ op ∈ ["&&", "||"], Unbroken op.toList := by decide

theorem unbroken_compound : ∀ op ∈ ["+=", "-=", "*=", "/="], Unbroken op.toList := by decide

theorem unbroken_literal (k : CollectionKind) : Unbroken k.literalName.toList := by
  cases k <;> decide

theorem unbroken_sized (k : CollectionKind) : Unbroken k.name.toList := by
  cases k <;> decide

/-! ## Sorts of expressions -/

end Outline

open Outline
open Written (IsName)

/-- The sort of an expression: its kind, but one for all targets. -/
def Expr.sort : Expr → NodeKind
  | .int _ _ => .integerLiteral
  | .bool _ _ => .booleanLiteral
  | .str _ _ _ => .stringLiteral
  | .read _ => .identifier
  | .arith _ _ _ _ => .arithmetic
  | .compare _ _ _ _ => .comparison
  | .logic _ _ _ _ => .logical
  | .not _ _ => .negation
  | .incDec _ => .incDec
  | .collection _ _ _ => .collectionLiteral
  | .sized _ _ _ _ => .sizedConstructor
  | .lambda _ => .lambda
  | .call _ => .call
  | .range _ => .range

/-- The first word of the outline of an expression. -/
def Expr.opening : Expr → String
  | .int _ n => toString n.toInt
  | .bool _ b => boolText b
  | .str _ _ _ => "(str"
  | .read (.name x) => x.name
  | .read (.element _ _ _) => "(index"
  | .arith _ op _ _ => "(" ++ op
  | .compare _ op _ _ => "(" ++ op
  | .logic _ op _ _ => "(" ++ op
  | .not _ _ => "(!"
  | .incDec (.mk _ op before _) => "(" ++ stepHead op before
  | .collection _ k _ => "(" ++ k.literalName
  | .sized _ k _ _ => "(" ++ k.name
  | .lambda _ => "(lambda"
  | .call _ => "(call"
  | .range _ => "(range"

/-- The sort of the expressions whose outline is no name or number and begins with the word. -/
def fixedSorts : List (String × NodeKind) :=
  [("true", .booleanLiteral), ("false", .booleanLiteral), ("(str", .stringLiteral), ("(index", .identifier),
    ("(+", .arithmetic), ("(-", .arithmetic), ("(*", .arithmetic), ("(/", .arithmetic), ("(%", .arithmetic),
    ("(==", .comparison), ("(!=", .comparison), ("(<", .comparison), ("(>", .comparison), ("(<=", .comparison),
    ("(>=", .comparison), ("(&&", .logical), ("(||", .logical), ("(!", .negation), ("(++pre", .incDec),
    ("(--pre", .incDec), ("(post++", .incDec), ("(post--", .incDec), ("(arrayOf", .collectionLiteral),
    ("(mutableListOf", .collectionLiteral), ("(Array", .sizedConstructor), ("(MutableList", .sizedConstructor),
    ("(lambda", .lambda), ("(call", .call), ("(range", .range)]

/-- The sort of the expressions whose outline begins with the word. -/
def sortOf (w : String) : NodeKind :=
  (fixedSorts.lookup w).getD (if w.toList.head?.any Token.startsWord then .identifier else .integerLiteral)

theorem lookup_fixedSorts {w : String} (h : ∀ p ∈ fixedSorts, w ≠ p.1) : fixedSorts.lookup w = none :=
  List.lookup_eq_none_iff.mpr fun p hp => by simpa using h p hp

theorem sortOf_name {x : String} (h : IsName x) : sortOf x = .identifier := by
  have hnone : fixedSorts.lookup x = none := by
    refine lookup_fixedSorts ?_
    rintro p hp rfl
    have hall : ∀ p ∈ fixedSorts, ¬ (Token.IsSpelling p.1 ∧ Token.Kind.ofWord p.1 = .ident) := by decide
    exact hall p hp h
  rw [sortOf, hnone]
  exact if_pos h.1.1

theorem head_integer (n : Int) : ∃ c ∈ (toString n).toList.head?, c = '-' ∨ Token.isNumeral c = true := by
  rw [Token.toList_toString]
  split
  · exact ⟨'-', rfl, .inl rfl⟩
  · obtain ⟨d, ds, hds⟩ := List.exists_cons_of_ne_nil (Nat.toDigits_ne_nil (n := n.natAbs) (b := 10))
    exact ⟨d, by rw [hds]; rfl, .inr (Token.isNumeral_of_mem_toDigits (hds ▸ List.mem_cons_self))⟩

theorem sortOf_integer (n : Int) : sortOf (toString n) = .integerLiteral := by
  obtain ⟨c, hc, hstart⟩ := head_integer n
  have hnone : fixedSorts.lookup (toString n) = none := by
    refine lookup_fixedSorts fun p hp heq => ?_
    have hall : ∀ p ∈ fixedSorts, p.1.toList.head?.any (fun c => c = '-' ∨ Token.isNumeral c = true) = false := by
      decide
    have hhead := hall p hp
    rw [← heq, Option.mem_def.mp hc, Option.any_some, decide_eq_false_iff_not] at hhead
    exact hhead hstart
  have hword : Token.startsWord c = false := by
    rcases hstart with rfl | hdigit
    · decide
    · exact (Token.not_other_of_isNumeral hdigit []).2.2.2.2.1
  rw [sortOf, hnone, Option.mem_def.mp hc, Option.any_some, hword]
  rfl

theorem sortOf_arith : ∀ op ∈ ["+", "-", "*", "/", "%"], sortOf ("(" ++ op) = .arithmetic := by decide

theorem sortOf_compare : ∀ op ∈ ["==", "!=", "<", ">", "<=", ">="], sortOf ("(" ++ op) = .comparison := by decide

theorem sortOf_logic : ∀ op ∈ ["&&", "||"], sortOf ("(" ++ op) = .logical := by decide

theorem sortOf_step : ∀ op ∈ ["++", "--"], ∀ before, sortOf ("(" ++ stepHead op before) = .incDec := by decide

theorem sortOf_opening : ∀ {e : Expr}, e.Legible → sortOf e.opening = e.sort
  | .int _ n, _ => sortOf_integer _
  | .bool _ b, _ => by cases b <;> rfl
  | .str _ _ _, _ => rfl
  | .read (.name x), h => sortOf_name h
  | .read (.element _ _ _), _ => rfl
  | .arith _ op _ _, h => sortOf_arith op h.1
  | .compare _ op _ _, h => sortOf_compare op h.1
  | .logic _ op _ _, h => sortOf_logic op h.1
  | .not _ _, _ => rfl
  | .incDec (.mk _ op before _), h => sortOf_step op h.1 before
  | .collection _ k _, _ => by cases k <;> rfl
  | .sized _ k _ _, _ => by cases k <;> rfl
  | .lambda _, _ => rfl
  | .call _, _ => rfl

theorem opens_word {w : String} (h : Unbroken w.toList) : Opens Stop w.toList w.toList :=
  ⟨[], (List.append_nil _).symm, h, ended_nil⟩

theorem unbroken_bool (b : Bool) : Unbroken (boolText b).toList := by
  cases b <;> decide

theorem opens_expr : ∀ {e : Expr}, e.Legible → Opens Stop e.opening.toList e.outline.toList
  | .int _ n, _ => by rw [Expr.outline]; exact opens_word (unbroken_integer _)
  | .bool _ b, _ => by rw [Expr.outline]; exact opens_word (unbroken_bool b)
  | .str _ _ _, _ => by rw [Expr.outline]; exact opens_outlineNode (by decide) _
  | .read (.name x), h => by rw [Expr.outline, Target.outline]; exact opens_word (unbroken_name h)
  | .read (.element _ _ _), _ => by rw [Expr.outline, Target.outline]; exact opens_outlineNode (by decide) _
  | .arith _ op _ _, h => by rw [Expr.outline]; exact opens_outlineNode (unbroken_arith op h.1) _
  | .compare _ op _ _, h => by rw [Expr.outline]; exact opens_outlineNode (unbroken_compare op h.1) _
  | .logic _ op _ _, h => by rw [Expr.outline]; exact opens_outlineNode (unbroken_logic op h.1) _
  | .not _ _, _ => by rw [Expr.outline]; exact opens_outlineNode (by decide) _
  | .incDec (.mk _ op before _), h => by
    rw [Expr.outline, incDec_outline]
    exact opens_outlineNode (unbroken_step op h.1 before) _
  | .collection _ k _, _ => by rw [Expr.outline]; exact opens_outlineNode (unbroken_literal k) _
  | .sized _ k _ _, _ => by rw [Expr.outline]; exact opens_outlineNode (unbroken_sized k) _
  | .lambda (.mk _ _ _ _), _ => by rw [Expr.outline, Lambda.outline]; exact opens_outlineNode (by decide) _
  | .call (.mk _ _ _), _ => by rw [Expr.outline, Call.outline]; exact opens_outlineNode (by decide) _

/-- Only expressions of one sort have to be told from each other. -/
theorem told_of_sort {a b : Expr} {Q : Prop} (ha : a.Legible) (hb : b.Legible)
    (h : a.sort = b.sort → Told Stop a.outline.toList b.outline.toList Q) :
    Told Stop a.outline.toList b.outline.toList Q := by
  refine Told.of_opens (opens_expr ha) (opens_expr hb) fun hopening => h ?_
  rw [← sortOf_opening ha, ← sortOf_opening hb, String.toList_inj.mp hopening]

/-! ## Expressions -/

theorem told_integer (m n : Int) : Told Stop (toString m).toList (toString n).toList (m = n) :=
  (told_word (unbroken_integer m) (unbroken_integer n)).mono toString_int_inj

theorem boolText_inj : ∀ a b : Bool, (boolText a).toList = (boolText b).toList → a = b := by decide

theorem literalName_inj : ∀ k l : CollectionKind, k.literalName = l.literalName → k = l := by
  intro k l
  cases k <;> cases l <;> decide

theorem collectionName_inj : ∀ k l : CollectionKind, k.name = l.name → k = l := by
  intro k l
  cases k <;> cases l <;> decide

/-- The place of a template, as it is shown. -/
theorem told_offset (m n : Int) : Told Stop ("@" ++ toString m).toList ("@" ++ toString n).toList (m = n) := by
  rw [String.toList_append, String.toList_append]
  exact (told_integer m n).behind ['@']

/-- The parts of a node are told from each other. -/
abbrev ToldParts (xs ys : List String) (Q : Prop) : Prop :=
  Told Stop (closed [' '] (xs.map String.toList)) (closed [' '] (ys.map String.toList)) Q

theorem told_parts_nil : ToldParts [] [] True := told_closed_nil

mutual

theorem Expr.told : ∀ a : Expr, a.Legible → ∀ b : Expr, b.Legible →
    Told Stop a.outline.toList b.outline.toList (a.bare = b.bare)
  | .int m n, ha, b, hb => told_of_sort ha hb fun hsort => by
    cases b with
    | int m' n' =>
      rw [Expr.outline, Expr.outline]
      refine (told_integer n.toInt n'.toInt).mono fun h => ?_
      rw [Expr.bare, Expr.bare, Int32.toInt_inj.mp h]
    | _ => cases hsort
  | .bool m v, ha, b, hb => told_of_sort ha hb fun hsort => by
    cases b with
    | bool m' v' =>
      rw [Expr.outline, Expr.outline]
      refine (told_word (unbroken_bool v) (unbroken_bool v')).mono fun h => ?_
      rw [Expr.bare, Expr.bare, boolText_inj v v' h]
    | _ => cases hsort
  | .str m text ss, ha, b, hb => told_of_sort ha hb fun hsort => by
    cases b with
    | str m' text' ss' =>
      rw [Expr.outline, Expr.outline]
      have hparts := told_part (told_quote text text') (Splice.told ss ha ss' hb)
      refine (told_outlineNode (by decide) (by decide) hparts).mono ?_
      rintro ⟨-, rfl, h⟩
      rw [Expr.bare, Expr.bare, h]
    | _ => cases hsort
  | .read t, ha, b, hb => told_of_sort ha hb fun hsort => by
    cases b with
    | read t' =>
      rw [Expr.outline, Expr.outline]
      refine (Target.told t ha t' hb).mono fun h => ?_
      rw [Expr.bare, Expr.bare, h]
    | _ => cases hsort
  | .arith m op l r, ha, b, hb => told_of_sort ha hb fun hsort => by
    cases b with
    | arith m' op' l' r' =>
      rw [Expr.outline, Expr.outline]
      have hparts := told_part (Expr.told l ha.2.1 l' hb.2.1) (told_part (Expr.told r ha.2.2 r' hb.2.2) told_parts_nil)
      refine (told_outlineNode (unbroken_arith op ha.1) (unbroken_arith op' hb.1) hparts).mono ?_
      rintro ⟨rfl, hl, hr, -⟩
      rw [Expr.bare, Expr.bare, hl, hr]
    | _ => cases hsort
  | .compare m op l r, ha, b, hb => told_of_sort ha hb fun hsort => by
    cases b with
    | compare m' op' l' r' =>
      rw [Expr.outline, Expr.outline]
      have hparts := told_part (Expr.told l ha.2.1 l' hb.2.1) (told_part (Expr.told r ha.2.2 r' hb.2.2) told_parts_nil)
      refine (told_outlineNode (unbroken_compare op ha.1) (unbroken_compare op' hb.1) hparts).mono ?_
      rintro ⟨rfl, hl, hr, -⟩
      rw [Expr.bare, Expr.bare, hl, hr]
    | _ => cases hsort
  | .logic m op l r, ha, b, hb => told_of_sort ha hb fun hsort => by
    cases b with
    | logic m' op' l' r' =>
      rw [Expr.outline, Expr.outline]
      have hparts := told_part (Expr.told l ha.2.1 l' hb.2.1) (told_part (Expr.told r ha.2.2 r' hb.2.2) told_parts_nil)
      refine (told_outlineNode (unbroken_logic op ha.1) (unbroken_logic op' hb.1) hparts).mono ?_
      rintro ⟨rfl, hl, hr, -⟩
      rw [Expr.bare, Expr.bare, hl, hr]
    | _ => cases hsort
  | .not m e, ha, b, hb => told_of_sort ha hb fun hsort => by
    cases b with
    | not m' e' =>
      rw [Expr.outline, Expr.outline]
      have hparts := told_part (Expr.told e ha e' hb) told_parts_nil
      refine (told_outlineNode (by decide) (by decide) hparts).mono ?_
      rintro ⟨-, he, -⟩
      rw [Expr.bare, Expr.bare, he]
    | _ => cases hsort
  | .incDec e, ha, b, hb => told_of_sort ha hb fun hsort => by
    cases b with
    | incDec e' =>
      rw [Expr.outline, Expr.outline]
      refine (IncDec.told e ha e' hb).mono fun h => ?_
      rw [Expr.bare, Expr.bare, h]
    | _ => cases hsort
  | .collection m k es, ha, b, hb => told_of_sort ha hb fun hsort => by
    cases b with
    | collection m' k' es' =>
      rw [Expr.outline, Expr.outline]
      refine (told_outlineNode (unbroken_literal k) (unbroken_literal k') (Expr.told_all es ha es' hb)).mono ?_
      rintro ⟨hk, hes⟩
      rw [Expr.bare, Expr.bare, literalName_inj k k' hk, hes]
    | _ => cases hsort
  | .sized m k size gen, ha, b, hb => told_of_sort ha hb fun hsort => by
    cases b with
    | sized m' k' size' gen' =>
      rw [Expr.outline, Expr.outline]
      have hparts := told_part (Expr.told size ha.1 size' hb.1) (told_part (Lambda.told gen ha.2 gen' hb.2) told_parts_nil)
      refine (told_outlineNode (unbroken_sized k) (unbroken_sized k') hparts).mono ?_
      rintro ⟨hk, hsize, hgen, -⟩
      rw [Expr.bare, Expr.bare, collectionName_inj k k' hk, hsize, hgen]
    | _ => cases hsort
  | .lambda l, ha, b, hb => told_of_sort ha hb fun hsort => by
    cases b with
    | lambda l' =>
      rw [Expr.outline, Expr.outline]
      refine (Lambda.told l ha l' hb).mono fun h => ?_
      rw [Expr.bare, Expr.bare, h]
    | _ => cases hsort
  | .call c, ha, b, hb => told_of_sort ha hb fun hsort => by
    cases b with
    | call c' =>
      rw [Expr.outline, Expr.outline]
      refine (Call.told c ha c' hb).mono fun h => ?_
      rw [Expr.bare, Expr.bare, h]
    | _ => cases hsort
  | .range _, ha, _, _ => ha.elim

theorem Expr.told_all : ∀ as : List Expr, Expr.AllLegible as → ∀ bs : List Expr, Expr.AllLegible bs →
    ToldParts (Expr.outlines as) (Expr.outlines bs) (Expr.bares as = Expr.bares bs)
  | [], _, [], _ => told_parts_nil.mono fun _ => rfl
  | [], _, _ :: _, _ => told_nil_cons separates_blank
  | _ :: _, _, [], _ => told_cons_nil separates_blank
  | a :: as, ha, b :: bs, hb => by
    rw [Expr.outlines, Expr.outlines]
    refine (told_part (Expr.told a ha.1 b hb.1) (Expr.told_all as ha.2 bs hb.2)).mono ?_
    rintro ⟨hfirst, hrest⟩
    rw [Expr.bares, Expr.bares, hfirst, hrest]

theorem Splice.told : ∀ as : List Splice, Splice.AllLegible as → ∀ bs : List Splice, Splice.AllLegible bs →
    ToldParts (Splice.outlines as) (Splice.outlines bs) (Splice.bares as = Splice.bares bs)
  | [], _, [], _ => told_parts_nil.mono fun _ => rfl
  | [], _, .mk _ _ :: _, _ => told_nil_cons separates_blank
  | .mk _ _ :: _, _, [], _ => told_cons_nil separates_blank
  | .mk offset a :: as, ha, .mk offset' b :: bs, hb => by
    rw [Splice.outlines, Splice.outlines]
    have hparts := told_part (Expr.told a ha.1 b hb.1) (Splice.told as ha.2 bs hb.2)
    refine (told_part (told_offset offset offset') hparts).mono ?_
    rintro ⟨rfl, hfirst, hrest⟩
    rw [Splice.bares, Splice.bares, hfirst, hrest]

theorem Target.told : ∀ a : Target, a.Legible → ∀ b : Target, b.Legible →
    Told Stop a.outline.toList b.outline.toList (a.bare = b.bare)
  | .name x, ha, .name y, hb => by
    rw [Target.outline, Target.outline]
    refine (told_word (unbroken_name ha) (unbroken_name hb)).mono fun h => ?_
    rw [Target.bare, Target.bare, Ident.bare, Ident.bare, String.toList_inj.mp h]
  | .name x, ha, .element _ _ _, _ => by
    rw [Target.outline, Target.outline]
    exact (told_name_node ha).1
  | .element _ _ _, _, .name y, hb => by
    rw [Target.outline, Target.outline]
    exact (told_name_node hb).2
  | .element _ x i, ha, .element _ y j, hb => by
    rw [Target.outline, Target.outline]
    have hname := (told_word (unbroken_name ha.1) (unbroken_name hb.1)).mono String.toList_inj.mp
    have hparts := told_part hname (told_part (Expr.told i ha.2 j hb.2) told_parts_nil)
    refine (told_outlineNode (by decide) (by decide) hparts).mono ?_
    rintro ⟨-, hx, hi, -⟩
    rw [Target.bare, Target.bare, Ident.bare, Ident.bare, hx, hi]

theorem IncDec.told : ∀ a : IncDec, a.Legible → ∀ b : IncDec, b.Legible →
    Told Stop a.outline.toList b.outline.toList (a.bare = b.bare)
  | .mk _ op before t, ha, .mk _ op' before' t', hb => by
    rw [incDec_outline, incDec_outline]
    have hparts := told_part (Target.told t ha.2 t' hb.2) told_parts_nil
    refine (told_outlineNode (unbroken_step op ha.1 before) (unbroken_step op' hb.1 before') hparts).mono ?_
    rintro ⟨hhead, ht, -⟩
    obtain ⟨rfl, rfl⟩ := stepHead_inj op ha.1 op' hb.1 before before' hhead
    rw [IncDec.bare, IncDec.bare, ht]

theorem Lambda.told : ∀ a : Lambda, a.Legible → ∀ b : Lambda, b.Legible →
    Told Stop a.outline.toList b.outline.toList (a.bare = b.bare)
  | .mk _ ps e _, ha, .mk _ qs e' _, hb => by
    rw [Lambda.outline, Lambda.outline]
    have hparts := told_part (told_params ha.1 hb.1) (told_part (Expr.told e ha.2 e' hb.2) told_parts_nil)
    refine (told_outlineNode (by decide) (by decide) hparts).mono ?_
    rintro ⟨-, hps, he, -⟩
    rw [Lambda.bare, Lambda.bare, hps, he]

theorem Call.told : ∀ a : Call, a.Legible → ∀ b : Call, b.Legible →
    Told Stop a.outline.toList b.outline.toList (a.bare = b.bare)
  | .mk _ f as, ha, .mk _ g bs, hb => by
    rw [Call.outline, Call.outline]
    have hname := (told_word (unbroken_name ha.1) (unbroken_name hb.1)).mono String.toList_inj.mp
    have hparts := told_part hname (Expr.told_all as ha.2 bs hb.2)
    refine (told_outlineNode (by decide) (by decide) hparts).mono ?_
    rintro ⟨-, hf, has⟩
    rw [Call.bare, Call.bare, Ident.bare, Ident.bare, hf, has]

end

end Kotlet

import Kotlet.Proofs.Syntax.Outline.Expr

/-!
# Which programs have the same outline

An outline shows all of the structure of a program but one thing: a declaration without a value looks
like one with the value `_`.

* `Stmt.opening`, `lookup_opening` : the first word of a statement, which tells its kind;
* `Stmt.told` : statements told from each other;
* `Program.outline_eq_iff` : the programs that have the same outline;
* `Program.outline_blank` : two that have it but differ.
-/

namespace Kotlet

open Outline
open Written (IsName)

/-! ## Parts of statements -/

theorem told_optional {a b : Option Expr} (ha : Expr.LegibleOption a) (hb : Expr.LegibleOption b) :
    ToldParts (Expr.optOutline a) (Expr.optOutline b) (a.map Expr.bare = b.map Expr.bare) := by
  cases a with
  | none =>
    cases b with
    | none => exact told_parts_nil.mono fun _ => rfl
    | some e' => exact told_nil_cons separates_blank
  | some e =>
    cases b with
    | none => exact told_cons_nil separates_blank
    | some e' =>
      refine (told_part (Expr.told e (ha e rfl) e' (hb e' rfl)) told_parts_nil).mono ?_
      rintro ⟨h, -⟩
      rw [Option.map_some, Option.map_some, h]

theorem legible_blank : Expr.blank.Legible := by
  change IsName "_"
  exact ⟨by decide, by decide⟩

/-- A declaration is shown with the value `_` if it has none. -/
theorem outline_value (value : Option Expr) :
    (value.map Expr.outline).getD "_" = (value.getD .blank).outline ∧
      Expr.declared true value = some (value.getD .blank).bare := by
  cases value with
  | none => exact ⟨by simp [Expr.blank, Expr.outline, Target.outline], rfl⟩
  | some e => exact ⟨rfl, rfl⟩

theorem told_value {a b : Option Expr} (ha : Expr.LegibleOption a) (hb : Expr.LegibleOption b) :
    Told Stop ((a.map Expr.outline).getD "_").toList ((b.map Expr.outline).getD "_").toList
      (Expr.declared true a = Expr.declared true b) := by
  have hlegible {v : Option Expr} (hv : Expr.LegibleOption v) : (v.getD .blank).Legible := by
    cases v with
    | none => exact legible_blank
    | some e => exact hv e rfl
  rw [(outline_value a).1, (outline_value a).2, (outline_value b).1, (outline_value b).2]
  exact (Expr.told _ (hlegible ha) _ (hlegible hb)).mono fun h => by rw [h]

theorem told_declaredType {a b : Option Ty} (ha : ∀ t, a = some t → t.Complete) (hb : ∀ t, b = some t → t.Complete) :
    Told Stop ((a.map Ty.text).getD "_").toList ((b.map Ty.text).getD "_").toList (a = b) := by
  cases a with
  | none =>
    cases b with
    | none =>
      have hblank : Unbroken "_".toList := by decide
      exact (told_word hblank hblank).mono fun _ => rfl
    | some u =>
      obtain ⟨c, cs, hcs, -, hne⟩ := type_head u (hb u rfl)
      rw [Option.map_some, Option.getD_some, hcs]
      exact told_of_ne hne.symm
  | some t =>
    obtain ⟨c, cs, hcs, -, hne⟩ := type_head t (ha t rfl)
    cases b with
    | none =>
      rw [Option.map_some, Option.getD_some, hcs]
      exact told_of_ne hne
    | some u => exact (told_type t (ha t rfl) u (hb u rfl)).mono fun h => by rw [h]

theorem told_range_each {r : Range} {e : Expr} {Q : Prop} (he : e.Legible) :
    Told Stop r.outline.toList e.outline.toList Q ∧ Told Stop e.outline.toList r.outline.toList Q := by
  have hrange : Opens Stop "(range".toList r.outline.toList := by
    obtain ⟨_, a, b, step⟩ := r
    cases step <;> rw [Range.outline] <;> exact opens_outlineNode (by decide) _
  have hne : "(range".toList ≠ e.opening.toList := by
    intro h
    have hsort := sortOf_opening he
    rw [← String.toList_inj.mp h] at hsort
    cases e with
    | range r => exact he
    | _ => cases hsort
  exact ⟨.of_opens hrange (opens_expr he) fun h => absurd h hne,
    .of_opens (opens_expr he) hrange fun h => absurd h.symm hne⟩

theorem Header.told (a b : Header) (ha : a.Legible) (hb : b.Legible) :
    Told Stop a.outline.toList b.outline.toList (a.bare = b.bare) := by
  cases a with
  | each e =>
    cases b with
    | each e' => exact (Expr.told e ha e' hb).mono fun h => by rw [Header.bare, Header.bare, h]
    | range r => exact (told_range_each ha).2
  | range r =>
    cases b with
    | each e => exact (told_range_each hb).1
    | range r' =>
      obtain ⟨_, x, y, step⟩ := r
      obtain ⟨_, x', y', step'⟩ := r'
      have hshown (m : Mark) (x y : Expr) (step : Option Expr) : (Range.mk m x y step).outline =
          outlineNode "range" (x.outline :: y.outline :: Expr.optOutline step) := by
        cases step <;> rw [Range.outline] <;> rfl
      have hbare (m : Mark) (x y : Expr) (step : Option Expr) : (Range.mk m x y step).bare =
          .mk default x.bare y.bare (step.map Expr.bare) := by
        cases step <;> rw [Range.bare] <;> rfl
      rw [Header.outline, Header.outline, hshown, hshown]
      have hparts := told_part (Expr.told x ha.1 x' hb.1)
        (told_part (Expr.told y ha.2.1 y' hb.2.1) (told_optional ha.2.2 hb.2.2))
      refine (told_outlineNode (by decide) (by decide) hparts).mono ?_
      rintro ⟨-, hx, hy, hstep⟩
      rw [Header.bare, Header.bare, hbare, hbare, hx, hy, hstep]

/-! ## Statements -/

/-- The first word of the outline of a statement. -/
def Stmt.opening : Stmt → String
  | .decl _ isMutable _ _ _ => "(" ++ if isMutable then "var" else "val"
  | .assign _ _ _ => "(="
  | .compound _ _ op _ => "(" ++ op
  | .selfOp _ (.mk _ op before _) => "(" ++ stepHead op before
  | .print _ newline _ => "(" ++ if newline then "println" else "print"
  | .ifElse _ _ _ _ => "(if"
  | .whileLoop _ _ _ => "(while"
  | .forLoop _ _ _ _ => "(for"
  | .function _ => "(fun"
  | .call _ _ => "(call"
  | .ret _ _ => "(return"
  | .brk _ => "(break"
  | .cont _ => "(continue"
  | .block _ => "(block"

/-- The kinds of statements by the first word of their outlines. -/
def fixedKinds : List (String × NodeKind) :=
  [("(var", .varDeclaration), ("(val", .varDeclaration), ("(=", .assign), ("(+=", .compoundAssign),
    ("(-=", .compoundAssign), ("(*=", .compoundAssign), ("(/=", .compoundAssign), ("(++pre", .selfOp),
    ("(--pre", .selfOp), ("(post++", .selfOp), ("(post--", .selfOp), ("(println", .print), ("(print", .print),
    ("(if", .ifElse), ("(while", .whileLoop), ("(for", .forLoop), ("(fun", .function), ("(call", .callStatement),
    ("(return", .returnStatement), ("(break", .breakStatement), ("(continue", .continueStatement), ("(block", .block)]

theorem lookup_compound : ∀ op ∈ ["+=", "-=", "*=", "/="], fixedKinds.lookup ("(" ++ op) = some .compoundAssign := by
  decide

theorem lookup_step : ∀ op ∈ ["++", "--"], ∀ before, fixedKinds.lookup ("(" ++ stepHead op before) = some .selfOp := by
  decide

theorem lookup_opening : ∀ {s : Stmt}, s.Legible → fixedKinds.lookup s.opening = some s.kind
  | .decl _ isMutable _ _ _, _ => by cases isMutable <;> rfl
  | .assign _ _ _, _ => rfl
  | .compound _ _ op _, h => lookup_compound op h.1
  | .selfOp _ (.mk _ op before _), h => lookup_step op h.1 before
  | .print _ newline _, _ => by cases newline <;> rfl
  | .ifElse _ _ _ _, _ => rfl
  | .whileLoop _ _ _, _ => rfl
  | .forLoop _ _ _ _, _ => rfl
  | .function _, _ => rfl
  | .call _ _, _ => rfl
  | .ret _ _, _ => rfl
  | .brk _, _ => rfl
  | .cont _, _ => rfl
  | .block _, _ => rfl

theorem unbroken_decl (isMutable : Bool) : Unbroken (if isMutable then "var" else "val").toList := by
  cases isMutable <;> decide

theorem unbroken_print (newline : Bool) : Unbroken (if newline then "println" else "print").toList := by
  cases newline <;> decide

theorem declHead_inj : ∀ a b : Bool, (if a then "var" else "val") = (if b then "var" else "val") → a = b := by decide

theorem printHead_inj : ∀ a b : Bool,
    (if a then "println" else "print") = (if b then "println" else "print") → a = b := by decide

theorem opens_stmt : ∀ {s : Stmt}, s.Legible → Opens Stop s.opening.toList s.outline.toList
  | .decl _ isMutable _ _ _, _ => by rw [Stmt.outline]; exact opens_outlineNode (unbroken_decl isMutable) _
  | .assign _ _ _, _ => by rw [Stmt.outline]; exact opens_outlineNode (by decide) _
  | .compound _ _ op _, h => by rw [Stmt.outline]; exact opens_outlineNode (unbroken_compound op h.1) _
  | .selfOp _ (.mk _ op before _), h => by
    rw [Stmt.outline, incDec_outline]
    exact opens_outlineNode (unbroken_step op h.1 before) _
  | .print _ newline _, _ => by rw [Stmt.outline]; exact opens_outlineNode (unbroken_print newline) _
  | .ifElse _ _ _ none, _ => by rw [Stmt.outline]; exact opens_outlineNode (by decide) _
  | .ifElse _ _ _ (some _), _ => by rw [Stmt.outline]; exact opens_outlineNode (by decide) _
  | .whileLoop _ _ _, _ => by rw [Stmt.outline]; exact opens_outlineNode (by decide) _
  | .forLoop _ _ _ _, _ => by rw [Stmt.outline]; exact opens_outlineNode (by decide) _
  | .function (.mk _ _ _ _ _), _ => by rw [Stmt.outline, FunDecl.outline]; exact opens_outlineNode (by decide) _
  | .call _ (.mk _ _ _), _ => by rw [Stmt.outline, Call.outline]; exact opens_outlineNode (by decide) _
  | .ret _ _, _ => by rw [Stmt.outline]; exact opens_outlineNode (by decide) _
  | .brk _, _ => by rw [Stmt.outline]; exact opens_outlineNode (by decide) _
  | .cont _, _ => by rw [Stmt.outline]; exact opens_outlineNode (by decide) _
  | .block (.mk _ _ _), _ => by rw [Stmt.outline, Block.outline]; exact opens_outlineNode (by decide) _

/-- Only statements of one kind have to be told from each other. -/
theorem told_of_kind {a b : Stmt} {Q : Prop} (ha : a.Legible) (hb : b.Legible)
    (h : a.kind = b.kind → Told Stop a.outline.toList b.outline.toList Q) :
    Told Stop a.outline.toList b.outline.toList Q := by
  refine Told.of_opens (opens_stmt ha) (opens_stmt hb) fun hopening => h ?_
  have hkind := lookup_opening ha
  rw [String.toList_inj.mp hopening, lookup_opening hb] at hkind
  exact (Option.some.inj hkind).symm

mutual

theorem Stmt.told : ∀ a : Stmt, a.Legible → ∀ b : Stmt, b.Legible →
    Told Stop a.outline.toList b.outline.toList (a.bare true = b.bare true)
  | .decl _ isMutable x ty value, ha, b, hb => told_of_kind ha hb fun hkind => by
    cases b with
    | decl _ isMutable' x' ty' value' =>
      rw [Stmt.outline, Stmt.outline]
      have hname := (told_word (unbroken_name ha.1) (unbroken_name hb.1)).mono String.toList_inj.mp
      have hparts := told_part hname (told_part (told_declaredType ha.2.1 hb.2.1)
        (told_part (told_value ha.2.2 hb.2.2) told_parts_nil))
      refine (told_outlineNode (unbroken_decl isMutable) (unbroken_decl isMutable') hparts).mono ?_
      rintro ⟨hhead, hx, rfl, hvalue, -⟩
      rw [Stmt.bare, Stmt.bare, Ident.bare, Ident.bare, declHead_inj _ _ hhead, hx, hvalue]
    | _ => cases hkind
  | .assign _ t v, ha, b, hb => told_of_kind ha hb fun hkind => by
    cases b with
    | assign _ t' v' =>
      rw [Stmt.outline, Stmt.outline]
      have hparts := told_part (Target.told t ha.1 t' hb.1) (told_part (Expr.told v ha.2 v' hb.2) told_parts_nil)
      refine (told_outlineNode (by decide) (by decide) hparts).mono ?_
      rintro ⟨-, ht, hv, -⟩
      rw [Stmt.bare, Stmt.bare, ht, hv]
    | _ => cases hkind
  | .compound _ t op v, ha, b, hb => told_of_kind ha hb fun hkind => by
    cases b with
    | compound _ t' op' v' =>
      rw [Stmt.outline, Stmt.outline]
      have hparts := told_part (Target.told t ha.2.1 t' hb.2.1)
        (told_part (Expr.told v ha.2.2 v' hb.2.2) told_parts_nil)
      refine (told_outlineNode (unbroken_compound op ha.1) (unbroken_compound op' hb.1) hparts).mono ?_
      rintro ⟨rfl, ht, hv, -⟩
      rw [Stmt.bare, Stmt.bare, ht, hv]
    | _ => cases hkind
  | .selfOp _ e, ha, b, hb => told_of_kind ha hb fun hkind => by
    cases b with
    | selfOp _ e' =>
      rw [Stmt.outline, Stmt.outline]
      refine (IncDec.told e ha e' hb).mono fun h => ?_
      rw [Stmt.bare, Stmt.bare, h]
    | _ => cases hkind
  | .print _ newline value, ha, b, hb => told_of_kind ha hb fun hkind => by
    cases b with
    | print _ newline' value' =>
      rw [Stmt.outline, Stmt.outline]
      refine (told_outlineNode (unbroken_print newline) (unbroken_print newline') (told_optional ha hb)).mono ?_
      rintro ⟨hhead, hvalue⟩
      rw [Stmt.bare, Stmt.bare, printHead_inj _ _ hhead, hvalue]
    | _ => cases hkind
  | .ifElse _ c x none, ha, b, hb => told_of_kind ha hb fun hkind => by
    cases b with
    | ifElse _ c' x' y' =>
      cases y' with
      | none =>
        rw [Stmt.outline, Stmt.outline]
        have hparts := told_part (Expr.told c ha.1 c' hb.1) (told_part (Block.told x ha.2 x' hb.2) told_parts_nil)
        refine (told_outlineNode (by decide) (by decide) hparts).mono ?_
        rintro ⟨-, hc, hx, -⟩
        rw [Stmt.bare, Stmt.bare, hc, hx]
      | some y' =>
        rw [Stmt.outline, Stmt.outline]
        have hparts : ToldParts [c.outline, x.outline] [c'.outline, x'.outline, y'.outline] (_ ∧ _ ∧ False) :=
          told_part (Expr.told c ha.1 c' hb.1)
            (told_part (Block.told x ha.2 x' hb.2.1) (told_nil_cons separates_blank))
        exact (told_outlineNode (by decide) (by decide) hparts).mono fun h => h.2.2.2.elim
    | _ => cases hkind
  | .ifElse _ c x (some y), ha, b, hb => told_of_kind ha hb fun hkind => by
    cases b with
    | ifElse _ c' x' y' =>
      cases y' with
      | none =>
        rw [Stmt.outline, Stmt.outline]
        have hparts : ToldParts [c.outline, x.outline, y.outline] [c'.outline, x'.outline] (_ ∧ _ ∧ False) :=
          told_part (Expr.told c ha.1 c' hb.1)
            (told_part (Block.told x ha.2.1 x' hb.2) (told_cons_nil separates_blank))
        exact (told_outlineNode (by decide) (by decide) hparts).mono fun h => h.2.2.2.elim
      | some y' =>
        rw [Stmt.outline, Stmt.outline]
        have hparts := told_part (Expr.told c ha.1 c' hb.1)
          (told_part (Block.told x ha.2.1 x' hb.2.1) (told_part (Block.told y ha.2.2 y' hb.2.2) told_parts_nil))
        refine (told_outlineNode (by decide) (by decide) hparts).mono ?_
        rintro ⟨-, hc, hx, hy, -⟩
        rw [Stmt.bare, Stmt.bare, hc, hx, hy]
    | _ => cases hkind
  | .whileLoop _ c x, ha, b, hb => told_of_kind ha hb fun hkind => by
    cases b with
    | whileLoop _ c' x' =>
      rw [Stmt.outline, Stmt.outline]
      have hparts := told_part (Expr.told c ha.1 c' hb.1) (told_part (Block.told x ha.2 x' hb.2) told_parts_nil)
      refine (told_outlineNode (by decide) (by decide) hparts).mono ?_
      rintro ⟨-, hc, hx, -⟩
      rw [Stmt.bare, Stmt.bare, hc, hx]
    | _ => cases hkind
  | .forLoop _ v h x, ha, b, hb => told_of_kind ha hb fun hkind => by
    cases b with
    | forLoop _ v' h' x' =>
      rw [Stmt.outline, Stmt.outline]
      have hname := (told_word (unbroken_name ha.1) (unbroken_name hb.1)).mono String.toList_inj.mp
      have hparts := told_part hname (told_part (Header.told h h' ha.2.1 hb.2.1)
        (told_part (Block.told x ha.2.2 x' hb.2.2) told_parts_nil))
      refine (told_outlineNode (by decide) (by decide) hparts).mono ?_
      rintro ⟨-, hv, hh, hx, -⟩
      rw [Stmt.bare, Stmt.bare, Ident.bare, Ident.bare, hv, hh, hx]
    | _ => cases hkind
  | .function f, ha, b, hb => told_of_kind ha hb fun hkind => by
    cases b with
    | function f' =>
      rw [Stmt.outline, Stmt.outline]
      refine (FunDecl.told f ha f' hb).mono fun h => ?_
      rw [Stmt.bare, Stmt.bare, h]
    | _ => cases hkind
  | .call _ c, ha, b, hb => told_of_kind ha hb fun hkind => by
    cases b with
    | call _ c' =>
      rw [Stmt.outline, Stmt.outline]
      refine (Call.told c ha c' hb).mono fun h => ?_
      rw [Stmt.bare, Stmt.bare, h]
    | _ => cases hkind
  | .ret _ value, ha, b, hb => told_of_kind ha hb fun hkind => by
    cases b with
    | ret _ value' =>
      rw [Stmt.outline, Stmt.outline]
      refine (told_outlineNode (by decide) (by decide) (told_optional ha hb)).mono ?_
      rintro ⟨-, hvalue⟩
      rw [Stmt.bare, Stmt.bare, hvalue]
    | _ => cases hkind
  | .brk _, ha, b, hb => told_of_kind ha hb fun hkind => by
    cases b with
    | brk _ =>
      rw [Stmt.outline, Stmt.outline]
      exact (told_outlineNode (by decide) (by decide) told_parts_nil).mono fun _ => rfl
    | _ => cases hkind
  | .cont _, ha, b, hb => told_of_kind ha hb fun hkind => by
    cases b with
    | cont _ =>
      rw [Stmt.outline, Stmt.outline]
      exact (told_outlineNode (by decide) (by decide) told_parts_nil).mono fun _ => rfl
    | _ => cases hkind
  | .block x, ha, b, hb => told_of_kind ha hb fun hkind => by
    cases b with
    | block x' =>
      rw [Stmt.outline, Stmt.outline]
      refine (Block.told x ha x' hb).mono fun h => ?_
      rw [Stmt.bare, Stmt.bare, h]
    | _ => cases hkind

theorem Stmt.told_all : ∀ as : List Stmt, Stmt.AllLegible as → ∀ bs : List Stmt, Stmt.AllLegible bs →
    ToldParts (Stmt.outlines as) (Stmt.outlines bs) (Stmt.bares true as = Stmt.bares true bs)
  | [], _, [], _ => by
    rw [Stmt.outlines]
    exact told_parts_nil.mono fun _ => rfl
  | [], _, _ :: _, _ => by
    rw [Stmt.outlines, Stmt.outlines]
    exact told_nil_cons separates_blank
  | _ :: _, _, [], _ => by
    rw [Stmt.outlines, Stmt.outlines]
    exact told_cons_nil separates_blank
  | a :: as, ha, b :: bs, hb => by
    rw [Stmt.outlines, Stmt.outlines]
    refine (told_part (Stmt.told a ha.1 b hb.1) (Stmt.told_all as ha.2 bs hb.2)).mono ?_
    rintro ⟨hfirst, hrest⟩
    rw [Stmt.bares, Stmt.bares, hfirst, hrest]

theorem Block.told : ∀ a : Block, a.Legible → ∀ b : Block, b.Legible →
    Told Stop a.outline.toList b.outline.toList (a.bare true = b.bare true)
  | .mk _ as _, ha, .mk _ bs _, hb => by
    rw [Block.outline, Block.outline]
    refine (told_outlineNode (by decide) (by decide) (Stmt.told_all as ha bs hb)).mono ?_
    rintro ⟨-, h⟩
    rw [Block.bare, Block.bare, h]

theorem FunDecl.told : ∀ a : FunDecl, a.Legible → ∀ b : FunDecl, b.Legible →
    Told Stop a.outline.toList b.outline.toList (a.bare true = b.bare true)
  | .mk _ x ps r body, ha, .mk _ x' ps' r' body', hb => by
    rw [FunDecl.outline, FunDecl.outline]
    have hname := (told_word (unbroken_name ha.1) (unbroken_name hb.1)).mono String.toList_inj.mp
    have hparts := told_part hname (told_part (told_params ha.2.1 hb.2.1)
      (told_part (told_type r ha.2.2.1 r' hb.2.2.1)
        (told_part (Block.told body ha.2.2.2 body' hb.2.2.2) told_parts_nil)))
    refine (told_outlineNode (by decide) (by decide) hparts).mono ?_
    rintro ⟨-, hx, hps, rfl, hbody, -⟩
    rw [FunDecl.bare, FunDecl.bare, Ident.bare, Ident.bare, hx, hps, hbody]

end

/-! ## Programs -/

theorem bares_of_lines : ∀ {as bs : List Stmt}, Stmt.AllLegible as → Stmt.AllLegible bs →
    ((Stmt.outlines as).map String.toList).flatMap (['\n'] ++ ·) =
      ((Stmt.outlines bs).map String.toList).flatMap (['\n'] ++ ·) → Stmt.bares true as = Stmt.bares true bs
  | [], [], _, _, _ => rfl
  | [], _ :: _, _, _, h => by simp [Stmt.outlines] at h
  | _ :: _, [], _, _, h => by simp [Stmt.outlines] at h
  | a :: as, b :: bs, ha, hb, h => by
    have hended (ss : List Stmt) : Ended Stop (((Stmt.outlines ss).map String.toList).flatMap (['\n'] ++ ·)) := by
      cases ss with
      | nil => rw [Stmt.outlines]; exact ended_nil
      | cons s ss => rw [Stmt.outlines]; exact ended_cons.mpr (by decide)
    simp only [Stmt.outlines, List.map_cons, List.flatMap_cons, List.cons_append, List.nil_append,
      List.cons.injEq, true_and] at h
    obtain ⟨hfirst, hrest⟩ := Stmt.told a ha.1 b hb.1 _ _ (hended as) (hended bs) h
    rw [Stmt.bares, Stmt.bares, hfirst, bares_of_lines ha.2 hb.2 hrest]

theorem outline_ne_nil {s : Stmt} (h : s.Legible) : s.outline.toList ≠ [] := by
  obtain ⟨t, ht, -⟩ := opens_stmt h
  have hopening : s.opening.toList ≠ [] := by
    intro hnil
    have hkind := lookup_opening h
    rw [String.toList_eq_nil_iff.mp hnil] at hkind
    cases hkind
  rw [ht]
  exact List.append_ne_nil_of_left_ne_nil hopening _

theorem bares_of_outline {as bs : List Stmt} (ha : Stmt.AllLegible as) (hb : Stmt.AllLegible bs)
    (h : "\n".intercalate (Stmt.outlines as) = "\n".intercalate (Stmt.outlines bs)) :
    Stmt.bares true as = Stmt.bares true bs := by
  have hchars := congrArg String.toList h
  simp only [String.toList_intercalate] at hchars
  rw [show "\n".toList = ['\n'] from rfl] at hchars
  cases as with
  | nil =>
    cases bs with
    | nil => rfl
    | cons b bs =>
      simp only [Stmt.outlines, List.map_nil, List.map_cons, List.intercalate_nil, intercalate_cons] at hchars
      exact absurd (List.append_eq_nil_iff.mp hchars.symm).1 (outline_ne_nil hb.1)
  | cons a as =>
    cases bs with
    | nil =>
      simp only [Stmt.outlines, List.map_nil, List.map_cons, List.intercalate_nil, intercalate_cons] at hchars
      exact absurd (List.append_eq_nil_iff.mp hchars).1 (outline_ne_nil ha.1)
    | cons b bs =>
      refine bares_of_lines ha hb ?_
      simp only [Stmt.outlines, List.map_cons, intercalate_cons] at hchars ⊢
      exact congrArg (['\n'] ++ ·) hchars

/-- Programs have the same outline exactly if they have the same structure, declarations without a value
taken for ones with the value `_`. -/
theorem Program.outline_eq_iff {text text' : Text} {p q : Program} (hp : p.OfText text) (hq : q.OfText text') :
    (p.outline = q.outline ↔ p.bare true = q.bare true) ∧
      (p.bare false = q.bare false → p.outline = q.outline) ∧
      (Stmt.anyBlank p.stmts = false → Stmt.anyBlank q.stmts = false →
        p.outline = q.outline → p.bare false = q.bare false) := by
  have hbare (h : p.outline = q.outline) : p.bare true = q.bare true := bares_of_outline hp.legible hq.legible h
  refine ⟨⟨hbare, Program.outline_of_bare⟩, Program.outline_of_bare, fun hnp hnq h => ?_⟩
  have hemptied := congrArg Stmt.allEmptied (hbare h)
  rw [Program.bare, Program.bare, Stmt.allEmptied_bares _ hnp, Stmt.allEmptied_bares _ hnq] at hemptied
  exact hemptied

/-- Whether a statement declares a variable with a value. -/
def Stmt.declaresValue : Stmt → Bool
  | .decl _ _ _ _ (some _) => true
  | _ => false

/-- A variable without a value, and one with the value `_`. -/
theorem Program.outline_blank : ∃ p q : Program, p.OfText "val x" ∧ q.OfText "val x = _" ∧
    p.outline = q.outline ∧ p.bare false ≠ q.bare false := by
  have hrun : ((Program.ofText? "val x").bind fun p => (Program.ofText? "val x = _").map fun q =>
      (decide (p.outline = q.outline), (p.bare false).map Stmt.declaresValue, (q.bare false).map Stmt.declaresValue)) =
        some (true, [false], [true]) := by
    decide +kernel
  obtain ⟨p, hp, hrun⟩ := Option.bind_eq_some_iff.mp hrun
  obtain ⟨q, hq, hrun⟩ := Option.map_eq_some_iff.mp hrun
  simp only [Prod.mk.injEq, decide_eq_true_eq] at hrun
  obtain ⟨hsame, hpvalue, hqvalue⟩ := hrun
  refine ⟨p, q, Program.ofText_of_eq_some hp, Program.ofText_of_eq_some hq, hsame, fun hbare => ?_⟩
  rw [hbare, hqvalue] at hpvalue
  exact absurd hpvalue (by decide)

/-- A function in two layouts. -/
theorem Program.outline_eq_iff_layouts : ∃ p q : Program,
    p.OfText "fun f(a: Int) \x7b print(\"$a $\x7ba - 1\x7d\") \x7d" ∧
      q.OfText "fun f(a: Int,): Unit \x7b\nprint(\"$a $\x7b(a - 1)\x7d\")\n\x7d" ∧
      p.outline = q.outline ∧ p.bare false = q.bare false := by
  have hrun : ((Program.ofText? "fun f(a: Int) \x7b print(\"$a $\x7ba - 1\x7d\") \x7d").bind fun p =>
      (Program.ofText? "fun f(a: Int,): Unit \x7b\nprint(\"$a $\x7b(a - 1)\x7d\")\n\x7d").map fun q =>
        (decide (p.outline = q.outline), Stmt.anyBlank p.stmts, Stmt.anyBlank q.stmts)) =
          some (true, false, false) := by
    decide +kernel
  obtain ⟨p, hp, hrun⟩ := Option.bind_eq_some_iff.mp hrun
  obtain ⟨q, hq, hrun⟩ := Option.map_eq_some_iff.mp hrun
  simp only [Prod.mk.injEq, decide_eq_true_eq] at hrun
  obtain ⟨hsame, hpblank, hqblank⟩ := hrun
  have hp' := Program.ofText_of_eq_some hp
  have hq' := Program.ofText_of_eq_some hq
  exact ⟨p, q, hp', hq', hsame, (Program.outline_eq_iff hp' hq').2.2 hpblank hqblank hsame⟩

end Kotlet

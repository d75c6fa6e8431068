import Kotlet.Proofs.Sample.Text
import Kotlet.Proofs.Syntax.Written.Stmt

/-!
# The simple statements of sample programs as texts

* `reads_param`, `reads_lambda`, `reads_collection`, `reads_sized` : what variables are declared with;
* `reads_decl` .. `reads_print` : statements on one line, one lemma for each form;
* `ReadsStmt` : a text that is read as one statement of a sample program;
* `declares_varDecl` .. `declares_functionDecl` : the choices of such statements.
-/

namespace Kotlet
namespace Sample

open Token (IsSpelling Free free_cons free_nil)
open Written (IsName Is First Then Writes writes_nil writes_operator lineEnds_nil Infix)
open Grammar

variable {lit : Token → Expr → Prop} {F : Arities} {S S' : List Var} {d : Draft} {b : Bool}
  {c depth i k n : Nat} {text v w op : String} {E : Reading Expr} {inner : Reading Stmt}

/-! ## Values -/

section Values

variable {P : Expr → Prop}

theorem reads_param (hv : IsName v) : Reads v IsParam fun p => p.name.name = v ∧ p.ty = none := by
  refine Writes.mono (writes_name hv) ?_
  rintro _ ⟨t, rfl, hkind, hname⟩
  exact ⟨_, .bare hkind, hname, rfl⟩

theorem reads_typedParam (hv : IsName v) :
    Reads (v ++ ": Int") IsParam fun p => p.name.name = v ∧ p.ty = some .int := by
  have hint : IsSpelling "Int" := by decide
  have htype := ((writes_nil.word hint free_nil nofun).blank.lone (c := ':') rfl nofun)
  refine (((writes_name hv).append htype (free_cons rfl (by decide))).mono ?_).of_eq (by simp)
  rintro _ ⟨_, _, rfl, ⟨t, rfl, hkind, hname⟩, o, _, rfl, ho, u, _, rfl, hu, rfl⟩
  have hscalar : Parse.scalar? u.kind = some .int := by rw [hu.kind]; decide
  exact ⟨_, .typed hkind ho.kind (.scalar hscalar), hname, rfl⟩

theorem reads_lambda {Q : Param → Prop} (hp : Reads v IsParam Q) (he : Reads text E P) :
    Reads ("\x7b " ++ v ++ " -> " ++ text ++ " \x7d") (IsLambda E) fun l =>
      ∃ m p e, l = .mk m [p] e [] ∧ Q p ∧ P e := by
  have hbody := Writes.append he (writes_nil.lone (c := '}') rfl nofun).blank (free_cons rfl (by decide))
  have harrow := (hbody.blank.pair (c := '-') (d := '>') rfl nofun).blank
  have hall := (Writes.append hp harrow (free_cons rfl (by decide))).blank.lone (c := '{') rfl nofun
  refine (hall.mono ?_).of_eq (by simp)
  rintro _ ⟨o, _, rfl, ho, ps, _, rfl, ⟨p, hread, hQ⟩, a, _, rfl, ha, us, _, rfl, ⟨e, hread', hP⟩, z, _, rfl, hz, rfl⟩
  exact ⟨_, .mk ho.kind lineEnds_nil (.one hread) (List.nodup_singleton _) ha.kind
    (.mk lineEnds_nil hread' lineEnds_nil hz.kind), _, p, e, rfl, hQ, hP⟩

theorem Reads.lambda {Q : Lambda → Prop} (h : Reads text (IsLambda E) Q) :
    Reads text (IsPrimary lit E) fun e => ∃ l, e = .lambda l ∧ Q l :=
  h.map fun _ l hread hl => ⟨.lambda l, .lambda hread, l, rfl, hl⟩

/-- The words in front of the elements of a collection. -/
theorem literalOf?_isSome (hw : w ∈ ["mutableListOf", "arrayOf"]) :
    IsSpelling w ∧ ∃ kind, literalOf? (Token.Kind.ofWord w) = some kind := by
  simp only [List.mem_cons, List.not_mem_nil, or_false] at hw
  rcases hw with rfl | rfl
  · exact ⟨by decide, .list, by decide⟩
  · exact ⟨by decide, .array, by decide⟩

theorem reads_collection (hw : w ∈ ["mutableListOf", "arrayOf"]) {texts : List String} (hne : texts ≠ [])
    (h : ∀ t ∈ texts, Reads t E P) :
    Reads (w ++ "(" ++ ", ".intercalate texts ++ ")") (IsPrimary lit E) fun e =>
      ∃ m kind es, e = .collection m kind es ∧ es.length = texts.length ∧ ∀ e ∈ es, P e := by
  obtain ⟨hspelling, kind, hkind⟩ := literalOf?_isSome hw
  refine ((((writes_elements hne h).lone (c := '(') rfl nofun).word hspelling (free_cons rfl (by decide))
    nofun).mono ?_).of_eq (by simp)
  rintro _ ⟨t, _, rfl, ht, o, _, rfl, ho, us, z, es, rfl, hz, hreads, hes⟩
  exact ⟨_, .collection (ht.kind ▸ hkind) ho.kind lineEnds_nil hreads lineEnds_nil hz, _, kind, es, rfl, hes⟩

/-- The words in front of the size of a collection. -/
theorem sizedOf?_isSome (hw : w ∈ ["MutableList", "Array"]) :
    IsSpelling w ∧ ∃ kind, sizedOf? (Token.Kind.ofWord w) = some kind := by
  simp only [List.mem_cons, List.not_mem_nil, or_false] at hw
  rcases hw with rfl | rfl
  · exact ⟨by decide, .list, by decide⟩
  · exact ⟨by decide, .array, by decide⟩

theorem reads_sized (hw : w ∈ ["MutableList", "Array"]) {Q : Lambda → Prop}
    (hsize : Reads (toString i) E P) (hl : Reads text (IsLambda E) Q) :
    Reads (w ++ "(" ++ toString i ++ ") " ++ text) (IsPrimary lit E) fun e =>
      ∃ m kind size l, e = .sized m kind size l ∧ P size ∧ Q l := by
  obtain ⟨hspelling, kind, hkind⟩ := sizedOf?_isSome hw
  have hclose := hl.blank.lone (c := ')') rfl nofun
  have hall := ((Writes.append hsize hclose (free_cons rfl (by decide))).lone (c := '(') rfl nofun).word hspelling
    (free_cons rfl (by decide)) nofun
  refine (hall.mono ?_).of_eq (by simp)
  rintro _ ⟨t, _, rfl, ht, o, _, rfl, ho, us, _, rfl, ⟨size, hread, hP⟩, z, ls, rfl, hz, l, hread', hQ⟩
  exact ⟨_, .trailing (ht.kind ▸ hkind) ho.kind lineEnds_nil hread lineEnds_nil hz.kind hread', _, kind, size, l,
    rfl, hP, hQ⟩

end Values

/-! ## Statements on one line -/

section Statements

variable {P Q : Expr → Prop}

theorem reads_decl (hw : w ∈ ["val", "var"]) (hv : IsName v) (he : Reads text E P) :
    Reads (w ++ " " ++ v ++ " = " ++ text) (IsStatement E inner) fun s =>
      ∃ tok id e, s = .decl tok (w == "var") id none (some e) ∧ id.name = v ∧ P e := by
  obtain ⟨hspelling, hdecl, hvar⟩ : IsSpelling w ∧ Token.Kind.ofWord w ∈ [.kwVar, .kwVal] ∧
      (Token.Kind.ofWord w == .kwVar) = (w == "var") := by
    simp only [List.mem_cons, List.not_mem_nil, or_false] at hw
    rcases hw with rfl | rfl <;> exact ⟨by decide, by decide, by decide⟩
  have hvalue := (writes_operator he Written.infix_assign).blank
  have hall := ((writes_name hv).append hvalue (free_cons rfl (by decide))).keyword hspelling nofun
  refine (hall.mono ?_).of_eq (by simp [Token.Kind.text])
  rintro _ ⟨k, _, rfl, hk, _, _, rfl, ⟨t, rfl, hkind, hname⟩, q, us, rfl, hq, e, hread, hP⟩
  have hstmt : IsStatement E inner (k :: t :: ([] ++ (q :: ([] ++ us)))) _ :=
    .decl (hk.kind ▸ hdecl) hkind .none (.some hq.kind lineEnds_nil hread)
  rw [hk.kind, hvar] at hstmt
  exact ⟨_, hstmt, k, _, e, rfl, hname, hP⟩

/-- A target, an operator and a value. -/
theorem writes_assignment {kind : Token.Kind} {P : Target → Prop} (hkind : Infix kind)
    (ht : Reads v (IsTarget E) P) (he : Reads text E Q) :
    Writes false (v ++ " " ++ kind.text ++ " " ++ text).toList fun us => ∃ ts q vs t e, us = ts ++ q :: vs ∧
      Is kind kind.text q ∧ IsTarget E ts t ∧ P t ∧ E vs e ∧ Q e := by
  refine ((Writes.append ht (writes_operator he hkind).blank (free_cons rfl (by decide))).mono ?_).of_eq (by simp)
  rintro _ ⟨ts, _, rfl, ⟨t, hread, hP⟩, q, vs, rfl, hq, e, hread', hQ⟩
  exact ⟨ts, q, vs, t, e, rfl, hq, hread, hP, hread', hQ⟩

theorem reads_assign {P : Target → Prop} (ht : Reads v (IsTarget E) P) (he : Reads text E Q) :
    Reads (v ++ " = " ++ text) (IsStatement E inner) fun s => ∃ tok t e, s = .assign tok t e ∧ P t ∧ Q e := by
  refine ((writes_assignment Written.infix_assign ht he).mono ?_).of_eq (by simp [Token.Kind.text])
  rintro _ ⟨ts, q, vs, t, e, rfl, hq, hread, hP, hread', hQ⟩
  exact ⟨_, .assign (g := []) hread hq.kind lineEnds_nil hread', q, t, e, rfl, hP, hQ⟩

theorem reads_compound {P : Target → Prop} (hop : op ∈ ["+=", "-=", "*="]) (ht : Reads v (IsTarget E) P)
    (he : Reads text E Q) : Reads (v ++ " " ++ op ++ " " ++ text) (IsStatement E inner) fun s =>
      ∃ tok t e, s = .compound tok t op e ∧ Total (compoundOperator op) ∧ P t ∧ Q e := by
  obtain ⟨kind, hkind, rfl, htotal⟩ : ∃ kind ∈ [Token.Kind.plusAssign, .minusAssign, .timesAssign, .slashAssign],
      op = kind.text ∧ Total (compoundOperator op) := by
    simp only [List.mem_cons, List.not_mem_nil, or_false] at hop
    rcases hop with rfl | rfl | rfl
    · exact ⟨.plusAssign, by decide, rfl, .add, by decide, fun a b => ⟨a + b, rfl⟩⟩
    · exact ⟨.minusAssign, by decide, rfl, .sub, by decide, fun a b => ⟨a - b, rfl⟩⟩
    · exact ⟨.timesAssign, by decide, rfl, .mul, by decide, fun a b => ⟨a * b, rfl⟩⟩
  have hoperator : ∀ kind ∈ [Token.Kind.plusAssign, .minusAssign, .timesAssign, .slashAssign], Infix kind := by decide
  refine (writes_assignment (hoperator kind hkind) ht he).mono ?_
  rintro _ ⟨ts, q, vs, t, e, rfl, hq, hread, hP, hread', hQ⟩
  have hstmt : IsStatement E inner _ _ := .compound (g := []) hread (hq.kind ▸ hkind) lineEnds_nil hread'
  rw [hq.shown] at hstmt
  exact ⟨_, hstmt, q, t, e, rfl, htotal, hP, hQ⟩

theorem reads_increment (hv : IsName v) : Reads (v ++ "++") (IsStatement E inner) fun s =>
    ∃ tok m id, s = .selfOp tok (.mk m "++" false (.name id)) ∧ id.name = v := by
  have hstep := writes_nil.pair (c := '+') (d := '+') rfl nofun
  refine (((writes_name hv).append hstep (free_cons rfl (by decide))).mono ?_).of_eq (by simp)
  rintro _ ⟨_, _, rfl, ⟨t, rfl, hkind, hname⟩, o, _, rfl, ho, rfl⟩
  have hstmt : IsStatement E inner (t :: [] ++ [o]) _ := .after (.name hkind) (by rw [ho.kind]; decide)
  rw [ho.shown] at hstmt
  exact ⟨_, hstmt, t, _, _, rfl, hname⟩

/-- An expression in parentheses. -/
theorem reads_condition (he : Reads text E P) : Reads ("(" ++ text ++ ")") (IsCondition E) P := by
  have hall := (Writes.append he (writes_nil.lone (c := ')') rfl nofun) (free_cons rfl (by decide))).lone
    (c := '(') rfl nofun
  refine (hall.mono ?_).of_eq (by simp)
  rintro _ ⟨o, _, rfl, ho, us, _, rfl, ⟨e, hread, hP⟩, z, _, rfl, hz, rfl⟩
  exact ⟨e, .mk ho.kind lineEnds_nil hread lineEnds_nil hz.kind, hP⟩

theorem reads_print (he : Reads text E P) : Reads ("println(" ++ text ++ ")") (IsStatement E inner) fun s =>
    ∃ tok newline e, s = .print tok newline (some e) ∧ P e := by
  have hspelling : IsSpelling "println" := by decide
  have hcondition : Writes false ('(' :: (text.toList ++ [')'])) _ := Writes.of_eq (reads_condition he) (by simp)
  refine ((hcondition.word hspelling (free_cons rfl (by decide)) nofun).mono ?_).of_eq (by simp)
  rintro _ ⟨k, us, rfl, hk, e, hread, hP⟩
  exact ⟨_, .print (by rw [hk.kind]; decide) hread, k, _, e, rfl, hP⟩

end Statements

/-! ## Statements of sample programs -/

/-- The expressions of a program whose strings hold templates up to a depth. -/
abbrev expressions (depth : Nat) : Reading Expr := IsExpr (stringAt (depth + 1)) Parse.maxDepth

/-- The text is read as one statement of a sample program. -/
def ReadsStmt (depth : Nat) (F : Arities) (b : Bool) (c k : Nat) (S S' : List Var) (text : String) : Prop :=
  ∀ inner, Reads text (IsStatement (expressions depth) inner) fun s => Follows F b c k S [s] S'

theorem ReadsNumber.whole (h : ReadsNumber (stringAt (depth + 1)) F S 3 30 text) :
    Reads text (expressions depth) (IsNumber F S 30) := h.expr (show 3 ≤ 255 by decide)

/-- A primary expression is an expression. -/
theorem Reads.whole {P : Expr → Prop} (h : Reads text (IsPrimary lit (IsExpr lit (n + 1))) P) :
    Reads text (IsExpr lit (n + 2)) P := h.unary.sum.comparison.logical

theorem ReadsStmt.mono (h : ReadsStmt depth F b c k S S' text) {c' k' : Nat} (hc : c ≤ c') (hk : k ≤ k') :
    ReadsStmt depth F b c' k' S S' text :=
  fun inner => (h inner).mono fun _ hs => hs.weaken hc hk

/-- A declaration of a fresh name. -/
theorem readsStmt_decl (hw : w ∈ ["val", "var"]) (hv : IsName v) (hfresh : IsFresh F S v) {kind : Kind}
    {writable : Bool} (hwritable : writable = true → w = "var" ∧ kind = .number)
    (he : Reads text (expressions depth) (IsValue F S k c kind)) :
    ReadsStmt depth F b c (k + 1) S (⟨v, kind, writable⟩ :: S) (w ++ " " ++ v ++ " = " ++ text) := by
  intro inner
  refine (reads_decl hw hv he).mono ?_
  rintro _ ⟨tok, id, e, rfl, rfl, hvalue⟩
  refine .decl (Nat.lt_succ_self k) hfresh (fun h => ?_) hvalue
  obtain ⟨rfl, hkind⟩ := hwritable h
  exact ⟨rfl, hkind⟩

theorem readsStmt_increment (hv : IsName v) (hmem : ⟨v, .number, true⟩ ∈ S) :
    ReadsStmt depth F b 0 1 S S (v ++ "++") := by
  intro inner
  refine (reads_increment hv).mono ?_
  rintro _ ⟨tok, m, id, rfl, rfl⟩
  exact .selfOp (by decide) hmem

theorem readsStmt_assign (hv : IsName v) (hmem : ⟨v, .number, true⟩ ∈ S)
    (he : Reads text (expressions depth) (IsNumber F S k)) :
    ReadsStmt depth F b 0 (k + 1) S S (v ++ " = " ++ text) := by
  intro inner
  refine (reads_assign (reads_name hv) he).mono ?_
  rintro _ ⟨tok, _, e, rfl, ⟨id, rfl, rfl⟩, hnumber⟩
  exact .assign (Nat.lt_succ_self k) hmem hnumber

theorem readsStmt_compound (hop : op ∈ ["+=", "-=", "*="]) (hv : IsName v) (hmem : ⟨v, .number, true⟩ ∈ S)
    (he : Reads text (expressions depth) (IsNumber F S k)) :
    ReadsStmt depth F b 0 (k + 1) S S (v ++ " " ++ op ++ " " ++ text) := by
  intro inner
  refine (reads_compound hop (reads_name hv) he).mono ?_
  rintro _ ⟨tok, _, e, rfl, htotal, ⟨id, rfl, rfl⟩, hnumber⟩
  exact .compound (Nat.lt_succ_self k) htotal hmem hnumber

/-- An element of a collection with an index that it has. -/
theorem reads_index (hv : IsName v) (hi : i < 3) :
    Reads (v ++ "[" ++ toString i ++ "]") (IsTarget (expressions depth)) fun t =>
      ∃ m m' base index, t = .element m base (.int m' index) ∧ base.name = v ∧ IsIndex index := by
  refine (reads_element hv (reads_natExpr (by omega))).mono ?_
  rintro _ ⟨m, m', base, rfl, hname⟩
  exact ⟨m, m', base, _, rfl, hname, isIndex_ofNat hi⟩

theorem readsStmt_assignElement (hv : IsName v) (hscope : InScope S .collection v) (hi : i < 3)
    (he : Reads text (expressions depth) (IsNumber F S k)) :
    ReadsStmt depth F b 0 (k + 2) S S (v ++ "[" ++ toString i ++ "] = " ++ text) := by
  intro inner
  have hread : Reads (v ++ "[" ++ toString i ++ "]" ++ " = " ++ text) (IsStatement (expressions depth) inner) _ :=
    reads_assign (reads_index hv hi) he
  refine (Writes.of_eq hread (by simp)).mono ?_
  rintro us ⟨_, hus, tok, _, e, rfl, ⟨m, m', base, index, rfl, rfl, hindex⟩, hnumber⟩
  exact ⟨_, hus, .assignElement (by omega) (by omega) hscope hindex hnumber⟩

theorem readsStmt_compoundElement (hop : op ∈ ["+=", "-=", "*="]) (hv : IsName v)
    (hscope : InScope S .collection v) (hi : i < 3) (he : Reads text (expressions depth) (IsNumber F S k)) :
    ReadsStmt depth F b 0 (k + 2) S S (v ++ "[" ++ toString i ++ "] " ++ op ++ " " ++ text) := by
  intro inner
  have hread : Reads (v ++ "[" ++ toString i ++ "]" ++ " " ++ op ++ " " ++ text)
      (IsStatement (expressions depth) inner) _ := reads_compound hop (reads_index hv hi) he
  refine (Writes.of_eq hread (by simp)).mono ?_
  rintro us ⟨_, hus, tok, _, e, rfl, htotal, ⟨m, m', base, index, rfl, rfl, hindex⟩, hnumber⟩
  exact ⟨_, hus, .compoundElement (by omega) (by omega) htotal hscope hindex hnumber⟩

theorem readsStmt_print (he : Reads text (expressions depth) (IsPrinted F S k)) :
    ReadsStmt depth F b 0 (k + 1) S S ("println(" ++ text ++ ")") := by
  intro inner
  refine (reads_print he).mono ?_
  rintro _ ⟨tok, newline, e, rfl, hprinted⟩
  exact .print (Nat.lt_succ_self k) hprinted

/-- Three elements, written one by one. -/
theorem reads_three {kind : String} (hkind : kind ∈ ["mutableListOf", "arrayOf"]) {texts : List String}
    (hlen : texts.length = 3) (h : ∀ t ∈ texts, ReadsNumber (stringAt (depth + 1)) F S 3 30 t) :
    Reads (kind ++ "(" ++ ", ".intercalate texts ++ ")") (expressions depth) (IsValue F S 31 0 .collection) := by
  have hne : texts ≠ [] := by rintro rfl; cases hlen
  have hread := @reads_collection (stringAt (depth + 1)) _ _ _ hkind _ hne fun t ht =>
    (h t ht).expr (n := 254) (by decide)
  refine hread.whole.mono ?_
  rintro _ ⟨m, kind, es, rfl, hes, hnumbers⟩
  exact .elements (Nat.lt_succ_self 30) (hes.trans hlen) hnumbers

/-- Three elements, each a multiple of its index. -/
theorem reads_multiples {kind : String} (hkind : kind ∈ ["MutableList", "Array"]) (hfresh : IsFresh F S "k")
    (hi : i < 2 ^ 31) : Reads (kind ++ "(3) \x7b k -> k * " ++ toString i ++ " \x7d") (expressions depth)
      (IsValue F S 31 0 .collection) := by
  have hk : IsName "k" := ⟨by decide, by decide⟩
  have hbody : ReadsNumber (stringAt (depth + 1)) F (⟨"k", .number, false⟩ :: S) 0 3
      ("k" ++ " " ++ "*" ++ " " ++ toString i) :=
    readsNumber_arith (readsNumber_name hk ⟨false, List.mem_cons_self⟩) (readsNumber_nat hi) (by decide)
  have hlambda := reads_lambda (reads_param hk) (hbody.expr (n := 254) (Nat.zero_le _))
  have hthree : Reads (toString 3) (IsExpr (stringAt (depth + 1)) 255) _ := reads_natExpr (by decide)
  have hsized := @reads_sized (stringAt (depth + 1)) _ _ _ _ _ hkind _ hthree hlambda
  have htext : kind ++ "(" ++ toString 3 ++ ") " ++ ("\x7b " ++ "k" ++ " -> " ++
      ("k" ++ " " ++ "*" ++ " " ++ toString i) ++ " \x7d") = kind ++ "(3) \x7b k -> k * " ++ toString i ++ " \x7d" := by
    have hdigit : toString 3 = "3" := rfl
    rw [hdigit, ← String.toList_inj]
    simp
  rw [← htext]
  refine hsized.whole.mono ?_
  rintro _ ⟨m, kind, _, _, rfl, ⟨m₁, rfl⟩, m₂, p, e, rfl, ⟨hname, hty⟩, hnumber⟩
  rw [← hname] at hfresh hnumber
  exact .sized (k := 3) (by decide) (by decide) hty hfresh hnumber

theorem reads_function (hv : IsName v) (hfresh : IsFresh F S v)
    (hbody : ReadsNumber (stringAt (depth + 1)) F (⟨v, .number, false⟩ :: S) 3 30 text) :
    Reads ("\x7b " ++ v ++ ": Int -> " ++ text ++ " \x7d") (expressions depth) (IsValue F S 31 1 .function) := by
  have hlambda := reads_lambda (reads_typedParam hv) (hbody.expr (n := 254) (by decide))
  have htext : "\x7b " ++ (v ++ ": Int") ++ " -> " ++ text ++ " \x7d" =
      "\x7b " ++ v ++ ": Int -> " ++ text ++ " \x7d" := by
    rw [← String.toList_inj]
    simp
  rw [← htext]
  refine hlambda.lambda.whole.mono ?_
  rintro _ ⟨_, rfl, m, p, e, rfl, ⟨rfl, hty⟩, hnumber⟩
  exact .function (by decide) (k := 30) (by decide) hty hfresh hnumber

/-! ## Choices of statements -/

section Choices

variable (depth : Nat) (b : Bool)

theorem declares_varDecl : Declares F S varDecl fun text S' => ReadsStmt depth F b 1 40 S S' text := by
  unfold varDecl
  refine (makes_draw 3).bindDeclares fun i _ => (makes_int (stringAt (depth + 1))).bindDeclares fun value hvalue => ?_
  refine declares_fresh "v" rfl (by decide) fun v hv hfresh => .pure ?_
  refine ReadsStmt.mono (k := 31) ?_ (Nat.zero_le 1) (by decide)
  have hnumber : Reads value (expressions depth) (IsValue F S 30 0 .number) := hvalue.whole.mono fun _ h => .number h
  by_cases hi : i = 0
  · have hdecl : ReadsStmt depth F b 0 31 S (⟨v, .number, false⟩ :: S) ("val" ++ " " ++ v ++ " = " ++ value) :=
      readsStmt_decl (by decide) hv hfresh nofun hnumber
    simpa [hi] using hdecl
  · have hdecl : ReadsStmt depth F b 0 31 S (⟨v, .number, true⟩ :: S) ("var" ++ " " ++ v ++ " = " ++ value) :=
      readsStmt_decl (by decide) hv hfresh (fun _ => ⟨rfl, rfl⟩) hnumber
    simpa [hi] using hdecl

theorem declares_assignVar : Declares F S assignVar fun text S' => ReadsStmt depth F b 1 40 S S' text := by
  unfold assignVar
  refine (makes_pick? .number true).bindDeclares fun o ho => ?_
  cases o with
  | none => exact declares_varDecl depth b
  | some v =>
    obtain ⟨hv, w, hw, hwritable⟩ := ho v rfl
    obtain rfl : w = true := hwritable rfl
    have hint := makes_int (F := F) (S := S) (stringAt (depth + 1))
    refine (makes_draw 4).bindDeclares fun i _ => ?_
    split
    · exact .pure ((readsStmt_increment hv hw).mono (Nat.zero_le 1) (by decide))
    · refine (makes_oneOf (List.cons_ne_nil _ _)).bindDeclares fun op hop => hint.bindDeclares fun e he => .pure ?_
      exact (readsStmt_compound hop hv hw he.whole).mono (Nat.zero_le 1) (by decide)
    · refine hint.bindDeclares fun e he => .pure ?_
      exact (readsStmt_assign hv hw he.whole).mono (Nat.zero_le 1) (by decide)

theorem declares_assignment : Declares F S assignment fun text S' => ReadsStmt depth F b 1 40 S S' text := by
  unfold assignment
  refine (makes_pick? .collection false).bindDeclares fun o ho => ?_
  cases o with
  | none => exact declares_assignVar depth b
  | some a =>
    obtain ⟨ha, w, hw, -⟩ := ho a rfl
    refine (makes_draw 3).bindDeclares fun i _ => ?_
    split
    · refine (makes_oneOf (List.cons_ne_nil _ _)).bindDeclares fun op hop => (makes_draw 3).bindDeclares fun i hi =>
        (makes_int (stringAt (depth + 1))).bindDeclares fun e he => .pure ?_
      rcases List.mem_cons.mp hop with rfl | hop
      · have hassign := readsStmt_assignElement (b := b) ha ⟨w, hw⟩ (hi (by decide)) he.whole
        simpa [String.append_assoc] using hassign.mono (Nat.zero_le 1) (show 32 ≤ 40 by decide)
      · exact (readsStmt_compoundElement hop ha ⟨w, hw⟩ (hi (by decide)) he.whole).mono (Nat.zero_le 1) (by decide)
    · exact declares_assignVar depth b

theorem makes_printInt : Makes F S printInt (ReadsStmt depth F b 1 40 S S) := by
  unfold printInt
  refine (makes_int (stringAt (depth + 1))).bind fun e he => .pure ?_
  exact (readsStmt_print (he.whole.mono fun _ h => .number h)).mono (Nat.zero_le 1) (by decide)

theorem makes_printing : Makes F S printing (ReadsStmt depth F b 1 40 S S) := by
  unfold printing
  refine (makes_draw 4).bind fun i _ => ?_
  split
  · refine (makes_pick? .number false).bind fun o ho => ?_
    cases o with
    | none => exact makes_printInt depth b
    | some v =>
      obtain ⟨hv, w, hw, -⟩ := ho v rfl
      have hshown : Reads ("\"" ++ shown v ++ "\"") (expressions depth) (IsPrinted F S 4) :=
        (reads_shown hv ⟨w, hw⟩).sum.comparison.logical
      have hprint := (readsStmt_print (b := b) hshown).mono (Nat.zero_le 1) (show 5 ≤ 40 by decide)
      have htext : "println(" ++ ("\"" ++ shown v ++ "\"") ++ ")" =
          "println(\"" ++ v ++ " is $" ++ v ++ ", twice $\x7b" ++ v ++ " * 2\x7d\")" := by
        rw [← String.toList_inj]
        simp [shown]
      exact .pure (htext ▸ hprint)
  · refine (makes_pick? .collection false).bind fun o ho => ?_
    cases o with
    | none => exact makes_printInt depth b
    | some a =>
      obtain ⟨ha, w, hw, -⟩ := ho a rfl
      have hread : Reads a (expressions depth) (IsPrinted F S 1) := by
        refine ((reads_name ha).read.sum.comparison.logical).mono ?_
        rintro _ ⟨_, rfl, id, rfl, rfl⟩
        exact .collection (by decide) ⟨w, hw⟩
      exact .pure ((readsStmt_print hread).mono (Nat.zero_le 1) (by decide))
  · refine (makes_condition (depth + 1)).bind fun test htest => .pure ?_
    have hread : Reads test (expressions depth) (IsPrinted F S 3) := (htest 253).mono fun _ h => .test h
    exact (readsStmt_print hread).mono (Nat.zero_le 1) (by decide)
  · exact makes_printInt depth b

theorem declares_collectionDecl : Declares F S collectionDecl fun text S' => ReadsStmt depth F b 1 40 S S' text := by
  intro d h hin
  unfold collectionDecl
  rw [leads_bind]
  refine (leads_fresh h "a" rfl (by decide)).mono ?_
  rintro a d₁ ⟨hk₁, hfresh, hnumbered⟩
  -- whatever the value is made of, the name is declared behind it
  have hend {value : String} (hvalue : Reads value (expressions depth) (IsValue F S 31 0 .collection)) {d' : Draft}
      (hk : Keeps F S d₁ d') : Leads (do declare a .collection false; return "val " ++ a ++ " = " ++ value) d'
        fun text d' => ∃ S', Grows F S' d d' ∧ ReadsStmt depth F b 1 40 S S' text := by
    rw [leads_bind]
    refine (leads_declare hk.tidy ((hk₁.trans hk).scopes ▸ hin) (hnumbered.mono hk.next) .collection false).mono ?_
    rintro _ d₂ hg
    have hdecl : ReadsStmt depth F b 0 32 S (⟨a, .collection, false⟩ :: S) ("val" ++ " " ++ a ++ " = " ++ value) :=
      readsStmt_decl (by decide) (isName_of_isNumbered hnumbered) hfresh nofun hvalue
    exact ⟨_, ((hk₁.trans hk).grows hin).trans hg, hdecl.mono (Nat.zero_le 1) (by decide)⟩
  rw [leads_bind]
  refine (makes_draw 2 d₁ hk₁.tidy).mono ?_
  rintro i d₂ ⟨hk₂, -⟩
  rw [leads_bind]
  refine (makes_times (makes_int (stringAt (depth + 1))) 3 d₂ hk₂.tidy).mono ?_
  rintro elements d₃ ⟨hk₃, hlen, helements⟩
  rw [leads_bind]
  refine (makes_draw 3 d₃ hk₃.tidy).mono ?_
  rintro j d₄ ⟨hk₄, -⟩
  have hk := (hk₂.trans hk₃).trans hk₄
  have hsized : (if i = 0 then "MutableList" else "Array") ∈ ["MutableList", "Array"] := by split <;> decide
  have hwritten : (if i = 0 then "mutableListOf" else "arrayOf") ∈ ["mutableListOf", "arrayOf"] := by split <;> decide
  dsimp only
  split
  · rw [leads_bind]
    refine (makes_literal d₄ hk₄.tidy).mono ?_
    rintro _ d₅ ⟨hk₅, n, hn, rfl⟩
    exact hend (reads_multiples hsized h.fresh_generator hn) (hk.trans hk₅)
  · exact hend (reads_three hwritten hlen helements) hk

theorem declares_functionDecl : Declares F S functionDecl fun text S' => ReadsStmt depth F b 1 40 S S' text := by
  intro d h hin
  unfold functionDecl
  rw [leads_bind]
  refine (leads_fresh h "f" rfl (by decide)).mono ?_
  rintro f d₁ ⟨hk₁, hfresh, hnumbered⟩
  rw [leads_bind]
  refine (leads_fresh hk₁.tidy "q" rfl (by decide)).mono ?_
  rintro q d₂ ⟨hk₂, hfresh', hnumbered'⟩
  rw [leads_bind]
  refine (leads_inScope hk₂.tidy (P := ReadsNumber (stringAt (depth + 1)) F (⟨q, .number, false⟩ :: S) 3 30)
    fun d₃ h₃ hin₃ hnext => ?_).mono ?_
  · rw [leads_bind]
    refine (leads_declare h₃ hin₃ (hnext ▸ hnumbered') .number false).mono ?_
    rintro _ d₄ hg
    refine (makes_int (stringAt (depth + 1)) d₄ hg.tidy).mono ?_
    rintro body d₅ ⟨hk, hbody⟩
    exact ⟨_, hg.trans (hk.grows hg.inside), hbody⟩
  · rintro body d₃ ⟨hk₃, hbody⟩
    have hk := (hk₁.trans hk₂).trans hk₃
    have hnext : d₁.next ≤ d₃.next := (hk₂.trans hk₃).next
    rw [leads_bind]
    refine (leads_declare hk.tidy (hk.scopes ▸ hin) (hnumbered.mono hnext) .function false).mono ?_
    rintro _ d₄ hg
    have hvalue := reads_function (isName_of_isNumbered hnumbered') hfresh' hbody
    have hdecl : ReadsStmt depth F b 1 32 S (⟨f, .function, false⟩ :: S) ("val" ++ " " ++ f ++ " = " ++ _) :=
      readsStmt_decl (by decide) (isName_of_isNumbered hnumbered) hfresh nofun hvalue
    have htext : "val" ++ " " ++ f ++ " = " ++ ("\x7b " ++ q ++ ": Int -> " ++ body ++ " \x7d") =
        "val " ++ f ++ " = \x7b " ++ q ++ ": Int -> " ++ body ++ " \x7d" := by
      rw [← String.toList_inj]
      simp
    exact ⟨_, (hk.grows hin).trans hg, htext ▸ hdecl.mono (Nat.le_refl 1) (by decide)⟩

end Choices

end Sample
end Kotlet

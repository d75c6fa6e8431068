import Kotlet.Proofs.Sample.Simple

/-!
# The compound statements of sample programs as texts

Statements stand on lines of their own, each with a line end behind it. A text of lines is read as
statements whatever text stands behind it, so texts of lines can be put one after the other.

* `AreLines`, `ReadsAhead` : statements in front of others, and the texts that are read as such;
* `reads_block` .. `reads_for` : statements that hold others, one lemma for each form;
* `ReadsLines`, `ReadsNested`, `ReadsBlock` : texts that are read as statements of a sample program;
* `Composes`, `declares_lines` : steps that make such texts, and how they are repeated;
* `makes_block` .. `composes_statement` : the choices of statements.
-/

namespace Kotlet
namespace Sample

open Token (IsSpelling Free free_cons free_nil)
open Written (IsName Is Then Writes writes_nil lineEnds_nil separators_newline)
open Grammar

variable {F : Arities} {S S' S'' : List Var} {b : Bool} {c c' depth need i j k k' n : Nat}
  {text text' v : String} {E : Reading Expr} {inner : Reading Stmt}

/-! ## Lines -/

/-- Statements in front of any others. -/
def AreLines (inner : Reading Stmt) : Reading (List Stmt) := fun us ss =>
  ∀ vs ss', AreStmts inner vs ss' → AreStmts inner (us ++ vs) (ss ++ ss')

theorem AreLines.areStmts {us : List Token} {ss : List Stmt} (h : AreLines inner us ss) : AreStmts inner us ss := by
  have hstmts := h [] [] .nil
  rwa [List.append_nil, List.append_nil] at hstmts

/-- The text is read as statements with a property, whatever text stands behind it. -/
def ReadsAhead (text : String) (inner : Reading Stmt) (P : List Stmt → Prop) : Prop :=
  ∀ (rest : List Char) (R : List Token → Prop), Writes false rest R →
    Writes false (text.toList ++ rest) (Then (fun us => ∃ ss, AreLines inner us ss ∧ P ss) R)

section Lines

variable {P Q : List Stmt → Prop}

theorem ReadsAhead.mono (h : ReadsAhead text inner P) (hP : ∀ ss, P ss → Q ss) : ReadsAhead text inner Q := by
  intro rest R hrest
  refine (h rest R hrest).mono ?_
  rintro _ ⟨us, vs, rfl, ⟨ss, hlines, hss⟩, hvs⟩
  exact ⟨us, vs, rfl, ⟨ss, hlines, hP ss hss⟩, hvs⟩

theorem readsAhead_nil (h : P []) : ReadsAhead "" inner P := by
  intro rest R hrest
  refine (hrest.mono fun us hus => ?_).of_eq (by simp)
  exact ⟨[], us, rfl, ⟨[], fun _ _ hvs => hvs, h⟩, hus⟩

theorem ReadsAhead.append (h : ReadsAhead text inner P) (h' : ReadsAhead text' inner Q) :
    ReadsAhead (text ++ text') inner fun ss => ∃ ss₁ ss₂, ss = ss₁ ++ ss₂ ∧ P ss₁ ∧ Q ss₂ := by
  intro rest R hrest
  refine ((h _ _ (h' rest R hrest)).mono ?_).of_eq (by simp)
  rintro _ ⟨us, _, rfl, ⟨ss, hlines, hss⟩, vs, ws, rfl, ⟨ss', hlines', hss'⟩, hws⟩
  refine ⟨us ++ vs, ws, (List.append_assoc _ _ _).symm, ⟨ss ++ ss', fun xs ts hxs => ?_, ss, ss', rfl, hss, hss'⟩, hws⟩
  rw [List.append_assoc, List.append_assoc]
  exact hlines _ _ (hlines' _ _ hxs)

/-- A statement on a line of its own. -/
theorem Reads.line {P : Stmt → Prop} (h : Reads text inner P) :
    ReadsAhead (text ++ "\n") inner fun ss => ∃ s, ss = [s] ∧ P s := by
  intro rest R hrest
  refine ((Writes.append h (hrest.lone (c := '\n') rfl nofun) (free_cons rfl (by decide))).mono ?_).of_eq (by simp)
  rintro _ ⟨us, _, rfl, ⟨s, hread, hs⟩, t, vs, rfl, ht, hvs⟩
  refine ⟨us ++ [t], vs, by simp, ⟨[s], fun ws ss' hws => ?_, s, rfl, hs⟩, hvs⟩
  rw [List.append_assoc]
  exact .more hread (separators_newline ht.kind) (List.cons_ne_nil _ _) hws

theorem ReadsAhead.areStmts (h : ReadsAhead text inner P) :
    Writes false text.toList fun us => ∃ ss, AreStmts inner us ss ∧ P ss := by
  refine ((h [] _ writes_nil).mono ?_).of_eq (List.append_nil _).symm
  rintro _ ⟨us, _, rfl, ⟨ss, hlines, hss⟩, rfl⟩
  exact ⟨ss, (List.append_nil us).symm ▸ hlines.areStmts, hss⟩

/-- Lines between braces. -/
theorem reads_block (h : ReadsAhead text inner P) :
    Reads ("\x7b\n" ++ text ++ "\x7d") (IsBlock inner) fun blk =>
      ∃ brace ss close, blk = .mk brace ss close ∧ P ss := by
  have hclose := h _ _ (writes_nil.lone (c := '}') rfl nofun)
  refine (((hclose.lone (c := '\n') rfl nofun).lone (c := '{') rfl nofun).mono ?_).of_eq (by simp)
  rintro _ ⟨o, _, rfl, ho, t, _, rfl, ht, us, _, rfl, ⟨ss, hlines, hss⟩, z, _, rfl, hz, rfl⟩
  exact ⟨_, .mk ho.kind (separators_newline ht.kind) hlines.areStmts hz.kind, o, ss, z, rfl, hss⟩

end Lines

/-! ## Statements that hold others -/

section Statements

variable {P : Expr → Prop} {Q : Block → Prop} {elseText : String}

/-- The text is read as what comes after the first branch of an `if`. -/
structure ReadsElse (text : String) (inner : Reading Stmt) (R : Option Block → Prop) : Prop where
  free : Free text.toList
  reads : Reads text (IsElsePart inner) R

theorem readsElse_none {R : Option Block → Prop} (h : R none) : ReadsElse "" inner R := by
  refine ⟨free_nil, Writes.mono writes_nil ?_⟩
  rintro _ rfl
  exact ⟨none, .none, h⟩

theorem writes_else {R : List Token → Prop} (h : Writes false text.toList R) :
    Writes false (" else " ++ text).toList fun us => ∃ t vs, us = t :: vs ∧ t.kind = .kwElse ∧ R vs := by
  have hspelling : IsSpelling "else" := by decide
  refine (((h.keyword hspelling nofun).blank).mono ?_).of_eq (by simp)
  rintro _ ⟨t, vs, rfl, ht, hvs⟩
  exact ⟨t, vs, rfl, ht.kind, hvs⟩

theorem readsElse_block (h : Reads text (IsBlock inner) Q) :
    ReadsElse (" else " ++ text) inner fun o => ∃ blk, o = some blk ∧ Q blk := by
  refine ⟨by rw [String.toList_append]; exact free_cons rfl (by decide), (writes_else h).mono ?_⟩
  rintro _ ⟨t, us, rfl, ht, blk, hread, hQ⟩
  have hblock := IsElsePart.block lineEnds_nil ht lineEnds_nil hread
  exact ⟨some blk, hblock, blk, rfl, hQ⟩

/-- An `if` behind `else` is a block of its own. -/
theorem readsElse_chained {R : Stmt → Prop} (h : Reads text (IsStmt E n) R) (hif : ∀ s, R s → Written.isIf s = true) :
    ReadsElse (" else " ++ text) (IsStmt E n) fun o => ∃ s, o = some (.mk s.tok [s] s.tok) ∧ R s := by
  refine ⟨by rw [String.toList_append]; exact free_cons rfl (by decide), (writes_else h).mono ?_⟩
  rintro _ ⟨t, us, rfl, ht, s, hread, hR⟩
  obtain ⟨i, ts, rfl, hhead, -⟩ := Written.heads_isStmt n us s hread
  have hchained := IsElsePart.chained lineEnds_nil ht lineEnds_nil (hhead.mpr (hif s hR)) hread
  exact ⟨_, hchained, s, rfl, hR⟩

theorem reads_if {R : Option Block → Prop} (hc : Reads v E P) (hb : Reads text (IsBlock inner) Q)
    (helse : ReadsElse elseText inner R) :
    Reads ("if (" ++ v ++ ") " ++ text ++ elseText) (IsStatement E inner) fun s =>
      ∃ tok e a o, s = .ifElse tok e a o ∧ P e ∧ Q a ∧ R o := by
  have hspelling : IsSpelling "if" := by decide
  have hblocks := (Writes.append hb helse.reads helse.free).blank
  have hall := (Writes.append (reads_condition hc) hblocks (free_cons rfl (by decide))).keyword hspelling nofun
  refine (hall.mono ?_).of_eq (by simp)
  rintro _ ⟨t, _, rfl, ht, us, _, rfl, ⟨e, he, hP⟩, vs, ws, rfl, ⟨a, ha, hQ⟩, o, ho, hR⟩
  exact ⟨_, .ifElse (g := []) ht.kind he lineEnds_nil ha ho, t, e, a, o, rfl, hP, hQ, hR⟩

theorem reads_while (hc : Reads v E P) (hb : Reads text (IsBlock inner) Q) :
    Reads ("while (" ++ v ++ ") " ++ text) (IsStatement E inner) fun s =>
      ∃ tok e a, s = .whileLoop tok e a ∧ P e ∧ Q a := by
  have hspelling : IsSpelling "while" := by decide
  have hparts := Writes.append (reads_condition hc) (Writes.blank hb) (free_cons rfl (by decide))
  have hall := hparts.keyword hspelling nofun
  refine (hall.mono ?_).of_eq (by simp)
  rintro _ ⟨t, _, rfl, ht, us, vs, rfl, ⟨e, he, hP⟩, a, ha, hQ⟩
  exact ⟨_, .whileLoop (g := []) ht.kind he lineEnds_nil ha, t, e, a, rfl, hP, hQ⟩

theorem reads_for {H : Header → Prop} {header : String} (hv : IsName v) (hh : Reads header (IsHeader E) H)
    (hb : Reads text (IsBlock inner) Q) :
    Reads ("for (" ++ v ++ " in " ++ header ++ ") " ++ text) (IsStatement E inner) fun s =>
      ∃ tok id x a, s = .forLoop tok id x a ∧ id.name = v ∧ H x ∧ Q a := by
  have hfor : IsSpelling "for" := by decide
  have hin : IsSpelling "in" := by decide
  have hclose := (Writes.blank hb).lone (c := ')') rfl nofun
  have hheader := ((Writes.append hh hclose (free_cons rfl (by decide))).keyword hin nofun).blank
  have hopen := ((writes_name hv).append hheader (free_cons rfl (by decide))).lone (c := '(') rfl nofun
  have hall := hopen.keyword hfor nofun
  refine (hall.mono ?_).of_eq (by simp)
  rintro _ ⟨t, _, rfl, ht, o, _, rfl, ho, _, _, rfl, ⟨x, rfl, hx, hname⟩, u, _, rfl, hu, us, _, rfl, ⟨y, hy, hH⟩,
    z, vs, rfl, hz, a, ha, hQ⟩
  exact ⟨_, .forLoop (g := []) ht.kind ho.kind hx hu.kind hy hz.kind lineEnds_nil ha, t, _, y, a, rfl, hname, hH, hQ⟩

theorem reads_each (he : Reads text E P) : Reads text (IsHeader E) fun x => ∃ e, x = .each e ∧ P e :=
  he.map fun _ e hread hP => ⟨.each e, .each hread, e, rfl, hP⟩

/-- The text is read as the step of a range, if there is one. -/
structure ReadsStep (text : String) (E : Reading Expr) (R : Option Expr → Prop) : Prop where
  free : Free text.toList
  reads : Reads text (IsStepPart E) R

theorem readsStep_none {R : Option Expr → Prop} (h : R none) : ReadsStep "" E R := by
  refine ⟨free_nil, Writes.mono writes_nil ?_⟩
  rintro _ rfl
  exact ⟨none, .none, h⟩

theorem readsStep_some (he : Reads text E P) : ReadsStep (" step " ++ text) E fun o => ∃ e, o = some e ∧ P e := by
  have hspelling : IsSpelling "step" := by decide
  refine ⟨by rw [String.toList_append]; exact free_cons rfl (by decide), ?_⟩
  refine ((Writes.keyword he hspelling nofun).blank.mono ?_).of_eq (by simp)
  rintro _ ⟨t, us, rfl, ht, e, hread, hP⟩
  exact ⟨some e, .some ht.kind hread, e, rfl, hP⟩

theorem reads_range {P' : Expr → Prop} {R : Option Expr → Prop} {step : String} (hfirst : Reads text E P)
    (hlast : Reads text' E P') (hstep : ReadsStep step E R) :
    Reads (text ++ ".." ++ text' ++ step) (IsHeader E) fun x =>
      ∃ m first last o, x = .range (.mk m first last o) ∧ P first ∧ P' last ∧ R o := by
  have hbehind := (Writes.append hlast hstep.reads hstep.free).pair (c := '.') (d := '.') rfl nofun
  refine ((Writes.append hfirst hbehind (free_cons rfl (by decide))).mono ?_).of_eq (by simp)
  rintro _ ⟨us, _, rfl, ⟨first, hf, hP⟩, d, _, rfl, hd, vs, ws, rfl, ⟨last, hl, hP'⟩, o, ho, hR⟩
  exact ⟨_, .range hf hd.kind hl ho, _, first, last, o, rfl, hP, hP', hR⟩

end Statements

/-! ## Statements of sample programs -/

/-- The text is read as one statement of a sample program, where at least `need` statements may lie
inside each other. -/
def ReadsNested (depth need : Nat) (F : Arities) (b : Bool) (c k : Nat) (S S' : List Var) (text : String) : Prop :=
  ∀ n, need ≤ n → Reads text (IsStmt (expressions depth) n) fun s => Follows F b c k S [s] S'

/-- The text is read as statements of a sample program. -/
def ReadsLines (depth need : Nat) (F : Arities) (b : Bool) (c k : Nat) (S S' : List Var) (text : String) : Prop :=
  ∀ n, need ≤ n → ReadsAhead text (IsStmt (expressions depth) n) fun ss => Follows F b c k S ss S'

/-- The text is read as a block of a sample program. -/
def ReadsBlock (depth need : Nat) (F : Arities) (b : Bool) (c k : Nat) (S : List Var) (text : String) : Prop :=
  ∀ n, need ≤ n → Reads text (IsBlock (IsStmt (expressions depth) n)) fun blk =>
    ∃ brace ss close S', blk = .mk brace ss close ∧ Follows F b c k S ss S'

theorem ReadsStmt.nested (h : ReadsStmt depth F b c k S S' text) (hneed : 0 < need) :
    ReadsNested depth need F b c k S S' text := by
  intro n hn
  obtain ⟨n, rfl⟩ : ∃ j, n = j + 1 := ⟨n - 1, by omega⟩
  exact h _

theorem ReadsNested.lines (h : ReadsNested depth need F b c k S S' text) :
    ReadsLines depth need F b c k S S' (text ++ "\n") := by
  intro n hn
  refine (h n hn).line.mono ?_
  rintro _ ⟨s, rfl, hs⟩
  exact hs

theorem ReadsNested.mono (h : ReadsNested depth need F b c k S S' text) {need' : Nat} (hneed : need ≤ need')
    (hc : c ≤ c') (hk : k ≤ k') : ReadsNested depth need' F b c' k' S S' text :=
  fun n hn => (h n (Nat.le_trans hneed hn)).mono fun _ hs => hs.weaken hc hk

theorem ReadsLines.mono (h : ReadsLines depth need F b c k S S' text) {need' : Nat} (hneed : need ≤ need')
    (hc : c ≤ c') (hk : k ≤ k') : ReadsLines depth need' F b c' k' S S' text :=
  fun n hn => (h n (Nat.le_trans hneed hn)).mono fun _ hss => hss.weaken hc hk

theorem readsLines_nil : ReadsLines depth need F b 0 k S S "" :=
  fun _ _ => readsAhead_nil (Follows.nil.weaken (Nat.le_refl 0) (Nat.zero_le k))

theorem ReadsLines.append (h : ReadsLines depth need F b c k S S' text)
    (h' : ReadsLines depth need F b c' k S' S'' text') :
    ReadsLines depth need F b (c + c') k S S'' (text ++ text') := by
  intro n hn
  refine ((h n hn).append (h' n hn)).mono ?_
  rintro _ ⟨ss, ss', rfl, hss, hss'⟩
  exact max_self k ▸ hss.append hss'

theorem ReadsLines.block (h : ReadsLines depth need F b c k S S' text) :
    ReadsBlock depth need F b c k S ("\x7b\n" ++ text ++ "\x7d") := by
  intro n hn
  refine (reads_block (h n hn)).mono ?_
  rintro _ ⟨brace, ss, close, rfl, hss⟩
  exact ⟨brace, ss, close, S', rfl, hss⟩

theorem ReadsTest.whole {lit : Token → Expr → Prop} (h : ReadsTest lit F S k text) :
    Reads text (IsExpr lit Parse.maxDepth) (IsTest F S k) := h 253

/-- `if` without `else`. -/
theorem readsNested_ifThen (hk : 3 ≤ k) (hc : ReadsTest (stringAt (depth + 1)) F S 3 v)
    (hb : ReadsBlock depth need F b c k S text) :
    ReadsNested depth (need + 1) F b c (k + 1) S S ("if (" ++ v ++ ") " ++ text) := by
  intro n hn
  obtain ⟨n, rfl⟩ : ∃ j, n = j + 1 := ⟨n - 1, by omega⟩
  have hread := reads_if (R := fun o => o = none) hc.whole (hb n (by omega)) (readsElse_none rfl)
  refine (Writes.of_eq hread (by simp)).mono ?_
  rintro us ⟨_, hus, tok, e, _, _, rfl, htest, ⟨brace, ss, close, S', rfl, hss⟩, rfl⟩
  exact ⟨_, hus, .ifThen (Nat.lt_succ_self k) (htest.mono hk) hss⟩

/-- `if` with `else`. -/
theorem readsNested_ifElse (hk : 3 ≤ k) (hc : ReadsTest (stringAt (depth + 1)) F S 3 v)
    (hb : ReadsBlock depth need F b c k S text) (hb' : ReadsBlock depth need F b c k S text') :
    ReadsNested depth (need + 1) F b c (k + 1) S S ("if (" ++ v ++ ") " ++ text ++ " else " ++ text') := by
  intro n hn
  obtain ⟨n, rfl⟩ : ∃ j, n = j + 1 := ⟨n - 1, by omega⟩
  have hread := reads_if hc.whole (hb n (by omega)) (readsElse_block (hb' n (by omega)))
  refine (Writes.of_eq hread (by simp)).mono ?_
  rintro us ⟨_, hus, tok, e, _, _, rfl, htest, ⟨brace, ss, close, S', rfl, hss⟩, _, rfl,
    brace', ss', close', S'', rfl, hss'⟩
  exact ⟨_, hus, .ifElse (Nat.lt_succ_self k) (htest.mono hk) hss hss'⟩

/-- `if` with another one behind `else`. -/
theorem readsNested_elseIf {w : String} (hk : 3 ≤ k) (hc : ReadsTest (stringAt (depth + 1)) F S 3 v)
    (hb : ReadsBlock depth need F b c k S text) (hc' : ReadsTest (stringAt (depth + 1)) F S 3 w)
    (hb' : ReadsBlock depth need F b c k S text') :
    ReadsNested depth (need + 2) F b c (k + 2) S S
      ("if (" ++ v ++ ") " ++ text ++ " else if (" ++ w ++ ") " ++ text') := by
  intro n hn
  obtain ⟨n, rfl⟩ : ∃ j, n = j + 2 := ⟨n - 2, by omega⟩
  have hinner := reads_if (R := fun o => o = none) hc'.whole (hb' n (by omega)) (readsElse_none rfl)
  have hchained := readsElse_chained (n := n + 1) hinner (by rintro _ ⟨tok, e, a, o, rfl, -⟩; rfl)
  have hread := reads_if hc.whole (hb (n + 1) (by omega)) hchained
  refine (Writes.of_eq hread (by simp)).mono ?_
  rintro us ⟨_, hus, tok, e, _, _, rfl, htest, ⟨brace, ss, close, S', rfl, hss⟩, _, rfl, tok', e', _, _, rfl, htest',
    ⟨brace', ss', close', S'', rfl, hss'⟩, rfl⟩
  have helse : Follows F b c (k + 1) S [.ifElse tok' e' (.mk brace' ss' close') none] S :=
    .ifThen (Nat.lt_succ_self k) (htest'.mono hk) hss'
  exact ⟨_, hus, .ifElse (Nat.lt_succ_self (k + 1)) (htest.mono (Nat.le_succ_of_le hk))
    (hss.weaken (Nat.le_refl c) (Nat.le_succ k)) helse⟩

/-- A loop over the elements of a collection. -/
theorem readsNested_each {a : String} (hk : 1 ≤ k) (hv : IsName v) (hfresh : IsFresh F S v) (ha : IsName a)
    (hscope : InScope S .collection a) (hb : ReadsBlock depth need F true c k (⟨v, .number, false⟩ :: S) text) :
    ReadsNested depth (need + 1) F b c (k + 1) S S ("for (" ++ v ++ " in " ++ a ++ ") " ++ text) := by
  intro n hn
  obtain ⟨n, rfl⟩ : ∃ j, n = j + 1 := ⟨n - 1, by omega⟩
  have hheader : Reads a (IsHeader (expressions depth)) _ := reads_each (reads_name ha).read.sum.comparison.logical
  refine (reads_for hv hheader (hb n (by omega))).mono ?_
  rintro _ ⟨tok, id, _, _, rfl, rfl, ⟨_, rfl, _, rfl, base, rfl, rfl⟩, brace, ss, close, S', rfl, hss⟩
  exact .each (Nat.lt_succ_self k) (Nat.lt_succ_of_le hk) hfresh hscope hss

/-- A loop over the numbers of a range. -/
theorem readsNested_range {step : String} (hk : 1 ≤ k) (hv : IsName v) (hfresh : IsFresh F S v) (hi : i < 2 ^ 31)
    (hj : j < 2 ^ 31) (hstep : ReadsStep step (expressions depth) IsStep)
    (hb : ReadsBlock depth need F true c k (⟨v, .number, false⟩ :: S) text) :
    ReadsNested depth (need + 1) F b c (k + 1) S S
      ("for (" ++ v ++ " in " ++ toString i ++ ".." ++ toString j ++ step ++ ") " ++ text) := by
  intro n hn
  obtain ⟨n, rfl⟩ : ∃ j, n = j + 1 := ⟨n - 1, by omega⟩
  have hread := reads_for hv (reads_range (reads_natExpr hi) (reads_natExpr hj) hstep) (hb n (by omega))
  refine (Writes.of_eq hread (by simp)).mono ?_
  rintro us ⟨_, hus, tok, id, _, _, rfl, rfl, ⟨m, _, _, o, rfl, ⟨m₁, rfl⟩, ⟨m₂, rfl⟩, hstep⟩, brace, ss, close, S', rfl,
    hss⟩
  exact ⟨_, hus, .range (Nat.lt_succ_self k) (Nat.lt_succ_of_le hk) hfresh hstep hss⟩

/-- The step of a range. -/
theorem readsStep_nat (hi : i < 3) : ReadsStep (" step " ++ toString (i + 1)) (expressions depth) IsStep := by
  have hlt : i + 1 < 2 ^ 31 := by omega
  obtain ⟨hfree, hreads⟩ := readsStep_some (@reads_natExpr (stringAt (depth + 1)) _ 255 hlt)
  refine ⟨hfree, hreads.mono ?_⟩
  rintro _ ⟨_, rfl, m, rfl⟩ _ ⟨⟩
  refine ⟨m, _, rfl, fun hle => ?_⟩
  have hvalue := Int32.le_iff_toInt_le.mp hle
  rw [toInt_ofNat hlt, Int32.toInt_zero] at hvalue
  omega

/-- The body of a loop that counts. -/
theorem reads_countingBody (hv : IsName v) (hneed : 1 ≤ n) {P : List Stmt → Prop}
    (h : ReadsAhead text (IsStmt (expressions depth) n) P) :
    Reads ("\x7b\n" ++ (v ++ "++" ++ "\n" ++ text) ++ "\x7d") (IsBlock (IsStmt (expressions depth) n)) fun blk =>
      ∃ brace tok m id ss close, blk = .mk brace (.selfOp tok (.mk m "++" false (.name id)) :: ss) close ∧
        id.name = v ∧ P ss := by
  obtain ⟨n, rfl⟩ : ∃ j, n = j + 1 := ⟨n - 1, by omega⟩
  have hcount : Reads (v ++ "++") (IsStmt (expressions depth) (n + 1)) _ := reads_increment hv
  refine (reads_block (hcount.line.append h)).mono ?_
  rintro _ ⟨brace, _, close, rfl, _, ss, rfl, ⟨_, rfl, tok, m, id, rfl, hname⟩, hss⟩
  exact ⟨brace, tok, m, id, ss, close, rfl, hname, hss⟩

/-- The condition of a loop that counts. -/
theorem reads_countingTest (hv : IsName v) (hi : i < 2 ^ 31) :
    Reads (v ++ " < " ++ toString i) (expressions depth) fun e =>
      ∃ m id m', e = .compare m "<" (.read (.name id)) (.int m' (Int32.ofNat i)) ∧ id.name = v := by
  have hleft : Reads v (IsSum (IsUnary (stringAt (depth + 1)) 255)) _ := (reads_name hv).read.sum
  have hread := (reads_compare hleft (reads_nat hi).sum (show "<" ∈ comparisons by decide)).logical
  refine (Writes.of_eq hread (by simp)).mono ?_
  rintro us ⟨_, hus, m, _, _, rfl, -, ⟨_, rfl, id, rfl, rfl⟩, m', rfl⟩
  exact ⟨_, hus, m, id, m', rfl, rfl⟩

/-- A counter and the loop that counts it, which nothing else in the loop assigns. -/
theorem readsLines_while (hneed : 1 ≤ need) (hk : 6 ≤ k) (hv : IsName v) (hfresh : IsFresh F S v) (hi : i ≤ 4)
    (h : ReadsLines depth need F true c k (⟨v, .number, false⟩ :: S) S' text) :
    ReadsLines depth (need + 1) F b c (k + 1) S (⟨v, .number, false⟩ :: S)
      ("var " ++ v ++ " = 0\nwhile (" ++ v ++ " < " ++ toString i ++ ") \x7b\n" ++ v ++ "++\n" ++ text ++
        "\x7d\n") := by
  intro n hn
  obtain ⟨n, rfl⟩ : ∃ j, n = j + 1 := ⟨n - 1, by omega⟩
  have hlt : i < 2 ^ 31 := by omega
  have hzero : Reads (toString 0) (expressions depth) fun e => ∃ m, e = .int m (Int32.ofNat 0) :=
    reads_natExpr (by decide)
  have hdecl : Reads ("var" ++ " " ++ v ++ " = " ++ toString 0) (IsStmt (expressions depth) (n + 1)) _ :=
    reads_decl (by decide) hv hzero
  have hloop : Reads _ (IsStmt (expressions depth) (n + 1)) _ :=
    reads_while (reads_countingTest hv hlt) (reads_countingBody hv (by omega) (h n (by omega)))
  have hdigit : toString 0 = "0" := rfl
  have htext : "var " ++ v ++ " = 0\nwhile (" ++ v ++ " < " ++ toString i ++ ") \x7b\n" ++ v ++ "++\n" ++ text ++
        "\x7d\n" =
      "var" ++ " " ++ v ++ " = " ++ toString 0 ++ "\n" ++ ("while (" ++ (v ++ " < " ++ toString i) ++ ") " ++
        ("\x7b\n" ++ (v ++ "++" ++ "\n" ++ text) ++ "\x7d") ++ "\n") := by
    rw [hdigit, ← String.toList_inj]
    simp
  rw [htext]
  refine (hdecl.line.append hloop.line).mono ?_
  rintro _ ⟨_, _, rfl, ⟨_, rfl, tok, name, _, rfl, rfl, m, rfl⟩, _, rfl, tok', _, _, rfl, ⟨m₁, id, m₂, rfl, hid⟩,
    brace, tok'', m₃, id', ss, close, rfl, hid', hss⟩
  have hbound : (Int32.ofNat i).toInt ≤ 4 := by
    rw [toInt_ofNat hlt]
    omega
  exact .counting (by omega) (Nat.lt_succ_self k) (by omega) hfresh hid hid' hbound hss

/-! ## Choices of statements -/

/-- Whatever variables are in scope, the step makes a text that is read as statements once it has a
line end behind it. -/
def Composes (depth need : Nat) (F : Arities) (b : Bool) (c k : Nat) (x : Sample String) : Prop :=
  ∀ S, Declares F S x fun text S' => ReadsLines depth need F b c k S S' (text ++ "\n")

section Choices

variable {statement : Sample String}

theorem lines_cons (text : String) (texts : List String) : lines (text :: texts) = text ++ "\n" ++ lines texts :=
  String.join_cons

/-- Several statements. -/
theorem Composes.times (h : Composes depth need F b c k statement) (n : Nat) :
    Declares F S (Sample.times statement n) fun texts S' => ReadsLines depth need F b (n * c) k S S' (lines texts) := by
  induction n generalizing S with
  | zero => exact .pure ((Nat.zero_mul c).symm ▸ readsLines_nil)
  | succ n ih =>
    unfold Sample.times
    refine (h S).bind fun text S₁ htext => ih.bind fun texts S₂ htexts => .pure ?_
    have hlines := htext.append htexts
    rw [lines_cons, Nat.succ_mul, Nat.add_comm]
    exact hlines

theorem makes_block (h : Composes depth need F b c k statement) :
    Makes F S (block statement) (ReadsBlock depth need F b (3 * c) k S) := by
  refine makes_inScope ((makes_draw 3).bindDeclares fun i hi => (h.times (i + 1)).bind fun texts S' htexts => .pure ?_)
  have hle : (i + 1) * c ≤ 3 * c := Nat.mul_le_mul_right c (hi (by decide))
  exact (htexts.mono (Nat.le_refl need) hle (Nat.le_refl k)).block

theorem makes_branching (hk : 3 ≤ k) (h : Composes depth need F b c k statement) :
    Makes F S (branching statement) (ReadsNested depth (need + 2) F b (3 * c) (k + 2) S S) := by
  unfold branching
  refine (makes_condition (depth + 1)).bind fun v hv => (makes_block h).bind fun text htext => ?_
  refine (makes_draw 3).bind fun i _ => ?_
  split
  · refine (makes_block h).bind fun text' htext' => .pure ?_
    exact (readsNested_ifElse hk hv htext htext').mono (Nat.le_succ _) (Nat.le_refl _) (Nat.le_succ _)
  · refine (makes_condition (depth + 1)).bind fun w hw => (makes_block h).bind fun text' htext' => .pure ?_
    exact readsNested_elseIf hk hv htext hw htext'
  · exact .pure ((readsNested_ifThen hk hv htext).mono (Nat.le_succ _) (Nat.le_refl _) (Nat.le_succ _))

/-- The body of a loop with its variable. -/
theorem makes_loopBody (letter : String) {l : Char} (hletter : letter.toList = [l]) (hl : l ∈ letters)
    (h : Composes depth need F true c k statement) : Makes F S (loopBody letter statement) fun p =>
      IsName p.1 ∧ IsFresh F S p.1 ∧ ReadsBlock depth need F true (3 * c) k (⟨p.1, .number, false⟩ :: S) p.2 := by
  refine makes_inScope (declares_fresh letter hletter hl fun x hx hfresh => ?_)
  exact (makes_block h).bindDeclares fun text htext => .pure ⟨hx, hfresh, htext⟩

theorem makes_rangeLoop (hk : 1 ≤ k) (h : Composes depth need F true c k statement) :
    Makes F S (rangeLoop statement) (ReadsNested depth (need + 1) F b (3 * c) (k + 1) S S) := by
  unfold rangeLoop
  refine (makes_draw 3).bind fun first hfirst => (makes_draw 4).bind fun more hmore => ?_
  have hlow := hfirst (by decide)
  have hhigh := hmore (by decide)
  -- whatever the step is, the body comes behind it
  have hend {step : String} (hstep : ReadsStep step (expressions depth) IsStep) : Makes F S (do
      let p ← loopBody "i" statement
      return "for (" ++ p.1 ++ " in " ++ toString first ++ ".." ++ toString (first + more) ++ step ++ ") " ++ p.2)
      (ReadsNested depth (need + 1) F b (3 * c) (k + 1) S S) := by
    refine (makes_loopBody "i" rfl (by decide) h).bind fun p hp => .pure ?_
    obtain ⟨hv, hfresh, hblock⟩ := hp
    exact readsNested_range hk hv hfresh (by omega) (by omega) hstep hblock
  dsimp only
  refine (makes_draw 3).bind fun i _ => ?_
  split
  · exact (makes_draw 3).bind fun j hj => hend (readsStep_nat (hj (by decide)))
  · exact hend (readsStep_none (by simp [IsStep]))

theorem makes_forLoop (hk : 1 ≤ k) (h : Composes depth need F true c k statement) :
    Makes F S (forLoop statement) (ReadsNested depth (need + 1) F b (3 * c) (k + 1) S S) := by
  unfold forLoop
  refine (makes_pick? .collection false).bind fun o ho => ?_
  cases o with
  | none => exact makes_rangeLoop hk h
  | some a =>
    obtain ⟨ha, w, hw, -⟩ := ho a rfl
    refine (makes_draw 3).bind fun i _ => ?_
    split
    · refine (makes_loopBody "x" rfl (by decide) h).bind fun p hp => .pure ?_
      obtain ⟨hv, hfresh, hblock⟩ := hp
      exact readsNested_each hk hv hfresh ha ⟨w, hw⟩ hblock
    · exact makes_rangeLoop hk h

theorem declares_whileLoop (hneed : 1 ≤ need) (hk : 6 ≤ k) (h : Composes depth need F true c k statement) :
    Declares F S (whileLoop statement) fun text S' =>
      ReadsLines depth (need + 1) F b (2 * c) (k + 1) S S' (text ++ "\n") := by
  unfold whileLoop
  refine declares_fresh "w" rfl (by decide) fun w hw hfresh => (makes_draw 4).bindDeclares fun i hi => ?_
  have hbody : Makes F (⟨w, .number, false⟩ :: S) (inScope do
      let n ← draw 2
      let body ← Sample.times statement (n + 1)
      return "var " ++ w ++ " = 0\nwhile (" ++ w ++ " < " ++ toString (i + 1) ++ ") \x7b\n" ++ w ++ "++\n" ++
        lines body ++ "\x7d") fun text =>
        ReadsLines depth (need + 1) F b (2 * c) (k + 1) S (⟨w, .number, false⟩ :: S) (text ++ "\n") := by
    refine makes_inScope ((makes_draw 2).bindDeclares fun n hn => ?_)
    refine (h.times (n + 1)).bind fun texts S' htexts => .pure ?_
    have hle : (n + 1) * c ≤ 2 * c := Nat.mul_le_mul_right c (hn (by decide))
    have hlines := readsLines_while (b := b) hneed hk hw hfresh (hi (by decide))
      (htexts.mono (Nat.le_refl need) hle (Nat.le_refl k))
    simpa [String.append_assoc] using hlines
  refine hbody.declares.mono ?_
  rintro text _ ⟨rfl, htext⟩
  exact htext

/-- A way out of a loop. -/
theorem readsNested_break (hk : 3 ≤ k) (hc : ReadsTest (stringAt (depth + 1)) F S 3 v) :
    ReadsNested depth 2 F true 0 (k + 1) S S ("if (" ++ v ++ ") \x7b\nbreak\n\x7d") := by
  have hspelling : IsSpelling "break" := by decide
  have hbreak (inner : Reading Stmt) : Reads "break" (IsStatement (expressions depth) inner) fun s =>
      ∃ tok, s = .brk tok := by
    refine ((writes_nil.word hspelling free_nil nofun).mono ?_).of_eq (List.append_nil _).symm
    rintro _ ⟨t, _, rfl, ht, rfl⟩
    exact ⟨_, .brk ht.kind, t, rfl⟩
  have hline : ReadsNested depth 1 F true 0 k S S "break" := by
    refine ReadsStmt.nested (fun inner => (hbreak inner).mono ?_) Nat.one_pos
    rintro _ ⟨tok, rfl⟩
    exact .brk (by omega) tok
  have hif := readsNested_ifThen hk hc hline.lines.block
  simpa [String.append_assoc] using hif

/-! ### Statements -/

/-- How deep the calls in a statement go, where so many levels lie inside it. -/
def callsWithin (level : Nat) : Nat := 3 ^ level

theorem composes_of_simple {x : Sample String} (hneed : 1 ≤ need) (hc : 1 ≤ c) (hk : 40 ≤ k)
    (h : ∀ S, Declares F S x fun text S' => ReadsStmt depth F b 1 40 S S' text) : Composes depth need F b c k x :=
  fun S => (h S).mono fun _ _ htext => (htext.nested hneed).lines.mono (Nat.le_refl _) hc hk

theorem composes_of_nested {x : Sample String} {need' : Nat} (hneed : need' ≤ need) (hc : c' ≤ c) (hk : k' ≤ k)
    (h : ∀ S, Makes F S x (ReadsNested depth need' F b c' k' S S)) : Composes depth need F b c k x := by
  intro S
  refine (h S).declares.mono ?_
  rintro text _ ⟨rfl, htext⟩
  exact htext.lines.mono hneed hc hk

/-- Statements of sample programs. -/
theorem composes_statementWithin (depth : Nat) (F : Arities) (level : Nat) : ∀ b : Bool,
    Composes depth (2 * level + 1) F b (callsWithin level) (40 + 2 * level) (statementWithin level b) := by
  induction level with
  | zero =>
    intro b
    refine composes_of_simple (Nat.le_refl _) (Nat.le_refl _) (Nat.le_refl _) fun S => ?_
    refine (makes_printing depth b).declares.mono ?_
    rintro text _ ⟨rfl, htext⟩
    exact htext
  | succ level ih =>
    intro b
    have hpow : callsWithin (level + 1) = 3 * callsWithin level := Nat.pow_succ'
    have hpos : 1 ≤ callsWithin level := Nat.one_le_pow _ _ (by decide)
    have hsimple {x : Sample String} (h : ∀ S, Declares F S x fun text S' => ReadsStmt depth F b 1 40 S S' text) :
        Composes depth (2 * (level + 1) + 1) F b (callsWithin (level + 1)) (40 + 2 * (level + 1)) x :=
      composes_of_simple (by omega) (by omega) (by omega) h
    intro S
    unfold statementWithin
    refine (makes_draw 14).bindDeclares fun choice _ => ?_
    split
    · exact hsimple (fun S => declares_varDecl depth b) S
    split
    · exact hsimple (fun S => declares_assignment depth b) S
    split
    · refine hsimple (fun S => (makes_printing depth b).declares.mono ?_) S
      rintro text _ ⟨rfl, htext⟩
      exact htext
    split
    · exact composes_of_nested (by omega) (by omega) (by omega) (fun S => makes_branching (by omega) (ih b)) S
    split
    · exact composes_of_nested (by omega) (by omega) (by omega) (fun S => makes_forLoop (by omega) (ih true)) S
    split
    · have hwhile := declares_whileLoop (S := S) (b := b) (by omega) (by omega) (ih true)
      exact hwhile.mono fun text S' htext => htext.mono (by omega) (by omega) (by omega)
    split
    · exact hsimple (fun S => declares_collectionDecl depth b) S
    split
    · exact hsimple (fun S => declares_functionDecl depth b) S
    split
    · rename_i hloop
      obtain ⟨-, rfl⟩ := hloop
      refine (makes_condition (depth + 1)).bindDeclares fun v hv => .pure ?_
      exact (readsNested_break (k := 3) (Nat.le_refl 3) hv).lines.mono (by omega) (Nat.zero_le _) (by omega)
    · exact hsimple (fun S => declares_varDecl depth b) S

theorem composes_statement (depth : Nat) (F : Arities) : Composes depth 7 F false 27 46 Sample.statement := by
  have hcalls : callsWithin 3 = 27 := by decide
  exact hcalls ▸ composes_statementWithin depth F 3 false

end Choices

end Sample
end Kotlet

import Kotlet.Proofs.Parse.Complete

/-!
# The grammar without line ends and strings

* `Stringless` : tokens among which there is no string;
* `IsExpr.stringless` : what string literals stand for does not matter to them;
* `Expr.parse_iff_isExpr` : the parser decides the grammar, and no tokens have two trees.
-/

namespace Kotlet
namespace Grammar

/-- Tokens among which there is no string. -/
def Stringless (ts : List Token) : Prop := ∀ t ∈ ts, t.kind ≠ .string

/-- On tokens without strings the one rule reads whatever the other reads. -/
def Follows {α : Type} (R R' : Reading α) : Prop :=
  ∀ ⦃ts a⦄, Stringless ts → R ts a → R' ts a

section Follows

variable {α : Type} {E E' : Reading Expr} (hE : Follows E E')
include hE

omit hE in
theorem Separated.follows {comma : List Token → Prop} {item item' : Reading α}
    (hitem : Follows item item') : Follows (Separated comma item) (Separated comma item') := by
  intro ts as hts h
  induction h with
  | one h => exact .one (hitem hts h)
  | more h hc hs ih =>
    exact .more (hitem (fun t ht => hts t (by simp [ht])) h) hc (ih (fun t ht => hts t (by simp [ht])))

theorem IsTarget.follows : Follows (IsTarget E) (IsTarget E') := by
  intro ts t hts h
  cases h with
  | name ht => exact .name ht
  | element ht hb hg he hg' hc => exact .element ht hb hg (hE (fun t ht => hts t (by simp [ht])) he) hg' hc

theorem AreArguments.follows : Follows (AreArguments E) (AreArguments E') := by
  intro ts es hts h
  cases h with
  | none hg hc => exact .none hg hc
  | some hg hes hg' hc =>
    exact .some hg (Separated.follows hE (fun t ht => hts t (by simp [ht])) hes) hg' hc

theorem IsCall.follows : Follows (IsCall E) (IsCall E') := by
  intro ts c hts h
  cases h with
  | mk hf ho hes => exact .mk hf ho (AreArguments.follows hE (fun t ht => hts t (by simp [ht])) hes)

theorem IsBody.follows : Follows (IsBody E) (IsBody E') := by
  intro ts e hts h
  cases h with
  | mk hg he hg' hc => exact .mk hg (hE (fun t ht => hts t (by simp [ht])) he) hg' hc

theorem IsLambda.follows : Follows (IsLambda E) (IsLambda E') := by
  intro ts l hts h
  cases h with
  | thunk hb hg ha he => exact .thunk hb hg ha (IsBody.follows hE (fun t ht => hts t (by simp [ht])) he)
  | mk hb hg hps hdistinct ha he =>
    exact .mk hb hg hps hdistinct ha (IsBody.follows hE (fun t ht => hts t (by simp [ht])) he)

theorem IsPrimary.follows (lit lit' : Token → Expr → Prop) :
    Follows (IsPrimary lit E) (IsPrimary lit' E') := by
  intro ts e hts h
  cases h with
  | int ht => exact .int ht
  | true ht => exact .true ht
  | false ht => exact .false ht
  | string ht _ => exact absurd ht (hts _ List.mem_cons_self)
  | parens ho hg he hg' hc => exact .parens ho hg (hE (fun t ht => hts t (by simp [ht])) he) hg' hc
  | before hop ht => exact .before hop (IsTarget.follows hE (fun t ht => hts t (by simp [ht])) ht)
  | read ht => exact .read (IsTarget.follows hE hts ht)
  | after ht hop => exact .after (IsTarget.follows hE (fun t ht => hts t (by simp [ht])) ht) hop
  | call hc => exact .call (IsCall.follows hE hts hc)
  | lambda hl => exact .lambda (IsLambda.follows hE hts hl)
  | collection hk ho hg hes hg' hc =>
    exact .collection hk ho hg (Separated.follows hE (fun t ht => hts t (by simp [ht])) hes) hg' hc
  | sized hk ho hg hsize hg' hcs hl hh hc =>
    exact .sized hk ho hg (hE (fun t ht => hts t (by simp [ht])) hsize) hg' hcs
      (IsLambda.follows hE (fun t ht => hts t (by simp [ht])) hl) hh hc
  | trailing hk ho hg hsize hg' hc hl =>
    exact .trailing hk ho hg (hE (fun t ht => hts t (by simp [ht])) hsize) hg' hc
      (IsLambda.follows hE (fun t ht => hts t (by simp [ht])) hl)

theorem Chain.follows {kinds : List Token.Kind} {make : Mark → String → Expr → Expr → Expr} :
    Follows (Chain kinds make E) (Chain kinds make E') := by
  intro ts e hts h
  induction h with
  | one h => exact .one (hE hts h)
  | more hl hop hg hr ih =>
    exact .more (ih (fun t ht => hts t (by simp [ht]))) hop hg (hE (fun t ht => hts t (by simp [ht])) hr)

theorem IsComparison.follows : Follows (IsComparison E) (IsComparison E') := by
  have hsum : Follows (IsSum E) (IsSum E') := Chain.follows (Chain.follows hE)
  intro ts e hts h
  cases h with
  | one h => exact .one (hsum hts h)
  | two hl hop hg hr =>
    exact .two (hsum (fun t ht => hts t (by simp [ht])) hl) hop hg (hsum (fun t ht => hts t (by simp [ht])) hr)

theorem IsLogical.follows : Follows (IsLogical E) (IsLogical E') :=
  Chain.follows (IsComparison.follows hE)

end Follows

theorem IsUnary.follows (lit lit' : Token → Expr → Prop) (n : Nat) :
    Follows (IsUnary lit n) (IsUnary lit' n) := by
  induction n with
  | zero => exact IsPrimary.follows (fun _ _ _ h => h) lit lit'
  | succ n ih =>
    rintro ts e hts (h | ⟨bang, us, x, hbang, hx, rfl, rfl⟩)
    · exact .inl (IsPrimary.follows (IsLogical.follows ih) lit lit' hts h)
    · exact .inr ⟨bang, us, x, hbang, ih (fun t ht => hts t (by simp [ht])) hx, rfl, rfl⟩

/-- What string literals stand for does not matter where there are none. -/
theorem IsExpr.follows (lit lit' : Token → Expr → Prop) (n : Nat) :
    Follows (IsExpr lit n) (IsExpr lit' n) := by
  cases n with
  | zero => exact fun _ _ _ h => h
  | succ n => exact IsLogical.follows (IsUnary.follows lit lit' n)

theorem LineEnds.eq_nil {g ts : List Token} (hg : LineEnds g) (hts : ∀ t ∈ ts, t.kind ≠ .newline)
    (hmem : ∀ t ∈ g, t ∈ ts) : g = [] :=
  List.eq_nil_iff_forall_not_mem.mpr fun t ht => hts t (hmem t ht) (hg t ht)

end Grammar

open Grammar

/-- Tokens without line ends and strings are parsed as the expression that the grammar derives from
them, and it derives at most one. -/
theorem Expr.parse_iff_isExpr {tokens : List Token} (hlines : ∀ t ∈ tokens, t.kind ≠ .newline)
    (hstrings : ∀ t ∈ tokens, t.kind ≠ .string) :
    (∀ e, Expr.parse tokens = .ok e ↔ IsExpr (fun _ _ => False) Parse.maxDepth tokens e) ∧
      ∀ e e', IsExpr (fun _ _ => False) Parse.maxDepth tokens e →
        IsExpr (fun _ _ => False) Parse.maxDepth tokens e' → e = e' := by
  have hparse (e : Expr) : Expr.parse tokens = .ok e ↔
      IsExpr (fun _ _ => False) Parse.maxDepth tokens e := by
    rw [Expr.parse_eq_ok_iff]
    constructor
    · rintro ⟨hg, he, hg'⟩
      rename_i g ts g'
      obtain rfl := hg.eq_nil hlines fun t ht => by simp [ht]
      obtain rfl := hg'.eq_nil hlines fun t ht => by simp [ht]
      rw [List.nil_append, List.append_nil] at hstrings ⊢
      exact IsExpr.follows _ _ _ hstrings he
    · intro he
      have hnil : LineEnds [] := nofun
      have hwhole := IsWhole.mk hnil (IsExpr.follows _
        (Parse.literal (Parse.contextOf tokens)) _ hstrings he) hnil
      rwa [List.nil_append, List.append_nil] at hwhole
  refine ⟨hparse, fun e e' he he' => ?_⟩
  rw [← hparse] at he he'
  exact Except.ok.inj (he.symm.trans he')

/-- A call with a lambda that takes a function, between operators of three tiers. -/
theorem Expr.parse_iff_isExpr_lambda : ∃ tokens e,
    Token.scan "!f(\x7b g: (Int) -> Unit, n -> n++ * 2 \x7d) || a[i] >= -1" = .ok tokens ∧
      Expr.parse tokens = .ok e ∧ IsExpr (fun _ _ => False) Parse.maxDepth tokens e ∧
        ∀ e', IsExpr (fun _ _ => False) Parse.maxDepth tokens e' → e = e' := by
  have hscan : (Token.scan
      "!f(\x7b g: (Int) -> Unit, n -> n++ * 2 \x7d) || a[i] >= -1").toOption.any (fun tokens =>
        (Expr.parse tokens).isOk && tokens.all fun t => t.kind ≠ .newline ∧ t.kind ≠ .string) =
      true := by decide +kernel
  cases htokens : Token.scan "!f(\x7b g: (Int) -> Unit, n -> n++ * 2 \x7d) || a[i] >= -1" with
  | error d =>
    rw [htokens] at hscan
    cases hscan
  | ok tokens =>
    rw [htokens] at hscan
    obtain ⟨hok, hkinds⟩ := (Bool.and_eq_true _ _).mp hscan
    have hkinds : ∀ t ∈ tokens, t.kind ≠ .newline ∧ t.kind ≠ .string := by simpa using hkinds
    cases he : Expr.parse tokens with
    | error d =>
      rw [he] at hok
      cases hok
    | ok e =>
      obtain ⟨hiff, hunique⟩ := Expr.parse_iff_isExpr (fun t ht => (hkinds t ht).1)
        fun t ht => (hkinds t ht).2
      exact ⟨tokens, e, rfl, he, (hiff e).mp he, fun e' => hunique e e' ((hiff e).mp he)⟩

end Kotlet

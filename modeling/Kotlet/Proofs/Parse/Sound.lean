import Kotlet.Parse.Expr
import Kotlet.Proofs.Parse.Steps

/-!
# What is parsed is derived

* `Reads` : a rule of the parser gives what the grammar reads in the tokens it takes;
* `Before` : something and what is left behind it, where a last `>=` may be split;
* `reads_primary`, `reads_logical`, `reads_level` : expressions from the inside out.
-/

namespace Kotlet
namespace Parse

open Grammar

variable {ctx : Context} (hc : ctx.eof.kind = .eof)

/-- What the rule gives is read in the tokens that it takes. -/
def Reads {α : Type} (ctx : Context) (rule : Parser α) (R : Reading α) : Prop :=
  ∀ ts rest a, ts.length ≤ ctx.limit → rule ctx ts = .ok (a, rest) → ∃ us, ts = us ++ rest ∧ R us a

/-! ## Types -/

/-- The first half of a `>=` that is split. -/
def firstHalf (t : Token) : Token := .plain .gt ">" t.line t.col

/-- The second half of a `>=` that is split. -/
def secondHalf (t : Token) : Token := .plain .assign "=" t.line (t.col + 1)

/-- The tokens begin with those of `a`, of which the last one may be split, and `rest` is left. -/
inductive Before {α : Type} (R : Reading α) (rest : List Token) (a : α) : List Token → Prop where
  | whole (us : List Token) (h : R us a) : Before R rest a (us ++ rest)
  | split (us : List Token) {vs : List Token} {t : Token} (ht : t.kind = .ge)
    (h : R (us ++ [firstHalf t]) a) (hrest : rest = secondHalf t :: vs) : Before R rest a (us ++ t :: vs)

section Before

variable {α β : Type} {R : Reading α} {S : Reading β} {rest ts : List Token} {a : α} {b : β}

theorem Before.length_le (h : Before R rest a ts) : rest.length ≤ ts.length := by
  cases h with
  | whole us h => simp
  | split us ht h hrest =>
    subst hrest
    simp

/-- What is put before it becomes a part of it. -/
theorem Before.append (before : List Token) (h : Before R rest a ts)
    (hab : ∀ us, R us a → S (before ++ us) b) : Before S rest b (before ++ ts) := by
  cases h with
  | whole us h =>
    rw [← List.append_assoc]
    exact .whole _ (hab _ h)
  | split us ht h hrest =>
    rw [← List.append_assoc]
    refine .split _ ht ?_ hrest
    rw [List.append_assoc]
    exact hab _ h

/-- Where another token than `=` is left, nothing was split. -/
theorem Before.eq_append {t : Token} (h : Before R (t :: rest) a ts) (ht : t.kind ≠ .assign) :
    ∃ us, ts = us ++ t :: rest ∧ R us a := by
  cases h with
  | whole us h => exact ⟨us, rfl, h⟩
  | split us _ h hrest =>
    cases hrest
    exact absurd rfl ht

/-- What is left behind a token that was split. -/
def Split (rest : List Token) : Prop := ∃ t vs, rest = secondHalf t :: vs

theorem Before.eq_append_or_split (h : Before R rest a ts) :
    (∃ us, ts = us ++ rest ∧ R us a) ∨ Split rest := by
  cases h with
  | whole us h => exact .inl ⟨us, rfl, h⟩
  | split us ht h hrest => exact .inr ⟨_, _, hrest⟩

theorem Split.ne_cons {t : Token} (h : Split (t :: rest)) : t.kind = .assign := by
  obtain ⟨u, vs, heq⟩ := h
  cases heq
  rfl

end Before

include hc

theorem of_elementType {ts rest : List Token} {s : Scalar}
    (h : elementType ctx ts = .ok (s, rest)) :
    ∃ t, ts = t :: rest ∧ scalar? t.kind = some s ∧ s ≠ .unit := by
  unfold elementType at h
  rw [bind_eq_ok] at h
  obtain ⟨t, mid, hpeek, h⟩ := h
  cases hs : (scalar? t.kind).filter (· ≠ .unit) with
  | none =>
    rw [hs] at h
    exact absurd h fail_ne_ok
  | some s' =>
    rw [hs] at h
    obtain ⟨hs, hunit⟩ := Option.filter_eq_some_iff.mp hs
    obtain ⟨rfl, us, rfl⟩ := of_peek hc hpeek fun he => by simp [he, scalar?] at hs
    rw [bind_eq_ok] at h
    obtain ⟨_, _, hadv, h⟩ := h
    obtain ⟨-, rfl⟩ := of_advance hadv
    obtain ⟨rfl, rfl⟩ := pure_eq_ok.mp h
    exact ⟨t, rfl, hs, by simpa using hunit⟩

theorem of_closeTypeArgument {ts rest : List Token} {u : Unit}
    (h : closeTypeArgument ctx ts = .ok (u, rest)) :
    (∃ g, ts = g :: rest ∧ g.kind = .gt) ∨
      ∃ g vs, ts = g :: vs ∧ g.kind = .ge ∧ rest = secondHalf g :: vs := by
  unfold closeTypeArgument at h
  rw [bind_eq_ok] at h
  obtain ⟨t, mid, hpeek, h⟩ := h
  dsimp only at h
  split at h
  · rename_i ht
    obtain ⟨rfl, us, rfl⟩ := of_peek hc hpeek (by simp [ht])
    rw [bind_eq_ok] at h
    obtain ⟨_, _, hmod, h⟩ := h
    cases hmod
    rw [bind_eq_ok] at h
    obtain ⟨g, _, hg, h⟩ := h
    obtain ⟨hcons, -⟩ := of_expect hc hg (by decide)
    cases hcons
    obtain ⟨-, rfl⟩ := pure_eq_ok.mp h
    exact .inr ⟨t, us, rfl, ht, rfl⟩
  · obtain ⟨-, rfl⟩ := peek_eq_ok.mp hpeek
    rw [bind_eq_ok] at h
    obtain ⟨g, _, hg, h⟩ := h
    obtain ⟨rfl, hk⟩ := of_expect hc hg (by decide)
    obtain ⟨-, rfl⟩ := pure_eq_ok.mp h
    exact .inl ⟨g, rfl, hk⟩

/-- Types up to the end of their list; behind one whose end is split nothing goes on. -/
theorem of_typesAfter {type : Parser Ty} {n : Nat}
    (htype : ∀ ts rest ty, ts.length ≤ n → type ctx ts = .ok (ty, rest) → Before IsType rest ty ts)
    {turns : Nat} {acc : List Ty} {ts rest : List Token} {tys : List Ty} (hn : ts.length ≤ n)
    (hturns : ts.length < turns) (h : typesAfter type turns acc ctx ts = .ok (tys, rest)) :
    (∃ us as, ts = us ++ rest ∧ tys = acc.reverse ++ as ∧ Separated Comma IsType us as) ∨
      Split rest := by
  induction turns generalizing acc ts with
  | zero => omega
  | succ turns ih =>
    unfold typesAfter at h
    rw [bind_eq_ok] at h
    obtain ⟨ty, mid, hty, h⟩ := h
    rw [bind_eq_ok] at h
    obtain ⟨b, mid', hb, h⟩ := h
    have hty := htype ts mid ty hn hty
    have hlen := hty.length_le
    obtain ⟨c, rfl, rfl, hcomma⟩ | ⟨rfl, rfl⟩ := of_accept hc hb (by decide)
    · obtain ⟨us, rfl, hus⟩ := hty.eq_append (by rw [hcomma]; decide)
      rw [if_pos rfl] at h
      simp only [List.length_append, List.length_cons] at hn hturns
      obtain ⟨vs, as, rfl, rfl, hvs⟩ | hstuck := ih (by omega) (by omega) h
      · exact .inl ⟨us ++ ([c] ++ vs), ty :: as, by simp, by simp, .more hus (.mk hcomma) hvs⟩
      · exact .inr hstuck
    · rw [if_neg (by decide)] at h
      obtain ⟨rfl, rfl⟩ := pure_eq_ok.mp h
      exact hty.eq_append_or_split.imp_left fun ⟨us, heq, hus⟩ => ⟨us, [ty], heq, by simp, .one hus⟩

/-- A type is read in the tokens that it takes. -/
theorem of_typeWithin {depth : Nat} {ts rest : List Token} {ty : Ty} (hn : ts.length ≤ ctx.limit)
    (h : typeWithin depth ctx ts = .ok (ty, rest)) : Before IsType rest ty ts := by
  induction depth generalizing ts rest ty with
  | zero => exact absurd h fail_ne_ok
  | succ depth ih =>
    unfold typeWithin at h
    rw [bind_eq_ok] at h
    obtain ⟨t, mid, hpeek, h⟩ := h
    dsimp only at h
    cases hs : scalar? t.kind with
    | some s =>
      rw [hs] at h
      obtain ⟨rfl, us, rfl⟩ := of_peek hc hpeek fun he => by simp [he, scalar?] at hs
      rw [bind_eq_ok] at h
      obtain ⟨_, _, hadv, h⟩ := h
      obtain ⟨-, rfl⟩ := of_advance hadv
      obtain ⟨rfl, rfl⟩ := pure_eq_ok.mp h
      exact .whole [t] (.scalar hs)
    | none =>
      rw [hs] at h
      dsimp only at h
      split at h
      · rename_i hk
        simp only [bind_eq_ok, pure_eq_ok] at h
        obtain ⟨_, _, hadv, l, _, hlt, s, _, helem, _, _, hclose, rfl, rfl⟩ := h
        obtain ⟨rfl, us, rfl⟩ := of_peek hc hpeek (by rcases hk with hk | hk <;> simp [hk])
        obtain ⟨-, rfl⟩ := of_advance hadv
        obtain ⟨rfl, hl⟩ := of_expect hc hlt (by decide)
        obtain ⟨e, rfl, he, hunit⟩ := of_elementType hc helem
        have htype {g : Token} (hg : g.kind = .gt) :
            IsType [t, l, e, g] (if t.kind = .tyMutableList then .list s else .array s) := by
          split
          · rename_i hlist
            exact .list hlist hl he hunit hg
          · rename_i hlist
            exact .array (hk.resolve_right hlist) hl he hunit hg
        obtain ⟨g, rfl, hg⟩ | ⟨g, vs, rfl, hg, rfl⟩ := of_closeTypeArgument hc hclose
        · exact .whole [t, l, e, g] (htype hg)
        · exact .split [t, l, e] hg (htype rfl) rfl
      · split at h
        · rename_i hk
          rw [bind_eq_ok] at h
          obtain ⟨_, _, hadv, h⟩ := h
          obtain ⟨rfl, us, rfl⟩ := of_peek hc hpeek (by simp [hk])
          obtain ⟨-, rfl⟩ := of_advance hadv
          rw [List.length_cons] at hn
          rw [bind_eq_ok] at h
          obtain ⟨b, _, hnext, h⟩ := h
          obtain ⟨rfl, -⟩ := of_nextIs hc hnext (by decide)
          split at h
          · simp only [bind_eq_ok, pure_eq_ok] at h
            obtain ⟨_, _, ⟨rfl, rfl⟩, c, _, hclose, a, _, harrow, r, _, hresult, rfl, rfl⟩ := h
            obtain ⟨rfl, hcl⟩ := of_expect hc hclose (by decide)
            obtain ⟨rfl, ha⟩ := of_expect hc harrow (by decide)
            simp only [List.length_cons] at hn
            exact (ih (by omega) hresult).append [t, c, a] fun _ hr => IsType.thunk hk hcl ha hr
          · simp only [bind_eq_ok, pure_eq_ok, read_eq_ok] at h
            obtain ⟨_, _, ⟨rfl, rfl⟩, ps, _, hparams, c, _, hclose, a, _, harrow, r, _, hresult,
              rfl, rfl⟩ := h
            obtain ⟨rfl, hcl⟩ := of_expect hc hclose (by decide)
            obtain ⟨rfl, ha⟩ := of_expect hc harrow (by decide)
            obtain ⟨us, as, rfl, rfl, hus⟩ | hsplit :=
              of_typesAfter hc (fun _ _ _ => ih) (by omega) hn hparams
            · simp only [List.length_append, List.length_cons] at hn
              have hfn (rs : List Token) (hr : IsType rs r) :
                  IsType (t :: (us ++ [c, a]) ++ rs) (.fn ps (some r)) := by
                simpa using IsType.fn hk hus hcl ha hr
              simpa using (ih (by omega) hresult).append _ hfn
            · cases hcl.symm.trans hsplit.ne_cons
        · exact absurd h fail_ne_ok

theorem of_type {ts rest : List Token} {ty : Ty} (hn : ts.length ≤ ctx.limit)
    (h : type ctx ts = .ok (ty, rest)) : Before IsType rest ty ts := by
  unfold type at h
  simp only [bind_eq_ok, read_eq_ok] at h
  obtain ⟨_, _, ⟨rfl, rfl⟩, h⟩ := h
  exact of_typeWithin hc hn h

/-! ## Parameters -/

theorem of_parameter {required : Bool} {ts rest : List Token} {p : Param}
    (hn : ts.length ≤ ctx.limit) (h : parameter required ctx ts = .ok (p, rest)) :
    Before IsParam rest p ts := by
  unfold parameter at h
  simp only [bind_eq_ok] at h
  obtain ⟨id, _, hid, b, _, hcolon, h⟩ := h
  obtain ⟨t, rfl, ht, rfl⟩ := of_ident hc hid
  obtain ⟨c, rfl, rfl, hcol⟩ | ⟨rfl, rfl⟩ := of_accept hc hcolon (by decide)
  · rw [if_pos rfl] at h
    simp only [bind_eq_ok, pure_eq_ok] at h
    obtain ⟨ty, _, hty, rfl, rfl⟩ := h
    simp only [List.length_cons] at hn
    exact (of_type hc (by omega) hty).append [t, c] fun _ => .typed ht hcol
  · rw [if_neg (by decide)] at h
    replace h := (of_unless h).2
    obtain ⟨rfl, rfl⟩ := pure_eq_ok.mp h
    exact .whole [t] (.bare ht)

theorem of_lambdaParams {turns : Nat} {acc : List Param} {ts rest : List Token} {ps : List Param}
    (hn : ts.length ≤ ctx.limit) (hturns : ts.length < turns)
    (h : lambdaParams turns acc ctx ts = .ok (ps, rest)) :
    (∃ us as, ts = us ++ rest ∧ ps = acc.reverse ++ as ∧ Separated CommaLines IsParam us as) ∨
      Split rest := by
  induction turns generalizing acc ts with
  | zero => omega
  | succ turns ih =>
    unfold lambdaParams at h
    simp only [bind_eq_ok] at h
    obtain ⟨p, mid, hparam, b, _, hcomma, h⟩ := h
    have hp := of_parameter hc hn hparam
    obtain ⟨c, rfl, rfl, hcom⟩ | ⟨rfl, rfl⟩ := of_accept hc hcomma (by decide)
    · obtain ⟨us, rfl, hus⟩ := hp.eq_append (by rw [hcom]; decide)
      rw [if_pos rfl, bind_eq_ok] at h
      obtain ⟨_, _, hskip, h⟩ := h
      obtain ⟨g, rfl, hg⟩ := of_skipNewlines hskip
      simp only [List.length_append, List.length_cons] at hn hturns
      obtain ⟨vs, as, rfl, rfl, hvs⟩ | hsplit := ih (by omega) (by omega) h
      · exact .inl ⟨us ++ (c :: g ++ vs), p :: as, by simp, by simp, .more hus (.mk hcom hg) hvs⟩
      · exact .inr hsplit
    · rw [if_neg (by decide)] at h
      obtain ⟨rfl, rfl⟩ := pure_eq_ok.mp h
      exact hp.eq_append_or_split.imp_left fun ⟨us, heq, hus⟩ => ⟨us, [p], heq, by simp, .one hus⟩

/-! ## Primary expressions -/

section Primary

variable {expr : Parser Expr} {E : Reading Expr} (he : Reads ctx expr E)
include he

theorem reads_target : Reads ctx (target expr) (IsTarget E) := by
  intro ts rest t hn h
  unfold target at h
  simp only [bind_eq_ok] at h
  obtain ⟨base, mid, hbase, b, _, hnext, h⟩ := h
  obtain ⟨i, rfl, hi, rfl⟩ := of_ident hc hbase
  obtain ⟨rfl, hb⟩ := of_nextIs hc hnext (by decide)
  split at h
  · rename_i hopen
    obtain ⟨o, us, rfl, ho⟩ := hb hopen
    simp only [bind_eq_ok, pure_eq_ok] at h
    obtain ⟨_, _, hadv, _, _, hskip, e, _, hexpr, _, _, hskip', c, _, hclose, rfl, rfl⟩ := h
    obtain ⟨rfl, rfl⟩ := of_advance hadv
    obtain ⟨g, rfl, hg⟩ := of_skipNewlines hskip
    simp only [List.length_append, List.length_cons] at hn
    obtain ⟨vs, rfl, hvs⟩ := he _ _ _ (by omega) hexpr
    obtain ⟨g', rfl, hg'⟩ := of_skipNewlines hskip'
    obtain ⟨rfl, hcl⟩ := of_expect hc hclose (by decide)
    exact ⟨_, by simp, .element hi ho hg hvs hg' hcl⟩
  · obtain ⟨rfl, rfl⟩ := pure_eq_ok.mp h
    exact ⟨[i], rfl, .name hi⟩

/-- Arguments up to their closing parenthesis. -/
theorem of_argumentsAfter {turns : Nat} {acc : List Expr} {ts rest : List Token} {es : List Expr}
    (hn : ts.length ≤ ctx.limit) (hturns : ts.length < turns)
    (h : argumentsAfter expr turns acc ctx ts = .ok (es, rest)) :
    ∃ us as g c, ts = us ++ (g ++ c :: rest) ∧ es = acc.reverse ++ as ∧
      Separated LinesCommaLines E us as ∧ LineEnds g ∧ c.kind = .rparen := by
  induction turns generalizing acc ts with
  | zero => omega
  | succ turns ih =>
    unfold argumentsAfter at h
    simp only [bind_eq_ok] at h
    obtain ⟨e, _, hexpr, _, _, hskip, b, _, hcomma, h⟩ := h
    obtain ⟨us, rfl, hus⟩ := he _ _ _ hn hexpr
    obtain ⟨g, rfl, hg⟩ := of_skipNewlines hskip
    obtain ⟨c, rfl, rfl, hcom⟩ | ⟨rfl, rfl⟩ := of_accept hc hcomma (by decide)
    · rw [if_pos rfl, bind_eq_ok] at h
      obtain ⟨_, _, hskip', h⟩ := h
      obtain ⟨g', rfl, hg'⟩ := of_skipNewlines hskip'
      simp only [List.length_append, List.length_cons] at hn hturns
      obtain ⟨vs, as, last, c', rfl, rfl, hvs, hlast, hcl⟩ := ih (by omega) (by omega) h
      exact ⟨us ++ (g ++ c :: g' ++ vs), e :: as, last, c', by simp, by simp,
        .more hus (.mk hg hcom hg') hvs, hlast, hcl⟩
    · rw [if_neg (by decide)] at h
      simp only [bind_eq_ok, pure_eq_ok] at h
      obtain ⟨c, _, hclose, rfl, rfl⟩ := h
      obtain ⟨rfl, hcl⟩ := of_expect hc hclose (by decide)
      exact ⟨us, [e], g, c, rfl, by simp, .one hus, hg, hcl⟩

theorem reads_arguments : Reads ctx (arguments expr) (AreArguments E) := by
  intro ts rest es hn h
  unfold arguments at h
  simp only [bind_eq_ok] at h
  obtain ⟨_, _, hskip, b, _, hclose, h⟩ := h
  obtain ⟨g, rfl, hg⟩ := of_skipNewlines hskip
  obtain ⟨c, rfl, rfl, hcl⟩ | ⟨rfl, rfl⟩ := of_accept hc hclose (by decide)
  · rw [if_pos rfl] at h
    obtain ⟨rfl, rfl⟩ := pure_eq_ok.mp h
    exact ⟨g ++ [c], by simp, .none hg hcl⟩
  · rw [if_neg (by decide)] at h
    simp only [bind_eq_ok, read_eq_ok] at h
    obtain ⟨_, _, ⟨rfl, rfl⟩, h⟩ := h
    rw [List.length_append] at hn
    obtain ⟨us, as, g', c, rfl, rfl, hus, hg', hcl⟩ :=
      of_argumentsAfter hc he (by omega) (by omega) h
    exact ⟨_, by simp, .some hg hus hg' hcl⟩

theorem reads_call : Reads ctx (call expr) (IsCall E) := by
  intro ts rest c hn h
  unfold call at h
  simp only [bind_eq_ok, pure_eq_ok] at h
  obtain ⟨id, _, hid, o, _, hopen, es, _, hargs, rfl, rfl⟩ := h
  obtain ⟨f, rfl, hf, rfl⟩ := of_ident hc hid
  obtain ⟨rfl, ho⟩ := of_expect hc hopen (by decide)
  simp only [List.length_cons] at hn
  obtain ⟨us, rfl, hus⟩ := reads_arguments hc he _ _ _ (by omega) hargs
  exact ⟨f :: o :: us, rfl, .mk hf ho hus⟩

theorem of_prefixed {op : Token} {ts rest : List Token} {x : IncDec}
    (hn : (op :: ts).length ≤ ctx.limit) (h : prefixed expr ctx (op :: ts) = .ok (x, rest)) :
    ∃ us t, ts = us ++ rest ∧ x = .mk (.ofToken op) op.shown true t ∧ IsTarget E us t := by
  unfold prefixed at h
  simp only [bind_eq_ok, pure_eq_ok] at h
  obtain ⟨_, _, hadv, t, _, htarget, rfl, rfl⟩ := h
  obtain ⟨rfl, rfl⟩ := of_advance hadv
  obtain ⟨us, rfl, hus⟩ := reads_target hc he _ _ _ (Nat.le_of_succ_le hn) htarget
  exact ⟨us, t, rfl, rfl, hus⟩

theorem reads_named (literal : Token → Expr → Prop) :
    Reads ctx (named expr) (IsPrimary literal E) := by
  intro ts rest e hn h
  unfold named at h
  rw [bind_eq_ok] at h
  obtain ⟨s, mid, hsecond, h⟩ := h
  obtain ⟨-, rfl⟩ := peekSecond_eq_ok.mp hsecond
  split at h
  · simp only [bind_eq_ok, pure_eq_ok] at h
    obtain ⟨c, _, hcall, rfl, rfl⟩ := h
    obtain ⟨us, rfl, hus⟩ := reads_call hc he _ _ _ hn hcall
    exact ⟨us, rfl, .call hus⟩
  · simp only [bind_eq_ok] at h
    obtain ⟨t, _, htarget, o, _, hpost, h⟩ := h
    obtain ⟨us, rfl, hus⟩ := reads_target hc he _ _ _ hn htarget
    obtain ⟨op, rfl, rfl, hop⟩ | ⟨rfl, rfl⟩ := of_accept? hc hpost (by decide)
    · obtain ⟨rfl, rfl⟩ := pure_eq_ok.mp h
      exact ⟨us ++ [op], by simp, .after hus hop⟩
    · obtain ⟨rfl, rfl⟩ := pure_eq_ok.mp h
      exact ⟨us, rfl, .read hus⟩

/-- The end of a lambda, behind its parameters and the arrow. -/
theorem of_body {b : Token} {params : List Param} {ts rest : List Token} {l : Lambda}
    (hn : ts.length ≤ ctx.limit) (h : (do
      checkParams params
      skipNewlines
      let body ← expr
      skipNewlines
      let _ ← expect .rbrace "'\x7d'"
      return .mk (.ofToken b) params body [] : Parser Lambda) ctx ts = .ok (l, rest)) :
    ∃ us body, ts = us ++ rest ∧ l = .mk (.ofToken b) params body [] ∧
      (params.map fun p => p.name.name).Nodup ∧ IsBody E us body := by
  simp only [bind_eq_ok, pure_eq_ok, checkParams_eq_ok] at h
  obtain ⟨_, _, ⟨hdistinct, rfl⟩, _, _, hskip, body, _, hexpr, _, _, hskip', c, _, hclose,
    rfl, rfl⟩ := h
  obtain ⟨g, rfl, hg⟩ := of_skipNewlines hskip
  rw [List.length_append] at hn
  obtain ⟨vs, rfl, hvs⟩ := he _ _ _ (by omega) hexpr
  obtain ⟨g', rfl, hg'⟩ := of_skipNewlines hskip'
  obtain ⟨rfl, hcl⟩ := of_expect hc hclose (by decide)
  exact ⟨_, body, by simp, rfl, hdistinct, .mk hg hvs hg' hcl⟩

theorem of_lambda {b : Token} {ts rest : List Token} {l : Lambda} (hb : b.kind = .lbrace)
    (hn : (b :: ts).length ≤ ctx.limit) (h : lambda expr ctx (b :: ts) = .ok (l, rest)) :
    ∃ us, b :: ts = us ++ rest ∧ IsLambda E us l := by
  unfold lambda at h
  rw [bind_eq_ok] at h
  obtain ⟨_, _, hadv, h⟩ := h
  obtain ⟨rfl, rfl⟩ := of_advance hadv
  rw [bind_eq_ok] at h
  obtain ⟨_, _, hskip, h⟩ := h
  obtain ⟨g, rfl, hg⟩ := of_skipNewlines hskip
  rw [bind_eq_ok] at h
  obtain ⟨arrowless, _, harrow, h⟩ := h
  simp only [List.length_cons, List.length_append] at hn
  obtain ⟨a, rfl, rfl, ha⟩ | ⟨rfl, rfl⟩ := of_accept hc harrow (by decide)
  · rw [if_pos rfl, bind_eq_ok] at h
    obtain ⟨_, _, hnil, h⟩ := h
    obtain ⟨rfl, rfl⟩ := pure_eq_ok.mp hnil
    rw [List.length_cons] at hn
    obtain ⟨us, body, rfl, rfl, -, hbody⟩ := of_body hc he (by omega) h
    exact ⟨_, by simp, .thunk hb hg ha hbody⟩
  · rw [if_neg (by decide), bind_eq_ok] at h
    obtain ⟨_, _, hread, h⟩ := h
    obtain ⟨rfl, rfl⟩ := read_eq_ok.mp hread
    rw [bind_eq_ok] at h
    obtain ⟨params, _, hparams, h⟩ := h
    rw [bind_eq_ok] at h
    obtain ⟨a, _, harrow, h⟩ := h
    obtain ⟨rfl, ha⟩ := of_expect hc harrow (by decide)
    rw [bind_eq_ok] at h
    obtain ⟨_, _, hpure, h⟩ := h
    obtain ⟨rfl, rfl⟩ := pure_eq_ok.mp hpure
    obtain ⟨ps, as, rfl, hps, hread⟩ | hsplit := of_lambdaParams hc (by omega) (by omega) hparams
    · simp only [List.length_append, List.length_cons] at hn
      obtain ⟨us, body, rfl, rfl, hdistinct, hbody⟩ := of_body hc he (by omega) h
      rw [List.reverse_nil, List.nil_append] at hps
      subst hps
      exact ⟨_, by simp, .mk hb hg hread hdistinct ha hbody⟩
    · cases ha.symm.trans hsplit.ne_cons

theorem of_collectionLiteral (literal : Token → Expr → Prop) {k : Token} {kind : CollectionKind}
    {ts rest : List Token} {e : Expr} (hk : literalOf? k.kind = some kind)
    (hn : (k :: ts).length ≤ ctx.limit)
    (h : collectionLiteral kind expr ctx (k :: ts) = .ok (e, rest)) :
    ∃ us, k :: ts = us ++ rest ∧ IsPrimary literal E us e := by
  unfold collectionLiteral at h
  simp only [bind_eq_ok] at h
  obtain ⟨_, _, hadv, o, _, hopen, _, _, hskip, b, _, hnext, h⟩ := h
  obtain ⟨rfl, rfl⟩ := of_advance hadv
  obtain ⟨rfl, ho⟩ := of_expect hc hopen (by decide)
  obtain ⟨g, rfl, hg⟩ := of_skipNewlines hskip
  obtain ⟨hb, rfl⟩ := nextIs_eq_ok.mp hnext
  simp only [List.length_cons, List.length_append] at hn
  split at h
  · rw [bind_eq_ok] at h
    obtain ⟨_, _, hfail, -⟩ := h
    cases hfail
  · rename_i hclose
    simp only [bind_eq_ok, pure_eq_ok] at h
    obtain ⟨es, _, hargs, rfl, rfl⟩ := h
    obtain ⟨us, rfl, hus⟩ := reads_arguments hc he _ _ _ (by omega) hargs
    cases hus with
    | @none c g' hg' hcl =>
      cases g' with
      | nil => exact absurd (by simp [hcl]) (hb ▸ hclose)
      | cons t g' => exact absurd (hg' t List.mem_cons_self) (head_of_skipNewlines hskip)
    | @some c g' vs g'' _ hg' hes hg'' hcl =>
      have hgap : LineEnds (g ++ g') := fun t ht => (List.mem_append.mp ht).elim (hg t) (hg' t)
      exact ⟨_, by simp, .collection hk ho hgap hes hg'' hcl⟩

theorem of_generator {ts rest : List Token} {l : Lambda} (hn : ts.length ≤ ctx.limit)
    (h : generator expr ctx ts = .ok (l, rest)) : ∃ us, ts = us ++ rest ∧ IsLambda E us l := by
  unfold generator at h
  rw [bind_eq_ok] at h
  obtain ⟨b, _, hnext, h⟩ := h
  obtain ⟨rfl, hb⟩ := of_nextIs hc hnext (by decide)
  split at h
  · rename_i hopen
    obtain ⟨o, us, rfl, ho⟩ := hb hopen
    exact of_lambda hc he ho hn h
  · exact absurd h fail_ne_ok

theorem of_sizedConstructor (literal : Token → Expr → Prop) {k : Token} {kind : CollectionKind}
    {ts rest : List Token} {e : Expr} (hk : sizedOf? k.kind = some kind)
    (hn : (k :: ts).length ≤ ctx.limit)
    (h : sizedConstructor kind expr ctx (k :: ts) = .ok (e, rest)) :
    ∃ us, k :: ts = us ++ rest ∧ IsPrimary literal E us e := by
  unfold sizedConstructor at h
  simp only [bind_eq_ok] at h
  obtain ⟨_, _, hadv, o, _, hopen, _, _, hskip, size, _, hsize, _, _, hskip', b, _, hcomma, h⟩ := h
  obtain ⟨rfl, rfl⟩ := of_advance hadv
  obtain ⟨rfl, ho⟩ := of_expect hc hopen (by decide)
  obtain ⟨g, rfl, hg⟩ := of_skipNewlines hskip
  simp only [List.length_cons, List.length_append] at hn
  obtain ⟨us, rfl, hus⟩ := he _ _ _ (by omega) hsize
  obtain ⟨g', rfl, hg'⟩ := of_skipNewlines hskip'
  obtain ⟨c, rfl, rfl, hcom⟩ | ⟨rfl, rfl⟩ := of_accept hc hcomma (by decide)
  · rw [if_pos rfl] at h
    simp only [bind_eq_ok, pure_eq_ok] at h
    obtain ⟨_, _, hbefore, l, _, hgen, _, _, hafter, c', _, hclose, rfl, rfl⟩ := h
    obtain ⟨d, rfl, hd⟩ := of_skipNewlines hbefore
    simp only [List.length_cons, List.length_append] at hn
    obtain ⟨ls, rfl, hls⟩ := of_generator hc he (by omega) hgen
    obtain ⟨d', rfl, hd'⟩ := of_skipNewlines hafter
    obtain ⟨rfl, hcl⟩ := of_expect hc hclose (by decide)
    exact ⟨_, by simp, .sized hk ho hg hus hg' (.mk hcom hd) hls hd' hcl⟩
  · rw [if_neg (by decide)] at h
    simp only [bind_eq_ok, pure_eq_ok] at h
    obtain ⟨c, _, hclose, l, _, hgen, rfl, rfl⟩ := h
    obtain ⟨rfl, hcl⟩ := of_expect hc hclose (by decide)
    simp only [List.length_cons, List.length_append] at hn
    obtain ⟨ls, rfl, hls⟩ := of_generator hc he (by omega) hgen
    exact ⟨_, by simp, .trailing hk ho hg hus hg' hcl hls⟩

theorem of_parenthesized (literal : Token → Expr → Prop) {o : Token} {ts rest : List Token} {e : Expr}
    (ho : o.kind = .lparen) (hn : (o :: ts).length ≤ ctx.limit)
    (h : parenthesized expr ctx (o :: ts) = .ok (e, rest)) :
    ∃ us, o :: ts = us ++ rest ∧ IsPrimary literal E us e := by
  unfold parenthesized at h
  simp only [bind_eq_ok, pure_eq_ok] at h
  obtain ⟨_, _, hadv, _, _, hskip, e, _, hexpr, _, _, hskip', c, _, hclose, rfl, rfl⟩ := h
  obtain ⟨-, rfl⟩ := of_advance hadv
  obtain ⟨g, rfl, hg⟩ := of_skipNewlines hskip
  simp only [List.length_cons, List.length_append] at hn
  obtain ⟨us, rfl, hus⟩ := he _ _ _ (by omega) hexpr
  obtain ⟨g', rfl, hg'⟩ := of_skipNewlines hskip'
  obtain ⟨rfl, hcl⟩ := of_expect hc hclose (by decide)
  exact ⟨_, by simp, .parens ho hg hus hg' hcl⟩

/-- What a string token stands for, given the rule for templates. -/
def literal (ctx : Context) (t : Token) (e : Expr) : Prop :=
  joinPieces (ctx.template t) t [] 0 [] (Template.pieces t.literal.toText.toList) = .ok e

omit hc he in
theorem of_stringLiteral {t : Token} {ts rest : List Token} {e : Expr}
    (h : stringLiteral t ctx ts = .ok (e, rest)) : ts = rest ∧ literal ctx t e := by
  unfold stringLiteral at h
  rw [bind_eq_ok] at h
  obtain ⟨_, _, hread, h⟩ := h
  obtain ⟨rfl, rfl⟩ := read_eq_ok.mp hread
  unfold literal
  cases hjoin : joinPieces (ctx.template t) t [] 0 [] (Template.pieces t.literal.toText.toList) with
  | ok e' =>
    rw [hjoin] at h
    obtain ⟨rfl, rfl⟩ := pure_eq_ok.mp h
    exact ⟨rfl, rfl⟩
  | error d =>
    rw [hjoin] at h
    cases h

theorem reads_primary : Reads ctx (primary expr) (IsPrimary (literal ctx) E) := by
  intro ts rest e hn h
  unfold primary at h
  rw [bind_eq_ok] at h
  obtain ⟨t, mid, hpeek, h⟩ := h
  have hcons (hk : t.kind ≠ .eof) : ∃ us, ts = t :: us ∧ mid = t :: us := by
    obtain ⟨rfl, us, rfl⟩ := of_peek hc hpeek hk
    exact ⟨us, rfl, rfl⟩
  refine Ends.of_ok (?_ : Ends _ ctx mid (fun _ => True) fun e rest =>
    ∃ us, ts = us ++ rest ∧ IsPrimary (literal ctx) E us e) h
  have hsingle {make : Expr} (hk : t.kind ≠ .eof) (hmake : IsPrimary (literal ctx) E [t] make) :
      Ends (do let _ ← advance; return make : Parser Expr) ctx mid (fun _ => True) fun e rest =>
        ∃ us, ts = us ++ rest ∧ IsPrimary (literal ctx) E us e := by
    obtain ⟨us, rfl, rfl⟩ := hcons hk
    exact ⟨[t], rfl, hmake⟩
  have hprefixed {us : List Token} (hn' : (t :: us).length ≤ ctx.limit)
      (hop : t.kind ∈ [.increment, .decrement]) :
      Ends (do return .incDec (← prefixed expr) : Parser Expr) ctx (t :: us) (fun _ => True)
        fun e rest => ∃ vs, t :: us = vs ++ rest ∧ IsPrimary (literal ctx) E vs e := by
    refine ends_of_ok fun e rest hrun => ?_
    simp only [bind_eq_ok, pure_eq_ok] at hrun
    obtain ⟨x, _, hx, rfl, rfl⟩ := hrun
    obtain ⟨vs, target, rfl, rfl, hvs⟩ := of_prefixed hc he hn' hx
    exact ⟨t :: vs, rfl, .before hop hvs⟩
  split
  · rename_i hk
    have hint : IsPrimary (literal ctx) E [t] (.int (.ofToken t) (number t)) := .int hk
    unfold number at hint
    cases hlit : t.literal <;> rw [hlit] at hint <;> exact hsingle (by simp [hk]) hint
  · rename_i hk
    exact hsingle (by simp [hk]) (.true hk)
  · rename_i hk
    exact hsingle (by simp [hk]) (.false hk)
  · rename_i hk
    obtain ⟨us, rfl, rfl⟩ := hcons (by simp [hk])
    refine ends_of_ok fun e rest hrun => ?_
    rw [bind_eq_ok] at hrun
    obtain ⟨_, _, hadv, hrun⟩ := hrun
    obtain ⟨-, rfl⟩ := of_advance hadv
    obtain ⟨rfl, hlit⟩ := of_stringLiteral hrun
    exact ⟨[t], rfl, .string hk hlit⟩
  · rename_i hk
    obtain ⟨us, rfl, rfl⟩ := hcons (by simp [hk])
    exact ends_of_ok fun e rest => of_parenthesized hc he _ hk hn
  · rename_i hk
    obtain ⟨us, rfl, rfl⟩ := hcons (by simp [hk])
    exact hprefixed hn (by simp [hk])
  · rename_i hk
    obtain ⟨us, rfl, rfl⟩ := hcons (by simp [hk])
    exact hprefixed hn (by simp [hk])
  · rename_i hk
    obtain ⟨us, rfl, rfl⟩ := hcons (by simp [hk])
    exact ends_of_ok fun e rest => reads_named hc he _ _ _ _ hn
  · rename_i hk
    obtain ⟨us, rfl, rfl⟩ := hcons (by simp [hk])
    refine ends_of_ok fun e rest hrun => ?_
    simp only [bind_eq_ok, pure_eq_ok] at hrun
    obtain ⟨l, _, hlambda, rfl, rfl⟩ := hrun
    obtain ⟨vs, heq, hvs⟩ := of_lambda hc he hk hn hlambda
    exact ⟨vs, heq, .lambda hvs⟩
  · rename_i hk
    obtain ⟨us, rfl, rfl⟩ := hcons (by simp [hk])
    exact ends_of_ok fun e rest => of_collectionLiteral hc he _ (by rw [hk]; rfl) hn
  · rename_i hk
    obtain ⟨us, rfl, rfl⟩ := hcons (by simp [hk])
    exact ends_of_ok fun e rest => of_collectionLiteral hc he _ (by rw [hk]; rfl) hn
  · rename_i hk
    obtain ⟨us, rfl, rfl⟩ := hcons (by simp [hk])
    exact ends_of_ok fun e rest => of_sizedConstructor hc he _ (by rw [hk]; rfl) hn
  · rename_i hk
    obtain ⟨us, rfl, rfl⟩ := hcons (by simp [hk])
    exact ends_of_ok fun e rest => of_sizedConstructor hc he _ (by rw [hk]; rfl) hn
  · exact ends_of_ok fun e rest h => absurd h fail_ne_ok

end Primary

/-! ## Operators -/

section Operators

variable {kinds : List Token.Kind} {make : Mark → String → Expr → Expr → Expr}
  {operand unary : Parser Expr} {R : Reading Expr}

/-- Operands are added behind those that were read before. -/
theorem of_chainAfter (ho : Reads ctx operand R) (hkinds : .eof ∉ kinds) {turns : Nat}
    {before ts rest : List Token} {left e : Expr} (hn : ts.length ≤ ctx.limit)
    (hleft : Chain kinds make R before left)
    (h : chainAfter kinds make operand turns left ctx ts = .ok (e, rest)) :
    ∃ us, ts = us ++ rest ∧ Chain kinds make R (before ++ us) e := by
  induction turns generalizing before ts left with
  | zero =>
    obtain ⟨rfl, rfl⟩ := pure_eq_ok.mp h
    exact ⟨[], rfl, by simpa using hleft⟩
  | succ turns ih =>
    unfold chainAfter at h
    rw [bind_eq_ok] at h
    obtain ⟨o, _, haccept, h⟩ := h
    obtain ⟨op, rfl, rfl, hop⟩ | ⟨rfl, rfl⟩ := of_accept? hc haccept hkinds
    · simp only [bind_eq_ok] at h
      obtain ⟨_, _, hskip, r, _, hoperand, h⟩ := h
      obtain ⟨g, rfl, hg⟩ := of_skipNewlines hskip
      simp only [List.length_cons, List.length_append] at hn
      obtain ⟨us, rfl, hus⟩ := ho _ _ _ (by omega) hoperand
      rw [List.length_append] at hn
      obtain ⟨vs, rfl, hvs⟩ := ih (by omega) (.more hleft hop hg hus) h
      exact ⟨op :: (g ++ (us ++ vs)), by simp, by simpa using hvs⟩
    · obtain ⟨rfl, rfl⟩ := pure_eq_ok.mp h
      exact ⟨[], rfl, by simpa using hleft⟩

theorem reads_chain (ho : Reads ctx operand R) (hkinds : .eof ∉ kinds) :
    Reads ctx (chain kinds make operand) (Chain kinds make R) := by
  intro ts rest e hn h
  unfold chain at h
  simp only [bind_eq_ok, read_eq_ok] at h
  obtain ⟨first, _, hfirst, _, _, ⟨rfl, rfl⟩, h⟩ := h
  obtain ⟨us, rfl, hus⟩ := ho _ _ _ hn hfirst
  rw [List.length_append] at hn
  obtain ⟨vs, rfl, hvs⟩ := of_chainAfter hc ho hkinds (by omega) (.one hus) h
  exact ⟨us ++ vs, by simp, hvs⟩

variable (hu : Reads ctx unary R)
include hu

theorem reads_additive : Reads ctx (additive unary) (IsSum R) :=
  reads_chain hc (reads_chain hc hu (by decide)) (by decide)

theorem reads_comparison : Reads ctx (comparison unary) (IsComparison R) := by
  intro ts rest e hn h
  unfold comparison at h
  simp only [bind_eq_ok] at h
  obtain ⟨l, _, hleft, o, _, haccept, h⟩ := h
  obtain ⟨us, rfl, hus⟩ := reads_additive hc hu _ _ _ hn hleft
  obtain ⟨op, rfl, rfl, hop⟩ | ⟨rfl, rfl⟩ := of_accept? hc haccept (by decide)
  · simp only [bind_eq_ok, pure_eq_ok] at h
    obtain ⟨_, _, hskip, r, _, hright, rfl, rfl⟩ := h
    obtain ⟨g, rfl, hg⟩ := of_skipNewlines hskip
    simp only [List.length_cons, List.length_append] at hn
    obtain ⟨vs, rfl, hvs⟩ := reads_additive hc hu _ _ _ (by omega) hright
    exact ⟨us ++ op :: (g ++ vs), by simp, .two hus hop hg hvs⟩
  · obtain ⟨rfl, rfl⟩ := pure_eq_ok.mp h
    exact ⟨us, rfl, .one hus⟩

theorem reads_logical : Reads ctx (logical unary) (IsLogical R) :=
  reads_chain hc (reads_comparison hc hu) (by decide)

end Operators

/-- A unary expression is a primary one or begins with `!`. -/
theorem of_unary {inner : Option (Parser Expr)} {expr : Parser Expr} {E : Reading Expr}
    (he : Reads ctx expr E) {ts rest : List Token} {e : Expr} (hn : ts.length ≤ ctx.limit)
    (h : unary inner expr ctx ts = .ok (e, rest)) :
    (∃ us, ts = us ++ rest ∧ IsPrimary (literal ctx) E us e) ∨
      ∃ rule bang mid x, inner = some rule ∧ bang.kind = .bang ∧ ts = bang :: mid ∧
        rule ctx mid = .ok (x, rest) ∧ e = .not (.ofToken bang) x := by
  unfold unary at h
  rw [bind_eq_ok] at h
  obtain ⟨o, _, haccept, h⟩ := h
  obtain ⟨bang, rfl, rfl, hbang⟩ | ⟨rfl, rfl⟩ := of_accept? hc haccept (by decide)
  · cases inner with
    | none => cases h
    | some rule =>
      simp only [bind_eq_ok, pure_eq_ok] at h
      obtain ⟨x, _, hrule, rfl, rfl⟩ := h
      exact .inr ⟨rule, bang, _, x, rfl, by simpa using hbang, rfl, hrule, rfl⟩
  · exact .inl (reads_primary hc he _ _ _ hn h)

/-- Expressions with few others inside are read in the tokens that they take. -/
theorem reads_level (n : Nat) : Reads ctx (level n).expr (IsExpr (literal ctx) n) ∧
    Reads ctx (level n).unary (IsUnary (literal ctx) n) := by
  induction n with
  | zero =>
    have hfail : Reads ctx (fail .tooDeep : Parser Expr) fun _ _ => False :=
      fun _ _ _ _ h => absurd h fail_ne_ok
    refine ⟨hfail, fun ts rest e hn h => ?_⟩
    change unary none (fail .tooDeep) ctx ts = _ at h
    obtain hprimary | ⟨rule, _, _, _, hrule, -⟩ := of_unary hc hfail hn h
    · exact hprimary
    · cases hrule
  | succ n ih =>
    have hexpr := reads_logical hc ih.2
    refine ⟨hexpr, fun ts rest e hn h => ?_⟩
    change unary (some (level n).unary) (logical (level n).unary) ctx ts = _ at h
    obtain ⟨us, rfl, hus⟩ | ⟨rule, bang, mid, x, hrule, hbang, rfl, hx, rfl⟩ :=
      of_unary hc hexpr hn h
    · exact ⟨us, rfl, .inl hus⟩
    · cases hrule
      obtain ⟨us, rfl, hus⟩ := ih.2 _ _ _ (Nat.le_of_succ_le hn) hx
      exact ⟨bang :: us, rfl, .inr ⟨bang, us, x, hbang, hus, rfl, rfl⟩⟩

theorem reads_expr : Reads ctx expr (IsExpr (literal ctx) maxDepth) := (reads_level hc maxDepth).1

/-- What is read as one expression is one between line ends. -/
theorem of_wholeExpr {ts rest : List Token} {e : Expr} (hn : ts.length ≤ ctx.limit)
    (h : wholeExpr ctx ts = .ok (e, rest)) : rest = [] ∧ IsWhole (literal ctx) maxDepth ts e := by
  unfold wholeExpr at h
  simp only [bind_eq_ok] at h
  obtain ⟨_, _, hskip, e', _, hexpr, _, _, hskip', b, _, hend, h⟩ := h
  obtain ⟨g, rfl, hg⟩ := of_skipNewlines hskip
  rw [List.length_append] at hn
  obtain ⟨us, rfl, hus⟩ := reads_expr hc _ _ _ (by omega) hexpr
  obtain ⟨g', rfl, hg'⟩ := of_skipNewlines hskip'
  obtain ⟨hb, rfl⟩ := atEnd_eq_ok.mp hend
  split at h
  · rename_i hnil
    obtain ⟨rfl, rfl⟩ := pure_eq_ok.mp h
    rw [hnil] at hb
    obtain rfl := List.isEmpty_iff.mp hb
    rw [List.append_nil]
    exact ⟨rfl, .mk hg hus hg'⟩
  · exact absurd h fail_ne_ok

end Parse
end Kotlet

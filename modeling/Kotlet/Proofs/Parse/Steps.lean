import Kotlet.Parse
import Kotlet.Proofs.Ends
import Kotlet.Proofs.Parse.Grammar

/-!
# The steps of parsers

What the steps that rules are made of do to the tokens before them, when they succeed.

* `bind_eq_ok`, `pure_eq_ok` : steps one after the other;
* `of_peek`, `of_accept?`, `of_expect` and their kin : what is known of single steps that succeed;
* `accept?_of_mem`, `expect_of_kind`, `skipNewlines_append` : single steps before given tokens.

That the end of the input is no token of another kind is all that is asked of a context.
-/

namespace Kotlet
namespace Parse

open Grammar

variable {α β : Type} {ctx : Context} {ts mid rest : List Token} {t : Token}

/-! ## Steps one after the other -/

theorem bind_eq_ok {x : Parser α} {f : α → Parser β} {b : β} :
    (x >>= f) ctx ts = .ok (b, rest) ↔
      ∃ a mid, x ctx ts = .ok (a, mid) ∧ f a ctx mid = .ok (b, rest) := by
  change (x ctx ts >>= fun p => f p.1 ctx p.2) = _ ↔ _
  cases x ctx ts with
  | error d => simp [bind, Except.bind]
  | ok p =>
    obtain ⟨a, mid⟩ := p
    constructor
    · exact fun h => ⟨a, mid, rfl, h⟩
    · rintro ⟨_, _, ⟨⟩, h⟩
      exact h

theorem bind_of_ok {x : Parser α} {a : α} (h : x ctx ts = .ok (a, mid)) (f : α → Parser β) :
    (x >>= f) ctx ts = f a ctx mid := by
  change (x ctx ts >>= fun p => f p.1 ctx p.2) = _
  rw [h]
  rfl

theorem map_eq_ok {x : Parser α} {f : α → β} {b : β} :
    (f <$> x) ctx ts = .ok (b, rest) ↔ ∃ a, x ctx ts = .ok (a, rest) ∧ f a = b := by
  change (x ctx ts >>= fun p => Except.ok (f p.1, p.2)) = _ ↔ _
  cases x ctx ts with
  | error d => simp [bind, Except.bind]
  | ok p =>
    obtain ⟨a, mid⟩ := p
    constructor
    · rintro ⟨⟩
      exact ⟨a, rfl, rfl⟩
    · rintro ⟨_, ⟨⟩, rfl⟩
      rfl

theorem ok_eq_ok {a b : α} :
    (Except.ok (a, ts) : Except Diagnostic (α × List Token)) = .ok (b, rest) ↔ a = b ∧ ts = rest := by
  simp

theorem pure_eq_ok {a b : α} : (pure a : Parser α) ctx ts = .ok (b, rest) ↔ a = b ∧ ts = rest :=
  ok_eq_ok

theorem read_eq_ok {c : Context} : (read : Parser Context) ctx ts = .ok (c, rest) ↔
    ctx = c ∧ ts = rest := ok_eq_ok

/-- What is known of every end is known of the steps. -/
theorem ends_of_ok {x : Parser α} {post : α → List Token → Prop}
    (h : ∀ a rest, x ctx ts = .ok (a, rest) → post a rest) :
    Ends x ctx ts (fun _ => True) post :=
  ends_iff.mpr ⟨h, fun _ _ => trivial⟩

/-! ## Single steps -/

theorem peek_eq_ok : peek ctx ts = .ok (t, rest) ↔ ts.head?.getD ctx.eof = t ∧ ts = rest :=
  ok_eq_ok

theorem peekSecond_eq_ok : peekSecond ctx ts = .ok (t, rest) ↔
    ts[1]?.getD ctx.eof = t ∧ ts = rest := ok_eq_ok

theorem atEnd_eq_ok {b : Bool} : atEnd ctx ts = .ok (b, rest) ↔ ts.isEmpty = b ∧ ts = rest :=
  ok_eq_ok

theorem nextIs_eq_ok {k : Token.Kind} {b : Bool} : nextIs k ctx ts = .ok (b, rest) ↔
    ((ts.head?.getD ctx.eof).kind == k) = b ∧ ts = rest := ok_eq_ok

theorem advance_cons : advance ctx (t :: ts) = .ok (t, ts) := rfl

theorem of_advance {a : Token} (h : advance ctx (t :: ts) = .ok (a, rest)) : a = t ∧ rest = ts := by
  cases h
  exact ⟨rfl, rfl⟩

theorem fail_ne_ok {e : ParseError} {a : α} : fail e ctx ts ≠ .ok (a, rest) := nofun

/-- A check in front of other steps was passed. -/
theorem of_unless {c : Prop} [Decidable c] {e : ParseError} {f : Unit → Parser α} {a : α}
    (h : (if c then fail e >>= f else f ()) ctx ts = .ok (a, rest)) :
    ¬ c ∧ f () ctx ts = .ok (a, rest) := by
  split at h
  · obtain ⟨_, _, hfail, -⟩ := bind_eq_ok.mp h
    exact absurd hfail fail_ne_ok
  · rename_i hc
    exact ⟨hc, h⟩

/-- What is seen is the next token, unless it is the end. -/
theorem of_peek (hc : ctx.eof.kind = .eof) (h : peek ctx ts = .ok (t, rest)) (ht : t.kind ≠ .eof) :
    ts = rest ∧ ∃ us, ts = t :: us := by
  obtain ⟨rfl, rfl⟩ := peek_eq_ok.mp h
  cases ts with
  | nil => exact absurd hc ht
  | cons u us => exact ⟨rfl, us, rfl⟩

theorem of_nextIs (hc : ctx.eof.kind = .eof) {k : Token.Kind} {b : Bool}
    (h : nextIs k ctx ts = .ok (b, rest)) (hk : k ≠ .eof) :
    ts = rest ∧ (b = true → ∃ t us, ts = t :: us ∧ t.kind = k) := by
  obtain ⟨rfl, rfl⟩ := nextIs_eq_ok.mp h
  refine ⟨rfl, fun hb => ?_⟩
  cases ts with
  | nil => exact absurd ((beq_iff_eq.mp hb).symm.trans hc) hk
  | cons u us => exact ⟨u, us, rfl, beq_iff_eq.mp hb⟩

theorem of_accept? (hc : ctx.eof.kind = .eof) {kinds : List Token.Kind} {o : Option Token}
    (h : accept? kinds ctx ts = .ok (o, rest)) (hk : .eof ∉ kinds) :
    (∃ t, o = some t ∧ ts = t :: rest ∧ t.kind ∈ kinds) ∨ o = none ∧ ts = rest := by
  unfold accept? at h
  obtain ⟨t, mid, hpeek, h⟩ := bind_eq_ok.mp h
  split at h
  · rename_i ht
    have ht' : t.kind ∈ kinds := List.contains_iff_mem.mp ht
    obtain ⟨rfl, us, rfl⟩ := of_peek hc hpeek fun he => hk (he ▸ ht')
    obtain ⟨_, _, ⟨⟩, h⟩ := bind_eq_ok.mp h
    obtain ⟨rfl, rfl⟩ := ok_eq_ok.mp h
    exact .inl ⟨t, rfl, rfl, ht'⟩
  · obtain ⟨rfl, rfl⟩ := ok_eq_ok.mp h
    exact .inr ⟨rfl, (peek_eq_ok.mp hpeek).2⟩

theorem of_accept (hc : ctx.eof.kind = .eof) {k : Token.Kind} {b : Bool}
    (h : accept k ctx ts = .ok (b, rest)) (hk : k ≠ .eof) :
    (∃ t, b = true ∧ ts = t :: rest ∧ t.kind = k) ∨ b = false ∧ ts = rest := by
  unfold accept at h
  obtain ⟨o, mid, ho, h⟩ := bind_eq_ok.mp h
  obtain ⟨rfl, rfl⟩ := ok_eq_ok.mp h
  obtain ⟨t, rfl, hts, ht⟩ | ⟨rfl, hts⟩ := of_accept? hc ho (by simpa using hk.symm)
  · exact .inl ⟨t, rfl, hts, by simpa using ht⟩
  · exact .inr ⟨rfl, hts⟩

theorem of_expect (hc : ctx.eof.kind = .eof) {k : Token.Kind} {what : String}
    (h : expect k what ctx ts = .ok (t, rest)) (hk : k ≠ .eof) : ts = t :: rest ∧ t.kind = k := by
  unfold expect at h
  obtain ⟨o, mid, ho, h⟩ := bind_eq_ok.mp h
  obtain ⟨u, rfl, hts, hu⟩ | ⟨rfl, -⟩ := of_accept? hc ho (by simpa using hk.symm)
  · obtain ⟨rfl, rfl⟩ := ok_eq_ok.mp h
    exact ⟨hts, by simpa using hu⟩
  · exact absurd h fail_ne_ok

theorem of_skipNewlines {u : Unit} (h : skipNewlines ctx ts = .ok (u, rest)) :
    ∃ g, ts = g ++ rest ∧ LineEnds g := by
  cases h
  refine ⟨ts.takeWhile fun t => t.kind == .newline, List.takeWhile_append_dropWhile.symm, ?_⟩
  intro t ht
  exact beq_iff_eq.mp (List.all_eq_true.mp List.all_takeWhile t ht)

/-- Behind skipped line ends no line ends. -/
theorem head_of_skipNewlines {u : Unit} (h : skipNewlines ctx ts = .ok (u, t :: rest)) :
    t.kind ≠ .newline := by
  have hrest : ts.dropWhile (fun t => t.kind == .newline) = t :: rest := by
    cases h' : ts.dropWhile (fun t => t.kind == .newline) with
    | nil => cases ((ok_eq_ok.mp h).2.symm.trans h')
    | cons u us => cases ((ok_eq_ok.mp h).2.symm.trans h'); rfl
  have hhead := List.head?_dropWhile_not (fun t : Token => t.kind == .newline) ts
  simpa [hrest] using hhead

theorem of_ident (hc : ctx.eof.kind = .eof) {what : String} {id : Ident}
    (h : ident what ctx ts = .ok (id, rest)) :
    ∃ t, ts = t :: rest ∧ t.kind = .ident ∧ id = name t := by
  unfold ident at h
  obtain ⟨t, mid, ht, h⟩ := bind_eq_ok.mp h
  obtain ⟨rfl, rfl⟩ := ok_eq_ok.mp h
  obtain ⟨rfl, hk⟩ := of_expect hc ht (by decide)
  exact ⟨t, rfl, hk, rfl⟩

/-! ## Steps before given tokens -/

/-- The first token, if there is one, is of such a kind. -/
def HeadIs (P : Token.Kind → Prop) (ts : List Token) : Prop := ∀ t ∈ ts.head?, P t.kind

theorem headIs_nil {P : Token.Kind → Prop} : HeadIs P [] := by simp [HeadIs]

theorem headIs_cons {P : Token.Kind → Prop} : HeadIs P (t :: ts) ↔ P t.kind := by
  simp [HeadIs]

theorem HeadIs.mono {P Q : Token.Kind → Prop} (h : HeadIs P ts) (hPQ : ∀ k, P k → Q k) :
    HeadIs Q ts := fun t ht => hPQ _ (h t ht)

/-- There is a first token, and it is of such a kind. -/
def StartsWith (P : Token.Kind → Prop) (ts : List Token) : Prop := ∃ t us, ts = t :: us ∧ P t.kind

section StartsWith

variable {P Q : Token.Kind → Prop} {α : Type}

theorem startsWith_cons (h : P t.kind) : StartsWith P (t :: ts) := ⟨t, ts, rfl, h⟩

theorem StartsWith.mono (h : StartsWith P ts) (hPQ : ∀ k, P k → Q k) : StartsWith Q ts := by
  obtain ⟨t, us, rfl, ht⟩ := h
  exact startsWith_cons (hPQ _ ht)

theorem StartsWith.append (h : StartsWith P ts) (us : List Token) : StartsWith P (ts ++ us) := by
  obtain ⟨t, vs, rfl, ht⟩ := h
  exact startsWith_cons ht

theorem StartsWith.headIs (h : StartsWith P ts) (us : List Token) : HeadIs P (ts ++ us) := by
  obtain ⟨t, vs, rfl, ht⟩ := h
  exact headIs_cons.mpr ht

/-- Things with commas between them start like the first of them. -/
theorem startsWith_of_separated {comma : List Token → Prop} {item : Reading α} {as : List α}
    (h : Separated comma item ts as) (hitem : ∀ us a, item us a → StartsWith P us) :
    StartsWith P ts := by
  cases h with
  | one h => exact hitem _ _ h
  | more h _ _ => exact (hitem _ _ h).append _

end StartsWith

theorem accept?_of_mem {kinds : List Token.Kind} (h : t.kind ∈ kinds) :
    accept? kinds ctx (t :: ts) = .ok (some t, ts) := by
  unfold accept?
  rw [bind_of_ok (a := t) rfl, if_pos (List.contains_iff_mem.mpr h)]
  rfl

theorem accept?_of_head (hc : ctx.eof.kind = .eof) {kinds : List Token.Kind} (hk : .eof ∉ kinds)
    (h : HeadIs (· ∉ kinds) ts) : accept? kinds ctx ts = .ok (none, ts) := by
  have hhead : (ts.head?.getD ctx.eof).kind ∉ kinds := by
    cases ts with
    | nil => simpa [hc] using hk
    | cons t ts => exact headIs_cons.mp h
  unfold accept?
  rw [bind_of_ok (a := ts.head?.getD ctx.eof) rfl, if_neg fun hc => hhead (List.contains_iff_mem.mp hc)]
  rfl

theorem accept_of_kind {k : Token.Kind} (h : t.kind = k) :
    accept k ctx (t :: ts) = .ok (true, ts) := by
  unfold accept
  rw [bind_of_ok (accept?_of_mem (by simp [h]))]
  rfl

theorem accept_of_head (hc : ctx.eof.kind = .eof) {k : Token.Kind} (hk : k ≠ .eof)
    (h : HeadIs (· ≠ k) ts) : accept k ctx ts = .ok (false, ts) := by
  unfold accept
  rw [bind_of_ok (accept?_of_head hc (by simpa using hk.symm) (h.mono fun _ hne => by simpa using hne))]
  rfl

theorem expect_of_kind {k : Token.Kind} {what : String} (h : t.kind = k) :
    expect k what ctx (t :: ts) = .ok (t, ts) := by
  unfold expect
  rw [bind_of_ok (accept?_of_mem (by simp [h]))]
  rfl

theorem ident_of_kind {what : String} (h : t.kind = .ident) :
    ident what ctx (t :: ts) = .ok (name t, ts) := by
  unfold ident
  rw [bind_of_ok (expect_of_kind h)]
  rfl

theorem nextIs_of_kind {k : Token.Kind} (h : t.kind = k) :
    nextIs k ctx (t :: ts) = .ok (true, t :: ts) :=
  nextIs_eq_ok.mpr ⟨beq_iff_eq.mpr h, rfl⟩

theorem nextIs_of_head (hc : ctx.eof.kind = .eof) {k : Token.Kind} (hk : k ≠ .eof)
    (h : HeadIs (· ≠ k) ts) : nextIs k ctx ts = .ok (false, ts) := by
  refine nextIs_eq_ok.mpr ⟨beq_eq_false_iff_ne.mpr ?_, rfl⟩
  cases ts with
  | nil => exact fun he => hk (he.symm.trans hc)
  | cons t ts => exact headIs_cons.mp h

theorem skipNewlines_append {g : List Token} (hg : LineEnds g)
    (h : HeadIs (· ≠ .newline) rest) : skipNewlines ctx (g ++ rest) = .ok ((), rest) := by
  have hall : ∀ t ∈ g, (t.kind == Token.Kind.newline) = true := fun t ht => beq_iff_eq.mpr (hg t ht)
  have hrest : rest.dropWhile (fun t => t.kind == .newline) = rest := by
    cases rest with
    | nil => rfl
    | cons t rest =>
      have hne : (t.kind == Token.Kind.newline) = false := beq_eq_false_iff_ne.mpr (headIs_cons.mp h)
      exact List.dropWhile_cons_of_neg (by simp [hne])
  change Except.ok ((), (g ++ rest).dropWhile fun t => t.kind == .newline) = _
  rw [List.dropWhile_append_of_pos hall, hrest]

theorem ne_of_accept {k : Token.Kind} (h : accept k ctx (t :: ts) = .ok (false, rest)) :
    t.kind ≠ k := fun hk => by
  rw [accept_of_kind hk] at h
  cases h

theorem endToken_kind (tokens : List Token) : (endToken tokens).kind = .eof := by
  unfold endToken
  split <;> rfl

/-! ## Distinct names -/

theorem firstDuplicate?_eq_none {seen : List String} {ps : List Param} :
    firstDuplicate? seen ps = none ↔
      (ps.map fun p => p.name.name).Nodup ∧ ∀ p ∈ ps, p.name.name ∉ seen := by
  induction ps generalizing seen with
  | nil => simp [firstDuplicate?]
  | cons p ps ih =>
    unfold firstDuplicate?
    by_cases hp : p.name.name ∈ seen
    · simp [hp]
    · simp [hp, ih]
      grind

/-- Parameters pass if all their names are different. -/
theorem checkParams_eq_ok {ps : List Param} {u : Unit} : checkParams ps ctx ts = .ok (u, rest) ↔
    (ps.map fun p => p.name.name).Nodup ∧ ts = rest := by
  have hnone : firstDuplicate? [] ps = none ↔ (ps.map fun p => p.name.name).Nodup := by
    simp [firstDuplicate?_eq_none]
  unfold checkParams
  cases hdup : firstDuplicate? [] ps with
  | some p =>
    refine iff_of_false nofun fun h => ?_
    rw [hnone.mpr h.1] at hdup
    cases hdup
  | none => simp [pure_eq_ok, hnone.mp hdup]

end Parse
end Kotlet

import Kotlet.Proofs.Parse.Clocked
import Kotlet.Proofs.Parse.Steps

/-!
# What the parser spends

* `load` : what there is to parse: the tokens and the characters of the string literals;
* `Paces` : a rule that counts does what a rule of the parser does, without running out of fuel and
  within a budget, which is `rate` for every unit of load and something besides;
* `Eats` : a rule that takes a token at least, needs `need` besides what its tokens are worth and
  leaves `gain` more;
* `Paces.expect`, `Paces.accept?` and their kin : the steps on the tokens, with the rest of a rule
  after them.

A step costs one and one more for each token that it takes, so a token taken gains thirty, and all other
steps and the calls of rules cost one.
-/

namespace Kotlet
namespace Clocked

open Parse

/-! ## What there is to parse -/

/-- The length of a string literal. -/
def literalLength (t : Token) : Nat := if t.kind = .string then t.literal.toText.length else 0

/-- A token counts for one, and a string token for every character of its literal besides. -/
def weight (t : Token) : Nat := 1 + literalLength t

/-- What there is to parse. -/
def load : List Token → Nat
  | [] => 0
  | t :: ts => weight t + load ts

/-- What may be spent on one unit of load. -/
def rate : Nat := 32

theorem one_le_weight (t : Token) : 1 ≤ weight t := Nat.le_add_right 1 _

theorem load_append (us ts : List Token) : load (us ++ ts) = load us + load ts := by
  induction us with
  | nil => simp [load]
  | cons t us ih => simp [load, ih, Nat.add_assoc]

theorem length_le_load (ts : List Token) : ts.length ≤ load ts := by
  induction ts with
  | nil => exact Nat.le_refl 0
  | cons t ts ih =>
    have := one_le_weight t
    simp only [List.length_cons, load]
    omega

/-- Tokens that a parse can meet: fewer than `bound`, and with string literals of at most `size`
characters. -/
structure Met (bound size : Nat) (ts : List Token) : Prop where
  length : ts.length < bound
  literal : ∀ t ∈ ts, t.kind = .string → t.literal.toText.length ≤ size

/-- What is left of the tokens `ts` after `taken` of them at least. -/
structure Left (bound size : Nat) (ts : List Token) (taken : Nat) (rest : List Token) : Prop where
  length : rest.length + taken ≤ ts.length
  met : Met bound size rest

section Left

variable {bound size k k' : Nat} {ts mid rest us : List Token} {t : Token}

theorem Met.append (us : List Token) (h : Met bound size (us ++ ts)) : Met bound size ts :=
  ⟨Nat.lt_of_le_of_lt (by simp) h.length, fun t ht => h.literal t (List.mem_append_right us ht)⟩

theorem Met.left (h : Met bound size ts) : Left bound size ts 0 ts := ⟨Nat.le_refl _, h⟩

theorem Left.append (h : Left bound size ts k (us ++ rest)) : Left bound size ts k rest :=
  ⟨Nat.le_trans (by simp) h.length, h.met.append us⟩

theorem Left.cons (h : Left bound size ts k (t :: rest)) : Left bound size ts (k + 1) rest :=
  ⟨by have := h.length; simp only [List.length_cons] at this; omega, Met.append [t] h.met⟩

theorem Left.trans (h : Left bound size ts k mid) (h' : Left bound size mid k' rest) :
    Left bound size ts (k + k') rest :=
  ⟨by have := h.length; have := h'.length; omega, h'.met⟩

theorem Left.of_le (h : Left bound size ts k rest) (hk : k' ≤ k) : Left bound size ts k' rest :=
  ⟨Nat.le_trans (Nat.add_le_add_left hk _) h.length, h.met⟩

theorem Left.tail (h : Left bound size ts k (t :: rest)) : Left bound size ts k rest :=
  h.cons.of_le (Nat.le_succ k)

theorem Left.raise (h : Left bound size ts k rest) : Left (bound + 1) size ts k rest :=
  ⟨h.length, Nat.lt_succ_of_lt h.met.length, h.met.literal⟩

/-- Once a token is taken, fewer are left. -/
theorem Left.below (h : Left (bound + 1) size ts (k + 1) rest) (hts : Met (bound + 1) size ts) :
    Met bound size rest :=
  ⟨by have := h.length; have := hts.length; omega, h.met.literal⟩

end Left

/-! ## Rules in step -/

/-- The clock of a parse: it has the same end as the parser, and fuel and turns for fewer than `bound`
tokens; and it reads templates of fewer than `size` characters as the parser does, at the same rate. -/
structure Fits (c : Clock) (ctx : Context) (bound size : Nat) : Prop where
  eof : c.eof = ctx.eof
  kind : ctx.eof.kind = .eof
  fuel : bound ≤ c.fuel
  limit : bound ≤ ctx.limit + 1
  template : ∀ tok text, text.length < size → ∃ n, n ≤ rate * (text.length + 1) ∧
    c.template tok text = ((ctx.template tok text).mapError some, n)

theorem Fits.of_le {c : Clock} {ctx : Context} {bound bound' size : Nat} (hc : Fits c ctx bound size)
    (h : bound' ≤ bound) : Fits c ctx bound' size :=
  { hc with fuel := Nat.le_trans h hc.fuel, limit := Nat.le_trans h hc.limit }

/-- The rule `x` does what the rule `y` of the parser does before the tokens `ts`: it fails with the same
diagnostic or ends with the same result, of which `Q` holds, with the rest and with what remains
of `spare`. Together with what the tokens are worth it covers all calls and steps. -/
def Paces {α : Type} (c : Clock) (ctx : Context) (x : Clocked α) (y : Parser α) (ts : List Token)
    (spare : Nat) (Q : α → List Token → Nat → Prop) : Prop :=
  match y ctx ts with
  | .ok (a, rest) => ∃ n left, x c ts = (.ok (a, rest), n) ∧
      n + (rate * load rest + left) ≤ rate * load ts + spare ∧ Q a rest left
  | .error d => ∃ n, x c ts = (.error (some d), n) ∧ n ≤ rate * load ts + spare

/-- At least so many of the tokens are taken, and so much remains. -/
def Ate {α : Type} (bound size : Nat) (ts : List Token) (taken spare : Nat) :
    α → List Token → Nat → Prop :=
  fun _ rest left => Left bound size ts taken rest ∧ left = spare

/-- A rule that takes a token at least: it needs `need` besides what the tokens are worth, and `gain`
more is there when it ends. -/
def Eats {α : Type} (c : Clock) (ctx : Context) (bound size need gain : Nat) (x : Clocked α)
    (y : Parser α) : Prop :=
  ∀ ts s, Met bound size ts → Paces c ctx x y ts (s + need) (Ate bound size ts 1 (s + need + gain))

section Paces

variable {α β : Type} {c : Clock} {ctx : Context} {bound size : Nat} {x x' : Clocked α}
  {y y' : Parser α} {ts us rest : List Token} {s s' k : Nat} {Q R : α → List Token → Nat → Prop}

/-- A rule ends as that of the parser does, whatever it gives. -/
theorem Paces.total (h : Paces c ctx x y ts s Q) :
    ∃ n, n ≤ rate * load ts + s ∧ x c ts = ((y ctx ts).mapError some, n) := by
  unfold Paces at h
  cases hy : y ctx ts with
  | error d =>
    rw [hy] at h
    obtain ⟨n, hx, hn⟩ := h
    exact ⟨n, hn, hx⟩
  | ok p =>
    rw [hy] at h
    obtain ⟨n, left, hx, hn, -⟩ := h
    exact ⟨n, by omega, hx⟩

theorem Paces.mono (h : Paces c ctx x y ts s Q) (hs : s ≤ s') : Paces c ctx x y ts s' Q := by
  unfold Paces at h ⊢
  cases hy : y ctx ts with
  | error d =>
    rw [hy] at h
    obtain ⟨n, hx, hn⟩ := h
    exact ⟨n, hx, Nat.le_trans hn (Nat.add_le_add_left hs _)⟩
  | ok p =>
    rw [hy] at h
    obtain ⟨n, left, hx, hn, hq⟩ := h
    exact ⟨n, left, hx, Nat.le_trans hn (Nat.add_le_add_left hs _), hq⟩

theorem Paces.weaken (h : Paces c ctx x y ts s Q)
    (hQ : ∀ a rest left, Q a rest left → ∃ left' ≤ left, R a rest left') : Paces c ctx x y ts s R := by
  unfold Paces at h ⊢
  cases hy : y ctx ts with
  | error d => rw [hy] at h; exact h
  | ok p =>
    rw [hy] at h
    obtain ⟨n, left, hx, hn, hq⟩ := h
    obtain ⟨left', hle, hr⟩ := hQ _ _ _ hq
    exact ⟨n, left', hx, by omega, hr⟩

/-- What is taken before counts too, and what is taken and what remains may be told as less. -/
theorem Paces.behind {k' k'' s'' : Nat} (h : Paces c ctx x y ts s (Ate bound size ts k' s'))
    (hts : Left bound size us k ts) (hk : k'' ≤ k + k') (hs : s'' ≤ s') :
    Paces c ctx x y ts s (Ate bound size us k'' s'') :=
  h.weaken fun _ _ _ h => ⟨s'', h.2.symm ▸ hs, (hts.trans h.1).of_le hk, rfl⟩

/-- What is done inside a rule, where fewer tokens are left. -/
theorem Paces.inside {k' k'' s'' : Nat} (h : Paces c ctx x y ts s (Ate bound size ts k' s'))
    (hts : Left (bound + 1) size us k ts) (hk : k'' ≤ k + k') (hs : s'' ≤ s') :
    Paces c ctx x y ts s (Ate (bound + 1) size us k'' s'') :=
  h.weaken fun _ _ _ h => ⟨s'', h.2.symm ▸ hs, (hts.trans h.1.raise).of_le hk, rfl⟩

theorem Paces.done {a : α} {k' : Nat} (h : Left bound size us k ts) (hk : k' ≤ k) (hs : s' ≤ s) :
    Paces c ctx (pure a) (pure a) ts s (Ate bound size us k' s') :=
  ⟨0, s', rfl, by omega, h.of_le hk, rfl⟩

theorem bind_ok {f : α → Clocked β} {a : α} {n : Nat} (h : x c ts = (.ok (a, rest), n)) :
    (x >>= f) c ts = ((f a c rest).1, n + (f a c rest).2) := by
  simp only [Bind.bind, h]

theorem bind_error {f : α → Clocked β} {e : Option Diagnostic} {n : Nat} (h : x c ts = (.error e, n)) :
    (x >>= f) c ts = (.error e, n) := by
  simp only [Bind.bind, h]

theorem Paces.bind {f : α → Clocked β} {g : α → Parser β} {R : β → List Token → Nat → Prop}
    (h : Paces c ctx x y ts s Q)
    (hf : ∀ a rest left, Q a rest left → Paces c ctx (f a) (g a) rest left R) :
    Paces c ctx (x >>= f) (y >>= g) ts s R := by
  unfold Paces at h ⊢
  cases hy : y ctx ts with
  | error d =>
    rw [hy] at h
    obtain ⟨n, hx, hn⟩ := h
    have hrule : (y >>= g) ctx ts = .error d := by
      change (y ctx ts >>= fun p => g p.1 ctx p.2) = _
      rw [hy]
      rfl
    rw [hrule]
    exact ⟨n, bind_error hx, hn⟩
  | ok p =>
    obtain ⟨a, mid⟩ := p
    rw [hy] at h
    obtain ⟨n, left, hx, hn, hq⟩ := h
    have hmid := hf a mid left hq
    unfold Paces at hmid
    rw [bind_of_ok hy g, bind_ok hx]
    cases hg : g a ctx mid with
    | error d =>
      rw [hg] at hmid
      obtain ⟨m, hfx, hm⟩ := hmid
      exact ⟨n + m, by rw [hfx], by omega⟩
    | ok q =>
      rw [hg] at hmid
      obtain ⟨m, left', hfx, hm, hr⟩ := hmid
      exact ⟨n + m, left', by rw [hfx], by omega, hr⟩

theorem Paces.andThen {f : α → Clocked β} {g : α → Parser β} {R : β → List Token → Nat → Prop}
    (h : Paces c ctx x y ts s (Ate bound size us k s'))
    (hf : ∀ a rest, Left bound size us k rest → Paces c ctx (f a) (g a) rest s' R) :
    Paces c ctx (x >>= f) (y >>= g) ts s R :=
  h.bind fun a rest _ hq => hq.2 ▸ hf a rest hq.1

theorem Paces.map {f : α → β} (h : Paces c ctx x y ts s (Ate bound size us k s')) :
    Paces c ctx (f <$> x) (f <$> y) ts s (Ate bound size us k s') :=
  h.andThen fun _ _ h => .done h (Nat.le_refl k) (Nat.le_refl s')

/-- The call of a rule. -/
theorem Paces.call (h : Paces c ctx x y ts s Q) : Paces c ctx (call >>= fun _ => x) y ts (s + 1) Q := by
  have hclock : (Clocked.call >>= fun _ => x) c ts = ((x c ts).1, 1 + (x c ts).2) := rfl
  unfold Paces at h ⊢
  rw [hclock]
  cases hy : y ctx ts with
  | error d =>
    rw [hy] at h
    obtain ⟨n, hx, hn⟩ := h
    exact ⟨1 + n, by rw [hx], by omega⟩
  | ok p =>
    rw [hy] at h
    obtain ⟨n, left, hx, hn, hq⟩ := h
    exact ⟨1 + n, left, by rw [hx], by omega, hq⟩

theorem Paces.turns {f : Nat → Clocked α} {g : Context → Parser α}
    (h : Paces c ctx (f c.fuel) (g ctx) ts s Q) : Paces c ctx (turns >>= f) (read >>= g) ts s Q := by
  have hclock : (Clocked.turns >>= f) c ts = f c.fuel c ts := by
    change ((f c.fuel c ts).1, 0 + (f c.fuel c ts).2) = _
    rw [Nat.zero_add]
  unfold Paces at h ⊢
  rw [hclock]
  exact h

theorem Paces.ite {p : Prop} [Decidable p] (h : p → Paces c ctx x y ts s Q)
    (h' : ¬ p → Paces c ctx x' y' ts s Q) :
    Paces c ctx (if p then x else x') (if p then y else y') ts s Q := by
  by_cases hp : p
  · rw [if_pos hp, if_pos hp]; exact h hp
  · rw [if_neg hp, if_neg hp]; exact h' hp

/-- A rule inside another one, with the rest of that. -/
theorem Eats.andThen {need gain : Nat} {f : α → Clocked β} {g : α → Parser β}
    {R : β → List Token → Nat → Prop} (hx : Eats c ctx bound size need gain x y)
    (h : Left bound size us k ts)
    (hf : ∀ a rest, Left bound size us (k + 1) rest →
      Paces c ctx (f a) (g a) rest (s + need + gain) R) :
    Paces c ctx (x >>= f) (y >>= g) ts (s + need) R :=
  (hx ts s h.met).andThen fun a rest h' => hf a rest (h.trans h')

/-- A rule for fewer tokens inside another one, with the rest of that. -/
theorem Eats.inside {need gain : Nat} {f : α → Clocked β} {g : α → Parser β}
    {R : β → List Token → Nat → Prop} (hx : Eats c ctx bound size need gain x y)
    (hus : Met (bound + 1) size us) (h : Left (bound + 1) size us (k + 1) ts)
    (hf : ∀ a rest, Left (bound + 1) size us (k + 1 + 1) rest →
      Paces c ctx (f a) (g a) rest (s + need + gain) R) :
    Paces c ctx (x >>= f) (y >>= g) ts (s + need) R :=
  ((hx ts s (h.below hus)).inside h (Nat.le_refl _) (Nat.le_refl _)).andThen hf

end Paces

/-! ## Steps on the tokens -/

/-- A step that reads only the end of a context. -/
def Plain {α : Type} (x : Parser α) : Prop :=
  ∀ (ctx ctx' : Context) (ts : List Token), ctx.eof = ctx'.eof → x ctx ts = x ctx' ts

section Plain

variable {α β : Type}

theorem plain_pure (a : α) : Plain (pure a : Parser α) := fun _ _ _ _ => rfl

theorem plain_get : Plain (get : Parser (List Token)) := fun _ _ _ _ => rfl

theorem plain_set (ts : List Token) : Plain (set ts : Parser PUnit) := fun _ _ _ _ => rfl

theorem plain_modify (f : List Token → List Token) : Plain (modify f : Parser PUnit) :=
  fun _ _ _ _ => rfl

theorem plain_failAt (e : ParseError) (t : Token) : Plain (failAt e t : Parser α) :=
  fun _ _ _ _ => rfl

theorem plain_peek : Plain peek := fun ctx ctx' ts h => by
  change Except.ok (ts.head?.getD ctx.eof, ts) = Except.ok (ts.head?.getD ctx'.eof, ts)
  rw [h]

theorem plain_peekSecond : Plain peekSecond := fun ctx ctx' ts h => by
  change Except.ok (ts[1]?.getD ctx.eof, ts) = Except.ok (ts[1]?.getD ctx'.eof, ts)
  rw [h]

theorem Plain.bind {x : Parser α} {f : α → Parser β} (hx : Plain x) (hf : ∀ a, Plain (f a)) :
    Plain (x >>= f) := fun ctx ctx' ts h => by
  change (x ctx ts >>= fun p => f p.1 ctx p.2) = (x ctx' ts >>= fun p => f p.1 ctx' p.2)
  rw [hx ctx ctx' ts h]
  exact congrArg (x ctx' ts >>= ·) (funext fun p => hf p.1 ctx ctx' p.2 h)

theorem Plain.ite {p : Prop} [Decidable p] {x y : Parser α} (hx : Plain x) (hy : Plain y) :
    Plain (if p then x else y) := by
  split
  · exact hx
  · exact hy

theorem plain_advance : Plain advance :=
  plain_peek.bind fun t => (plain_modify _).bind fun _ => plain_pure t

theorem plain_fail (e : ParseError) : Plain (fail e : Parser α) := plain_peek.bind (plain_failAt e)

theorem plain_accept? (kinds : List Token.Kind) : Plain (accept? kinds) :=
  plain_peek.bind fun t => .ite ((plain_modify _).bind fun _ => plain_pure (some t)) (plain_pure none)

theorem plain_accept (kind : Token.Kind) : Plain (accept kind) :=
  (plain_accept? _).bind fun o => plain_pure o.isSome

theorem plain_expect (kind : Token.Kind) (what : String) : Plain (expect kind what) :=
  (plain_accept? _).bind fun o => by
    cases o with
    | none => exact plain_fail _
    | some t => exact plain_pure t

theorem plain_ident (what : String) : Plain (ident what) :=
  (plain_expect _ what).bind fun _ => plain_pure _

theorem plain_nextIs (kind : Token.Kind) : Plain (nextIs kind) :=
  plain_peek.bind fun t => plain_pure (t.kind == kind)

theorem plain_atEnd : Plain atEnd := plain_get.bind fun ts => plain_pure ts.isEmpty

theorem plain_elementType : Plain elementType := plain_peek.bind fun t => by
  cases (scalar? t.kind).filter (· ≠ .unit) with
  | none => exact plain_fail _
  | some s => exact plain_advance.bind fun _ => plain_pure s

theorem plain_closeTypeArgument : Plain closeTypeArgument :=
  plain_peek.bind fun _ => .ite
    ((plain_modify _).bind fun _ => (plain_expect _ _).bind fun _ => plain_pure ())
    ((plain_expect _ _).bind fun _ => plain_pure ())

theorem plain_checkParams (ps : List Param) : Plain (checkParams ps) := by
  unfold checkParams
  cases firstDuplicate? [] ps with
  | none => exact plain_pure ()
  | some p => exact plain_failAt _ _

theorem plain_acceptElse : Plain acceptElse :=
  plain_get.bind fun before => (plain_modify _).bind fun _ => (plain_accept _).bind fun _ =>
    .ite (plain_pure true) ((plain_set before).bind fun _ => plain_pure false)

end Plain

section Steps

variable {α β : Type} {c : Clock} {ctx : Context} {bound size : Nat} (hc : Fits c ctx bound size)
  {ts us rest : List Token} {t : Token} {s k : Nat} {R : β → List Token → Nat → Prop}

include hc

/-- A step counts for one and for every token that it takes. -/
theorem paces_step {x : Parser α} (hx : Plain x) {Q : α → List Token → Nat → Prop}
    (h : ∀ a rest, x ctx ts = .ok (a, rest) → ∃ left,
      1 + (ts.length - rest.length) + (rate * load rest + left) ≤ rate * load ts + (s + 1) ∧
        Q a rest left) : Paces c ctx (liftM x) x ts (s + 1) Q := by
  have hstep : (liftM x : Clocked α) c ts = match x ctx ts with
      | .ok (a, rest) => (.ok (a, rest), 1 + (ts.length - rest.length))
      | .error d => (.error (some d), 1) := by
    change step x c ts = _
    have heq : x ⟨c.eof, 0, fun tok _ => .error (ParseError.tooDeep.toDiagnostic tok)⟩ ts = x ctx ts :=
      hx _ ctx ts hc.eof
    unfold step
    cases hr : x ctx ts with
    | error d => simp only [heq, hr]
    | ok p => simp only [heq, hr]
  unfold Paces
  rw [hstep]
  cases hr : x ctx ts with
  | error d => exact ⟨1, rfl, by omega⟩
  | ok p =>
    obtain ⟨a, rest⟩ := p
    obtain ⟨left, hle, hq⟩ := h a rest hr
    exact ⟨_, left, rfl, hle, hq⟩

omit hc in
/-- The tokens that a step takes pay for themselves. -/
theorem spent_append (us rest : List Token) : 1 + ((us ++ rest).length - rest.length) + (rate * load rest + s) ≤
    rate * load (us ++ rest) + (s + 1) := by
  have := length_le_load us
  rw [load_append, Nat.mul_add, List.length_append]
  unfold rate
  omega

omit hc in
/-- A token taken gains thirty. -/
theorem spent_cons : 1 + ((t :: rest).length - rest.length) + (rate * load rest + (s + 31)) ≤
    rate * load (t :: rest) + (s + 1) := by
  have := one_le_weight t
  simp only [load, List.length_cons, Nat.mul_add]
  unfold rate
  omega

variable {f : α → Clocked β} {g : α → Parser β}

/-- A step that takes any number of tokens, and the rest of a rule. -/
theorem Paces.skip {x : Parser α} {P : α → List Token → Prop} (hx : Plain x)
    (h : ∀ a rest, x ctx ts = .ok (a, rest) → (∃ us, ts = us ++ rest) ∧ P a rest)
    (hf : ∀ a rest, P a rest → Paces c ctx (f a) (g a) rest s R) :
    Paces c ctx (liftM x >>= f) (x >>= g) ts (s + 1) R := by
  refine (paces_step hc hx (Q := fun a rest left => P a rest ∧ left = s) fun a rest ha => ?_).bind
    fun a rest left hq => hq.2 ▸ hf a rest hq.1
  obtain ⟨⟨us, rfl⟩, hP⟩ := h a rest ha
  exact ⟨s, spent_append us rest, hP, rfl⟩

/-- A step that takes a token, and the rest of a rule. -/
theorem Paces.take {x : Parser α} {P : α → Prop} (hx : Plain x) (h : Left bound size us k ts)
    (hstep : ∀ a rest, x ctx ts = .ok (a, rest) → (∃ t, ts = t :: rest) ∧ P a)
    (hf : ∀ a rest, Left bound size us (k + 1) rest → P a → Paces c ctx (f a) (g a) rest (s + 31) R) :
    Paces c ctx (liftM x >>= f) (x >>= g) ts (s + 1) R := by
  refine (paces_step hc hx (Q := fun a rest left => Left bound size us (k + 1) rest ∧ P a ∧ left = s + 31)
    fun a rest ha => ?_).bind fun a rest left hq => hq.2.2 ▸ hf a rest hq.1 hq.2.1
  obtain ⟨⟨t, rfl⟩, hP⟩ := hstep a rest ha
  exact ⟨_, spent_cons, h.cons, hP, rfl⟩

/-- A look at the next token, which is the end if there is none. -/
theorem Paces.peek {f : Token → Clocked β} {g : Token → Parser β}
    (hf : ∀ t, (t.kind ≠ .eof → ∃ us, ts = t :: us) → Paces c ctx (f t) (g t) ts s R) :
    Paces c ctx (liftM peek >>= f) (peek >>= g) ts (s + 1) R := by
  refine Paces.skip hc plain_peek (P := fun t rest => rest = ts ∧ (t.kind ≠ .eof → ∃ us, ts = t :: us))
    (fun t rest h => ?_) fun t rest h => h.1 ▸ hf t h.2
  refine ⟨⟨[], (peek_eq_ok.mp h).2⟩, (peek_eq_ok.mp h).2.symm, fun ht => (of_peek hc.kind h ht).2⟩

theorem Paces.peekSecond {f : Token → Clocked β} {g : Token → Parser β}
    (hf : ∀ t, Paces c ctx (f t) (g t) ts s R) :
    Paces c ctx (liftM peekSecond >>= f) (peekSecond >>= g) ts (s + 1) R :=
  Paces.skip hc plain_peekSecond (P := fun _ rest => rest = ts)
    (fun _ _ h => ⟨⟨[], (peekSecond_eq_ok.mp h).2⟩, (peekSecond_eq_ok.mp h).2.symm⟩)
    fun t _ h => h ▸ hf t

theorem Paces.atEnd {f : Bool → Clocked β} {g : Bool → Parser β}
    (hf : ∀ b, Paces c ctx (f b) (g b) ts s R) :
    Paces c ctx (liftM atEnd >>= f) (atEnd >>= g) ts (s + 1) R :=
  Paces.skip hc plain_atEnd (P := fun _ rest => rest = ts)
    (fun _ _ h => ⟨⟨[], (atEnd_eq_ok.mp h).2⟩, (atEnd_eq_ok.mp h).2.symm⟩) fun b _ h => h ▸ hf b

theorem Paces.nextIs {kind : Token.Kind} {f : Bool → Clocked β} {g : Bool → Parser β}
    (hf : ∀ b, Paces c ctx (f b) (g b) ts s R) :
    Paces c ctx (liftM (nextIs kind) >>= f) (nextIs kind >>= g) ts (s + 1) R :=
  Paces.skip hc (plain_nextIs kind) (P := fun _ rest => rest = ts)
    (fun _ _ h => ⟨⟨[], (nextIs_eq_ok.mp h).2⟩, (nextIs_eq_ok.mp h).2.symm⟩) fun b _ h => h ▸ hf b

theorem Paces.checkParams {ps : List Param} {f : Unit → Clocked β} {g : Unit → Parser β}
    (hf : Paces c ctx (f ()) (g ()) ts s R) :
    Paces c ctx (liftM (checkParams ps) >>= f) (checkParams ps >>= g) ts (s + 1) R :=
  Paces.skip hc (plain_checkParams ps) (P := fun _ rest => rest = ts)
    (fun _ _ h => ⟨⟨[], (checkParams_eq_ok.mp h).2⟩, (checkParams_eq_ok.mp h).2.symm⟩) fun _ _ h => h ▸ hf

/-- The next token is taken, if there is one. -/
theorem Paces.advance {f : Token → Clocked β} {g : Token → Parser β} (h : Left bound size us k ts)
    (hf : ∀ t rest, Left bound size us k rest → Paces c ctx (f t) (g t) rest s R) :
    Paces c ctx (liftM advance >>= f) (advance >>= g) ts (s + 1) R := by
  refine Paces.skip hc plain_advance (P := fun _ rest => Left bound size us k rest) (fun t rest ht => ?_) hf
  cases ts with
  | nil =>
    obtain ⟨-, rfl⟩ := ok_eq_ok.mp ht
    exact ⟨⟨[], rfl⟩, h⟩
  | cons u ts =>
    obtain ⟨-, rfl⟩ := of_advance ht
    exact ⟨⟨[u], rfl⟩, h.tail⟩

theorem Paces.advance_cons {f : Token → Clocked β} {g : Token → Parser β}
    (h : Left bound size us k (t :: ts))
    (hf : Left bound size us (k + 1) ts → Paces c ctx (f t) (g t) ts (s + 31) R) :
    Paces c ctx (liftM Parse.advance >>= f) (Parse.advance >>= g) (t :: ts) (s + 1) R := by
  refine (paces_step hc plain_advance (Q := fun a rest left => a = t ∧ rest = ts ∧ left = s + 31)
    fun a rest ha => ?_).bind fun a rest left hq => ?_
  · obtain ⟨rfl, rfl⟩ := of_advance ha
    exact ⟨_, spent_cons, rfl, rfl, rfl⟩
  · obtain ⟨rfl, rfl, rfl⟩ := hq
    exact hf h.cons

theorem Paces.skipNewlines {f : Unit → Clocked β} {g : Unit → Parser β} (h : Left bound size us k ts)
    (hf : ∀ rest, Left bound size us k rest → Paces c ctx (f ()) (g ()) rest s R) :
    Paces c ctx (liftM skipNewlines >>= f) (skipNewlines >>= g) ts (s + 1) R := by
  refine Paces.skip hc (plain_modify _) (P := fun _ rest => Left bound size us k rest) (fun _ rest ht => ?_)
    fun _ => hf
  obtain ⟨-, rfl⟩ := ok_eq_ok.mp ht
  have hsplit := List.takeWhile_append_dropWhile (p := fun t : Token => t.kind == .newline) (l := ts)
  exact ⟨⟨_, hsplit.symm⟩, (hsplit.symm ▸ h).append⟩

theorem Paces.skipSeparators {f : Unit → Clocked β} {g : Unit → Parser β}
    (h : Left bound size us k ts)
    (hf : ∀ rest, Left bound size us k rest → Paces c ctx (f ()) (g ()) rest s R) :
    Paces c ctx (liftM skipSeparators >>= f) (skipSeparators >>= g) ts (s + 1) R := by
  refine Paces.skip hc (plain_modify _) (P := fun _ rest => Left bound size us k rest) (fun _ rest ht => ?_)
    fun _ => hf
  obtain ⟨-, rfl⟩ := ok_eq_ok.mp ht
  have hsplit := List.takeWhile_append_dropWhile (p := fun t : Token => isSeparator t.kind) (l := ts)
  exact ⟨⟨_, hsplit.symm⟩, (hsplit.symm ▸ h).append⟩

theorem Paces.expect {kind : Token.Kind} {what : String} {f : Token → Clocked β} {g : Token → Parser β}
    (hk : kind ≠ .eof) (h : Left bound size us k ts)
    (hf : ∀ t rest, Left bound size us (k + 1) rest → Paces c ctx (f t) (g t) rest (s + 31) R) :
    Paces c ctx (liftM (expect kind what) >>= f) (expect kind what >>= g) ts (s + 1) R :=
  Paces.take hc (plain_expect kind what) h (P := fun _ => True)
    (fun _ _ ht => ⟨⟨_, (of_expect hc.kind ht hk).1⟩, trivial⟩) fun t rest h _ => hf t rest h

theorem Paces.ident {what : String} {f : Ident → Clocked β} {g : Ident → Parser β}
    (h : Left bound size us k ts)
    (hf : ∀ x rest, Left bound size us (k + 1) rest → Paces c ctx (f x) (g x) rest (s + 31) R) :
    Paces c ctx (liftM (ident what) >>= f) (ident what >>= g) ts (s + 1) R :=
  Paces.take hc (plain_ident what) h (P := fun _ => True)
    (fun _ _ ht => ⟨(of_ident hc.kind ht).imp fun _ h => h.1, trivial⟩) fun x rest h _ => hf x rest h

/-- A token of some kinds is taken, or nothing. -/
theorem Paces.accept? {kinds : List Token.Kind} {f : Option Token → Clocked β}
    {g : Option Token → Parser β} (hk : .eof ∉ kinds) (h : Left bound size us k ts)
    (hnone : Paces c ctx (f none) (g none) ts s R)
    (hsome : ∀ t rest, Left bound size us (k + 1) rest →
      Paces c ctx (f (some t)) (g (some t)) rest (s + 31) R) :
    Paces c ctx (liftM (accept? kinds) >>= f) (accept? kinds >>= g) ts (s + 1) R := by
  refine (paces_step hc (plain_accept? kinds) (Q := fun o rest left =>
    Paces c ctx (f o) (g o) rest left R) fun o rest ho => ?_).bind fun o rest left hq => hq
  obtain ⟨t, rfl, rfl, -⟩ | ⟨rfl, rfl⟩ := of_accept? hc.kind ho hk
  · exact ⟨_, spent_cons, hsome t rest h.cons⟩
  · exact ⟨s, spent_append [] _, hnone⟩

/-- A token of a kind is taken, or nothing. -/
theorem Paces.accept {kind : Token.Kind} {x x' : Clocked β} {y y' : Parser β} (hk : kind ≠ .eof)
    (h : Left bound size us k ts) (hno : Paces c ctx x' y' ts s R)
    (hyes : ∀ rest, Left bound size us (k + 1) rest → Paces c ctx x y rest (s + 31) R) :
    Paces c ctx (liftM (Parse.accept kind) >>= fun b => if b = true then x else x')
      (Parse.accept kind >>= fun b => if b = true then y else y') ts (s + 1) R := by
  refine (paces_step hc (plain_accept kind) (Q := fun b rest left =>
    Paces c ctx (if b = true then x else x') (if b = true then y else y') rest left R)
    fun b rest hb => ?_).bind fun o rest left hq => hq
  obtain ⟨t, rfl, rfl, -⟩ | ⟨rfl, rfl⟩ := of_accept hc.kind hb hk
  · exact ⟨_, spent_cons, hyes rest h.cons⟩
  · exact ⟨s, spent_append [] _, hno⟩

/-- A part that a token announces and that may be left out. -/
theorem Paces.optional {kind : Token.Kind} {x : Clocked α} {y : Parser α} {a : α}
    (hk : kind ≠ .eof) (h : Left bound size us k ts)
    (hx : ∀ rest, Left bound size us (k + 1) rest →
      Paces c ctx x y rest (s + 31) (Ate bound size us k s))
    (hf : ∀ a rest, Left bound size us k rest → Paces c ctx (f a) (g a) rest s R) :
    Paces c ctx (liftM (Parse.accept kind) >>= fun b => if b = true then x >>= f else pure a >>= f)
      (Parse.accept kind >>= fun b => if b = true then y >>= g else pure a >>= g) ts (s + 1) R :=
  Paces.accept hc hk h ((Paces.done h (Nat.le_refl k) (Nat.le_refl s)).andThen hf) fun rest h => (hx rest h).andThen hf

/-- A failure costs one. -/
theorem paces_fail {e : ParseError} {Q : α → List Token → Nat → Prop} :
    Paces c ctx (liftM (fail e : Parser α)) (fail e) ts (s + 1) Q :=
  paces_step hc (plain_fail e) fun _ _ h => absurd h fail_ne_ok

theorem paces_failAt {e : ParseError} {Q : α → List Token → Nat → Prop} :
    Paces c ctx (liftM (failAt e t : Parser α)) (failAt e t) ts (s + 1) Q :=
  paces_step hc (plain_failAt e t) fun _ _ h => nomatch h

/-- Nothing comes after a failure. -/
theorem Paces.fails {e : ParseError} :
    Paces c ctx (liftM (fail e : Parser α) >>= f) (fail e >>= g) ts (s + 1) R :=
  (paces_fail hc (Q := fun _ _ _ => False)).bind fun _ _ _ h => h.elim

theorem Paces.failsAt {e : ParseError} :
    Paces c ctx (liftM (failAt e t : Parser α) >>= f) (failAt e t >>= g) ts (s + 1) R :=
  (paces_failAt hc (Q := fun _ _ _ => False)).bind fun _ _ _ h => h.elim

end Steps

end Clocked
end Kotlet

import Kotlet.Proofs.Eval.Soundness
import Kotlet.Proofs.Typing.Assignment

/-!
# Programs that compute with numbers and truth values

* `Expr.isScalar`, `Stmt.isScalar`, `Checked.isScalar` : trees without functions, lambdas, strings
  or collections, which print numbers and truth values alone;
* `Expr.Computes` : a well-typed expression of this kind that stores only to some variables;
* `Expr.computes` : such expressions in checked trees;
* `Expr.Computes.spares`, `Stmt.spares` : variables that a piece of such a program cannot store to
  keep their values.
-/

namespace Kotlet

/-- A type of variables that are no texts, collections or functions. -/
def Ty.isScalar (t : Ty) : Bool := t == .int || t == .boolean || t == .any

/-- An expression without functions, lambdas, strings or collections. -/
def Expr.isScalar : Expr → Bool
  | .int _ _ => true
  | .bool _ _ => true
  | .read (.name _) => true
  | .arith _ _ a b => a.isScalar && b.isScalar
  | .compare _ _ a b => a.isScalar && b.isScalar
  | .logic _ _ a b => a.isScalar && b.isScalar
  | .not _ e => e.isScalar
  | .incDec (.mk _ _ _ (.name _)) => true
  | _ => false

/-- A loop over a range of numbers. -/
def Header.isScalar : Header → Bool
  | .range (.mk _ first last step) => first.isScalar && last.isScalar && step.all Expr.isScalar
  | .each _ => false

mutual

/-- A statement without functions, lambdas, strings or collections. -/
def Stmt.isScalar : Stmt → Bool
  | .decl _ _ name _ value => name.sym.any (fun sym => sym.ty.isScalar) && value.all Expr.isScalar
  | .assign _ (.name _) value => value.isScalar
  | .compound _ (.name _) _ value => value.isScalar
  | .selfOp _ (.mk _ _ _ (.name _)) => true
  | .print _ _ none => true
  | .print _ _ (some e) =>
    e.isScalar && (e.recorded? == some .int || e.recorded? == some .boolean)
  | .ifElse _ cond a b => cond.isScalar && a.isScalar && Block.optionIsScalar b
  | .whileLoop _ cond body => cond.isScalar && body.isScalar
  | .forLoop _ _ header body => header.isScalar && body.isScalar
  | .ret _ none => true
  | .brk _ => true
  | .cont _ => true
  | .block b => b.isScalar
  | _ => false

/-- Statements of this kind. -/
def Stmt.listIsScalar : List Stmt → Bool
  | [] => true
  | s :: ss => s.isScalar && Stmt.listIsScalar ss

/-- A block of such statements. -/
def Block.isScalar : Block → Bool
  | .mk _ ss _ => Stmt.listIsScalar ss

/-- A block of such statements, if there is one. -/
def Block.optionIsScalar : Option Block → Bool
  | none => true
  | some b => b.isScalar

end

/-- A program without functions, lambdas, strings or collections, which prints numbers and truth
values alone. -/
def Checked.isScalar (c : Checked) : Bool := Stmt.listIsScalar c.program.stmts

/-! ## Expressions -/

/-- A well-typed expression of this kind over the variables `Γ`, which stores only to those in
`V`. -/
inductive Expr.Computes (Γ V : List Symbol) : Ty → Expr → Prop where
  | int {m : Mark} {n : Int32} (hm : m.ty = some .int) : Computes Γ V .int (.int m n)
  | bool {m : Mark} {b : Bool} (hm : m.ty = some .boolean) : Computes Γ V .boolean (.bool m b)
  | read {id : Ident} {sym : Symbol} (hs : sym ∈ Γ) (hid : id.sym = some sym)
    (hty : id.ty = some sym.ty) (hp : sym.isFunction = false) :
    Computes Γ V sym.ty (.read (.name id))
  | arith {m : Mark} {op : String} {o : ArithOp} {a b : Expr} (hm : m.ty = some .int)
    (ho : ArithOp.ofText? op = some o) (ha : Computes Γ V .int a) (hb : Computes Γ V .int b) :
    Computes Γ V .int (.arith m op a b)
  | compare {m : Mark} {op : String} {o : CompareOp} {t : Ty} {a b : Expr}
    (hm : m.ty = some .boolean) (ho : CompareOp.ofText? op = some o)
    (ht : t = .int ∨ t = .boolean ∧ o.isEquality = true) (ha : Computes Γ V t a)
    (hb : Computes Γ V t b) : Computes Γ V .boolean (.compare m op a b)
  | logic {m : Mark} {op : String} {a b : Expr} (hm : m.ty = some .boolean)
    (ho : op = "&&" ∨ op = "||") (ha : Computes Γ V .boolean a) (hb : Computes Γ V .boolean b) :
    Computes Γ V .boolean (.logic m op a b)
  | not {m : Mark} {e : Expr} (hm : m.ty = some .boolean) (he : Computes Γ V .boolean e) :
    Computes Γ V .boolean (.not m e)
  | incDec {m : Mark} {sign : String} {before : Bool} {id : Ident} {sym : Symbol}
    (hm : m.ty = some .int) (hs : sym ∈ Γ) (hv : sym ∈ V) (hid : id.sym = some sym)
    (hty : sym.ty = .int) : Computes Γ V .int (.incDec (.mk m sign before (.name id)))

section Expressions

variable {Φ : Signatures} {r lo hi : Nat} {Γ V : List Symbol} {t : Ty} {e : Expr}

theorem Expr.Computes.isScalar (h : e.Computes Γ V t) (hΓ : ∀ sym ∈ Γ, sym.ty.isScalar = true) :
    t.isScalar = true := by
  cases h with
  | read hs => exact hΓ _ hs
  | _ => rfl

theorem Expr.Computes.recorded (h : e.Computes Γ V t) : e.recorded? = some t := by
  cases h with
  | int hm | bool hm | arith hm | compare hm | logic hm | not hm | incDec hm => exact hm
  | read _ _ hty => exact hty

/-- Checked expressions of this kind, where no function is declared. -/
theorem Expr.computes (hΦ : ∀ name, Φ name = none) (hctx : Context r lo Γ)
    (hΓ : ∀ sym ∈ Γ, sym.ty.isScalar = true) : (e : Expr) → {lo hi : Nat} → {t : Ty} →
    e.Typed Φ r Γ lo hi t → e.Steady V → e.isScalar = true → e.Computes Γ V t
  | .int m n, _, _, _, h, _, _ => by
    obtain ⟨hm, rfl, -⟩ := h
    exact .int hm
  | .bool m b, _, _, _, h, _, _ => by
    obtain ⟨hm, rfl, -⟩ := h
    exact .bool hm
  | .read (.name id), _, _, _, h, _, _ => by
    obtain ⟨hden, -⟩ := h
    rcases hden with ⟨sym, hs, hid, rfl, hty⟩ | ⟨sym, -, -, -, hsig, -⟩
    · exact .read hs hid hty (hctx.plain sym hs)
    · rw [hΦ] at hsig
      cases hsig
  | .arith m op a b, _, _, _, h, hv, hs => by
    obtain ⟨hm, rfl, hop, mid, ha, hb⟩ := h
    obtain ⟨o, ho⟩ := Option.isSome_iff_exists.mp hop
    rw [Expr.isScalar, Bool.and_eq_true] at hs
    exact .arith hm ho (Expr.computes hΦ hctx hΓ a ha hv.1 hs.1)
      (Expr.computes hΦ hctx hΓ b hb hv.2 hs.2)
  | .compare m op a b, _, _, _, h, hv, hs => by
    obtain ⟨hm, rfl, hop, mid, s, hc, ha, hb⟩ := h
    obtain ⟨o, ho⟩ := Option.isSome_iff_exists.mp hop
    rw [Expr.isScalar, Bool.and_eq_true] at hs
    have hca := Expr.computes hΦ hctx hΓ a ha hv.1 hs.1
    refine .compare hm ho ?_ hca (Expr.computes hΦ hctx hΓ b hb hv.2 hs.2)
    have hscalar := hca.isScalar hΓ
    simp only [Ty.isScalar, Bool.or_eq_true, beq_iff_eq] at hscalar
    simp only [Typing.comparable, beq_self_eq_true, Bool.true_and] at hc
    rcases hscalar with (rfl | rfl) | rfl
    · exact .inl rfl
    · refine .inr ⟨rfl, ?_⟩
      split at hc
      · rename_i heq
        rcases heq with rfl | rfl <;> cases ho <;> rfl
      · cases hc
    · split at hc <;> cases hc
  | .logic m op a b, _, _, _, h, hv, hs => by
    obtain ⟨hm, rfl, hop, mid, ha, hb⟩ := h
    rw [Expr.isScalar, Bool.and_eq_true] at hs
    exact .logic hm hop (Expr.computes hΦ hctx hΓ a ha hv.1 hs.1)
      (Expr.computes hΦ hctx hΓ b hb hv.2 hs.2)
  | .not m e, _, _, _, h, hv, hs => by
    obtain ⟨hm, rfl, he⟩ := h
    exact .not hm (Expr.computes hΦ hctx hΓ e he hv hs)
  | .incDec (.mk m sign before (.name id)), _, _, _, h, hv, _ => by
    obtain ⟨rfl, hm, ⟨sym, hs, hid, hty, -⟩, -⟩ := h
    obtain ⟨sym', hmem, hid'⟩ := hv
    rw [hid] at hid'
    cases hid'
    exact .incDec hm hs hmem hid hty
  | .read (.element _ _ _), _, _, _, _, _, hs => by cases hs
  | .incDec (.mk _ _ _ (.element _ _ _)), _, _, _, _, _, hs => by cases hs
  | .str _ _ _, _, _, _, _, _, hs => by cases hs
  | .collection _ _ _, _, _, _, _, _, hs => by cases hs
  | .sized _ _ _ _, _, _, _, _, _, hs => by cases hs
  | .lambda _, _, _, _, _, _, hs => by cases hs
  | .call _, _, _, _, _, _, hs => by cases hs
  | .range _, _, _, _, _, _, hs => by cases hs

end Expressions

/-! ## Statements -/

/-- The symbol is a new variable, for a context in which the numbers from `lo` on are free. -/
structure Symbol.IsNew (Γ Δ : List Symbol) (lo : Nat) (sym : Symbol) : Prop where
  number : lo ≤ sym.id.index
  fresh : ∀ x ∈ Γ, x.id ≠ sym.id
  unassigned : ∀ x ∈ Δ, x.id ≠ sym.id

/-- An expression whose value can stand where one of a type is wanted. -/
def Expr.Gives (Γ V : List Symbol) (want : Ty) (e : Expr) : Prop :=
  ∃ t, e.Computes Γ V t ∧ t.assignable want = true

mutual

/-- A well-typed statement over the variables `Γ` without functions, lambdas, strings or
collections, which assigns only variables in `Δ`. -/
def Stmt.Computes (Γ Δ : List Symbol) (lo : Nat) : Stmt → Prop
  | .decl _ _ name _ value =>
    ∃ sym, name.sym = some sym ∧ sym.IsNew Γ Δ lo ∧ sym.ty.isScalar = true ∧
      ∀ e, value = some e → e.Gives Γ (mutables Δ) sym.ty
  | .assign _ (.name id) value =>
    ∃ sym ∈ Γ, sym ∈ Δ ∧ id.sym = some sym ∧ value.Gives Γ (mutables Δ) sym.ty
  | .compound _ (.name id) op value =>
    ∃ sym ∈ Γ, sym ∈ Δ ∧ id.sym = some sym ∧ sym.ty = .int ∧
      (ArithOp.ofText? (compoundOperator op)).isSome = true ∧ value.Computes Γ (mutables Δ) .int
  | .selfOp _ e => (Expr.incDec e).Computes Γ (mutables Δ) .int
  | .print _ _ value =>
    ∀ e, value = some e → ∃ t, (t = .int ∨ t = .boolean) ∧ e.Computes Γ (mutables Δ) t
  | .ifElse _ cond a b =>
    cond.Computes Γ (mutables Δ) .boolean ∧ a.Computes Γ Δ lo ∧ Block.OptionComputes Γ Δ lo b
  | .whileLoop _ cond body => cond.Computes Γ (mutables Δ) .boolean ∧ body.Computes Γ Δ lo
  | .forLoop _ x (.range (.mk _ first last step)) body =>
    ∃ sym, x.sym = some sym ∧ sym.IsNew Γ Δ lo ∧ sym.ty = .int ∧
      first.Computes Γ (mutables Δ) .int ∧ last.Computes Γ (mutables Δ) .int ∧
      (∀ e, step = some e → e.Computes Γ (mutables Δ) .int ∧ ∀ m n, e = .int m n → 0 < n) ∧
      body.Computes (sym :: Γ) Δ (sym.id.index + 1)
  | .ret _ none => True
  | .brk _ => True
  | .cont _ => True
  | .block b => b.Computes Γ Δ lo
  | _ => False

/-- Such statements in order. -/
def Stmt.ListComputes (Γ Δ : List Symbol) (lo : Nat) : List Stmt → Prop
  | [] => True
  | s :: ss => s.Computes Γ Δ lo ∧ Stmt.ListComputes (s.extend Γ) (s.extend Δ) lo ss

/-- Such statements in braces. -/
def Block.Computes (Γ Δ : List Symbol) (lo : Nat) : Block → Prop
  | .mk _ ss _ => Stmt.ListComputes Γ Δ lo ss

/-- Such statements in braces, if there are any. -/
def Block.OptionComputes (Γ Δ : List Symbol) (lo : Nat) : Option Block → Prop
  | none => True
  | some b => b.Computes Γ Δ lo

end

/-- What is known where a statement of a program of this kind stands. -/
structure Around (Φ : Signatures) (r lo : Nat) (Γ Δ : List Symbol) : Prop where
  closed : ∀ name, Φ name = none
  context : Context r lo Γ
  scalar : ∀ sym ∈ Γ, sym.ty.isScalar = true
  assigned : ∀ sym ∈ Δ, sym ∈ Γ

section Statements

variable {Φ : Signatures} {r lo mid hi : Nat} {Γ Δ : List Symbol}

theorem Around.mono (h : Around Φ r lo Γ Δ) (hle : lo ≤ hi) : Around Φ r hi Γ Δ :=
  { h with context := h.context.mono hle }

theorem Around.computes (h : Around Φ r lo Γ Δ) {e : Expr} {t : Ty} (hle : lo ≤ mid)
    (he : e.Typed Φ r Γ mid hi t) (hv : e.Steady (mutables Δ)) (hs : e.isScalar = true) :
    e.Computes Γ (mutables Δ) t :=
  Expr.computes h.closed (h.mono hle).context h.scalar e he hv hs

theorem Around.gives (h : Around Φ r lo Γ Δ) {e : Expr} {want : Ty}
    (he : e.Fits Φ r Γ lo hi want) (hv : e.Steady (mutables Δ)) (hs : e.isScalar = true) :
    e.Gives Γ (mutables Δ) want := by
  obtain ⟨t, ht, ha, -⟩ := he
  exact ⟨t, h.computes (Nat.le_refl _) ht hv hs, ha⟩

theorem Around.isNew (h : Around Φ r lo Γ Δ) {sym : Symbol} (hle : lo ≤ mid)
    (hd : sym.Declares r mid) : sym.IsNew Γ Δ lo := by
  have hfresh : ∀ x ∈ Γ, x.id ≠ sym.id := fun x hx heq => by
    have := (h.mono hle).context.below x hx
    rw [heq, hd.id] at this
    exact Nat.lt_irrefl _ this
  exact ⟨by rw [hd.id]; exact hle, hfresh, fun x hx => hfresh x (h.assigned x hx)⟩

theorem Around.cons (h : Around Φ r lo Γ Δ) {sym : Symbol} (hd : sym.Declares r lo)
    (hs : sym.ty.isScalar = true) : Around Φ r (lo + 1) (sym :: Γ) Δ where
  closed := h.closed
  context := h.context.cons hd
  scalar x hx := by
    rcases List.mem_cons.mp hx with rfl | hx
    · exact hs
    · exact h.scalar x hx
  assigned x hx := List.mem_cons_of_mem _ (h.assigned x hx)

theorem Symbol.IsNew.mono {sym : Symbol} (h : sym.IsNew Γ Δ mid) (hle : lo ≤ mid) :
    sym.IsNew Γ Δ lo := { h with number := Nat.le_trans hle h.number }

mutual

theorem Stmt.Computes.mono : (s : Stmt) → {Γ Δ : List Symbol} → {lo mid : Nat} → lo ≤ mid →
    s.Computes Γ Δ mid → s.Computes Γ Δ lo
  | .decl _ _ _ _ _, _, _, _, _, hle, h => by
    obtain ⟨sym, hsym, hnew, hrest⟩ := h
    exact ⟨sym, hsym, hnew.mono hle, hrest⟩
  | .assign _ (.name _) _, _, _, _, _, _, h => h
  | .compound _ (.name _) _ _, _, _, _, _, _, h => h
  | .selfOp _ _, _, _, _, _, _, h => h
  | .print _ _ _, _, _, _, _, _, h => h
  | .ifElse _ _ a b, _, _, _, _, hle, h =>
    ⟨h.1, Block.Computes.mono a hle h.2.1, Block.optionComputes_mono b hle h.2.2⟩
  | .whileLoop _ _ body, _, _, _, _, hle, h => ⟨h.1, Block.Computes.mono body hle h.2⟩
  | .forLoop _ _ (.range (.mk _ _ _ _)) _, _, _, _, _, hle, h => by
    obtain ⟨sym, hsym, hnew, hrest⟩ := h
    exact ⟨sym, hsym, hnew.mono hle, hrest⟩
  | .ret _ none, _, _, _, _, _, h => h
  | .brk _, _, _, _, _, _, h => h
  | .cont _, _, _, _, _, _, h => h
  | .block b, _, _, _, _, hle, h => Block.Computes.mono b hle h
  | .assign _ (.element _ _ _) _, _, _, _, _, _, h => h.elim
  | .compound _ (.element _ _ _) _ _, _, _, _, _, _, h => h.elim
  | .forLoop _ _ (.each _) _, _, _, _, _, _, h => h.elim
  | .ret _ (some _), _, _, _, _, _, h => h.elim
  | .function _, _, _, _, _, _, h => h.elim
  | .call _ _, _, _, _, _, _, h => h.elim

theorem Stmt.listComputes_mono : (ss : List Stmt) → {Γ Δ : List Symbol} → {lo mid : Nat} →
    lo ≤ mid → Stmt.ListComputes Γ Δ mid ss → Stmt.ListComputes Γ Δ lo ss
  | [], _, _, _, _, _, h => h
  | s :: ss, _, _, _, _, hle, h => ⟨Stmt.Computes.mono s hle h.1, Stmt.listComputes_mono ss hle h.2⟩

theorem Block.Computes.mono : (b : Block) → {Γ Δ : List Symbol} → {lo mid : Nat} → lo ≤ mid →
    b.Computes Γ Δ mid → b.Computes Γ Δ lo
  | .mk _ ss _, _, _, _, _, hle, h => Stmt.listComputes_mono ss hle h

theorem Block.optionComputes_mono : (b : Option Block) → {Γ Δ : List Symbol} → {lo mid : Nat} →
    lo ≤ mid → Block.OptionComputes Γ Δ mid b → Block.OptionComputes Γ Δ lo b
  | none, _, _, _, _, _, h => h
  | some b, _, _, _, _, hle, h => Block.Computes.mono b hle h

end

/-- The context after a statement. -/
theorem Around.extend (h : Around Φ r lo Γ Δ) {result : Ty} {inLoop : Bool} {s : Stmt}
    (hs : s.Typed Φ r result inLoop Γ lo hi) (hc : s.isScalar = true) :
    Around Φ r hi (s.extend Γ) (s.extend Δ) := by
  have hctx := h.context.extend hs
  refine ⟨h.closed, hctx, ?_, ?_⟩
  · cases s with
    | decl tok isMutable name ty value =>
      obtain ⟨mid, sym, hsym, -⟩ := hs
      simp only [Stmt.isScalar, hsym, Option.any_some, Bool.and_eq_true] at hc
      simp only [Stmt.extend, hsym]
      intro x hx
      rcases List.mem_cons.mp hx with rfl | hx
      · exact hc.1
      · exact h.scalar x hx
    | _ => exact h.scalar
  · cases s with
    | decl tok isMutable name ty value =>
      intro x hx
      rcases List.mem_append.mp hx with hx | hx
      · exact List.mem_append_left _ hx
      · exact List.mem_append_right _ (h.assigned x hx)
    | _ => exact h.assigned

theorem Stmt.declares_eq (s : Stmt) (Γ : List Symbol) : s.declares Γ = s.extend Γ := by
  cases s <;> rfl

mutual

/-- Checked statements of this kind, where no function is declared. -/
theorem Stmt.computes : (s : Stmt) → {result : Ty} → {inLoop : Bool} → {Γ Δ : List Symbol} →
    {D : List SymbolId} → {A A' : SymbolId → Prop} → {lo hi : Nat} → Around Φ r lo Γ Δ →
    s.Typed Φ r result inLoop Γ lo hi → s.Assigns false Δ D A A' → s.isScalar = true →
    s.Computes Γ Δ lo
  | .decl tok isMutable name ty value, _, _, _, _, _, _, _, _, _, h, ht, ha, hs => by
    obtain ⟨mid, sym, hsym, hd, rfl, hv⟩ := ht
    rw [Stmt.isScalar, hsym, Option.any_some, Bool.and_eq_true] at hs
    refine ⟨sym, hsym, ?_, hs.1, fun e he => ?_⟩
    · cases value with
      | none => exact h.isNew (Nat.le_of_eq hv) hd
      | some e => exact h.isNew (Expr.fits_le hv) hd
    · subst he
      exact h.gives hv (ha.2.1 e rfl) hs.2
  | .assign _ (.name id) value, _, _, _, _, _, _, _, _, _, h, ht, ha, hs => by
    obtain ⟨t, ⟨sym, hmem, hsym, rfl, -⟩, hv⟩ := ht
    obtain ⟨hsteady, -, sym', hmem', hsym', -⟩ := ha
    rw [hsym] at hsym'
    cases hsym'
    exact ⟨sym, hmem, hmem', hsym, h.gives hv hsteady hs⟩
  | .compound _ (.name id) op value, _, _, _, _, _, _, _, _, _, h, ht, ha, hs => by
    obtain ⟨hop, mid, ⟨⟨sym, hmem, hsym, hty, -⟩, hle⟩, hv⟩ := ht
    obtain ⟨⟨sym', hmem', hsym'⟩, hsteady, -⟩ := ha
    rw [hsym] at hsym'
    cases hsym'
    exact ⟨sym, hmem, (mem_mutables.mp hmem').1, hsym, hty, hop,
      h.computes (Nat.le_of_eq hle) hv hsteady hs⟩
  | .selfOp _ (.mk m sign before (.name id)), _, _, _, _, _, _, _, _, _, h, ht, ha, _ =>
    h.computes (e := .incDec (.mk m sign before (.name id))) (Nat.le_refl _) ⟨rfl, ht⟩ ha.1 rfl
  | .print _ _ none, _, _, _, _, _, _, _, _, _, _, _, _, _ => fun e he => by cases he
  | .print _ _ (some e), _, _, _, _, _, _, _, _, _, h, ht, ha, hs => by
    obtain ⟨t, he, -⟩ := ht
    rw [Stmt.isScalar, Bool.and_eq_true] at hs
    have hcomp := h.computes (Nat.le_refl _) he (ha.1 e rfl) hs.1
    intro e' he'
    cases he'
    refine ⟨t, ?_, hcomp⟩
    simpa [hcomp.recorded] using hs.2
  | .ifElse _ cond a b, _, _, _, _, _, _, _, _, _, h, ht, ha, hs => by
    obtain ⟨m, n, hc, hta, htb⟩ := ht
    obtain ⟨hsteady, A₁, A₀, A₂, haa, -, hab, -⟩ := ha
    simp only [Stmt.isScalar, Bool.and_eq_true] at hs
    have hm := Expr.typed_le cond hc
    have hn := Nat.le_trans hm (Block.typed_le a hta)
    exact ⟨h.computes (Nat.le_refl _) hc hsteady hs.1.1,
      Block.Computes.mono a hm (Block.computes a (h.mono hm) hta haa hs.1.2),
      Block.optionComputes_mono b hn (Block.optionComputes b (h.mono hn) htb hab hs.2)⟩
  | .whileLoop _ cond body, _, _, _, _, _, _, _, _, _, h, ht, ha, hs => by
    obtain ⟨m, hc, hb⟩ := ht
    obtain ⟨hsteady, -, A₁, hab⟩ := ha
    simp only [Stmt.isScalar, Bool.and_eq_true] at hs
    have hm := Expr.typed_le cond hc
    exact ⟨h.computes (Nat.le_refl _) hc hsteady hs.1,
      Block.Computes.mono body hm (Block.computes body (h.mono hm) hb hab hs.2)⟩
  | .forLoop _ x (.range (.mk m first last step)) body, _, _, _, _, _, _, _, _, _, h, ht, ha,
    hs => by
    obtain ⟨mid, sym, hsym, hd, hh, hb⟩ := ht
    obtain ⟨⟨hf, hl, hst⟩, -, A₁, hab⟩ := ha
    have hle := Header.typed_le hh
    obtain ⟨hty, p, q, htf, htl, hts⟩ := hh
    simp only [Stmt.isScalar, Header.isScalar, Bool.and_eq_true] at hs
    obtain ⟨⟨⟨hsf, hsl⟩, hss⟩, hsb⟩ := hs
    have hp := Expr.typed_le first htf
    have hq := Nat.le_trans hp (Expr.typed_le last htl)
    have hin := ((h.mono hle).cons hd (by rw [hty]; rfl))
    refine ⟨sym, hsym, h.isNew hle hd, hty, h.computes (Nat.le_refl _) htf hf hsf,
      h.computes hp htl hl hsl, fun e he => ?_, ?_⟩
    · subst he
      exact ⟨h.computes hq hts.1 (hst e rfl) hss, hts.2⟩
    · rw [hd.id]
      exact Block.computes body hin hb hab hsb
  | .ret _ none, _, _, _, _, _, _, _, _, _, _, _, _, _ => trivial
  | .brk _, _, _, _, _, _, _, _, _, _, _, _, _, _ => trivial
  | .cont _, _, _, _, _, _, _, _, _, _, _, _, _, _ => trivial
  | .block b, _, _, _, _, _, _, _, _, _, h, ht, ha, hs => Block.computes b h ht ha hs
  | .assign _ (.element _ _ _) _, _, _, _, _, _, _, _, _, _, _, _, _, hs => by cases hs
  | .compound _ (.element _ _ _) _ _, _, _, _, _, _, _, _, _, _, _, _, _, hs => by cases hs
  | .selfOp _ (.mk _ _ _ (.element _ _ _)), _, _, _, _, _, _, _, _, _, _, _, _, hs => by cases hs
  | .forLoop _ _ (.each _) _, _, _, _, _, _, _, _, _, _, _, _, _, hs => by cases hs
  | .ret _ (some _), _, _, _, _, _, _, _, _, _, _, _, _, hs => by cases hs
  | .function _, _, _, _, _, _, _, _, _, _, _, _, _, hs => by cases hs
  | .call _ _, _, _, _, _, _, _, _, _, _, _, _, _, hs => by cases hs

theorem Stmt.listComputes : (ss : List Stmt) → {result : Ty} → {inLoop : Bool} →
    {Γ Δ : List Symbol} → {D : List SymbolId} → {A A' : SymbolId → Prop} → {lo hi : Nat} →
    Around Φ r lo Γ Δ → Stmt.ListTyped Φ r result inLoop Γ lo hi ss →
    Stmt.ListAssigns false Δ D A A' ss → Stmt.listIsScalar ss = true →
    Stmt.ListComputes Γ Δ lo ss
  | [], _, _, _, _, _, _, _, _, _, _, _, _, _ => trivial
  | s :: ss, _, _, _, _, _, _, _, _, _, h, ht, ha, hs => by
    obtain ⟨mid, hts, htss⟩ := ht
    obtain ⟨A₀, A₁, -, has, hass⟩ := ha
    rw [Stmt.listIsScalar, Bool.and_eq_true] at hs
    rw [Stmt.declares_eq] at hass
    exact ⟨Stmt.computes s h hts has hs.1, Stmt.listComputes_mono ss (Stmt.typed_le s hts)
      (Stmt.listComputes ss (h.extend hts hs.1) htss hass hs.2)⟩

theorem Block.computes : (b : Block) → {result : Ty} → {inLoop : Bool} → {Γ Δ : List Symbol} →
    {D : List SymbolId} → {A A' : SymbolId → Prop} → {lo hi : Nat} → Around Φ r lo Γ Δ →
    b.Typed Φ r result inLoop Γ lo hi → b.Assigns false Δ D A A' → b.isScalar = true →
    b.Computes Γ Δ lo
  | .mk _ ss _, _, _, _, _, _, _, _, _, _, h, ht, ha, hs => Stmt.listComputes ss h ht ha hs

theorem Block.optionComputes : (b : Option Block) → {result : Ty} → {inLoop : Bool} →
    {Γ Δ : List Symbol} → {D : List SymbolId} → {A A' : SymbolId → Prop} → {lo hi : Nat} →
    Around Φ r lo Γ Δ → Block.TypedOption Φ r result inLoop Γ lo hi b →
    Block.AssignsOption false Δ D A A' b → Block.optionIsScalar b = true →
    Block.OptionComputes Γ Δ lo b
  | none, _, _, _, _, _, _, _, _, _, _, _, _, _ => trivial
  | some b, _, _, _, _, _, _, _, _, _, h, ht, ha, hs => Block.computes b h ht ha hs

end

end Statements

/-! ## Variables that keep their values -/

namespace Eval

variable {α β : Type} {F : List FunDecl} {id : SymbolId} {x : Eval α}

/-- The steps leave a variable its value. -/
def Spares (id : SymbolId) (x : Eval α) : Prop :=
  ∀ m, Ends x m (fun _ _ => True) fun _ m' => m'.vars[id]? = m.vars[id]?

theorem Spares.vars (h : Spares id x) {m m' : Machine} {a : α} (hx : x m = .ok a m') :
    m'.vars[id]? = m.vars[id]? := by
  have hm := h m
  rw [Ends, hx] at hm
  exact hm

theorem spares_pure (a : α) : Spares id (pure a) := fun _ => rfl

theorem Spares.bind {f : α → Eval β} (h : Spares id x) (hf : ∀ a, Spares id (f a)) :
    Spares id (x >>= f) := by
  intro m
  rw [ends_bind]
  refine (h m).mono fun a m' hm => ?_
  exact (hf a m').mono fun b m'' hm' => hm'.trans hm

theorem spares_fail (cause : Fault.Cause) (tok : Token) : Spares id (fail cause tok : Eval α) :=
  fun _ => trivial

theorem Spares.ite {c : Prop} [Decidable c] {y : Eval α} (hx : Spares id x) (hy : Spares id y) :
    Spares id (if c then x else y) := by
  split
  · exact hx
  · exact hy

theorem spares_assign {other : SymbolId} (h : other ≠ id) (v : Value) :
    Spares id (assign other v) := by
  intro m
  change (m.vars.insert other v)[id]? = m.vars[id]?
  rw [Std.HashMap.getElem?_insert]
  simp [h]

theorem spares_emit (text : String) : Spares id (emit text) := fun _ => rfl

theorem spares_shown (tok : Token) (v : Value) : Spares id (shown tok v) := by
  refine Spares.bind (fun _ => rfl) fun m => ?_
  cases v.show? m.heap with
  | none => exact spares_fail _ _
  | some text => exact spares_pure text

theorem spares_variableOf (name : Ident) (sym : Symbol) : Spares id (variableOf name sym) := by
  refine Spares.bind (fun _ => rfl) fun o => ?_
  cases o with
  | none => exact spares_fail _ _
  | some v => exact spares_pure v

theorem spares_arithmetic (tok : Token) (op : String) (a b : Value) :
    Spares id (arithmetic tok op a b) := by
  unfold arithmetic
  split
  · split
    · exact spares_fail _ _
    · split
      · exact spares_pure _
      · exact spares_fail _ _
  · exact spares_fail _ _

theorem spares_comparison (tok : Token) (op : String) (a b : Value) :
    Spares id (comparison tok op a b) := by
  unfold comparison
  cases CompareOp.ofText? op with
  | none =>
    dsimp only
    split
    · exact spares_fail _ _
    · exact spares_fail _ _
    · exact Spares.ite (spares_fail _ _) (spares_fail _ _)
    · exact spares_fail _ _
  | some o =>
    dsimp only
    split
    · exact spares_pure _
    · exact spares_pure _
    · exact Spares.ite (spares_pure _) (spares_fail _ _)
    · exact spares_fail _ _

theorem spares_truth (tok : Token) (v : Value) : Spares id (truth tok v) := by
  unfold truth
  split
  · exact spares_pure _
  · exact spares_fail _ _

theorem spares_bound {run : Expr → Eval Value} {e : Expr} (h : Spares id (run e)) :
    Spares id (bound run e) := by
  refine h.bind fun v => ?_
  split
  · exact spares_pure _
  · exact spares_fail _ _

theorem spares_sequence {run : Stmt → Eval Flow} : ∀ {ss : List Stmt},
    (∀ s ∈ ss, Spares id (run s)) → Spares id (sequence run ss)
  | [], _ => spares_pure _
  | s :: ss, h => by
    refine (h s List.mem_cons_self).bind fun flow => ?_
    cases flow with
    | next => exact spares_sequence fun s hs => h s (List.mem_cons_of_mem _ hs)
    | _ => exact spares_pure _

section Loops

variable {body : Eval Flow} (hbody : Spares id body)
include hbody

theorem spares_turn : Spares id (turn body) := by
  refine hbody.bind fun flow => ?_
  cases flow <;> exact spares_pure _

theorem spares_whileLoop {tok : Token} {cond : Eval Bool} (hcond : Spares id cond) : ∀ fuel,
    Spares id (whileLoop tok cond body fuel)
  | 0 => spares_fail _ _
  | fuel + 1 => by
    refine hcond.bind fun b => Spares.ite ((spares_turn hbody).bind fun o => ?_) (spares_pure _)
    cases o with
    | none => exact spares_whileLoop hcond fuel
    | some flow => exact spares_pure _

theorem spares_rangeLoop {other : SymbolId} (h : other ≠ id) {last step : Int32} (n : Int64) :
    Spares id (rangeLoop other last step body n) := by
  induction n using rangeLoop.induct last step with
  | case1 n hn ih =>
    rw [rangeLoop, if_pos hn]
    refine (spares_assign h _).bind fun _ => (spares_turn hbody).bind fun o => ?_
    cases o with
    | none => exact ih
    | some flow => exact spares_pure _
  | case2 n hn =>
    rw [rangeLoop, if_neg hn]
    exact spares_pure _

end Loops

end Eval

open Eval

section Spares

variable {F : List FunDecl} {id : SymbolId} {Γ V : List Symbol} {t : Ty} {e : Expr}

/-- An expression changes only variables that it may store to. -/
theorem Expr.Computes.spares (h : e.Computes Γ V t) (hV : ∀ sym ∈ V, sym.id ≠ id) :
    ∀ fuel, Spares id (Eval.expr F fuel e) := by
  intro fuel
  induction h generalizing fuel with
  | read hs hid hty hp =>
    cases fuel with
    | zero => exact spares_fail _ _
    | succ fuel =>
      change Spares id (Eval.read F _)
      unfold Eval.read
      rw [Eval.symbolOf_eq hid, pure_bind, hp]
      exact spares_variableOf _ _
  | incDec hm hs hv hid hty =>
    cases fuel with
    | zero => exact spares_fail _ _
    | succ fuel =>
      change Spares id (Eval.incDec F (Eval.expr F fuel) (.mk _ _ _ (.name _)))
      unfold Eval.incDec
      dsimp only
      rw [Eval.symbolOf_eq hid, pure_bind]
      refine (spares_variableOf _ _).bind fun v => ?_
      cases v with
      | int n => exact (spares_assign (hV _ hv) _).bind fun _ => spares_pure _
      | _ => exact spares_fail _ _
  | int | bool =>
    cases fuel with
    | zero => exact spares_fail _ _
    | succ fuel => exact spares_pure _
  | arith hm ho ha hb iha ihb =>
    cases fuel with
    | zero => exact spares_fail _ _
    | succ fuel => exact (iha fuel).bind fun a => (ihb fuel).bind fun b => spares_arithmetic _ _ a b
  | compare hm ho ht ha hb iha ihb =>
    cases fuel with
    | zero => exact spares_fail _ _
    | succ fuel => exact (iha fuel).bind fun a => (ihb fuel).bind fun b => spares_comparison _ _ a b
  | logic hm ho ha hb iha ihb =>
    cases fuel with
    | zero => exact spares_fail _ _
    | succ fuel =>
      refine (iha fuel).bind fun a => (spares_truth _ a).bind fun p => ?_
      refine Spares.ite (spares_pure _) (Spares.ite (spares_pure _) ?_)
      exact (ihb fuel).bind fun b => (spares_truth _ b).bind fun q => spares_pure _
  | not hm he ihe =>
    cases fuel with
    | zero => exact spares_fail _ _
    | succ fuel =>
      refine (ihe fuel).bind fun v => ?_
      cases v with
      | bool b => exact spares_pure _
      | _ => exact spares_fail _ _

theorem Expr.Gives.spares {want : Ty} (h : e.Gives Γ V want) (hV : ∀ sym ∈ V, sym.id ≠ id)
    (fuel : Nat) : Spares id (Eval.expr F fuel e) := by
  obtain ⟨t, ht, -⟩ := h
  exact ht.spares hV fuel

theorem ne_of_mutables {Δ : List Symbol} (h : ∀ sym ∈ Δ, sym.id ≠ id) :
    ∀ sym ∈ mutables Δ, sym.id ≠ id := fun sym hs => h sym (mem_mutables.mp hs).1

theorem ne_of_extend {Δ : List Symbol} {lo : Nat} {s : Stmt} (hs : s.Computes Γ Δ lo)
    (hlt : id.index < lo) (h : ∀ sym ∈ Δ, sym.id ≠ id) : ∀ sym ∈ s.extend Δ, sym.id ≠ id := by
  cases s with
  | decl tok isMutable name ty value =>
    obtain ⟨sym, hsym, hnew, -⟩ := hs
    simp only [Stmt.extend, hsym]
    intro x hx
    rcases List.mem_cons.mp hx with rfl | hx
    · rintro rfl
      exact absurd hnew.number (Nat.not_le_of_lt hlt)
    · exact h x hx
  | _ => exact h

mutual

/-- A statement changes only variables that it may assign, and those that it declares. -/
theorem Stmt.spares : (s : Stmt) → {Γ Δ : List Symbol} → {lo : Nat} → s.Computes Γ Δ lo →
    (∀ sym ∈ Δ, sym.id ≠ id) → id.index < lo → ∀ fuel, Spares id (Eval.stmt F fuel s)
  | _, _, _, _, _, _, _, 0 => spares_fail _ _
  | .decl _ _ _ _ value, _, _, _, h, hΔ, hlt, fuel + 1 => by
    obtain ⟨sym, hsym, hnew, -, hv⟩ := h
    have hne : sym.id ≠ id := by
      rintro rfl
      exact absurd hnew.number (Nat.not_le_of_lt hlt)
    unfold Eval.stmt
    dsimp only
    rw [Eval.symbolOf_eq hsym, pure_bind]
    cases value with
    | none => exact (spares_assign hne _).bind fun _ => spares_pure _
    | some e =>
      refine ((hv e rfl).spares (ne_of_mutables hΔ) fuel).bind fun v => ?_
      exact (spares_assign hne v).bind fun _ => spares_pure _
  | .assign _ (.name _) value, _, _, _, h, hΔ, _, fuel + 1 => by
    obtain ⟨sym, -, hmem, hsym, hv⟩ := h
    unfold Eval.stmt
    dsimp only
    rw [Eval.symbolOf_eq hsym, pure_bind]
    refine (hv.spares (ne_of_mutables hΔ) fuel).bind fun v => ?_
    exact (spares_assign (hΔ sym hmem) v).bind fun _ => spares_pure _
  | .compound _ (.name _) _ value, _, _, _, h, hΔ, _, fuel + 1 => by
    obtain ⟨sym, -, hmem, hsym, -, -, hv⟩ := h
    unfold Eval.stmt
    dsimp only
    rw [Eval.symbolOf_eq hsym, pure_bind]
    refine (spares_variableOf _ _).bind fun old => ?_
    refine (hv.spares (ne_of_mutables hΔ) fuel).bind fun v => ?_
    refine (spares_arithmetic _ _ _ _).bind fun n => ?_
    exact (spares_assign (hΔ sym hmem) n).bind fun _ => spares_pure _
  | .selfOp _ e, _, _, _, h, hΔ, _, fuel + 1 => by
    have hrun := Expr.Computes.spares (F := F) h (ne_of_mutables hΔ) (fuel + 1)
    exact Spares.bind hrun fun v => spares_pure _
  | .print _ _ value, _, _, _, h, hΔ, _, fuel + 1 => by
    unfold Eval.stmt
    dsimp only
    cases value with
    | none => exact (spares_emit _).bind fun _ => spares_pure _
    | some e =>
      obtain ⟨t, -, he⟩ := h e rfl
      refine (he.spares (ne_of_mutables hΔ) fuel).bind fun v => (spares_shown _ v).bind fun text => ?_
      exact (spares_emit _).bind fun _ => spares_pure _
  | .ifElse _ cond a b, _, _, _, h, hΔ, hlt, fuel + 1 => by
    obtain ⟨hc, ha, hb⟩ := h
    unfold Eval.stmt
    dsimp only
    refine (hc.spares (ne_of_mutables hΔ) fuel).bind fun v => (spares_truth _ v).bind fun t => ?_
    refine Spares.ite (Block.spares a ha hΔ hlt fuel) ?_
    cases b with
    | none => exact spares_pure _
    | some b => exact Block.spares b hb hΔ hlt fuel
  | .whileLoop _ cond body, _, _, _, h, hΔ, hlt, fuel + 1 => by
    unfold Eval.stmt
    dsimp only
    refine spares_whileLoop (Block.spares body h.2 hΔ hlt fuel) ?_ fuel
    exact (h.1.spares (ne_of_mutables hΔ) fuel).bind fun v => spares_truth _ v
  | .forLoop _ _ (.range (.mk _ first last step)) body, _, _, _, h, hΔ, hlt, fuel + 1 => by
    obtain ⟨sym, hsym, hnew, -, hf, hl, hs, hb⟩ := h
    have hne : sym.id ≠ id := by
      rintro rfl
      exact absurd hnew.number (Nat.not_le_of_lt hlt)
    have hin : id.index < sym.id.index + 1 :=
      Nat.lt_succ_of_le (Nat.le_of_lt (Nat.lt_of_lt_of_le hlt hnew.number))
    have hrest (a b by_ : Int32) : Spares id (rangeLoop sym.id b by_
        (sequence (Eval.stmt F fuel) body.stmts) a.toInt64) :=
      spares_rangeLoop (Block.spares body hb hΔ hin fuel) hne _
    unfold Eval.stmt
    dsimp only
    rw [Eval.symbolOf_eq hsym, pure_bind]
    refine (spares_bound (hf.spares (ne_of_mutables hΔ) fuel)).bind fun a => ?_
    refine (spares_bound (hl.spares (ne_of_mutables hΔ) fuel)).bind fun b => ?_
    cases step with
    | none => exact hrest a b 1
    | some e =>
      refine (spares_bound ((hs e rfl).1.spares (ne_of_mutables hΔ) fuel)).bind fun n => ?_
      refine Spares.ite ((spares_fail _ _).bind fun _ => ?_) ?_
      · exact (spares_pure n).bind fun by_ => hrest a b by_
      · exact (spares_pure n).bind fun by_ => hrest a b by_
  | .ret _ none, _, _, _, _, _, _, _ + 1 => spares_pure _
  | .brk _, _, _, _, _, _, _, _ + 1 => spares_pure _
  | .cont _, _, _, _, _, _, _, _ + 1 => spares_pure _
  | .block b, _, _, _, h, hΔ, hlt, fuel + 1 => Block.spares b h hΔ hlt fuel
  | .assign _ (.element _ _ _) _, _, _, _, h, _, _, _ + 1 => h.elim
  | .compound _ (.element _ _ _) _ _, _, _, _, h, _, _, _ + 1 => h.elim
  | .forLoop _ _ (.each _) _, _, _, _, h, _, _, _ + 1 => h.elim
  | .ret _ (some _), _, _, _, h, _, _, _ + 1 => h.elim
  | .function _, _, _, _, h, _, _, _ + 1 => h.elim
  | .call _ _, _, _, _, h, _, _, _ + 1 => h.elim

theorem Stmt.listSpares : (ss : List Stmt) → {Γ Δ : List Symbol} → {lo : Nat} →
    Stmt.ListComputes Γ Δ lo ss → (∀ sym ∈ Δ, sym.id ≠ id) → id.index < lo →
    ∀ fuel, ∀ s ∈ ss, Spares id (Eval.stmt F fuel s)
  | [], _, _, _, _, _, _, _, _, hs => by cases hs
  | s :: ss, _, _, _, h, hΔ, hlt, fuel, x, hx => by
    rcases List.mem_cons.mp hx with heq | hx
    · rw [heq]
      exact Stmt.spares s h.1 hΔ hlt fuel
    · exact Stmt.listSpares ss h.2 (ne_of_extend h.1 hlt hΔ) hlt fuel x hx

theorem Block.spares : (b : Block) → {Γ Δ : List Symbol} → {lo : Nat} → b.Computes Γ Δ lo →
    (∀ sym ∈ Δ, sym.id ≠ id) → id.index < lo →
    ∀ fuel, Spares id (sequence (Eval.stmt F fuel) b.stmts)
  | .mk _ ss _, _, _, _, h, hΔ, hlt, fuel => spares_sequence (Stmt.listSpares ss h hΔ hlt fuel)

end

end Spares

end Kotlet

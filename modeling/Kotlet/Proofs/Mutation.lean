import Kotlet.Proofs.Syntax.Altered
import Kotlet.Syntax.Format

/-!
# What mutations do

* `Draws` : what is drawn has a property, whatever the source of random numbers is;
* `Target.Altered`, `Call.Altered`, `Expr.ListAltered`, `Splice.ListAltered` : the parts of a node that
  differ in one place at most;
* `Expr.draws_mutate`, `Stmt.draws_mutate`, `Program.altered_mutate` : a mutation changes one place at
  most, or takes one statement away;
* `Program.mutations_regular` : mutations in a row change one place each, and what they make of a source
  text has all that reading guarantees.
-/

namespace Kotlet

open Mutation

variable {σ α β : Type} {names : List String}

/-- Whatever the source is, what the steps end in has the property. -/
def Draws (names : List String) (x : Mutation σ α) (P : α → Prop) : Prop := ∀ s : σ, P (x names s).1

/-! ## Steps -/

namespace Draws

theorem of_pure {a : α} {P : α → Prop} (h : P a) : Draws names (pure a : Mutation σ α) P := fun _ => h

theorem bind {x : Mutation σ α} {f : α → Mutation σ β} {P : α → Prop} {Q : β → Prop}
    (hx : Draws names x P) (hf : ∀ a, P a → Draws names (f a) Q) : Draws names (x >>= f) Q :=
  fun s => hf _ (hx s) _

/-- A draw of which nothing need be known. -/
theorem after {x : Mutation σ α} {f : α → Mutation σ β} {Q : β → Prop}
    (hf : ∀ a, Draws names (f a) Q) : Draws names (x >>= f) Q :=
  fun s => hf _ (x names s).2

/-- What is drawn becomes a part of the result. -/
theorem into {x : Mutation σ α} {f : α → β} {P : α → Prop} {Q : β → Prop} (hx : Draws names x P)
    (hf : ∀ a, P a → Q (f a)) : Draws names (x >>= fun a => pure (f a)) Q :=
  hx.bind fun a ha => of_pure (hf a ha)

theorem ite {c : Prop} [Decidable c] {x y : Mutation σ α} {P : α → Prop} (hx : Draws names x P)
    (hy : Draws names y P) : Draws names (if c then x else y) P := by
  by_cases h : c
  · rwa [if_pos h]
  · rwa [if_neg h]

section Source

variable [Source σ]

theorem below {n : Nat} (hn : 0 < n) : Draws names (below n : Mutation σ Nat) (· < n) := by
  intro s
  change (Source.below n s).1 < n
  unfold Source.below
  by_cases h : 1 <<< Nat.log2 n = n
  · rw [if_pos h]
    exact Nat.mod_lt _ hn
  · rw [if_neg h]
    exact Nat.mod_lt _ hn

theorem oneOf {options : List String} (h : options ≠ []) :
    Draws names (oneOf options : Mutation σ String) (· ∈ options) := by
  refine (below (List.length_pos_iff.mpr h)).into fun i hi => ?_
  rw [List.getD_eq_getElem?_getD, List.getElem?_eq_getElem hi]
  exact List.getElem_mem hi

theorem rename (id : Ident) :
    Draws names (rename id : Mutation σ Ident) fun id' => id' = id ∨ ∃ x ∈ names, id' = { id with name := x } := by
  refine bind (P := (names = ·)) (fun _ => rfl) ?_
  rintro _ rfl
  cases names with
  | nil => exact of_pure (Or.inl rfl)
  | cons x xs => exact (oneOf (List.cons_ne_nil x xs)).into fun y hy => Or.inr ⟨y, hy, rfl⟩

theorem changeNumber (n : Int32) : Draws names (changeNumber n : Mutation σ Int32) fun n' =>
    ∃ d : Int, (-10 ≤ d ∧ d ≤ 10) ∧ n' = n + Int32.ofInt d :=
  (below (by decide)).into fun k hk => ⟨k - 10, by omega, rfl⟩

theorem changeLetter (text : String) : Draws names (changeLetter text : Mutation σ String) fun text' =>
    text' = text ∨ ∃ i < text.toList.length, ∃ c : Char, ('a' ≤ c ∧ c ≤ 'z') ∧
      text' = String.ofList (text.toList.set i c) := by
  have hletters : ∀ k < 26, 'a' ≤ Char.ofNat ('a'.toNat + k) ∧ Char.ofNat ('a'.toNat + k) ≤ 'z' := by decide
  unfold Mutation.changeLetter
  cases h : text.toList with
  | nil => exact of_pure (Or.inl rfl)
  | cons c cs =>
    refine (below (Nat.succ_pos _)).bind fun i hi => ?_
    exact (below (by decide)).into fun k hk => Or.inr ⟨i, hi, _, hletters k hk, rfl⟩

end Source

end Draws

/-! ## Parts of nodes -/

/-- Two targets differ in a name or inside the index. -/
inductive Target.Altered (names : List String) : Target → Target → Prop where
  | nothing (t : Target) : Altered names t t
  | name (id : Ident) {x : String} (hx : x ∈ names) : Altered names (.name id) (.name { id with name := x })
  | index (m : Mark) (base : Ident) {e e' : Expr} (h : e.Altered names e') :
    Altered names (.element m base e) (.element m base e')

/-- Two lists of expressions differ inside one of them. -/
inductive Expr.ListAltered (names : List String) : List Expr → List Expr → Prop where
  | nothing (es : List Expr) : ListAltered names es es
  | inside (before after : List Expr) {e e' : Expr} (h : e.Altered names e') :
    ListAltered names (before ++ e :: after) (before ++ e' :: after)

/-- Two lists of templates differ inside one of them. -/
inductive Splice.ListAltered (names : List String) : List Splice → List Splice → Prop where
  | nothing (ss : List Splice) : ListAltered names ss ss
  | inside (before after : List Splice) (offset : Int) {e e' : Expr} (h : e.Altered names e') :
    ListAltered names (before ++ .mk offset e :: after) (before ++ .mk offset e' :: after)

/-- Two calls differ inside one of the arguments. -/
inductive Call.Altered (names : List String) : Call → Call → Prop where
  | arguments (m : Mark) (callee : Ident) {es es' : List Expr} (h : Expr.ListAltered names es es') :
    Altered names (.mk m callee es) (.mk m callee es')

theorem Expr.ListAltered.cons (e : Expr) {es es' : List Expr} (h : ListAltered names es es') :
    ListAltered names (e :: es) (e :: es') := by
  cases h with
  | nothing => exact .nothing _
  | inside before after h => exact .inside (e :: before) after h

theorem Splice.ListAltered.cons (s : Splice) {ss ss' : List Splice} (h : ListAltered names ss ss') :
    ListAltered names (s :: ss) (s :: ss') := by
  cases h with
  | nothing => exact .nothing _
  | inside before after offset h => exact .inside (s :: before) after offset h

theorem Expr.Altered.collection (m : Mark) (kind : CollectionKind) {es es' : List Expr}
    (h : Expr.ListAltered names es es') : Altered names (.collection m kind es) (.collection m kind es') := by
  cases h with
  | nothing => exact .nothing _
  | inside before after h => exact .inside (.element m kind before after) h

theorem Expr.Altered.string (m : Mark) (text : String) {ss ss' : List Splice}
    (h : Splice.ListAltered names ss ss') : Altered names (.str m text ss) (.str m text ss') := by
  cases h with
  | nothing => exact .nothing _
  | inside before after offset h => exact .inside (.template m text before after offset) h

theorem Expr.Altered.call {c c' : Call} (h : c.Altered names c') : Altered names (.call c) (.call c') := by
  obtain ⟨m, callee, h⟩ := h
  cases h with
  | nothing => exact .nothing _
  | inside before after h => exact .inside (.argument m callee before after) h

theorem Expr.Altered.incDec (m : Mark) (op : String) (before : Bool) {t t' : Target}
    (h : t.Altered names t') : Altered names (.incDec (.mk m op before t)) (.incDec (.mk m op before t')) := by
  cases h with
  | nothing => exact .nothing _
  | name id hx => exact .here (.counted m op before id hx)
  | index m' base h => exact .inside (.counted m m' op before base) h

/-! ## Expressions -/

variable [Source σ]

theorem draws_choice {x : Choice → Mutation σ α} {P : α → Prop} (hop : Draws names (x .operator) P)
    (hl : Draws names (x .left) P) (hr : Draws names (x .right) P) : Draws names (choice >>= x) P := by
  refine .after fun c => ?_
  cases c with
  | operator => exact hop
  | left => exact hl
  | right => exact hr

mutual

/-- A mutation changes an expression in one node at most. -/
theorem Expr.draws_mutate : ∀ e : Expr, Draws names (e.mutate : Mutation σ Expr) (e.Altered names)
  | .arith m op l r => by
    refine draws_choice ?_ ?_ ?_
    · exact (Draws.oneOf (by decide)).into fun _ h => .here (.arith m op l r h)
    · exact l.draws_mutate.into fun _ h => .inside (.arithLeft m op r) h
    · exact r.draws_mutate.into fun _ h => .inside (.arithRight m op l) h
  | .compare m op l r => by
    refine draws_choice ?_ ?_ ?_
    · exact (Draws.oneOf (by decide)).into fun _ h => .here (.compare m op l r h)
    · exact l.draws_mutate.into fun _ h => .inside (.compareLeft m op r) h
    · exact r.draws_mutate.into fun _ h => .inside (.compareRight m op l) h
  | .logic m op l r => by
    refine draws_choice ?_ ?_ ?_
    · exact (Draws.oneOf (by decide)).into fun _ h => .here (.logic m op l r h)
    · exact l.draws_mutate.into fun _ h => .inside (.logicLeft m op r) h
    · exact r.draws_mutate.into fun _ h => .inside (.logicRight m op l) h
  | .not m e => e.draws_mutate.into fun _ h => .inside (.negated m) h
  | .int m n => (Draws.changeNumber n).into fun _ ⟨_, hd, hn⟩ => hn ▸ .here (.number m n hd)
  | .bool m b => .of_pure (.here (.truth m b))
  | .str m text splices => by
    have hletter : Draws names (do return .str m (← changeLetter text) splices : Mutation σ Expr)
        (Expr.Altered names (.str m text splices)) := by
      refine (Draws.changeLetter text).into ?_
      rintro _ (rfl | ⟨i, hi, c, hc, rfl⟩)
      · exact .nothing _
      · exact .here (.letter m text splices hi hc)
    refine .ite ?_ hletter
    refine .after fun half => .ite (.after fun i => ?_) hletter
    exact (Splice.draws_mutateNth i splices).into fun _ h => .string m text h
  | .read (.name id) => by
    refine (Draws.rename id).into ?_
    rintro _ (rfl | ⟨x, hx, rfl⟩)
    · exact .nothing _
    · exact .here (.name id hx)
  | .read (.element m base index) => by
    refine .after fun renames => .ite ?_ ?_
    · refine (Draws.rename base).into ?_
      rintro _ (rfl | ⟨x, hx, rfl⟩)
      · exact .nothing _
      · exact .here (.base m base index hx)
    · exact index.draws_mutate.into fun _ h => .inside (.index m base) h
  | .incDec (.mk m op before target) => target.draws_mutate.into fun _ h => .incDec m op before h
  | .collection m kind es =>
    .ite (.of_pure (.nothing _)) (.after fun i =>
      (Expr.draws_mutateNth i es).into fun _ h => .collection m kind h)
  | .sized m kind size (.mk lm params body captures) => by
    refine .after fun first => .ite ?_ ?_
    · exact size.draws_mutate.into fun _ h => .inside (.size m kind _) h
    · exact body.draws_mutate.into fun _ h => .inside (.generator m lm kind size params captures) h
  | .lambda (.mk m params body captures) =>
    body.draws_mutate.into fun _ h => .inside (.body m params captures) h
  | .call c => c.draws_mutate.into fun _ h => .call h
  | .range r => .of_pure (.nothing _)

theorem Expr.draws_mutateNth : ∀ (i : Nat) (es : List Expr),
    Draws names (Expr.mutateNth i es : Mutation σ (List Expr)) (Expr.ListAltered names es)
  | _, [] => .of_pure (.nothing _)
  | 0, e :: es => e.draws_mutate.into fun _ h => .inside [] es h
  | i + 1, e :: es => (Expr.draws_mutateNth i es).into fun _ h => h.cons e

theorem Splice.draws_mutateNth : ∀ (i : Nat) (ss : List Splice),
    Draws names (Splice.mutateNth i ss : Mutation σ (List Splice)) (Splice.ListAltered names ss)
  | _, [] => .of_pure (.nothing _)
  | 0, .mk offset e :: ss => e.draws_mutate.into fun _ h => .inside [] ss offset h
  | i + 1, .mk offset e :: ss => (Splice.draws_mutateNth i ss).into fun _ h => h.cons (.mk offset e)

theorem Target.draws_mutate : ∀ t : Target, Draws names (t.mutate : Mutation σ Target) (t.Altered names)
  | .name id => by
    refine (Draws.rename id).into ?_
    rintro _ (rfl | ⟨x, hx, rfl⟩)
    · exact .nothing _
    · exact .name id hx
  | .element m base index => index.draws_mutate.into fun _ h => .index m base h

theorem Call.draws_mutate : ∀ c : Call, Draws names (c.mutate : Mutation σ Call) (c.Altered names)
  | .mk m f args =>
    .ite (.of_pure (.arguments m f (.nothing _))) (.after fun i =>
      (Expr.draws_mutateNth i args).into fun _ h => .arguments m f h)

end

/-! ## Statements -/

/-- Two statements that differ as the members of a list may. -/
def Stmt.Altered (names : List String) (s s' : Stmt) : Prop :=
  ∀ before after, Stmt.ListAltered names (before ++ s :: after) (before ++ s' :: after)

/-- Two blocks of which one list of statements is altered. -/
inductive Block.Altered (names : List String) : Block → Block → Prop where
  | mk (brace close : Token) {ss ss' : List Stmt} (h : Stmt.ListAltered names ss ss') :
    Altered names (.mk brace ss close) (.mk brace ss' close)

/-- Two expressions that are both absent, or altered. -/
inductive Expr.OptionAltered (names : List String) : Option Expr → Option Expr → Prop where
  | none : OptionAltered names none none
  | some {e e' : Expr} (h : e.Altered names e') : OptionAltered names (some e) (some e')

namespace Stmt.Altered

theorem nothing (s : Stmt) : Altered names s s := fun _ _ => .nothing _

theorem here {s s' : Stmt} (h : s.Touched names s') : Altered names s s' := fun before after => .here before after h

theorem part {place : Expr → Stmt} (hplace : Stmt.Holds place) {e e' : Expr} (h : e.Altered names e') :
    Altered names (place e) (place e') := fun before after => .part before after hplace h

theorem inside (place : Block → Stmt)
    (hplace : ∀ brace close, Stmt.Encloses fun ss => place (.mk brace ss close)) {b b' : Block}
    (h : b.Altered names b') : Altered names (place b) (place b') := by
  obtain ⟨brace, close, h⟩ := h
  exact fun before after => .inside before after (hplace brace close) h

theorem option {place : Option Expr → Stmt} (hplace : Stmt.Holds fun e => place (some e))
    {value value' : Option Expr} (h : Expr.OptionAltered names value value') :
    Altered names (place value) (place value') := by
  cases h with
  | none => exact nothing _
  | some h => exact part hplace h

theorem call (tok : Token) {c c' : Call} (h : c.Altered names c') : Altered names (.call tok c) (.call tok c') := by
  obtain ⟨m, callee, h⟩ := h
  cases h with
  | nothing => exact nothing _
  | inside before after h => exact part (.argument tok m callee before after) h

theorem target (tok : Token) (value : Expr) {t t' : Target} (h : t.Altered names t') :
    Altered names (.assign tok t value) (.assign tok t' value) := by
  cases h with
  | nothing => exact nothing _
  | name id hx => exact here (.assigned tok id value hx)
  | index m base h => exact part (.index tok m base value) h

theorem selfOp (tok : Token) (m : Mark) (op : String) (before : Bool) {t t' : Target} (h : t.Altered names t') :
    Altered names (.selfOp tok (.mk m op before t)) (.selfOp tok (.mk m op before t')) := by
  cases h with
  | nothing => exact nothing _
  | name id hx => exact here (.counted tok m op before id hx)
  | index m' base h => exact part (.counted tok m m' op before base) h

end Stmt.Altered

theorem Expr.draws_mutateOption (value : Option Expr) :
    Draws names (Expr.mutateOption value : Mutation σ (Option Expr)) (Expr.OptionAltered names value) := by
  cases value with
  | none => exact .of_pure .none
  | some e => exact e.draws_mutate.into fun _ h => .some h

/-- A mutation changes a loop header in one node at most. -/
theorem Header.draws_mutate (tok : Token) (x : Ident) (header : Header) (body : Block) :
    Draws names (header.mutate : Mutation σ Header) fun header' =>
      Stmt.Altered names (.forLoop tok x header body) (.forLoop tok x header' body) := by
  cases header with
  | each e => exact e.draws_mutate.into fun _ h => .part (.each tok x body) h
  | range r =>
    obtain ⟨m, first, last, step⟩ := r
    refine Draws.into (P := fun r' => Stmt.Altered names (.forLoop tok x (.range (.mk m first last step)) body)
      (.forLoop tok x (.range r') body)) (.after fun k => ?_) fun _ h => h
    have hlast : Draws names (do return .mk m first (← last.mutate) step : Mutation σ Range) fun r' =>
        Stmt.Altered names (.forLoop tok x (.range (.mk m first last step)) body)
          (.forLoop tok x (.range r') body) :=
      last.draws_mutate.into fun _ h => .part (.last tok x m first step body) h
    match k, step with
    | 0, _ => exact first.draws_mutate.into fun _ h => .part (.first tok x m last _ body) h
    | 1, _ => exact hlast
    | k + 2, none => exact hlast
    | k + 2, some s => exact s.draws_mutate.into fun _ h => .part (.step tok x m first last body) h

/-- A statement is taken away, or one of them is changed. -/
theorem draws_removeOr {ss : List Stmt} {changeNth : Nat → Mutation σ (List Stmt)}
    (h : ∀ i, Draws names (changeNth i) (Stmt.ListAltered names ss)) :
    Draws names (removeOr changeNth ss) (Stmt.ListAltered names ss) := by
  unfold removeOr
  cases ss with
  | nil => exact .of_pure (.nothing _)
  | cons s ss =>
    refine .after fun removes => .ite ?_ (.after h)
    refine (Draws.below (Nat.succ_pos _)).into fun i hi => ?_
    have hsplit := (List.take_append_drop i (s :: ss)).symm
    rw [List.drop_eq_getElem_cons hi] at hsplit
    rw [List.eraseIdx_eq_take_drop_succ]
    nth_rewrite 1 [hsplit]
    exact .removed _ _ _

mutual

/-- A mutation changes a statement in one place at most, or takes one of the statements inside away. -/
theorem Stmt.draws_mutate : ∀ s : Stmt, Draws names (s.mutate : Mutation σ Stmt) (s.Altered names)
  | .decl t isMutable name ty value => by
    refine (Expr.draws_mutateOption value).into fun _ h => ?_
    exact .option (.initial t isMutable name ty) h
  | .assign t target value => by
    refine .after fun first => .ite ?_ ?_
    · exact target.draws_mutate.into fun _ h => .target t value h
    · exact value.draws_mutate.into fun _ h => .part (.assigned t target) h
  | .compound t target op value => by
    refine .after fun first => .ite ?_ ?_
    · exact (Draws.oneOf (by decide)).into fun _ h => .here (.operator t target op value h)
    · exact value.draws_mutate.into fun _ h => .part (.operand t target op) h
  | .selfOp t (.mk m op before target) => by
    refine target.draws_mutate.into fun _ h => ?_
    exact .selfOp t m op before h
  | .print t newline value => by
    refine (Expr.draws_mutateOption value).into fun _ h => ?_
    exact .option (.printed t newline) h
  | .ifElse t cond a none => by
    refine .after fun first => .ite ?_ ?_
    · exact cond.draws_mutate.into fun _ h => .part (.condition t a none) h
    · exact a.draws_mutate.into fun _ h => .inside (.ifElse t cond · none) (.thenBranch t cond · · none) h
  | .ifElse t cond a (some b) => by
    refine .after fun r => .ite ?_ (.ite ?_ ?_)
    · exact cond.draws_mutate.into fun _ h => .part (.condition t a (some b)) h
    · exact a.draws_mutate.into fun _ h =>
        .inside (.ifElse t cond · (some b)) (.thenBranch t cond · · (some b)) h
    · exact b.draws_mutate.into fun _ h => .inside (fun b => .ifElse t cond a (some b)) (.elseBranch t cond a) h
  | .whileLoop t cond body => by
    refine .after fun first => .ite ?_ ?_
    · exact cond.draws_mutate.into fun _ h => .part (.whileCondition t body) h
    · exact body.draws_mutate.into fun _ h => .inside (.whileLoop t cond) (.whileBody t cond) h
  | .forLoop t x header body => by
    refine .after fun first => .ite ?_ ?_
    · exact (header.draws_mutate t x body).into fun _ h => h
    · exact body.draws_mutate.into fun _ h => .inside (.forLoop t x header) (.forBody t x header) h
  | .function (.mk t name params result body) => by
    refine body.draws_mutate.into fun _ h => ?_
    exact .inside (fun b => .function (.mk t name params result b)) (.functionBody t name params result) h
  | .call t c => by
    refine c.draws_mutate.into fun _ h => ?_
    exact .call t h
  | .ret t value => by
    refine (Expr.draws_mutateOption value).into fun _ h => ?_
    exact .option (.result t) h
  | .block b => by
    refine b.draws_mutate.into fun _ h => ?_
    exact .inside .block .block h
  | .brk t => .of_pure (.nothing _)
  | .cont t => .of_pure (.nothing _)

theorem Stmt.draws_mutateNth (front : List Stmt) : ∀ (i : Nat) (ss : List Stmt),
    Draws names (Stmt.mutateNth i ss : Mutation σ (List Stmt)) fun ss' =>
      Stmt.ListAltered names (front ++ ss) (front ++ ss')
  | _, [] => .of_pure (.nothing _)
  | 0, s :: ss => s.draws_mutate.into fun _ h => h front ss
  | i + 1, s :: ss => by
    have htail := Stmt.draws_mutateNth (front ++ [s]) i ss
    simp only [List.append_assoc, List.singleton_append] at htail
    exact htail.into fun _ h => h

theorem Block.draws_mutate : ∀ b : Block, Draws names (b.mutate : Mutation σ Block) (b.Altered names)
  | .mk t ss close => by
    have h : Draws names (removeOr (fun i => Stmt.mutateNth i ss) ss : Mutation σ (List Stmt))
        (Stmt.ListAltered names ss) := draws_removeOr fun i => Stmt.draws_mutateNth [] i ss
    exact h.into fun _ h => .mk t close h

end

theorem Stmt.draws_mutateOne (ss : List Stmt) :
    Draws names (Stmt.mutateOne ss : Mutation σ (List Stmt)) (Stmt.ListAltered names ss) :=
  draws_removeOr fun i => Stmt.draws_mutateNth [] i ss

/-! ## Programs -/

/-- A mutation changes one place of a program at most, or takes one statement away. -/
theorem Program.altered_mutate (p : Program) (s : σ) : p.Altered (p.mutate s).1 :=
  ⟨rfl, Stmt.draws_mutateOne p.stmts s⟩

theorem Program.length_mutations (p : Program) (n : Nat) (s : σ) : (p.mutations n s).1.length = n := by
  induction n generalizing p s with
  | zero => rfl
  | succ n ih => exact congrArg Nat.succ (ih _ _)

theorem Program.isChain_mutations (p : Program) (n : Nat) (s : σ) :
    (p :: (p.mutations n s).1).IsChain Program.Altered := by
  induction n generalizing p s with
  | zero => exact .singleton p
  | succ n ih => exact .cons_cons (p.altered_mutate s) (ih _ _)

/-- What each change keeps, many changes keep. -/
theorem Program.Regular.of_isChain {p : Program} {qs : List Program} (h : (p :: qs).IsChain Program.Altered)
    (hp : p.Regular) : ∀ q ∈ qs, q.Regular := by
  induction qs generalizing p with
  | nil => exact nofun
  | cons q qs ih =>
    obtain ⟨hq, hrest⟩ := List.isChain_cons_cons.mp h
    have hq := hq.regular hp
    exact List.forall_mem_cons.mpr ⟨hq, ih hrest hq⟩

/-- `n` mutations of what was read from a text, whatever the random numbers are: each changes one place of
the program before it, and all that reading guarantees holds of every one. -/
theorem Program.mutations_regular {text : Text} {p : Program} (h : p.OfText text) (n : Nat) (s : σ) :
    (p.mutations n s).1.length = n ∧ (p :: (p.mutations n s).1).IsChain Program.Altered ∧
      ∀ q ∈ (p.mutations n s).1, q.Regular :=
  ⟨p.length_mutations n s, p.isChain_mutations n s, h.regular.of_isChain (p.isChain_mutations n s)⟩

/-- Three mutations of a script: the first and the last one change an element of its list, the one
between them the text around a template. -/
theorem Program.mutations_regular_three : ∃ p : Program,
    p.OfText "var xs = mutableListOf(1, 2)\nxs[0] += 3\nprint(\"a$xs\")" ∧
      (p.mutations 3 (⟨8⟩ : Seed)).1.map Program.format =
        ["var xs = mutableListOf(-8, 2)\nxs[0] += 3\nprint(\"a$\x7bxs\x7d\")\n",
          "var xs = mutableListOf(-8, 2)\nxs[0] += 3\nprint(\"z$\x7bxs\x7d\")\n",
          "var xs = mutableListOf(-8, 0)\nxs[0] += 3\nprint(\"z$\x7bxs\x7d\")\n"] ∧
      ∀ q ∈ (p.mutations 3 (⟨8⟩ : Seed)).1, q.Regular := by
  have hrun : ((Program.ofText? "var xs = mutableListOf(1, 2)\nxs[0] += 3\nprint(\"a$xs\")").map fun p =>
      (p.mutations 3 (⟨8⟩ : Seed)).1.map Program.format) = some
        ["var xs = mutableListOf(-8, 2)\nxs[0] += 3\nprint(\"a$\x7bxs\x7d\")\n",
          "var xs = mutableListOf(-8, 2)\nxs[0] += 3\nprint(\"z$\x7bxs\x7d\")\n",
          "var xs = mutableListOf(-8, 0)\nxs[0] += 3\nprint(\"z$\x7bxs\x7d\")\n"] := by
    decide +kernel
  obtain ⟨p, hp, hformat⟩ := Option.map_eq_some_iff.mp hrun
  have htext := Program.ofText_of_eq_some hp
  exact ⟨p, htext, hformat, (Program.mutations_regular htext 3 (⟨8⟩ : Seed)).2.2⟩

end Kotlet

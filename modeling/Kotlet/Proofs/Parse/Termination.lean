import Kotlet.Proofs.Parse.Spending
import Kotlet.Proofs.Parse.StatementsComplete

/-!
# Parsing ends

Without limits the parser does what it does with them: no program exhausts them, and it calls its rules
and takes steps on the tokens at most in proportion to the tokens and the characters of the string
literals.

* `eats_block`, `eats_statement` : statements, given the rule for those inside, which have fewer tokens;
* `eats_stmtWithin` : statements inside each other;
* `Program.parse_terminates` : whole programs.
-/

namespace Kotlet
namespace Clocked

open Parse

variable {c : Clock} {ctx : Context} {bound size : Nat}

/-! ## Simple statements -/

section Simple

variable (hc : Fits c ctx bound size)

include hc

theorem eats_declaration : Eats c ctx bound size 3 23 declaration Parse.declaration := by
  intro ts s hts
  unfold declaration Parse.declaration
  refine Paces.call (Paces.advance hc hts.left fun tok _ h => ?_)
  refine Paces.ident hc h fun name _ h => ?_
  refine Paces.optional hc (by decide) h (fun _ h => ?_) fun ty _ h => ?_
  · exact ((eats_type hc _ _ h.met).behind h (by omega) (by omega)).map
  · refine Paces.accept hc (by decide) h ?_ fun _ h => ?_
    · refine (Paces.done h (Nat.le_refl _) (Nat.le_refl _)).andThen fun value _ h => ?_
      exact .done h (by omega) (by omega)
    · refine Paces.skipNewlines hc h fun _ h => ?_
      refine (((eats_expr hc _ _ h.met).behind h (Nat.le_refl _) (Nat.le_refl _)).map).andThen
        fun value _ h => ?_
      exact .done h (by omega) (by omega)

theorem eats_printing : Eats c ctx bound size 3 22 printing Parse.printing := by
  intro ts s hts
  unfold printing Parse.printing
  refine Paces.call (Paces.advance hc hts.left fun tok _ h => ?_)
  refine Paces.expect hc (by decide) h fun _ _ h => ?_
  refine Paces.skipNewlines hc h fun _ h => ?_
  refine Paces.nextIs hc fun b => Paces.ite (fun _ => ?_) fun _ => ?_
  · refine Paces.advance hc h fun _ _ h => ?_
    exact .done h (by omega) (by omega)
  · refine (eats_expr hc).andThen h fun value _ h => ?_
    refine Paces.skipNewlines hc h fun _ h => ?_
    refine Paces.expect hc (by decide) h fun _ _ h => ?_
    exact .done h (by omega) (by omega)

theorem paces_returning {t : Token} {ts : List Token} {s : Nat} (hts : Met bound size (t :: ts)) :
    Paces c ctx returning Parse.returning (t :: ts) (s + 2) (Ate bound size (t :: ts) 1 (s + 25)) := by
  unfold returning Parse.returning
  refine Paces.call (Paces.advance_cons hc hts.left fun h => ?_)
  refine Paces.peek hc fun next _ => ?_
  refine Paces.atEnd hc fun b => Paces.ite (fun _ => ?_) fun _ => ?_
  · exact .done h (by omega) (by omega)
  · refine (eats_expr hc).andThen h fun value _ h => ?_
    exact .done h (by omega) (by omega)

theorem eats_namedStmt : Eats c ctx bound size 6 20 namedStmt Parse.namedStmt := by
  intro ts s hts
  unfold namedStmt Parse.namedStmt
  refine Paces.call (Paces.peek hc fun first _ => Paces.peekSecond hc fun second => ?_)
  refine Paces.ite (fun _ => ?_) fun _ => ?_
  · refine (eats_callOf hc (eats_expr hc)).andThen hts.left fun call _ h => ?_
    exact .done h (by omega) (by omega)
  · refine (eats_target hc (eats_expr hc)).andThen hts.left fun t _ h => ?_
    refine Paces.peek hc fun tok _ => ?_
    cases tok.kind with
    | assign | plusAssign | minusAssign | timesAssign | slashAssign =>
      refine Paces.advance hc h fun _ _ h => ?_
      refine Paces.skipNewlines hc h fun _ h => ?_
      refine (eats_expr hc).andThen h fun value _ h => ?_
      exact .done h (by omega) (by omega)
    | increment | decrement =>
      refine Paces.advance hc h fun _ _ h => ?_
      exact .done h (by omega) (by omega)
    | _ => exact paces_fail hc

theorem eats_condition : Eats c ctx bound size 2 30 condition Parse.condition := by
  intro ts s hts
  unfold condition Parse.condition
  refine Paces.call (Paces.expect hc (by decide) hts.left fun _ _ h => ?_)
  refine Paces.skipNewlines hc h fun _ h => ?_
  refine (eats_expr hc).andThen h fun value _ h => ?_
  refine Paces.skipNewlines hc h fun _ h => ?_
  refine Paces.expect hc (by decide) h fun _ _ h => ?_
  exact .done h (by omega) (by omega)

theorem eats_header : Eats c ctx bound size 20 5 header Parse.header := by
  intro ts s hts
  unfold header Parse.header
  refine Paces.call ((eats_expr hc).andThen hts.left fun first _ h => ?_)
  refine Paces.accept? hc (by decide) h ?_ fun dots _ h => ?_
  · exact .done h (by omega) (by omega)
  · refine (eats_expr hc).andThen h fun last _ h => ?_
    refine Paces.optional hc (by decide) h (fun _ h => ?_) fun step _ h => ?_
    · exact ((eats_expr hc _ _ h.met).behind h (by omega) (by omega)).map
    · exact .done h (by omega) (by omega)

end Simple

/-! ## Statements that hold others -/

/-- An `else` behind line ends is taken, or nothing. -/
theorem paces_acceptElse (hc : Fits c ctx bound size) {β : Type} {x x' : Clocked β} {y y' : Parser β}
    {ts us : List Token} {s k : Nat} {R : β → List Token → Nat → Prop} (h : Left bound size us k ts)
    (hno : Paces c ctx x' y' ts s R)
    (hyes : ∀ rest, Left bound size us (k + 1) rest → Paces c ctx x y rest s R) :
    Paces c ctx (liftM acceptElse >>= fun b => if b = true then x else x')
      (acceptElse >>= fun b => if b = true then y else y') ts (s + 1) R := by
  refine (paces_step hc plain_acceptElse (Q := fun b rest left =>
    Paces c ctx (if b = true then x else x') (if b = true then y else y') rest left R)
    fun b rest hb => ?_).bind fun b rest left hq => hq
  obtain ⟨g, e, rfl, rfl, -⟩ | ⟨rfl, rfl⟩ := of_acceptElse hc.kind hb
  · refine ⟨s, ?_, hyes rest (Left.append h).cons⟩
    rw [List.append_cons]
    exact spent_append _ _
  · exact ⟨s, spent_append [] _, hno⟩

/-- A statement inside others needs eight more than its tokens are worth, and leaves eighteen more. -/
theorem paces_stmtsAfter (hc : Fits c ctx bound size) {stmt : Clocked Stmt} {stmt' : Parser Stmt}
    (hstmt : Eats c ctx bound size 8 18 stmt stmt') {fuel turns : Nat} (acc : List Stmt)
    {ts : List Token} (hfuel : ts.length < fuel) (hturns : ts.length < turns) (h : Met bound size ts)
    {s : Nat} : Paces c ctx (stmtsAfter stmt fuel acc) (Parse.stmtsAfter stmt' turns acc) ts (s + 10)
      (Ate bound size ts 0 (s + 9)) := by
  induction fuel generalizing turns acc ts s with
  | zero => omega
  | succ fuel ih =>
    obtain ⟨turns, rfl⟩ := Nat.exists_eq_succ_of_ne_zero (Nat.ne_zero_of_lt hturns)
    unfold stmtsAfter Parse.stmtsAfter
    refine Paces.nextIs hc fun b => Paces.ite (fun _ => ?_) fun _ => ?_
    · exact .done h.left (Nat.le_refl 0) (Nat.le_refl _)
    · refine Paces.atEnd hc fun b => Paces.ite (fun _ => Paces.fails hc) fun _ => ?_
      refine hstmt.andThen h.left fun st _ h => ?_
      refine Paces.nextIs hc fun b => Paces.ite (fun _ => ?_) fun _ => ?_
      · exact .done h (by omega) (by omega)
      · refine Paces.atEnd hc fun b => Paces.ite (fun _ => Paces.fails hc) fun _ => ?_
        refine Paces.peek hc fun t _ => Paces.ite (fun _ => Paces.fails hc) fun _ => ?_
        refine Paces.skipSeparators hc h fun _ h => ?_
        have hlt := h.length
        exact ((ih _ (by omega) (by omega) h.met).behind h (by omega) (Nat.le_refl _)).mono (by omega)

section Holding

variable (hc : Fits c ctx (bound + 1) size) {stmt : Clocked Stmt} {stmt' : Parser Stmt}
  (hstmt : Eats c ctx bound size 8 18 stmt stmt')

include hc

theorem paces_functionParams {fuel turns : Nat} (acc : List Param)
    {ts : List Token} (hfuel : ts.length < fuel) (hturns : ts.length < turns) (h : Met (bound + 1) size ts)
    {s : Nat} : Paces c ctx (functionParams fuel acc) (Parse.functionParams turns acc) ts (s + 4)
      (Ate (bound + 1) size ts 0 (s + 3)) := by
  induction fuel generalizing turns acc ts s with
  | zero => omega
  | succ fuel ih =>
    obtain ⟨turns, rfl⟩ := Nat.exists_eq_succ_of_ne_zero (Nat.ne_zero_of_lt hturns)
    unfold functionParams Parse.functionParams
    refine Paces.nextIs hc fun b => Paces.ite (fun _ => ?_) fun _ => ?_
    · exact .done h.left (Nat.le_refl 0) (Nat.le_refl _)
    · refine (eats_parameter hc true).andThen h.left fun p _ h => ?_
      refine Paces.skipNewlines hc h fun _ h => ?_
      refine Paces.accept hc (by decide) h ?_ fun _ h => ?_
      · exact .done h (by omega) (by omega)
      · refine Paces.skipNewlines hc h fun _ h => ?_
        have hlt := h.length
        exact ((ih _ (by omega) (by omega) h.met).behind h (by omega) (Nat.le_refl _)).mono (by omega)

include hstmt

theorem eats_block : Eats c ctx (bound + 1) size 2 23 (block stmt) (Parse.block stmt') := by
  intro ts s hts
  unfold block Parse.block
  refine Paces.call (Paces.expect hc (by decide) hts.left fun brace _ h => ?_)
  refine Paces.skipSeparators hc h fun _ h => Paces.turns ?_
  have hmet := h.below hts
  have hlt := hmet.length
  have hfuel := hc.fuel
  have hlimit := hc.limit
  refine ((paces_stmtsAfter (hc.of_le (Nat.le_succ bound)) hstmt [] (by omega) (by omega) hmet).inside h
    (Nat.le_refl _) (Nat.le_refl _)).andThen fun stmts _ h => ?_
  refine Paces.advance hc h fun close _ h => ?_
  exact .done h (by omega) (by omega)

theorem eats_ifStmt : Eats c ctx (bound + 1) size 4 23 (ifStmt stmt) (Parse.ifStmt stmt') := by
  intro ts s hts
  unfold ifStmt Parse.ifStmt
  refine Paces.call (Paces.advance hc hts.left fun tok _ h => ?_)
  refine (eats_condition hc).andThen h fun cond _ h => ?_
  refine Paces.skipNewlines hc h fun _ h => ?_
  refine (eats_block hc hstmt).andThen h fun thenB _ h => ?_
  refine paces_acceptElse hc h (.done h (by omega) (by omega)) fun _ h => ?_
  refine Paces.skipNewlines hc h fun _ h => ?_
  refine Paces.nextIs hc fun b => Paces.ite (fun _ => ?_) fun _ => ?_
  · refine hstmt.inside hts h fun nested _ h => ?_
    exact .done h (by omega) (by omega)
  · refine (eats_block hc hstmt).andThen h fun elseB _ h => ?_
    exact .done h (by omega) (by omega)

theorem eats_whileStmt : Eats c ctx (bound + 1) size 4 23 (whileStmt stmt) (Parse.whileStmt stmt') := by
  intro ts s hts
  unfold whileStmt Parse.whileStmt
  refine Paces.call (Paces.advance hc hts.left fun tok _ h => ?_)
  refine (eats_condition hc).andThen h fun cond _ h => ?_
  refine Paces.skipNewlines hc h fun _ h => ?_
  refine (eats_block hc hstmt).andThen h fun body _ h => ?_
  exact .done h (by omega) (by omega)

theorem eats_forStmt : Eats c ctx (bound + 1) size 4 23 (forStmt stmt) (Parse.forStmt stmt') := by
  intro ts s hts
  unfold forStmt Parse.forStmt
  refine Paces.call (Paces.advance hc hts.left fun tok _ h => ?_)
  refine Paces.expect hc (by decide) h fun _ _ h => ?_
  refine Paces.ident hc h fun x _ h => ?_
  refine Paces.expect hc (by decide) h fun _ _ h => ?_
  refine (eats_header hc).andThen h fun header _ h => ?_
  refine Paces.expect hc (by decide) h fun _ _ h => ?_
  refine Paces.skipNewlines hc h fun _ h => ?_
  refine (eats_block hc hstmt).andThen h fun body _ h => ?_
  exact .done h (by omega) (by omega)

theorem eats_functionStmt : Eats c ctx (bound + 1) size 4 23 (functionStmt stmt) (Parse.functionStmt stmt') := by
  intro ts s hts
  unfold functionStmt Parse.functionStmt
  refine Paces.call (Paces.advance hc hts.left fun tok _ h => ?_)
  refine Paces.ident hc h fun name _ h => ?_
  refine Paces.expect hc (by decide) h fun _ _ h => ?_
  refine Paces.skipNewlines hc h fun _ h => Paces.turns ?_
  have hlt := h.met.length
  have hfuel := hc.fuel
  have hlimit := hc.limit
  refine ((paces_functionParams hc [] (by omega) (by omega) h.met).behind h
    (Nat.le_refl _) (Nat.le_refl _)).andThen fun params _ h => ?_
  refine Paces.expect hc (by decide) h fun _ _ h => ?_
  refine Paces.checkParams hc ?_
  refine Paces.optional hc (by decide) h (fun _ h => ?_) fun result _ h => ?_
  · exact (eats_type hc _ _ h.met).behind h (by omega) (by omega)
  · refine Paces.skipNewlines hc h fun _ h => ?_
    refine (eats_block hc hstmt).andThen h fun body _ h => ?_
    exact .done h (by omega) (by omega)

theorem eats_statement : Eats c ctx (bound + 1) size 8 18 (statement stmt) (Parse.statement stmt') := by
  intro ts s hts
  unfold statement Parse.statement
  refine Paces.call (Paces.peek hc fun t ht => ?_)
  have hjump (f : Token → Stmt) (hk : t.kind ≠ .eof) :
      Paces c ctx (advance >>= fun t => pure (f t)) (advance >>= fun t => pure (f t)) ts (s + 6)
        (Ate (bound + 1) size ts 1 (s + 8 + 18)) := by
    obtain ⟨rest, rfl⟩ := ht hk
    refine Paces.advance_cons hc hts.left fun h => ?_
    exact .done h (by omega) (by omega)
  cases hk : t.kind with
  | kwVar | kwVal => exact (eats_declaration hc _ _ hts).behind hts.left (by omega) (by omega)
  | kwIf => exact (eats_ifStmt hc hstmt _ _ hts).behind hts.left (by omega) (by omega)
  | kwWhile => exact (eats_whileStmt hc hstmt _ _ hts).behind hts.left (by omega) (by omega)
  | kwFor => exact (eats_forStmt hc hstmt _ _ hts).behind hts.left (by omega) (by omega)
  | kwFun => exact (eats_functionStmt hc hstmt _ _ hts).behind hts.left (by omega) (by omega)
  | kwReturn =>
    obtain ⟨rest, rfl⟩ := ht (by simp [hk])
    exact (paces_returning hc hts).behind hts.left (by omega) (by omega)
  | kwBreak | kwContinue => exact hjump _ (by simp [hk])
  | kwPrint | kwPrintln => exact (eats_printing hc _ _ hts).behind hts.left (by omega) (by omega)
  | lbrace =>
    refine (eats_block hc hstmt).andThen hts.left fun b _ h => ?_
    exact .done h (by omega) (by omega)
  | increment | decrement =>
    refine (eats_prefixed hc (eats_expr hc)).andThen hts.left fun e _ h => ?_
    exact .done h (by omega) (by omega)
  | ident => exact (eats_namedStmt hc _ _ hts).behind hts.left (by omega) (by omega)
  | _ => exact paces_fail hc

end Holding

/-- Statements of fewer tokens than either rule has turns. -/
theorem eats_stmtWithin (hc : Fits c ctx bound size) {fuel depth : Nat} (hfuel : bound ≤ fuel)
    (hdepth : bound ≤ depth) : Eats c ctx bound size 8 18 (stmtWithin fuel) (Parse.stmtWithin depth) := by
  induction bound generalizing fuel depth with
  | zero => exact fun ts s h => absurd h.length (Nat.not_lt_zero _)
  | succ bound ih =>
    obtain ⟨fuel, rfl⟩ := Nat.exists_eq_succ_of_ne_zero (Nat.ne_zero_of_lt hfuel)
    obtain ⟨depth, rfl⟩ := Nat.exists_eq_succ_of_ne_zero (Nat.ne_zero_of_lt hdepth)
    exact eats_statement hc (ih (hc.of_le (Nat.le_succ bound)) (Nat.le_of_succ_le_succ hfuel)
      (Nat.le_of_succ_le_succ hdepth))

/-! ## Programs -/

theorem paces_programAfter (hc : Fits c ctx bound size) {stmt : Clocked Stmt} {stmt' : Parser Stmt}
    (hstmt : Eats c ctx bound size 8 18 stmt stmt') {fuel turns : Nat} (acc : List Stmt)
    {ts : List Token} (hfuel : ts.length < fuel) (hturns : ts.length < turns) (h : Met bound size ts)
    {s : Nat} : Paces c ctx (programAfter stmt fuel acc) (Parse.programAfter stmt' turns acc) ts (s + 9)
      (Ate bound size ts 0 s) := by
  induction fuel generalizing turns acc ts s with
  | zero => omega
  | succ fuel ih =>
    obtain ⟨turns, rfl⟩ := Nat.exists_eq_succ_of_ne_zero (Nat.ne_zero_of_lt hturns)
    unfold programAfter Parse.programAfter
    refine Paces.atEnd hc fun b => Paces.ite (fun _ => ?_) fun _ => ?_
    · exact .done h.left (Nat.le_refl 0) (by omega)
    · refine hstmt.andThen h.left fun st _ h => ?_
      refine Paces.atEnd hc fun b => Paces.ite (fun _ => ?_) fun _ => ?_
      · exact .done h (by omega) (by omega)
      · refine Paces.peek hc fun t _ => Paces.ite (fun _ => Paces.fails hc) fun _ => ?_
        refine Paces.skipSeparators hc h fun _ h => ?_
        have hlt := h.length
        exact ((ih _ (by omega) (by omega) h.met).behind h (by omega) (Nat.le_refl _)).mono (by omega)

/-- A whole program, where statements lie inside each other less often than there are tokens. -/
theorem paces_program (hc : Fits c ctx bound size) {ts : List Token} {s : Nat} (h : Met bound size ts) :
    Paces c ctx program Parse.program ts (s + 11) fun _ _ _ => True := by
  unfold program Parse.program
  refine Paces.call (Paces.skipSeparators hc h.left fun rest h => Paces.turns ?_)
  have hlt := h.met.length
  have hfuel := hc.fuel
  have hlimit := hc.limit
  exact (paces_programAfter hc (eats_stmtWithin hc hfuel hlimit) [] (by omega) (by omega) h.met).weaken
    fun _ _ left _ => ⟨left, Nat.le_refl _, trivial⟩

end Clocked

/-! ## Whole programs -/

open Clocked

theorem load_eq (tokens : List Token) : load tokens = tokens.length + (tokens.map literalLength).sum := by
  induction tokens with
  | nil => rfl
  | cons t tokens ih =>
    simp only [load, weight, ih, List.length_cons, List.map_cons, List.sum_cons]
    omega

/-- No literal is longer than templates may lie inside each other. -/
theorem length_le_templateDepth {t : Token} {tokens : List Token} (h : t ∈ tokens) :
    t.literal.toText.length ≤ Parse.templateDepth tokens := by
  suffices hmax : ∀ n, n ≤ tokens.foldl (fun n t => max n t.literal.toText.length) n ∧
      ∀ t ∈ tokens, t.literal.toText.length ≤ tokens.foldl (fun n t => max n t.literal.toText.length) n from
    (hmax 1).2 t h
  clear h
  induction tokens with
  | nil => exact fun n => ⟨Nat.le_refl n, nofun⟩
  | cons u tokens ih =>
    intro n
    obtain ⟨hn, hall⟩ := ih (max n u.literal.toText.length)
    refine ⟨Nat.le_trans (Nat.le_max_left _ _) hn, fun t ht => ?_⟩
    rcases List.mem_cons.mp ht with rfl | ht
    · exact Nat.le_trans (Nat.le_max_right _ _) hn
    · exact hall t ht

/-- The clock of a whole program goes with its context. -/
theorem fits_contextOf {tokens : List Token} {fuel : Nat} (hfuel : load tokens < fuel) :
    Fits ⟨Parse.endToken tokens, fuel, templateWithin fuel fuel⟩ (Parse.contextOf tokens)
      (tokens.length + 1) (min (load tokens) (Parse.templateDepth tokens)) where
  eof := rfl
  kind := Parse.endToken_kind tokens
  fuel := Nat.le_trans (Nat.succ_le_succ (length_le_load tokens)) hfuel
  limit := Nat.le_refl _
  template tok text htext := by
    obtain ⟨hload, hdepth⟩ := Nat.lt_min.mp htext
    exact templateWithin_eq tok (Nat.lt_trans hload hfuel) (Nat.lt_trans hload hfuel) hdepth

theorem met_tokens (tokens : List Token) :
    Met (tokens.length + 1) (min (load tokens) (Parse.templateDepth tokens)) tokens where
  length := Nat.lt_succ_self _
  literal t ht hkind := by
    have hweight := weight_le_load ht
    simp only [weight, literalLength, hkind, if_true] at hweight
    exact Nat.le_min.mpr ⟨by omega, length_le_templateDepth ht⟩

/-- Parsing ends for all tokens. Without its limits the parser does the same, which is never cut off by a
lack of fuel, and the calls and steps that it makes are in proportion to the tokens and the characters
of their string literals. Every expression and every statement takes a token. -/
theorem Program.parse_terminates {tokens : List Token} {fuel : Nat}
    (hfuel : tokens.length + (tokens.map literalLength).sum < fuel) :
    (∃ calls, calls ≤ 32 * (tokens.length + (tokens.map literalLength).sum) + 11 ∧
        Program.parseClocked fuel tokens = ((Program.parse tokens).mapError some, calls)) ∧
    ∀ (ctx : Parse.Context) (ts rest : List Token), ctx.eof.kind = .eof → ts.length ≤ ctx.limit →
      (∀ e, Parse.expr ctx ts = .ok (e, rest) → rest.length < ts.length) ∧
        ∀ depth s, Parse.stmtWithin depth ctx ts = .ok (s, rest) → rest.length < ts.length := by
  rw [← load_eq] at hfuel ⊢
  refine ⟨?_, fun ctx ts rest hend hlimit => ⟨fun e h => ?_, fun depth s h => ?_⟩⟩
  · obtain ⟨calls, hcalls, hrun⟩ := (paces_program (s := 0) (fits_contextOf hfuel) (met_tokens tokens)).total
    refine ⟨calls, hcalls, ?_⟩
    unfold parseClocked Program.parse Parse.run
    dsimp only
    rw [hrun]
    cases Parse.program (Parse.contextOf tokens) tokens <;> rfl
  · obtain ⟨us, rfl, hus⟩ := Parse.reads_expr hend _ _ _ hlimit h
    obtain ⟨t, us, rfl, -⟩ := Parse.starts_expr hend hus
    rw [List.cons_append, List.length_cons, List.length_append]
    omega
  · obtain ⟨us, rfl, hus⟩ := Parse.reads_stmtWithin hend depth _ _ _ hlimit h
    obtain ⟨t, us, rfl⟩ := List.exists_cons_of_ne_nil hus.ne_nil
    rw [List.cons_append, List.length_cons, List.length_append]
    omega

/-- A `>=` that is split, and a template. -/
theorem Program.parse_terminates_split : ∃ tokens,
    Token.scan "val a: Array<Int>=arrayOf(1)\nprint(\"$\x7ba[0]\x7d\")" = .ok tokens ∧
    tokens.length + (tokens.map literalLength).sum = 23 ∧
    (∃ calls, calls ≤ 32 * (tokens.length + (tokens.map literalLength).sum) + 11 ∧
        Program.parseClocked 24 tokens = ((Program.parse tokens).mapError some, calls)) ∧
    ∀ (ctx : Parse.Context) (ts rest : List Token), ctx.eof.kind = .eof → ts.length ≤ ctx.limit →
      (∀ e, Parse.expr ctx ts = .ok (e, rest) → rest.length < ts.length) ∧
        ∀ depth s, Parse.stmtWithin depth ctx ts = .ok (s, rest) → rest.length < ts.length := by
  have hsize : (Token.scan "val a: Array<Int>=arrayOf(1)\nprint(\"$\x7ba[0]\x7d\")").toOption.map
      (fun tokens => tokens.length + (tokens.map literalLength).sum) = some 23 := by
    decide +kernel
  cases hscan : Token.scan "val a: Array<Int>=arrayOf(1)\nprint(\"$\x7ba[0]\x7d\")" with
  | error d =>
    rw [hscan] at hsize
    cases hsize
  | ok tokens =>
    rw [hscan] at hsize
    have hload : tokens.length + (tokens.map literalLength).sum = 23 := Option.some.inj hsize
    exact ⟨tokens, rfl, hload, Program.parse_terminates (by omega)⟩

end Kotlet

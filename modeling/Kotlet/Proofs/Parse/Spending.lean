import Mathlib.Algebra.GroupWithZero.Nat
import Kotlet.Proofs.Parse.Pace
import Kotlet.Proofs.Parse.Sound
import Kotlet.Proofs.Token.Layout
import Kotlet.Proofs.Token.Spelling

/-!
# What expressions cost

Every rule for expressions takes a token and stays within the budget, whatever the tokens are.

* `eats_typeWithin`, `eats_parameter` : types and parameters;
* `eats_primary` : the primary expressions, given the rule for the expressions inside;
* `eats_chain` : chains, each of which needs one more and gains two less than its operands;
* `eats_level` : expressions of every admitted depth;
* `load_scan_le` : a text is at least as long as its tokens are worth, so that templates are paid for by
  the literal they stand in.
-/

namespace Kotlet
namespace Clocked

open Parse

variable {c : Clock} {ctx : Context} {bound size : Nat} (hc : Fits c ctx bound size)

/-! ## Types and parameters -/

section Steps

variable {β : Type} {ts us : List Token} {s k : Nat} {R : β → List Token → Nat → Prop}

include hc

theorem Paces.elementType {f : Scalar → Clocked β} {g : Scalar → Parser β}
    (h : Left bound size us k ts)
    (hf : ∀ x rest, Left bound size us (k + 1) rest → Paces c ctx (f x) (g x) rest (s + 31) R) :
    Paces c ctx (liftM elementType >>= f) (elementType >>= g) ts (s + 1) R :=
  Paces.take hc plain_elementType h (P := fun _ => True)
    (fun _ _ ht => ⟨(of_elementType hc.kind ht).imp fun _ h => h.1, trivial⟩)
    fun x rest h _ => hf x rest h

/-- A `>=` that is split leaves as many tokens as there were. -/
theorem Paces.closeTypeArgument {f : Unit → Clocked β} {g : Unit → Parser β}
    (h : Left bound size us k ts)
    (hf : ∀ rest, Left bound size us k rest → Paces c ctx (f ()) (g ()) rest s R) :
    Paces c ctx (liftM closeTypeArgument >>= f) (closeTypeArgument >>= g) ts (s + 1) R := by
  refine (paces_step hc plain_closeTypeArgument
    (Q := fun _ rest left => Left bound size us k rest ∧ left = s) fun _ rest ht => ?_).bind
    fun _ rest left hq => hq.2 ▸ hf rest hq.1
  obtain ⟨t, rfl, -⟩ | ⟨t, vs, rfl, ht, rfl⟩ := of_closeTypeArgument hc.kind ht
  · exact ⟨s, spent_append [t] _, h.tail, rfl⟩
  · have hweight : weight (secondHalf t) ≤ weight t := Nat.le_trans (Nat.le_refl 1) (one_le_weight t)
    refine ⟨s, ?_, ⟨h.length, h.met.length, fun u hu => ?_⟩, rfl⟩
    · simp only [load, Nat.mul_add, List.length_cons]
      unfold rate
      omega
    · rcases List.mem_cons.mp hu with rfl | hu
      · exact fun hstring => Token.Kind.noConfusion hstring
      · exact h.met.literal u (List.mem_cons_of_mem _ hu)

end Steps

include hc

theorem paces_typesAfter {type : Clocked Ty} {type' : Parser Ty}
    (htype : Eats c ctx bound size 3 20 type type') {fuel turns : Nat} (acc : List Ty) {ts : List Token}
    (hfuel : ts.length < fuel) (hturns : ts.length < turns) (h : Met bound size ts) {s : Nat} :
    Paces c ctx (typesAfter type fuel acc) (Parse.typesAfter type' turns acc) ts (s + 3)
      (Ate bound size ts 1 s) := by
  induction fuel generalizing turns acc ts s with
  | zero => omega
  | succ fuel ih =>
    obtain ⟨turns, rfl⟩ := Nat.exists_eq_succ_of_ne_zero (Nat.ne_zero_of_lt hturns)
    unfold typesAfter Parse.typesAfter
    refine htype.andThen h.left fun t rest h => ?_
    refine Paces.accept hc (by decide) h (.done h (by omega) (by omega)) fun rest h => ?_
    have hlt := h.length
    exact (ih _ (by omega) (by omega) h.met).behind h (by omega) (by omega)

/-- The types in parentheses that end before those, and the rest of a rule. -/
theorem paces_paramTypes {β : Type} {type : Clocked Ty} {type' : Parser Ty}
    (htype : Eats c ctx bound size 3 20 type type') {ts us : List Token} {s k : Nat}
    {R : β → List Token → Nat → Prop} {f : List Ty → Clocked β} {g : List Ty → Parser β} {b : Bool}
    (hus : Met (bound + 1) size us) (h : Left (bound + 1) size us (k + 1) ts)
    (hbound : bound ≤ ctx.limit)
    (hf : ∀ tys rest, Left (bound + 1) size us (k + 1) rest → Paces c ctx (f tys) (g tys) rest s R) :
    Paces c ctx (if b = true then pure [] >>= f else turns >>= fun n => typesAfter type n [] >>= f)
      (if b = true then pure [] >>= g
        else read >>= fun x => Parse.typesAfter type' x.limit [] >>= g) ts (s + 3) R := by
  refine Paces.ite (fun _ => ?_) fun _ => Paces.turns ?_
  · exact (Paces.done h (Nat.le_refl _) (by omega)).andThen hf
  · have hmet := h.below hus
    have hlt := hmet.length
    have hfuel := hc.fuel
    have htypes := paces_typesAfter (s := s) hc htype [] (Nat.lt_of_lt_of_le hlt hfuel)
      (Nat.lt_of_lt_of_le hlt hbound) hmet
    exact (htypes.inside h (Nat.le_add_right _ 1) (Nat.le_refl s)).andThen hf

theorem eats_typeWithin {fuel depth : Nat} (hfuel : bound ≤ fuel) (hdepth : bound ≤ depth) :
    Eats c ctx bound size 3 20 (typeWithin fuel) (Parse.typeWithin depth) := by
  induction bound generalizing fuel depth with
  | zero => exact fun ts s h => absurd h.length (Nat.not_lt_zero _)
  | succ bound ih =>
    obtain ⟨fuel, rfl⟩ := Nat.exists_eq_succ_of_ne_zero (Nat.ne_zero_of_lt hfuel)
    obtain ⟨depth, rfl⟩ := Nat.exists_eq_succ_of_ne_zero (Nat.ne_zero_of_lt hdepth)
    have hbelow := hc.of_le (Nat.le_succ bound)
    have ih : Eats c ctx bound size 3 20 (typeWithin fuel) (Parse.typeWithin depth) :=
      ih hbelow (Nat.le_of_succ_le_succ hfuel) (Nat.le_of_succ_le_succ hdepth)
    intro ts s hts
    unfold typeWithin Parse.typeWithin
    refine Paces.call (Paces.peek hc fun t ht => ?_)
    dsimp only
    cases hscalar : scalar? t.kind with
    | some x =>
      obtain ⟨rest, rfl⟩ := ht fun he => by simp [he, scalar?] at hscalar
      refine Paces.advance_cons hc hts.left fun h => ?_
      exact .done h (by omega) (by omega)
    | none =>
      refine Paces.ite (fun hk => ?_) fun _ => Paces.ite (fun hk => ?_) fun _ => paces_fail hc
      · obtain ⟨rest, rfl⟩ := ht fun he => by simp [he] at hk
        refine Paces.advance_cons hc hts.left fun h => ?_
        refine Paces.expect hc (by decide) h fun _ _ h => ?_
        refine Paces.elementType hc h fun _ _ h => ?_
        refine Paces.closeTypeArgument hc h fun _ h => ?_
        exact .done h (by omega) (by omega)
      · obtain ⟨rest, rfl⟩ := ht fun he => by simp [he] at hk
        refine Paces.advance_cons hc hts.left fun h => ?_
        refine Paces.nextIs hc fun b => ?_
        refine paces_paramTypes hbelow ih hts h (Nat.le_of_succ_le_succ hc.limit) fun _ _ h => ?_
        refine Paces.expect hc (by decide) h fun _ _ h => ?_
        refine Paces.expect hc (by decide) h fun _ _ h => ?_
        refine ih.inside hts h fun _ _ h => ?_
        exact .done h (by omega) (by omega)

theorem eats_type : Eats c ctx bound size 3 20 type Parse.type := fun ts s h =>
  Paces.turns (eats_typeWithin hc hc.fuel hc.limit ts s h)

theorem eats_parameter (required : Bool) :
    Eats c ctx bound size 3 25 (parameter required) (Parse.parameter required) := by
  intro ts s hts
  unfold parameter Parse.parameter
  refine Paces.call (Paces.ident hc hts.left fun name _ h => ?_)
  refine Paces.accept hc (by decide) h ?_ fun _ h => ?_
  · refine Paces.ite (fun _ => Paces.fails hc) fun _ => ?_
    exact .done h (by omega) (by omega)
  · refine (eats_type hc).andThen h fun _ _ h => ?_
    exact .done h (by omega) (by omega)

theorem paces_lambdaParams {fuel turns : Nat} (acc : List Param) {ts : List Token}
    (hfuel : ts.length < fuel) (hturns : ts.length < turns) (h : Met bound size ts) {s : Nat} :
    Paces c ctx (lambdaParams fuel acc) (Parse.lambdaParams turns acc) ts (s + 3)
      (Ate bound size ts 1 (s + 3)) := by
  induction fuel generalizing turns acc ts s with
  | zero => omega
  | succ fuel ih =>
    obtain ⟨turns, rfl⟩ := Nat.exists_eq_succ_of_ne_zero (Nat.ne_zero_of_lt hturns)
    unfold lambdaParams Parse.lambdaParams
    refine (eats_parameter hc false).andThen h.left fun p _ h => ?_
    refine Paces.accept hc (by decide) h ?_ fun _ h => ?_
    · exact .done h (by omega) (by omega)
    · refine Paces.skipNewlines hc h fun _ h => ?_
      have hlt := h.length
      exact (ih _ (by omega) (by omega) h.met).behind h (by omega) (by omega)

/-- The parameters of a lambda with the arrow behind them, and the rest of a rule. -/
theorem paces_lambdaHead {β : Type} {ts us : List Token} {s k : Nat} {R : β → List Token → Nat → Prop}
    {f : List Param → Clocked β} {g : List Param → Parser β} (h : Left bound size us k ts)
    (hf : ∀ ps rest, Left bound size us k rest → Paces c ctx (f ps) (g ps) rest (s + 33) R) :
    Paces c ctx
      (accept .arrow >>= fun b => if b = true then pure [] >>= f
        else turns >>= fun n => lambdaParams n [] >>= fun ps =>
          expect .arrow "',' or '->'" >>= fun _ => pure ps >>= f)
      (accept .arrow >>= fun b => if b = true then pure [] >>= g
        else read >>= fun x => Parse.lambdaParams (x.limit + 1) [] >>= fun ps =>
          expect .arrow "',' or '->'" >>= fun _ => pure ps >>= g) ts (s + 4) R := by
  refine Paces.accept hc (by decide) h (Paces.turns ?_) fun _ h => ?_
  · have hlt := h.met.length
    have hfuel := hc.fuel
    have hlimit := hc.limit
    have hparams := (paces_lambdaParams (s := s) hc [] (Nat.lt_of_lt_of_le hlt hfuel)
      (Nat.lt_of_lt_of_le hlt hlimit) h.met).behind h (Nat.le_add_right k 1) (Nat.le_refl _)
    refine hparams.andThen fun ps _ h => ?_
    refine Paces.expect hc (by decide) h fun _ _ h => ?_
    exact (Paces.done h (Nat.le_succ k) (by omega)).andThen hf
  · exact (Paces.done h (Nat.le_succ k) (by omega)).andThen hf

/-! ## String literals -/

/-- What a piece of a literal is worth: a template has at least one character more than its text. -/
def worth : Template.Piece → Nat
  | .code code => code.length + 1
  | _ => 0

omit hc in
/-- The templates of a literal are worth no more than its length. -/
theorem worth_piecesFrom_le (acc : List Template.Piece) (cs : List Char) :
    ((Template.piecesFrom acc cs).map worth).sum ≤ (acc.map worth).sum + cs.length := by
  fun_induction Template.piecesFrom acc cs with
  | case1 acc => simp
  | case2 acc c => simp [worth]
  | case3 acc => simp [worth]
  | case4 acc cs code rest hbody ih =>
    obtain ⟨own, rfl, hown⟩ := Template.eq_append_of_bracedBody? hbody
    obtain rfl : code = own := hown
    simp only [List.map_cons, List.sum_cons, worth, List.length_cons, List.length_append] at ih ⊢
    omega
  | case5 acc d cs hd hname ih =>
    have hsplit := congrArg List.length
      (List.takeWhile_append_dropWhile (p := Template.continuesName) (l := cs))
    simp only [List.map_cons, List.sum_cons, worth, List.length_cons, List.length_append] at ih hsplit ⊢
    omega
  | case6 acc d cs hd hname ih =>
    simp only [List.map_cons, List.sum_cons, worth, List.length_cons] at ih ⊢
    omega
  | case7 acc c d cs _ ih =>
    simp only [List.map_cons, List.sum_cons, worth, List.length_cons] at ih ⊢
    omega

/-- The pieces of a literal are joined as by the parser. -/
theorem joinPieces_eq (tok : Token) {ps : List Template.Piece} (h : (ps.map worth).sum ≤ size)
    (text : List Char) (k : Nat) (splices : List Splice) :
    ∃ n, n ≤ rate * (ps.map worth).sum ∧ joinPieces (c.template tok) tok text k splices ps =
      ((Parse.joinPieces (ctx.template tok) tok text k splices ps).mapError some, n) := by
  induction ps generalizing text k splices with
  | nil => exact ⟨0, Nat.zero_le _, rfl⟩
  | cons p ps ih =>
    rw [List.map_cons, List.sum_cons] at h
    rw [List.map_cons, List.sum_cons, Nat.mul_add]
    cases p with
    | char ch =>
      obtain ⟨n, hn, heq⟩ := ih (by omega) (ch :: text) (k + 1) splices
      exact ⟨n, by omega, heq⟩
    | unclosed => exact ⟨0, Nat.zero_le _, rfl⟩
    | code code =>
      obtain ⟨n, hn, hcode⟩ := hc.template tok code (by simp only [worth] at h; omega)
      unfold joinPieces Parse.joinPieces
      rw [hcode]
      cases ctx.template tok code with
      | error d => exact ⟨n, Nat.le_trans hn (Nat.le_add_right _ _), rfl⟩
      | ok e =>
        obtain ⟨m, hm, heq⟩ := ih (by omega) text k (.mk k e :: splices)
        refine ⟨n + m, Nat.add_le_add hn hm, ?_⟩
        change ((joinPieces _ tok text k _ ps).1, _) = _
        rw [heq]

theorem paces_stringLiteral {t : Token} (ht : t.literal.toText.length ≤ size) {ts : List Token}
    {s : Nat} : Paces c ctx (stringLiteral t) (Parse.stringLiteral t) ts
      (s + 1 + rate * t.literal.toText.length) fun _ rest left => rest = ts ∧ left = s := by
  have hworth := worth_piecesFrom_le [] t.literal.toText.toList
  rw [List.map_nil, List.sum_nil, Nat.zero_add, String.length_toList] at hworth
  obtain ⟨n, hn, heq⟩ := joinPieces_eq hc t (Nat.le_trans hworth ht) [] 0 []
  have hle := Nat.le_trans hn (Nat.mul_le_mul_left rate hworth)
  have hclock : stringLiteral t c ts = ((Parse.joinPieces (ctx.template t) t [] 0 []
      (Template.pieces t.literal.toText.toList)).mapError some |>.map fun e => (e, ts), n + 1) := by
    unfold stringLiteral
    rw [Template.pieces, heq]
    cases Parse.joinPieces (ctx.template t) t [] 0 [] (Template.piecesFrom [] t.literal.toText.toList) <;> rfl
  have hrule : Parse.stringLiteral t ctx ts = (Parse.joinPieces (ctx.template t) t [] 0 []
      (Template.pieces t.literal.toText.toList)).map fun e => (e, ts) := by
    unfold Parse.stringLiteral
    rw [bind_of_ok (a := ctx) rfl]
    cases Parse.joinPieces (ctx.template t) t [] 0 [] (Template.pieces t.literal.toText.toList) <;> rfl
  unfold Paces
  rw [hclock, hrule]
  cases Parse.joinPieces (ctx.template t) t [] 0 [] (Template.pieces t.literal.toText.toList) with
  | error d => exact ⟨n + 1, rfl, by omega⟩
  | ok e => exact ⟨n + 1, s, rfl, by omega, rfl, rfl⟩

/-- A string token pays for its templates. -/
theorem paces_stringToken {t : Token} {ts us : List Token} {s k : Nat} (ht : t.kind = .string)
    (h : Left bound size us k (t :: ts)) :
    Paces c ctx (advance >>= fun _ => stringLiteral t) (advance >>= fun _ => Parse.stringLiteral t)
      (t :: ts) (s + 1) (Ate bound size us (k + 1) (s + 30)) := by
  have hliteral := h.met.literal t List.mem_cons_self ht
  refine (paces_step hc plain_advance (Q := fun _ rest left =>
    rest = ts ∧ left = s + 30 + 1 + rate * t.literal.toText.length) fun a rest ha => ?_).bind
      fun a rest left hq => ?_
  · obtain ⟨rfl, rfl⟩ := of_advance ha
    refine ⟨_, ?_, rfl, rfl⟩
    simp only [load, weight, literalLength, ht, if_true, List.length_cons, Nat.mul_add]
    unfold rate
    omega
  · obtain ⟨rfl, rfl⟩ := hq
    refine (paces_stringLiteral hc hliteral).weaken fun _ rest left hq => ?_
    obtain ⟨rfl, rfl⟩ := hq
    exact ⟨_, Nat.le_refl _, h.cons, rfl⟩

/-! ## Primary expressions -/

section Primary

variable {expr : Clocked Expr} {expr' : Parser Expr} (hexpr : Eats c ctx bound size 19 7 expr expr')

include hexpr

theorem eats_target : Eats c ctx bound size 3 25 (target expr) (Parse.target expr') := by
  intro ts s hts
  unfold target Parse.target
  refine Paces.call (Paces.ident hc hts.left fun base _ h => ?_)
  refine Paces.nextIs hc fun b => Paces.ite (fun _ => ?_) fun _ => ?_
  · refine Paces.advance hc h fun bracket _ h => ?_
    refine Paces.skipNewlines hc h fun _ h => ?_
    refine hexpr.andThen h fun index _ h => ?_
    refine Paces.skipNewlines hc h fun _ h => ?_
    refine Paces.expect hc (by decide) h fun _ _ h => ?_
    exact .done h (by omega) (by omega)
  · exact .done h (by omega) (by omega)

theorem paces_argumentsAfter {fuel turns : Nat} (acc : List Expr) {ts : List Token}
    (hfuel : ts.length < fuel) (hturns : ts.length < turns) (h : Met bound size ts) {s : Nat} :
    Paces c ctx (argumentsAfter expr fuel acc) (Parse.argumentsAfter expr' turns acc) ts (s + 19)
      (Ate bound size ts 1 (s + 19 + 28)) := by
  induction fuel generalizing turns acc ts s with
  | zero => omega
  | succ fuel ih =>
    obtain ⟨turns, rfl⟩ := Nat.exists_eq_succ_of_ne_zero (Nat.ne_zero_of_lt hturns)
    unfold argumentsAfter Parse.argumentsAfter
    refine hexpr.andThen h.left fun e _ h => ?_
    refine Paces.skipNewlines hc h fun _ h => ?_
    refine Paces.accept hc (by decide) h ?_ fun _ h => ?_
    · refine Paces.expect hc (by decide) h fun _ _ h => ?_
      exact .done h (by omega) (by omega)
    · refine Paces.skipNewlines hc h fun _ h => ?_
      have hlt := h.length
      exact (ih _ (by omega) (by omega) h.met).behind h (by omega) (by omega)

theorem eats_arguments : Eats c ctx bound size 22 25 (arguments expr) (Parse.arguments expr') := by
  intro ts s hts
  unfold arguments Parse.arguments
  refine Paces.call (Paces.skipNewlines hc hts.left fun _ h => ?_)
  refine Paces.accept hc (by decide) h ?_ fun _ h => ?_
  · have hlt := h.met.length
    have hfuel := hc.fuel
    have hlimit := hc.limit
    refine Paces.turns ?_
    exact (paces_argumentsAfter hc hexpr [] (by omega) (by omega) h.met).behind h (by omega) (by omega)
  · exact .done h (by omega) (by omega)

theorem eats_callOf : Eats c ctx bound size 3 25 (callOf expr) (Parse.call expr') := by
  intro ts s hts
  unfold callOf Parse.call
  refine Paces.call (Paces.ident hc hts.left fun callee _ h => ?_)
  refine Paces.expect hc (by decide) h fun paren _ h => ?_
  refine (eats_arguments hc hexpr).andThen h fun args _ h => ?_
  exact .done h (by omega) (by omega)

theorem eats_prefixed : Eats c ctx bound size 5 23 (prefixed expr) (Parse.prefixed expr') := by
  intro ts s hts
  unfold prefixed Parse.prefixed
  refine Paces.call (Paces.advance hc hts.left fun op _ h => ?_)
  refine (eats_target hc hexpr).andThen h fun t _ h => ?_
  exact .done h (by omega) (by omega)

theorem eats_named : Eats c ctx bound size 5 22 (named expr) (Parse.named expr') := by
  intro ts s hts
  unfold named Parse.named
  refine Paces.call (Paces.peekSecond hc fun t => Paces.ite (fun _ => ?_) fun _ => ?_)
  · refine (eats_callOf hc hexpr).andThen hts.left fun call _ h => ?_
    exact .done h (by omega) (by omega)
  · refine (eats_target hc hexpr).andThen hts.left fun t _ h => ?_
    refine Paces.accept? hc (by decide) h ?_ fun op _ h => ?_
    · exact .done h (by omega) (by omega)
    · exact .done h (by omega) (by omega)

theorem eats_lambda : Eats c ctx bound size 7 25 (lambda expr) (Parse.lambda expr') := by
  intro ts s hts
  unfold lambda Parse.lambda
  refine Paces.call (Paces.advance hc hts.left fun brace _ h => ?_)
  refine Paces.skipNewlines hc h fun _ h => ?_
  refine paces_lambdaHead hc h fun ps _ h => ?_
  refine Paces.checkParams hc ?_
  refine Paces.skipNewlines hc h fun _ h => ?_
  refine hexpr.andThen h fun body _ h => ?_
  refine Paces.skipNewlines hc h fun _ h => ?_
  refine Paces.expect hc (by decide) h fun _ _ h => ?_
  exact .done h (by omega) (by omega)

theorem eats_collectionLiteral (kind : CollectionKind) :
    Eats c ctx bound size 3 25 (collectionLiteral kind expr) (Parse.collectionLiteral kind expr') := by
  intro ts s hts
  unfold collectionLiteral Parse.collectionLiteral
  refine Paces.call (Paces.advance hc hts.left fun tok _ h => ?_)
  refine Paces.expect hc (by decide) h fun _ _ h => ?_
  refine Paces.skipNewlines hc h fun _ h => ?_
  refine Paces.nextIs hc fun b => Paces.ite (fun _ => Paces.failsAt hc) fun _ => ?_
  refine (eats_arguments hc hexpr).andThen h fun args _ h => ?_
  exact .done h (by omega) (by omega)

theorem eats_generator : Eats c ctx bound size 8 24 (generator expr) (Parse.generator expr') := by
  intro ts s hts
  unfold generator Parse.generator
  refine Paces.nextIs hc fun b => Paces.ite (fun _ => ?_) fun _ => paces_fail hc
  exact (eats_lambda hc hexpr ts _ hts).behind hts.left (by omega) (by omega)

theorem eats_sizedConstructor (kind : CollectionKind) :
    Eats c ctx bound size 3 25 (sizedConstructor kind expr) (Parse.sizedConstructor kind expr') := by
  intro ts s hts
  unfold sizedConstructor Parse.sizedConstructor
  refine Paces.call (Paces.advance hc hts.left fun tok _ h => ?_)
  refine Paces.expect hc (by decide) h fun _ _ h => ?_
  refine Paces.skipNewlines hc h fun _ h => ?_
  refine hexpr.andThen h fun size _ h => ?_
  refine Paces.skipNewlines hc h fun _ h => ?_
  refine Paces.accept hc (by decide) h ?_ fun _ h => ?_
  · refine Paces.expect hc (by decide) h fun _ _ h => ?_
    refine (eats_generator hc hexpr).andThen h fun gen _ h => ?_
    exact .done h (by omega) (by omega)
  · refine Paces.skipNewlines hc h fun _ h => ?_
    refine (eats_generator hc hexpr).andThen h fun gen _ h => ?_
    refine Paces.skipNewlines hc h fun _ h => ?_
    refine Paces.expect hc (by decide) h fun _ _ h => ?_
    exact .done h (by omega) (by omega)

theorem paces_parenthesized {t : Token} {ts us : List Token} {s k : Nat}
    (h : Left bound size us k (t :: ts)) :
    Paces c ctx (parenthesized expr) (Parse.parenthesized expr') (t :: ts) (s + 1)
      (Ate bound size us (k + 1) (s + 30)) := by
  unfold parenthesized Parse.parenthesized
  refine Paces.advance_cons hc h fun h => ?_
  refine Paces.skipNewlines hc h fun _ h => ?_
  refine hexpr.andThen h fun e _ h => ?_
  refine Paces.skipNewlines hc h fun _ h => ?_
  refine Paces.expect hc (by decide) h fun _ _ h => ?_
  exact .done h (by omega) (by omega)

theorem eats_primary : Eats c ctx bound size 10 20 (primary expr) (Parse.primary expr') := by
  intro ts s hts
  unfold primary Parse.primary
  refine Paces.call (Paces.peek hc fun t ht => ?_)
  have hend (e : Expr) (hk : t.kind ≠ .eof) :
      Paces c ctx (advance >>= fun _ => pure e) (advance >>= fun _ => pure e) ts (s + 8)
        (Ate bound size ts 1 (s + 10 + 20)) := by
    obtain ⟨rest, rfl⟩ := ht hk
    refine Paces.advance_cons hc hts.left fun h => ?_
    exact .done h (by omega) (by omega)
  cases hk : t.kind with
  | int =>
    obtain ⟨rest, rfl⟩ := ht (by simp [hk])
    refine Paces.advance_cons hc hts.left fun h => ?_
    cases t.literal with
    | _ => exact .done h (by omega) (by omega)
  | kwTrue => exact hend _ (by simp [hk])
  | kwFalse => exact hend _ (by simp [hk])
  | string =>
    obtain ⟨rest, rfl⟩ := ht (by simp [hk])
    exact (paces_stringToken hc hk hts.left).mono (by omega)
  | lparen =>
    obtain ⟨rest, rfl⟩ := ht (by simp [hk])
    exact (paces_parenthesized hc hexpr hts.left).mono (by omega)
  | increment | decrement =>
    refine (eats_prefixed hc hexpr).andThen hts.left fun e _ h => ?_
    exact .done h (by omega) (by omega)
  | ident => exact (eats_named hc hexpr ts _ hts).behind hts.left (by omega) (by omega)
  | lbrace =>
    refine (eats_lambda hc hexpr).andThen hts.left fun l _ h => ?_
    exact .done h (by omega) (by omega)
  | kwArrayOf | kwMutableListOf =>
    exact (eats_collectionLiteral hc hexpr _ ts _ hts).behind hts.left (by omega) (by omega)
  | tyArray | tyMutableList =>
    exact (eats_sizedConstructor hc hexpr _ ts _ hts).behind hts.left (by omega) (by omega)
  | _ => exact paces_fail hc

end Primary

/-! ## Operators -/

section Chain

variable {kinds : List Token.Kind} {make : Mark → String → Expr → Expr → Expr}
  {operand : Clocked Expr} {operand' : Parser Expr} {need gain : Nat} (hkinds : .eof ∉ kinds)
  (hneed : need ≤ 30) (hoperand : Eats c ctx bound size need (gain + 2) operand operand')

include hkinds hneed hoperand

theorem paces_chainAfter {fuel turns : Nat} (left : Expr) {ts : List Token} (hfuel : ts.length < fuel)
    (hturns : ts.length < turns) (h : Met bound size ts) {s : Nat} :
    Paces c ctx (chainAfter kinds make operand fuel left)
      (Parse.chainAfter kinds make operand' turns left) ts (s + 1) (Ate bound size ts 0 s) := by
  induction fuel generalizing turns left ts s with
  | zero => omega
  | succ fuel ih =>
    obtain ⟨turns, rfl⟩ := Nat.exists_eq_succ_of_ne_zero (Nat.ne_zero_of_lt hturns)
    unfold chainAfter Parse.chainAfter
    refine Paces.accept? hc hkinds h.left (.done h.left (Nat.le_refl 0) (Nat.le_refl s)) fun op _ h => ?_
    refine Paces.skipNewlines hc h fun _ h => ?_
    refine Paces.mono ?_ (Nat.add_le_add_left hneed s)
    refine hoperand.andThen h fun right _ h => ?_
    have hlt := h.length
    exact ((ih _ (by omega) (by omega) h.met).behind h (Nat.zero_le _) (Nat.le_refl s)).mono (by omega)

theorem eats_chain : Eats c ctx bound size (need + 1) gain (chain kinds make operand)
    (Parse.chain kinds make operand') := by
  intro ts s hts
  unfold chain Parse.chain
  refine Paces.call (hoperand.andThen hts.left fun first _ h => Paces.turns ?_)
  have hlt := h.length
  have hbound := hts.length
  have hfuel := hc.fuel
  have hlimit := hc.limit
  exact ((paces_chainAfter hc hkinds hneed hoperand first (by omega) (by omega) h.met).behind h
    (by omega) (Nat.le_refl _)).mono (by omega)

end Chain

section Levels

variable {unary : Clocked Expr} {unary' : Parser Expr} (hunary : Eats c ctx bound size 12 18 unary unary')

include hunary

theorem eats_multiplicative :
    Eats c ctx bound size 14 15 (multiplicative unary) (Parse.multiplicative unary') :=
  fun ts s h => Paces.call ((eats_chain hc (by decide) (by decide) hunary ts s h).behind h.left
    (by omega) (by omega))

theorem eats_additive : Eats c ctx bound size 16 12 (additive unary) (Parse.additive unary') :=
  fun ts s h => Paces.call ((eats_chain hc (by decide) (by decide) (eats_multiplicative hc hunary)
    ts s h).behind h.left (by omega) (by omega))

theorem eats_comparison : Eats c ctx bound size 17 10 (comparison unary) (Parse.comparison unary') := by
  intro ts s hts
  unfold comparison Parse.comparison
  refine Paces.call ((eats_additive hc hunary).andThen hts.left fun left _ h => ?_)
  refine Paces.accept? hc (by decide) h ?_ fun op _ h => ?_
  · exact .done h (by omega) (by omega)
  · refine Paces.skipNewlines hc h fun _ h => ?_
    refine (eats_additive hc hunary).andThen h fun right _ h => ?_
    exact .done h (by omega) (by omega)

theorem eats_logical : Eats c ctx bound size 18 8 (logical unary) (Parse.logical unary') :=
  eats_chain hc (by decide) (by decide) (eats_comparison hc hunary)

end Levels

/-- A unary expression, whether one more `!` is allowed or not. -/
theorem eats_unary {inner : Option (Clocked Expr)} {inner' : Option (Parser Expr)} {expr : Clocked Expr}
    {expr' : Parser Expr} (hexpr : Eats c ctx bound size 19 7 expr expr')
    (hinner : Option.Rel (Eats c ctx bound size 12 18) inner inner') :
    Eats c ctx bound size 12 18 (unary inner expr) (Parse.unary inner' expr') := by
  intro ts s hts
  unfold unary Parse.unary
  refine Paces.call (Paces.accept? hc (by decide) hts.left ?_ fun bang _ h => ?_)
  · exact (eats_primary hc hexpr ts s hts).behind hts.left (by omega) (by omega)
  · cases hinner with
    | none => exact paces_failAt hc
    | some hrule =>
      refine hrule.andThen h fun e _ h => ?_
      exact .done h (by omega) (by omega)

/-- Expressions of every depth, and those without a binary operator outside. -/
theorem eats_level (depth : Nat) :
    Eats c ctx bound size 19 7 (level depth).expr (Parse.level depth).expr ∧
      Eats c ctx bound size 12 18 (level depth).unary (Parse.level depth).unary := by
  induction depth with
  | zero =>
    have hdeep : Eats c ctx bound size 19 7 (level 0).expr (Parse.level 0).expr :=
      fun ts s _ => Paces.call (paces_fail hc)
    exact ⟨hdeep, eats_unary hc hdeep .none⟩
  | succ depth ih =>
    have hexpr : Eats c ctx bound size 19 7 (level (depth + 1)).expr (Parse.level (depth + 1)).expr :=
      fun ts s h => Paces.call ((eats_logical hc ih.2 ts s h).behind h.left (by omega) (by omega))
    exact ⟨hexpr, eats_unary hc hexpr (.some ih.2)⟩

theorem eats_expr : Eats c ctx bound size 19 7 expr Parse.expr := (eats_level hc maxDepth).1

/-- Tokens that should be one expression. -/
theorem paces_wholeExpr {ts : List Token} {s : Nat} (h : Met bound size ts) :
    Paces c ctx wholeExpr Parse.wholeExpr ts (s + 21) fun _ _ _ => True := by
  unfold wholeExpr Parse.wholeExpr
  refine Paces.call (Paces.skipNewlines hc h.left fun _ h => ?_)
  refine (eats_expr hc).andThen h fun e _ h => ?_
  refine Paces.skipNewlines hc h fun _ h => ?_
  refine Paces.atEnd hc fun b => Paces.ite (fun _ => ?_) fun _ => paces_fail hc
  exact (Paces.done h (Nat.le_refl _) (Nat.le_refl _)).weaken fun _ _ left _ => ⟨left, Nat.le_refl _, trivial⟩

/-! ## Templates -/

section Templates

open Token

omit hc

/-- A token is worth no more than its spelling. -/
theorem weight_turn {prev : Option Kind} {p : Pos} (turn : Turn prev p) :
    weight turn.token ≤ turn.spelling.length := by
  have hlength : turn.spelling.length = turn.lexeme.chars.length := by
    rw [← turn.spelled, Text.chars, List.length_map]
  rw [hlength]
  unfold weight literalLength
  split
  · rename_i hk
    have hbody := length_stringBody ['"'] [] turn.tail
    rw [← eq_stringBody_of_readLexeme turn.reads hk] at hbody
    simp only [List.length_cons, List.length_nil] at hbody
    simp only [Turn.token]
    omega
  · exact List.length_pos_iff.mpr (chars_ne_nil_of_readLexeme turn.reads)

theorem load_reverse (ts : List Token) : load ts.reverse = load ts := by
  induction ts with
  | nil => rfl
  | cons t ts ih => simp [load_append, load, ih, Nat.add_comm]

theorem load_scanFrom_le {steps : Nat} {acc tokens : List Token} {p : Pos} {text : Text}
    (h : scanFrom steps acc p text text.chars = .ok tokens) :
    load tokens ≤ load acc + text.length := by
  induction steps generalizing acc p text with
  | zero =>
    cases h
    rw [load_reverse]
    exact Nat.le_add_right _ _
  | succ steps ih =>
    rcases turn_of_scanFrom h with ⟨turn, rfl, hrest⟩ | ⟨-, rfl⟩
    · have hload := ih hrest
      have hweight := weight_turn turn
      simp only [load, Turn.text, List.length_append] at hload ⊢
      omega
    · rw [load_reverse]
      exact Nat.le_add_right _ _

/-- A text is at least as long as its tokens are worth. -/
theorem load_scan_le {text : Text} {tokens : List Token} (h : scan text = .ok tokens) :
    load tokens ≤ text.length := by
  simpa [load] using load_scanFrom_le h

theorem weight_le_load {t : Token} {ts : List Token} (h : t ∈ ts) : weight t ≤ load ts := by
  induction ts with
  | nil => cases h
  | cons u ts ih =>
    rcases List.mem_cons.mp h with rfl | h
    · exact Nat.le_add_right _ _
    · exact Nat.le_trans (ih h) (Nat.le_add_left _ _)

/-- A template is read as by the parser, within what its text pays for. -/
theorem templateWithin_eq {fuel depth depth' : Nat} (tok : Token) {text : List Char}
    (hfuel : text.length < fuel) (hdepth : text.length < depth) (hdepth' : text.length < depth') :
    ∃ n, n ≤ rate * (text.length + 1) ∧
      templateWithin fuel depth tok text = ((Parse.templateWithin depth' tok text).mapError some, n) := by
  induction depth generalizing depth' tok text with
  | zero => omega
  | succ depth ih =>
    obtain ⟨depth', rfl⟩ := Nat.exists_eq_succ_of_ne_zero (Nat.ne_zero_of_lt hdepth')
    unfold templateWithin Parse.templateWithin
    cases hscan : Token.scan text with
    | error d => exact ⟨1, by unfold rate; omega, rfl⟩
    | ok tokens =>
      have hload := load_scan_le hscan
      rw [Text.length_ofChars] at hload
      have hlength := length_le_load tokens
      have hfits : Fits ⟨endToken tokens, fuel, templateWithin fuel depth⟩
          ⟨endToken tokens, tokens.length, Parse.templateWithin depth'⟩ (tokens.length + 1) text.length :=
        ⟨rfl, endToken_kind tokens, by simp only; omega, Nat.le_refl _, fun tok' inner hinner =>
          ih tok' (by omega) (by omega) (by omega)⟩
      have hmet : Met (tokens.length + 1) text.length tokens :=
        ⟨Nat.lt_succ_self _, fun t ht hkind => by
          have hweight := weight_le_load ht
          simp only [weight, literalLength, hkind, if_true] at hweight
          omega⟩
      obtain ⟨n, hn, hwhole⟩ := (paces_wholeExpr (s := 0) hfits hmet).total
      refine ⟨n + 1, by unfold rate at hn ⊢; omega, ?_⟩
      dsimp only
      rw [hwhole]
      cases Parse.wholeExpr ⟨endToken tokens, tokens.length, Parse.templateWithin depth'⟩ tokens <;> rfl

end Templates

end Clocked
end Kotlet

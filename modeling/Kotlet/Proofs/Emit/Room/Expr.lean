import Kotlet.Proofs.Emit.Room

/-!
# Room for the code of an expression

* `Piece.Spends` : an expression neither use of which exceeds a limit where there is room;
* `spends_template`, `spends_incDec`, `spends_sized`, `spends_lambda`, `spends_call` and their kin : what
  each form of an expression takes;
* `Expr.room` : how many steps are charged for an expression, and `Expr.spends` : they are enough.
-/

namespace Kotlet
namespace Emit

open ClassFile

/-- Where there is room for `k` steps, neither use of the expression exceeds a limit. -/
structure Piece.Spends (p : Piece) (k : Nat) : Prop where
  value : Emit.Spends p.value k
  jump : ∀ want l, Emit.Spends (p.jump want l) k

theorem Piece.Spends.le {p : Piece} {j k : Nat} (h : p.Spends j) (hle : j ≤ k) : p.Spends k :=
  ⟨h.value.le hle, fun want l => (h.jump want l).le hle⟩

theorem piece_ofValue {e : Expr} {value : Emit Unit} {k : Nat} (h : Spends value k) :
    (Piece.ofValue e value).Spends (k + 1) :=
  ⟨h.le (Nat.le_succ k), fun _ l => (h.seq fun _ => spends_jump _ l).le (by omega)⟩

theorem spends_materialize {branch : Bool → Nat → Emit Unit} {k : Nat}
    (h : ∀ want l, Spends (branch want l) k) : Spends (materialize branch) (k + 3) := by
  unfold materialize
  refine Costs.le (spends_newLabel.seq fun isTrue => spends_newLabel.seq fun done =>
    (h true isTrue).seq fun _ => (spends_pushInt 0).seq fun _ => (spends_jump _ done).seq fun _ =>
      (spends_bindLabel isTrue).seq fun _ => (spends_pushInt 1).seq fun _ => spends_bindLabel done) ?_
  omega

theorem piece_ofJump {e : Expr} {branch : Bool → Nat → Emit Unit} {k : Nat}
    (h : ∀ want l, Spends (branch want l) k) : (Piece.ofJump e branch).Spends (k + 3) :=
  ⟨spends_materialize h, fun want l => (h want l).le (Nat.le_add_right k 3)⟩

theorem spends_valueAs {p : Piece} {k : Nat} (h : p.Spends k) (want : Ty) :
    Spends (valueAs p want) (k + 1) :=
  ((spends_typeOf p.expr).seq fun t => h.value.seq fun _ => spends_coerce t want).le (by omega)

/-! ### Texts -/

theorem spends_callShow : Spends callShow 1 := by
  unfold callShow
  refine Costs.seq (j := 0) (k := 1) (spends_modify fun hs => { hs with }) fun _ => ?_
  exact costs_read.bind (k := 1) fun env henv => spends_callStatic
    ⟨henv.unit, isShort_showName⟩

theorem spends_printable {p : Piece} {k : Nat} (h : p.Spends k) : Spends (printable p) (k + 1) := by
  unfold printable
  refine Costs.le ((spends_typeOf p.expr).seq (k := 1 + k) fun t => h.value.seq (k := 1) fun _ => ?_)
    (by omega)
  split
  · exact (spends_callShow.seq fun _ => costs_pure trivial).le (by decide)
  · split
    · rename_i s _
      have htext : Member.IsShort ⟨Jvm.arrays, "toString", arrayTextDescriptor s⟩ := by
        cases s <;> decide
      exact ((spends_callStatic htext).seq fun _ => costs_pure trivial).le (by decide)
    · exact (spends_nothing.seq fun _ => costs_pure trivial).le (by decide)

theorem spends_append {desc : String}
    (h : Pool.IsShort (Jvm.method [desc] (Jvm.reference Jvm.stringBuilder))) :
    Spends (append desc) 1 :=
  spends_callVirtual
    ⟨(by decide : Pool.IsShort Jvm.stringBuilder), (by decide : Pool.IsShort "append"), h⟩

theorem spends_appendChars {cs : List Char} (h : cs.length ≤ most) : Spends (appendChars cs) 2 := by
  unfold appendChars
  split
  · exact spends_nothing.le (by decide)
  · refine (spends_pushString (Pool.isShort_of_length ?_)).seq fun _ => spends_append (by decide)
    rw [String.length_ofList]
    exact Nat.le_trans h (by decide)

/-- Where there is room for `k` steps, the code of templates exceeds no limit. -/
def SplicesSpend : Nat → List (Int × Piece) → Prop
  | _, [] => True
  | k, (_, p) :: splices => ∃ i j, p.Spends i ∧ SplicesSpend j splices ∧ i + j + 4 ≤ k

theorem spends_appendSplices {tok : Token} : ∀ {splices : List (Int × Piece)} {k pos : Nat}
    {rest : List Char}, rest.length ≤ most → SplicesSpend k splices →
      Spends (appendSplices tok pos rest splices) (k + 2)
  | [], k, _, _, hr, _ => (spends_appendChars hr).le (Nat.le_add_left 2 k)
  | (offset, p) :: splices, k, pos, rest, hr, ⟨i, j, hp, hps, hle⟩ => by
    unfold appendSplices
    dsimp only
    split
    · exact costs_reject_bind rfl
    have htake : (rest.take (offset - pos).toNat).length ≤ most :=
      Nat.le_trans (List.length_take_le' _ _) hr
    have hdrop : (rest.drop (offset - pos).toNat).length ≤ most := by
      rw [List.length_drop]
      omega
    exact Costs.le ((spends_appendChars htake).seq fun _ => (spends_printable hp).seq fun t =>
      (spends_append (isShort_printing t (by decide))).seq fun _ =>
        spends_appendSplices hdrop hps) (by omega)

theorem spends_template {tok : Token} {text : String} {splices : List (Int × Piece)} {k : Nat}
    (ht : text.length ≤ most) (h : SplicesSpend k splices) :
    Spends (template tok text splices) (k + 6) := by
  rw [← String.length_toList] at ht
  exact Costs.le ((spends_onClass _ (by decide)).seq fun _ => (spends_op _).seq fun _ =>
    (spends_callInit (by decide)).seq fun _ => (spends_appendSplices ht h).seq fun _ =>
      spends_callVirtual (by decide)) (by omega)

/-! ### Variables and elements -/

theorem spends_readName (id : Ident) : Spends (readName id) 7 := by
  unfold readName
  refine (spends_symbolOf id).seq (k := 7) fun sym => ?_
  split
  · refine costs_read.bind (k := 7) fun env henv => ?_
    split
    · exact costs_reject rfl
    · rename_i f hf
      refine (costs_methodOf sym.name).bind (k := 7) fun name hname => ?_
      have hparams := henv.params f (List.mem_of_find?_eq_some hf)
      exact spends_methodHandle hname (isShort_methodDescriptor hparams _)
  · exact ((costs_variableOf id).bind fun l hl => spends_load hl).le (by decide)

variable {index value : Piece} {j k : Nat}

theorem spends_elementPlace (m : Mark) (base : Ident) (h : index.Spends k) :
    Spends (elementPlace m base index) (k + 1) := by
  unfold elementPlace
  refine (costs_variableOf base).bind (k := k + 1) fun l hl => ?_
  dsimp only
  split
  · exact ((spends_load hl).seq fun _ => h.value.seq fun _ => costs_pure trivial).le (by omega)
  · exact ((spends_load hl).seq fun _ => h.value.seq fun _ => costs_pure trivial).le (by omega)
  · exact costs_reject_bind rfl

theorem spends_loadElement (kind : CollectionKind) (s : Scalar) : Spends (loadElement kind s) 3 := by
  cases kind with
  | list => exact spends_listGet _
  | array => exact (spends_op _).le (by decide)

theorem spends_loadInt (kind : CollectionKind) : Spends (loadInt kind) 3 := by
  cases kind with
  | list => exact spends_listGet _
  | array => exact (spends_op _).le (by decide)

theorem spends_storeInt (kind : CollectionKind) : Spends (storeInt kind) 3 := by
  cases kind with
  | list => exact (spends_box .int).seq fun _ => spends_listSet
  | array => exact (spends_op _).le (by decide)

/-- Where there is room for `k` steps, the code of the index exceeds no limit. -/
def Place.Spends (k : Nat) : Place → Prop
  | .name _ => True
  | .element _ _ index => index.Spends k

theorem spends_read {place : Place} (h : place.Spends k) : Spends place.read (k + 7) := by
  cases place with
  | name id => exact (spends_readName id).le (by omega)
  | element m base index =>
    exact ((spends_elementPlace m base h).seq fun x => spends_loadElement x.1 x.2).le (by omega)

theorem spends_incDec {sign : String} {before : Bool} {place : Place} (h : place.Spends k) :
    Spends (incDec sign before place) (k + 12) := by
  cases place with
  | name id =>
    refine Costs.le ((costs_variableOf id).bind (k := 2) fun l hl => ?_) (by omega)
    split
    · exact (spends_increment l _).seq fun _ => spends_load hl
    · exact (spends_load hl).seq fun _ => spends_increment l _
  | element m base index =>
    unfold incDec
    refine Costs.le ((spends_elementPlace m base h).seq (k := 11) fun x => ?_) (by omega)
    refine ((spends_op _).seq (k := 10) fun _ => (spends_loadInt x.1).seq (k := 7) fun _ => ?_)
    cases before with
    | true =>
      exact Costs.le ((spends_pushInt _).seq fun _ => (spends_op _).seq fun _ =>
        (spends_op _).seq fun _ => spends_storeInt x.1) (by decide)
    | false =>
      exact Costs.le ((spends_op _).seq fun _ => (spends_pushInt _).seq fun _ =>
        (spends_op _).seq fun _ => spends_storeInt x.1) (by decide)

/-! ### Operators -/

variable {left right : Piece}

theorem spends_arithmetic (tok : Token) (sign : String) (hl : left.Spends j) (hr : right.Spends k) :
    Spends (arithmetic tok sign left right) (j + k + 1) := by
  unfold arithmetic
  refine Costs.le (hl.value.seq fun _ => hr.value.seq (k := 1) fun _ => ?_) (by omega)
  split
  · exact spends_op _
  · exact costs_reject rfl

theorem spends_connective (sign : String) (hl : left.Spends j) (hr : right.Spends k) (want : Bool)
    (l : Nat) : Spends (connective sign left right want l) (j + k) := by
  unfold connective
  split
  · exact Costs.le (spends_newLabel.seq fun skip => (hl.jump (!want) skip).seq fun _ =>
      (hr.jump want l).seq fun _ => spends_bindLabel skip) (by omega)
  · exact Costs.le ((hl.jump want l).seq fun _ => hr.jump want l) (by omega)

theorem spends_comparison (tok : Token) (sign : String) (hl : left.Spends j) (hr : right.Spends k)
    (want : Bool) (l : Nat) : Spends (comparison tok sign left right want l) (j + k + 2) := by
  unfold comparison
  refine Costs.le ((spends_typeOf left.expr).seq (k := j + k + 2) fun t => ?_) (by omega)
  split
  · exact costs_reject rfl
  rename_i o _
  refine Costs.le (hl.value.seq (k := k + 2) fun _ => ?_) (by omega)
  dsimp only
  split
  · refine Costs.le (hr.value.seq (k := 2) fun _ => ?_) (by omega)
    split
    · exact ((spends_callVirtual (by decide)).seq fun _ => spends_jump _ l).le (by decide)
    · exact ((spends_callVirtual (by decide)).seq fun _ => spends_jump _ l).le (by decide)
  · split
    · exact (spends_jump _ l).le (by omega)
    · exact (hr.value.seq fun _ => spends_jump _ l).le (by omega)

/-! ### Collections -/

/-- Where there is room for `k` steps, the code of the pieces exceeds no limit. Each of them is charged
for a parameter, too. -/
def PiecesSpend : Nat → List Piece → Prop
  | _, [] => True
  | k, p :: ps => ∃ i j, p.Spends i ∧ PiecesSpend j ps ∧ i + j + 28 ≤ k

theorem PiecesSpend.length_le : ∀ {ps : List Piece} {k : Nat}, PiecesSpend k ps →
    28 * ps.length ≤ k
  | [], k, _ => Nat.zero_le k
  | _ :: _, _, ⟨_, _, _, hps, hle⟩ => by
    have := hps.length_le
    rw [List.length_cons]
    omega

theorem spends_addAll : ∀ {ps : List Piece} {k : Nat}, PiecesSpend k ps → Spends (addAll ps) k
  | [], _, _ => spends_nothing.le (Nat.zero_le _)
  | _ :: _, _, ⟨_, _, hp, hps, hle⟩ => Costs.le ((spends_op _).seq fun _ =>
      (spends_valueAs hp _).seq fun _ => spends_listAdd.seq fun _ => spends_addAll hps) (by omega)

theorem spends_storeAll (t : Ty) (o : Opcode) : ∀ {ps : List Piece} {k i : Nat},
    PiecesSpend k ps → Spends (storeAll t o i ps) k
  | [], _, _, _ => spends_nothing.le (Nat.zero_le _)
  | _ :: _, _, _, ⟨_, _, hp, hps, hle⟩ => Costs.le ((spends_op _).seq fun _ =>
      (spends_pushInt _).seq fun _ => (spends_valueAs hp _).seq fun _ => (spends_op _).seq fun _ =>
        spends_storeAll t o hps) (by omega)

theorem spends_collectionParts (e : Expr) : Spends (collectionParts e) 0 := by
  unfold collectionParts
  refine (spends_typeOf e).seq (k := 0) fun t => ?_
  split
  · exact costs_pure trivial
  · exact costs_pure trivial
  · exact costs_reject rfl

theorem spends_collection (e : Expr) {ps : List Piece} (h : PiecesSpend k ps) :
    Spends (collection e ps) (k + 5) := by
  unfold collection
  refine Costs.le ((spends_collectionParts e).seq (k := k + 5) fun x => ?_) (by omega)
  refine (spends_pushInt _).seq (k := k + 4) fun _ => ?_
  obtain ⟨t, kind, s⟩ := x
  cases kind with
  | list => exact (spends_newList.seq fun _ => spends_addAll h).le (by omega)
  | array => exact ((spends_newArray s).seq fun _ => spends_storeAll _ _ h).le (by omega)

theorem spends_sized {e : Expr} {size body : Piece} {gen : Mark} {params : List Param}
    (hs : size.Spends j) (hb : body.Spends k) :
    Spends (sized e size gen params body) (j + k + 24) := by
  unfold sized
  refine Costs.le ((spends_collectionParts e).seq (k := j + k + 24) fun x => ?_) (by omega)
  obtain ⟨t, kind, s⟩ := x
  dsimp only
  split
  case h_2 => exact costs_reject_bind rfl
  rw [pure_bind]
  refine (spends_symbolOf _).seq (k := j + k + 24) fun index => ?_
  refine Costs.le (hs.value.seq (k := k + 24) fun _ => ?_) (by omega)
  refine (costs_scratch _ _).bind (k := k + 23) fun count hc => ?_
  refine (spends_store hc).seq (k := k + 22) fun _ => (spends_load hc).seq (k := k + 21) fun _ => ?_
  cases kind
  case' list => refine spends_newList.seq (k := k + 17) fun _ => ?_
  case' array =>
    have hnew : Spends (newArray s) 4 := (spends_newArray s).le (by decide)
    refine hnew.seq (k := k + 17) fun _ => ?_
  all_goals
    refine (costs_scratch _ _).bind (k := k + 16) fun result hr => ?_
    refine (spends_store hr).seq (k := k + 15) fun _ => (spends_pushInt 0).seq (k := k + 14) fun _ => ?_
    refine (costs_declare _ _).bind (k := k + 13) fun i hi => (spends_store hi).seq (k := k + 12) ?_
    refine fun _ => spends_newLabel.seq fun top => spends_newLabel.seq fun exit => ?_
    refine (spends_bindLabel top).seq fun _ => (spends_load hi).seq (k := k + 11) fun _ => ?_
    refine (spends_load hc).seq (k := k + 10) fun _ => (spends_jump _ exit).seq (k := k + 9) fun _ => ?_
    refine (spends_load hr).seq (k := k + 8) fun _ => ?_
  case list =>
    refine Costs.le ((spends_valueAs hb _).seq fun _ => spends_listAdd.seq fun _ =>
      (spends_increment i 1).seq fun _ => (spends_jump _ top).seq fun _ =>
        (spends_bindLabel exit).seq fun _ => spends_load hr) (by omega)
  case array =>
    refine Costs.le ((spends_load hi).seq fun _ => (spends_valueAs hb _).seq fun _ =>
      (spends_op _).seq fun _ => (spends_increment i 1).seq fun _ => (spends_jump _ top).seq fun _ =>
        (spends_bindLabel exit).seq fun _ => spends_load hr) (by omega)

/-! ### Functions -/

theorem spends_lambdaResult {body : Piece} (h : body.Spends k) (result : Ty) :
    Spends (lambdaResult body result) (k + 2) := by
  unfold lambdaResult
  refine Costs.le ((spends_typeOf body.expr).seq (k := 2 + k) fun t => h.value.seq (k := 2) fun _ => ?_)
    (by omega)
  split
  · split
    · exact (spends_op _).seq fun _ => spends_op _
    · exact (spends_nothing.seq fun _ => spends_op _).le (by decide)
  · exact (spends_coerce t result).seq fun _ => spends_op _

theorem costs_paramSymbols : ∀ params : List Param,
    Costs (paramSymbols params) 0 fun syms => syms.length = params.length
  | [] => costs_pure rfl
  | p :: ps => (spends_symbolOf p.name).seq (k := 0) fun _ =>
      (costs_paramSymbols ps).bind (k := 0) fun _ hs => costs_pure (congrArg (· + 1) hs)

theorem spends_storeCaptures (tok : Token) : ∀ (syms : List Symbol) (i : Nat),
    Spends (storeCaptures tok i syms) (5 * syms.length)
  | [], _ => spends_nothing
  | sym :: syms, i => by
    unfold storeCaptures
    refine Costs.le ((costs_slot? sym).bind (k := 5 * syms.length + 5) fun o ho => ?_) (by simp; omega)
    split
    · exact costs_reject rfl
    · exact Costs.le ((spends_op _).seq fun _ => (spends_pushInt _).seq fun _ =>
        (spends_load (ho _ rfl)).seq fun _ => (spends_box _).seq fun _ => (spends_op _).seq fun _ =>
          spends_storeCaptures tok syms (i + 1)) (by omega)

theorem spends_lambda {m : Mark} {params : List Param} {body : Piece} {captures : List Symbol}
    (h : body.Spends k) : Spends (lambda m params body captures)
      (k + 28 * (params.length + captures.length) + 20) := by
  refine Costs.of_le fun hle => ?_
  have hfew : params.length + captures.length ≤ 200 := by
    unfold most at hle
    omega
  unfold lambda
  refine (spends_typeOf _).seq (k := k + 28 * (params.length + captures.length) + 20) fun t => ?_
  dsimp only
  split
  case h_2 => exact costs_reject_bind rfl
  rw [pure_bind]
  refine (costs_paramSymbols params).bind fun syms hsyms => costs_get.bind
    (k := k + 28 * (params.length + captures.length) + 20) fun s hs => ?_
  have hlen : (syms ++ captures).length = params.length + captures.length := by
    rw [List.length_append, hsyms]
  have htypes : ((syms ++ captures).map Symbol.ty).length ≤ 200 := by
    rwa [List.length_map, hlen]
  have hname : Pool.IsShort ("lambda$" ++ toString s.lambdas) :=
    isShort_lambdaName (by have := hs.lambdas; omega)
  have hcount : Spends (modify fun s : State => { s with lambdas := s.lambdas + 1 } : Emit Unit) 1 :=
    spends_modify fun {n s} hs => { hs.le (Nat.le_add_right n 1) with
      lambdas := by have := hs.lambdas; show s.lambdas + 1 + n ≤ 65535; omega }
  refine Costs.le (hcount.seq fun _ => (spends_method (Nat.le_trans htypes (by decide))
    (spends_lambdaResult h _)).seq fun _ => (spends_methodHandle hname
      (isShort_methodDescriptor htypes _)).seq (k := 5 * captures.length + 4) fun _ => ?_) ?_
  · split
    · exact Costs.le ((spends_pushInt _).seq fun _ => (spends_pushInt _).seq fun _ =>
        (spends_onClass _ (by decide)).seq fun _ => (spends_storeCaptures _ _ _).seq fun _ =>
          spends_callStatic (by decide)) (by omega)
    · exact spends_nothing.le (Nat.zero_le _)
  · rw [List.length_map, hlen]
    omega

theorem spends_arguments : ∀ {ps : List Piece} {ts : List Ty} {k : Nat}, PiecesSpend k ps →
    Spends (arguments ps ts) k
  | [], _, _, _ => spends_nothing.le (Nat.zero_le _)
  | _ :: _, [], _, _ => spends_nothing.le (Nat.zero_le _)
  | _ :: _, _ :: _, _, ⟨_, _, hp, hps, hle⟩ =>
    Costs.le ((spends_valueAs hp _).seq fun _ => spends_arguments hps) (by omega)

theorem spends_call {m : Mark} {callee : Ident} {args : List Piece} (h : PiecesSpend k args) :
    Spends (call m callee args) (k + 6) := by
  refine Costs.of_le fun hle => ?_
  have hfew : args.length ≤ 200 := by
    have := h.length_le
    unfold most at hle
    omega
  unfold call
  refine (spends_symbolOf callee).seq (k := k + 6) fun sym => ?_
  dsimp only
  split
  case h_2 => exact costs_reject_bind rfl
  rename_i params result _
  split
  case isFalse => exact costs_reject_bind rfl
  rename_i hlen
  rw [pure_bind]
  split
  · refine Costs.le ((spends_arguments h).seq (k := 1) fun _ => costs_read.bind fun env henv => ?_)
      (by omega)
    refine (costs_methodOf sym.name).bind (k := 1) fun name hname => ?_
    exact spends_callStatic ⟨henv.unit, hname, isShort_methodDescriptor (hlen ▸ hfew) result⟩
  · refine (costs_variableOf callee).bind (k := k + 6) fun l hl => ?_
    refine Costs.le ((spends_load hl).seq fun _ => (spends_pushInt _).seq fun _ =>
      (spends_onClass _ (by decide)).seq fun _ => (spends_storeAll _ _ h).seq fun _ =>
        (spends_callVirtual (by decide)).seq (k := 2) fun _ => ?_) (by omega)
    split
    · exact (spends_op _).le (by decide)
    · exact spends_unbox _

end Emit

/-! ## The room of an expression -/

open ClassFile Emit

mutual

/-- How many steps are charged for the code of an expression. -/
def Expr.room : Expr → Nat
  | .int _ _ => 2
  | .bool _ _ => 1
  | .str _ text splices => text.length + Splice.room splices + 8
  | .read t => t.room + 8
  | .arith _ _ l r => l.room + r.room + 2
  | .compare _ _ l r => l.room + r.room + 5
  | .logic _ _ l r => l.room + r.room + 3
  | .not _ e => e.room + 2
  | .incDec e => e.room + 1
  | .collection _ _ es => Expr.listRoom es + 6
  | .sized _ _ size gen => size.room + gen.room + 25
  | .lambda l => l.room + 21
  | .call c => c.room + 1
  | .range _ => 1

/-- How many steps are charged for the code of arguments or elements. -/
def Expr.listRoom : List Expr → Nat
  | [] => 0
  | e :: es => e.room + Expr.listRoom es + 28

/-- How many steps are charged for the code of templates. -/
def Splice.room : List Splice → Nat
  | [] => 0
  | .mk _ e :: splices => e.room + Splice.room splices + 4

/-- How many steps are charged for the code of an index. -/
def Target.room : Target → Nat
  | .name _ => 0
  | .element _ _ index => index.room

/-- How many steps are charged for the code of `++` or `--`. -/
def IncDec.room : IncDec → Nat
  | .mk _ _ _ target => target.room + 12

/-- How many steps are charged for the body, the parameters and the captures of a lambda. -/
def Lambda.room : Lambda → Nat
  | .mk _ params body captures => body.room + 28 * (params.length + captures.length)

/-- How many steps are charged for the code of a call. -/
def Call.room : Call → Nat
  | .mk _ _ args => Expr.listRoom args + 6

end

mutual

/-- The code of an expression exceeds no limit where there is room for it. -/
theorem Expr.spends : (e : Expr) → e.piece.Spends e.room
  | .int _ n => piece_ofValue (spends_pushInt n)
  | .bool _ b => by
    refine ⟨spends_pushBool b, fun want l => ?_⟩
    simp only [Expr.piece]
    split
    · exact spends_jump _ l
    · exact spends_nothing.le (Nat.zero_le _)
  | .str m text splices => by
    have hsplices := Splice.spends splices
    rw [Expr.piece, Expr.room]
    refine Piece.Spends.le (piece_ofValue (k := text.length + Splice.room splices + 7) ?_) (by omega)
    refine Costs.of_le fun hle => ?_
    split
    · refine (spends_pushString (Pool.isShort_of_length ?_)).le (by omega)
      unfold most at hle
      omega
    · exact (spends_template (by omega) hsplices).le (by omega)
  | .read t => piece_ofValue (spends_read t.spends)
  | .arith m sign l r => piece_ofValue (spends_arithmetic m.tok sign l.spends r.spends)
  | .compare m sign l r => piece_ofJump (spends_comparison m.tok sign l.spends r.spends)
  | .logic _ sign l r => piece_ofJump (spends_connective sign l.spends r.spends)
  | .not _ e => by
    have he := e.spends
    refine ⟨?_, fun want l => (he.jump (!want) l).le (Nat.le_add_right _ 2)⟩
    exact (he.value.seq fun _ => (spends_pushInt 1).seq fun _ => spends_op _).le
      (by rw [Expr.room]; omega)
  | .incDec e => piece_ofValue e.spends
  | .collection _ _ es => piece_ofValue (spends_collection _ (Expr.spends_list es))
  | .sized m kind size (.mk gm params body captures) =>
    (piece_ofValue (spends_sized size.spends body.spends)).le
      (by simp only [Expr.room, Lambda.room]; omega)
  | .lambda (.mk m params body captures) => piece_ofValue (spends_lambda body.spends)
  | .call c => piece_ofValue c.spends
  | .range _ => piece_ofValue (k := 0) (costs_reject rfl)

theorem Expr.spends_list : (es : List Expr) → PiecesSpend (Expr.listRoom es) (Expr.pieces es)
  | [] => trivial
  | e :: es => ⟨_, _, e.spends, Expr.spends_list es, Nat.le_refl _⟩

theorem Splice.spends : (splices : List Splice) →
    SplicesSpend (Splice.room splices) (Splice.pieces splices)
  | [] => trivial
  | .mk _ e :: splices => ⟨_, _, e.spends, Splice.spends splices, Nat.le_refl _⟩

theorem Target.spends : (t : Target) → t.place.Spends t.room
  | .name _ => trivial
  | .element _ _ index => index.spends

theorem Call.spends : (c : Call) → Spends c.value c.room
  | .mk _ _ args => spends_call (Expr.spends_list args)

theorem IncDec.spends : (e : IncDec) → Spends e.value e.room
  | .mk _ _ _ target => spends_incDec target.spends

end

end Kotlet

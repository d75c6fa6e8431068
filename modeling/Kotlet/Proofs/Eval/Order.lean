import Kotlet.Proofs.Eval.Soundness
import Kotlet.Proofs.Typing.Places

/-!
# The order of an assignment to an element

An element is named by a variable and an index, and is given a value that is computed by steps of
its own, which may print, fail, or change the element.

* `Eval.read_of_holds`, `Eval.element_of_collection`, `Eval.position_of_size` : the steps that find
  an element;
* `Eval.settle` : the end of an assignment that computes with the old value;
* `Checked.OfText.compound_order` : a variable is read before the right side runs, an element is
  read afterwards;
* `Checked.OfText.assignment_order` : a collection that is not there is noticed before the right
  side runs, an index that lies outside is noticed afterwards.
-/

namespace Kotlet

namespace Machine

/-- An element of a collection. -/
def element? (m : Machine) (address index : Nat) : Option Value :=
  m.heap[address]?.bind fun es => es[index]?

/-- The machine after an element was replaced. -/
def setElement (m : Machine) (address index : Nat) (v : Value) : Machine :=
  { m with heap := m.heap.modify address fun es => es.setIfInBounds index v }

/-- A failure at a token, before it leaves a call. -/
def fault (_ : Machine) (cause : Fault.Cause) (t : Token) : Fault :=
  ⟨cause.message, t.line, t.col, []⟩

theorem element?_setElement {m : Machine} {a k : Nat} {old : Value} (h : m.element? a k = some old)
    (v : Value) : (m.setElement a k v).element? a k = some v := by
  obtain ⟨es, hes, hold⟩ := Option.bind_eq_some_iff.mp h
  have hlt : k < es.size := (Array.getElem?_eq_some_iff.mp hold).1
  simp [element?, setElement, Array.getElem?_modify, hes, hlt]

/-- The elements that a well-typed heap has. -/
theorem Typed.element {F : List FunDecl} {H : HeapShape} {Γ : List Symbol} {m : Machine}
    (h : m.Typed F H Γ) {a n k : Nat} {s : Scalar} (ha : H[a]? = some (s, n)) (hk : k < n) :
    ∃ v, m.element? a k = some v ∧ v.HasTy F H (.scalar s) := by
  obtain ⟨es, hes, rfl, hty⟩ := h.heap.elements a s n ha
  refine ⟨es[k], ?_, hty k _ (Array.getElem?_eq_getElem hk)⟩
  rw [element?, hes, Option.bind_some, Array.getElem?_eq_getElem hk]

end Machine

namespace Eval

/-! ## Steps that succeed or fail -/

section Run

variable {α β : Type} {x : Eval α} {m m' : Machine}

theorem bind_of_ok {a : α} (h : x m = .ok a m') (f : α → Eval β) : (x >>= f) m = f a m' := by
  change EStateM.bind x f m = _
  rw [EStateM.bind, h]

theorem bind_of_error {e : Fault} (h : x m = .error e m') (f : α → Eval β) :
    (x >>= f) m = .error e m' := by
  change EStateM.bind x f m = _
  rw [EStateM.bind, h]

/-- What steps that keep the machine well-typed end in. -/
theorem Keeps.of_ok {F : List FunDecl} {Γ : List Symbol} {H : HeapShape} {P : HeapShape → α → Prop}
    (h : Keeps F Γ H x P) (hm : m.Typed F H Γ) {a : α} (hx : x m = .ok a m') :
    ∃ H', H <+: H' ∧ m'.Typed F H' Γ ∧ P H' a := by
  have hends := h m hm
  unfold Ends at hends
  rw [hx] at hends
  exact hends

end Run

section Element

variable {F : List FunDecl} {H : HeapShape} {Γ : List Symbol} {m m' : Machine}

theorem variableOf_of_vars {id : Ident} {sym : Symbol} {v : Value}
    (h : m.vars[sym.id]? = some v) : variableOf id sym m = .ok v m := by
  have hlook : lookup? sym.id m = .ok (some v) m := congrArg (EStateM.Result.ok · m) h
  unfold variableOf
  rw [bind_of_ok hlook]
  rfl

theorem read_of_vars {id : Ident} {sym : Symbol} {v : Value} (hid : id.sym = some sym)
    (hplain : sym.isFunction = false) (h : m.vars[sym.id]? = some v) : read F id m = .ok v m := by
  unfold read
  rw [symbolOf_eq hid, pure_bind, if_neg (by rw [hplain]; exact Bool.false_ne_true)]
  exact variableOf_of_vars h

theorem read_of_holds {r lo : Nat} (hctx : Context r lo Γ) {id : Ident} {t : Ty} (h : id.Holds Γ t)
    (hm : m.Typed F H Γ) : ∃ v, read F id m = .ok v m ∧ v.HasTy F H t := by
  obtain ⟨sym, hmem, hid, rfl, -⟩ := h
  obtain ⟨v, hv, hty⟩ := hm.vars sym hmem
  exact ⟨v, read_of_vars hid (hctx.plain sym hmem) hv, hty⟩

variable {run : Expr → Eval Value} {base : Ident} {index : Expr} {i : Int32}

theorem element_of_null (hbase : read F base m = .ok .null m) (hindex : run index m = .ok (.int i) m') :
    element F run base index m = .error (m'.fault (.isNull base.name) base.tok) m' := by
  unfold element
  rw [bind_of_ok hbase, bind_of_ok hindex]
  rfl

theorem element_of_collection {kind : CollectionKind} {a : Nat}
    (hbase : read F base m = .ok (.collection kind a) m) (hindex : run index m = .ok (.int i) m') :
    element F run base index m = .ok (a, i) m' := by
  unfold element
  rw [bind_of_ok hbase, bind_of_ok hindex]
  rfl

theorem position_of_size {tok : Token} {a : Nat} {es : Array Value} (ha : m.heap[a]? = some es) :
    position tok a i m = if i < 0 ∨ es.size ≤ i.toInt.toNat then
      .error (m.fault (.outOfBounds i es.size) tok) m else .ok i.toInt.toNat m := by
  have hlen : length a m = .ok es.size m := by
    change EStateM.Result.ok (m.heap.getD a #[]).size m = _
    rw [Array.getD_eq_getD_getElem?, ha, Option.getD_some]
  unfold position
  rw [bind_of_ok hlen]
  split
  · rfl
  · rfl

theorem load_of_element {a k : Nat} {v : Value} (h : m.element? a k = some v) :
    load a k m = .ok v m := by
  obtain ⟨es, hes, hv⟩ := Option.bind_eq_some_iff.mp h
  have helements : m.heap.getD a #[] = es := by
    rw [Array.getD_eq_getD_getElem?, hes, Option.getD_some]
  change EStateM.Result.ok ((m.heap.getD a #[]).getD k .null) m = _
  rw [helements, Array.getD_eq_getD_getElem?, hv, Option.getD_some]

end Element

/-! ## Assignments -/

section Steps

variable {F : List FunDecl} {fuel : Nat} {tok : Token} {mark : Mark} {id base : Ident}
  {index e : Expr} {op : String}

theorem expr_incDec {x : IncDec} : expr F (fuel + 1) (.incDec x) = incDec F (expr F fuel) x := rfl

theorem stmt_assign_element : stmt F (fuel + 1) (.assign tok (.element mark base index) e) = (do
    let (a, i) ← element F (expr F fuel) base index
    let v ← expr F fuel e
    store a (← position mark.tok a i) v
    return .next) := rfl

theorem stmt_compound_name : stmt F (fuel + 1) (.compound tok (.name id) op e) = (do
    let sym ← symbolOf id
    let old ← variableOf id sym
    let v ← expr F fuel e
    assign sym.id (← arithmetic tok (compoundOperator op) old v)
    return .next) := rfl

theorem stmt_compound_element :
    stmt F (fuel + 1) (.compound tok (.element mark base index) op e) = (do
      let (a, i) ← element F (expr F fuel) base index
      let i ← position mark.tok a i
      let v ← expr F fuel e
      store a i (← arithmetic tok (compoundOperator op) (← load a i) v)
      return .next) := rfl

end Steps

/-- Puts a number that was computed where it belongs, if the operation gave one. -/
def settle (tok : Token) (put : Value → Eval Unit) : Option Int32 → Eval Flow
  | some n => do
    put (.int n)
    return .next
  | none => fail .divisionByZero tok

theorem settle_of_arithmetic {op : String} {o : ArithOp} (ho : ArithOp.ofText? op = some o)
    (tok : Token) (a b : Int32) (put : Value → Eval Unit) :
    (do put (← arithmetic tok op (.int a) (.int b)); return .next) =
      settle tok put (o.apply a b) := by
  simp only [arithmetic, ho]
  cases o.apply a b with
  | none => rfl
  | some n => rfl

end Eval

open Eval

/-! ## One variable -/

/-- A machine with one variable. -/
def Machine.holding (id : SymbolId) (v : Value) (heap : Heap) : Machine :=
  { Machine.start with vars := (∅ : Activation).insert id v, heap := heap }

section Holding

variable {F : List FunDecl} {H : HeapShape} {sym : Symbol} {v : Value} {heap : Heap}

theorem Machine.vars_holding (sym : Symbol) (v : Value) (heap : Heap) :
    (Machine.holding sym.id v heap).vars[sym.id]? = some v := by
  simp [Machine.holding]

theorem Machine.typed_holding (hheap : Heap.Typed F H heap) (hv : v.HasTy F H sym.ty) :
    (Machine.holding sym.id v heap).Typed F H [sym] := by
  refine ⟨hheap, fun x hx => ?_⟩
  obtain rfl := List.mem_singleton.mp hx
  exact ⟨v, Machine.vars_holding x v heap, hv⟩

/-- A heap with one array of one number. -/
theorem Heap.typed_number (F : List FunDecl) (n : Int32) :
    Heap.Typed F [(.int, 1)] #[#[.int n]] := by
  have hempty : Heap.Typed F [] #[] := ⟨rfl, by simp⟩
  have hnumber : ∀ (i : Nat) (v : Value), #[Value.int n][i]? = some v → v.HasTy F [] .int
    | 0, _, rfl => .int n
  exact typed_push hempty hnumber

end Holding

/-! ## Assignments that compute with the old value -/

section Compound

variable {text : Text} {c : Checked} (h : c.OfText text) {Γ : List Symbol} {tok : Token} {e : Expr}
include h

/-- An assignment that computes with the old value. The old value of a variable is the one before
the right side runs, that of an element is the one afterwards. -/
theorem Checked.OfText.compound_order {target : Target} {op : String}
    (hs : (Γ, .compound tok target op e) ∈ c.places) :
    ∃ o, ArithOp.ofText? (compoundOperator op) = some o ∧
      ∀ (H : HeapShape) (m : Machine) (fuel : Nat), m.Typed c.functions H Γ →
        match target with
        | .name id => ∃ sym old, id.sym = some sym ∧ m.vars[sym.id]? = some (.int old) ∧
          ∀ v m₁, expr c.functions fuel e m = .ok v m₁ → ∃ r, v = .int r ∧
            stmt c.functions (fuel + 1) (.compound tok target op e) m =
              settle tok (assign sym.id) (o.apply old r) m₁
        | .element mark base index => ∀ a i k m₁,
          element c.functions (expr c.functions fuel) base index m = .ok (a, i) m₁ →
          position mark.tok a i m₁ = .ok k m₁ → ∃ old, m₁.element? a k = some (.int old) ∧
            ∀ v m₂, expr c.functions fuel e m₁ = .ok v m₂ → ∃ now r,
              m₂.element? a k = some (.int now) ∧ v = .int r ∧
              stmt c.functions (fuel + 1) (.compound tok target op e) m =
                settle tok (store a k) (o.apply now r) m₂ := by
  obtain ⟨r, result, inLoop, lo, hi, hctx, hop, mid, htarget, he⟩ := h.typed.of_mem_places hs
  obtain ⟨o, ho⟩ := Option.isSome_iff_exists.mp hop
  have hctx' := hctx.mono (Target.updates_le target htarget)
  refine ⟨o, ho, fun H m fuel hm => ?_⟩
  have hexpr : KeepsExpr c.functions (expr c.functions fuel) :=
    (keeps_expr_stmt h.typed.routine fuel).1
  cases target with
  | name id =>
    obtain ⟨⟨sym, hmem, hid, hty, hmark⟩, -⟩ := htarget
    obtain ⟨w, hw, hint⟩ := hm.vars sym hmem
    obtain ⟨old, rfl⟩ := (hty ▸ hint).of_int
    refine ⟨sym, old, hid, hw, fun v m₁ hv => ?_⟩
    obtain ⟨H₁, -, -, hvty⟩ := (hexpr he hctx').of_ok hm hv
    obtain ⟨n, rfl⟩ := hvty.of_int
    refine ⟨n, rfl, ?_⟩
    rw [stmt_compound_name, symbolOf_eq hid, pure_bind, bind_of_ok (variableOf_of_vars hw),
      bind_of_ok hv, settle_of_arithmetic ho]
  | element mark base index =>
    obtain ⟨-, kind, hb, hindex⟩ := htarget
    intro a i k m₁ hel hpos
    obtain ⟨H₁, -, hm₁, len, hlen⟩ := (keeps_element hexpr hctx hb hindex).of_ok hm hel
    obtain ⟨H₂, hH₂, hm₁', hk⟩ := (keeps_position hlen).of_ok hm₁ hpos
    obtain ⟨w, hw, hwty⟩ := hm₁'.element (HeapShape.get_mono hH₂ hlen) hk
    obtain ⟨old, rfl⟩ := hwty.of_int
    refine ⟨old, hw, fun v m₂ hv => ?_⟩
    obtain ⟨H₃, hH₃, hm₂, hvty⟩ := (hexpr he hctx').of_ok hm₁' hv
    obtain ⟨n, rfl⟩ := hvty.of_int
    obtain ⟨w, hw, hwty⟩ := hm₂.element (HeapShape.get_mono (hH₂.trans hH₃) hlen) hk
    obtain ⟨now, rfl⟩ := hwty.of_int
    refine ⟨now, n, hw, rfl, ?_⟩
    rw [stmt_compound_element, bind_of_ok hel]
    simp only
    rw [bind_of_ok hpos, bind_of_ok hv, bind_of_ok (load_of_element hw), settle_of_arithmetic ho]

end Compound

/-- Whether a statement adds to the element 0 of a variable what incrementing this element gives. -/
def Stmt.addsIncremented (sym : Symbol) : Stmt → Bool
  | .compound _ (.element _ base (.int _ i)) op
      (.incDec (.mk _ sign before (.element _ base' (.int _ j)))) =>
    decide (base.sym = some sym ∧ base'.sym = some sym ∧ sym.isFunction = false ∧
      sym.ty = .array .int ∧ ArithOp.ofText? (compoundOperator op) = some .add ∧ sign = "++" ∧
      before = false ∧ i = 0 ∧ j = 0)
  | _ => false

/-- An array of one number is incremented by the right side of an assignment to its element. -/
theorem exists_compound_increment : ∃ (c : Checked) (Γ : List Symbol) (tok : Token) (mark : Mark)
    (base : Ident) (index : Expr) (op : String) (e : Expr) (H : HeapShape) (m m₂ : Machine),
    c.OfText "val a = arrayOf(1)\na[0] += a[0]++\n" ∧
      (Γ, .compound tok (.element mark base index) op e) ∈ c.places ∧
      ArithOp.ofText? (compoundOperator op) = some .add ∧ m.Typed c.functions H Γ ∧
      element c.functions (expr c.functions 2) base index m = .ok (0, 0) m ∧
      position mark.tok 0 0 m = .ok 0 m ∧ m.element? 0 0 = some (.int 1) ∧
      expr c.functions 2 e m = .ok (.int 1) m₂ ∧ m₂.element? 0 0 = some (.int 2) := by
  have hrun : ((Checked.ofText? "val a = arrayOf(1)\na[0] += a[0]++\n").bind fun c =>
      c.places[1]?.map fun p => p.1.map p.2.addsIncremented) = some [true] := by decide +kernel
  obtain ⟨c, hc, hplace⟩ := Option.bind_eq_some_iff.mp hrun
  obtain ⟨⟨Γ, s⟩, hs, hΓ⟩ := Option.map_eq_some_iff.mp hplace
  obtain ⟨sym, Γ, rfl, hsym, hnil⟩ := List.map_eq_cons_iff.mp hΓ
  obtain rfl := List.map_eq_nil_iff.mp hnil
  unfold Stmt.addsIncremented at hsym
  split at hsym
  case h_2 => cases hsym
  rename_i tok mark base im i op mark' sign before mark'' base' jm j heq
  obtain rfl : s = _ := heq
  obtain ⟨hbase, hbase', hplain, hty, hop, rfl, rfl, rfl, rfl⟩ := of_decide_eq_true hsym
  let m : Machine := .holding sym.id (.collection .array 0) #[#[.int 1]]
  have hm : m.Typed c.functions [(.int, 1)] [sym] :=
    Machine.typed_holding (Heap.typed_number _ 1) (hty ▸ .collection (n := 1) rfl rfl)
  have hel : ∀ (b : Ident) (n : Nat) (bm : Mark), b.sym = some sym →
      element c.functions (expr c.functions (n + 1)) b (.int bm 0) m = .ok (0, 0) m :=
    fun b n bm hb => element_of_collection (read_of_vars hb hplain (Machine.vars_holding sym _ _)) rfl
  have helements : m.heap[0]? = some #[.int 1] := rfl
  have hpos : ∀ t : Token, position t 0 0 m = .ok 0 m := fun t => position_of_size helements
  let e : Expr := .incDec (.mk mark' "++" false (.element mark'' base' (.int jm 0)))
  have he : expr c.functions 2 e m = .ok (.int 1) (m.setElement 0 0 (.int 2)) := by
    rw [expr_incDec, incDec, bind_of_ok (hel base' 0 jm hbase')]
    simp only
    rw [bind_of_ok (hpos _)]
    rfl
  exact ⟨c, [sym], tok, mark, base, .int im 0, op, e, _, m, _, Checked.ofText_of_eq_some hc,
    List.mem_of_getElem? hs, hop, hm, hel base 1 im hbase, hpos _, rfl, he, rfl⟩

theorem Checked.OfText.compound_order_increment : ∃ (c : Checked) (Γ : List Symbol) (tok : Token)
    (mark : Mark) (base : Ident) (index : Expr) (op : String) (e : Expr) (H : HeapShape)
    (m m₂ : Machine), c.OfText "val a = arrayOf(1)\na[0] += a[0]++\n" ∧
      (Γ, .compound tok (.element mark base index) op e) ∈ c.places ∧ m.Typed c.functions H Γ ∧
      expr c.functions 2 e m = .ok (.int 1) m₂ ∧ m₂.element? 0 0 = some (.int 2) ∧
      stmt c.functions 3 (.compound tok (.element mark base index) op e) m =
        settle tok (store 0 0) (some 3) m₂ := by
  obtain ⟨c, Γ, tok, mark, base, index, op, e, H, m, m₂, htext, hs, hop, hm, hel, hpos, -, hv,
    hnow⟩ := exists_compound_increment
  refine ⟨c, Γ, tok, mark, base, index, op, e, H, m, m₂, htext, hs, hm, hv, hnow, ?_⟩
  obtain ⟨o, ho, horder⟩ := htext.compound_order hs
  obtain rfl : .add = o := Option.some.inj (hop.symm.trans ho)
  obtain ⟨old, -, hstores⟩ := horder H m 2 hm 0 0 0 m hel hpos
  obtain ⟨now, r, hnow', hr, hstmt⟩ := hstores _ _ hv
  obtain rfl : 2 = now := by simpa [hnow] using hnow'
  obtain rfl : 1 = r := by simpa using hr
  exact hstmt

/-- The element was 1 before the right side ran and 1 is added to it, but it becomes 3. -/
theorem Checked.OfText.compound_overwrites : ∃ (c : Checked) (Γ : List Symbol) (tok : Token)
    (mark : Mark) (base : Ident) (index : Expr) (op : String) (e : Expr) (H : HeapShape)
    (m m₂ m₃ : Machine), c.OfText "val a = arrayOf(1)\na[0] += a[0]++\n" ∧
      (Γ, .compound tok (.element mark base index) op e) ∈ c.places ∧ m.Typed c.functions H Γ ∧
      element c.functions (expr c.functions 2) base index m = .ok (0, 0) m ∧
      position mark.tok 0 0 m = .ok 0 m ∧ m.element? 0 0 = some (.int 1) ∧
      expr c.functions 2 e m = .ok (.int 1) m₂ ∧
      ArithOp.ofText? (compoundOperator op) = some .add ∧ ArithOp.add.apply 1 1 = some 2 ∧
      stmt c.functions 3 (.compound tok (.element mark base index) op e) m = .ok .next m₃ ∧
      m₃.element? 0 0 = some (.int 3) := by
  obtain ⟨c, Γ, tok, mark, base, index, op, e, H, m, m₂, htext, hs, hop, hm, hel, hpos, hold, hv,
    hnow⟩ := exists_compound_increment
  refine ⟨c, Γ, tok, mark, base, index, op, e, H, m, m₂, m₂.setElement 0 0 (.int 3), htext, hs, hm,
    hel, hpos, hold, hv, hop, rfl, ?_, Machine.element?_setElement hnow _⟩
  rw [stmt_compound_element, bind_of_ok hel]
  simp only
  rw [bind_of_ok hpos, bind_of_ok hv, bind_of_ok (load_of_element hnow), settle_of_arithmetic hop]
  rfl

/-! ## Plain assignments -/

/-- An assignment to an element, once its index has run. If there is no collection, the assignment
fails at once. Otherwise the right side runs, and only then the index is compared with the length. -/
theorem Checked.OfText.assignment_order {text : Text} {c : Checked} (h : c.OfText text)
    {Γ : List Symbol} {tok : Token} {e : Expr} {mark : Mark} {base : Ident} {index : Expr}
    (hs : (Γ, .assign tok (.element mark base index) e) ∈ c.places) {H : HeapShape} {m : Machine}
    (hm : m.Typed c.functions H Γ) {fuel : Nat} {i : Value} {m₁ : Machine}
    (hi : expr c.functions fuel index m = .ok i m₁) :
    ∃ n, i = .int n ∧
      ((read c.functions base m = .ok .null m ∧
          stmt c.functions (fuel + 1) (.assign tok (.element mark base index) e) m =
            .error (m₁.fault (.isNull base.name) base.tok) m₁) ∨
        ∃ kind a es, read c.functions base m = .ok (.collection kind a) m ∧
          m.heap[a]? = some es ∧
          (∀ f m₂, expr c.functions fuel e m₁ = .error f m₂ →
            stmt c.functions (fuel + 1) (.assign tok (.element mark base index) e) m =
              .error f m₂) ∧
          ∀ v m₂, expr c.functions fuel e m₁ = .ok v m₂ →
            stmt c.functions (fuel + 1) (.assign tok (.element mark base index) e) m =
              if n < 0 ∨ es.size ≤ n.toInt.toNat then
                .error (m₂.fault (.outOfBounds n es.size) mark.tok) m₂
              else .ok .next (m₂.setElement a n.toInt.toNat v)) := by
  obtain ⟨r, result, inLoop, lo, hi', hctx, kind, s, mid, hb, hindex, t, he, ha, -⟩ :=
    h.typed.of_mem_places hs
  have hctx' := hctx.mono (Expr.typed_le index hindex)
  have hexpr : KeepsExpr c.functions (expr c.functions fuel) :=
    (keeps_expr_stmt h.typed.routine fuel).1
  obtain ⟨H₁, hH₁, hm₁, hity⟩ := (hexpr hindex hctx).of_ok hm hi
  obtain ⟨n, rfl⟩ := hity.of_int
  refine ⟨n, rfl, ?_⟩
  obtain ⟨w, hbase, hw⟩ := read_of_holds hctx hb hm
  rcases hw.of_collection with rfl | ⟨kind', a, len, rfl, hlen⟩
  · refine .inl ⟨hbase, ?_⟩
    rw [stmt_assign_element, bind_of_error (element_of_null hbase hi)]
  · obtain ⟨es, hes, hsize, -⟩ := hm.heap.elements a s len hlen
    have hel := element_of_collection hbase hi
    refine .inr ⟨kind', a, es, hbase, hes, fun f m₂ hf => ?_, fun v m₂ hv => ?_⟩
    · rw [stmt_assign_element, bind_of_ok hel]
      simp only
      rw [bind_of_error hf]
    · obtain ⟨H₂, hH₂, hm₂, -⟩ := (hexpr he hctx').of_ok hm₁ hv
      -- The elements may have changed by now, but not their number.
      obtain ⟨es₂, hes₂, hsize₂, -⟩ :=
        hm₂.heap.elements a s len (HeapShape.get_mono (hH₁.trans hH₂) hlen)
      have hpos : position mark.tok a n m₂ = _ := position_of_size hes₂
      rw [hsize₂, ← hsize] at hpos
      rw [stmt_assign_element, bind_of_ok hel]
      simp only
      rw [bind_of_ok hv]
      split
      · rename_i hout
        rw [if_pos hout] at hpos
        rw [bind_of_error hpos]
      · rename_i hin
        rw [if_neg hin] at hpos
        rw [bind_of_ok hpos]
        rfl

/-- What is assigned to the element 1 of a variable. -/
def Stmt.assignedSecond? (sym : Symbol) : Stmt → Option Expr
  | .assign _ (.element _ base (.int _ i)) e =>
    if base.sym = some sym ∧ sym.isFunction = false ∧ sym.ty = .array .int ∧ i = 1 then some e
    else none
  | _ => none

/-- Whether steps give 2 after they have printed a line with 1. -/
def Eval.printsOne (x : Eval Value) (m : Machine) : Bool :=
  match x m with
  | .ok (.int r) m₂ => r == 2 && m₂.out == "1\n"
  | _ => false

theorem exists_of_printsOne {x : Eval Value} {m : Machine} (h : x.printsOne m = true) :
    ∃ m₂, x m = .ok (.int 2) m₂ ∧ m₂.out = "1\n" := by
  unfold Eval.printsOne at h
  split at h
  · rename_i r m₂ hv
    obtain ⟨hr, hout⟩ := Bool.and_eq_true_iff.mp h
    obtain rfl := eq_of_beq hr
    exact ⟨m₂, hv, eq_of_beq hout⟩
  · cases h

/-- An element is assigned what a function returns that prints, where there is no array, and where
there is one that is too short. -/
theorem exists_printing_assignment : ∃ (c : Checked) (sym : Symbol) (tok : Token) (mark : Mark)
    (base : Ident) (im : Mark) (e : Expr),
    c.OfText "fun f(): Int \x7b println(1); return 2 \x7d\nvar a: Array<Int>\na[1] = f()\n" ∧
      ([sym], .assign tok (.element mark base (.int im 1)) e) ∈ c.places ∧
      base.sym = some sym ∧ sym.isFunction = false ∧ sym.ty = .array .int ∧
      ∀ m ∈ [Machine.holding sym.id .null #[],
          Machine.holding sym.id (.collection .array 0) #[#[.int 0]]],
        ∃ m₂, expr c.functions 4 e m = .ok (.int 2) m₂ ∧ m₂.out = "1\n" := by
  have hrun : ((Checked.ofText?
      "fun f(): Int \x7b println(1); return 2 \x7d\nvar a: Array<Int>\na[1] = f()\n").bind
      fun c => c.places[1]?.map fun p => p.1.map fun sym => (p.2.assignedSecond? sym).map fun e =>
        [Machine.holding sym.id .null #[],
          Machine.holding sym.id (.collection .array 0) #[#[.int 0]]].all
            (expr c.functions 4 e).printsOne) = some [some true] := by decide +kernel
  obtain ⟨c, hc, hplace⟩ := Option.bind_eq_some_iff.mp hrun
  obtain ⟨⟨Γ, s⟩, hs, hΓ⟩ := Option.map_eq_some_iff.mp hplace
  obtain ⟨sym, Γ, rfl, hsym, hnil⟩ := List.map_eq_cons_iff.mp hΓ
  obtain rfl := List.map_eq_nil_iff.mp hnil
  obtain ⟨e, he, hall⟩ := Option.map_eq_some_iff.mp hsym
  unfold Stmt.assignedSecond? at he
  split at he
  case h_2 => cases he
  rename_i tok mark base im i e' heq
  obtain rfl : s = _ := heq
  obtain ⟨⟨hbase, hplain, hty, rfl⟩, hright⟩ := Option.ite_none_right_eq_some.mp he
  obtain rfl : e' = e := Option.some.inj hright
  exact ⟨c, sym, tok, mark, base, im, e', Checked.ofText_of_eq_some hc, List.mem_of_getElem? hs,
    hbase, hplain, hty, fun m hm => exists_of_printsOne (List.all_eq_true.mp hall m hm)⟩

theorem Checked.OfText.assignment_order_outside : ∃ (c : Checked) (Γ : List Symbol) (s : Stmt)
    (H : HeapShape) (m m₂ : Machine) (t : Token),
    c.OfText "fun f(): Int \x7b println(1); return 2 \x7d\nvar a: Array<Int>\na[1] = f()\n" ∧
      (Γ, s) ∈ c.places ∧ m.Typed c.functions H Γ ∧
      stmt c.functions 5 s m = .error (m₂.fault (.outOfBounds 1 1) t) m₂ ∧ m₂.out = "1\n" := by
  obtain ⟨c, sym, tok, mark, base, im, e, htext, hs, hbase, hplain, hty, hall⟩ :=
    exists_printing_assignment
  obtain ⟨m₂, hv, hout⟩ := hall _ (List.mem_cons_of_mem _ List.mem_cons_self)
  have hm : (Machine.holding sym.id (.collection .array 0) #[#[.int 0]]).Typed c.functions
      [(.int, 1)] [sym] :=
    Machine.typed_holding (Heap.typed_number _ 0) (hty ▸ .collection (n := 1) rfl rfl)
  have hvar := Machine.vars_holding sym (.collection .array 0) #[#[.int 0]]
  have hread := read_of_vars (F := c.functions) hbase hplain hvar
  refine ⟨c, [sym], _, _, _, m₂, mark.tok, htext, hs, hm, ?_, hout⟩
  have hindex : ∀ m, expr c.functions 4 (.int im 1) m = .ok (.int 1) m := fun _ => rfl
  obtain ⟨n, hn, horder⟩ := htext.assignment_order hs hm (hindex _)
  obtain rfl : 1 = n := by simpa using hn
  rcases horder with ⟨hnull, -⟩ | ⟨kind, a, es, hread', hes, -, hstores⟩
  · cases hread.symm.trans hnull
  · cases hread.symm.trans hread'
    obtain rfl : #[.int 0] = es := Option.some.inj hes
    exact hstores _ _ hv

/-- Where there is no array, nothing is printed before the failure, although the right side prints. -/
theorem Checked.OfText.assignment_fails_early : ∃ (c : Checked) (Γ : List Symbol) (tok : Token)
    (mark : Mark) (base : Ident) (index e : Expr) (H : HeapShape) (m m₁ m₂ : Machine) (f : Fault),
    c.OfText "fun f(): Int \x7b println(1); return 2 \x7d\nvar a: Array<Int>\na[1] = f()\n" ∧
      (Γ, .assign tok (.element mark base index) e) ∈ c.places ∧ m.Typed c.functions H Γ ∧
      expr c.functions 4 index m = .ok (.int 1) m₁ ∧ expr c.functions 4 e m₁ = .ok (.int 2) m₂ ∧
      m₂.out = "1\n" ∧
      stmt c.functions 5 (.assign tok (.element mark base index) e) m = .error f m₁ ∧
      m₁.out = "" := by
  obtain ⟨c, sym, tok, mark, base, im, e, htext, hs, hbase, hplain, hty, hall⟩ :=
    exists_printing_assignment
  obtain ⟨m₂, hv, hout⟩ := hall _ List.mem_cons_self
  have hm : (Machine.holding sym.id .null #[]).Typed c.functions [] [sym] :=
    Machine.typed_holding ⟨rfl, by simp⟩ (hty ▸ .null rfl)
  have hindex : ∀ m, expr c.functions 4 (.int im 1) m = .ok (.int 1) m := fun _ => rfl
  have hread := read_of_vars (F := c.functions) hbase hplain (Machine.vars_holding sym .null #[])
  have hnull := element_of_null hread (hindex _)
  exact ⟨c, [sym], tok, mark, base, .int im 1, e, [], _, _, m₂, _, htext, hs, hm, hindex _, hv,
    hout, bind_of_error hnull _, rfl⟩

end Kotlet

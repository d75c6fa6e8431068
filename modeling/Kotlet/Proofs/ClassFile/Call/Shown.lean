import Kotlet.Proofs.ClassFile.Call.Depth
import Kotlet.Proofs.ClassFile.Listing
import Kotlet.Proofs.ClassFile.RoundTrip

/-!
# Listings show the calls of a builder

What is written for a call is decoded by what knows nothing of the builder. The form that was chosen
for a call does not matter: its listing shows what the call was given.

* `constant_class`, `constant_member` and their kin : a constant is shown as what was asked for;
* `Pool.ReadAs.showable` : no references go round in a circle in a class that was written;
* `Call.Shows` : an opcode and a text of operands are those of a call;
* `Live.Took` : what is known of a call that was made where control could come; `Took.shows` : its
  instruction is shown as the call;
* `instructions_shown_live` : a finished body is shown as the calls that were made where control
  could come, each one at its place.
-/

namespace Kotlet
namespace ClassFile

open ParsedClass Instr

/-! ## Constants as text -/

/-- A constant is read as one with the same references. -/
theorem Constant.ReadAs.refs {k : Constant} {e : Entry} (h : k.ReadAs e) :
    e.followed = k.refs.map Prod.snd := by
  cases h <;> rfl

/-- References go to earlier constants, and so they do in a class that is read. -/
theorem Pool.ReadAs.showable {p : Pool} {c : ParsedClass} (h : p.ReadAs c.pool) (hp : p.Grounded) :
    c.Showable := by
  obtain ⟨entries, hes, hread⟩ := h
  refine fun i => not_circles_of_lt (fun i j hij => ?_) i.toNat
  obtain ⟨k, hk, rfl⟩ := hij
  rw [hes] at hk
  cases i with
  | zero => cases hk
  | succ n =>
    rw [Array.getD_eq_getD_getElem?, List.getElem?_toArray, List.getElem?_cons_succ] at hk
    cases he : entries[n]? with
    | none =>
      rw [he] at hk
      cases hk
    | some e =>
      rw [he, Option.getD_some] at hk
      obtain ⟨hn, rfl⟩ := List.getElem?_eq_some_iff.mp he
      have hn' : n < p.entries.toList.length := hread.length_eq ▸ hn
      have hrefs := ((List.forall₂_iff_get.mp hread).2 n hn' hn).refs
      rw [List.get_eq_getElem, List.get_eq_getElem] at hrefs
      obtain ⟨x, hx, rfl⟩ := List.mem_map.mp (hrefs ▸ hk)
      have hget : p.entries[n]? = some p.entries.toList[n] := by
        rw [← Array.getElem?_toList, List.getElem?_eq_getElem hn']
      exact Nat.lt_succ_of_le (hp n _ hget x hx).1

/-- Whatever else is asked of a pool. -/
theorem Pool.Requested.showable {p q : Pool} (hq : p.Requested q) (hp : p.Sound Pool.anyMember)
    (he : q.error = none) {c : ParsedClass} (hc : q.ReadAs c.pool) : c.Showable :=
  hc.showable ((hq.kept hp).sound.right he).grounded

section Constants

variable {q : Pool} {c : ParsedClass} {i : UInt16}

/-- A constant that is there is shown with three references on the way at least. -/
theorem constant?_eq {k : Constant} (h : q.ReadAs c.pool) (hk : q.constant? i = some k) :
    ∃ n, c.constant? i = constantWithin c.pool (n + 3) i := by
  obtain ⟨e, he, -⟩ := h.get hk
  have hlt := (Array.getElem?_eq_some_iff.mp he).1
  have hne : i ≠ 0 := by
    rintro rfl
    cases hk
  have hpos : i.toNat ≠ 0 := fun h0 => hne (UInt16.toNat_inj.mp h0)
  obtain ⟨n, hn⟩ : ∃ n, c.pool.size = n + 2 := ⟨c.pool.size - 2, by omega⟩
  exact ⟨n, by rw [ParsedClass.constant?, hn]⟩

variable (h : q.ReadAs c.pool) (hq : q.Right Pool.anyMember)
include h hq

/-- The entry that is found by a key. -/
theorem entry_of_index {k : Pool.Key} (hi : q.index[k]? = some i) :
    ∃ d e, q.constant? i = some d ∧ d.tag = k.tag ∧ Pool.Spells Pool.anyMember q k.text d ∧
      d.ReadAs e ∧ c.pool.getD i.toNat .unused = e := by
  obtain ⟨d, hd, htag, hsp⟩ := hq.entry k i hi
  obtain ⟨e, he, hde⟩ := h.get hd
  exact ⟨d, e, hd, htag, hsp, hde, by rw [Array.getD_eq_getD_getElem?, he, Option.getD_some]⟩

theorem within_text {s : String} (hi : q.index[(⟨1, Text.ofString s⟩ : Pool.Key)]? = some i)
    (n : Nat) : constantWithin c.pool (n + 1) i = some s := by
  obtain ⟨d, e, -, htag, hsp, hde, hget⟩ := entry_of_index h hq hi
  rw [constantWithin, hget]
  cases hde with
  | utf8 t =>
    simp only [Pool.Spells] at hsp
    have hs := ModifiedUtf8.decode_encode s
    rw [← hsp, ModifiedUtf8.decode_encode] at hs
    exact congrArg some (Except.ok.inj hs)
  | _ => cases htag

theorem within_class {name : String}
    (hi : q.index[(⟨7, Text.ofString name⟩ : Pool.Key)]? = some i) (n : Nat) :
    constantWithin c.pool (n + 2) i = some name := by
  obtain ⟨d, e, -, htag, hsp, hde, hget⟩ := entry_of_index h hq hi
  rw [constantWithin, hget]
  cases hde with
  | classRef j => exact within_text h hq hsp n
  | _ => cases htag

theorem within_pair {name desc : String}
    (hi : q.index[(⟨12, Text.ofString (Pool.pairText name desc)⟩ : Pool.Key)]? = some i) (n : Nat) :
    constantWithin c.pool (n + 2) i = some (Pool.pairText name desc) := by
  obtain ⟨d, e, -, htag, hsp, hde, hget⟩ := entry_of_index h hq hi
  rw [constantWithin, hget]
  cases hde with
  | nameAndType j k =>
    -- The parts may be those of another member of the same text.
    obtain ⟨m, -, ht, hj, hk⟩ := hsp
    simp only [within_text h hq hj n, within_text h hq hk n]
    rw [Text.ofString_inj ht]
    rfl
  | _ => cases htag

theorem constant_class {name : String}
    (hi : q.index[(⟨7, Text.ofString name⟩ : Pool.Key)]? = some i) : c.constant? i = some name := by
  obtain ⟨d, -, hd, -⟩ := entry_of_index h hq hi
  obtain ⟨n, hn⟩ := constant?_eq h hd
  rw [hn]
  exact within_class h hq hi (n + 1)

theorem constant_string {s : String}
    (hi : q.index[(⟨8, Text.ofString s⟩ : Pool.Key)]? = some i) :
    c.constant? i = some (quote s) := by
  obtain ⟨d, e, hd, htag, hsp, hde, hget⟩ := entry_of_index h hq hi
  obtain ⟨n, hn⟩ := constant?_eq h hd
  rw [hn, constantWithin, hget]
  cases hde with
  | string j => exact congrArg (Option.map quote) (within_text h hq hsp (n + 1))
  | _ => cases htag

theorem constant_integer {m : Int32}
    (hi : q.index[(⟨3, Text.ofString (toString m.toInt)⟩ : Pool.Key)]? = some i) :
    c.constant? i = some (toString m.toInt) := by
  obtain ⟨d, e, hd, htag, hsp, hde, hget⟩ := entry_of_index h hq hi
  obtain ⟨n, hn⟩ := constant?_eq h hd
  rw [hn, constantWithin, hget]
  cases hde with
  | integer k => exact congrArg some (Text.ofString_inj hsp).symm
  | _ => cases htag

/-- A member of any kind is shown by its text, whichever parts the text was put together from. -/
theorem constant_member {m : Member} {tag : UInt8}
    (hi : q.index[(⟨tag, Text.ofString (Pool.memberText m)⟩ : Pool.Key)]? = some i)
    (htag : tag = 9 ∨ tag = 10 ∨ tag = 11) : c.constant? i = some (Pool.memberText m) := by
  obtain ⟨d, e, hd, hdtag, hsp, hde, hget⟩ := entry_of_index h hq hi
  obtain ⟨n, hn⟩ := constant?_eq h hd
  rw [hn, constantWithin, hget]
  have hshown : ∀ {j k : UInt16}, (∃ m' : Member, Pool.anyMember m' ∧
      Text.ofString (Pool.memberText m) = Text.ofString (Pool.memberText m') ∧
      q.index[(⟨7, Text.ofString m'.owner⟩ : Pool.Key)]? = some j ∧
      q.index[(⟨12, Text.ofString (Pool.pairText m'.name m'.desc)⟩ : Pool.Key)]? = some k) →
      (do return (← constantWithin c.pool (n + 2) j) ++ "." ++ (← constantWithin c.pool (n + 2) k)) =
        some (Pool.memberText m) := by
    rintro j k ⟨m', -, ht, hj, hk⟩
    rw [within_class h hq hj, within_pair h hq hk, Text.ofString_inj ht]
    simp only [Pool.memberText, Pool.pairText, String.append_assoc, Option.bind_eq_bind,
      Option.bind_some, Option.pure_def]
  cases hde with
  | fieldRef j k | methodRef j k | interfaceMethodRef j k => exact hshown hsp
  | _ => rcases htag with rfl | rfl | rfl <;> cases hdtag

end Constants

/-! ## Calls as text -/

namespace Call

/-- An opcode that loads a constant. -/
def IsLdc (op : Opcode) : Prop := op = .ldc ∨ op = .ldcW

/-- An opcode and a text of operands show a call. Branches lead to where labels have their places. -/
@[grind =] def Shows (place : Nat → Option Nat) (op : Opcode) (text : String) : Call → Prop
  | emit o => op = o ∧ text = ""
  | pushInt n =>
    if -1 ≤ n ∧ n ≤ 5 then op = ⟨UInt8.ofNat (3 + n.toInt).toNat⟩ ∧ text = ""
    else IsLdc op ∧ text = toString n.toInt
  | pushBool b => op = (if b then .iconst1 else .iconst0) ∧ text = ""
  | pushString s => IsLdc op ∧ text = quote s
  | pushClass name => IsLdc op ∧ text = name
  | load kind slot => ShownSlot (loadOpcodes kind) slot.toNat op text
  | store kind slot => ShownSlot (storeOpcodes kind) slot.toNat op text
  | iinc slot delta =>
    (op = .iinc ∧ text = toString slot ++ " " ++ toString delta) ∨
      (op = .wide ∧ text = "iinc " ++ toString slot ++ " " ++ toString delta)
  | jump o l => op = o ∧ ∃ target, place l = some target ∧ text = toString target
  | field o owner name desc | invoke o owner name desc =>
    op = o ∧ text = owner ++ "." ++ name ++ ":" ++ desc
  | typeOp o name => op = o ∧ text = name
  | newArray elements => op = .newArray ∧ text = elementTypeName elements
  | newLabel | bind _ | finish _ => False

/-- The variables that a call uses can be numbered in two bytes. -/
def InRange : Call → Prop
  | load _ slot | store _ slot | iinc slot _ => 0 ≤ slot ∧ slot ≤ 65535
  | _ => True

instance : (call : Call) → Decidable call.InRange
  | load _ slot | store _ slot | iinc slot _ =>
    inferInstanceAs (Decidable (0 ≤ slot ∧ slot ≤ 65535))
  | emit _ | pushInt _ | pushBool _ | pushString _ | pushClass _ | newLabel | jump _ _ | bind _
  | field _ _ _ _ | invoke _ _ _ _ | typeOp _ _ | newArray _ | finish _ => .isTrue trivial

/-- A variable that is in range is written as it is. -/
theorem incremented_eq {slot delta : Int} (h : 0 ≤ slot ∧ slot ≤ 65535) :
    incremented slot delta = slot.toNat := by
  unfold incremented
  split
  · change (BitVec.ofInt 8 slot).toNat = slot.toNat
    rw [BitVec.toNat_ofInt]
    omega
  · exact toNat_ofInt16 h

end Call

/-! ## Calls that were made where control could come -/

/-- A call was made on a body that control could come to the end of, it did not fail, and what it made
of the pool is an earlier one of the given pool. -/
structure Live.Took (w : Live) (q : Pool) : Prop where
  apply : ∃ a : Code, a.reachable = true ∧ (w.call.apply (w.pool, a)).2.error = none ∧
    (w.call.apply (w.pool, a)).1.Requested q
  writes : w.call.writes = true

theorem requested_run (calls : List Call) (x : Pool × Code) : x.1.Requested (Call.run x calls).1 := by
  induction calls generalizing x with
  | nil => exact .refl
  | cons call calls ih => exact (requested_apply x.1 x.2 call).trans (ih (call.apply x))

theorem took_of_mem {calls : List Call} {x : Pool × Code} (he : (Call.run x calls).2.error = none)
    {w : Live} (hw : w ∈ Call.live x calls) :
    w.Took (Call.run x calls).1 ∧ x.1.Requested w.pool ∧ w.call ∈ calls := by
  induction calls generalizing x with
  | nil => cases hw
  | cons call calls ih =>
    have htail : w ∈ Call.live (call.apply x) calls → w.Took (Call.run x (call :: calls)).1 ∧
        x.1.Requested w.pool ∧ w.call ∈ call :: calls := by
      intro hw
      obtain ⟨htook, hreq, hmem⟩ := ih he hw
      exact ⟨htook, (requested_apply x.1 x.2 call).trans hreq, List.mem_cons_of_mem call hmem⟩
    rw [Call.live] at hw
    split at hw
    · rename_i hlive
      rw [Bool.and_eq_true] at hlive
      rcases List.mem_cons.mp hw with rfl | hw
      · exact ⟨⟨⟨x.2, hlive.1, Code.error_of_run he, requested_run calls _⟩, hlive.2⟩, .refl,
          List.mem_cons_self⟩
      · exact htail hw
    · exact htail hw

/-- What was asked for is found in all later pools that have not failed. -/
theorem index_of_answers {p q : Pool} {k : Pool.Key} {x : UInt16 × Pool}
    (hx : Pool.Answers Pool.anyMember p k x) (hq : x.2.Requested q) (he : q.error = none) :
    q.index[k]? = some x.1 := by
  have hkept := hq.kept hx.sound
  exact hkept.keeps _ _ (hx.found (hkept.le.error he))

section Pools

variable {p : Pool} {a : Code} {owner name desc : String} {op : Opcode}

theorem pool_pushString (p : Pool) (a : Code) (s : String) :
    (a.pushString p s).1 = (p.string s).2 := by
  unfold Code.pushString
  generalize p.string (Text.ofString s) = x
  rfl

theorem pool_pushClass (p : Pool) (a : Code) (name : String) :
    (a.pushClass p name).1 = (p.classRef name).2 := by
  unfold Code.pushClass
  generalize p.classRef name = x
  rfl

/-- A call for a field that does not fail asks the pool for it. -/
theorem pool_field (hr : a.reachable = true) (he : (a.field p op owner name desc).2.error = none) :
    (a.field p op owner name desc).1 = (p.fieldRef owner name desc).2 := by
  unfold Code.field at he ⊢
  simp only [hr, Bool.not_true, Bool.false_eq_true, if_false] at he ⊢
  split at he
  · exact absurd he (Code.fail_error a _)
  · generalize p.fieldRef owner name desc = x
    rfl

/-- A call for a call of a method that does not fail asks the pool for the method. -/
theorem pool_invoke (hr : a.reachable = true) (he : (a.invoke p op owner name desc).2.error = none) :
    (a.invoke p op owner name desc).1 = if op = .invokeInterface then
      (p.interfaceMethodRef owner name desc).2 else (p.methodRef owner name desc).2 := by
  unfold Code.invoke at he ⊢
  simp only [hr, Bool.not_true, Bool.false_eq_true, if_false] at he ⊢
  cases hd : descriptorSlots? desc with
  | none =>
    simp only [hd] at he
    exact absurd he (Code.fail_error a _)
  | some slots =>
    simp only [hd] at he ⊢
    by_cases h₁ : op = .invokeStatic
    · rw [if_pos h₁, if_neg (by rw [h₁]; decide)]
    by_cases h₂ : op = .invokeVirtual ∨ op = .invokeSpecial
    · rw [if_neg h₁, if_pos h₂, if_neg (by rcases h₂ with h | h <;> rw [h] <;> decide)]
    by_cases h₃ : op = .invokeInterface
    · rw [if_neg h₁, if_neg h₂, if_pos h₃, if_pos h₃]
    · simp only [if_neg h₁, if_neg h₂, if_neg h₃] at he
      exact absurd he (Code.fail_error a _)

theorem pool_typeOp (hr : a.reachable = true) (he : (a.typeOp p op name).2.error = none) :
    (a.typeOp p op name).1 = (p.classRef name).2 := by
  unfold Code.typeOp at he ⊢
  simp only [hr, Bool.not_true, Bool.false_eq_true, if_false] at he ⊢
  split at he
  · rename_i hop
    rw [if_pos hop]
  · exact absurd he (Code.fail_error a _)

end Pools

/-- The instruction of a call is shown as the call, whatever form it has. -/
theorem Live.Took.shows {w : Live} {q : Pool} {c : ParsedClass} {body : Code} {op : Opcode}
    {text : String} (hw : w.Took q) (hp : w.pool.Sound Pool.anyMember) (he : q.error = none)
    (h : q.ReadAs c.pool) (hslot : w.call.InRange)
    (hbound : ∀ o l, w.call = .jump o l → (body.label l).offset ≠ none)
    (hs : (body.resolve (w.call.instr w.pool)).Shown c op text) :
    w.call.Shows (fun l => (body.label l).offset) op text := by
  obtain ⟨at_, p, call⟩ := w
  obtain ⟨⟨a, hr, hae, hreq⟩, hwrites⟩ := hw
  dsimp only at hp hr hae hreq hwrites hslot hbound hs ⊢
  have hq : q.Right Pool.anyMember :=
    ((requested_apply p a call).trans hreq).kept hp |>.sound.right he
  have hmember (owner name desc : String) (f : UInt16 → UInt16 → Constant) (tag : UInt8)
      (htags : tag = 9 ∨ tag = 10 ∨ tag = 11) (htag : ∀ i j, (f i j).tag = tag)
      (hf : ∀ {q : Pool} {t : Text} {i j : UInt16},
        t = Text.ofString (Pool.memberText ⟨owner, name, desc⟩) →
        q.index[(⟨7, Text.ofString owner⟩ : Pool.Key)]? = some i →
        q.index[(⟨12, Text.ofString (Pool.pairText name desc)⟩ : Pool.Key)]? = some j →
        Pool.Spells Pool.anyMember q t (f i j))
      (hreq : (p.member f owner name desc).2.Requested q) :
      c.constant? (p.member f owner name desc).1 = some (owner ++ "." ++ name ++ ":" ++ desc) :=
    constant_member (m := ⟨owner, name, desc⟩) h hq (index_of_answers
      (Pool.answers_member (m := ⟨owner, name, desc⟩) hp trivial htag hf) hreq he) htags
  cases call with
  | emit o => exact hs
  | pushInt n =>
    rw [Call.instr] at hs
    simp only [Call.Shows]
    split at hs
    · rename_i hn
      rw [if_pos hn]
      exact hs
    · rename_i hn
      rw [if_neg hn]
      have hpool : (Call.apply (p, a) (.pushInt n)).1 = (p.integer n).2 := by
        simp only [Call.apply, Code.pushInt, if_neg hn]
      rw [hpool] at hreq
      exact ⟨hs.1, Option.some.inj <| hs.2.symm.trans (constant_integer h hq
        (index_of_answers (Pool.answers_integer hp n) hreq he))⟩
  | pushBool b => exact hs
  | pushString s =>
    rw [Call.apply, pool_pushString] at hreq
    exact ⟨hs.1, Option.some.inj <| hs.2.symm.trans (constant_string h hq
      (index_of_answers (Pool.answers_string hp _) hreq he))⟩
  | pushClass name =>
    rw [Call.apply, pool_pushClass] at hreq
    exact ⟨hs.1, Option.some.inj <| hs.2.symm.trans (constant_class h hq
      (index_of_answers (Pool.answers_classRef hp name) hreq he))⟩
  | load kind slot => exact hs
  | store kind slot => exact hs
  | iinc slot delta =>
    rw [Call.instr, Call.incremented_eq hslot] at hs
    have htext : toString slot.toNat = toString slot := by
      obtain ⟨n, rfl⟩ : ∃ n : Nat, slot = n := ⟨slot.toNat, (Int.toNat_of_nonneg hslot.1).symm⟩
      rw [Int.toNat_natCast]
      rfl
    simp only [Call.Shows, ← htext]
    exact hs
  | jump o l =>
    obtain ⟨target, ht⟩ := Option.ne_none_iff_exists'.mp (hbound o l rfl)
    simp only [Call.instr, Code.resolve, ht, Option.getD_some] at hs
    exact ⟨hs.1, target, ht, hs.2⟩
  | field o owner name desc =>
    simp only [Call.apply] at hae hreq
    rw [pool_field hr hae, Pool.fieldRef] at hreq
    rw [Call.instr, Pool.fieldRef] at hs
    exact ⟨hs.1, Option.some.inj <| hs.2.symm.trans (hmember owner name desc .fieldRef 9 (by decide) (fun _ _ => rfl)
      (fun ht hi hj => ⟨_, trivial, ht, hi, hj⟩) hreq)⟩
  | invoke o owner name desc =>
    simp only [Call.apply] at hae hreq
    rw [pool_invoke hr hae] at hreq
    rw [Call.instr] at hs
    by_cases ho : o = .invokeInterface
    · rw [if_pos ho, Pool.interfaceMethodRef] at hs hreq
      exact ⟨hs.1.trans ho.symm, Option.some.inj <| hs.2.symm.trans (hmember owner name desc .interfaceMethodRef 11 (by decide)
        (fun _ _ => rfl) (fun ht hi hj => ⟨_, trivial, ht, hi, hj⟩) hreq)⟩
    · rw [if_neg ho, Pool.methodRef] at hs hreq
      exact ⟨hs.1, Option.some.inj <| hs.2.symm.trans (hmember owner name desc .methodRef 10 (by decide) (fun _ _ => rfl)
        (fun ht hi hj => ⟨_, trivial, ht, hi, hj⟩) hreq)⟩
  | typeOp o name =>
    simp only [Call.apply] at hae hreq
    rw [pool_typeOp hr hae] at hreq
    exact ⟨hs.1, Option.some.inj <| hs.2.symm.trans (constant_class h hq
      (index_of_answers (Pool.answers_classRef hp name) hreq he))⟩
  | newArray elements => exact hs
  | newLabel | bind l | finish ls => cases hwrites

/-! ## Whole bodies -/

/-- A label that a branch of a finished body goes to has its place. -/
theorem Code.Traced.placed {T : List Placed} {c : Code} (h : c.Traced T)
    (hall : ∀ l, (c.label l).pending = []) {e : Placed} (he : e ∈ T) {op : Opcode} {l : Nat}
    (hi : e.instr = .branch op l) : (c.label l).offset ≠ none := by
  intro ho
  have hwaits := h.pending e he op l hi ho
  rw [hall l] at hwaits
  cases hwaits

/-- The body of a finished sequence of calls is shown, against the pool in the end, as exactly the calls
that were made where control could come, in order and each one at its place. -/
theorem instructions_shown_live (p : Pool) (hp : Pool.Requested .empty p) (params : Nat)
    (calls : List Call) (hknown : Call.AllKnown 0 calls) (hrange : ∀ call ∈ calls, call.InRange)
    (hfinish : ((Call.run (p, .start params) calls).2.finish
      (List.range (Call.run (p, .start params) calls).2.labels.size)).error = none)
    (q : Pool) (hq : (Call.run (p, .start params) calls).1.Requested q) (he : q.error = none)
    (c : ParsedClass) (hc : q.ReadAs c.pool) :
    ∃ is, c.instructions (Call.run (p, .start params) calls).2.bytes = .ok is ∧
      List.Forall₂ (fun w i => i.offset = w.at_ ∧
          w.call.Shows (fun l => Call.boundAt l (p, .start params) calls) i.op i.operand)
        (Call.live (p, .start params) calls) is := by
  obtain ⟨herr, hall⟩ := Code.settled_of_finish hfinish
  obtain ⟨T, hT, -, hlive, hplaces⟩ :=
    Code.levelled_calls calls (Code.levelled_start params) hknown herr
  rw [List.nil_append] at hT
  have hoffset : ∀ l, ((Call.run (p, .start params) calls).2.label l).offset =
      Call.boundAt l (p, .start params) calls := by
    intro l
    rw [hplaces]
    have hl : (Code.start params).label l = default := by simp [Code.start, Code.label]
    rw [hl]
    rfl
  have hsound : p.Sound Pool.anyMember := (hp.kept (Pool.sound_empty _)).sound
  have hshowable := ((requested_run calls (p, .start params)).trans hq).showable hsound he hc
  obtain ⟨is, his, hshown⟩ := hshowable.lists (instructions_shown (hT.traced.decodeAll hall) c)
  refine ⟨is, his, ?_⟩
  -- The lines of the listing are those of the trace, and the trace is that of the calls.
  have hmap : (T.map Prod.fst).map (fun e =>
        (e.at_, (Call.run (p, .start params) calls).2.resolve e.instr)) =
      (Call.live (p, .start params) calls).map fun w =>
        (w.at_, (Call.run (p, .start params) calls).2.resolve (w.call.instr w.pool)) := by
    have := congrArg (List.map fun x =>
      (x.1, (Call.run (p, .start params) calls).2.resolve x.2)) hlive
    simpa only [List.map_map, Function.comp_def, Live.placed] using this
  rw [hmap] at hshown
  have hpairs := List.forall₂_and_left _ _ |>.mpr ⟨fun w hw => hw, List.forall₂_map_left_iff.mp hshown⟩
  refine hpairs.imp fun w i h => ?_
  obtain ⟨hw, hat, hi⟩ := h
  refine ⟨hat, ?_⟩
  obtain ⟨⟨⟨a, hr, hae, hlater⟩, hwrites⟩, hreq, hmem⟩ := took_of_mem herr hw
  have htook : w.Took q := ⟨⟨a, hr, hae, hlater.trans hq⟩, hwrites⟩
  have hbound : ∀ o l, w.call = .jump o l →
      ((Call.run (p, .start params) calls).2.label l).offset ≠ none := by
    intro o l hcall
    have hplaced : w.placed ∈ T.map fun e => (e.1.at_, e.1.instr) := by
      rw [hlive]
      exact List.mem_map_of_mem hw
    obtain ⟨e, he, heq⟩ := List.mem_map.mp hplaced
    have hinstr : e.1.instr = .branch o l := by
      rw [(Prod.mk.inj heq).2, hcall]
      rfl
    exact hT.traced.placed hall (List.mem_map_of_mem he) hinstr
  have hshows := htook.shows (hreq.kept hsound).sound he hc (hrange _ hmem) hbound hi
  simpa only [hoffset] using hshows

/-- A loop that counts a variable down, with a call that comes after its jump back. -/
def countFrom : List Call :=
  [.newLabel, .newLabel, .pushInt 5, .store .int 300, .bind 0, .load .int 300, .jump .ifEq 1,
    .iinc 300 (-1), .jump .goto 0, .emit .nop, .bind 1, .emit .vreturn]

theorem instructions_shown_countFrom : Call.AllKnown 0 countFrom ∧
    (∀ call ∈ countFrom, call.InRange) ∧
    ((Call.run (.empty, .start 0) countFrom).2.finish [0, 1]).error = none ∧
    ∃ c : ParsedClass, Pool.empty.ReadAs c.pool ∧
      ∃ is, c.instructions (Call.run (.empty, .start 0) countFrom).2.bytes = .ok is ∧
        is.length = 7 := by
  have hknown : Call.AllKnown 0 countFrom := by decide
  have hrange : ∀ call ∈ countFrom, call.InRange := by decide
  have hfinish : ((Call.run (.empty, .start 0) countFrom).2.finish [0, 1]).error = none := by decide
  have hread : Pool.empty.ReadAs #[.unused] := ⟨[], rfl, .nil⟩
  obtain ⟨is, his, hshown⟩ := instructions_shown_live .empty .refl 0 countFrom hknown hrange hfinish
    .empty .refl rfl ⟨0, 49, #[.unused], ⟨0x21⟩, "A", "", [], [], [], ""⟩ hread
  exact ⟨hknown, hrange, hfinish, _, hread, is, his, hshown.length_eq.symm⟩

end ClassFile
end Kotlet

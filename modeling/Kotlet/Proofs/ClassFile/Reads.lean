import Kotlet.ClassFile.Parsed

/-!
# Reading what was written

A step of reading is described by the bytes it takes and the value it makes of them, whatever stands
before and after those bytes. Such descriptions are put together the way the steps are.

* `Reads` : a step takes exactly the given bytes;
* `Reads.pure`, `Reads.bind`, `reads_lift` : steps put together;
* `reads_take`, `reads_u1`, `reads_u2`, `reads_u4` : numbers and runs of bytes;
* `reads_times` : a step for each member of a list;
* `Concludes`, `ReadsLast`, `Fails` : a step on all the bytes there are, and that it takes them or fails.
-/

namespace Kotlet
namespace ParsedClass

open ClassFile

/-- The step takes the bytes `bs` and makes `a` of them, wherever they stand. -/
def Reads {α : Type} (r : Reader α) (bs : List UInt8) (a : α) : Prop :=
  ∀ pre post : List UInt8, r ⟨(pre ++ bs ++ post).toArray, pre.length, true⟩ =
    .ok (a, ⟨(pre ++ bs ++ post).toArray, pre.length + bs.length, true⟩)

section Steps

variable {α β : Type} {r : Reader α} {f : α → Reader β} {bs bs' : List UInt8} {a : α} {b : β}

theorem Reads.pure (a : α) : Reads (pure a) [] a := fun _ _ => rfl

theorem Reads.bind (h : Reads r bs a) (h' : Reads (f a) bs' b) :
    Reads (r >>= f) (bs ++ bs') b := by
  intro pre post
  have hr := h pre (bs' ++ post)
  have hf := h' (pre ++ bs) post
  simp only [List.append_assoc, List.length_append, Nat.add_assoc] at hr hf ⊢
  change Except.bind (r _) (fun x => f x.1 x.2) = _
  rw [hr]
  exact hf

/-- A step that reads nothing first. -/
theorem Reads.bind_nil (h : Reads r [] a) (h' : Reads (f a) bs b) : Reads (r >>= f) bs b :=
  Reads.bind h h'

/-- A last step that reads nothing. -/
theorem Reads.map (h : Reads r bs a) (g : α → β) :
    Reads (do return g (← r)) bs (g a) := by
  have := Reads.bind (f := fun x => Pure.pure (g x)) h (Reads.pure (g a))
  rwa [List.append_nil] at this

/-- An answer that needs no bytes. -/
theorem reads_lift {x : Except ReadError α} (h : x = .ok a) : Reads (liftM x) [] a := by
  subst h
  intro pre post
  rfl

theorem reads_intact : Reads intact [] true := fun _ _ => rfl

theorem reads_requireIntact : Reads requireIntact [] () := fun _ _ => rfl

end Steps

/-! ## The end of the bytes -/

section Last

variable {α β : Type} {r : Reader α} {f : α → Reader β} {bs bs' : List UInt8} {a : α} {b : β}
  {Q : Except ReadError (β × Cursor) → Prop}

/-- What comes of the step is in `Q` for the bytes `bs`, if nothing stands after them. -/
def Concludes (r : Reader α) (bs : List UInt8) (Q : Except ReadError (α × Cursor) → Prop) : Prop :=
  ∀ pre : List UInt8, Q (r ⟨(pre ++ bs).toArray, pre.length, true⟩)

/-- The step makes `a` of the bytes `bs`, if nothing stands after them. -/
def ReadsLast (r : Reader α) (bs : List UInt8) (a : α) : Prop := Concludes r bs fun x => ∃ c, x = .ok (a, c)

/-- The step fails on the bytes `bs`, if nothing stands after them. -/
def Fails (r : Reader α) (bs : List UInt8) : Prop := Concludes r bs fun x => ∃ e, x = .error e

theorem Reads.last (h : Reads r bs a) (h' : Concludes (f a) bs' Q) : Concludes (r >>= f) (bs ++ bs') Q := by
  intro pre
  have hr := h pre bs'
  have hf := h' (pre ++ bs)
  simp only [List.append_assoc, List.length_append] at hr hf ⊢
  change Q (Except.bind (r _) (fun x => f x.1 x.2))
  rw [hr]
  exact hf

theorem Reads.last_nil (h : Reads r [] a) (h' : Concludes (f a) bs Q) : Concludes (r >>= f) bs Q := h.last h'

/-- A step that leaves the rest. -/
theorem Reads.readsLast (h : Reads r bs a) (rest : List UInt8) : ReadsLast r (bs ++ rest) a := by
  intro pre
  have hr := h pre rest
  rw [List.append_assoc] at hr
  exact ⟨_, hr⟩

/-- A failure is the last step. -/
theorem Fails.bind (h : Fails r bs) : Fails (r >>= f) bs := by
  intro pre
  obtain ⟨e, he⟩ := h pre
  refine ⟨e, ?_⟩
  change Except.bind (r _) (fun x => f x.1 x.2) = _
  rw [he]
  rfl

theorem fails_lift {x : Except ReadError α} {e : ReadError} (h : x = .error e) (bs : List UInt8) :
    Fails (liftM x) bs := by
  subst h
  exact fun _ => ⟨e, rfl⟩

/-- At the end of the bytes the place is their number. -/
theorem readsLast_get {g : Cursor → Reader β}
    (h : ∀ c : Cursor, c.pos = c.data.size → g c = pure b) : ReadsLast (get >>= g) [] b := by
  intro pre
  refine ⟨⟨(pre ++ []).toArray, pre.length, true⟩, ?_⟩
  change g ⟨(pre ++ []).toArray, pre.length, true⟩ _ = _
  rw [h _ (by simp)]
  rfl

end Last

/-! ## Numbers -/

theorem take?_eq {n : Nat} {c : Cursor} (hok : c.ok = true) (hn : c.pos + n ≤ c.data.size) :
    take? n c = .ok (some (c.data.extract c.pos (c.pos + n)), { c with pos := c.pos + n }) := by
  have hlt : ¬ c.data.size < c.pos + n := Nat.not_lt.mpr hn
  simp only [take?, bind, StateT.bind, get, getThe, MonadStateOf.get, StateT.get, Except.bind, pure,
    Except.pure, hok, Bool.not_true, Bool.false_eq_true, if_false, if_neg hlt]
  rfl

theorem reads_take (bs : List UInt8) : Reads (take? bs.length) bs (some bs.toArray) := by
  intro pre post
  rw [take?_eq rfl (by simp)]
  simp

theorem reads_number (bs : List UInt8) :
    Reads (number bs.length) bs (bigEndian bs.toArray) := (reads_take bs).map _

theorem reads_u1 (n : UInt8) : Reads u1 [n] n := by
  have h := (reads_number [n]).map UInt8.ofNat
  have hn : UInt8.ofNat (bigEndian [n].toArray) = n := by simp [bigEndian]
  rw [hn] at h
  exact h

/-- A byte that tells what comes after it. -/
theorem reads_tag {α : Type} {f : UInt8 → Reader α} {bs : List UInt8} {a : α} (n : UInt8)
    (h : Reads (f n) bs a) : Reads (u1 >>= f) (n :: bs) a := (reads_u1 n).bind h

theorem bigEndian_bytes2 (n : UInt16) : bigEndian (bytes2 n).toArray = n.toNat := by
  have hlt := n.toNat_lt
  have h8 : (8 : UInt16).toNat % 16 = 8 := rfl
  simp only [bigEndian, bytes2, List.foldl_toArray, List.foldl_cons, List.foldl_nil,
    UInt16.toNat_toUInt8, UInt16.toNat_shiftRight, h8, Nat.shiftRight_eq_div_pow]
  omega

theorem reads_u2 (n : UInt16) : Reads u2 (bytes2 n) n := by
  have h := (reads_number (bytes2 n)).map UInt16.ofNat
  rw [bigEndian_bytes2, UInt16.ofNat_toNat] at h
  exact h

theorem bigEndian_bytes4 (n : UInt32) : bigEndian (bytes4 n).toArray = n.toNat := by
  have hlt := n.toNat_lt
  have h8 : (8 : UInt32).toNat % 32 = 8 := rfl
  have h16 : (16 : UInt32).toNat % 32 = 16 := rfl
  have h24 : (24 : UInt32).toNat % 32 = 24 := rfl
  simp only [bigEndian, bytes4, List.foldl_toArray, List.foldl_cons, List.foldl_nil,
    UInt32.toNat_toUInt8, UInt32.toNat_shiftRight, h8, h16, h24, Nat.shiftRight_eq_div_pow]
  omega

theorem reads_u4 (n : UInt32) : Reads u4 (bytes4 n) n := by
  have h := (reads_number (bytes4 n)).map UInt32.ofNat
  rw [bigEndian_bytes4, UInt32.ofNat_toNat] at h
  exact h

/-! ## Lists -/

/-- A step that reads what is written for a member of a list, as often as there are members. -/
theorem reads_times {α β : Type} {r : Reader β} {w : α → List UInt8} {v : α → β} (xs : List α)
    (h : ∀ x ∈ xs, Reads r (w x) (v x)) (acc : List β) :
    Reads (times r xs.length acc) (xs.flatMap w) (acc.reverse ++ xs.map v) := by
  induction xs generalizing acc with
  | nil =>
    rw [List.map_nil, List.append_nil]
    exact .pure _
  | cons x xs ih =>
    have hrest := ih (fun y hy => h y (List.mem_cons_of_mem x hy)) (v x :: acc)
    rw [List.reverse_cons, List.append_assoc] at hrest
    exact .bind_nil reads_intact (.bind (h x List.mem_cons_self) hrest)

/-- The first of several steps fails. -/
theorem fails_times {α : Type} {r : Reader α} {bs : List UInt8} (h : Fails r bs) (n : Nat)
    (acc : List α) : Fails (times r (n + 1) acc) bs := reads_intact.last_nil h.bind

end ParsedClass
end Kotlet

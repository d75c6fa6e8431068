import Std.Data.String.ToInt
import Kotlet.ClassFile.Pool
import Kotlet.Proofs.ClassFile.ModifiedUtf8

/-!
# What the indices of a pool stand for

An index is resolved through the entries alone, the way a class loader does it; the table by which
a pool finds its constants again plays no part in that.

* `Pool.constant?`, `Pool.text?`, `Pool.class?`, `Pool.member?` : the constant at an index;
* `Pool.Le` : a pool with constants added; what an index stands for never changes;
* `Pool.Grounded` : references lead to earlier entries;
* `Pool.Sound` : a pool whose table is right about its entries, as long as no request has failed.
  Members are asked for under names from which the parts of a member can be told;
* `Pool.Answers` : the answer to a request; `answers_utf8` and its kin, one for each request;
* `Answers.member?` and its kin : the answer resolves to what was asked for;
* `Pool.Roomy` : a pool with room for some more constants, so that requests for short names do not
  fail.
-/

namespace Kotlet
namespace ClassFile

/-- A member of a class. -/
structure Member where
  owner : String
  name : String
  desc : String
  deriving DecidableEq

/-- The indices of the class and of the name with type that a member consists of. -/
def Constant.parts? : Constant → Option (UInt16 × UInt16)
  | .fieldRef i j => some (i, j)
  | .methodRef i j => some (i, j)
  | .interfaceMethodRef i j => some (i, j)
  | _ => none

/-- The indices in a constant, with the tags of the constants that they must lead to. -/
def Constant.refs : Constant → List (UInt8 × UInt16)
  | utf8 _ | integer _ => []
  | classRef i | string i => [(1, i)]
  | nameAndType i j => [(1, i), (1, j)]
  | fieldRef i j | methodRef i j | interfaceMethodRef i j => [(7, i), (12, j)]

namespace Pool

/-- The constant at an index. -/
def constant? (p : Pool) (i : UInt16) : Option Constant :=
  if i = 0 then none else p.entries[i.toNat - 1]?

/-- The text at an index. -/
def text? (p : Pool) (i : UInt16) : Option String :=
  match p.constant? i with
  | some (.utf8 bytes) => (ModifiedUtf8.decode bytes).toOption
  | _ => none

/-- The name of the class at an index. -/
def class? (p : Pool) (i : UInt16) : Option String :=
  match p.constant? i with
  | some (.classRef j) => p.text? j
  | _ => none

/-- The name and the type at an index. -/
def nameAndType? (p : Pool) (i : UInt16) : Option (String × String) :=
  match p.constant? i with
  | some (.nameAndType j k) => do return (← p.text? j, ← p.text? k)
  | _ => none

/-- The member at an index. -/
def member? (p : Pool) (i : UInt16) : Option Member := do
  let (j, k) ← (← p.constant? i).parts?
  let (name, desc) ← p.nameAndType? k
  return ⟨← p.class? j, name, desc⟩

/-! ## Larger pools -/

/-- The second pool has all constants of the first one at the same indices, and forgets no
failure. -/
structure Le (p q : Pool) : Prop where
  entries : p.entries.toList <+: q.entries.toList
  error : q.error = none → p.error = none

namespace Le

variable {p q r : Pool}

theorem refl (p : Pool) : p.Le p := ⟨List.prefix_refl _, id⟩

theorem trans (h : p.Le q) (h' : q.Le r) : p.Le r :=
  ⟨h.entries.trans h'.entries, fun hr => h.error (h'.error hr)⟩

theorem constant? (h : p.Le q) {i : UInt16} {c : Constant} (hc : p.constant? i = some c) :
    q.constant? i = some c := by
  unfold Pool.constant? at hc ⊢
  split at hc
  · cases hc
  · rename_i hi
    rw [if_neg hi]
    obtain ⟨tail, ht⟩ := h.entries
    rw [← Array.getElem?_toList] at hc ⊢
    rw [← ht, List.getElem?_append_left (List.getElem?_eq_some_iff.mp hc).1]
    exact hc

theorem text? (h : p.Le q) {i : UInt16} {s : String} (hs : p.text? i = some s) :
    q.text? i = some s := by
  unfold Pool.text? at hs ⊢
  split at hs
  · rename_i hc
    rw [h.constant? hc]
    exact hs
  · cases hs

theorem class? (h : p.Le q) {i : UInt16} {s : String} (hs : p.class? i = some s) :
    q.class? i = some s := by
  unfold Pool.class? at hs ⊢
  split at hs
  · rename_i hc
    rw [h.constant? hc]
    exact h.text? hs
  · cases hs

theorem nameAndType? (h : p.Le q) {i : UInt16} {x : String × String}
    (hx : p.nameAndType? i = some x) : q.nameAndType? i = some x := by
  unfold Pool.nameAndType? at hx ⊢
  split at hx
  · rename_i hc
    rw [h.constant? hc]
    simp only [Option.bind_eq_bind, Option.bind_eq_some_iff] at hx ⊢
    obtain ⟨n, hn, d, hd, hx⟩ := hx
    exact ⟨n, h.text? hn, d, h.text? hd, hx⟩
  · cases hx

theorem member? (h : p.Le q) {i : UInt16} {m : Member} (hm : p.member? i = some m) :
    q.member? i = some m := by
  unfold Pool.member? at hm ⊢
  simp only [Option.bind_eq_bind, Option.bind_eq_some_iff] at hm ⊢
  obtain ⟨c, hc, x, hx, y, hy, o, ho, hm⟩ := hm
  exact ⟨c, h.constant? hc, x, hx, y, h.nameAndType? hy, o, h.class? ho, hm⟩

end Le

/-- A failure is kept. -/
theorem fail_error (p : Pool) (e : BuildError) : (p.fail e).error ≠ none := by
  unfold fail
  split
  · rename_i h
    intro hn
    simp [hn] at h
  · simp

theorem le_fail (p : Pool) (e : BuildError) : p.Le (p.fail e) := by
  refine ⟨?_, fun h => absurd h (fail_error p e)⟩
  unfold fail
  split <;> exact List.prefix_refl _

/-! ## Requests that consist of others -/

theorem classRef_eq (p : Pool) (name : String) :
    p.classRef name = (p.utf8 name).2.add name (.classRef (p.utf8 name).1) := by
  unfold classRef
  generalize p.utf8 _ = x
  rfl

theorem string_eq (p : Pool) (t : Text) :
    p.string t = (p.utf8 t).2.add t (.string (p.utf8 t).1) := by
  unfold string
  generalize p.utf8 _ = x
  rfl

theorem nameAndType_eq (p : Pool) (name desc : String) :
    p.nameAndType name desc = ((p.utf8 name).2.utf8 desc).2.add (name ++ ":" ++ desc)
      (.nameAndType (p.utf8 name).1 ((p.utf8 name).2.utf8 desc).1) := by
  unfold nameAndType
  generalize p.utf8 _ = x
  obtain ⟨i, q⟩ := x
  dsimp only

theorem member_eq (p : Pool) (make : UInt16 → UInt16 → Constant) (owner name desc : String) :
    p.member make owner name desc =
      ((p.classRef owner).2.nameAndType name desc).2.add (owner ++ "." ++ name ++ ":" ++ desc)
        (make (p.classRef owner).1 ((p.classRef owner).2.nameAndType name desc).1) := by
  unfold member
  generalize p.classRef _ = x
  obtain ⟨i, q⟩ := x
  dsimp only

/-! ## Members and their texts -/

/-- The text of a name with a type. -/
def pairText (name desc : String) : String := name ++ ":" ++ desc

/-- The text of a member. -/
def memberText (m : Member) : String := m.owner ++ "." ++ m.name ++ ":" ++ m.desc

/-- Members that can be told from their texts. -/
structure Legible (A : Member → Prop) : Prop where
  member : ∀ {m n : Member}, A m → A n → memberText m = memberText n → m = n
  pair : ∀ {m n : Member}, A m → A n → pairText m.name m.desc = pairText n.name n.desc →
    m.name = n.name ∧ m.desc = n.desc

/-- A text is cut at the last place of a character in one way. -/
theorem eq_of_append_cons {α : Type} {c : α} {l₁ l₂ d₁ d₂ : List α} (h₁ : c ∉ d₁) (h₂ : c ∉ d₂)
    (h : l₁ ++ c :: d₁ = l₂ ++ c :: d₂) : l₁ = l₂ ∧ d₁ = d₂ := by
  induction l₁ generalizing l₂ with
  | nil =>
    cases l₂ with
    | nil => exact ⟨rfl, (List.cons.inj h).2⟩
    | cons y ys =>
      have hd := (List.cons.inj h).2
      exact absurd (by simp [hd]) h₁
  | cons x xs ih =>
    cases l₂ with
    | nil =>
      have hd := (List.cons.inj h).2
      exact absurd (by simp [← hd]) h₂
    | cons y ys =>
      obtain ⟨hx, hxs⟩ := List.cons.inj h
      obtain ⟨hl, hd⟩ := ih hxs
      exact ⟨by rw [hx, hl], hd⟩

/-- A text is cut at the first place of a character in one way. -/
theorem eq_of_cons_append {α : Type} {c : α} {l₁ l₂ d₁ d₂ : List α} (h₁ : c ∉ l₁) (h₂ : c ∉ l₂)
    (h : l₁ ++ c :: d₁ = l₂ ++ c :: d₂) : l₁ = l₂ ∧ d₁ = d₂ := by
  have hrev := congrArg List.reverse h
  simp only [List.reverse_append, List.reverse_cons, List.append_assoc, List.singleton_append] at hrev
  obtain ⟨hd, hl⟩ := eq_of_append_cons (fun hc => h₁ (List.mem_reverse.mp hc))
    (fun hc => h₂ (List.mem_reverse.mp hc)) hrev
  exact ⟨List.reverse_inj.mp hl, List.reverse_inj.mp hd⟩

/-! ## Sound pools -/

/-- The constant is the one that a text stands for. -/
def Spells (A : Member → Prop) (p : Pool) (t : Text) : Constant → Prop
  | .utf8 bytes => bytes = ModifiedUtf8.encode t
  | .integer n => t = Text.ofString (toString n.toInt)
  | .classRef i => p.index[(⟨1, t⟩ : Key)]? = some i
  | .string i => p.index[(⟨1, t⟩ : Key)]? = some i
  | .nameAndType i j => ∃ m : Member, A m ∧ t = Text.ofString (pairText m.name m.desc) ∧
      p.index[(⟨1, Text.ofString m.name⟩ : Key)]? = some i ∧
      p.index[(⟨1, Text.ofString m.desc⟩ : Key)]? = some j
  | .fieldRef i j | .methodRef i j | .interfaceMethodRef i j =>
    ∃ m : Member, A m ∧ t = Text.ofString (memberText m) ∧
      p.index[(⟨7, Text.ofString m.owner⟩ : Key)]? = some i ∧
      p.index[(⟨12, Text.ofString (pairText m.name m.desc)⟩ : Key)]? = some j

/-- References lead to earlier entries of the right kind. -/
def Grounded (p : Pool) : Prop :=
  ∀ (n : Nat) (c : Constant), p.entries[n]? = some c → ∀ x ∈ c.refs,
    x.2.toNat ≤ n ∧ ∃ d, p.constant? x.2 = some d ∧ d.tag = x.1

/-- The table is right about the entries, and so are the references. -/
structure Right (A : Member → Prop) (p : Pool) : Prop where
  size : p.size ≤ maxSize
  entry : ∀ (k : Key) (i : UInt16), p.index[k]? = some i →
    ∃ c, p.constant? i = some c ∧ c.tag = k.tag ∧ Spells A p k.text c
  grounded : p.Grounded

/-- The pool is right unless a request failed, which takes a limit of the format. -/
structure Sound (A : Member → Prop) (p : Pool) : Prop where
  right : p.error = none → Right A p
  limit : ∀ e, p.error = some e → e.isLimit = true

theorem sound_empty (A : Member → Prop) : Sound A empty :=
  ⟨fun _ => ⟨by decide, fun k i h => by simp [empty] at h, fun n c h => by simp [empty] at h⟩,
    fun e h => by cases h⟩

section Sound

variable {A : Member → Prop} {p : Pool}

/-- A text stands for one constant of each kind. -/
theorem Spells.unique (hA : Legible A) {t : Text} {c d : Constant} (hc : Spells A p t c)
    (hd : Spells A p t d) (htag : c.tag = d.tag) : c = d := by
  have hmember {m n : Member} {i j i' j' : UInt16} (hm : A m) (hn : A n)
      (ht : t = Text.ofString (memberText m)) (ht' : t = Text.ofString (memberText n))
      (hi : p.index[(⟨7, Text.ofString m.owner⟩ : Key)]? = some i)
      (hj : p.index[(⟨12, Text.ofString (pairText m.name m.desc)⟩ : Key)]? = some j)
      (hi' : p.index[(⟨7, Text.ofString n.owner⟩ : Key)]? = some i')
      (hj' : p.index[(⟨12, Text.ofString (pairText n.name n.desc)⟩ : Key)]? = some j') :
      i = i' ∧ j = j' := by
    obtain rfl := hA.member hm hn (Text.ofString_inj (ht.symm.trans ht'))
    exact ⟨Option.some.inj (hi.symm.trans hi'), Option.some.inj (hj.symm.trans hj')⟩
  cases c <;> cases d <;> cases htag
  · simp only [Spells] at hc hd
    rw [hc, hd]
  · simp only [Spells] at hc hd
    have hn := Int.repr_injective (Text.ofString_inj (hc.symm.trans hd))
    rw [Int32.toInt_inj.mp hn]
  · rw [Option.some.inj (hc.symm.trans hd)]
  · rw [Option.some.inj (hc.symm.trans hd)]
  · obtain ⟨m, hm, ht, hi, hj⟩ := hc
    obtain ⟨n, hn, ht', hi', hj'⟩ := hd
    obtain ⟨hname, hdesc⟩ := hA.pair hm hn (Text.ofString_inj (ht.symm.trans ht'))
    rw [← hname] at hi'
    rw [← hdesc] at hj'
    rw [Option.some.inj (hi.symm.trans hi'), Option.some.inj (hj.symm.trans hj')]
  all_goals
    obtain ⟨m, hm, ht, hi, hj⟩ := hc
    obtain ⟨n, hn, ht', hi', hj'⟩ := hd
    obtain ⟨rfl, rfl⟩ := hmember hm hn ht ht' hi hj hi' hj'
    rfl

theorem Spells.mono {q : Pool} (h : ∀ (k : Key) i, p.index[k]? = some i → q.index[k]? = some i)
    {t : Text} {c : Constant} (hc : Spells A p t c) : Spells A q t c := by
  cases c with
  | utf8 bytes => exact hc
  | integer n => exact hc
  | classRef i => exact h _ _ hc
  | string i => exact h _ _ hc
  | nameAndType i j =>
    obtain ⟨m, hm, ht, hi, hj⟩ := hc
    exact ⟨m, hm, ht, h _ _ hi, h _ _ hj⟩
  | fieldRef i j | methodRef i j | interfaceMethodRef i j =>
    obtain ⟨m, hm, ht, hi, hj⟩ := hc
    exact ⟨m, hm, ht, h _ _ hi, h _ _ hj⟩

theorem toNat_bounds {p : Pool} {i : UInt16} {c : Constant} (h : p.constant? i = some c) :
    1 ≤ i.toNat ∧ i.toNat < p.size := by
  unfold constant? at h
  split at h
  · cases h
  · rename_i hi
    have hpos : i.toNat ≠ 0 := fun h0 => hi (UInt16.toNat_inj.mp h0)
    have hlt := (Array.getElem?_eq_some_iff.mp h).1
    unfold size
    omega

/-- What a text stands for refers to constants that are there. -/
theorem Spells.refs (hp : Right A p) {t : Text} {c : Constant}
    (hc : Spells A p t c) : ∀ x ∈ c.refs, ∃ d, p.constant? x.2 = some d ∧ d.tag = x.1 := by
  have hfound : ∀ {k : Key} {i : UInt16}, p.index[k]? = some i →
      ∃ d, p.constant? i = some d ∧ d.tag = k.tag := by
    intro k i hk
    obtain ⟨d, hd, htag, -⟩ := hp.entry k i hk
    exact ⟨d, hd, htag⟩
  cases c with
  | utf8 bytes | integer n => simp [Constant.refs]
  | classRef i | string i =>
    simp only [Constant.refs, List.mem_singleton, forall_eq]
    exact hfound hc
  | nameAndType i j | fieldRef i j | methodRef i j | interfaceMethodRef i j =>
    obtain ⟨m, -, -, hi, hj⟩ := hc
    simp only [Constant.refs, List.mem_cons, List.not_mem_nil, or_false, forall_eq_or_imp, forall_eq]
    exact ⟨hfound hi, hfound hj⟩

/-- It does not matter for what is there that the names of members are told apart. -/
theorem Spells.imp {B : Member → Prop} (h : ∀ m, A m → B m) {t : Text} {c : Constant}
    (hc : Spells A p t c) : Spells B p t c := by
  cases c with
  | nameAndType i j | fieldRef i j | methodRef i j | interfaceMethodRef i j =>
    obtain ⟨m, hm, hrest⟩ := hc
    exact ⟨m, h m hm, hrest⟩
  | _ => exact hc

theorem Sound.imp {B : Member → Prop} (h : ∀ m, A m → B m) (hp : Sound A p) : Sound B p where
  right he :=
    { size := (hp.right he).size
      entry k i hi := by
        obtain ⟨c, hc, htag, hsp⟩ := (hp.right he).entry k i hi
        exact ⟨c, hc, htag, hsp.imp h⟩
      grounded := (hp.right he).grounded }
  limit := hp.limit

/-! ## Requests -/

/-- The answer to the request for the constant of a key. -/
structure Answers (A : Member → Prop) (p : Pool) (k : Key) (x : UInt16 × Pool) : Prop where
  le : p.Le x.2
  sound : Sound A x.2
  keeps : ∀ (k : Key) i, p.index[k]? = some i → x.2.index[k]? = some i
  found : x.2.error = none → x.2.index[k]? = some x.1

theorem answers_fail (hp : Sound A p) {e : BuildError} (he : e.isLimit = true) (k : Key) :
    Answers A p k (0, p.fail e) where
  le := le_fail p e
  sound := by
    refine ⟨fun h => absurd h (fail_error p e), fun e' h => ?_⟩
    unfold fail at h
    split at h
    · exact hp.limit e' h
    · cases h
      exact he
  keeps k i h := by
    unfold fail
    split <;> exact h
  found h := absurd h (fail_error p e)

/-- A new constant at the end of a pool. -/
theorem constant?_push (hs : p.size < maxSize) (c : Constant) (index : Std.HashMap Key UInt16) :
    constant? { p with entries := p.entries.push c, index := index } (UInt16.ofNat p.size) =
      some c := by
  have hn : (UInt16.ofNat p.size).toNat = p.entries.size + 1 := by
    rw [UInt16.toNat_ofNat']
    unfold size maxSize at hs
    simp only [size]
    omega
  unfold constant?
  rw [if_neg, hn]
  · simp
  · intro h
    simp [h] at hn

theorem answers_add (hp : Sound A p) (t : Text) (c : Constant)
    (hc : p.error = none → Spells A p t c) : Answers A p ⟨c.tag, t⟩ (p.add t c) := by
  unfold add
  cases hi : p.index[(⟨c.tag, t⟩ : Key)]? with
  | some i =>
    simp only [hi]
    exact ⟨.refl p, hp, fun _ _ h => h, fun _ => hi⟩
  | none =>
    simp only [hi]
    by_cases hs : maxSize ≤ p.size
    · rw [if_pos hs]
      exact answers_fail hp (e := .tooManyConstants) rfl _
    · rw [if_neg hs]
      have hle : p.Le { p with
          entries := p.entries.push c
          index := p.index.insert ⟨c.tag, t⟩ (UInt16.ofNat p.size) } :=
        ⟨by simp, id⟩
      have hkeeps : ∀ (k : Key) i, p.index[k]? = some i →
          (p.index.insert ⟨c.tag, t⟩ (UInt16.ofNat p.size))[k]? = some i := by
        intro k i hk
        rw [Std.HashMap.getElem?_insert]
        split
        · rename_i heq
          rw [beq_iff_eq] at heq
          rw [← heq, hi] at hk
          cases hk
        · exact hk
      refine ⟨hle, ⟨fun he => ⟨?_, fun k i hk => ?_, fun n d hd x hx => ?_⟩, hp.limit⟩, hkeeps,
        fun _ => by simp⟩
      · simp only [size, Array.size_push] at hs ⊢
        omega
      · rw [Std.HashMap.getElem?_insert] at hk
        split at hk
        · rename_i heq
          rw [beq_iff_eq] at heq
          subst heq
          cases hk
          exact ⟨c, constant?_push (by omega) c _, rfl, (hc he).mono hkeeps⟩
        · obtain ⟨d, hd, htag, hsp⟩ := (hp.right he).entry k i hk
          exact ⟨d, hle.constant? hd, htag, hsp.mono hkeeps⟩
      · rw [Array.getElem?_push] at hd
        split at hd
        · rename_i hn
          cases hd
          obtain ⟨e, he, htag⟩ := (hc he).refs (hp.right he) x hx
          have hlt := (toNat_bounds he).2
          exact ⟨by unfold size at hlt; omega, e, hle.constant? he, htag⟩
        · obtain ⟨hn, e, he, htag⟩ := (hp.right he).grounded n d hd x hx
          exact ⟨hn, e, hle.constant? he, htag⟩

theorem answers_utf8 (hp : Sound A p) (t : Text) :
    Answers A p ⟨1, t⟩ (p.utf8 t) := by
  unfold utf8
  by_cases h : 65535 < (ModifiedUtf8.encode t).size
  · simp only [if_pos h]
    exact answers_fail hp (e := .longString _) rfl _
  · simp only [if_neg h]
    exact answers_add hp t (.utf8 _) fun _ => rfl

theorem answers_integer (hp : Sound A p) (n : Int32) :
    Answers A p ⟨3, Text.ofString (toString n.toInt)⟩ (p.integer n) :=
  answers_add hp _ (.integer n) fun _ => rfl

/-- Two requests, the second of which is for a constant that refers to the first one. -/
theorem Answers.trans {k l : Key} {x y : UInt16 × Pool} (h : Answers A p k x)
    (h' : Answers A x.2 l y) : Answers A p l y where
  le := h.le.trans h'.le
  sound := h'.sound
  keeps k i hk := h'.keeps k i (h.keeps k i hk)
  found := h'.found

theorem answers_classRef (hp : Sound A p) (name : String) :
    Answers A p ⟨7, Text.ofString name⟩ (p.classRef name) := by
  have h := answers_utf8 hp (Text.ofString name)
  unfold classRef
  exact h.trans (answers_add h.sound _ (.classRef _) h.found)

theorem answers_string (hp : Sound A p) (t : Text) :
    Answers A p ⟨8, t⟩ (p.string t) := by
  have h := answers_utf8 hp t
  exact h.trans (answers_add h.sound _ (.string _) h.found)

theorem answers_nameAndType (hp : Sound A p) {m : Member} (hm : A m) :
    Answers A p ⟨12, Text.ofString (pairText m.name m.desc)⟩ (p.nameAndType m.name m.desc) := by
  have h := answers_utf8 hp (Text.ofString m.name)
  have h' := answers_utf8 h.sound (Text.ofString m.desc)
  have hadd := answers_add h'.sound (Text.ofString (pairText m.name m.desc)) (.nameAndType _ _)
    fun he => ⟨m, hm, rfl, h'.keeps _ _ (h.found (h'.le.error he)), h'.found he⟩
  unfold nameAndType
  simp only [pairText, Text.ofString_append] at hadd ⊢
  exact (h.trans h').trans hadd

theorem answers_member (hp : Sound A p) {m : Member} (hm : A m)
    {f : UInt16 → UInt16 → Constant} {tag : UInt8} (htag : ∀ i j, (f i j).tag = tag)
    (hf : ∀ {q : Pool} {t : Text} {i j : UInt16}, t = Text.ofString (memberText m) →
      q.index[(⟨7, Text.ofString m.owner⟩ : Key)]? = some i →
      q.index[(⟨12, Text.ofString (pairText m.name m.desc)⟩ : Key)]? = some j →
      Spells A q t (f i j)) :
    Answers A p ⟨tag, Text.ofString (memberText m)⟩ (p.member f m.owner m.name m.desc) := by
  have h := answers_classRef hp m.owner
  have h' := answers_nameAndType h.sound hm
  have hadd := answers_add h'.sound (Text.ofString (memberText m)) (f _ _)
    fun he => hf rfl (h'.keeps _ _ (h.found (h'.le.error he))) (h'.found he)
  rw [htag] at hadd
  unfold member
  simp only [memberText, Text.ofString_append] at hadd ⊢
  exact (h.trans h').trans hadd

/-! ## What the answers stand for -/

/-- The constant of a key is the one that was asked for. -/
theorem constant?_of_index (hA : Legible A) (hp : Right A p) {t : Text} {c : Constant} {i : UInt16}
    (hi : p.index[(⟨c.tag, t⟩ : Key)]? = some i) (hc : Spells A p t c) : p.constant? i = some c := by
  obtain ⟨d, hd, htag, hsp⟩ := hp.entry _ i hi
  rw [hd, hsp.unique hA hc htag]

theorem text?_of_index (hp : Right A p) {s : String} {i : UInt16}
    (hi : p.index[(⟨1, Text.ofString s⟩ : Key)]? = some i) : p.text? i = some s := by
  obtain ⟨c, hc, htag, hsp⟩ := hp.entry _ i hi
  cases c with
  | utf8 bytes =>
    simp only [Spells] at hsp
    simp [text?, hc, hsp, ModifiedUtf8.decode_encode, Except.toOption]
  | _ => cases htag

theorem class?_of_index (hp : Right A p) {s : String} {i : UInt16}
    (hi : p.index[(⟨7, Text.ofString s⟩ : Key)]? = some i) : p.class? i = some s := by
  obtain ⟨c, hc, htag, hsp⟩ := hp.entry _ i hi
  cases c with
  | classRef j => simp [class?, hc, text?_of_index hp hsp]
  | _ => cases htag

theorem nameAndType?_of_index (hA : Legible A) (hp : Right A p) {m : Member} (hm : A m)
    {i : UInt16} (hi : p.index[(⟨12, Text.ofString (pairText m.name m.desc)⟩ : Key)]? = some i) :
    p.nameAndType? i = some (m.name, m.desc) := by
  obtain ⟨c, hc, htag, hsp⟩ := hp.entry _ i hi
  cases c with
  | nameAndType j k =>
    obtain ⟨n, hn, ht, hj, hk⟩ := hsp
    obtain ⟨hname, hdesc⟩ := hA.pair hm hn (Text.ofString_inj ht)
    simp [nameAndType?, hc, text?_of_index hp hj, text?_of_index hp hk, hname, hdesc]
  | _ => cases htag

/-- A member of any kind is found at the index that is given for it. -/
theorem member?_of_index (hA : Legible A) (hp : Right A p) {m : Member} (hm : A m) {tag : UInt8}
    {i : UInt16} (hi : p.index[(⟨tag, Text.ofString (memberText m)⟩ : Key)]? = some i)
    (htag : tag = 9 ∨ tag = 10 ∨ tag = 11) : p.member? i = some m := by
  obtain ⟨c, hc, hctag, hsp⟩ := hp.entry _ i hi
  have hparts : ∃ j k, c.parts? = some (j, k) ∧
      p.index[(⟨7, Text.ofString m.owner⟩ : Key)]? = some j ∧
      p.index[(⟨12, Text.ofString (pairText m.name m.desc)⟩ : Key)]? = some k := by
    cases c with
    | fieldRef j k | methodRef j k | interfaceMethodRef j k =>
      obtain ⟨n, hn, ht, hj, hk⟩ := hsp
      obtain rfl := hA.member hm hn (Text.ofString_inj ht)
      exact ⟨j, k, rfl, hj, hk⟩
    | _ => rcases htag with rfl | rfl | rfl <;> cases hctag
  obtain ⟨j, k, hjk, hj, hk⟩ := hparts
  simp [member?, hc, hjk, class?_of_index hp hj, nameAndType?_of_index hA hp hm hk]

theorem Answers.member? (hA : Legible A) {m : Member} (hm : A m) {tag : UInt8} {x : UInt16 × Pool}
    (h : Answers A p ⟨tag, Text.ofString (memberText m)⟩ x) (he : x.2.error = none)
    (htag : tag = 9 ∨ tag = 10 ∨ tag = 11) : x.2.member? x.1 = some m :=
  member?_of_index hA (h.sound.right he) hm (h.found he) htag

theorem Answers.class? {s : String} {x : UInt16 × Pool}
    (h : Answers A p ⟨7, Text.ofString s⟩ x) (he : x.2.error = none) : x.2.class? x.1 = some s :=
  class?_of_index (h.sound.right he) (h.found he)

theorem Answers.integer (hA : Legible A) {n : Int32} {x : UInt16 × Pool}
    (h : Answers A p ⟨3, Text.ofString (toString n.toInt)⟩ x) (he : x.2.error = none) :
    x.2.constant? x.1 = some (.integer n) :=
  constant?_of_index hA (h.sound.right he) (c := .integer n) (h.found he) rfl

theorem Answers.string {t : Text} {x : UInt16 × Pool} (h : Answers A p ⟨8, t⟩ x)
    (he : x.2.error = none) : ∃ i, x.2.constant? x.1 = some (.string i) := by
  obtain ⟨c, hc, htag, -⟩ := (h.sound.right he).entry _ _ (h.found he)
  cases c with
  | string i => exact ⟨i, hc⟩
  | _ => cases htag

/-- The text of a string that was asked for. -/
theorem Answers.stringText {s : String} {x : UInt16 × Pool}
    (h : Answers A p ⟨8, Text.ofString s⟩ x) (he : x.2.error = none) :
    ∃ i, x.2.constant? x.1 = some (.string i) ∧ x.2.text? i = some s := by
  obtain ⟨c, hc, htag, hsp⟩ := (h.sound.right he).entry _ _ (h.found he)
  cases c with
  | string i => exact ⟨i, hc, text?_of_index (h.sound.right he) hsp⟩
  | _ => cases htag

end Sound

/-! ## Room for more -/

/-- Nothing has failed, and there is room for `n` more constants. -/
def Roomy (n : Nat) (p : Pool) : Prop := p.error = none ∧ p.size + n ≤ maxSize

/-- A text that is not too long. -/
def IsShort (s : String) : Prop := (ModifiedUtf8.encode (Text.ofString s)).size ≤ 65535

instance (s : String) : Decidable (IsShort s) := Nat.decLe _ _

theorem Roomy.add {n : Nat} {p : Pool} (h : Roomy (n + 1) p) (t : Text) (c : Constant) :
    Roomy n (p.add t c).2 := by
  obtain ⟨he, hs⟩ := h
  unfold Pool.add
  dsimp only
  split
  · exact ⟨he, Nat.le_trans (Nat.add_le_add_left (Nat.le_succ n) _) hs⟩
  · rw [if_neg (by omega)]
    refine ⟨he, ?_⟩
    simp only [size, Array.size_push] at hs ⊢
    omega

theorem Roomy.utf8 {n : Nat} {p : Pool} (h : Roomy (n + 1) p) {s : String} (hs : IsShort s) :
    Roomy n (p.utf8 s).2 := by
  unfold Pool.utf8
  rw [if_neg (Nat.not_lt.mpr hs)]
  exact h.add _ _

theorem Roomy.classRef {n : Nat} {p : Pool} (h : Roomy (n + 2) p) {name : String}
    (hs : IsShort name) : Roomy n (p.classRef name).2 := by
  rw [classRef_eq]
  exact (Roomy.utf8 (n := n + 1) h hs).add _ _

theorem Roomy.string {n : Nat} {p : Pool} (h : Roomy (n + 2) p) {s : String} (hs : IsShort s) :
    Roomy n (p.string s).2 := by
  rw [string_eq]
  exact (Roomy.utf8 (n := n + 1) h hs).add _ _

theorem Roomy.nameAndType {n : Nat} {p : Pool} (h : Roomy (n + 3) p) {name desc : String}
    (hname : IsShort name) (hdesc : IsShort desc) : Roomy n (p.nameAndType name desc).2 := by
  rw [nameAndType_eq]
  exact ((Roomy.utf8 (n := n + 2) h hname).utf8 hdesc).add _ _

theorem Roomy.member {n : Nat} {p : Pool} (h : Roomy (n + 6) p)
    (make : UInt16 → UInt16 → Constant) {owner name desc : String} (howner : IsShort owner)
    (hname : IsShort name) (hdesc : IsShort desc) :
    Roomy n (p.member make owner name desc).2 := by
  rw [member_eq]
  exact ((Roomy.classRef (n := n + 4) h howner).nameAndType hname hdesc).add _ _

end Pool
end ClassFile
end Kotlet

import Kotlet.Proofs.ClassFile.Call

/-!
# Classes as they are built

* `Pool.Requested` : a pool after some requests, and what all such pools have in common;
* `ClassFile.Built` : a class made by adding methods and by calls of the builders of their bodies;
* `ClassFile.Indices` : the indices that writing a class needs, and `ClassFile.indices` : how they are
  asked for;
* `holds_indices` : they lead to the right constants; `indices_of_holds` : asking again changes
  nothing;
* `roomy_indices` : a pool with room for the constants that a class needs.
-/

namespace Kotlet
namespace ClassFile

namespace Pool

/-- A pool after some requests. -/
inductive Requested (p : Pool) : Pool → Prop where
  | refl : Requested p p
  | utf8 {q : Pool} (h : Requested p q) (s : String) : Requested p (q.utf8 s).2
  | integer {q : Pool} (h : Requested p q) (n : Int32) : Requested p (q.integer n).2
  | classRef {q : Pool} (h : Requested p q) (name : String) : Requested p (q.classRef name).2
  | string {q : Pool} (h : Requested p q) (s : String) : Requested p (q.string s).2
  | fieldRef {q : Pool} (h : Requested p q) (owner name desc : String) :
      Requested p (q.fieldRef owner name desc).2
  | methodRef {q : Pool} (h : Requested p q) (owner name desc : String) :
      Requested p (q.methodRef owner name desc).2
  | interfaceMethodRef {q : Pool} (h : Requested p q) (owner name desc : String) :
      Requested p (q.interfaceMethodRef owner name desc).2

theorem Requested.trans {p q r : Pool} (h : Requested p q) (h' : Requested q r) :
    Requested p r := by
  induction h' with
  | refl => exact h
  | utf8 _ s ih => exact ih.utf8 s
  | integer _ n ih => exact ih.integer n
  | classRef _ name ih => exact ih.classRef name
  | string _ s ih => exact ih.string s
  | fieldRef _ owner name desc ih => exact ih.fieldRef owner name desc
  | methodRef _ owner name desc ih => exact ih.methodRef owner name desc
  | interfaceMethodRef _ owner name desc ih => exact ih.interfaceMethodRef owner name desc

/-- Members under any names. -/
def anyMember : Member → Prop := fun _ => True

/-- What was asked for before is found again, and the table stays right. -/
structure Kept (p q : Pool) : Prop where
  le : p.Le q
  sound : Sound anyMember q
  keeps : ∀ (k : Key) i, p.index[k]? = some i → q.index[k]? = some i

theorem Answers.kept {p q : Pool} {k : Key} {x : UInt16 × Pool} (h : Kept p q)
    (hx : Answers anyMember q k x) : Kept p x.2 :=
  ⟨h.le.trans hx.le, hx.sound, fun k i hk => hx.keeps k i (h.keeps k i hk)⟩

theorem Requested.kept {p q : Pool} (h : Requested p q) (hp : Sound anyMember p) : Kept p q := by
  induction h with
  | refl => exact ⟨.refl p, hp, fun _ _ hk => hk⟩
  | utf8 _ s ih => exact (answers_utf8 ih.sound _).kept ih
  | integer _ n ih => exact (answers_integer ih.sound n).kept ih
  | classRef _ name ih => exact (answers_classRef ih.sound name).kept ih
  | string _ s ih => exact (answers_string ih.sound _).kept ih
  | fieldRef _ owner name desc ih =>
    exact (answers_member (m := ⟨owner, name, desc⟩) (f := .fieldRef) ih.sound trivial
      (fun _ _ => rfl) fun ht hi hj => ⟨_, trivial, ht, hi, hj⟩).kept ih
  | methodRef _ owner name desc ih =>
    exact (answers_member (m := ⟨owner, name, desc⟩) (f := .methodRef) ih.sound trivial
      (fun _ _ => rfl) fun ht hi hj => ⟨_, trivial, ht, hi, hj⟩).kept ih
  | interfaceMethodRef _ owner name desc ih =>
    exact (answers_member (m := ⟨owner, name, desc⟩) (f := .interfaceMethodRef) ih.sound trivial
      (fun _ _ => rfl) fun ht hi hj => ⟨_, trivial, ht, hi, hj⟩).kept ih

/-! ## Texts -/

/-- The bytes are those of a string that is not too long. -/
def IsText (bytes : Array UInt8) : Prop :=
  bytes.size ≤ 65535 ∧ ∃ s : String, bytes = ModifiedUtf8.encode (Text.ofString s)

/-- All texts of the pool are strings that are not too long. -/
def Readable (p : Pool) : Prop := ∀ bytes, Constant.utf8 bytes ∈ p.entries → IsText bytes

theorem readable_fail {p : Pool} (h : Readable p) (e : BuildError) : Readable (p.fail e) := by
  unfold fail
  split <;> exact h

theorem readable_add {p : Pool} (h : Readable p) (t : Text) {c : Constant}
    (hc : ∀ bytes, c = .utf8 bytes → IsText bytes) : Readable (p.add t c).2 := by
  unfold add
  dsimp only
  split
  · exact h
  · split
    · exact readable_fail h _
    · intro bytes hb
      rcases Array.mem_push.mp hb with hb | hb
      · exact h bytes hb
      · exact hc bytes hb.symm

theorem readable_utf8 {p : Pool} (h : Readable p) (s : String) : Readable (p.utf8 s).2 := by
  unfold utf8
  dsimp only
  split
  · exact readable_fail h _
  · rename_i hs
    refine readable_add h _ fun bytes hb => ?_
    cases hb
    exact ⟨by omega, s, rfl⟩

theorem readable_classRef {p : Pool} (h : Readable p) (name : String) :
    Readable (p.classRef name).2 := by
  rw [classRef_eq]
  exact readable_add (readable_utf8 h name) _ fun _ hb => by cases hb

theorem readable_member {p : Pool} (h : Readable p) {make : UInt16 → UInt16 → Constant}
    (hmake : ∀ i j bytes, make i j ≠ .utf8 bytes) (owner name desc : String) :
    Readable (p.member make owner name desc).2 := by
  have hpair : Readable ((p.classRef owner).2.nameAndType name desc).2 := by
    rw [nameAndType_eq]
    exact readable_add (readable_utf8 (readable_utf8 (readable_classRef h owner) name) desc) _
      fun _ hb => by cases hb
  rw [member_eq]
  exact readable_add hpair _ fun bytes hb => absurd hb (hmake _ _ bytes)

theorem Requested.readable {p q : Pool} (h : Requested p q) (hp : Readable p) : Readable q := by
  induction h with
  | refl => exact hp
  | utf8 _ s ih => exact readable_utf8 ih s
  | integer _ n ih => exact readable_add ih _ fun _ hb => by cases hb
  | classRef _ name ih => exact readable_classRef ih name
  | string _ s ih =>
    rw [string_eq]
    exact readable_add (readable_utf8 ih s) _ fun _ hb => by cases hb
  | fieldRef _ owner name desc ih =>
    exact readable_member ih (fun _ _ _ h => by cases h) owner name desc
  | methodRef _ owner name desc ih =>
    exact readable_member ih (fun _ _ _ h => by cases h) owner name desc
  | interfaceMethodRef _ owner name desc ih =>
    exact readable_member ih (fun _ _ _ h => by cases h) owner name desc

end Pool

/-! ## Calls -/

/-- A call of the builder of a body asks the pool for constants, and does nothing else to it. -/
theorem requested_apply (p : Pool) (c : Code) (call : Call) :
    p.Requested (call.apply (p, c)).1 := by
  cases call <;> simp only [Call.apply]
  case pushInt n =>
    simp only [Code.pushInt]
    split
    · exact .refl
    · dsimp only
      exact .integer .refl n
  case pushString s => simp only [Code.pushString]; exact .string .refl s
  case pushClass name => simp only [Code.pushClass]; exact .classRef .refl name
  case field op owner name desc =>
    simp only [Code.field]
    split
    · exact .refl
    · split
      · exact .refl
      · dsimp only
        exact .fieldRef .refl owner name desc
  case invoke op owner name desc =>
    simp only [Code.invoke]
    split
    · exact .refl
    · split
      · exact .refl
      · split
        · dsimp only
          exact .methodRef .refl owner name desc
        · split
          · dsimp only
            exact .methodRef .refl owner name desc
          · split
            · dsimp only
              exact .interfaceMethodRef .refl owner name desc
            · exact .refl
  case typeOp op name =>
    simp only [Code.typeOp]
    split
    · exact .refl
    · split
      · dsimp only
        exact .classRef .refl name
      · exact .refl
  all_goals exact .refl

/-- The class after a call of the builder of its method at an index. -/
def call (c : ClassFile) (i : Nat) (call : Call) : ClassFile :=
  match c.methods[i]? with
  | none => c
  | some m =>
    let x := call.apply (c.pool, m.code)
    { c with pool := x.1, methods := c.methods.setIfInBounds i { m with code := x.2 } }

/-- A class that was put together step by step. Writing it is a step too, since it may add
constants. -/
inductive Built : ClassFile → Prop where
  | start (name super : String) (major : UInt16) : Built (start name super major)
  | source {c : ClassFile} (h : Built c) (s : String) : Built { c with sourceFile := s }
  | method {c c' : ClassFile} (h : Built c) {access : Access} {name desc : String}
      (hadd : c.addMethod access name desc = .ok c') : Built c'
  | call {c : ClassFile} (h : Built c) (i : Nat) (call : Call) : Built (c.call i call)
  | written {c : ClassFile} (h : Built c) : Built c.serialize.2

/-! ## The indices that writing needs -/

/-- The indices of the constants that a class file refers to from outside the pool. -/
structure Indices where
  this : UInt16
  super : UInt16
  codeName : UInt16
  names : List (UInt16 × UInt16)
  sourceName : UInt16
  sourceValue : UInt16

/-- The indices of the names and types of methods, and the pool with them. -/
theorem methodNames_cons (p : Pool) (m : Method) (ms : List Method) :
    p.methodNames (m :: ms) =
      let x := p.utf8 m.name
      let y := x.2.utf8 m.desc
      let z := y.2.methodNames ms
      ((x.1, y.1) :: z.1, z.2) := by
  rw [Pool.methodNames]

/-- The indices of the source file, if it is told. -/
def sourceIndices (c : ClassFile) (p : Pool) : (UInt16 × UInt16) × Pool :=
  if c.sourceFile ≠ "" then
    let x := p.utf8 "SourceFile"
    let y := x.2.utf8 c.sourceFile
    ((x.1, y.1), y.2)
  else ((0, 0), p)

/-- Asks for all indices. -/
def indices (c : ClassFile) (p : Pool) : Indices × Pool :=
  let this := p.classRef c.name
  let super := this.2.classRef c.super
  let codeName := super.2.utf8 "Code"
  let names := codeName.2.methodNames c.methods.toList
  let source := c.sourceIndices names.2
  (⟨this.1, super.1, codeName.1, names.1, source.1.1, source.1.2⟩, source.2)

/-- The bytes of a class, once its indices are known. -/
def encode (c : ClassFile) (ix : Indices) (p : Pool) : Except BuildError (Array UInt8) :=
  match p.error with
  | some e => .error e
  | none =>
    let out := appendBytes #[] (bytes4 0xcafebabe ++ bytes2 0 ++ bytes2 c.major)
    let out := appendBytes (appendPool out p)
      (bytes2 (Access.all [.isPublic, .isSuper]).bits ++ bytes2 ix.this ++ bytes2 ix.super ++ bytes2 0
        ++ bytes2 0 ++ bytes2 (UInt16.ofNat c.methods.size))
    (appendMethods ix.codeName out (c.methods.toList.zip ix.names)).map fun out =>
      appendBytes out
        (if c.sourceFile ≠ "" then bytes2 1 ++ bytes2 ix.sourceName ++ bytes4 2 ++ bytes2 ix.sourceValue
          else bytes2 0)

/-- Writing asks for the indices, and then puts the bytes together. -/
theorem serialize_eq (c : ClassFile) : c.serialize =
    (c.encode (c.indices c.pool).1 (c.indices c.pool).2, { c with pool := (c.indices c.pool).2 }) := by
  unfold serialize indices sourceIndices encode
  generalize c.pool.classRef c.name = this
  obtain ⟨i, p⟩ := this
  dsimp only
  generalize p.classRef c.super = super
  obtain ⟨j, p⟩ := super
  dsimp only
  generalize p.utf8 (Text.ofString "Code") = codeName
  obtain ⟨k, p⟩ := codeName
  dsimp only
  generalize p.methodNames c.methods.toList = names
  obtain ⟨ns, p⟩ := names
  dsimp only
  by_cases hs : c.sourceFile ≠ ""
  · simp only [if_pos hs]
    generalize p.utf8 (Text.ofString "SourceFile") = sourceName
    obtain ⟨a, p⟩ := sourceName
    dsimp only
    generalize p.utf8 (Text.ofString c.sourceFile) = sourceValue
    obtain ⟨b, p⟩ := sourceValue
    dsimp only
    cases p.error with
    | some e => rfl
    | none =>
      dsimp only
      cases appendMethods _ _ _ <;> rfl
  · simp only [if_neg hs]
    cases p.error with
    | some e => rfl
    | none =>
      dsimp only
      cases appendMethods _ _ _ <;> rfl

theorem requested_methodNames (p : Pool) (ms : List Method) : p.Requested (p.methodNames ms).2 := by
  induction ms generalizing p with
  | nil => exact .refl
  | cons m ms ih =>
    rw [methodNames_cons]
    exact ((Pool.Requested.refl.utf8 m.name).utf8 m.desc).trans (ih _)

theorem requested_sourceIndices (c : ClassFile) (p : Pool) : p.Requested (c.sourceIndices p).2 := by
  unfold sourceIndices
  split
  · exact (Pool.Requested.refl.utf8 "SourceFile").utf8 c.sourceFile
  · exact .refl

theorem requested_indices (c : ClassFile) (p : Pool) : p.Requested (c.indices p).2 :=
  ((((Pool.Requested.refl.classRef c.name).classRef c.super).utf8 "Code").trans
    (requested_methodNames _ _)).trans (requested_sourceIndices c _)

/-- The pool of a class that was built consists of what was asked for. -/
theorem Built.pool {c : ClassFile} (h : Built c) : Pool.Requested .empty c.pool := by
  induction h with
  | start name super major => exact .refl
  | source _ s ih => exact ih
  | @method c c' _ access name desc hadd ih =>
    unfold addMethod at hadd
    cases hp : pushMethod c.methods access name desc with
    | error e => rw [hp] at hadd; cases hadd
    | ok ms => rw [hp] at hadd; cases hadd; exact ih
  | @call c _ i call ih =>
    unfold ClassFile.call
    cases c.methods[i]? with
    | none => exact ih
    | some m => exact ih.trans (requested_apply c.pool m.code call)
  | @written c _ ih =>
    rw [serialize_eq]
    exact ih.trans (requested_indices c c.pool)

/-! ## What the indices lead to -/

/-- The index is the one of a text. -/
def Pool.HasText (p : Pool) (s : String) (i : UInt16) : Prop :=
  p.index[(⟨1, Text.ofString s⟩ : Pool.Key)]? = some i

/-- The index is the one of a class. -/
def Pool.HasClass (p : Pool) (name : String) (i : UInt16) : Prop :=
  p.index[(⟨7, Text.ofString name⟩ : Pool.Key)]? = some i

/-- The indices are those of the constants of a class. -/
structure Holds (c : ClassFile) (ix : Indices) (p : Pool) : Prop where
  this : p.HasClass c.name ix.this
  super : p.HasClass c.super ix.super
  codeName : p.HasText "Code" ix.codeName
  names : List.Forall₂ (fun m ij => p.HasText m.name ij.1 ∧ p.HasText m.desc ij.2)
    c.methods.toList ix.names
  source : if c.sourceFile ≠ "" then
      p.HasText "SourceFile" ix.sourceName ∧ p.HasText c.sourceFile ix.sourceValue
    else ix.sourceName = 0 ∧ ix.sourceValue = 0

theorem holds_methodNames {p : Pool} (hp : p.Sound Pool.anyMember) (ms : List Method)
    (he : (p.methodNames ms).2.error = none) :
    List.Forall₂ (fun m ij => (p.methodNames ms).2.HasText m.name ij.1 ∧
      (p.methodNames ms).2.HasText m.desc ij.2) ms (p.methodNames ms).1 := by
  induction ms generalizing p with
  | nil => exact .nil
  | cons m ms ih =>
    rw [methodNames_cons] at he ⊢
    have hx := Pool.answers_utf8 hp (Text.ofString m.name)
    have hy := Pool.answers_utf8 hx.sound (Text.ofString m.desc)
    have hz := (requested_methodNames ((p.utf8 m.name).2.utf8 m.desc).2 ms).kept hy.sound
    have hyerr := hz.le.error he
    exact .cons ⟨hz.keeps _ _ (hy.keeps _ _ (hx.found (hy.le.error hyerr))),
      hz.keeps _ _ (hy.found hyerr)⟩ (ih hy.sound he)

theorem holds_sourceIndices {c : ClassFile} {p : Pool} (hp : p.Sound Pool.anyMember)
    (he : (c.sourceIndices p).2.error = none) :
    if c.sourceFile ≠ "" then
      (c.sourceIndices p).2.HasText "SourceFile" (c.sourceIndices p).1.1 ∧
        (c.sourceIndices p).2.HasText c.sourceFile (c.sourceIndices p).1.2
    else (c.sourceIndices p).1.1 = 0 ∧ (c.sourceIndices p).1.2 = 0 := by
  have hx := Pool.answers_utf8 hp (Text.ofString "SourceFile")
  have hy := Pool.answers_utf8 hx.sound (Text.ofString c.sourceFile)
  unfold sourceIndices at he ⊢
  dsimp only at he ⊢
  generalize p.utf8 (Text.ofString "SourceFile") = x at hx hy he ⊢
  generalize x.2.utf8 (Text.ofString c.sourceFile) = y at hy he ⊢
  split
  · rename_i hs
    rw [if_pos hs] at he
    exact ⟨hy.keeps _ _ (hx.found (hy.le.error he)), hy.found he⟩
  · exact ⟨rfl, rfl⟩

/-- The indices that are given for a class are those of its constants. -/
theorem holds_indices {c : ClassFile} {p : Pool} (hp : p.Sound Pool.anyMember)
    (he : (c.indices p).2.error = none) : Holds c (c.indices p).1 (c.indices p).2 := by
  have hthis := Pool.answers_classRef hp c.name
  have hsuper := Pool.answers_classRef hthis.sound c.super
  have hcode := Pool.answers_utf8 hsuper.sound (Text.ofString "Code")
  have hnames := (requested_methodNames _ c.methods.toList).kept hcode.sound
  have hmethods := holds_methodNames hcode.sound c.methods.toList
  have hlast := (requested_sourceIndices c _).kept hnames.sound
  have hsource := holds_sourceIndices (c := c) hnames.sound
  unfold indices at he ⊢
  dsimp only at he ⊢
  generalize p.classRef c.name = this at *
  generalize this.2.classRef c.super = super at *
  generalize super.2.utf8 (Text.ofString "Code") = code at *
  generalize code.2.methodNames c.methods.toList = names at *
  generalize c.sourceIndices names.2 = source at *
  -- What is found in one pool is found in the last one.
  have hnerr := hlast.le.error he
  have hcerr := hnames.le.error hnerr
  have hserr := hcode.le.error hcerr
  have hafter : ∀ {k : Pool.Key} {i : UInt16}, code.2.index[k]? = some i →
      source.2.index[k]? = some i := fun hk => hlast.keeps _ _ (hnames.keeps _ _ hk)
  refine ⟨hafter (hcode.keeps _ _ (hsuper.keeps _ _ (hthis.found (hsuper.le.error hserr)))),
    hafter (hcode.keeps _ _ (hsuper.found hserr)), hafter (hcode.found hcerr), ?_, hsource he⟩
  refine (hmethods hnerr).imp fun m ij hm => ?_
  exact ⟨hlast.keeps _ _ hm.1, hlast.keeps _ _ hm.2⟩

/-! ## Asking again -/

section Again

variable {p : Pool} (hp : p.Right Pool.anyMember) (hread : p.Readable)

theorem constant?_mem {i : UInt16} {k : Constant} (h : p.constant? i = some k) : k ∈ p.entries := by
  unfold Pool.constant? at h
  split at h
  · cases h
  · exact Array.mem_of_getElem? h

include hp hread

theorem utf8_again {s : String} {i : UInt16} (h : p.HasText s i) : p.utf8 s = (i, p) := by
  obtain ⟨k, hk, htag, hsp⟩ := hp.entry _ i h
  have hsize : ¬ 65535 < (ModifiedUtf8.encode (Text.ofString s)).size := by
    cases k with
    | utf8 bytes =>
      simp only [Pool.Spells] at hsp
      have := (hread bytes (constant?_mem hk)).1
      rw [hsp] at this
      omega
    | _ => cases htag
  unfold Pool.HasText at h
  simp only [Pool.utf8, if_neg hsize, Pool.add, Constant.tag, h]

theorem classRef_again {name : String} {i : UInt16} (h : p.HasClass name i) :
    p.classRef name = (i, p) := by
  obtain ⟨k, hk, htag, hsp⟩ := hp.entry _ i h
  cases k with
  | classRef j =>
    unfold Pool.HasClass at h
    rw [Pool.classRef_eq, utf8_again hp hread hsp]
    simp only [Pool.add, Constant.tag, h]
  | _ => cases htag

theorem methodNames_again {ms : List Method} {ns : List (UInt16 × UInt16)}
    (h : List.Forall₂ (fun m ij => p.HasText m.name ij.1 ∧ p.HasText m.desc ij.2) ms ns) :
    p.methodNames ms = (ns, p) := by
  induction h with
  | nil => rfl
  | cons hm _ ih =>
    rw [methodNames_cons, utf8_again hp hread hm.1]
    dsimp only
    rw [utf8_again hp hread hm.2]
    dsimp only
    rw [ih]

/-- Whoever asks again gets the same indices, and nothing is added. -/
theorem indices_of_holds {c : ClassFile} {ix : Indices} (h : Holds c ix p) :
    c.indices p = (ix, p) := by
  have hsource : c.sourceIndices p = ((ix.sourceName, ix.sourceValue), p) := by
    have hs := h.source
    unfold sourceIndices
    by_cases hne : c.sourceFile ≠ ""
    · rw [if_pos hne] at hs ⊢
      dsimp only
      rw [utf8_again hp hread hs.1]
      dsimp only
      rw [utf8_again hp hread hs.2]
    · rw [if_neg hne] at hs ⊢
      rw [hs.1, hs.2]
  simp only [indices, classRef_again hp hread h.this, classRef_again hp hread h.super,
    utf8_again hp hread h.codeName, methodNames_again hp hread h.names, hsource]

end Again

/-! ## Room -/

namespace Pool

theorem Roomy.methodNames {n : Nat} {p : Pool} {ms : List Method}
    (h : Roomy (n + 2 * ms.length) p) (hs : ∀ m ∈ ms, IsShort m.name ∧ IsShort m.desc) :
    Roomy n (p.methodNames ms).2 := by
  induction ms generalizing p with
  | nil => exact h
  | cons m ms ih =>
    rw [methodNames_cons]
    obtain ⟨hname, hdesc⟩ := hs m List.mem_cons_self
    rw [List.length_cons] at h
    have htwo : Roomy (n + 2 * ms.length + 1 + 1) p := ⟨h.1, by have := h.2; omega⟩
    exact ih ((htwo.utf8 hname).utf8 hdesc) fun m' hm' => hs m' (List.mem_cons_of_mem m hm')

end Pool

/-- All names of a class are short. -/
structure HasShortNames (c : ClassFile) : Prop where
  name : Pool.IsShort c.name
  super : Pool.IsShort c.super
  sourceFile : Pool.IsShort c.sourceFile
  methods : ∀ m ∈ c.methods, Pool.IsShort m.name ∧ Pool.IsShort m.desc

/-- Writing a class adds seven constants at most, and two for every method. -/
theorem roomy_indices {c : ClassFile} {p : Pool} {n : Nat}
    (h : p.Roomy (n + 7 + 2 * c.methods.size)) (hs : c.HasShortNames) :
    (c.indices p).2.Roomy n := by
  have hcode : Pool.IsShort "Code" := by decide
  have hsource : Pool.IsShort "SourceFile" := by decide
  have hstart : p.Roomy (n + 2 + 2 * c.methods.toList.length + 1 + 2 + 2) :=
    ⟨h.1, by have := h.2; rw [Array.length_toList]; omega⟩
  have hnames := Pool.Roomy.methodNames (n := n + 2)
    (((hstart.classRef hs.name).classRef hs.super).utf8 hcode) fun m hm => hs.methods m (by simpa using hm)
  unfold indices
  dsimp only
  generalize ((((p.classRef c.name).2.classRef c.super).2.utf8 _).2.methodNames _) = names at hnames ⊢
  unfold sourceIndices
  split
  · exact Pool.Roomy.utf8 (Pool.Roomy.utf8 (n := n + 1) hnames hsource) hs.sourceFile
  · exact ⟨hnames.1, by have := hnames.2; dsimp only; omega⟩

end ClassFile
end Kotlet

import Kotlet.Proofs.ClassFile.Built
import Kotlet.Proofs.ClassFile.Reads
import Mathlib.Algebra.Group.Nat.Defs

/-!
# Class files: reading back what was written

* `ClassFile.image` : the bytes of a class file, part by part, and `image_of_encode` : these are the
  bytes that are written;
* `Constant.ReadAs`, `Method.ReadAs`, `ClassFile.ReadAs` : what a constant, a method and a class is
  read as;
* `reads_entry`, `reads_pool`, `reads_member` : each part is read back;
* `Built.parse_bytes` : so is the whole class, and writing it a second time gives the same bytes;
* `long_body_lost` : a body that is too long for its length to be written is not read back.
-/

namespace Kotlet
namespace ClassFile

open ParsedClass

/-! ## The bytes of a class -/

/-- The bytes of a constant. -/
def Constant.image (k : Constant) : List UInt8 := k.tag :: k.payload

/-- The bytes of a pool. -/
def Pool.image (p : Pool) : List UInt8 :=
  bytes2 (UInt16.ofNat p.size) ++ p.entries.toList.flatMap Constant.image

/-- The bytes of a body: its sizes, its instructions, and that there is nothing more. -/
def Code.image (c : Code) : List UInt8 :=
  bytes2 (UInt16.ofNat c.maxStack) ++ (bytes2 (UInt16.ofNat c.maxLocals) ++
    (bytes4 (UInt32.ofNat c.size) ++ (c.bytes.toList ++ (bytes2 0 ++ bytes2 0))))

/-- The bytes of a method, given the indices of its name and type. -/
def Method.image (codeName : UInt16) (x : Method × UInt16 × UInt16) : List UInt8 :=
  bytes2 x.1.access.bits ++ (bytes2 x.2.1 ++ (bytes2 x.2.2 ++ (bytes2 1 ++
    (bytes2 codeName ++ (bytes4 (12 + UInt32.ofNat x.1.code.size) ++ x.1.code.image)))))

/-- The bytes that tell the source file. -/
def Indices.sourceImage (ix : Indices) (sourceFile : String) : List UInt8 :=
  if sourceFile ≠ "" then
    bytes2 1 ++ (bytes2 ix.sourceName ++ (bytes4 2 ++ bytes2 ix.sourceValue))
  else bytes2 0

/-- The bytes of a class. -/
def image (c : ClassFile) (ix : Indices) (p : Pool) : List UInt8 :=
  bytes4 0xcafebabe ++ (bytes2 0 ++ (bytes2 c.major ++ (p.image ++
    (bytes2 (Access.all [.isPublic, .isSuper]).bits ++ (bytes2 ix.this ++ (bytes2 ix.super ++
      (bytes2 0 ++ (bytes2 0 ++ (bytes2 (UInt16.ofNat c.methods.size) ++
        ((c.methods.toList.zip ix.names).flatMap (Method.image ix.codeName) ++
          ix.sourceImage c.sourceFile))))))))))

@[simp] theorem toList_appendBytes (out : Array UInt8) (bs : List UInt8) :
    (appendBytes out bs).toList = out.toList ++ bs := by
  simp [appendBytes]

theorem toList_appendPool (out : Array UInt8) (p : Pool) :
    (appendPool out p).toList = out.toList ++ p.image := by
  have hall : ∀ (ks : List Constant) (out : Array UInt8),
      (ks.foldl (fun out k => appendBytes (out.push k.tag) k.payload) out).toList =
        out.toList ++ ks.flatMap Constant.image := by
    intro ks
    induction ks with
    | nil => simp
    | cons k ks ih =>
      intro out
      rw [List.foldl_cons, ih]
      simp [Constant.image]
  rw [appendPool, ← Array.foldl_toList, hall, toList_appendBytes, Pool.image, List.append_assoc]

theorem toList_appendMethod (out : Array UInt8) (m : Method) (name desc codeName : UInt16) :
    (appendMethod out m name desc codeName).toList =
      out.toList ++ Method.image codeName (m, name, desc) := by
  simp [appendMethod, Method.image, Code.image]

theorem toList_appendMethods {codeName : UInt16} {ms : List (Method × UInt16 × UInt16)}
    {out data : Array UInt8} (h : appendMethods codeName out ms = .ok data) :
    data.toList = out.toList ++ ms.flatMap (Method.image codeName) := by
  induction ms generalizing out with
  | nil =>
    cases h
    simp
  | cons x ms ih =>
    obtain ⟨m, name, desc⟩ := x
    unfold appendMethods at h
    cases he : m.code.error with
    | some e =>
      simp only [he] at h
      cases h
    | none =>
      simp only [he] at h
      rw [ih h, toList_appendMethod, List.flatMap_cons, List.append_assoc]

/-- What is written is the image of the class. -/
theorem image_of_encode {c : ClassFile} {ix : Indices} {p : Pool} {data : Array UInt8}
    (h : c.encode ix p = .ok data) : p.error = none ∧ data.toList = c.image ix p := by
  unfold encode at h
  cases he : p.error with
  | some e =>
    simp only [he] at h
    cases h
  | none =>
    simp only [he] at h
    refine ⟨rfl, ?_⟩
    cases hm : appendMethods ix.codeName (appendBytes
        (appendPool (appendBytes #[] (bytes4 0xcafebabe ++ bytes2 0 ++ bytes2 c.major)) p)
        (bytes2 (Access.all [.isPublic, .isSuper]).bits ++ bytes2 ix.this ++ bytes2 ix.super ++
          bytes2 0 ++ bytes2 0 ++ bytes2 (UInt16.ofNat c.methods.size)))
        (c.methods.toList.zip ix.names) with
    | error e =>
      rw [hm] at h
      cases h
    | ok out =>
      rw [hm] at h
      cases h
      rw [toList_appendBytes, toList_appendMethods hm, toList_appendBytes, toList_appendPool,
        toList_appendBytes]
      simp only [image, Indices.sourceImage, List.append_assoc, List.nil_append]

/-! ## Constants -/

/-- The entry that a constant is read as. -/
inductive Constant.ReadAs : Constant → Entry → Prop where
  | utf8 (s : String) : ReadAs (.utf8 (ModifiedUtf8.encode (Text.ofString s))) (.utf8 s)
  | integer (n : Int32) : ReadAs (.integer n) (.integer n)
  | classRef (i : UInt16) : ReadAs (.classRef i) (.classRef i)
  | string (i : UInt16) : ReadAs (.string i) (.string i)
  | nameAndType (i j : UInt16) : ReadAs (.nameAndType i j) (.nameAndType i j)
  | fieldRef (i j : UInt16) : ReadAs (.fieldRef i j) (.fieldRef i j)
  | methodRef (i j : UInt16) : ReadAs (.methodRef i j) (.methodRef i j)
  | interfaceMethodRef (i j : UInt16) : ReadAs (.interfaceMethodRef i j) (.interfaceMethodRef i j)

/-- The entries that a pool is read as; the first one is unused. -/
def Pool.ReadAs (p : Pool) (es : Array Entry) : Prop :=
  ∃ entries, es = (.unused :: entries).toArray ∧
    List.Forall₂ Constant.ReadAs p.entries.toList entries

theorem reads_entry {k : Constant} {e : Entry} (h : k.ReadAs e)
    (hk : ∀ bytes, k = .utf8 bytes → bytes.size ≤ 65535) (index : Nat) :
    Reads (readEntry index) k.image e := by
  cases h with
  | utf8 s =>
    have hsize := hk _ rfl
    have hlen : (UInt16.ofNat (ModifiedUtf8.encode (Text.ofString s)).size).toNat =
        (ModifiedUtf8.encode (Text.ofString s)).toList.length := by
      rw [UInt16.toNat_ofNat', Array.length_toList]
      omega
    refine reads_tag 1 (.bind (reads_u2 _) ?_)
    have hread := reads_take (ModifiedUtf8.encode (Text.ofString s)).toList
    rw [← hlen] at hread
    rw [← List.append_nil (ModifiedUtf8.encode (Text.ofString s)).toList]
    refine .bind hread ?_
    rw [Option.getD_some, Array.toArray_toList, ModifiedUtf8.decode_encode]
    exact .pure _
  | integer n =>
    have h := (reads_u4 n.toUInt32).map fun x => Entry.integer x.toInt32
    exact reads_tag 3 h
  | classRef i => exact reads_tag 7 ((reads_u2 i).map _)
  | string i => exact reads_tag 8 ((reads_u2 i).map _)
  | nameAndType i j =>
    exact reads_tag 12 (.bind (reads_u2 i) ((reads_u2 j).map _))
  | fieldRef i j => exact reads_tag 9 (.bind (reads_u2 i) ((reads_u2 j).map _))
  | methodRef i j =>
    exact reads_tag 10 (.bind (reads_u2 i) ((reads_u2 j).map _))
  | interfaceMethodRef i j =>
    exact reads_tag 11 (.bind (reads_u2 i) ((reads_u2 j).map _))

theorem Constant.ReadAs.not_wide {k : Constant} {e : Entry} (h : k.ReadAs e) :
    e.isWide = false := by
  cases h <;> rfl

theorem reads_entries {ks : List Constant} {es : List Entry}
    (h : List.Forall₂ Constant.ReadAs ks es)
    (hk : ∀ k ∈ ks, ∀ bytes, k = .utf8 bytes → bytes.size ≤ 65535) {count turns : Nat}
    {pool : Array Entry} (hcount : pool.size + ks.length = count) (hturns : ks.length ≤ turns) :
    Reads (readEntries count turns pool) (ks.flatMap Constant.image) (pool ++ es.toArray) := by
  induction h generalizing turns pool with
  | nil =>
    rw [List.flatMap_nil, Array.append_empty]
    cases turns with
    | zero => exact .pure _
    | succ turns =>
      rw [readEntries, if_pos (by simpa using Nat.le_of_eq hcount.symm)]
      exact .pure _
  | @cons k e ks es hke _ ih =>
    cases turns with
    | zero => simp at hturns
    | succ turns =>
      rw [List.length_cons] at hcount hturns
      have hrest : Reads (readEntries count turns (pool.push e)) (ks.flatMap Constant.image)
          (pool.push e ++ es.toArray) :=
        ih (fun k hk' => hk k (List.mem_cons_of_mem _ hk')) (by rw [Array.size_push]; omega)
          (by omega)
      rw [readEntries, if_neg (by omega), List.flatMap_cons]
      refine .bind (reads_entry hke (hk k List.mem_cons_self) _) ?_
      simp only [hke.not_wide, Bool.false_and, Bool.false_eq_true, if_false]
      have heq : pool.push e ++ es.toArray = pool ++ (e :: es).toArray := by
        rw [← Array.toList_inj]
        simp
      rw [heq] at hrest
      exact hrest

/-- A pool whose texts can be read is read as something. -/
theorem Pool.Readable.readAs {p : Pool} (h : p.Readable) : ∃ es, p.ReadAs es := by
  have hall : ∀ ks : List Constant, (∀ bytes, Constant.utf8 bytes ∈ ks → IsText bytes) →
      ∃ es, List.Forall₂ Constant.ReadAs ks es := by
    intro ks hks
    induction ks with
    | nil => exact ⟨[], .nil⟩
    | cons k ks ih =>
      obtain ⟨es, hes⟩ := ih fun bytes hb => hks bytes (List.mem_cons_of_mem k hb)
      have hone : ∃ e, k.ReadAs e := by
        cases k with
        | utf8 bytes =>
          obtain ⟨-, s, rfl⟩ := hks bytes List.mem_cons_self
          exact ⟨_, .utf8 s⟩
        | integer n => exact ⟨_, .integer n⟩
        | classRef i => exact ⟨_, .classRef i⟩
        | string i => exact ⟨_, .string i⟩
        | nameAndType i j => exact ⟨_, .nameAndType i j⟩
        | fieldRef i j => exact ⟨_, .fieldRef i j⟩
        | methodRef i j => exact ⟨_, .methodRef i j⟩
        | interfaceMethodRef i j => exact ⟨_, .interfaceMethodRef i j⟩
      obtain ⟨e, he⟩ := hone
      exact ⟨e :: es, .cons he hes⟩
  obtain ⟨es, hes⟩ := hall p.entries.toList fun bytes hb => h bytes (by simpa using hb)
  exact ⟨_, es, rfl, hes⟩

theorem reads_pool {p : Pool} {es : Array Entry} (h : p.ReadAs es) (hread : p.Readable)
    (hsize : p.size ≤ Pool.maxSize) : Reads readPool p.image es := by
  obtain ⟨entries, rfl, hes⟩ := h
  have hcount : (UInt16.ofNat p.size).toNat = p.size := by
    unfold Pool.maxSize at hsize
    rw [UInt16.toNat_ofNat']
    omega
  have hne : ¬ p.size = 0 := Nat.succ_ne_zero _
  have hentries : Reads (readEntries p.size p.size #[.unused])
      (p.entries.toList.flatMap Constant.image) (#[.unused] ++ entries.toArray) :=
    reads_entries hes (fun k hk bytes heq => (hread bytes (by rw [heq] at hk; simpa using hk)).1)
      (by simp [Pool.size, Nat.add_comm]) (by simp [Pool.size])
  have hdone := Reads.bind (f := fun pool => do requireIntact; pure pool) hentries
    (.bind_nil reads_requireIntact (.pure _))
  rw [List.append_nil] at hdone
  refine .bind (reads_u2 _) ?_
  simp only [hcount, if_neg hne]
  have heq : #[Entry.unused] ++ entries.toArray = (Entry.unused :: entries).toArray := by
    rw [← Array.toList_inj]
    simp
  rw [heq] at hdone
  exact hdone

/-- The entry at the index of a constant is what the constant is read as. -/
theorem Pool.ReadAs.get {p : Pool} {es : Array Entry} (h : p.ReadAs es) {i : UInt16} {k : Constant}
    (hk : p.constant? i = some k) : ∃ e, es[i.toNat]? = some e ∧ k.ReadAs e := by
  obtain ⟨entries, rfl, hes⟩ := h
  unfold Pool.constant? at hk
  split at hk
  · cases hk
  · rename_i hi
    have hpos : i.toNat ≠ 0 := fun h0 => hi (UInt16.toNat_inj.mp h0)
    rw [← Array.getElem?_toList] at hk
    obtain ⟨n, hn⟩ : ∃ n, i.toNat = n + 1 := ⟨i.toNat - 1, by omega⟩
    rw [hn, Nat.add_sub_cancel] at hk
    rw [hn]
    obtain ⟨hlt, rfl⟩ := List.getElem?_eq_some_iff.mp hk
    have hlen := hes.length_eq
    refine ⟨entries[n], ?_, ?_⟩
    · simp
    · exact (List.forall₂_iff_get.mp hes).2 n hlt (hlen ▸ hlt)

theorem textAt_eq {p : Pool} {es : Array Entry} (h : p.ReadAs es)
    (hp : p.Right Pool.anyMember) {s : String} {i : UInt16} (hi : p.HasText s i) :
    textAt es i = .ok s := by
  obtain ⟨k, hk, htag, hsp⟩ := hp.entry _ i hi
  obtain ⟨e, he, hke⟩ := h.get hk
  cases hke with
  | utf8 t =>
    have hst : s = t := by
      have hs := ModifiedUtf8.decode_encode s
      simp only [Pool.Spells] at hsp
      rw [← hsp, ModifiedUtf8.decode_encode] at hs
      exact (Except.ok.inj hs).symm
    simp [textAt, he, hst]
  | _ => cases htag

theorem classAt_eq {p : Pool} {es : Array Entry} (h : p.ReadAs es)
    (hp : p.Right Pool.anyMember) {name : String} {i : UInt16} (hi : p.HasClass name i) :
    classAt es i = .ok name ∧ i ≠ 0 := by
  obtain ⟨k, hk, htag, hsp⟩ := hp.entry _ i hi
  have hne : i ≠ 0 := by
    rintro rfl
    cases hk
  obtain ⟨e, he, hke⟩ := h.get hk
  cases hke with
  | classRef j =>
    have htext : textAt es j = .ok name := textAt_eq h hp hsp
    simp [classAt, he, htext, hne]
  | _ => cases htag

/-! ## Methods -/

/-- The member that a method is read as. -/
structure Method.ReadAs (m : Method) (x : ParsedClass.Member) : Prop where
  access : x.access = m.access
  name : x.name = m.name
  desc : x.desc = m.desc
  body : ∃ body, x.body = some body ∧ body.maxStack.toNat = m.code.maxStack ∧
    body.maxLocals.toNat = m.code.maxLocals ∧ body.code = m.code.bytes

/-- The sizes of a body fit the places where they are written. -/
structure Code.Fits (c : Code) : Prop where
  stack : c.maxStack < 2 ^ 16
  locals : c.maxLocals < 2 ^ 16
  size : 12 + c.size < 2 ^ 32

/-- What the body of a method is read as. -/
def Code.parsed (c : Code) : Body :=
  ⟨UInt16.ofNat c.maxStack, UInt16.ofNat c.maxLocals, c.bytes⟩

/-- What a method is read as. -/
def Method.parsed (m : Method) : ParsedClass.Member := ⟨m.access, m.name, m.desc, some m.code.parsed⟩

theorem Code.Fits.readAs {m : Method} (h : m.code.Fits) : m.ReadAs m.parsed := by
  refine ⟨rfl, rfl, rfl, m.code.parsed, rfl, ?_, ?_, rfl⟩
  · rw [Code.parsed, UInt16.toNat_ofNat']
    exact Nat.mod_eq_of_lt h.stack
  · rw [Code.parsed, UInt16.toNat_ofNat']
    exact Nat.mod_eq_of_lt h.locals

theorem parseBody_image {c : Code} (h : 12 + c.size < 2 ^ 32) :
    parseBody c.image.toArray = .ok c.parsed := by
  have hsize : (UInt32.ofNat c.size).toNat = c.bytes.toList.length := by
    rw [UInt32.toNat_ofNat', Array.length_toList]
    unfold Code.size at h ⊢
    omega
  have htake := reads_take c.bytes.toList
  rw [← hsize] at htake
  have hstep : Reads (do
      let stack ← u2
      let locals ← u2
      let size ← u4
      let code ← take? size.toNat
      requireIntact
      return (⟨stack, locals, code.getD #[]⟩ : Body))
      (bytes2 (UInt16.ofNat c.maxStack) ++ (bytes2 (UInt16.ofNat c.maxLocals) ++
        (bytes4 (UInt32.ofNat c.size) ++ (c.bytes.toList ++ [])))) c.parsed := by
    refine .bind (reads_u2 _) (.bind (reads_u2 _) (.bind (reads_u4 _) (.bind htake ?_)))
    rw [Option.getD_some, Array.toArray_toList]
    exact .bind_nil reads_requireIntact (.pure _)
  have hrun := hstep [] (bytes2 0 ++ bytes2 0)
  simp only [List.nil_append, List.append_nil, List.append_assoc, List.length_nil] at hrun
  unfold parseBody
  simp only [Code.image]
  rw [hrun]
  rfl

theorem length_image (c : Code) : c.image.length = 12 + c.size := by
  simp only [Code.image, List.length_append, bytes2, bytes4, List.length_cons, List.length_nil,
    Array.length_toList, Code.size]
  omega

/-- An attribute is read by its name and its length. -/
theorem reads_attribute {es : Array Entry} {name : String} {i : UInt16} (hi : textAt es i = .ok name)
    {n : UInt32} {d : List UInt8} (hn : n.toNat = d.length) :
    Reads (readAttribute es) (bytes2 i ++ (bytes4 n ++ d)) (name, some d.toArray) := by
  have htake := reads_take d
  rw [← hn] at htake
  exact .bind (reads_u2 i) (.bind_nil (reads_lift hi) (.bind (reads_u4 n) (htake.map _)))

theorem reads_body {es : Array Entry} {i : UInt16} (hi : textAt es i = .ok "Code") {c : Code}
    (hc : c.Fits) (member : String) :
    Reads (readMemberAttribute es member)
      (bytes2 i ++ (bytes4 (12 + UInt32.ofNat c.size) ++ c.image)) (some c.parsed) := by
  have hn : (12 + UInt32.ofNat c.size).toNat = c.image.length := by
    have := hc.size
    rw [length_image, UInt32.toNat_add, UInt32.toNat_ofNat']
    have h12 : (12 : UInt32).toNat = 12 := rfl
    rw [h12]
    omega
  have hbody : bodyOf member [("Code", some c.image.toArray)] = .ok (some c.parsed) := by
    unfold bodyOf
    simp only [if_true, parseBody_image hc.size]
    rfl
  have h := Reads.bind (f := fun x => liftM (bodyOf member [x])) (reads_attribute hi hn)
    (reads_lift hbody)
  rw [List.append_nil] at h
  exact h

theorem reads_member {p : Pool} {es : Array Entry} (h : p.ReadAs es) (hp : p.Right Pool.anyMember)
    {codeName : UInt16} (hcode : p.HasText "Code" codeName) {x : Method × UInt16 × UInt16}
    (hname : p.HasText x.1.name x.2.1) (hdesc : p.HasText x.1.desc x.2.2) (hfits : x.1.code.Fits) :
    Reads (readMember es) (Method.image codeName x) x.1.parsed := by
  have hbodies := reads_times (w := fun c : Code =>
      bytes2 codeName ++ (bytes4 (12 + UInt32.ofNat c.size) ++ c.image))
    (v := fun c => some c.parsed) [x.1.code]
    (fun c hc => by
      rw [List.mem_singleton.mp hc]
      exact reads_body (textAt_eq h hp hcode) hfits x.1.name) []
  simp only [List.flatMap_cons, List.flatMap_nil, List.append_nil] at hbodies
  refine .bind (reads_u2 _) (.bind (reads_u2 _) (.bind_nil (reads_lift (textAt_eq h hp hname)) ?_))
  refine .bind (reads_u2 _) (.bind_nil (reads_lift (textAt_eq h hp hdesc)) ?_)
  exact .bind (reads_u2 1) (hbodies.map _)

theorem reads_members {es : Array Entry} {α : Type} {w : α → List UInt8}
    {v : α → ParsedClass.Member} (xs : List α) (h : ∀ x ∈ xs, Reads (readMember es) (w x) (v x))
    {n : UInt16} (hn : n.toNat = xs.length) :
    Reads (readMembers es) (bytes2 n ++ xs.flatMap w) (xs.map v) := by
  have htimes := reads_times xs h []
  rw [← hn] at htimes
  have hdone := Reads.bind (f := fun members => do requireIntact; pure members) htimes
    (.bind_nil reads_requireIntact (.pure _))
  rw [List.append_nil] at hdone
  exact .bind (reads_u2 n) hdone

/-! ## Classes -/

/-- The class that a class is read as once it is written. -/
structure ReadAs (c : ClassFile) (x : ParsedClass) : Prop where
  minor : x.minor = 0
  major : x.major = c.major
  access : x.access = .all [.isPublic, .isSuper]
  name : x.name = c.name
  super : x.super = c.super
  sourceFile : x.sourceFile = c.sourceFile
  interfaces : x.interfaces = []
  fields : x.fields = []
  methods : List.Forall₂ Method.ReadAs c.methods.toList x.methods
  /-- The constants stand at the indices where they were put. -/
  pool : c.serialize.2.pool.ReadAs x.pool

/-- The numbers of a class fit the places where they are written. -/
structure Fits (c : ClassFile) : Prop where
  count : c.methods.size < 2 ^ 16
  code : ∀ m ∈ c.methods, m.code.Fits

/-- The attributes of a class tell its source file. -/
theorem reads_source {c : ClassFile} {ix : Indices} {p : Pool} {es : Array Entry} (h : p.ReadAs es)
    (hp : p.Right Pool.anyMember) (hix : Holds c ix p) :
    ∃ (count : UInt16) (rest : List UInt8) (sources : List (Option String)),
      ix.sourceImage c.sourceFile = bytes2 count ++ rest ∧
        Reads (times (readClassAttribute es) count.toNat []) rest sources ∧
          (sources.foldl (fun old new => new.or old) none).getD "" = c.sourceFile := by
  have hsource := hix.source
  unfold Indices.sourceImage
  by_cases hs : c.sourceFile ≠ ""
  · rw [if_pos hs] at hsource ⊢
    have hvalue : sourceOf es "SourceFile" (some (bytes2 ix.sourceValue).toArray) =
        .ok (some c.sourceFile) := by
      simp only [sourceOf, bytes2, List.size_toArray, List.length_cons, List.length_nil, and_self,
        if_true]
      have hindex := bigEndian_bytes2 ix.sourceValue
      simp only [bytes2] at hindex
      rw [hindex, UInt16.ofNat_toNat, textAt_eq h hp hsource.2]
      rfl
    have hone := Reads.bind (f := fun x : String × Option (Array UInt8) => liftM (sourceOf es x.1 x.2))
      (reads_attribute (textAt_eq h hp hsource.1) (n := 2) (d := bytes2 ix.sourceValue) rfl)
      (reads_lift hvalue)
    rw [List.append_nil] at hone
    have htimes := reads_times (r := readClassAttribute es)
      (w := fun _ : Unit => bytes2 ix.sourceName ++ (bytes4 2 ++ bytes2 ix.sourceValue))
      (v := fun _ => some c.sourceFile) [()] (fun _ _ => hone) []
    simp only [List.flatMap_cons, List.flatMap_nil, List.append_nil] at htimes
    exact ⟨1, _, [some c.sourceFile], rfl, htimes, rfl⟩
  · rw [if_neg hs]
    exact ⟨0, [], [], rfl, .pure _, (not_not.mp hs).symm⟩

/-- What is read of a class before its methods. -/
theorem concludes_readClass {c : ClassFile} {ix : Indices} {p : Pool} (hp : p.Right Pool.anyMember)
    (hread : p.Readable) (hix : Holds c ix p) {es : Array Entry} (hes : p.ReadAs es)
    {Q : Except ReadError (ParsedClass × Cursor) → Prop}
    (h : Concludes (do
      let methods ← readMembers es
      let sources ← times (readClassAttribute es) (← u2).toNat []
      requireIntact
      let cursor ← get
      if cursor.pos ≠ cursor.data.size then throw (.trailing (cursor.data.size - cursor.pos))
      return ⟨0, c.major, es, .all [.isPublic, .isSuper], c.name, c.super, [], [], methods,
        (sources.foldl (fun old new => new.or old) none).getD ""⟩)
      (bytes2 (UInt16.ofNat c.methods.size) ++
        ((c.methods.toList.zip ix.names).flatMap (Method.image ix.codeName) ++
          ix.sourceImage c.sourceFile)) Q) : Concludes readClass (c.image ix p) Q := by
  obtain ⟨hthis, -⟩ := classAt_eq hes hp hix.this
  obtain ⟨hsuper, hne⟩ := classAt_eq hes hp hix.super
  unfold readClass image
  refine (reads_u4 _).last (reads_intact.last_nil ?_)
  refine (reads_u2 _).last ((reads_u2 _).last ((reads_pool hes hread hp.size).last ?_))
  refine (reads_u2 _).last ((reads_u2 _).last ((reads_lift hthis).last_nil ((reads_u2 _).last ?_)))
  rw [if_neg hne]
  refine (reads_lift hsuper).last_nil ((reads_u2 0).last ((Reads.pure []).last_nil ?_))
  exact (reads_members (w := fun _ : Unit => []) (v := fun _ => default) [] (by simp) (n := 0)
    rfl).last h

theorem parse_image {c : ClassFile} {ix : Indices} {p : Pool} (hp : p.Right Pool.anyMember)
    (hread : p.Readable) (hix : Holds c ix p) (hfits : c.Fits) {es : Array Entry}
    (hes : p.ReadAs es) :
    parse (c.image ix p).toArray = .ok ⟨0, c.major, es, .all [.isPublic, .isSuper], c.name, c.super,
      [], [], c.methods.toList.map Method.parsed, c.sourceFile⟩ := by
  obtain ⟨count, rest, sources, himage, hsources, hvalue⟩ := reads_source hes hp hix
  have hlen := hix.names.length_eq
  have hmember : ∀ x ∈ c.methods.toList.zip ix.names,
      Reads (readMember es) (Method.image ix.codeName x) x.1.parsed := by
    intro x hx
    obtain ⟨m, names⟩ := x
    have hm : m ∈ c.methods := by simpa using (List.of_mem_zip hx).1
    obtain ⟨hname, hdesc⟩ := (List.forall₂_iff_zip.mp hix.names).2 hx
    exact reads_member hes hp hix.codeName hname hdesc (hfits.code m hm)
  have hcount : (UInt16.ofNat c.methods.size).toNat = (c.methods.toList.zip ix.names).length := by
    have := hfits.count
    rw [UInt16.toNat_ofNat', List.length_zip, ← hlen, Nat.min_self, Array.length_toList]
    omega
  have hmap : (c.methods.toList.zip ix.names).map (fun x => x.1.parsed) =
      c.methods.toList.map Method.parsed := by
    rw [← List.map_fst_zip (Nat.le_of_eq hlen), List.map_map, List.map_fst_zip (Nat.le_of_eq hlen)]
    rfl
  have hmethods := reads_members _ hmember hcount
  rw [hmap] at hmethods
  have hlast : ReadsLast readClass (c.image ix p) ⟨0, c.major, es, .all [.isPublic, .isSuper], c.name,
      c.super, [], [], c.methods.toList.map Method.parsed, c.sourceFile⟩ := by
    refine concludes_readClass hp hread hix hes ?_
    rw [himage, ← List.append_assoc, ← List.append_nil rest]
    refine hmethods.last ((reads_u2 count).last (hsources.last (reads_requireIntact.last_nil ?_)))
    refine readsLast_get fun cursor hend => ?_
    rw [if_neg (not_not.mpr hend), hvalue]
  obtain ⟨cursor, hrun⟩ := hlast []
  unfold parse
  rw [List.nil_append, List.length_nil] at hrun
  rw [hrun]
  rfl

/-- What is written of a class that was built. -/
theorem Built.image_of_bytes {c : ClassFile} (h : Built c) {data : Array UInt8}
    (hdata : c.bytes = .ok data) :
    (c.indices c.pool).2.Right Pool.anyMember ∧ (c.indices c.pool).2.Readable ∧
      Holds c (c.indices c.pool).1 (c.indices c.pool).2 ∧
      data = (c.image (c.indices c.pool).1 (c.indices c.pool).2).toArray := by
  have hrequested := h.pool.trans (requested_indices c c.pool)
  have hsound := h.pool.kept (Pool.sound_empty _) |>.sound
  rw [bytes, serialize_eq] at hdata
  obtain ⟨he, himage⟩ := image_of_encode hdata
  refine ⟨(hrequested.kept (Pool.sound_empty _)).sound.right he,
    hrequested.readable fun _ hb => by simp [Pool.empty] at hb, holds_indices hsound he, ?_⟩
  rw [← himage, Array.toArray_toList]

/-- A class that was built is read back from its bytes, and a second time it gives the same bytes.
The numbers that are written in two and in four bytes must fit there. -/
theorem Built.parse_bytes {c : ClassFile} (h : Built c) (hfits : c.Fits) {data : Array UInt8}
    (hdata : c.bytes = .ok data) :
    (∃ x, parse data = .ok x ∧ c.ReadAs x) ∧ c.serialize.2.bytes = .ok data := by
  obtain ⟨hright, hread, hholds, rfl⟩ := h.image_of_bytes hdata
  have hcopy := serialize_eq c
  rw [bytes, hcopy] at hdata
  constructor
  · obtain ⟨es, hes⟩ := hread.readAs
    have hparse := parse_image hright hread hholds hfits hes
    refine ⟨_, hparse, ⟨rfl, rfl, rfl, rfl, rfl, rfl, rfl, rfl, ?_, ?_⟩⟩
    · refine List.forall₂_map_right_iff.mpr (List.forall₂_same.mpr fun m hm => ?_)
      exact (hfits.code m (by simpa using hm)).readAs
    · rw [hcopy]
      exact hes
  · have hagain : ({ c with pool := (c.indices c.pool).2 } : ClassFile).indices
        (c.indices c.pool).2 = c.indices c.pool :=
      indices_of_holds hright hread ⟨hholds.this, hholds.super, hholds.codeName, hholds.names,
        hholds.source⟩
    rw [hcopy, bytes, serialize_eq]
    dsimp only
    rw [hagain]
    exact hdata

/-! ## Classes that can be written -/

/-- Methods without failures are written. -/
theorem appendMethods_ok (codeName : UInt16) {ms : List (Method × UInt16 × UInt16)}
    (h : ∀ x ∈ ms, x.1.code.error = none) (out : Array UInt8) :
    ∃ data, appendMethods codeName out ms = .ok data := by
  induction ms generalizing out with
  | nil => exact ⟨out, rfl⟩
  | cons x ms ih =>
    obtain ⟨m, name, desc⟩ := x
    obtain ⟨data, hdata⟩ := ih (fun y hy => h y (List.mem_cons_of_mem _ hy))
      (appendMethod out m name desc codeName)
    have herr : m.code.error = none := h _ List.mem_cons_self
    exact ⟨data, by simp only [appendMethods, herr, hdata]⟩

/-- A class without failures is written if there is room for its names. -/
theorem bytes_ok {c : ClassFile} (hroom : c.pool.Roomy (7 + 2 * c.methods.size))
    (hs : c.HasShortNames) (hcode : ∀ m ∈ c.methods, m.code.error = none) :
    ∃ data, c.bytes = .ok data := by
  have he : (c.indices c.pool).2.error = none :=
    (roomy_indices (n := 0) (by rw [Nat.zero_add]; exact hroom) hs).1
  have hmethods : ∀ x ∈ c.methods.toList.zip (c.indices c.pool).1.names, x.1.code.error = none := by
    intro x hx
    exact hcode x.1 (by simpa using (List.of_mem_zip (a := x.1) (b := x.2) hx).1)
  obtain ⟨data, hdata⟩ := appendMethods_ok (c.indices c.pool).1.codeName hmethods
    (appendBytes (appendPool (appendBytes #[] (bytes4 0xcafebabe ++ bytes2 0 ++ bytes2 c.major))
      (c.indices c.pool).2) (bytes2 (Access.all [.isPublic, .isSuper]).bits ++
        bytes2 (c.indices c.pool).1.this ++ bytes2 (c.indices c.pool).1.super ++ bytes2 0 ++ bytes2 0 ++
          bytes2 (UInt16.ofNat c.methods.size)))
  refine ⟨appendBytes data (if c.sourceFile ≠ "" then
    bytes2 1 ++ bytes2 (c.indices c.pool).1.sourceName ++ bytes4 2 ++
      bytes2 (c.indices c.pool).1.sourceValue else bytes2 0), ?_⟩
  rw [bytes, serialize_eq, encode]
  simp only [he, hdata]
  rfl

/-! ## Bodies that are too long -/

/-- With twelve bytes in front of it the body takes 2 ^ 32 bytes. A length of zero is written. -/
theorem fails_member {p : Pool} {es : Array Entry} (h : p.ReadAs es) (hp : p.Right Pool.anyMember)
    {codeName : UInt16} (hcode : p.HasText "Code" codeName) {x : Method × UInt16 × UInt16}
    (hname : p.HasText x.1.name x.2.1) (hdesc : p.HasText x.1.desc x.2.2)
    (hsize : 12 + x.1.code.size = 2 ^ 32) (rest : List UInt8) :
    Fails (readMember es) (Method.image codeName x ++ rest) := by
  have hlength : (12 + UInt32.ofNat x.1.code.size).toNat = ([] : List UInt8).length := by
    have h12 : (12 : UInt32).toNat = 12 := rfl
    rw [UInt32.toNat_add, UInt32.toNat_ofNat', h12, List.length_nil]
    omega
  have hattribute := reads_attribute (textAt_eq h hp hcode) hlength
  obtain ⟨e, he⟩ : ∃ e, bodyOf x.1.name [("Code", some #[])] = .error e := ⟨_, rfl⟩
  have hbody : Fails (readMemberAttribute es x.1.name)
      (bytes2 codeName ++ (bytes4 (12 + UInt32.ofNat x.1.code.size) ++ (x.1.code.image ++ rest))) := by
    have hlast := hattribute.last (f := fun y => liftM (bodyOf x.1.name [y]))
      (fails_lift he (x.1.code.image ++ rest))
    simp only [List.append_assoc, List.nil_append] at hlast
    exact hlast
  simp only [Method.image, List.append_assoc]
  refine (reads_u2 _).last ((reads_u2 _).last ((reads_lift (textAt_eq h hp hname)).last_nil ?_))
  refine (reads_u2 _).last ((reads_lift (textAt_eq h hp hdesc)).last_nil ((reads_u2 1).last ?_))
  exact (fails_times hbody 0 []).bind

/-- A class whose first body is that long is not read back. -/
theorem not_parse_image {c : ClassFile} {ix : Indices} {p : Pool} (hp : p.Right Pool.anyMember)
    (hread : p.Readable) (hix : Holds c ix p) {es : Array Entry} (hes : p.ReadAs es) {m : Method}
    {ms : List Method} (hmethods : c.methods.toList = m :: ms) (hcount : c.methods.size < 2 ^ 16)
    (hsize : 12 + m.code.size = 2 ^ 32) : ∃ e, parse (c.image ix p).toArray = .error e := by
  have hnames := hix.names
  rw [hmethods] at hnames
  obtain ⟨ij, ijs, ⟨hname, hdesc⟩, -, hix'⟩ := List.forall₂_cons_left_iff.mp hnames
  have hlength : c.methods.size = ms.length + 1 := by
    rw [← Array.length_toList, hmethods, List.length_cons]
  have hfails : Fails readClass (c.image ix p) := by
    refine concludes_readClass hp hread hix hes ?_
    rw [hmethods, hix', List.zip_cons_cons, List.flatMap_cons, List.append_assoc]
    have hmember := fails_member (x := (m, ij)) hes hp hix.codeName hname hdesc hsize
      ((ms.zip ijs).flatMap (Method.image ix.codeName) ++ ix.sourceImage c.sourceFile)
    refine Fails.bind ((reads_u2 _).last (Fails.bind ?_))
    rw [UInt16.toNat_ofNat', Nat.mod_eq_of_lt hcount, hlength]
    exact fails_times hmember _ []
  obtain ⟨e, he⟩ := hfails []
  refine ⟨e, ?_⟩
  unfold parse
  rw [List.nil_append, List.length_nil] at he
  rw [he]
  rfl

/-- A class with one method, which does nothing `n` times. -/
def idle (n : Nat) : ClassFile :=
  ⟨49, "Idle", "java/lang/Object", "", .empty, #[⟨.all [.isPublic, .isStatic], "run", "()V",
    { Code.start 0 with bytes := .replicate n Opcode.nop.byte }⟩]⟩

theorem built_idle (n : Nat) : Built (idle n) := by
  induction n with
  | zero =>
    have hslots : descriptorSlots? "()V" = some (0, 0) := by decide
    have hstatic : (Access.all [.isPublic, .isStatic]).has .isStatic = true := by decide
    have hadd : (start "Idle" "java/lang/Object" 49).addMethod (.all [.isPublic, .isStatic]) "run"
        "()V" = .ok (idle 0) := by
      simp [addMethod, pushMethod, start, idle, Code.start, hslots, hstatic, Except.map]
    exact .method (.start _ _ _) hadd
  | succ n ih =>
    have hcall := ih.call 0 (.emit .nop)
    have heffect : Opcode.nop.effect? = some 0 := by decide
    have hends : Opcode.nop.endsBlock = false := by decide
    have hemit : ({ Code.start 0 with bytes := .replicate n Opcode.nop.byte } : Code).emit .nop =
        { Code.start 0 with bytes := .replicate (n + 1) Opcode.nop.byte } := by
      simp [Code.emit, Code.start, Code.write, Code.adjust, Code.endBlock, heffect, hends,
        Array.replicate_succ]
    have hnext : (idle n).call 0 (.emit .nop) = idle (n + 1) := by
      simp [ClassFile.call, idle, Call.apply, hemit]
    rwa [hnext] at hcall

/-- The length of a body of 2 ^ 32 - 12 bytes does not fit where it is written. The class is written
all the same, and cannot be read. -/
theorem long_body_lost : ¬ ∀ (c : ClassFile) (data : Array UInt8), Built c →
    c.methods.size < 2 ^ 16 →
    (∀ m ∈ c.methods, m.code.maxStack < 2 ^ 16 ∧ m.code.maxLocals < 2 ^ 16) → c.bytes = .ok data →
    ∃ x, parse data = .ok x := by
  intro h
  obtain ⟨n, hn⟩ : ∃ n, 12 + n = 2 ^ 32 := ⟨2 ^ 32 - 12, rfl⟩
  have hall : ∀ m ∈ (idle n).methods, m = ⟨.all [.isPublic, .isStatic], "run", "()V",
      { Code.start 0 with bytes := .replicate n Opcode.nop.byte }⟩ := by
    intro m hm
    simpa [idle] using hm
  have hroom : (idle n).pool.Roomy (7 + 2 * 1) :=
    ⟨rfl, (by decide : Pool.empty.size + (7 + 2 * 1) ≤ Pool.maxSize)⟩
  have hshort : (idle n).HasShortNames := by
    refine ⟨(by decide : Pool.IsShort "Idle"), (by decide : Pool.IsShort "java/lang/Object"),
      (by decide : Pool.IsShort ""), fun m hm => ?_⟩
    rw [hall m hm]
    exact ⟨(by decide : Pool.IsShort "run"), (by decide : Pool.IsShort "()V")⟩
  have hcount : (idle n).methods.size < 2 ^ 16 := (by decide : 1 < 2 ^ 16)
  obtain ⟨data, hdata⟩ := bytes_ok hroom hshort fun m hm => by rw [hall m hm]; rfl
  obtain ⟨x, hx⟩ := h (idle n) data (built_idle n) hcount (fun m hm => by
    rw [hall m hm]
    exact ⟨(by decide : 0 < 2 ^ 16), (by decide : 0 < 2 ^ 16)⟩) hdata
  obtain ⟨hright, hread, hholds, rfl⟩ := (built_idle n).image_of_bytes hdata
  obtain ⟨es, hes⟩ := hread.readAs
  have hsize : Code.size { Code.start 0 with bytes := .replicate n Opcode.nop.byte } = n :=
    Array.size_replicate
  obtain ⟨e, he⟩ := not_parse_image hright hread hholds hes rfl hcount (hsize.symm ▸ hn)
  rw [he] at hx
  cases hx

/-- A class with one method, which returns its argument. -/
def identity : ClassFile :=
  ⟨49, "Identity", "java/lang/Object", "identity.kt", .empty,
    #[⟨.all [.isPublic, .isStatic], "of", "(I)I",
      (Call.run (.empty, .start 1) [.load .int 0, .emit .ireturn]).2⟩]⟩

theorem built_identity : Built identity := by
  have hslots : descriptorSlots? "(I)I" = some (1, 1) := by decide
  have hadd : (start "Identity" "java/lang/Object" 49).addMethod (.all [.isPublic, .isStatic]) "of"
      "(I)I" = .ok ⟨49, "Identity", "java/lang/Object", "", .empty,
        #[⟨.all [.isPublic, .isStatic], "of", "(I)I", .start 1⟩]⟩ := by
    have hstatic : (Access.all [.isPublic, .isStatic]).has .isStatic = true := by decide
    simp [addMethod, pushMethod, start, hslots, hstatic, Except.map]
  exact (((Built.method (.start _ _ _) hadd).source "identity.kt").call 0 (.load .int 0)).call 0
    (.emit .ireturn)

theorem methods_identity : ∀ m ∈ identity.methods, m = ⟨.all [.isPublic, .isStatic], "of", "(I)I",
    (Call.run (.empty, .start 1) [.load .int 0, .emit .ireturn]).2⟩ := by
  intro m hm
  simpa [identity] using hm

theorem bytes_identity : ∃ data, identity.bytes = .ok data :=
  bytes_ok ⟨rfl, by decide⟩
    ⟨by decide, by decide, by decide, fun m hm => by
      rw [methods_identity m hm]
      exact ⟨by decide, by decide⟩⟩
    fun m hm => by rw [methods_identity m hm]; decide

theorem parse_bytes_identity : Built identity ∧ identity.Fits ∧
    ∃ data x, identity.bytes = .ok data ∧ ParsedClass.parse data = .ok x ∧ x.name = "Identity" ∧
      x.sourceFile = "identity.kt" ∧ x.methods.length = 1 := by
  have hfits : identity.Fits := by
    refine ⟨by decide, fun m hm => ?_⟩
    rw [methods_identity m hm]
    exact ⟨by decide, by decide, by decide⟩
  obtain ⟨data, hdata⟩ := bytes_identity
  obtain ⟨⟨x, hx, hread⟩, -⟩ := built_identity.parse_bytes hfits hdata
  exact ⟨built_identity, hfits, data, x, hdata, hx, hread.name, hread.sourceFile,
    hread.methods.length_eq.symm⟩

end ClassFile
end Kotlet

import Kotlet.Proofs.ClassFile.Pool

/-!
# What is asked of a pool

* `Request`, `Request.ask` : a constant that is asked for, and its index;
* `Request.askAll` : the indices of a sequence of requests, and the pool in the end;
* `Pool.request?` : the request that an index answers, read off the entries;
* `Pool.Grown` : a pool that was grown by requests, and what they all keep: `Grown.size_le`,
  `Grown.sound`;
* `Pool.Roomy.ask` : a request does not fail where there is room;
* `Request.asked` : every index leads to what was asked for, equal indices mean equal requests, and
  references go to earlier entries of the right kind.
-/

namespace Kotlet
namespace ClassFile

/-- A constant that is asked for. -/
inductive Request where
  | utf8 (s : String)
  | integer (n : Int32)
  | classRef (name : String)
  | string (s : String)
  | nameAndType (name desc : String)
  | fieldRef (m : Member)
  | methodRef (m : Member)
  | interfaceMethodRef (m : Member)
  deriving DecidableEq

/-- The parts of the member can be told from its text. -/
def Member.Told (m : Member) : Prop := '.' ∉ m.owner.toList ∧ ':' ∉ m.name.toList

namespace Request

/-- The index of a constant, and the pool that has it. -/
def ask (p : Pool) : Request → UInt16 × Pool
  | utf8 s => p.utf8 s
  | integer n => p.integer n
  | classRef name => p.classRef name
  | string s => p.string s
  | nameAndType name desc => p.nameAndType name desc
  | fieldRef m => p.fieldRef m.owner m.name m.desc
  | methodRef m => p.methodRef m.owner m.name m.desc
  | interfaceMethodRef m => p.interfaceMethodRef m.owner m.name m.desc

/-- What the constant is found by. -/
def key : Request → Pool.Key
  | utf8 s => ⟨1, Text.ofString s⟩
  | integer n => ⟨3, Text.ofString (toString n.toInt)⟩
  | classRef name => ⟨7, Text.ofString name⟩
  | string s => ⟨8, Text.ofString s⟩
  | nameAndType name desc => ⟨12, Text.ofString (Pool.pairText name desc)⟩
  | fieldRef m => ⟨9, Text.ofString (Pool.memberText m)⟩
  | methodRef m => ⟨10, Text.ofString (Pool.memberText m)⟩
  | interfaceMethodRef m => ⟨11, Text.ofString (Pool.memberText m)⟩

/-- The requests with their indices, and the pool in the end. -/
def askAll (p : Pool) : List Request → List (Request × UInt16) × Pool
  | [] => ([], p)
  | r :: rs =>
    let x := r.ask p
    let y := askAll x.2 rs
    ((r, x.1) :: y.1, y.2)

/-- The class has no dot in its name and the member no colon, wherever they are asked for together. -/
def Told : Request → Prop
  | nameAndType name _ => ':' ∉ name.toList
  | fieldRef m | methodRef m | interfaceMethodRef m => m.Told
  | _ => True

end Request

namespace Pool

/-- The request that an index answers. -/
def request? (p : Pool) (i : UInt16) : Option Request :=
  match p.constant? i with
  | none => none
  | some (.utf8 _) => (p.text? i).map .utf8
  | some (.integer n) => some (.integer n)
  | some (.classRef _) => (p.class? i).map .classRef
  | some (.string j) => (p.text? j).map .string
  | some (.nameAndType _ _) => (p.nameAndType? i).map fun x => .nameAndType x.1 x.2
  | some (.fieldRef _ _) => (p.member? i).map .fieldRef
  | some (.methodRef _ _) => (p.member? i).map .methodRef
  | some (.interfaceMethodRef _ _) => (p.member? i).map .interfaceMethodRef

theorem legible_told : Legible Member.Told where
  pair {m n} hm hn h := by
    have hl := congrArg String.toList h
    simp only [pairText, String.toList_append, List.append_assoc,
      show (":" : String).toList = [':'] from rfl, List.singleton_append] at hl
    obtain ⟨hname, hdesc⟩ := eq_of_cons_append (c := ':') hm.2 hn.2 hl
    exact ⟨String.toList_inj.mp hname, String.toList_inj.mp hdesc⟩
  member {m n} hm hn h := by
    have hl := congrArg String.toList h
    simp only [memberText, String.toList_append, List.append_assoc,
      show (":" : String).toList = [':'] from rfl, show ("." : String).toList = ['.'] from rfl,
      List.singleton_append] at hl
    obtain ⟨howner, hrest⟩ := eq_of_cons_append (c := '.') hm.1 hn.1 hl
    obtain ⟨hname, hdesc⟩ := eq_of_cons_append (c := ':') hm.2 hn.2 hrest
    cases m
    cases n
    simp only [String.toList_inj] at howner hname hdesc
    rw [howner, hname, hdesc]

/-! ## Single requests -/

section Ask

variable {p : Pool} {r : Request}

theorem answers_ask (hp : Sound Member.Told p) (hr : r.Told) :
    Answers Member.Told p r.key (r.ask p) := by
  cases r with
  | utf8 s => exact answers_utf8 hp _
  | integer n => exact answers_integer hp n
  | classRef name => exact answers_classRef hp name
  | string s => exact answers_string hp _
  | nameAndType name desc =>
    exact answers_nameAndType (m := ⟨"", name, desc⟩) hp ⟨by simp, hr⟩
  | fieldRef m =>
    exact answers_member (f := .fieldRef) hp hr (fun _ _ => rfl) fun ht hi hj => ⟨m, hr, ht, hi, hj⟩
  | methodRef m =>
    exact answers_member (f := .methodRef) hp hr (fun _ _ => rfl) fun ht hi hj => ⟨m, hr, ht, hi, hj⟩
  | interfaceMethodRef m =>
    exact answers_member (f := .interfaceMethodRef) hp hr (fun _ _ => rfl)
      fun ht hi hj => ⟨m, hr, ht, hi, hj⟩

/-- The constant that is found by the key of a request is the one that was asked for. -/
theorem request?_of_index (hp : Right Member.Told p) (hr : r.Told) {i : UInt16}
    (hi : p.index[r.key]? = some i) : p.request? i = some r := by
  obtain ⟨c, hc, htag, hsp⟩ := hp.entry _ i hi
  cases r with
  | utf8 s =>
    cases c with
    | utf8 bytes => simp [request?, hc, text?_of_index hp hi]
    | _ => cases htag
  | integer n =>
    have hn := constant?_of_index legible_told hp (c := .integer n) hi rfl
    simp [request?, hn]
  | classRef name =>
    cases c with
    | classRef j => simp [request?, hc, class?_of_index hp hi]
    | _ => cases htag
  | string s =>
    cases c with
    | string j => simp [request?, hc, text?_of_index hp hsp]
    | _ => cases htag
  | nameAndType name desc =>
    cases c with
    | nameAndType j k =>
      simp [request?, hc, nameAndType?_of_index legible_told hp (m := ⟨"", name, desc⟩)
        ⟨by simp, hr⟩ hi]
    | _ => cases htag
  | fieldRef m =>
    cases c with
    | fieldRef j k => simp [request?, hc, member?_of_index legible_told hp hr hi (by decide)]
    | _ => cases htag
  | methodRef m =>
    cases c with
    | methodRef j k => simp [request?, hc, member?_of_index legible_told hp hr hi (by decide)]
    | _ => cases htag
  | interfaceMethodRef m =>
    cases c with
    | interfaceMethodRef j k =>
      simp [request?, hc, member?_of_index legible_told hp hr hi (by decide)]
    | _ => cases htag

end Ask

/-! ## How pools grow -/

/-- A pool after constants were added to it that it spells, and after limits were exceeded. -/
inductive Grown (A : Member → Prop) (p : Pool) : Pool → Prop where
  | refl : Grown A p p
  | fail {q : Pool} (h : Grown A p q) {e : BuildError} (he : e.isLimit = true) : Grown A p (q.fail e)
  | add {q : Pool} (h : Grown A p q) (t : Text) (c : Constant)
      (hc : q.error = none → Spells A q t c) : Grown A p (q.add t c).2

section Grown

variable {A : Member → Prop} {p q : Pool}

theorem Grown.utf8 (h : Grown A p q) (t : Text) : Grown A p (q.utf8 t).2 := by
  unfold Pool.utf8
  dsimp only
  split
  · exact h.fail (e := .longString _) rfl
  · exact h.add t (.utf8 _) fun _ => rfl

theorem Grown.classRef (h : Grown A p q) (hq : Sound A q) (name : String) :
    Grown A p (q.classRef name).2 := by
  rw [classRef_eq]
  exact (h.utf8 _).add _ _ (answers_utf8 hq _).found

theorem Grown.string (h : Grown A p q) (hq : Sound A q) (t : Text) : Grown A p (q.string t).2 := by
  rw [string_eq]
  exact (h.utf8 _).add _ _ (answers_utf8 hq _).found

theorem Grown.nameAndType (h : Grown A p q) (hq : Sound A q) {m : Member} (hm : A m) :
    Grown A p (q.nameAndType m.name m.desc).2 := by
  have hname := answers_utf8 hq (Text.ofString m.name)
  have hdesc := answers_utf8 hname.sound (Text.ofString m.desc)
  rw [nameAndType_eq]
  refine ((h.utf8 _).utf8 _).add _ _ fun he => ⟨m, hm, ?_, ?_, hdesc.found he⟩
  · simp only [pairText, Text.ofString_append]
  · exact hdesc.keeps _ _ (hname.found (hdesc.le.error he))

theorem Grown.member (h : Grown A p q) (hq : Sound A q) {m : Member} (hm : A m)
    {f : UInt16 → UInt16 → Constant}
    (hf : ∀ {q : Pool} {t : Text} {i j : UInt16}, t = Text.ofString (memberText m) →
      q.index[(⟨7, Text.ofString m.owner⟩ : Key)]? = some i →
      q.index[(⟨12, Text.ofString (pairText m.name m.desc)⟩ : Key)]? = some j →
      Spells A q t (f i j)) : Grown A p (q.member f m.owner m.name m.desc).2 := by
  have howner := answers_classRef hq m.owner
  have hpair := answers_nameAndType howner.sound hm
  rw [member_eq]
  refine ((h.classRef hq m.owner).nameAndType howner.sound hm).add _ _ fun he => hf ?_ ?_ (hpair.found he)
  · simp only [memberText, Text.ofString_append]
  · exact hpair.keeps _ _ (howner.found (hpair.le.error he))

end Grown

theorem grown_ask {p q : Pool} (h : Grown Member.Told p q) (hq : Sound Member.Told q) {r : Request}
    (hr : r.Told) : Grown Member.Told p (r.ask q).2 := by
  cases r with
  | utf8 s => exact h.utf8 _
  | integer n => exact h.add _ (.integer n) fun _ => rfl
  | classRef name => exact h.classRef hq name
  | string s => exact h.string hq _
  | nameAndType name desc => exact h.nameAndType hq (m := ⟨"", name, desc⟩) ⟨by simp, hr⟩
  | fieldRef m => exact h.member (f := .fieldRef) hq hr fun ht hi hj => ⟨m, hr, ht, hi, hj⟩
  | methodRef m => exact h.member (f := .methodRef) hq hr fun ht hi hj => ⟨m, hr, ht, hi, hj⟩
  | interfaceMethodRef m =>
    exact h.member (f := .interfaceMethodRef) hq hr fun ht hi hj => ⟨m, hr, ht, hi, hj⟩

/-! ## What they keep -/

theorem Grown.size_le {A : Member → Prop} {p q : Pool} (h : Grown A p q) (hp : p.size ≤ maxSize) :
    q.size ≤ maxSize := by
  induction h with
  | refl => exact hp
  | fail _ _ ih =>
    unfold Pool.fail
    split <;> exact ih
  | add _ t c _ ih =>
    unfold Pool.add
    dsimp only
    split
    · exact ih
    · split
      · unfold Pool.fail
        split <;> exact ih
      · simp only [size, Array.size_push] at *
        omega

theorem Grown.sound {A : Member → Prop} {p q : Pool} (h : Grown A p q) (hp : Sound A p) :
    Sound A q := by
  induction h with
  | refl => exact hp
  | fail _ he ih => exact (answers_fail ih he ⟨0, []⟩).sound
  | add _ t c hc ih => exact (answers_add ih t c hc).sound

end Pool

/-- The names in a request are short. -/
def Request.IsShort : Request → Prop
  | utf8 s | string s => Pool.IsShort s
  | integer _ => True
  | classRef name => Pool.IsShort name
  | nameAndType name desc => Pool.IsShort name ∧ Pool.IsShort desc
  | fieldRef m | methodRef m | interfaceMethodRef m =>
    Pool.IsShort m.owner ∧ Pool.IsShort m.name ∧ Pool.IsShort m.desc

/-- A request takes the room of six constants at most. -/
theorem Pool.Roomy.ask {n : Nat} {p : Pool} (h : p.Roomy (n + 6)) {r : Request} (hr : r.IsShort) :
    (r.ask p).2.Roomy n := by
  have hless : ∀ k ≤ 6, p.Roomy (n + k) := fun k hk =>
    ⟨h.1, Nat.le_trans (by omega : p.size + (n + k) ≤ p.size + (n + 6)) h.2⟩
  have hmember {m : Member} (make) (hm : IsShort m.owner ∧ IsShort m.name ∧ IsShort m.desc) :
      (p.member make m.owner m.name m.desc).2.Roomy n :=
    h.member make hm.1 hm.2.1 hm.2.2
  cases r with
  | utf8 s =>
    rw [Request.ask]
    exact (hless 1 (by decide)).utf8 hr
  | integer m =>
    rw [Request.ask]
    exact (hless 1 (by decide)).add _ _
  | classRef name =>
    rw [Request.ask]
    exact (hless 2 (by decide)).classRef hr
  | string s =>
    rw [Request.ask]
    exact (hless 2 (by decide)).string hr
  | nameAndType name desc =>
    rw [Request.ask]
    exact (hless 3 (by decide)).nameAndType hr.1 hr.2
  | fieldRef m =>
    rw [Request.ask, Pool.fieldRef]
    exact hmember .fieldRef hr
  | methodRef m =>
    rw [Request.ask, Pool.methodRef]
    exact hmember .methodRef hr
  | interfaceMethodRef m =>
    rw [Request.ask, Pool.interfaceMethodRef]
    exact hmember .interfaceMethodRef hr

/-! ## Sequences of requests -/

namespace Request

open Pool

variable {p : Pool}

theorem grown_askAll {q : Pool} (rs : List Request) (h : Grown Member.Told p q)
    (hp : Sound Member.Told p) (hrs : ∀ r ∈ rs, r.Told) : Grown Member.Told p (askAll q rs).2 := by
  induction rs generalizing q with
  | nil => exact h
  | cons r rs ih =>
    exact ih (grown_ask h (h.sound hp) (hrs r List.mem_cons_self))
      fun r' hr' => hrs r' (List.mem_cons_of_mem r hr')

/-- In the end the constant of every request is found at the index that was given for it. -/
theorem answers_askAll (rs : List Request) (hp : Sound Member.Told p) (hrs : ∀ r ∈ rs, r.Told) :
    p.Le (askAll p rs).2 ∧
      (∀ (k : Key) i, p.index[k]? = some i → (askAll p rs).2.index[k]? = some i) ∧
      ((askAll p rs).2.error = none →
        ∀ x ∈ (askAll p rs).1, (askAll p rs).2.index[x.1.key]? = some x.2) := by
  induction rs generalizing p with
  | nil => exact ⟨.refl p, fun _ _ h => h, fun _ x hx => by cases hx⟩
  | cons r rs ih =>
    have hr := answers_ask hp (hrs r List.mem_cons_self)
    obtain ⟨hle, hkeeps, hfound⟩ := ih hr.sound fun r' hr' => hrs r' (List.mem_cons_of_mem r hr')
    refine ⟨hr.le.trans hle, fun k i hk => hkeeps k i (hr.keeps k i hk), fun he x hx => ?_⟩
    rcases List.mem_cons.mp hx with rfl | hx
    · exact hkeeps _ _ (hr.found (hle.error he))
    · exact hfound he x hx

theorem map_fst_askAll (p : Pool) (rs : List Request) : (askAll p rs).1.map Prod.fst = rs := by
  induction rs generalizing p with
  | nil => rfl
  | cons r rs ih => exact congrArg (r :: ·) (ih (r.ask p).2)

theorem told_of_mem_askAll {rs : List Request} (hrs : ∀ r ∈ rs, r.Told) {x : Request × UInt16}
    (hx : x ∈ (askAll p rs).1) : x.1.Told := by
  refine hrs x.1 ?_
  rw [← map_fst_askAll p rs]
  exact List.mem_map_of_mem hx

/-- Requests for short names do not fail where there is room for all of them. -/
theorem roomy_askAll {rs : List Request} (hp : p.Roomy (6 * rs.length))
    (hrs : ∀ r ∈ rs, r.IsShort) : (askAll p rs).2.error = none := by
  induction rs generalizing p with
  | nil => exact hp.1
  | cons r rs ih =>
    rw [List.length_cons, Nat.mul_succ] at hp
    exact ih (hp.ask (hrs r List.mem_cons_self)) fun r' hr' => hrs r' (List.mem_cons_of_mem r hr')

end Request

/-- The indices of a pool that has not failed lead to what was asked for, to the same constant exactly
if the same was asked for; references lead to earlier constants of the right kind; and there are
never too many constants. -/
theorem Request.asked (rs : List Request) (hrs : ∀ r ∈ rs, r.Told)
    (he : (askAll .empty rs).2.error = none) :
    let log := (askAll .empty rs).1
    let p := (askAll .empty rs).2
    log.map Prod.fst = rs ∧
      (∀ x ∈ log, 1 ≤ x.2.toNat ∧ x.2.toNat ≤ p.size - 1 ∧ p.request? x.2 = some x.1) ∧
      (∀ x ∈ log, ∀ y ∈ log, x.2 = y.2 ↔ x.1 = y.1) ∧
      p.Grounded ∧
      ∀ rs', rs' <+: rs → (askAll .empty rs').2.size ≤ 65535 := by
  intro log p
  have hempty := Pool.sound_empty Member.Told
  have hgrown := grown_askAll rs .refl hempty hrs
  have hright := (hgrown.sound hempty).right he
  obtain ⟨-, -, hfound⟩ := answers_askAll rs hempty hrs
  have hresolve : ∀ x ∈ log, p.request? x.2 = some x.1 := fun x hx =>
    Pool.request?_of_index hright (told_of_mem_askAll hrs hx) (hfound he x hx)
  refine ⟨map_fst_askAll _ rs, fun x hx => ?_, fun x hx y hy => ⟨fun heq => ?_, fun heq => ?_⟩, ?_,
    fun rs' hrs' => ?_⟩
  · obtain ⟨c, hc, -⟩ := hright.entry _ _ (hfound he x hx)
    obtain ⟨hpos, hlt⟩ := Pool.toNat_bounds hc
    exact ⟨hpos, Nat.le_sub_one_of_lt hlt, hresolve x hx⟩
  · have hx := hresolve x hx
    rw [heq, hresolve y hy] at hx
    exact (Option.some.inj hx).symm
  · have hx := hfound he x hx
    rw [heq, hfound he y hy] at hx
    exact (Option.some.inj hx).symm
  · exact hright.grounded
  · exact (grown_askAll rs' .refl hempty fun r hr => hrs r (hrs'.subset hr)).size_le (by decide)

/-- A method, the name of its class once more, and a number that is also asked for as a text. -/
def Request.sample : List Request :=
  [.methodRef ⟨"A", "f", "()V"⟩, .classRef "A", .integer 7, .utf8 "7"]

theorem Request.asked_sample : (∀ r ∈ sample, r.Told) ∧ (askAll .empty sample).2.error = none ∧
    (∀ x ∈ (askAll .empty sample).1, (askAll .empty sample).2.request? x.2 = some x.1) ∧
      (askAll .empty sample).2.Grounded := by
  have hshort : ∀ s ∈ ["A", "f", "()V", "A", "7"], Pool.IsShort s := by decide
  have htold : ∀ r ∈ sample, r.Told := by simp [sample, Told, Member.Told]
  have he : (askAll .empty sample).2.error = none :=
    roomy_askAll ⟨rfl, by decide⟩ (by simpa [sample, IsShort, and_assoc] using hshort)
  obtain ⟨-, hresolve, -, hgrounded, -⟩ := Request.asked sample htold he
  exact ⟨htold, he, fun x hx => (hresolve x hx).2.2, hgrounded⟩

end ClassFile
end Kotlet

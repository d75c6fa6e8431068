import Kotlet.Proofs.ClassFile.Reads

/-!
# Where a class file ends

A reader that gets past the end of the bytes goes on with zeros and only remembers that it did. What
it makes of the zeros does not matter, because nothing clears that memory, and the last step of
reading a class looks at it.

* `Takes` : the bytes that a run of a step takes; what follows them plays no part, and if the last of
  them are missing that is remembered;
* `Delimited` : a step whose runs all take some bytes in this sense, and that forgets no end;
* `Delimited.bind`, `delimited_take`, `delimited_times` : such steps put together, and
  `delimited_readEntry`, `delimited_readMember`, `delimited_readBody` : the parts of a class;
* `Closes` : a step that gets through only where it comes out at the end of the bytes, and
  `closes_readClass` : reading a class is one;
* `parse_delimited` : no proper prefix and no proper extension of a class file is a class file.
-/

namespace Kotlet
namespace ParsedClass

open ClassFile

/-- A run of the step behind the bytes `pre` takes the bytes `bs` and makes `a` of them, whatever
follows. Where the bytes end too early, no run gets through unnoticed. -/
structure Takes {α : Type} (r : Reader α) (pre bs : List UInt8) (a : α) : Prop where
  whole : ∀ post, r ⟨(pre ++ bs ++ post).toArray, pre.length, true⟩ =
    .ok (a, ⟨(pre ++ bs ++ post).toArray, pre.length + bs.length, true⟩)
  cut : ∀ part, part <+: bs → part ≠ bs → ∀ x c,
    r ⟨(pre ++ part).toArray, pre.length, true⟩ = .ok (x, c) → c.ok = false

/-- The step finds the end of what it reads by itself. -/
structure Delimited {α : Type} (r : Reader α) : Prop where
  /-- That the bytes ended too early is not forgotten. -/
  stays : ∀ {c a c'}, c.ok = false → r c = .ok (a, c') → c'.ok = false
  takes : ∀ {pre rest a c}, r ⟨(pre ++ rest).toArray, pre.length, true⟩ = .ok (a, c) → c.ok = true →
    ∃ bs post, rest = bs ++ post ∧ c = ⟨(pre ++ rest).toArray, pre.length + bs.length, true⟩ ∧
      Takes r pre bs a

/-- A cut lies in the first part, or the first part is whole. -/
theorem prefix_append_cases {bs bs' part : List UInt8} (h : part <+: bs ++ bs') :
    (part <+: bs ∧ part ≠ bs) ∨ ∃ part', part' <+: bs' ∧ part = bs ++ part' := by
  rcases List.prefix_or_prefix_of_prefix h (List.prefix_append bs bs') with hle | ⟨part', rfl⟩
  · by_cases heq : part = bs
    · exact .inr ⟨[], List.nil_prefix, by rw [heq, List.append_nil]⟩
    · exact .inl ⟨hle, heq⟩
  · exact .inr ⟨part', (List.prefix_append_right_inj bs).mp h, rfl⟩

section Steps

variable {α β : Type} {r : Reader α} {f : α → Reader β}

/-- A run of two steps is a run of the first and one of the second. -/
theorem eq_ok_of_bind {c c'' : Cursor} {b : β} (h : (r >>= f) c = .ok (b, c'')) :
    ∃ a c', r c = .ok (a, c') ∧ f a c' = .ok (b, c'') := by
  change Except.bind (r c) (fun x => f x.1 x.2) = _ at h
  cases hr : r c with
  | error e =>
    rw [hr] at h
    cases h
  | ok x =>
    rw [hr] at h
    exact ⟨x.1, x.2, rfl, h⟩

theorem bind_eq_ok {c c' c'' : Cursor} {a : α} {b : β} (h : r c = .ok (a, c'))
    (h' : f a c' = .ok (b, c'')) : (r >>= f) c = .ok (b, c'') := by
  change Except.bind (r c) (fun x => f x.1 x.2) = _
  rw [h]
  exact h'

/-- A step that does not touch the bytes, and does the same whatever they are. -/
theorem Delimited.idle (h : (∃ a, ∀ c, r c = .ok (a, c)) ∨ ∃ e, ∀ c, r c = .error e) :
    Delimited r := by
  rcases h with ⟨a, h⟩ | ⟨e, h⟩
  · refine ⟨fun hc hr => ?_, fun {pre rest x c} hr _ => ?_⟩
    · rw [h] at hr
      cases hr
      exact hc
    · rw [h] at hr
      cases hr
      refine ⟨[], rest, rfl, rfl, fun post => by rw [h]; rfl, fun part hp hne => ?_⟩
      exact absurd (List.prefix_nil.mp hp) hne
  · refine ⟨fun _ hr => ?_, fun hr => ?_⟩
    · rw [h] at hr
      cases hr
    · rw [h] at hr
      cases hr

theorem Delimited.pure (a : α) : Delimited (pure a) := .idle (.inl ⟨a, fun _ => rfl⟩)

theorem delimited_throw (e : ReadError) : Delimited (throw e : Reader α) :=
  .idle (.inr ⟨e, fun _ => rfl⟩)

theorem delimited_lift (x : Except ReadError α) : Delimited (liftM x : Reader α) := by
  cases x with
  | error e => exact .idle (.inr ⟨e, fun _ => rfl⟩)
  | ok a => exact .idle (.inl ⟨a, fun _ => rfl⟩)

/-- The bytes of two steps are those of the first and then those of the second. -/
theorem Takes.bind {pre bs bs' : List UInt8} {a : α} {b : β} (hf : ∀ a, Delimited (f a))
    (h : Takes r pre bs a) (h' : Takes (f a) (pre ++ bs) bs' b) : Takes (r >>= f) pre (bs ++ bs') b := by
  refine ⟨fun post => ?_, fun part hpart hne x c hrun => ?_⟩
  · have hr := h.whole (bs' ++ post)
    have hs := h'.whole post
    simp only [List.append_assoc, List.length_append, Nat.add_assoc] at hr hs ⊢
    exact bind_eq_ok hr hs
  · obtain ⟨y, c', hr, hs⟩ := eq_ok_of_bind hrun
    rcases prefix_append_cases hpart with ⟨hle, hne'⟩ | ⟨part', hpart', rfl⟩
    · exact (hf y).stays (h.cut part hle hne' y c' hr) hs
    · have hrun' := h.whole part'
      rw [List.append_assoc] at hrun'
      rw [hrun'] at hr
      cases hr
      rw [← List.append_assoc, ← List.length_append] at hs
      refine h'.cut part' hpart' (fun heq => hne (by rw [heq])) x c ?_
      rw [List.append_assoc] at hs ⊢
      exact hs

theorem Delimited.bind (h : Delimited r) (hf : ∀ a, Delimited (f a)) : Delimited (r >>= f) := by
  refine ⟨fun hc hrun => ?_, fun {pre rest b c} hrun hc => ?_⟩
  · obtain ⟨a, c', hr, hs⟩ := eq_ok_of_bind hrun
    exact (hf a).stays (h.stays hc hr) hs
  · obtain ⟨a, c', hr, hs⟩ := eq_ok_of_bind hrun
    have hc' : c'.ok = true := by
      cases hno : c'.ok with
      | true => rfl
      | false =>
        rw [(hf a).stays hno hs] at hc
        cases hc
    obtain ⟨bs, post, rfl, rfl, ht⟩ := h.takes hr hc'
    rw [← List.append_assoc, ← List.length_append] at hs
    obtain ⟨bs', post', rfl, rfl, ht'⟩ := (hf a).takes hs hc
    exact ⟨bs ++ bs', post', by rw [List.append_assoc], by simp [Nat.add_assoc], ht.bind hf ht'⟩

theorem Delimited.map (h : Delimited r) (g : α → β) : Delimited (do return g (← r)) :=
  h.bind fun a => .pure (g a)

theorem Delimited.ite (p : Prop) [Decidable p] {r' : Reader α} (h : Delimited r)
    (h' : Delimited r') : Delimited (if p then r else r') := by
  split
  · exact h
  · exact h'

end Steps

/-! ## Single steps -/

/-- Bytes are taken only if all of them are there. -/
theorem take?_cases (n : Nat) (c : Cursor) :
    (c.ok = false ∧ take? n c = .ok (none, c)) ∨
      (c.ok = true ∧ c.data.size < c.pos + n ∧ take? n c = .ok (none, { c with ok := false })) ∨
        (c.ok = true ∧ c.pos + n ≤ c.data.size ∧
          take? n c = .ok (some (c.data.extract c.pos (c.pos + n)), { c with pos := c.pos + n })) := by
  cases hok : c.ok with
  | false =>
    refine .inl ⟨rfl, ?_⟩
    simp only [take?, bind, StateT.bind, get, getThe, MonadStateOf.get, StateT.get, Except.bind, pure,
      Except.pure, hok, Bool.not_false, if_true]
    rfl
  | true =>
    by_cases hn : c.data.size < c.pos + n
    · refine .inr (.inl ⟨rfl, hn, ?_⟩)
      simp only [take?, bind, StateT.bind, get, getThe, MonadStateOf.get, StateT.get, Except.bind,
        pure, Except.pure, hok, Bool.not_true, Bool.false_eq_true, if_false, if_pos hn]
      rfl
    · have h := take?_eq hok (Nat.not_lt.mp hn)
      rw [hok] at h
      exact .inr (.inr ⟨rfl, Nat.not_lt.mp hn, h⟩)

theorem delimited_take (n : Nat) : Delimited (take? n) := by
  refine ⟨fun {c a c'} hc hr => ?_, fun {pre rest a c} hr hc => ?_⟩
  · rcases take?_cases n c with ⟨-, h⟩ | ⟨hok, -⟩ | ⟨hok, -⟩
    · rw [h] at hr
      cases hr
      exact hc
    · rw [hc] at hok
      cases hok
    · rw [hc] at hok
      cases hok
  · rcases take?_cases n ⟨(pre ++ rest).toArray, pre.length, true⟩ with ⟨hok, -⟩ | ⟨-, -, h⟩ | ⟨-, hn, h⟩
    · cases hok
    · rw [h] at hr
      cases hr
      cases hc
    · rw [h] at hr
      cases hr
      simp only [List.size_toArray, List.length_append] at hn
      have hlen : (rest.take n).length = n := by
        rw [List.length_take]
        omega
      refine ⟨rest.take n, rest.drop n, (List.take_append_drop n rest).symm, by rw [hlen],
        fun post => ?_, fun part hpart hne x c hrun => ?_⟩
      · have hrun := take?_eq (n := n) (c := ⟨(pre ++ rest.take n ++ post).toArray, pre.length, true⟩)
          rfl (by simp [hlen])
        rw [hrun, hlen]
        have hleft : (rest.take n ++ post).take n = (rest.take n).take n :=
          List.take_append_of_le_length (Nat.le_of_eq hlen.symm)
        simp [hleft, List.take_take]
      · have hlt : part.length < n := by
          rw [← hlen]
          exact Nat.lt_of_le_of_ne hpart.length_le fun heq => hne (hpart.eq_of_length heq)
        rcases take?_cases n ⟨(pre ++ part).toArray, pre.length, true⟩ with
          ⟨hok, -⟩ | ⟨-, -, h⟩ | ⟨-, hn, -⟩
        · cases hok
        · rw [h] at hrun
          cases hrun
          rfl
        · simp only [List.size_toArray, List.length_append] at hn
          omega

theorem delimited_number (n : Nat) : Delimited (number n) := (delimited_take n).map _

theorem delimited_u1 : Delimited u1 := (delimited_number 1).map _

theorem delimited_u2 : Delimited u2 := (delimited_number 2).map _

theorem delimited_u4 : Delimited u4 := (delimited_number 4).map _

theorem delimited_u8 : Delimited u8 :=
  (delimited_number 4).bind fun _ => (delimited_number 4).map _

/-- Whether the end was met is known from what was read. -/
theorem delimited_intact : Delimited intact := by
  refine ⟨fun hc hr => ?_, fun {pre rest a c} hr _ => ?_⟩
  · cases hr
    exact hc
  · cases hr
    refine ⟨[], rest, rfl, rfl, fun post => rfl, fun part hp hne => ?_⟩
    exact absurd (List.prefix_nil.mp hp) hne

theorem delimited_requireIntact : Delimited requireIntact :=
  delimited_intact.bind fun _ => .ite _ (delimited_throw _) (.pure _)

theorem delimited_times {α : Type} {step : Reader α} (h : Delimited step) (n : Nat)
    (acc : List α) : Delimited (times step n acc) := by
  induction n generalizing acc with
  | zero => exact .pure _
  | succ n ih => exact delimited_intact.bind fun _ => .ite _ (h.bind fun a => ih (a :: acc)) (.pure _)

/-! ## The parts of a class -/

theorem delimited_readEntry (index : Nat) : Delimited (readEntry index) := by
  have one : ∀ make : UInt16 → Entry, Delimited (do return make (← u2)) := fun make =>
    delimited_u2.map make
  have two : ∀ make : UInt16 → UInt16 → Entry, Delimited (do let i ← u2; return make i (← u2)) :=
    fun make => delimited_u2.bind fun i => delimited_u2.map (make i)
  refine delimited_u1.bind fun tag => ?_
  split
  · -- A text is taken as a whole before it is decoded.
    refine delimited_u2.bind fun length => (delimited_take _).bind fun bytes => ?_
    split
    · exact .pure _
    · exact delimited_throw _
  · exact delimited_u4.map _
  · exact delimited_u4.map _
  · exact delimited_u8.map _
  · exact delimited_u8.map _
  · exact one _
  · exact one _
  · exact two _
  · exact two _
  · exact two _
  · exact two _
  · exact delimited_u1.bind fun i => delimited_u2.map _
  · exact one _
  · exact two _
  · exact two _
  · exact one _
  · exact one _
  · exact delimited_requireIntact.bind fun _ => delimited_throw _

theorem delimited_readEntries (count turns : Nat) (pool : Array Entry) :
    Delimited (readEntries count turns pool) := by
  induction turns generalizing pool with
  | zero => exact .pure pool
  | succ turns ih => exact .ite _ (.pure pool) ((delimited_readEntry _).bind fun e => ih _)

theorem delimited_readPool : Delimited readPool :=
  delimited_u2.bind fun _ => (delimited_readEntries _ _ _).bind fun pool =>
    delimited_requireIntact.bind fun _ => .pure pool

theorem delimited_readAttribute (pool : Array Entry) : Delimited (readAttribute pool) :=
  delimited_u2.bind fun _ => (delimited_lift _).bind fun _ => delimited_u4.bind fun _ =>
    (delimited_take _).map _

theorem delimited_readMember (pool : Array Entry) : Delimited (readMember pool) := by
  refine delimited_u2.bind fun access => delimited_u2.bind fun _ => (delimited_lift _).bind fun name =>
    delimited_u2.bind fun _ => (delimited_lift _).bind fun desc => delimited_u2.bind fun count => ?_
  exact (delimited_times ((delimited_readAttribute pool).bind fun _ => delimited_lift _) _ _).map _

theorem delimited_readMembers (pool : Array Entry) : Delimited (readMembers pool) :=
  delimited_u2.bind fun _ => (delimited_times (delimited_readMember pool) _ _).bind fun members =>
    delimited_requireIntact.bind fun _ => .pure members

/-! ## Whole classes -/

/-- The step gets through only where it comes out at the end of the bytes. -/
structure Closes {α : Type} (r : Reader α) : Prop where
  stuck : ∀ {c a c'}, c.ok = false → r c ≠ .ok (a, c')
  cut : ∀ {pre rest a c}, r ⟨(pre ++ rest).toArray, pre.length, true⟩ = .ok (a, c) →
    ∀ part, part <+: rest → part ≠ rest → ∀ x c',
      r ⟨(pre ++ part).toArray, pre.length, true⟩ ≠ .ok (x, c')
  longer : ∀ {pre rest a c}, r ⟨(pre ++ rest).toArray, pre.length, true⟩ = .ok (a, c) →
    ∀ post, post ≠ [] → r ⟨(pre ++ rest ++ post).toArray, pre.length, true⟩ =
      .error (.trailing post.length)

theorem Delimited.closes {α β : Type} {r : Reader α} {f : α → Reader β} (h : Delimited r)
    (hf : ∀ a, Closes (f a)) : Closes (r >>= f) := by
  -- What the first step takes when both get through, and that the second one starts behind it.
  have hsplit : ∀ {pre rest b c}, (r >>= f) ⟨(pre ++ rest).toArray, pre.length, true⟩ = .ok (b, c) →
      ∃ bs post a, rest = bs ++ post ∧ Takes r pre bs a ∧
        f a ⟨(pre ++ bs ++ post).toArray, (pre ++ bs).length, true⟩ = .ok (b, c) := by
    intro pre rest b c hrun
    obtain ⟨a, c', hr, hs⟩ := eq_ok_of_bind hrun
    have hok : c'.ok = true := by
      cases hno : c'.ok with
      | true => rfl
      | false => exact absurd hs ((hf a).stuck hno)
    obtain ⟨bs, post, rfl, rfl, ht⟩ := h.takes hr hok
    exact ⟨bs, post, a, rfl, ht, by rw [List.append_assoc, List.length_append]; exact hs⟩
  refine ⟨fun hc hrun => ?_, fun hrun part hpart hne x c' hcut => ?_, fun hrun post hpost => ?_⟩
  · obtain ⟨a, c', hr, hs⟩ := eq_ok_of_bind hrun
    exact (hf a).stuck (h.stays hc hr) hs
  · obtain ⟨bs, post, a, rfl, ht, hs⟩ := hsplit hrun
    obtain ⟨y, c'', hr, hs'⟩ := eq_ok_of_bind hcut
    rcases prefix_append_cases hpart with ⟨hle, hne'⟩ | ⟨part', hpart', rfl⟩
    · exact (hf y).stuck (ht.cut part hle hne' y c'' hr) hs'
    · have hrun' := ht.whole part'
      rw [List.append_assoc] at hrun'
      rw [hrun'] at hr
      cases hr
      rw [← List.append_assoc, ← List.length_append] at hs'
      exact (hf a).cut hs part' hpart' (fun heq => hne (by rw [heq])) x c' hs'
  · obtain ⟨bs, rest, a, rfl, ht, hs⟩ := hsplit hrun
    have hr := ht.whole (rest ++ post)
    have hs' := (hf a).longer hs post hpost
    simp only [List.append_assoc, List.length_append] at hr hs' ⊢
    change Except.bind (r _) (fun x => f x.1 x.2) = _
    rw [hr]
    exact hs'

theorem Closes.ite {α : Type} (p : Prop) [Decidable p] {r r' : Reader α} (h : Closes r)
    (h' : Closes r') : Closes (if p then r else r') := by
  split
  · exact h
  · exact h'

/-- The last steps of reading a class. -/
def atEnd {α : Type} (x : α) : Reader α := do
  requireIntact
  let c ← get
  if c.pos ≠ c.data.size then throw (.trailing (c.data.size - c.pos))
  return x

theorem atEnd_eq {α : Type} (x : α) (c : Cursor) : atEnd x c =
    if c.ok = false then .error .truncated
    else if c.pos ≠ c.data.size then .error (.trailing (c.data.size - c.pos)) else .ok (x, c) := by
  obtain ⟨data, pos, ok⟩ := c
  cases ok with
  | false => rfl
  | true =>
    rw [if_neg (by simp)]
    change (if pos ≠ data.size then _ else _ : Reader α) _ = _
    split <;> rfl

theorem closes_atEnd {α : Type} (x : α) : Closes (atEnd x) := by
  -- A run that gets through has nothing left to read.
  have hnil : ∀ {pre rest : List UInt8} {a : α} {c : Cursor},
      atEnd x ⟨(pre ++ rest).toArray, pre.length, true⟩ = .ok (a, c) → rest = [] := by
    intro pre rest a c h
    rw [atEnd_eq, if_neg (by simp)] at h
    split at h
    · cases h
    · rename_i hpos
      simpa using hpos
  refine ⟨fun hc h => ?_, fun h part hpart hne => ?_, fun h post hpost => ?_⟩
  · rw [atEnd_eq, if_pos hc] at h
    cases h
  · rw [hnil h] at hpart hne
    exact absurd (List.prefix_nil.mp hpart) hne
  · rw [hnil h, atEnd_eq, if_neg (by simp), if_pos (by simpa using hpost)]
    simp

theorem closes_readClass : Closes readClass := by
  refine delimited_u4.closes fun magic => delimited_intact.closes fun ok => ?_
  refine .ite _ ((delimited_throw _).closes ?versions) (?versions ())
  refine fun _ => delimited_u2.closes fun minor => delimited_u2.closes fun major => ?_
  refine delimited_readPool.closes fun pool => delimited_u2.closes fun access => ?_
  refine delimited_u2.closes fun _ => (delimited_lift _).closes fun name => ?_
  refine delimited_u2.closes fun superIndex => ?_
  refine .ite _ ((Delimited.pure _).closes ?members) ((delimited_lift _).closes ?members)
  have hinterface : Delimited (do classAt pool (← u2) : Reader String) :=
    delimited_u2.bind fun _ => delimited_lift _
  have hsource : Delimited (readClassAttribute pool) :=
    (delimited_readAttribute pool).bind fun _ => delimited_lift _
  refine fun super => delimited_u2.closes fun _ => (delimited_times hinterface _ _).closes fun _ => ?_
  refine (delimited_readMembers pool).closes fun fields => ?_
  refine (delimited_readMembers pool).closes fun methods => ?_
  refine delimited_u2.closes fun _ => (delimited_times hsource _ _).closes fun sources => ?_
  exact closes_atEnd _

theorem parse_eq_ok_iff {data : Array UInt8} {x : ParsedClass} :
    parse data = .ok x ↔ ∃ c, readClass ⟨data, 0, true⟩ = .ok (x, c) := by
  unfold parse
  constructor
  · intro h
    cases hr : readClass ⟨data, 0, true⟩ with
    | error e =>
      rw [hr] at h
      cases h
    | ok y =>
      rw [hr] at h
      cases h
      exact ⟨y.2, rfl⟩
  · rintro ⟨c, hr⟩
    rw [hr]
    rfl

/-- A class file tells where it ends: no proper prefix of one can be read as a class, and neither can
anything longer that starts with one. -/
theorem parse_delimited {data : List UInt8} {x : ParsedClass} (h : parse data.toArray = .ok x) :
    (∀ part, part <+: data → part ≠ data → ∃ e, parse part.toArray = .error e) ∧
      ∀ rest, rest ≠ [] → parse (data ++ rest).toArray = .error (.trailing rest.length) := by
  obtain ⟨c, hrun⟩ := parse_eq_ok_iff.mp h
  refine ⟨fun part hpart hne => ?_, fun rest hrest => ?_⟩
  · cases hp : parse part.toArray with
    | error e => exact ⟨e, rfl⟩
    | ok y =>
      obtain ⟨c', hrun'⟩ := parse_eq_ok_iff.mp hp
      have hcut := @Closes.cut _ _ closes_readClass [] data x c hrun part hpart hne
      exact absurd hrun' (hcut y c')
  · have hlonger := @Closes.longer _ _ closes_readClass [] data x c hrun rest hrest
    rw [List.nil_append] at hlonger
    unfold parse
    rw [List.length_nil] at hlonger
    rw [hlonger]
    rfl

/-- A class without members. -/
def memberless : List UInt8 :=
  bytes4 0xcafebabe ++ bytes2 0 ++ bytes2 49 ++ bytes2 3 ++ [1, 0, 1, 0x41] ++ [7, 0, 1] ++
    bytes2 0x21 ++ bytes2 2 ++ bytes2 0 ++ bytes2 0 ++ bytes2 0 ++ bytes2 0 ++ bytes2 0

theorem parse_delimited_memberless : (∃ x, parse memberless.toArray = .ok x) ∧
    (∃ e, parse (memberless.take 30).toArray = .error e) ∧
      parse (memberless ++ [0]).toArray = .error (.trailing 1) := by
  have hok : (parse memberless.toArray).isOk = true := by decide +kernel
  cases hx : parse memberless.toArray with
  | error e =>
    rw [hx] at hok
    cases hok
  | ok x =>
    obtain ⟨hcut, hlonger⟩ := parse_delimited hx
    exact ⟨⟨x, rfl⟩, hcut _ (List.take_prefix _ _) (by decide), hlonger [0] (by decide)⟩

end ParsedClass
end Kotlet

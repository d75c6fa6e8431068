import Kotlet.Emit
import Kotlet.Proofs.ClassFile.Flow.Whole
import Kotlet.Proofs.Emit.Layout
import Kotlet.Proofs.Ends
import Kotlet.Proofs.Typing.Judgement

/-!
# Steps of code generation

* `World` : what is known of the method that is being written: the flow of its control, and the
  slots of its variables;
* `Good` : a state of which all that is true, in a class that has failed for nothing;
* `Later` : a state that comes after another one: whatever methods were added are verified;
* `Writes` : from good states, the steps fail for a limit of the format only, and lead to good
  states again;
* `World.Past` : a world that comes later, in which all that was known is still known;
* `Leads` : steps from one world to another.
-/

namespace Kotlet
namespace Emit

open ClassFile

/-- The name of the method of a lambda. -/
def lambdaName (k : Nat) : String := "lambda$" ++ toString k

theorem lambdaName_inj {j k : Nat} (h : lambdaName j = lambdaName k) : j = k := by
  have hd := congrArg String.toList h
  simp only [lambdaName, String.toList_append, List.append_cancel_left_eq, Nat.toString_eq_repr,
    Nat.toList_repr] at hd
  rw [← @Nat.ofDigitChars_ten_toDigits j, hd, Nat.ofDigitChars_ten_toDigits]

/-- What is known of the method that is being written. -/
structure World extends Flow where
  /-- The kinds of the arguments. -/
  entry : List Kind
  /-- The kinds of the result. -/
  result : List Kind
  /-- The slots of the variables. -/
  vars : SymbolId → Option Local
  /-- The variables with a slot have numbers below this one, -/
  count : Nat
  /-- but for one that may have got its slot before others with smaller numbers. -/
  ahead : Option Nat
  /-- The slots from this one on are free. -/
  next : Nat
  /-- Whether new variables get the next free slot. -/
  numbered : Bool
  /-- The names of the methods so far, besides those of lambdas. -/
  names : List String

namespace World

/-- The world with another stack. -/
def withStack (W : World) (st : List Kind) : World := { W with stack := st }

/-- The world where control cannot come. -/
def dead (W : World) : World := { W with live := false }

/-- The slot holds what its type tells. -/
def Has (W : World) (l : Local) : Prop := W.locals l.slot = some l.ty.localKind.kind

/-- The variables have slots, and the slots hold what their types tell. -/
def Holds (W : World) (Γ : List Symbol) : Prop :=
  ∀ sym ∈ Γ, ∃ l, W.vars sym.id = some l ∧ l.ty = sym.ty ∧ W.Has l

/-- A label that can be jumped to with a stack. -/
def Target (W : World) (l : Nat) (st : List Kind) : Prop :=
  (l ∈ W.opens ∨ l ∈ W.tops) ∧ ∃ mark, W.marks[l]? = some mark ∧ mark.Le ⟨st, W.locals⟩

/-- Variables with the number may have a slot. -/
def Numbered (W : World) (i : Nat) : Prop := i < W.count ∨ W.ahead = some i

/-- What holds of a world by itself. -/
structure Ok (W : World) : Prop where
  next : W.next ≤ 65536
  locals : ∀ k kind, W.locals k = some kind → k < W.next
  marks : ∀ mark ∈ W.marks, ∀ k kind, mark.locals k = some kind → k < W.next
  vars : ∀ id l, W.vars id = some l → W.Numbered id.index
  tops : ∀ t ∈ W.tops, t < W.marks.length
  fresh : W.fresh ≤ W.marks.length
  names : ∀ n ∈ W.names, ∀ k, n ≠ lambdaName k

/-- The second world comes later in the same method. The labels in the list were made in between and
have no place yet. -/
structure Past (W : World) (ls : List Nat) (W' : World) : Prop where
  entry : W'.entry = W.entry
  result : W'.result = W.result
  names : W'.names = W.names
  vars : ∀ id l, W.vars id = some l → W'.vars id = some l
  marks : W.marks <+: W'.marks
  opens : W'.opens = ls ++ W.opens
  tops : W'.tops = W.tops
  locals : ∀ k kind, W.locals k = some kind → W'.locals k = some kind
  next : W.next ≤ W'.next
  ahead : W'.ahead = W.ahead
  numbered : W'.numbered = W.numbered

/-- The second world comes after a whole piece of the program. -/
abbrev Next (W W' : World) : Prop := W.Past [] W'

namespace Past

variable {W W' W'' : World} {ls : List Nat}

theorem refl (W : World) : W.Next W :=
  ⟨rfl, rfl, rfl, fun _ _ h => h, List.prefix_refl _, rfl, rfl, fun _ _ h => h, Nat.le_refl _, rfl, rfl⟩

theorem trans (h : W.Past ls W') (h' : W'.Next W'') : W.Past ls W'' where
  entry := h'.entry.trans h.entry
  result := h'.result.trans h.result
  names := h'.names.trans h.names
  vars id l hl := h'.vars id l (h.vars id l hl)
  marks := h.marks.trans h'.marks
  opens := h'.opens.trans h.opens
  tops := h'.tops.trans h.tops
  locals k kind hk := h'.locals k kind (h.locals k kind hk)
  next := Nat.le_trans h.next h'.next
  ahead := h'.ahead.trans h.ahead
  numbered := h'.numbered.trans h.numbered

theorem withStack (h : W.Past ls W') (st : List Kind) : W.Past ls (W'.withStack st) := { h with }

theorem dead (h : W.Past ls W') : W.Past ls W'.dead := { h with }

theorem mark (h : W.Past ls W') {l : Nat} {mark : Shape} (hm : W.marks[l]? = some mark) :
    W'.marks[l]? = some mark := Code.getElem?_of_prefix h.marks hm

theorem has (h : W.Past ls W') {l : Local} (hl : W.Has l) : W'.Has l := h.locals _ _ hl

theorem holds (h : W.Past ls W') {Γ : List Symbol} (hΓ : W.Holds Γ) : W'.Holds Γ := by
  intro sym hs
  obtain ⟨l, hl, hty, hhas⟩ := hΓ sym hs
  exact ⟨l, h.vars _ _ hl, hty, h.has hhas⟩

theorem target (h : W.Past ls W') {l : Nat} {st : List Kind} (hl : W.Target l st) :
    W'.Target l st := by
  obtain ⟨hmem, mark, hm, hle⟩ := hl
  refine ⟨?_, mark, h.mark hm, hle.stack,
    fun k kind hk => h.locals k kind (hle.locals k kind hk)⟩
  rw [h.opens, h.tops]
  exact hmem.imp (List.mem_append_right _) id

end Past

end World

/-- A state of which a world tells the truth. -/
structure Good (W : World) (s : State) : Prop where
  pool : Pool.Sound Plain s.pool
  flows : s.body.code.Flows s.pool W.entry W.result W.toFlow
  slots : ∀ id : SymbolId, s.body.slots[id]? = W.vars id
  next : W.numbered = true → s.body.next = W.next
  names : ∀ m ∈ s.methods, m.name ∈ W.names ∨ ∃ k < s.lambdas, m.name = lambdaName k
  ok : W.Ok

/-- A state that comes after another one. -/
structure Later (s s' : State) : Prop where
  pool : s.pool.Le s'.pool
  lambdas : s.lambdas ≤ s'.lambdas
  size : s.methods.size ≤ s'.methods.size
  old : ∀ i < s.methods.size, s'.methods[i]? = s.methods[i]?
  new : s'.pool.error = none → ∀ i m, s.methods.size ≤ i → s'.methods[i]? = some m →
    m.Verified s'.pool

theorem verified_mono {p q : Pool} {m : Method} (h : m.Verified p) (hpq : p.Le q) :
    m.Verified q := by
  obtain ⟨args, result, is, F, hd, hf⟩ := h
  refine ⟨args, result, is, F, hd, { hf with step := fun o i hi => ?_, counts := fun o i count hi => ?_ }⟩
  · obtain ⟨size, after, hdec, hstep, hnext⟩ := hf.step o i hi
    exact ⟨size, after, hdec, Instr.step?_mono hpq hstep, hnext⟩
  · obtain ⟨m, args, res, hm, hrest⟩ := hf.counts o i count hi
    exact ⟨m, args, res, hpq.member? hm, hrest⟩

namespace Later

variable {s s' s'' : State}

theorem refl (s : State) : Later s s :=
  ⟨.refl _, Nat.le_refl _, Nat.le_refl _, fun _ _ => rfl, fun _ i m hi hm => by
    have := (Array.getElem?_eq_some_iff.mp hm).1
    omega⟩

theorem trans (h : Later s s') (h' : Later s' s'') : Later s s'' where
  pool := h.pool.trans h'.pool
  lambdas := Nat.le_trans h.lambdas h'.lambdas
  size := Nat.le_trans h.size h'.size
  old i hi := by rw [h'.old i (Nat.lt_of_lt_of_le hi h.size), h.old i hi]
  new he i m hi hm := by
    by_cases hlt : i < s'.methods.size
    · rw [h'.old i hlt] at hm
      exact verified_mono (h.new (h'.pool.error he) i m hi hm) h'.pool
    · exact h'.new he i m (by omega) hm

/-- No methods were added. -/
theorem of_pool (h : s.pool.Le s'.pool) (hm : s'.methods = s.methods)
    (hl : s.lambdas ≤ s'.lambdas) : Later s s' := by
  refine ⟨h, hl, Nat.le_of_eq (by rw [hm]), fun i _ => by rw [hm], fun _ i m hi hmem => ?_⟩
  rw [hm] at hmem
  have := (Array.getElem?_eq_some_iff.mp hmem).1
  omega

end Later

/-- From good states, the steps fail for a limit only, and lead to good states. -/
def Writes {α : Type} (env : Env) (W : World) (x : Emit α) (Q : α → World → Prop) : Prop :=
  ∀ s, Good W s → Ends x env s (fun d => d.code = .formatLimit) fun a s' =>
    Later s s' ∧ ∃ W', Good W' s' ∧ Q a W'

section Rules

variable {α β : Type} {env : Env} {W W' : World} {Q R : α → World → Prop}

theorem writes_pure {a : α} (h : Q a W) : Writes env W (pure a) Q :=
  fun s hs => ⟨.refl s, W, hs, h⟩

theorem writes_bind {x : Emit α} {f : α → Emit β} {R : β → World → Prop}
    (h : Writes env W x Q) (hf : ∀ a W', Q a W' → Writes env W' (f a) R) :
    Writes env W (x >>= f) R := by
  intro s hs
  rw [ends_bind]
  refine (h s hs).mono fun a s' ⟨hlater, W', hgood, hq⟩ => ?_
  refine (hf a W' hq s' hgood).mono fun b s'' ⟨hlater', hrest⟩ => ?_
  exact ⟨hlater.trans hlater', hrest⟩

theorem Writes.mono {x : Emit α} (h : Writes env W x Q) (hq : ∀ a W', Q a W' → R a W') :
    Writes env W x R := by
  intro s hs
  refine (h s hs).mono fun a s' ⟨hlater, W', hgood, hQ⟩ => ?_
  exact ⟨hlater, W', hgood, hq a W' hQ⟩

theorem Writes.weaken {x : Emit α} (h : Writes env W' x Q) (hg : ∀ s, Good W s → Good W' s) :
    Writes env W x Q := fun s hs => h s (hg s hs)

theorem writes_read_bind {f : Env → Emit α} (h : Writes env W (f env) Q) :
    Writes env W (read >>= f) Q := fun s hs => h s hs

theorem writes_withReader {x : Emit α} {f : Env → Env} (h : Writes (f env) W x Q) :
    Writes env W (withReader f x) Q := fun s hs => h s hs

/-- A step on the instructions. -/
theorem writes_onCode {f : ClassFile.Code → ClassFile.Code} {Q : Unit → World → Prop} (W' : World)
    (hf : ∀ p c, c.Flows p W.entry W.result W.toFlow →
      (f c).Flows p W'.entry W'.result W'.toFlow)
    (hsame : W'.vars = W.vars ∧ (W'.numbered = W.numbered ∧ W'.next = W.next) ∧ W'.names = W.names)
    (hok : W.Ok → W'.Ok) (hQ : Q () W') : Writes env W (onCode f) Q := by
  intro s hs
  obtain ⟨hvars, ⟨hnum, hnext⟩, hnames⟩ := hsame
  refine ⟨.of_pool (.refl _) rfl (Nat.le_refl _), W', ⟨hs.pool, hf _ _ hs.flows, ?_, ?_, ?_,
    hok hs.ok⟩, hQ⟩
  · rw [hvars]
    exact hs.slots
  · rw [hnum, hnext]
    exact hs.next
  · rw [hnames]
    exact hs.names

/-- A step that may add constants. -/
theorem writes_onPool {f : Pool → ClassFile.Code → Pool × ClassFile.Code}
    {Q : Unit → World → Prop} (W' : World)
    (hf : ∀ p c, Pool.Sound Plain p → c.Flows p W.entry W.result W.toFlow →
      Code.Grows Plain p W'.entry W'.result W'.toFlow (f p c))
    (hsame : W'.vars = W.vars ∧ (W'.numbered = W.numbered ∧ W'.next = W.next) ∧ W'.names = W.names)
    (hok : W.Ok → W'.Ok) (hQ : Q () W') : Writes env W (onPool f) Q := by
  intro s hs
  obtain ⟨hvars, ⟨hnum, hnext⟩, hnames⟩ := hsame
  have hg := hf s.pool s.body.code hs.pool hs.flows
  refine ⟨.of_pool hg.le rfl (Nat.le_refl _), W', ⟨hg.sound, hg.flows, ?_, ?_, ?_, hok hs.ok⟩, hQ⟩
  · rw [hvars]
    exact hs.slots
  · rw [hnum, hnext]
    exact hs.next
  · rw [hnames]
    exact hs.names

/-- The steps lead from one world to another. -/
def Leads (env : Env) (W : World) (x : Emit Unit) (W' : World) : Prop :=
  Writes env W x fun _ w => w = W'

theorem Leads.seq {x : Emit Unit} {f : Unit → Emit β} {R : β → World → Prop}
    (h : Leads env W x W') (hf : Writes env W' (f ()) R) : Writes env W (x >>= f) R :=
  writes_bind h fun _ _ hw => hw ▸ hf

theorem Leads.writes {x : Emit Unit} {Q : Unit → World → Prop} (h : Leads env W x W')
    (hQ : Q () W') : Writes env W x Q :=
  h.mono fun _ _ hw => hw ▸ hQ

end Rules

end Emit
end Kotlet

import Kotlet.Proofs.Sample.Shape
import Kotlet.Proofs.Syntax.BareName
import Kotlet.Proofs.Syntax.Written

/-!
# Drafts of sample programs

What the steps of writing a program do to the functions and variables that are known. Names are
numbered upwards, so a fresh one is that of nothing known.

* `Leads` : what a step leads to;
* `IsNumbered`, `isName_of_isNumbered` : the names that are made, which are no reserved words;
* `Tidy` : a draft in which these functions and variables are known, by names that were made before;
* `Keeps`, `Grows` : steps that declare nothing, and steps that declare something in the innermost
  scope;
* `Makes`, `Declares` : what steps make that declare nothing, and what others make and declare;
* `makes_draw` .. `makes_times`, `leads_fresh` .. `leads_inScope` : choices, names, declarations and scopes.
-/

namespace Kotlet
namespace Sample

open Token (Kind IsSpelling startsWord continuesWord isNumeral)
open Written (IsName)

variable {α β : Type} {d d' d'' : Draft} {F F' : Arities} {S S' : List Var} {n n' : Nat} {name : String}

/-! ## Steps -/

/-- From the draft `d` the step leads to a result and a draft of which `post` holds. -/
def Leads {α : Type} (x : Sample α) (d : Draft) (post : α → Draft → Prop) : Prop :=
  post (x.run d).1 (x.run d).2

@[simp] theorem leads_pure (a : α) {post : α → Draft → Prop} : Leads (pure a) d post ↔ post a d := Iff.rfl

@[simp] theorem leads_bind (x : Sample α) (f : α → Sample β) {post : β → Draft → Prop} :
    Leads (x >>= f) d post ↔ Leads x d fun a d' => Leads (f a) d' post := Iff.rfl

@[simp] theorem leads_get {post : Draft → Draft → Prop} : Leads get d post ↔ post d d := Iff.rfl

@[simp] theorem leads_modify (f : Draft → Draft) {post : PUnit → Draft → Prop} :
    Leads (modify f) d post ↔ post ⟨⟩ (f d) := Iff.rfl

@[simp] theorem leads_modifyGet (f : Draft → α × Draft) {post : α → Draft → Prop} :
    Leads (modifyGet f) d post ↔ post (f d).1 (f d).2 := Iff.rfl

theorem Leads.mono {x : Sample α} {post post' : α → Draft → Prop} (h : Leads x d post)
    (hpost : ∀ a d', post a d' → post' a d') : Leads x d post' := hpost _ _ h

/-! ## Names -/

/-- The letters that names start with. -/
def letters : List Char := ['a', 'f', 'g', 'i', 'p', 'q', 'v', 'w', 'x']

/-- A letter and a number below `n`. -/
def IsNumbered (n : Nat) (name : String) : Prop :=
  ∃ c i, c ∈ letters ∧ i < n ∧ name.toList = c :: Nat.toDigits 10 i

theorem IsNumbered.mono (h : IsNumbered n name) (hn : n ≤ n') : IsNumbered n' name := by
  obtain ⟨c, i, hc, hi, hname⟩ := h
  exact ⟨c, i, hc, Nat.lt_of_lt_of_le hi hn, hname⟩

theorem toDigits_injective : Function.Injective (Nat.toDigits 10) :=
  Function.LeftInverse.injective Token.numeralValue_toDigits

theorem isNumbered_ne {name' : String} {c : Char} (h : IsNumbered n name)
    (h' : name'.toList = c :: Nat.toDigits 10 n) : name ≠ name' := by
  rintro rfl
  obtain ⟨_, i, -, hi, hname⟩ := h
  have hdigits := (List.cons.inj (hname.symm.trans h')).2
  exact absurd (toDigits_injective hdigits) (Nat.ne_of_lt hi)

/-- No reserved word has a digit behind its first letter. -/
theorem kind_ofWord_of_digit {w : String} {d : Char} (h : w.toList[1]? = some d) (hd : isNumeral d = true) :
    Kind.ofWord w = .ident := by
  have htable : ∀ p ∈ Kind.keywords ++ Kind.typeNames, p.1.toList[1]?.any isNumeral = false := by decide
  have hnone : (Kind.keywords ++ Kind.typeNames).lookup w = none := by
    refine List.lookup_eq_none_iff.mpr fun p hp => ?_
    rw [bne_iff_ne]
    rintro rfl
    have hother := htable p hp
    rw [h, Option.any_some, hd] at hother
    cases hother
  rw [Kind.ofWord, hnone]
  rfl

theorem isName_of_isNumbered (h : IsNumbered n name) : IsName name := by
  obtain ⟨c, i, hc, -, hname⟩ := h
  have hletters : letters.all startsWord = true := by decide
  have hstart := List.all_eq_true.mp hletters c hc
  obtain ⟨d, ds, hds⟩ := List.exists_cons_of_ne_nil (Nat.toDigits_ne_nil (n := i) (b := 10))
  have hdigit : ∀ d ∈ Nat.toDigits 10 i, isNumeral d = true := fun d => Token.isNumeral_of_mem_toDigits
  refine ⟨⟨by simp [hname, hstart], fun x hx => ?_⟩, kind_ofWord_of_digit (d := d) ?_ ?_⟩
  · rw [hname] at hx
    rcases List.mem_cons.mp hx with rfl | hx
    · simp [continuesWord, hstart]
    · simp [continuesWord, hdigit x hx]
  · rw [hname, hds]
    rfl
  · exact hdigit d (hds ▸ List.mem_cons_self)

/-- The parameter of a generator is called `k`, like nothing else. -/
theorem ne_of_isNumbered (h : IsNumbered n name) : name ≠ "k" := by
  rintro rfl
  obtain ⟨c, i, -, -, hname⟩ := h
  have hnil : [] = Nat.toDigits 10 i := (List.cons.inj hname).2
  exact Nat.toDigits_ne_nil hnil.symm

/-! ## Drafts -/

/-- These functions and variables are known, and their names were made before. -/
structure Draft.Tidy (d : Draft) (F : Arities) (S : List Var) : Prop where
  functions : d.functions.toList.reverse = F
  vars : d.scopes.flatten = S
  named : ∀ v ∈ S, IsNumbered d.next v.name
  known : ∀ f ∈ F, IsNumbered d.next f.1

/-- Steps that declare nothing. -/
structure Keeps (F : Arities) (S : List Var) (d d' : Draft) : Prop where
  tidy : d'.Tidy F S
  scopes : d'.scopes = d.scopes
  next : d.next ≤ d'.next

/-- Steps after which `S` is known, through declarations in the innermost scope. -/
structure Grows (F : Arities) (S : List Var) (d d' : Draft) : Prop where
  tidy : d'.Tidy F S
  inside : d'.scopes ≠ []
  outer : d'.scopes.tail = d.scopes.tail
  next : d.next ≤ d'.next

theorem Keeps.refl (h : d.Tidy F S) : Keeps F S d d := ⟨h, rfl, Nat.le_refl _⟩

theorem Keeps.trans (h : Keeps F S d d') (h' : Keeps F S d' d'') : Keeps F S d d'' :=
  ⟨h'.tidy, h'.scopes.trans h.scopes, Nat.le_trans h.next h'.next⟩

theorem Keeps.grows (h : Keeps F S d d') (hin : d.scopes ≠ []) : Grows F S d d' :=
  ⟨h.tidy, h.scopes ▸ hin, by rw [h.scopes], h.next⟩

theorem Grows.refl (h : d.Tidy F S) (hin : d.scopes ≠ []) : Grows F S d d := (Keeps.refl h).grows hin

theorem Grows.trans (h : Grows F S d d') (h' : Grows F' S' d' d'') : Grows F' S' d d'' :=
  ⟨h'.tidy, h'.inside, h'.outer.trans h.outer, Nat.le_trans h.next h'.next⟩

/-- No name that is known needs a number that is not below the next one. -/
theorem Draft.Tidy.fresh (h : d.Tidy F S) {c : Char} (hname : name.toList = c :: Nat.toDigits 10 d.next) :
    IsFresh F S name :=
  ⟨fun v hv => isNumbered_ne (h.named v hv) hname, fun f hf => isNumbered_ne (h.known f hf) hname⟩

theorem Draft.Tidy.fresh_generator (h : d.Tidy F S) : IsFresh F S "k" :=
  ⟨fun v hv => ne_of_isNumbered (h.named v hv), fun f hf => ne_of_isNumbered (h.known f hf)⟩

theorem Draft.Tidy.isName (h : d.Tidy F S) {x : Var} (hx : x ∈ S) : IsName x.name :=
  isName_of_isNumbered (h.named x hx)

/-! ## Steps that declare nothing -/

/-- Wherever these are known, the step makes something of which `P` holds, and declares nothing. -/
def Makes {α : Type} (F : Arities) (S : List Var) (x : Sample α) (P : α → Prop) : Prop :=
  ∀ d : Draft, d.Tidy F S → Leads x d fun a d' => Keeps F S d d' ∧ P a

section Makes

variable {P : α → Prop} {Q : β → Prop} {x : Sample α} {f : α → Sample β}

theorem Makes.pure {a : α} (h : P a) : Makes F S (pure a) P := fun _ hd => ⟨.refl hd, h⟩

theorem Makes.bind (h : Makes F S x P) (hf : ∀ a, P a → Makes F S (f a) Q) : Makes F S (x >>= f) Q := by
  intro d hd
  rw [leads_bind]
  refine (h d hd).mono ?_
  rintro a d₁ ⟨hk, ha⟩
  refine (hf a ha d₁ hk.tidy).mono ?_
  rintro b d₂ ⟨hk', hb⟩
  exact ⟨hk.trans hk', hb⟩

theorem Makes.mono {P' : α → Prop} (h : Makes F S x P) (hP : ∀ a, P a → P' a) : Makes F S x P' :=
  fun d hd => (h d hd).mono fun a _ ha => ⟨ha.1, hP a ha.2⟩

theorem makes_functions : Makes F S get fun d => d.functions.toList.reverse = F ∧ ∀ f ∈ F, IsName f.1 :=
  fun _ hd => ⟨.refl hd, hd.functions, fun f hf => isName_of_isNumbered (hd.known f hf)⟩

theorem makes_draw (n : Nat) : Makes F S (draw n) fun i => 0 < n → i < n := by
  intro d h
  unfold draw
  rw [leads_modifyGet]
  cases d.data with
  | nil => exact ⟨.refl h, id⟩
  | cons b rest =>
    by_cases hn : n = 0
    · simp only [hn, if_true]
      exact ⟨.refl h, id⟩
    · simp only [hn, if_false]
      exact ⟨⟨⟨h.functions, h.vars, h.named, h.known⟩, rfl, Nat.le_refl _⟩, Nat.mod_lt _⟩

theorem makes_oneOf {options : List String} (hne : options ≠ []) :
    Makes F S (oneOf options) fun s => s ∈ options := by
  unfold oneOf
  refine (makes_draw options.length).bind fun i hi => .pure ?_
  have hlt := hi (List.length_pos_iff.mpr hne)
  rw [List.getD_eq_getElem?_getD, List.getElem?_eq_getElem hlt]
  exact List.getElem_mem hlt

theorem makes_visible (kind : Kind) (writable : Bool) : Makes F S (visible kind writable) fun names =>
    ∀ v ∈ names, IsName v ∧ ∃ w, ⟨v, kind, w⟩ ∈ S ∧ (writable = true → w = true) := by
  intro d h
  unfold visible
  rw [leads_bind, leads_get, leads_pure]
  refine ⟨.refl h, fun v hv => ?_⟩
  obtain ⟨⟨_, kind', w⟩, hx, rfl⟩ := List.mem_map.mp hv
  simp only [List.mem_filter, List.mem_reverse, Bool.decide_and, Bool.and_eq_true,
    decide_eq_true_eq, Bool.or_eq_true, Bool.not_eq_true'] at hx
  obtain ⟨hx, rfl, hw⟩ := hx
  rw [h.vars] at hx
  exact ⟨h.isName hx, w, hx, fun hwritable => hw.resolve_left (by simp [hwritable])⟩

theorem makes_pick? (kind : Kind) (writable : Bool) : Makes F S (pick? kind writable) fun o =>
    ∀ v ∈ o, IsName v ∧ ∃ w, ⟨v, kind, w⟩ ∈ S ∧ (writable = true → w = true) := by
  unfold pick?
  refine (makes_visible kind writable).bind fun names hnames => ?_
  split
  · exact .pure nofun
  · rename_i hne
    refine (makes_oneOf hne).bind fun v hv => .pure ?_
    rintro _ ⟨⟩
    exact hnames v hv

/-- Such a step, some times. -/
theorem makes_times (h : Makes F S x P) (n : Nat) :
    Makes F S (times x n) fun as => as.length = n ∧ ∀ a ∈ as, P a := by
  induction n with
  | zero => exact .pure ⟨rfl, nofun⟩
  | succ n ih =>
    unfold times
    refine h.bind fun a ha => ih.bind fun as has => .pure ?_
    exact ⟨congrArg (· + 1) has.1, List.forall_mem_cons.mpr ⟨ha, has.2⟩⟩

end Makes

/-! ## Declarations -/

theorem leads_fresh_text (h : d.Tidy F S) (letter : String) :
    Leads (fresh letter) d fun name d' => Keeps F S d d' ∧ d'.next = d.next + 1 ∧
      name.toList = letter.toList ++ Nat.toDigits 10 d.next := by
  have htext : (letter ++ toString d.next).toList = letter.toList ++ Nat.toDigits 10 d.next := by
    rw [String.toList_append]
    exact congrArg (letter.toList ++ ·) Nat.toList_repr
  exact ⟨⟨⟨h.functions, h.vars, fun v hv => (h.named v hv).mono (Nat.le_succ _),
    fun f hf => (h.known f hf).mono (Nat.le_succ _)⟩, rfl, Nat.le_succ _⟩, rfl, htext⟩

theorem leads_fresh (h : d.Tidy F S) (letter : String) {c : Char} (hletter : letter.toList = [c])
    (hc : c ∈ letters) : Leads (fresh letter) d fun name d' =>
      Keeps F S d d' ∧ IsFresh F S name ∧ IsNumbered d'.next name := by
  refine (leads_fresh_text h letter).mono ?_
  rintro name d' ⟨hk, hnext, hname⟩
  refine ⟨hk, ?_⟩
  rw [hletter, List.singleton_append] at hname
  exact ⟨h.fresh hname, c, d.next, hc, by omega, hname⟩

theorem leads_declare (h : d.Tidy F S) (hin : d.scopes ≠ []) (hname : IsNumbered d.next name) (kind : Kind)
    (writable : Bool) : Leads (declare name kind writable) d fun _ d' =>
      Grows F (⟨name, kind, writable⟩ :: S) d d' := by
  obtain ⟨inner, outer, hscopes⟩ := List.exists_cons_of_ne_nil hin
  have hvars : inner ++ outer.flatten = S := by
    rw [← h.vars, hscopes, List.flatten_cons]
  unfold declare
  rw [leads_modify, hscopes]
  refine ⟨⟨h.functions, by simp [hvars], ?_, h.known⟩, List.cons_ne_nil _ _, by rw [hscopes]; rfl, Nat.le_refl _⟩
  exact List.forall_mem_cons.mpr ⟨hname, h.named⟩

/-- Wherever these are known, the step makes something of which `Q` holds together with what is known
then, through declarations in the innermost scope. -/
def Declares {α : Type} (F : Arities) (S : List Var) (x : Sample α) (Q : α → List Var → Prop) : Prop :=
  ∀ d : Draft, d.Tidy F S → d.scopes ≠ [] → Leads x d fun a d' => ∃ S', Grows F S' d d' ∧ Q a S'

section Declares

variable {P : α → List Var → Prop} {Q : β → List Var → Prop} {x : Sample α} {f : α → Sample β}

theorem Makes.declares {P : α → Prop} (h : Makes F S x P) : Declares F S x fun a S' => S' = S ∧ P a := by
  intro d hd hin
  refine (h d hd).mono ?_
  rintro a d' ⟨hk, ha⟩
  exact ⟨S, hk.grows hin, rfl, ha⟩

theorem Declares.mono {P' : α → List Var → Prop} (h : Declares F S x P) (hP : ∀ a S', P a S' → P' a S') :
    Declares F S x P' := by
  intro d hd hin
  refine (h d hd hin).mono ?_
  rintro a d' ⟨S', hg, ha⟩
  exact ⟨S', hg, hP a S' ha⟩

theorem Declares.pure {a : α} (hd : P a S) : Declares F S (pure a) P :=
  fun _ h hin => ⟨S, .refl h hin, hd⟩

theorem Declares.bind (h : Declares F S x P) (hf : ∀ a S', P a S' → Declares F S' (f a) Q) :
    Declares F S (x >>= f) Q := by
  intro d hd hin
  rw [leads_bind]
  refine (h d hd hin).mono ?_
  rintro a d₁ ⟨S₁, hg, ha⟩
  refine (hf a S₁ ha d₁ hg.tidy hg.inside).mono ?_
  rintro b d₂ ⟨S₂, hg', hb⟩
  exact ⟨S₂, hg.trans hg', hb⟩

/-- A step that declares nothing comes first. -/
theorem Makes.bindDeclares {P : α → Prop} (h : Makes F S x P) (hf : ∀ a, P a → Declares F S (f a) Q) :
    Declares F S (x >>= f) Q := by
  refine h.declares.bind ?_
  rintro a _ ⟨rfl, ha⟩
  exact hf a ha

/-- A fresh name that is declared at once. -/
theorem declares_fresh (letter : String) {c : Char} (hletter : letter.toList = [c]) (hc : c ∈ letters)
    {kind : Kind} {writable : Bool} {rest : String → Sample β}
    (hrest : ∀ name, IsName name → IsFresh F S name → Declares F (⟨name, kind, writable⟩ :: S) (rest name) Q) :
    Declares F S (do let name ← fresh letter; declare name kind writable; rest name) Q := by
  intro d hd hin
  rw [leads_bind]
  refine (leads_fresh hd letter hletter hc).mono ?_
  rintro name d₁ ⟨hk, hfresh, hnumbered⟩
  rw [leads_bind]
  refine (leads_declare hk.tidy (hk.scopes ▸ hin) hnumbered kind writable).mono ?_
  rintro _ d₂ hg
  refine (hrest name (isName_of_isNumbered hnumbered) hfresh d₂ hg.tidy hg.inside).mono ?_
  rintro b d₃ ⟨S', hg', hb⟩
  exact ⟨S', ((hk.grows hin).trans hg).trans hg', hb⟩

end Declares

/-- What is declared in a scope of its own is forgotten afterwards. -/
theorem leads_inScope (h : d.Tidy F S) {body : Sample α} {P : α → Prop}
    (hbody : ∀ d₁ : Draft, d₁.Tidy F S → d₁.scopes ≠ [] → d₁.next = d.next →
      Leads body d₁ fun a d' => ∃ S', Grows F S' d₁ d' ∧ P a) :
    Leads (inScope body) d fun a d' => Keeps F S d d' ∧ P a := by
  unfold inScope
  simp only [leads_bind, leads_modify, leads_pure]
  have htidy : Draft.Tidy { d with scopes := [] :: d.scopes } F S := ⟨h.functions, h.vars, h.named, h.known⟩
  refine (hbody _ htidy (List.cons_ne_nil _ _) rfl).mono ?_
  rintro a d' ⟨S', hg, ha⟩
  have hscopes : d'.scopes.tail = d.scopes := hg.outer
  have hnext : d.next ≤ d'.next := hg.next
  exact ⟨⟨⟨hg.tidy.functions, hscopes ▸ h.vars, fun v hv => (h.named v hv).mono hnext, hg.tidy.known⟩, hscopes,
    hnext⟩, ha⟩

theorem makes_inScope {body : Sample α} {P : α → Prop} (h : Declares F S body fun a _ => P a) :
    Makes F S (inScope body) P := fun _ hd => leads_inScope hd fun d₁ hd₁ hin _ => h d₁ hd₁ hin

end Sample
end Kotlet

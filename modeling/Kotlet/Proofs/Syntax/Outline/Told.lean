import Mathlib.Algebra.Group.Nat.Defs
import Std.Data.String.ToInt
import Kotlet.Proofs.Syntax.Outline.Bare
import Kotlet.Proofs.Syntax.Outline.Legible

/-!
# Texts told from each other

Outlines are read from the left: where the same text can begin with the one and with the other, the two
have to agree.

* `Stop`, `Unbroken`, `Ended` : characters at which a word ends, words, and what goes on behind one;
* `Told` : two texts that can begin the same text agree;
* `told_word`, `Told.append`, `told_node`, `told_enclosed` : words, and texts made of others;
* `Ty.told`, `Param.told` : types and parameters;
* `told_quote` : quoted texts.
-/

namespace Kotlet
namespace Outline

open Token (continuesWord startsWord isNumeral IsSpelling)
open Written (IsName)

/-- A character at which a word of an outline ends. -/
abbrev Stop (c : Char) : Prop := c ∈ [' ', ')', ',', '\n']

/-- A character at which the name of a parameter ends. -/
abbrev NameStop (c : Char) : Prop := Stop c ∨ c = ':'

/-- A text without stops. -/
def Unbroken (cs : List Char) : Prop := ∀ c ∈ cs, ¬ Stop c

instance (cs : List Char) : Decidable (Unbroken cs) := List.decidableBAll _ _

/-- Behind a word the text goes on with a stop, if it does. -/
def Ended (stop : Char → Prop) (cs : List Char) : Prop := ∀ c ∈ cs.head?, stop c

/-- Where the same text begins with `x` and with `y`, `Q` holds and the rest is the same. -/
def Told (stop : Char → Prop) (x y : List Char) (Q : Prop) : Prop :=
  ∀ r s, Ended stop r → Ended stop s → x ++ r = y ++ s → Q ∧ r = s

section

variable {stop : Char → Prop} {x y x' y' r s sep : List Char} {Q R : Prop}

theorem ended_nil : Ended stop [] := nofun

theorem ended_cons {c : Char} : Ended stop (c :: r) ↔ stop c := by simp [Ended]

theorem Ended.append (hx : Ended stop x) (hr : Ended stop r) : Ended stop (x ++ r) := by
  cases x with
  | nil => exact hr
  | cons c x => exact ended_cons.mpr (ended_cons.mp hx)

theorem Told.mono (h : Told stop x y Q) (hQ : Q → R) : Told stop x y R := by
  intro r s hr hs heq
  obtain ⟨hq, hrest⟩ := h r s hr hs heq
  exact ⟨hQ hq, hrest⟩

theorem told_nil : Told stop [] [] True := fun _ _ _ _ h => ⟨trivial, h⟩

theorem Told.append (h : Told stop x y Q) (h' : Told stop x' y' R) (hx : Ended stop x') (hy : Ended stop y') :
    Told stop (x ++ x') (y ++ y') (Q ∧ R) := by
  intro r s hr hs heq
  simp only [List.append_assoc] at heq
  obtain ⟨hq, hrest⟩ := h _ _ (hx.append hr) (hy.append hs) heq
  obtain ⟨hr', hend⟩ := h' r s hr hs hrest
  exact ⟨⟨hq, hr'⟩, hend⟩

theorem Told.behind (h : Told stop x y Q) (p : List Char) : Told stop (p ++ x) (p ++ y) Q := by
  intro r s hr hs heq
  simp only [List.append_assoc, List.append_cancel_left_eq] at heq
  exact h r s hr hs heq

theorem told_of_ne {c d : Char} (h : c ≠ d) : Told stop (c :: x) (d :: y) Q := by
  intro r s _ _ heq
  exact absurd (List.cons.inj heq).1 h

/-! ## Words -/

theorem told_word (hx : ∀ c ∈ x, ¬ stop c) (hy : ∀ c ∈ y, ¬ stop c) : Told stop x y (x = y) := by
  induction x generalizing y with
  | nil =>
    intro r s hr _ heq
    cases y with
    | nil => exact ⟨rfl, heq⟩
    | cons d y =>
      obtain rfl : r = d :: (y ++ s) := heq
      exact absurd (ended_cons.mp hr) (hy d List.mem_cons_self)
  | cons c x ih =>
    intro r s hr hs heq
    cases y with
    | nil =>
      obtain rfl : c :: (x ++ r) = s := heq
      exact absurd (ended_cons.mp hs) (hx c List.mem_cons_self)
    | cons d y =>
      obtain ⟨rfl, htail⟩ := List.cons.inj heq
      obtain ⟨rfl, hrest⟩ := ih (fun e he => hx e (List.mem_cons_of_mem _ he))
        (fun e he => hy e (List.mem_cons_of_mem _ he)) r s hr hs htail
      exact ⟨rfl, hrest⟩

/-- The word that a text begins with. -/
def Opens (stop : Char → Prop) (w x : List Char) : Prop :=
  ∃ t, x = w ++ t ∧ (∀ c ∈ w, ¬ stop c) ∧ Ended stop t

/-- Only texts that begin with the same word have to be told from each other. -/
theorem Told.of_opens {w v : List Char} (hx : Opens stop w x) (hy : Opens stop v y)
    (h : w = v → Told stop x y Q) : Told stop x y Q := by
  obtain ⟨t, rfl, hw, ht⟩ := hx
  obtain ⟨u, rfl, hv, hu⟩ := hy
  intro r s hr hs heq
  have hopen := told_word hw hv _ _ (ht.append hr) (hu.append hs) (by simpa using heq)
  exact h hopen.1 r s hr hs heq

end

/-! ## Lists -/

/-- Texts with something before each of them, and a parenthesis behind them. -/
def closed (sep : List Char) (xs : List (List Char)) : List Char := xs.flatMap (sep ++ ·) ++ [')']

/-- What may stand before each of several texts: a stop other than the parenthesis behind them. -/
def Separates (sep : List Char) : Prop := ∃ c cs, sep = c :: cs ∧ Stop c ∧ c ≠ ')'

theorem separates_blank : Separates [' '] := ⟨' ', [], rfl, by decide, by decide⟩

theorem separates_comma : Separates [',', ' '] := ⟨',', [' '], rfl, by decide, by decide⟩

theorem Separates.ended {sep : List Char} (h : Separates sep) (xs : List (List Char)) : Ended Stop (closed sep xs) := by
  obtain ⟨c, cs, rfl, hc, -⟩ := h
  cases xs with
  | nil => exact ended_cons.mpr (by decide)
  | cons x xs => exact ended_cons.mpr hc

section

variable {x y sep : List Char} {xs ys : List (List Char)} {Q R : Prop}

theorem told_closed_nil : Told Stop (closed sep []) (closed sep []) True := told_nil.behind [')']

theorem Told.item (hsep : Separates sep) (h : Told Stop x y Q) (hs : Told Stop (closed sep xs) (closed sep ys) R) :
    Told Stop (closed sep (x :: xs)) (closed sep (y :: ys)) (Q ∧ R) := by
  have hitems := (h.append hs (hsep.ended xs) (hsep.ended ys)).behind sep
  simpa [closed] using hitems

theorem told_nil_cons (hsep : Separates sep) : Told Stop (closed sep []) (closed sep (y :: ys)) Q := by
  obtain ⟨c, cs, rfl, -, hne⟩ := hsep
  exact told_of_ne hne.symm

theorem told_cons_nil (hsep : Separates sep) : Told Stop (closed sep (x :: xs)) (closed sep []) Q := by
  obtain ⟨c, cs, rfl, -, hne⟩ := hsep
  exact told_of_ne hne

/-- Lists are told from each other if their items are. -/
theorem told_map {α β : Type} {f : α → List Char} {g : α → β} (hsep : Separates sep) :
    ∀ as bs : List α, (∀ a ∈ as, ∀ b ∈ bs, Told Stop (f a) (f b) (g a = g b)) →
      Told Stop (closed sep (as.map f)) (closed sep (bs.map f)) (as.map g = bs.map g)
  | [], [], _ => told_closed_nil.mono fun _ => rfl
  | [], _ :: _, _ => told_nil_cons hsep
  | _ :: _, [], _ => told_cons_nil hsep
  | a :: as, b :: bs, h => by
    have hfirst := h a List.mem_cons_self b List.mem_cons_self
    have hrest := told_map hsep as bs fun c hc d hd =>
      h c (List.mem_cons_of_mem _ hc) d (List.mem_cons_of_mem _ hd)
    refine (hfirst.item hsep hrest).mono ?_
    rintro ⟨hab, hall⟩
    rw [List.map_cons, List.map_cons, hab, hall]

theorem intercalate_cons (sep x : List Char) (xs : List (List Char)) : sep.intercalate (x :: xs) = x ++ xs.flatMap (sep ++ ·) := by
  induction xs generalizing x with
  | nil => simp
  | cons x' xs ih => simp [List.intercalate_cons_cons, ih]

/-- Texts with something between them, in parentheses. -/
def enclosed (sep : List Char) (xs : List (List Char)) : List Char := '(' :: (sep.intercalate xs ++ [')'])

theorem enclosed_cons : enclosed sep (x :: xs) = '(' :: (x ++ closed sep xs) := by
  rw [enclosed, intercalate_cons, closed, List.append_assoc]

/-- The text does not begin with a stop. -/
def Starts (x : List Char) : Prop := ∃ c cs, x = c :: cs ∧ ¬ Stop c

theorem starts_of_ne_nil (hne : x ≠ []) (hx : Unbroken x) : Starts x := by
  obtain ⟨c, cs, rfl⟩ := List.exists_cons_of_ne_nil hne
  exact ⟨c, cs, rfl, hx c List.mem_cons_self⟩

theorem told_enclosed {α β : Type} {f : α → List Char} {g : α → β} (hsep : Separates sep) {as bs : List α}
    (h : ∀ a ∈ as, ∀ b ∈ bs, Told Stop (f a) (f b) (g a = g b)) (has : ∀ a ∈ as, Starts (f a))
    (hbs : ∀ b ∈ bs, Starts (f b)) :
    Told Stop (enclosed sep (as.map f)) (enclosed sep (bs.map f)) (as.map g = bs.map g) := by
  cases as with
  | nil =>
    cases bs with
    | nil => exact (told_nil.behind ['(', ')']).mono fun _ => rfl
    | cons b bs =>
      obtain ⟨c, cs, hb, hc⟩ := hbs b List.mem_cons_self
      rw [List.map_cons, enclosed_cons, hb]
      refine Told.behind (told_of_ne ?_) ['(']
      rintro rfl
      exact hc (by decide)
  | cons a as =>
    obtain ⟨c, cs, ha, hc⟩ := has a List.mem_cons_self
    cases bs with
    | nil =>
      rw [List.map_cons, enclosed_cons, ha]
      refine Told.behind (told_of_ne ?_) ['(']
      rintro rfl
      exact hc (by decide)
    | cons b bs =>
      have hfirst := h a List.mem_cons_self b List.mem_cons_self
      have hrest := told_map hsep as bs fun c hc d hd =>
        h c (List.mem_cons_of_mem _ hc) d (List.mem_cons_of_mem _ hd)
      rw [List.map_cons, List.map_cons, enclosed_cons, enclosed_cons]
      refine ((hfirst.append hrest (hsep.ended _) (hsep.ended _)).behind ['(']).mono ?_
      rintro ⟨hab, hall⟩
      rw [List.map_cons, List.map_cons, hab, hall]

/-! ## Nodes -/

/-- A node: its head and its parts. -/
def node (head : List Char) (parts : List (List Char)) : List Char := '(' :: (head ++ closed [' '] parts)

theorem toList_outlineNode (head : String) (parts : List String) :
    (outlineNode head parts).toList = node head.toList (parts.map String.toList) := by
  have hjoin := intercalate_cons [' '] head.toList (parts.map String.toList)
  simp only [outlineNode, String.toList_append, String.toList_intercalate, List.map_cons]
  rw [show " ".toList = [' '] from rfl, hjoin]
  simp [node, closed]

theorem opens_node {head : List Char} (hhead : Unbroken head) (parts : List (List Char)) :
    Opens Stop ('(' :: head) (node head parts) :=
  ⟨closed [' '] parts, rfl, List.forall_mem_cons.mpr ⟨by decide, hhead⟩, separates_blank.ended parts⟩

theorem told_node {head head' : List Char} (hhead : Unbroken head) (hhead' : Unbroken head')
    (h : Told Stop (closed [' '] xs) (closed [' '] ys) Q) :
    Told Stop (node head xs) (node head' ys) (head = head' ∧ Q) :=
  ((told_word hhead hhead').append h (separates_blank.ended xs) (separates_blank.ended ys)).behind ['(']

end

/-! ## Types -/

/-- The types that are written as one word. -/
def wordTypes : List Ty :=
  [Scalar.int, .boolean, .string, .unit, .any, .unknown].flatMap fun s => [.scalar s, .array s, .list s]

theorem mem_wordTypes {t : Ty} (h : ∀ ps r, t ≠ .fn ps r) : t ∈ wordTypes := by
  cases t with
  | scalar s | array s | list s => cases s <;> simp [wordTypes]
  | fn ps r => exact absurd rfl (h ps r)

theorem unbroken_of_wordTypes : ∀ t ∈ wordTypes, Unbroken t.text.toList := by decide

theorem head_of_wordTypes :
    ∀ t ∈ wordTypes, t.text.toList.head?.any (fun c => ¬ Stop c ∧ c ≠ '(' ∧ c ≠ '_') = true := by
  decide

theorem starts_of_wordTypes {t : Ty} (h : t ∈ wordTypes) :
    ∃ c cs, t.text.toList = c :: cs ∧ ¬ Stop c ∧ c ≠ '(' ∧ c ≠ '_' := by
  obtain ⟨c, hc, hne⟩ := (Option.any_eq_true _ _).mp (head_of_wordTypes t h)
  obtain ⟨cs, hcs⟩ := List.head?_eq_some_iff.mp hc
  exact ⟨c, cs, hcs, of_decide_eq_true hne⟩

theorem wordTypes_inj : ∀ t ∈ wordTypes, ∀ u ∈ wordTypes, t.text.toList = u.text.toList → t = u := by decide

theorem told_wordTypes {t u : Ty} (ht : t ∈ wordTypes) (hu : u ∈ wordTypes) :
    Told Stop t.text.toList u.text.toList (t = u) :=
  (told_word (unbroken_of_wordTypes t ht) (unbroken_of_wordTypes u hu)).mono (wordTypes_inj t ht u hu)

theorem texts_eq_map (ts : List Ty) : Ty.texts ts = ts.map Ty.text := by
  induction ts with
  | nil => rfl
  | cons t ts ih => rw [Ty.texts, ih, List.map_cons]

theorem toList_text_fn (ps : List Ty) (r : Ty) : (Ty.fn ps (some r)).text.toList =
    enclosed [',', ' '] (ps.map fun t => t.text.toList) ++ ([' ', '-', '>', ' '] ++ r.text.toList) := by
  simp [Ty.text, Ty.textOrUnit, texts_eq_map, String.toList_append, String.toList_intercalate, enclosed, Function.comp_def]

/-- A type does not look like a missing one. -/
theorem type_head (t : Ty) (h : t.Complete) : ∃ c cs, t.text.toList = c :: cs ∧ ¬ Stop c ∧ c ≠ '_' := by
  by_cases hfn : ∀ ps r, t ≠ .fn ps r
  · obtain ⟨c, cs, hcs, hstop, -, hne⟩ := starts_of_wordTypes (mem_wordTypes hfn)
    exact ⟨c, cs, hcs, hstop, hne⟩
  · push Not at hfn
    obtain ⟨ps, r, rfl⟩ := hfn
    cases r with
    | none => exact h.2.elim
    | some r => exact ⟨'(', _, by rw [toList_text_fn]; rfl, by decide, by decide⟩

theorem starts_type (t : Ty) (h : t.Complete) : Starts t.text.toList := by
  obtain ⟨c, cs, hcs, hstop, -⟩ := type_head t h
  exact ⟨c, cs, hcs, hstop⟩

theorem told_word_fn {t r : Ty} {ps : List Ty} (ht : t ∈ wordTypes) :
    Told Stop t.text.toList (Ty.fn ps (some r)).text.toList (t = .fn ps (some r)) ∧
      Told Stop (Ty.fn ps (some r)).text.toList t.text.toList (.fn ps (some r) = t) := by
  obtain ⟨c, cs, hcs, -, hne, -⟩ := starts_of_wordTypes ht
  rw [toList_text_fn, hcs]
  exact ⟨told_of_ne hne, told_of_ne hne.symm⟩

theorem told_other {t : Ty} (ht : ∀ ps r, t ≠ .fn ps r) (u : Ty) (hu : u.Complete) :
    Told Stop t.text.toList u.text.toList (t = u) := by
  by_cases hfn : ∀ qs r', u ≠ .fn qs r'
  · exact told_wordTypes (mem_wordTypes ht) (mem_wordTypes hfn)
  · push Not at hfn
    obtain ⟨qs, r', rfl⟩ := hfn
    cases r' with
    | none => exact hu.2.elim
    | some r' => exact (told_word_fn (mem_wordTypes ht)).1

mutual

/-- Types that can be written are told from each other. -/
theorem told_type : ∀ t : Ty, t.Complete → ∀ u : Ty, u.Complete → Told Stop t.text.toList u.text.toList (t = u)
  | .fn ps (some r), ht, u, hu => by
    by_cases hfn : ∀ qs r', u ≠ .fn qs r'
    · exact (told_word_fn (mem_wordTypes hfn)).2
    · push Not at hfn
      obtain ⟨qs, r', rfl⟩ := hfn
      obtain ⟨hqs, hr'⟩ := hu
      cases r' with
      | none => exact hr'.elim
      | some r' =>
        have hall := Ty.allComplete_iff.mp ht.1
        have hall' := Ty.allComplete_iff.mp hqs
        have hparams : Told Stop (enclosed [',', ' '] (ps.map fun t => t.text.toList))
            (enclosed [',', ' '] (qs.map fun t => t.text.toList)) (ps.map id = qs.map id) :=
          told_enclosed separates_comma (fun a ha b hb => told_types ps ht.1 a ha b (hall' b hb))
            (fun a ha => starts_type a (hall a ha)) fun b hb => starts_type b (hall' b hb)
        have hresult := (told_type r ht.2 r' hr').behind [' ', '-', '>', ' ']
        rw [toList_text_fn, toList_text_fn]
        refine (hparams.append hresult (ended_cons.mpr (by decide)) (ended_cons.mpr (by decide))).mono ?_
        rintro ⟨hps, rfl⟩
        rw [List.map_id, List.map_id] at hps
        rw [hps]
  | .fn _ none, ht, _, _ => ht.2.elim
  | .scalar s, ht, u, hu => told_other (by simp) u hu
  | .array s, ht, u, hu => told_other (by simp) u hu
  | .list s, ht, u, hu => told_other (by simp) u hu

theorem told_types : ∀ ts : List Ty, Ty.AllComplete ts → ∀ t ∈ ts, ∀ u : Ty, u.Complete →
    Told Stop t.text.toList u.text.toList (t = u)
  | [], _, _, ht, _, _ => nomatch ht
  | t :: ts, h, t', ht', u, hu => by
    rcases List.mem_cons.mp ht' with heq | ht'
    · rw [heq]
      exact told_type t h.1 u hu
    · exact told_types ts h.2 t' ht' u hu

end

/-! ## Names and parameters -/

theorem not_nameStop {c : Char} (h : continuesWord c = true) : ¬ NameStop c := by
  rintro (hc | rfl)
  · revert h
    simp only [Stop, List.mem_cons, List.not_mem_nil, or_false] at hc
    rcases hc with rfl | rfl | rfl | rfl <;> decide
  · exact absurd h (by decide)

theorem told_name {x y : String} (hx : IsName x) (hy : IsName y) : Told NameStop x.toList y.toList (x = y) := by
  refine (told_word (fun c hc => not_nameStop (hx.1.2 c hc)) fun c hc => not_nameStop (hy.1.2 c hc)).mono ?_
  exact String.toList_inj.mp

theorem unbroken_name {x : String} (hx : IsName x) : Unbroken x.toList :=
  fun c hc hstop => not_nameStop (hx.1.2 c hc) (.inl hstop)

theorem starts_name {x : String} (hx : IsName x) : Starts x.toList := by
  refine starts_of_ne_nil ?_ (unbroken_name hx)
  intro hnil
  have hstart := hx.1.1
  rw [hnil] at hstart
  cases hstart

/-- How a type is written behind the name of a parameter. -/
def typeSuffix : Option Ty → List Char
  | none => []
  | some t => ':' :: t.text.toList

theorem toList_paramOutline (p : Param) : p.outline.toList = p.name.name.toList ++ typeSuffix p.ty := by
  unfold Param.outline
  split <;> rename_i h <;> simp [h, typeSuffix, String.toList_append]

theorem told_typeSuffix {a b : Option Ty} (ha : ∀ t, a = some t → t.Complete) (hb : ∀ t, b = some t → t.Complete) :
    Told Stop (typeSuffix a) (typeSuffix b) (a = b) := by
  have hcolon {t : List Char} {r s : List Char} (hr : Ended Stop r) (heq : r = ':' :: t ++ s) : False := by
    subst heq
    exact absurd (ended_cons.mp hr) (by decide)
  intro r s hr hs heq
  cases a with
  | none =>
    cases b with
    | none => exact ⟨rfl, heq⟩
    | some u => exact (hcolon hr heq).elim
  | some t =>
    cases b with
    | none => exact (hcolon hs heq.symm).elim
    | some u =>
      obtain ⟨rfl, hrest⟩ := ((told_type t (ha t rfl) u (hb u rfl)).behind [':']) r s hr hs heq
      exact ⟨rfl, hrest⟩

theorem ended_typeSuffix (a : Option Ty) : Ended NameStop (typeSuffix a) := by
  cases a with
  | none => exact ended_nil
  | some t => exact ended_cons.mpr (.inr rfl)

theorem Ended.name {r : List Char} (h : Ended Stop r) : Ended NameStop r := fun c hc => .inl (h c hc)

theorem told_param {p q : Param} (hp : p.Legible) (hq : q.Legible) :
    Told Stop p.outline.toList q.outline.toList (p.bare = q.bare) := by
  intro r s hr hs heq
  rw [toList_paramOutline, toList_paramOutline, List.append_assoc, List.append_assoc] at heq
  obtain ⟨hname, hrest⟩ := told_name hp.1 hq.1 _ _ ((ended_typeSuffix _).append hr.name)
    ((ended_typeSuffix _).append hs.name) heq
  obtain ⟨hty, hend⟩ := told_typeSuffix hp.2 hq.2 r s hr hs hrest
  refine ⟨?_, hend⟩
  rw [Param.bare, Param.bare, Ident.bare, Ident.bare, hname, hty]

theorem toList_outlineParams (ps : List Param) :
    (outlineParams ps).toList = enclosed [' '] (ps.map fun p => p.outline.toList) := by
  simp [outlineParams, enclosed, String.toList_append, String.toList_intercalate, Function.comp_def]

theorem told_params {ps qs : List Param} (hps : ∀ p ∈ ps, p.Legible) (hqs : ∀ q ∈ qs, q.Legible) :
    Told Stop (outlineParams ps).toList (outlineParams qs).toList (ps.map Param.bare = qs.map Param.bare) := by
  have hstarts {p : Param} (hp : p.Legible) : Starts p.outline.toList := by
    obtain ⟨c, cs, hcs, hc⟩ := starts_name hp.1
    exact ⟨c, cs ++ typeSuffix p.ty, by rw [toList_paramOutline, hcs, List.cons_append], hc⟩
  rw [toList_outlineParams, toList_outlineParams]
  exact told_enclosed separates_blank (fun p hp q hq => told_param (hps p hp) (hqs q hq))
    (fun p hp => hstarts (hps p hp)) fun q hq => hstarts (hqs q hq)

/-! ## Numbers -/

theorem unbroken_integer (n : Int) : Unbroken (toString n).toList := by
  have hdigit {c : Char} (h : c ∈ Nat.toDigits 10 n.natAbs) : ¬ Stop c := fun hc =>
    not_nameStop (by simp [continuesWord, Token.isNumeral_of_mem_toDigits h]) (.inl hc)
  intro c hc
  rw [Token.toList_toString] at hc
  split at hc
  · rcases List.mem_cons.mp hc with rfl | hc
    · decide
    · exact hdigit hc
  · exact hdigit hc

theorem toString_int_inj {m n : Int} (h : (toString m).toList = (toString n).toList) : m = n :=
  Int.repr_injective (String.toList_inj.mp h)

/-! ## Quoted texts -/

/-- What a letter behind a backslash stands for. -/
def letterOf? (l : Char) : Option Char :=
  match l with
  | '"' => some '"'
  | '\\' => some '\\'
  | 'a' => some '\x07'
  | 'b' => some '\x08'
  | 'f' => some '\x0c'
  | 'n' => some '\n'
  | 'r' => some '\r'
  | 't' => some '\t'
  | 'v' => some '\x0b'
  | _ => none

/-- How many digits go with a letter behind a backslash. -/
def digitsOf? (l : Char) : Option Nat :=
  match l with
  | 'x' => some 2
  | 'u' => some 4
  | 'U' => some 8
  | _ => none

/-- How a character stands in a quoted text. -/
inductive Escaped (c : Char) : List Char → Prop where
  | plain (hslash : c ≠ '\\') (hquote : c ≠ '"') : Escaped c [c]
  | letter {l : Char} (h : letterOf? l = some c) : Escaped c ['\\', l]
  | digits {l : Char} {width : Nat} (h : digitsOf? l = some width) (hc : c.toNat < 16 ^ width) :
    Escaped c ('\\' :: l :: hexPaddedChars width c.toNat)

theorem letterOf?_controlLetter? {c l : Char} (h : controlLetter? c = some l) : letterOf? l = some c := by
  unfold controlLetter? at h
  split at h <;> rename_i hc <;> cases h <;> rw [← Char.ofNat_toNat c, hc] <;> rfl

theorem escaped_escapeWithin (c : Char) : Escaped c (escapeWithin '"' c).toList := by
  unfold escapeWithin
  split
  · rename_i h
    rw [String.toList_ofList]
    rcases h with rfl | rfl
    · exact .letter rfl
    · exact .letter rfl
  · rename_i h
    push Not at h
    split
    · rw [String.toList_singleton]
      exact .plain h.2 h.1
    · split
      · rename_i l hl
        rw [String.toList_ofList]
        exact .letter (letterOf?_controlLetter? hl)
      · have hlt : c.toNat < 16 ^ 8 := c.val.toNat_lt
        have hx : c.toNat < 0x20 ∨ c.toNat = 0x7f → c.toNat < 16 ^ 2 := by omega
        have htext (l : Char) (width : Nat) : (String.ofList ['\\', l] ++ hexPadded width c.toNat).toList =
            '\\' :: l :: hexPaddedChars width c.toNat := by
          simp [hexPadded, String.toList_append]
        split
        · rename_i hsmall
          exact htext 'x' 2 ▸ .digits rfl (hx hsmall)
        · split
          · rename_i hsmall
            exact htext 'u' 4 ▸ .digits rfl hsmall
          · exact htext 'U' 8 ▸ .digits rfl hlt

theorem hexDigit_inj : ∀ m < 16, ∀ n < 16, hexDigit m = hexDigit n → m = n := by decide

theorem hexPaddedChars_inj (width : Nat) {m n : Nat} {r s : List Char}
    (h : hexPaddedChars width m ++ r = hexPaddedChars width n ++ s) : m % 16 ^ width = n % 16 ^ width ∧ r = s := by
  induction width with
  | zero => exact ⟨by simp [Nat.mod_one], h⟩
  | succ width ih =>
    obtain ⟨hdigit, htail⟩ := List.cons.inj h
    obtain ⟨hrest, rfl⟩ := ih htail
    have hfirst := hexDigit_inj _ (Nat.mod_lt _ (by decide)) _ (Nat.mod_lt _ (by decide)) hdigit
    rw [Nat.shiftRight_eq_div_pow, Nat.shiftRight_eq_div_pow, Nat.pow_mul] at hfirst
    refine ⟨?_, rfl⟩
    rw [Nat.mod_pow_succ, Nat.mod_pow_succ, hrest]
    exact congrArg (fun d => n % 16 ^ width + 16 ^ width * d) hfirst

theorem letterOf?_of_digitsOf? {l : Char} {width : Nat} (h : digitsOf? l = some width) : letterOf? l = none := by
  unfold digitsOf? at h
  split at h <;> first | rfl | cases h

/-- No character is written as the beginning of another. -/
theorem Escaped.unique {c d : Char} {x y r s : List Char} (hc : Escaped c x) (hd : Escaped d y)
    (heq : x ++ r = y ++ s) : c = d ∧ r = s := by
  cases hc with
  | plain hslash =>
    cases hd with
    | plain => exact List.cons.inj heq
    | letter | digits => exact absurd (List.cons.inj heq).1 hslash
  | letter hl =>
    cases hd with
    | plain hslash => exact absurd (List.cons.inj heq).1.symm hslash
    | letter hl' =>
      obtain ⟨rfl, hrest⟩ := List.cons.inj (List.cons.inj heq).2
      exact ⟨Option.some.inj (hl.symm.trans hl'), hrest⟩
    | digits hw =>
      obtain ⟨rfl, -⟩ := List.cons.inj (List.cons.inj heq).2
      rw [letterOf?_of_digitsOf? hw] at hl
      cases hl
  | digits hw hlt =>
    cases hd with
    | plain hslash => exact absurd (List.cons.inj heq).1.symm hslash
    | letter hl =>
      obtain ⟨rfl, -⟩ := List.cons.inj (List.cons.inj heq).2
      rw [letterOf?_of_digitsOf? hw] at hl
      cases hl
    | digits hw' hlt' =>
      obtain ⟨rfl, htail⟩ := List.cons.inj (List.cons.inj heq).2
      cases Option.some.inj (hw.symm.trans hw')
      obtain ⟨hn, hrest⟩ := hexPaddedChars_inj _ htail
      rw [Nat.mod_eq_of_lt hlt, Nat.mod_eq_of_lt hlt'] at hn
      exact ⟨Char.toNat_inj.mp hn, hrest⟩

/-- No character is written with a quote in front. -/
theorem Escaped.head {c : Char} {x : List Char} (h : Escaped c x) : ∃ d cs, x = d :: cs ∧ d ≠ '"' := by
  cases h with
  | plain hslash hquote => exact ⟨c, [], rfl, hquote⟩
  | letter | digits => exact ⟨'\\', _, rfl, by decide⟩

theorem toList_quote (text : String) :
    (quote text).toList = '"' :: (text.toList.flatMap (fun c => (escapeWithin '"' c).toList) ++ ['"']) := by
  have hfold (cs : List Char) (acc : String) :
      ((cs.map Glyph.char).foldl (fun s g => s ++ escapeGlyph g) acc).toList =
        acc.toList ++ cs.flatMap fun c => (escapeWithin '"' c).toList := by
    induction cs generalizing acc with
    | nil => simp
    | cons c cs ih => rw [List.map_cons, List.foldl_cons, ih]; simp [escapeGlyph]
  simp [quote, quoteText, Text.ofString, Text.ofChars, hfold]

theorem told_quote {stop : Char → Prop} (x y : String) : Told stop (quote x).toList (quote y).toList (x = y) := by
  intro r s _ _ heq
  rw [toList_quote, toList_quote] at heq
  have htail := (List.cons.inj heq).2
  suffices ∀ cs ds : List Char, cs.flatMap (fun c => (escapeWithin '"' c).toList) ++ ['"'] ++ r =
      ds.flatMap (fun c => (escapeWithin '"' c).toList) ++ ['"'] ++ s → cs = ds ∧ r = s by
    obtain ⟨hxy, hrest⟩ := this _ _ htail
    exact ⟨String.toList_inj.mp hxy, hrest⟩
  intro cs
  induction cs with
  | nil =>
    intro ds h
    cases ds with
    | nil => exact ⟨rfl, (List.cons.inj h).2⟩
    | cons d ds =>
      obtain ⟨e, es, hes, hne⟩ := (escaped_escapeWithin d).head
      rw [List.flatMap_cons, hes] at h
      exact absurd (List.cons.inj h).1.symm hne
  | cons c cs ih =>
    intro ds h
    cases ds with
    | nil =>
      obtain ⟨e, es, hes, hne⟩ := (escaped_escapeWithin c).head
      rw [List.flatMap_cons, hes] at h
      exact absurd (List.cons.inj h).1 hne
    | cons d ds =>
      simp only [List.flatMap_cons, List.append_assoc] at h ih
      obtain ⟨rfl, hrest⟩ := (escaped_escapeWithin c).unique (escaped_escapeWithin d) h
      obtain ⟨rfl, hend⟩ := ih ds hrest
      exact ⟨rfl, hend⟩

end Outline
end Kotlet

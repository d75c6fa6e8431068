import Mathlib.Data.List.Induction
import Kotlet.Proofs.Typing.FreeVariables
import Kotlet.Proofs.Typing.LexicalCheck

/-!
# Lambdas capture their free variables

* `Typing.noteUses` : what some uses do to the captures of the lambdas around;
* `Typing.collect` : what they do to those of one lambda;
* `Typing.Gathered` : what the checker makes of a piece: which uses it noted and which lambdas it finished;
* `Typing.Gathers` : the checker's steps on expressions;
* `Typing.Finishes` : its steps on statements, around which there are no lambdas;
* `Program.check_captures` : whole programs.
-/

namespace Kotlet

namespace Typing

/-! ## Captures of one lambda and of several -/

/-- Adds what a name means to the captures of the lambdas between its declaration and its use. -/
def noteUse (depth : Nat) (captures : List (List Symbol)) (sym : Symbol) : List (List Symbol) :=
  if sym.isFunction then captures else addCaptures sym (depth - sym.depth) captures

/-- Adds what some names mean, one after the other. -/
def noteUses (depth : Nat) (captures : List (List Symbol)) (syms : List Symbol) : List (List Symbol) :=
  syms.foldl (noteUse depth) captures

/-- Whether a symbol comes from outside a lambda that stands at a depth. -/
def isOuter (depth : Nat) (sym : Symbol) : Bool := !sym.isFunction && decide (sym.depth ≤ depth)

/-- Adds what comes from outside to the captures of one lambda that stands at a depth. -/
def collect (depth : Nat) (captures syms : List Symbol) : List Symbol :=
  syms.foldl (fun captures sym => if isOuter depth sym then addCapture sym captures else captures) captures

theorem noteUse_cons (depth : Nat) (cs : List Symbol) (rest : List (List Symbol)) (sym : Symbol) :
    noteUse (depth + 1) (cs :: rest) sym =
      (if isOuter depth sym then addCapture sym cs else cs) :: noteUse depth rest sym := by
  unfold noteUse isOuter
  cases sym.isFunction with
  | true => rfl
  | false =>
    by_cases h : sym.depth ≤ depth
    · rw [Nat.sub_add_comm h]
      simp [h, addCaptures]
    · rw [Nat.sub_eq_zero_of_le (Nat.lt_of_not_le h), Nat.sub_eq_zero_of_le (Nat.le_of_not_le h)]
      simp [h, addCaptures]

/-- The innermost lambda collects for itself, and the others go on as if it were not there. -/
theorem noteUses_cons (depth : Nat) (cs : List Symbol) (rest : List (List Symbol)) (syms : List Symbol) :
    noteUses (depth + 1) (cs :: rest) syms = collect depth cs syms :: noteUses depth rest syms := by
  induction syms generalizing cs rest with
  | nil => rfl
  | cons sym syms ih =>
    unfold noteUses collect at ih ⊢
    rw [List.foldl_cons, noteUse_cons, ih]
    rfl

theorem noteUses_nil (depth : Nat) (syms : List Symbol) : noteUses depth [] syms = [] := by
  have hstep (sym : Symbol) : noteUse depth [] sym = [] := by
    unfold noteUse
    cases sym.isFunction <;> simp [addCaptures]
  induction syms with
  | nil => rfl
  | cons sym syms ih =>
    unfold noteUses at ih ⊢
    rw [List.foldl_cons, hstep, ih]

theorem noteUses_append (depth : Nat) (captures : List (List Symbol)) (xs ys : List Symbol) :
    noteUses depth captures (xs ++ ys) = noteUses depth (noteUses depth captures xs) ys :=
  List.foldl_append

/-- What one lambda collects: every symbol from outside once, by first uses, the latest one first. The
symbols are told apart by their identities. -/
structure Collected (depth : Nat) (syms captures : List Symbol) : Prop where
  nodup : (captures.map Symbol.id).Nodup
  mem_iff : ∀ sym, sym ∈ captures ↔ sym ∈ syms ∧ isOuter depth sym = true
  ordered : captures.reverse.Pairwise fun a b => syms.idxOf a < syms.idxOf b

theorem Collected.snoc {depth : Nat} {syms captures : List Symbol} {sym : Symbol}
    (h : Collected depth syms captures) (hinj : ∀ c ∈ syms, c.id = sym.id → c = sym) :
    Collected depth (syms ++ [sym])
      (if isOuter depth sym then addCapture sym captures else captures) := by
  have hidx {a : Symbol} (ha : a ∈ captures) : (syms ++ [sym]).idxOf a = syms.idxOf a :=
    List.idxOf_append_of_mem ((h.mem_iff a).mp ha).1
  have hkept : captures.reverse.Pairwise fun a b => (syms ++ [sym]).idxOf a < (syms ++ [sym]).idxOf b :=
    h.ordered.imp_of_mem fun ha hb hab => by
      rwa [hidx (List.mem_reverse.mp ha), hidx (List.mem_reverse.mp hb)]
  have hmem (a : Symbol) (hsym : isOuter depth sym = true → a = sym → sym ∈ captures) :
      a ∈ captures ↔ a ∈ syms ++ [sym] ∧ isOuter depth a = true := by
    rw [h.mem_iff, List.mem_append, List.mem_singleton]
    constructor
    · exact fun ⟨ha, hout⟩ => ⟨.inl ha, hout⟩
    · rintro ⟨ha | rfl, hout⟩
      · exact ⟨ha, hout⟩
      · exact (h.mem_iff a).mp (hsym hout rfl)
  by_cases hout : isOuter depth sym = true
  · rw [if_pos hout]
    unfold addCapture
    by_cases hold : sym ∈ captures
    · have hany : captures.any (fun c => c.id == sym.id) = true :=
        List.any_eq_true.mpr ⟨sym, hold, by simp⟩
      rw [if_pos hany]
      exact ⟨h.nodup, fun a => hmem a fun _ _ => hold, hkept⟩
    · have hnew : ∀ c ∈ captures, c.id ≠ sym.id := fun c hc heq =>
        hold (hinj c ((h.mem_iff c).mp hc).1 heq ▸ hc)
      have hany : ¬ captures.any (fun c => c.id == sym.id) = true := by simpa using hnew
      rw [if_neg hany]
      have hfresh : sym ∉ syms := fun hs => hold ((h.mem_iff sym).mpr ⟨hs, hout⟩)
      refine ⟨List.nodup_cons.mpr ⟨by simpa using hnew, h.nodup⟩, fun a => ?_, ?_⟩
      · rw [List.mem_cons, h.mem_iff, List.mem_append, List.mem_singleton]
        constructor
        · rintro (rfl | ⟨ha, hout⟩)
          · exact ⟨.inr rfl, hout⟩
          · exact ⟨.inl ha, hout⟩
        · rintro ⟨ha | rfl, hout⟩
          · exact .inr ⟨ha, hout⟩
          · exact .inl rfl
      · rw [List.reverse_cons, List.pairwise_append]
        refine ⟨hkept, List.pairwise_singleton _ _, fun a ha b hb => ?_⟩
        have ha := List.mem_reverse.mp ha
        rw [List.mem_singleton.mp hb, hidx ha, List.idxOf_append_of_notMem hfresh]
        exact Nat.lt_of_lt_of_le (List.idxOf_lt_length_of_mem ((h.mem_iff a).mp ha).1)
          (Nat.le_add_right _ _)
  · rw [if_neg hout]
    exact ⟨h.nodup, fun a => hmem a fun hyes _ => absurd hyes hout, hkept⟩

theorem collected (depth : Nat) (syms : List Symbol) (hinj : ∀ a ∈ syms, ∀ b ∈ syms, a.id = b.id → a = b) :
    Collected depth syms (collect depth [] syms) := by
  induction syms using List.reverseRecOn with
  | nil => exact ⟨List.nodup_nil, fun _ => ⟨fun h => absurd h List.not_mem_nil, fun h => h.1⟩, List.Pairwise.nil⟩
  | append_singleton syms sym ih =>
    unfold collect at ih ⊢
    rw [List.foldl_append]
    refine (ih fun a ha b hb => ?_).snoc fun c hc => ?_
    · exact hinj a (List.mem_append_left _ ha) b (List.mem_append_left _ hb)
    · exact hinj c (List.mem_append_left _ hc) sym (List.mem_append_right _ (List.mem_singleton_self sym))

/-! ## Pieces that were checked -/

/-- A lambda that was checked at a depth: it collected what it uses from outside. -/
structure Finished (depth : Nat) (l : Lambda) : Prop where
  resolved : ∀ id ∈ (l.occurrences []).map Occurrence.id, id.sym.isSome = true
  captures : l.captures = (collect depth [] l.uses).reverse
  known : ∀ sym ∈ l.uses, sym.depth ≤ depth ∨ sym ∈ l.owns
  deeper : ∀ sym ∈ l.owns, depth < sym.depth

/-- The lambdas of a piece after it was checked. They stand where they stood before. -/
structure AllFinished (ls ls' : List Lambda) : Prop where
  finished : ∀ l ∈ ls', ∃ depth, Finished depth l
  places : ls'.map Lambda.tok = ls.map Lambda.tok

/-- What checking a piece at a depth comes to. The lambdas around note what the piece uses, which is in
scope or declared inside. -/
structure Gathered (depth : Nat) (scope : List Symbol) (before after : List (List Symbol))
    (os : List Occurrence) (ds : List Ident) (ls ls' : List Lambda) : Prop where
  resolved : ∀ id ∈ os.map Occurrence.id, id.sym.isSome = true
  noted : after = noteUses depth before (meanings os)
  known : ∀ sym ∈ meanings os, sym ∈ scope ∨ sym ∈ ds.filterMap Ident.sym
  deeper : ∀ sym ∈ ds.filterMap Ident.sym, depth < sym.depth
  lambdas : AllFinished ls ls'

section Gathered

variable {depth : Nat} {scope : List Symbol} {before mid after : List (List Symbol)}
  {os us : List Occurrence} {ds es : List Ident} {ls ls' ks ks' : List Lambda}

theorem AllFinished.nil : AllFinished [] [] := ⟨fun _ hl => absurd hl List.not_mem_nil, rfl⟩

theorem AllFinished.append (h : AllFinished ls ls') (h' : AllFinished ks ks') :
    AllFinished (ls ++ ks) (ls' ++ ks') :=
  ⟨fun l hl => (List.mem_append.mp hl).elim (h.finished l) (h'.finished l),
    by rw [List.map_append, List.map_append, h.places, h'.places]⟩

theorem Gathered.nil : Gathered depth scope before before [] [] [] [] :=
  ⟨by simp, rfl, by simp [meanings], by simp, .nil⟩

theorem Gathered.append (h : Gathered depth scope before mid os ds ls ls')
    (h' : Gathered depth scope mid after us es ks ks') :
    Gathered depth scope before after (os ++ us) (ds ++ es) (ls ++ ks) (ls' ++ ks') where
  resolved id hid := by
    rw [List.map_append, List.mem_append] at hid
    exact hid.elim (h.resolved id) (h'.resolved id)
  noted := by rw [h'.noted, h.noted, meanings_append, noteUses_append]
  known sym hsym := by
    rw [meanings_append, List.mem_append] at hsym
    rw [List.filterMap_append, List.mem_append]
    rcases hsym with hsym | hsym
    · exact (h.known sym hsym).imp_right .inl
    · exact (h'.known sym hsym).imp_right .inr
  deeper sym hsym := by
    rw [List.filterMap_append, List.mem_append] at hsym
    exact hsym.elim (h.deeper sym) (h'.deeper sym)
  lambdas := h.lambdas.append h'.lambdas

/-- One more name that is used. -/
theorem Gathered.cons {id : Ident} {view : List Ident} {sym : Symbol} (hid : id.sym = some sym)
    (hsym : sym ∈ scope) (h : Gathered depth scope (noteUse depth before sym) after os ds ls ls') :
    Gathered depth scope before after (⟨id, view⟩ :: os) ds ls ls' where
  resolved x hx := by
    rcases List.mem_cons.mp hx with rfl | hx
    · exact Option.isSome_of_eq_some hid
    · exact h.resolved x hx
  noted := by
    rw [h.noted, meanings_cons hid]
    rfl
  known x hx := by
    rw [meanings_cons hid] at hx
    rcases List.mem_cons.mp hx with rfl | hx
    · exact .inl hsym
    · exact h.known x hx
  deeper := h.deeper
  lambdas := h.lambdas

/-- A lambda is finished when its body is. The lambdas around it note what the body uses, too. -/
theorem Gathered.lambda {m m' : Mark} {ps ps' : List Param} {body body' : Expr} {caps : List Symbol}
    {scope' : List Symbol} (view : List Ident) (htok : m'.tok = m.tok)
    (hscope : ∀ sym ∈ scope, sym.depth ≤ depth)
    (hscope' : ∀ sym ∈ scope', sym ∈ scope ∨ sym ∈ (paramNames ps').filterMap Ident.sym)
    (hps : ∀ sym ∈ (paramNames ps').filterMap Ident.sym, sym.depth = depth + 1)
    (h : Gathered (depth + 1) scope' ([] :: before) after
      (body'.occurrences ((paramNames ps').reverse ++ view)) body'.declarations body.lambdas
      body'.lambdas) :
    Gathered depth scope before after.tail
      (Lambda.occurrences view (.mk m' ps' body' (after.headD []).reverse))
      (Lambda.declarations (.mk m' ps' body' (after.headD []).reverse))
      (Lambda.lambdas (.mk m ps body caps))
      (Lambda.lambdas (.mk m' ps' body' (after.headD []).reverse)) := by
  have hafter := h.noted
  rw [noteUses_cons] at hafter
  subst hafter
  have hdeeper : ∀ sym ∈ (paramNames ps' ++ body'.declarations).filterMap Ident.sym, depth < sym.depth := by
    intro sym hsym
    rw [List.filterMap_append, List.mem_append] at hsym
    rcases hsym with hsym | hsym
    · exact hps sym hsym ▸ Nat.lt_succ_self depth
    · exact Nat.lt_of_succ_lt (h.deeper sym hsym)
  have hknown : ∀ sym ∈ meanings (body'.occurrences ((paramNames ps').reverse ++ view)),
      sym ∈ scope ∨ sym ∈ (paramNames ps' ++ body'.declarations).filterMap Ident.sym := by
    intro sym hsym
    rw [List.filterMap_append, List.mem_append]
    rcases h.known sym hsym with hsym | hsym
    · exact (hscope' sym hsym).imp_right .inl
    · exact .inr (.inr hsym)
  refine ⟨h.resolved, rfl, hknown, hdeeper, fun l hl => ?_, ?_⟩
  · rcases List.mem_cons.mp hl with rfl | hl
    · refine ⟨depth, ?_, ?_, fun sym hsym => ?_, hdeeper⟩
      · rw [Lambda.ids_view [] view]
        exact h.resolved
      · rw [Lambda.uses_eq _ view]
        rfl
      · rw [Lambda.uses_eq _ view] at hsym
        exact (hknown sym hsym).imp_left (hscope sym)
    · exact h.lambdas.finished l hl
  · exact congrArg₂ List.cons htok h.lambdas.places

end Gathered

/-! ## Steps on expressions -/

/-- Where some symbols are in scope and the lambdas around have some captures, the steps leave the scopes
as they are and end in a result and in captures of which `P` holds. -/
def Gathers {α : Type} (env : Env) (scope : List Symbol) (before : List (List Symbol)) (x : Check α)
    (P : α → List (List Symbol) → Prop) : Prop :=
  ∀ s, s.scopes.symbols = scope → s.captures = before →
    Ends x env s (fun _ => True) fun a s' => s'.scopes = s.scopes ∧ P a s'.captures

section Gathers

variable {α β : Type} {env : Env} {scope : List Symbol} {before : List (List Symbol)} {x : Check α}
  {P : α → List (List Symbol) → Prop} {Q : β → List (List Symbol) → Prop}

theorem Gathers.pure {a : α} (h : P a before) : Gathers env scope before (pure a) P :=
  fun _ _ hc => ⟨rfl, hc ▸ h⟩

theorem Gathers.bind {f : α → Check β} (h : Gathers env scope before x P)
    (hf : ∀ a mid, P a mid → Gathers env scope mid (f a) Q) : Gathers env scope before (x >>= f) Q := by
  intro s hs hc
  rw [ends_bind]
  refine (h s hs hc).mono fun a s' ⟨hscopes, ha⟩ => ?_
  refine (hf a s'.captures ha s' (hscopes ▸ hs) rfl).mono fun b s'' ⟨hscopes', hb⟩ => ?_
  exact ⟨hscopes'.trans hscopes, hb⟩

theorem gathers_reject {e : TypeError} {t : Token} :
    Gathers env scope before (reject e t : Check α) P := fun _ _ _ => trivial

theorem Gathers.ite {c : Prop} [Decidable c] {y : Check α} (hx : c → Gathers env scope before x P)
    (hy : ¬ c → Gathers env scope before y P) : Gathers env scope before (if c then x else y) P := by
  by_cases h : c
  · rw [if_pos h]; exact hx h
  · rw [if_neg h]; exact hy h

/-- A check that must be passed to go on. -/
theorem Gathers.unless {c : Prop} [Decidable c] {e : TypeError} {t : Token} {f : Unit → Check α}
    (h : ¬ c → Gathers env scope before (f ()) P) :
    Gathers env scope before (if c then reject e t >>= f else f ()) P :=
  Gathers.ite (fun _ => (gathers_reject (P := fun _ _ => False)).bind fun _ _ h => h.elim) h

theorem gathers_get : Gathers env scope before (get : Check State) fun _ after => after = before :=
  fun _ _ hc => ⟨rfl, hc⟩

theorem gathers_read : Gathers env scope before (read : Check Env) fun r after => after = before ∧ r = env :=
  fun _ _ hc => ⟨rfl, hc, rfl⟩

theorem gathers_requireValue {e : Expr} {t : Ty} :
    Gathers env scope before (requireValue e t) fun _ after => after = before :=
  Gathers.ite (fun _ => gathers_reject) fun _ => .pure rfl

theorem gathers_requireType {what : String} {want found : Ty} {e : Expr} :
    Gathers env scope before (requireType what want e found) fun _ after => after = before :=
  Gathers.ite (fun _ => .pure rfl) fun _ => gathers_reject

/-- What a name means is in scope, and the use is noted. -/
theorem gathers_resolve? (name : String) :
    Gathers env scope before (resolve? name) fun o after =>
      ∀ sym, o = some sym → sym ∈ scope ∧ after = noteUse env.depth before sym := by
  intro s hs hc
  unfold resolve?
  rw [ends_bind, ends_read, ends_bind, ends_get]
  cases hfind : s.scopes.find? name with
  | none =>
    simp only [ends_pure]
    exact ⟨trivial, fun sym h => absurd h (Option.some_ne_none sym).symm⟩
  | some sym =>
    have hmem : sym ∈ s.scopes.symbols := Scopes.mem_symbols_of_find? hfind
    rw [hs] at hmem
    cases hf : sym.isFunction with
    | true =>
      simp only [hf, Bool.not_true, Bool.false_eq_true, if_false, ends_pure]
      refine ⟨trivial, ?_⟩
      rintro _ ⟨⟩
      exact ⟨hmem, by rw [noteUse, if_pos hf, hc]⟩
    | false =>
      simp only [hf, Bool.not_false, if_true, ends_bind, ends_modify, ends_pure]
      refine ⟨trivial, ?_⟩
      rintro _ ⟨⟩
      exact ⟨hmem, by simp [noteUse, hf, hc]⟩

theorem gathers_checkRead (id : Ident) :
    Gathers env scope before id.checkRead fun p after => ∃ sym ∈ scope, p.1.sym = some sym ∧
      after = noteUse env.depth before sym := by
  refine (gathers_resolve? id.name).bind fun o after h => ?_
  cases o with
  | none => exact gathers_reject
  | some sym => exact .pure ⟨sym, (h sym rfl).1, rfl, (h sym rfl).2⟩

theorem gathers_isCaptured (sym : Symbol) :
    Gathers env scope before (isCaptured sym) fun _ after => after = before := by
  intro s _ hc
  simp [isCaptured, hc]

theorem gathers_checkWritable (id : Ident) (first : Bool) :
    Gathers env scope before (id.checkWritable first) fun sym after => sym ∈ scope ∧
      after = noteUse env.depth before sym := by
  refine (gathers_resolve? id.name).bind fun o after h => ?_
  cases o with
  | none => exact gathers_reject
  | some sym =>
    obtain ⟨hmem, rfl⟩ := h sym rfl
    refine gathers_get.bind fun s mid hm => hm ▸ ?_
    refine Gathers.ite (fun _ => gathers_reject) fun _ => ?_
    refine Gathers.ite (fun _ => gathers_reject) fun _ => ?_
    refine (gathers_isCaptured sym).bind fun b mid hm => hm ▸ ?_
    refine Gathers.ite (fun _ => gathers_reject) fun _ => ?_
    refine Gathers.ite (fun _ => gathers_reject) fun _ => ?_
    refine gathers_read.bind fun _ mid hm => hm.1 ▸ ?_
    exact Gathers.ite (fun _ => gathers_reject) fun _ => .pure ⟨hmem, rfl⟩

theorem gathers_lambdaParamTypes : ∀ (ps : List Param) (wanted : List (Option Ty)),
    Gathers env scope before (lambdaParamTypes ps wanted) fun types after =>
      after = before ∧ types.length = ps.length
  | [], _ => .pure ⟨rfl, rfl⟩
  | p :: ps, wanted => by
    have hrest (ty : Ty) : Gathers env scope before (do
        if ty = .unit then reject (.unitParameter p.name.name) p.name.tok
        return ty :: (← lambdaParamTypes ps wanted.tail)) fun types after =>
          after = before ∧ types.length = (p :: ps).length := by
      refine Gathers.unless fun _ => (gathers_lambdaParamTypes ps wanted.tail).bind fun types n h => ?_
      exact .pure ⟨h.1, congrArg (· + 1) h.2⟩
    unfold lambdaParamTypes
    extract_lets rest
    cases p.ty with
    | some t => exact hrest t
    | none =>
      cases wanted.head?.join with
      | none => exact (gathers_reject (P := fun _ _ => False)).bind fun _ _ h => h.elim
      | some t => exact hrest t

/-- Parameters come into scope, declared at the depth of their routine or lambda. -/
theorem gathers_declareParams (env : Env) (ps : List Param) (types : List Ty) (s : State)
    (hlen : types.length = ps.length) :
    Ends (declareParams ps types) env s (fun _ => True) fun ps' s' => s'.captures = s.captures ∧
      (∀ sym ∈ s'.scopes.symbols, sym ∈ s.scopes.symbols ∨ sym ∈ (paramNames ps').filterMap Ident.sym) ∧
        ∀ sym ∈ (paramNames ps').filterMap Ident.sym, sym.depth = env.depth := by
  induction ps generalizing types s with
  | nil =>
    unfold declareParams
    exact ⟨rfl, fun _ h => .inl h, fun _ h => absurd h List.not_mem_nil⟩
  | cons p ps ih =>
    obtain ⟨t, types, rfl⟩ := List.exists_cons_of_length_eq_add_one hlen
    unfold declareParams declare
    simp only [ends_bind, ends_read, ends_get, ends_set, ends_pure]
    refine (ih types _ (Nat.succ.inj hlen)).mono ?_
    rintro ps' s' ⟨hcaptures, hscopes, hdepth⟩
    refine ⟨hcaptures, fun sym hsym => ?_, fun sym hsym => ?_⟩
    · rcases hscopes sym hsym with hsym | hsym
      · rw [Scopes.symbols_define] at hsym
        rcases List.mem_cons.mp hsym with rfl | hsym
        · exact .inr (by simp [paramNames])
        · exact .inl hsym
      · exact .inr (List.mem_cons_of_mem _ hsym)
    · rcases List.mem_cons.mp hsym with rfl | hsym
      · rfl
      · exact hdepth sym hsym

/-- The body of a lambda, with its parameters in scope. -/
theorem gathers_inLambda {m : Mark} {ps : List Param} {types : List Ty} {e : Expr}
    {body : Check (Expr × Ty)} (view : List Ident) (hscope : ∀ sym ∈ scope, sym.depth ≤ env.depth)
    (hlen : types.length = ps.length)
    (hbody : ∀ {scope' before'} (view' : List Ident), (∀ sym ∈ scope', sym.depth ≤ env.depth + 1) →
      Gathers (env.inside m) scope' before' body fun p after =>
        Gathered (env.depth + 1) scope' before' after (p.1.occurrences view') p.1.declarations e.lambdas
          p.1.lambdas) :
    Gathers env scope before
      (inLambda m do
        let ps ← declareParams ps types
        let (body, found) ← body
        return (ps, body, found))
      fun r after => ∀ (m' : Mark) (caps : List Symbol), m'.tok = m.tok →
        Gathered env.depth scope before after
          (Lambda.occurrences view (.mk m' r.1.1 r.1.2.1 r.2))
          (Lambda.declarations (.mk m' r.1.1 r.1.2.1 r.2)) (Lambda.lambdas (.mk m ps e caps))
          (Lambda.lambdas (.mk m' r.1.1 r.1.2.1 r.2)) := by
  intro s hs hc
  unfold inLambda inScope
  simp only [ends_bind, ends_modify, ends_withReader, ends_get, ends_set, ends_pure]
  refine (gathers_declareParams (env.inside m) ps types _ hlen).mono ?_
  rintro ps' s₁ ⟨hcaptures, hsymbols, hdepth⟩
  rw [Scopes.symbols_enter, hs] at hsymbols
  have hscope' : ∀ sym ∈ s₁.scopes.symbols, sym.depth ≤ env.depth + 1 := by
    intro sym hsym
    rcases hsymbols sym hsym with hsym | hsym
    · exact Nat.le_succ_of_le (hscope sym hsym)
    · exact Nat.le_of_eq (hdepth sym hsym)
  refine (hbody ((paramNames ps').reverse ++ view) hscope' s₁ rfl rfl).mono ?_
  rintro ⟨body', found⟩ s₂ ⟨-, hgathered⟩
  rw [hcaptures, hc] at hgathered
  exact ⟨trivial, fun m' caps htok => hgathered.lambda view htok hscope hsymbols hdepth⟩

end Gathers

end Typing

open Typing

mutual

theorem Expr.gathers_check {env : Env} {scope : List Symbol} {before : List (List Symbol)} {w : Option Ty}
    (view : List Ident) (hscope : ∀ sym ∈ scope, sym.depth ≤ env.depth) : (e : Expr) →
    Gathers env scope before (e.check w) fun p after =>
      Gathered env.depth scope before after (p.1.occurrences view) p.1.declarations e.lambdas p.1.lambdas
  | .int m n => .pure .nil
  | .bool m b => .pure .nil
  | .str m text splices => (Splice.gathers_checkList view hscope splices).bind fun _ _ hss => .pure hss
  | .read t => (Target.gathers_check view hscope t).bind fun _ _ ht => .pure ht
  | .arith m op l r => by
    refine (Expr.gathers_check view hscope l).bind fun p mid hl => ?_
    refine (Expr.gathers_check view hscope r).bind fun q after hr => ?_
    exact Gathers.ite (fun _ => .pure (hl.append hr)) fun _ => gathers_reject
  | .compare m op l r => by
    refine (Expr.gathers_check view hscope l).bind fun p mid hl => ?_
    refine (Expr.gathers_check view hscope r).bind fun q after hr => ?_
    exact Gathers.ite (fun _ => .pure (hl.append hr)) fun _ => gathers_reject
  | .logic m op l r => by
    refine (Expr.gathers_check view hscope l).bind fun p mid hl => ?_
    refine (Expr.gathers_check view hscope r).bind fun q after hr => ?_
    exact Gathers.ite (fun _ => .pure (hl.append hr)) fun _ => gathers_reject
  | .not m e =>
    (Expr.gathers_check view hscope e).bind fun _ _ he =>
      Gathers.ite (fun _ => .pure he) fun _ => gathers_reject
  | .incDec e => (IncDec.gathers_check view hscope e).bind fun _ _ he => .pure he
  | .collection m kind es => by
    refine (Expr.gathers_checkElements view hscope es).bind fun p after hes => ?_
    obtain ⟨es', found⟩ := p
    dsimp only
    cases (if wantedElement? kind w = some .any then wantedElement? kind w
        else found.or (wantedElement? kind w)) with
    | none => exact (gathers_reject (P := fun _ _ => False)).bind fun _ _ h => h.elim
    | some s => exact .pure hes
  | .sized m kind size gen => by
    refine (Expr.gathers_check view hscope size).bind fun p mid hsize => ?_
    refine gathers_requireType.bind ?_
    rintro _ _ rfl
    refine Gathers.unless fun _ => (Lambda.gathers_check view hscope gen).bind fun q after hgen => ?_
    obtain ⟨gen', types, result⟩ := q
    dsimp only at hgen ⊢
    refine Gathers.unless fun _ => ?_
    cases result.elementScalar? with
    | none => exact gathers_reject
    | some s => exact .pure (hsize.append hgen)
  | .lambda l => (Lambda.gathers_check view hscope l).bind fun _ _ hl => .pure hl
  | .call c => (Call.gathers_check view hscope c).bind fun _ _ hc => .pure hc
  | .range r => gathers_reject

theorem Expr.gathers_checkElements {env : Env} {scope : List Symbol} {lexeme : String} {any : Bool}
    (view : List Ident) (hscope : ∀ sym ∈ scope, sym.depth ≤ env.depth) :
    {before : List (List Symbol)} → {first : Option Scalar} → (es : List Expr) →
    Gathers env scope before (Expr.checkElements lexeme any first es) fun p after =>
      Gathered env.depth scope before after (Expr.listOccurrences view p.1) (Expr.listDeclarations p.1)
        (Expr.listLambdas es) (Expr.listLambdas p.1)
  | _, _, [] => .pure .nil
  | before, first, e :: es => by
    refine (Expr.gathers_check view hscope e).bind fun p mid he => ?_
    obtain ⟨e', t⟩ := p
    dsimp only at he ⊢
    cases t.elementScalar? with
    | none => exact gathers_reject
    | some s =>
      have hrest (first : Option Scalar) : Gathers env scope mid (do
          let (es, found) ← Expr.checkElements lexeme any first es
          return (e' :: es, found)) fun p after =>
            Gathered env.depth scope before after (Expr.listOccurrences view p.1)
              (Expr.listDeclarations p.1) (Expr.listLambdas (e :: es)) (Expr.listLambdas p.1) :=
        (Expr.gathers_checkElements view hscope es).bind fun q after hes => .pure (he.append hes)
      cases first with
      | none => exact hrest _
      | some f => exact Gathers.unless fun _ => hrest _

theorem Splice.gathers_checkList {env : Env} {scope : List Symbol} (view : List Ident)
    (hscope : ∀ sym ∈ scope, sym.depth ≤ env.depth) :
    {before : List (List Symbol)} → (ss : List Splice) →
    Gathers env scope before (Splice.checkList ss) fun ss' after =>
      Gathered env.depth scope before after (Splice.occurrences view ss') (Splice.declarations ss')
        (Splice.lambdas ss) (Splice.lambdas ss')
  | _, [] => .pure .nil
  | _, .mk offset e :: ss => by
    refine (Expr.gathers_check view hscope e).bind fun p mid he => Gathers.unless fun _ => ?_
    exact (Splice.gathers_checkList view hscope ss).bind fun ss' after hss => .pure (he.append hss)

theorem Target.gathers_check {env : Env} {scope : List Symbol} {before : List (List Symbol)}
    (view : List Ident) (hscope : ∀ sym ∈ scope, sym.depth ≤ env.depth) : (t : Target) →
    Gathers env scope before t.check fun p after =>
      Gathered env.depth scope before after (p.1.occurrences view) p.1.declarations t.lambdas p.1.lambdas
  | .name id => by
    refine (gathers_checkRead id).bind ?_
    rintro ⟨id', t⟩ _ ⟨sym, hsym, hid, rfl⟩
    exact .pure (Gathered.nil.cons hid hsym)
  | .element m base index => by
    refine (gathers_checkRead base).bind ?_
    rintro ⟨base', bt⟩ _ ⟨sym, hsym, hid, rfl⟩
    dsimp only
    cases bt.element? with
    | none => exact gathers_reject
    | some s =>
      refine (Expr.gathers_check view hscope index).bind fun q after hindex => ?_
      refine gathers_requireType.bind ?_
      rintro _ _ rfl
      exact .pure (hindex.cons hid hsym)

theorem Target.gathers_checkInt {env : Env} {scope : List Symbol} {before : List (List Symbol)}
    {op : String} (view : List Ident) (hscope : ∀ sym ∈ scope, sym.depth ≤ env.depth) : (t : Target) →
    Gathers env scope before (t.checkInt op) fun p after =>
      Gathered env.depth scope before after (p.1.occurrences view) p.1.declarations t.lambdas p.1.lambdas
  | .name id => by
    refine (gathers_checkWritable id false).bind ?_
    rintro sym _ ⟨hsym, rfl⟩
    exact Gathers.unless fun _ => .pure (Gathered.nil.cons rfl hsym)
  | .element m base index => by
    refine (gathers_checkRead base).bind ?_
    rintro ⟨base', bt⟩ _ ⟨sym, hsym, hid, rfl⟩
    dsimp only
    cases bt.element? with
    | none => exact gathers_reject
    | some s =>
      refine (Expr.gathers_check view hscope index).bind fun q after hindex => ?_
      refine gathers_requireType.bind ?_
      rintro _ _ rfl
      exact Gathers.unless fun _ => .pure (hindex.cons hid hsym)

theorem IncDec.gathers_check {env : Env} {scope : List Symbol} {before : List (List Symbol)}
    (view : List Ident) (hscope : ∀ sym ∈ scope, sym.depth ≤ env.depth) : (e : IncDec) →
    Gathers env scope before e.check fun p after =>
      Gathered env.depth scope before after (p.1.occurrences view) p.1.declarations e.lambdas p.1.lambdas
  | .mk _ _ _ t => (Target.gathers_checkInt view hscope t).bind fun _ _ ht => .pure ht

theorem Lambda.gathers_check {env : Env} {scope : List Symbol} {before : List (List Symbol)}
    {params : List Ty} {wanted : Option Ty} (view : List Ident)
    (hscope : ∀ sym ∈ scope, sym.depth ≤ env.depth) : (l : Lambda) →
    Gathers env scope before (l.check params wanted) fun p after =>
      Gathered env.depth scope before after (p.1.occurrences view) p.1.declarations l.lambdas p.1.lambdas
  | .mk m ps body caps => by
    refine (gathers_lambdaParamTypes ps _).bind ?_
    rintro types _ ⟨rfl, hlen⟩
    refine (gathers_inLambda view hscope hlen fun view' hscope' =>
      Expr.gathers_check view' hscope' body).bind fun r after hr => ?_
    obtain ⟨⟨ps', body', found⟩, caps'⟩ := r
    dsimp only at hr ⊢
    cases wanted with
    | none => exact .pure (hr _ caps rfl)
    | some want => exact Gathers.unless fun _ => .pure (hr _ caps rfl)

theorem Call.gathers_check {env : Env} {scope : List Symbol} {before : List (List Symbol)}
    (view : List Ident) (hscope : ∀ sym ∈ scope, sym.depth ≤ env.depth) : (c : Call) →
    Gathers env scope before c.check fun p after =>
      Gathered env.depth scope before after (p.1.occurrences view) p.1.declarations c.lambdas p.1.lambdas
  | .mk m callee args => by
    refine (gathers_resolve? callee.name).bind fun o mid h => ?_
    cases o with
    | none => exact gathers_reject
    | some sym =>
      obtain ⟨hsym, rfl⟩ := h sym rfl
      dsimp only
      cases sym.ty with
      | fn params result =>
        refine Gathers.unless fun hlen => ?_
        refine (Expr.gathers_checkArgs view hscope args params (Decidable.not_not.mp hlen)).bind
          fun args' after hargs => ?_
        cases result with
        | none => exact gathers_reject
        | some t => exact .pure (hargs.cons rfl hsym)
      | _ => exact gathers_reject

theorem Expr.gathers_checkArgs {env : Env} {scope : List Symbol} {name : String} (view : List Ident)
    (hscope : ∀ sym ∈ scope, sym.depth ≤ env.depth) : {before : List (List Symbol)} → {number : Nat} →
    (es : List Expr) → (wants : List Ty) → es.length = wants.length →
    Gathers env scope before (Expr.checkArgs name number es wants) fun es' after =>
      Gathered env.depth scope before after (Expr.listOccurrences view es') (Expr.listDeclarations es')
        (Expr.listLambdas es) (Expr.listLambdas es')
  | _, _, [], _, _ => by
    unfold Expr.checkArgs
    exact .pure .nil
  | _, _, e :: es, want :: wants, hlen => by
    refine (Expr.gathers_check view hscope e).bind fun p mid he => ?_
    refine gathers_requireValue.bind ?_
    rintro _ _ rfl
    refine Gathers.unless fun _ => ?_
    refine (Expr.gathers_checkArgs view hscope es wants (Nat.succ.inj hlen)).bind fun es' after hes => ?_
    exact .pure (he.append hes)

end

/-! ## Steps on statements -/

namespace Typing

/-- No lambda is around. -/
structure Outermost (env : Env) : Prop where
  depth : env.depth = 0
  functions : ∀ sym ∈ env.functions.declared, sym.depth = 0

theorem Outermost.inLoop {env : Env} (h : Outermost env) : Outermost { env with loops := env.loops + 1 } :=
  ⟨h.depth, h.functions⟩

/-- No lambda is around, and no parameter of a lambda is in scope. -/
structure Bare (s : State) : Prop where
  captures : s.captures = []
  scopes : ∀ sym ∈ s.scopes.symbols, sym.depth = 0

/-- Outside of all lambdas the steps stay there, and end in a result of which `P` holds. -/
def Finishes {α : Type} (env : Env) (x : Check α) (P : α → Prop) : Prop :=
  ∀ s, Bare s → Ends x env s (fun _ => True) fun a s' => Bare s' ∧ P a

section Finishes

variable {α β : Type} {env : Env} {x : Check α} {P : α → Prop} {Q : β → Prop}

theorem Finishes.pure {a : α} (h : P a) : Finishes env (pure a) P := fun _ hs => ⟨hs, h⟩

theorem Finishes.bind {f : α → Check β} (h : Finishes env x P) (hf : ∀ a, P a → Finishes env (f a) Q) :
    Finishes env (x >>= f) Q := by
  intro s hs
  rw [ends_bind]
  exact (h s hs).mono fun a s' ⟨hs', ha⟩ => hf a ha s' hs'

/-- A step of which the result is no matter. -/
theorem Finishes.then {f : α → Check β} (h : Finishes env x fun _ => True)
    (hf : ∀ a, Finishes env (f a) Q) : Finishes env (x >>= f) Q := h.bind fun a _ => hf a

theorem finishes_reject {e : TypeError} {t : Token} : Finishes env (reject e t : Check α) P :=
  fun _ _ => trivial

theorem Finishes.ite {c : Prop} [Decidable c] {y : Check α} (hx : Finishes env x P)
    (hy : Finishes env y P) : Finishes env (if c then x else y) P := by
  by_cases h : c
  · rwa [if_pos h]
  · rwa [if_neg h]

/-- A check that must be passed to go on. -/
theorem Finishes.unless {c : Prop} [Decidable c] {e : TypeError} {t : Token} {f : Unit → Check α}
    (h : Finishes env (f ()) P) : Finishes env (if c then reject e t >>= f else f ()) P :=
  Finishes.ite ((finishes_reject (P := fun _ => False)).bind fun _ h => h.elim) h

theorem finishes_get : Finishes env (get : Check State) fun _ => True := fun _ hs => ⟨hs, trivial⟩

theorem finishes_read : Finishes env (read : Check Env) fun r => r = env := fun _ hs => ⟨hs, rfl⟩

/-- Which variables have a value is no matter of captures. -/
theorem finishes_noteLate (f : State → List Late) :
    Finishes env (modify fun s => { s with late := f s } : Check PUnit) fun _ => True :=
  fun _ hs => ⟨⟨hs.captures, hs.scopes⟩, trivial⟩

theorem finishes_requireValue {e : Expr} {t : Ty} : Finishes env (requireValue e t) fun _ => True :=
  Finishes.ite finishes_reject (.pure trivial)

theorem finishes_requireType {what : String} {want found : Ty} {e : Expr} :
    Finishes env (requireType what want e found) fun _ => True :=
  Finishes.ite (.pure trivial) finishes_reject

theorem finishes_declare (henv : Outermost env) {name : String} {ty : Ty} {kind : Symbol.Kind}
    {constant initialized : Bool} {site : Site} :
    Finishes env (declare name ty kind constant initialized site) fun _ => True := by
  intro s hs
  unfold declare
  simp only [ends_bind, ends_read, ends_get, ends_set, ends_pure]
  refine ⟨⟨hs.captures, fun sym hsym => ?_⟩, trivial⟩
  rw [Scopes.symbols_define] at hsym
  rcases List.mem_cons.mp hsym with rfl | hsym
  · exact henv.depth
  · exact hs.scopes sym hsym

theorem Finishes.inScope {kind : ScopeKind} (h : Finishes env x P) : Finishes env (inScope kind x) P := by
  intro s hs
  unfold Typing.inScope
  simp only [ends_bind, ends_get, ends_modify, ends_pure]
  have henter : Bare { s with scopes := s.scopes.enter kind } :=
    ⟨hs.captures, by simpa using hs.scopes⟩
  refine (h _ henter).mono ?_
  rintro a s' ⟨hs', ha⟩
  exact ⟨⟨hs'.captures, hs.scopes⟩, ha⟩

theorem Finishes.inLoop (h : Finishes { env with loops := env.loops + 1 } x P) :
    Finishes env (inLoop x) P := fun s hs => h s hs

theorem Finishes.inFunction (henv : Outermost env) {sym : Symbol} {tok : Token} {result : Ty}
    (h : Finishes (env.inFunction sym tok result) x P) : Finishes env (inFunction sym tok result x) P := by
  intro s hs
  unfold Kotlet.inFunction
  simp only [ends_bind, ends_get, ends_read, ends_set, ends_withReader, ends_modify, ends_pure]
  have henter : Bare { s with scopes := ⟨⟨.function, []⟩, [env.functions]⟩, next := 1 } :=
    ⟨hs.captures, by simpa [Scopes.symbols] using henv.functions⟩
  refine (h _ henter).mono ?_
  rintro a s' ⟨hs', ha⟩
  exact ⟨⟨hs'.captures, hs.scopes⟩, ha⟩

theorem finishes_declareParams (henv : Outermost env) {ps : List Param} {types : List Ty}
    (hlen : types.length = ps.length) : Finishes env (declareParams ps types) fun _ => True := by
  intro s hs
  refine (gathers_declareParams env ps types s hlen).mono ?_
  rintro ps' s' ⟨hcaptures, hsymbols, hdepth⟩
  refine ⟨⟨hcaptures.trans hs.captures, fun sym hsym => ?_⟩, trivial⟩
  rcases hsymbols sym hsym with hsym | hsym
  · exact hs.scopes sym hsym
  · exact (hdepth sym hsym).trans henv.depth

/-- Expressions outside of all lambdas. -/
theorem Gathers.finishes (henv : Outermost env) {os : α → List Occurrence} {ds : α → List Ident}
    {ls : List Lambda} {f : α → List Lambda}
    (h : ∀ {scope : List Symbol}, (∀ sym ∈ scope, sym.depth ≤ env.depth) →
      Gathers env scope [] x fun a after => Gathered env.depth scope [] after (os a) (ds a) ls (f a)) :
    Finishes env x fun a => AllFinished ls (f a) := by
  intro s hs
  have hscope : ∀ sym ∈ s.scopes.symbols, sym.depth ≤ env.depth := fun sym hsym =>
    Nat.le_of_eq ((hs.scopes sym hsym).trans henv.depth.symm)
  refine (h hscope s rfl hs.captures).mono fun a s' ⟨hscopes, ha⟩ => ⟨⟨?_, hscopes ▸ hs.scopes⟩, ha.lambdas⟩
  rw [ha.noted, noteUses_nil]

theorem finishes_checkWritable (id : Ident) (first : Bool) :
    Finishes env (id.checkWritable first) fun _ => True := by
  intro s hs
  refine (gathers_checkWritable id first s rfl hs.captures).mono fun sym s' ⟨hscopes, _, hnoted⟩ => ?_
  exact ⟨⟨hnoted.trans (noteUses_nil env.depth [sym]), hscopes ▸ hs.scopes⟩, trivial⟩

section Expressions

variable (henv : Outermost env)
include henv

theorem finishes_expr (w : Option Ty) (e : Expr) :
    Finishes env (e.check w) fun p => AllFinished e.lambdas p.1.lambdas :=
  Gathers.finishes henv fun h => Expr.gathers_check [] h e

theorem finishes_checkDecl (tok : Token) (isMutable : Bool) (name : Ident) (ty : Option Ty)
    (value : Option Expr) : Finishes env (checkDecl tok isMutable name ty value) fun st =>
      AllFinished (Expr.optionLambdas value) st.lambdas := by
  have hdeclare (v' : Option Expr) (t : Ty)
      (h : AllFinished (Expr.optionLambdas value) (Expr.optionLambdas v')) : Finishes env (do
        let site := Site.ofToken .varDeclaration tok
        let sym ← declare name.name t .variable (!isMutable) v'.isSome site
        let loops := (← read).loops
        if v'.isNone then
          modify fun s => { s with late := ⟨sym.id, !isMutable, loops, false⟩ :: s.late }
        return Stmt.decl tok isMutable { name with sym := some sym } ty v') fun st =>
          AllFinished (Expr.optionLambdas value) st.lambdas := by
    refine (finishes_declare henv).then fun sym => finishes_read.bind fun _ _ => ?_
    cases v' with
    | none => exact (finishes_noteLate _).then fun _ => .pure h
    | some e => exact .pure h
  refine finishes_get.then fun s => Finishes.unless (Finishes.unless ?_)
  cases value with
  | none =>
    cases ty with
    | none => exact finishes_reject
    | some t => exact hdeclare none t .nil
  | some v =>
    refine (finishes_expr henv ty v).bind fun p hp => finishes_requireValue.then fun _ => ?_
    obtain ⟨v', found⟩ := p
    cases ty with
    | none => exact hdeclare (some v') found hp
    | some want => exact Finishes.unless (hdeclare (some v') want hp)

theorem finishes_checkAssign (tok : Token) (target : Target) (value : Expr) :
    Finishes env (checkAssign tok target value) fun st =>
      AllFinished (target.lambdas ++ value.lambdas) st.lambdas := by
  cases target with
  | name id =>
    refine (finishes_checkWritable id true).then fun sym => ?_
    refine (finishes_expr henv _ value).bind fun p hp => finishes_requireValue.then fun _ => ?_
    exact Finishes.unless ((finishes_noteLate _).then fun _ => .pure (.append .nil hp))
  | element m base index =>
    have htarget : Finishes env (Target.check (.element m base index)) fun p =>
        AllFinished (Target.lambdas (.element m base index)) p.1.lambdas :=
      Gathers.finishes henv fun h => Target.gathers_check [] h _
    refine htarget.bind fun p hp => ?_
    refine (finishes_expr henv _ value).bind fun q hq => finishes_requireValue.then fun _ => ?_
    exact Finishes.unless (.pure (hp.append hq))

theorem finishes_checkCompound (tok : Token) (target : Target) (op : String) (value : Expr) :
    Finishes env (checkCompound tok target op value) fun st =>
      AllFinished (target.lambdas ++ value.lambdas) st.lambdas := by
  have htarget : Finishes env (target.checkInt op) fun p => AllFinished target.lambdas p.1.lambdas :=
    Gathers.finishes henv fun h => Target.gathers_checkInt [] h target
  refine htarget.bind fun p hp => (finishes_expr henv _ value).bind fun q hq => ?_
  exact Finishes.unless (.pure (hp.append hq))

theorem finishes_checkCondition (what : String) (e : Expr) :
    Finishes env (checkCondition what e) fun e' => AllFinished e.lambdas e'.lambdas :=
  (finishes_expr henv _ e).bind fun _ hp => finishes_requireType.then fun _ => .pure hp

theorem finishes_checkBound (what : String) (e : Expr) :
    Finishes env (checkBound what e) fun e' => AllFinished e.lambdas e'.lambdas :=
  (finishes_expr henv _ e).bind fun _ hp => finishes_requireType.then fun _ => .pure hp

theorem finishes_checkHeader (header : Header) :
    Finishes env header.check fun p => AllFinished header.lambdas p.1.lambdas := by
  cases header with
  | range r =>
    obtain ⟨m, first, last, step⟩ := r
    refine (finishes_checkBound henv _ first).bind fun first' hf => ?_
    refine (finishes_checkBound henv _ last).bind fun last' hl => ?_
    cases step with
    | none => exact .pure ((hf.append hl).append .nil)
    | some e =>
      refine (finishes_checkBound henv _ e).bind fun e' he => ?_
      cases e' with
      | int m' n => exact Finishes.unless (.pure ((hf.append hl).append he))
      | _ => exact .pure ((hf.append hl).append he)
  | each e =>
    refine (finishes_expr henv _ e).bind fun p he => ?_
    obtain ⟨e', t⟩ := p
    dsimp only at he ⊢
    cases t.element? with
    | none => exact finishes_reject
    | some s => exact .pure he

theorem finishes_checkReturn (tok : Token) (value : Option Expr) :
    Finishes env (checkReturn tok value) fun st => AllFinished (Expr.optionLambdas value) st.lambdas := by
  refine finishes_read.bind ?_
  rintro env' rfl
  cases env'.enclosing with
  | none =>
    cases value with
    | none => exact .pure .nil
    | some v => exact finishes_reject
  | some f =>
    cases value with
    | none => exact Finishes.ite (.pure .nil) finishes_reject
    | some v =>
      exact Finishes.unless ((finishes_expr henv _ v).bind fun p hp => Finishes.unless (.pure hp))

end Expressions

theorem finishes_checkJump {word : String} {tok : Token} {st : Stmt} (h : st.lambdas = []) :
    Finishes env (checkJump word tok st) fun st' => AllFinished [] st'.lambdas :=
  finishes_read.bind fun _ _ => Finishes.unless (.pure (h ▸ .nil))

end Finishes

end Typing

mutual

theorem Stmt.finishes_check {env : Env} (henv : Outermost env) : (st : Stmt) →
    Finishes env st.check fun st' => AllFinished st.lambdas st'.lambdas
  | .decl tok isMutable name ty value => finishes_checkDecl henv tok isMutable name ty value
  | .assign tok target value => finishes_checkAssign henv tok target value
  | .compound tok target op value => finishes_checkCompound henv tok target op value
  | .selfOp tok e => by
    have he : Finishes env e.check fun p => AllFinished e.lambdas p.1.lambdas :=
      Gathers.finishes henv fun h => IncDec.gathers_check [] h e
    exact Finishes.bind he fun p hp => .pure hp
  | .print tok newline none => .pure .nil
  | .print tok newline (some v) =>
    Finishes.bind (finishes_expr henv none v) fun p hp => Finishes.unless (.pure hp)
  | .ifElse tok cond a b => by
    refine Finishes.bind (finishes_checkCondition henv _ cond) fun cond' hc => finishes_get.then fun _ => ?_
    refine (Block.finishes_check henv a).bind fun a' ha => finishes_get.then fun _ => ?_
    refine (finishes_noteLate _).then fun _ => (Block.finishes_checkOption henv b).bind fun b' hb => ?_
    exact (finishes_noteLate _).then fun _ => .pure ((hc.append ha).append hb)
  | .whileLoop tok cond body => by
    refine Finishes.bind (finishes_checkCondition henv _ cond) fun cond' hc => ?_
    exact (Finishes.inLoop (Block.finishes_check henv.inLoop body)).bind fun body' hb =>
      .pure (hc.append hb)
  | .forLoop tok x header body => by
    refine Finishes.bind (finishes_checkHeader henv header) fun p hh => Finishes.inScope ?_
    refine (finishes_declare henv).then fun sym => ?_
    exact (Finishes.inLoop (Block.finishes_check henv.inLoop body)).bind fun body' hb =>
      .pure (hh.append hb)
  | .function f => Finishes.bind (FunDecl.finishes_check henv f) fun f' hf => .pure hf
  | .call tok c => by
    have hc : Finishes env c.check fun p => AllFinished c.lambdas p.1.lambdas :=
      Gathers.finishes henv fun h => Call.gathers_check [] h c
    exact Finishes.bind hc fun p hp => .pure hp
  | .ret tok value => finishes_checkReturn henv tok value
  | .brk tok => finishes_checkJump rfl
  | .cont tok => finishes_checkJump rfl
  | .block b => Finishes.bind (Block.finishes_check henv b) fun b' hb => .pure hb

theorem Stmt.finishes_checkList {env : Env} (henv : Outermost env) : (ss : List Stmt) → (acc : List Stmt) →
    Finishes env (Stmt.checkList acc ss) fun r => ∃ ss', r = acc.reverse ++ ss' ∧
      AllFinished (Stmt.listLambdas ss) (Stmt.listLambdas ss')
  | [], acc => .pure ⟨[], by simp, .nil⟩
  | st :: ss, acc => by
    refine Finishes.bind (Stmt.finishes_check henv st) fun st' hst => ?_
    refine fun s hs => (Stmt.finishes_checkList henv ss (st' :: acc) s hs).mono ?_
    rintro r s' ⟨hs', ss', rfl, hss⟩
    exact ⟨hs', st' :: ss', by simp, hst.append hss⟩

theorem Block.finishes_check {env : Env} (henv : Outermost env) : (b : Block) →
    Finishes env b.check fun b' => AllFinished b.lambdas b'.lambdas
  | .mk tok ss close => by
    refine Finishes.bind (Finishes.inScope (Stmt.finishes_checkList henv ss [])) ?_
    rintro _ ⟨ss', rfl, hss⟩
    exact .pure hss

theorem Block.finishes_checkOption {env : Env} (henv : Outermost env) : (b : Option Block) →
    Finishes env (Block.checkOption b) fun b' => AllFinished (Block.optionLambdas b) (Block.optionLambdas b')
  | none => .pure .nil
  | some b => Finishes.bind (Block.finishes_check henv b) fun _ hb => .pure hb

theorem FunDecl.finishes_check {env : Env} (henv : Outermost env) : (f : FunDecl) →
    Finishes env f.check fun f' => AllFinished f.lambdas f'.lambdas
  | .mk tok name params result (.mk brace ss close) => by
    refine Finishes.bind finishes_read ?_
    rintro env rfl
    cases env.functions.find? name.name with
    | none => exact finishes_reject
    | some sym =>
      refine finishes_get.then fun _ => Finishes.unless (Finishes.inFunction henv ?_)
      have henv' : Outermost (env.inFunction sym tok result) := ⟨rfl, henv.functions⟩
      refine (finishes_declareParams henv' (by simp)).then fun params' => ?_
      refine (Stmt.finishes_checkList henv' ss []).bind ?_
      rintro _ ⟨ss', rfl, hss⟩
      exact Finishes.unless (.pure hss)

end

/-! ## Programs -/

namespace Typing

theorem depth_declareFunctions : ∀ (fs : List FunDecl) (routine : Nat) (scope scope' : Scope),
    declareFunctions routine scope fs = .ok scope' → (∀ sym ∈ scope.declared, sym.depth = 0) →
    ∀ sym ∈ scope'.declared, sym.depth = 0
  | [], _, _, _, h, hs => by
    cases h
    exact hs
  | f :: fs, routine, scope, scope', h, hs => by
    unfold declareFunctions at h
    dsimp only at h
    split at h
    · cases h
    · split at h
      · cases h
      · refine depth_declareFunctions fs (routine + 1) _ scope' h fun sym hsym => ?_
        rcases List.mem_cons.mp hsym with rfl | hsym
        · rfl
        · exact hs sym hsym

/-- Symbols that are told apart by their identities are collected as free variables. -/
theorem Finished.capturesFree {depth : Nat} {l : Lambda} (h : Finished depth l)
    (hinj : ∀ a ∈ l.uses, ∀ b ∈ l.uses, a.id = b.id → a = b) : l.CapturesFree := by
  have hc := collected depth l.uses hinj
  have houter {sym : Symbol} (hsym : sym ∈ l.uses) :
      isOuter depth sym = true ↔ sym.isFunction = false ∧ sym ∉ l.owns := by
    rw [isOuter, Bool.and_eq_true, Bool.not_eq_true', decide_eq_true_eq]
    refine and_congr_right fun _ => ⟨fun hle howned => ?_, fun hfree => ?_⟩
    · exact Nat.not_lt_of_le hle (h.deeper sym howned)
    · exact (h.known sym hsym).resolve_right hfree
  refine ⟨fun o ho => h.resolved o.id (List.mem_map_of_mem ho), ?_, fun sym => ?_, ?_⟩
  · rw [h.captures, List.map_reverse, List.nodup_reverse]
    exact hc.nodup
  · rw [h.captures, List.mem_reverse, hc.mem_iff]
    exact and_congr_right houter
  · rw [h.captures]
    exact hc.ordered

end Typing

theorem Stmt.declarations_subset {s : Stmt} : ∀ {ss : List Stmt}, s ∈ ss →
    s.declarations ⊆ Stmt.listDeclarations ss
  | t :: ss, h => by
    rcases List.mem_cons.mp h with rfl | h
    · exact List.subset_append_left _ _
    · exact List.subset_append_of_subset_right _ (Stmt.declarations_subset h)

/-- In a program whose names are scoped lexically, the symbols that are used are told apart by their
identities. -/
theorem Checked.Lexical.id_injective {p : Program} {c : Checked} (h : c.Lexical p)
    (hfunctions : c.functions = c.program.functions) {a b : Symbol}
    (ha : a ∈ meanings c.program.occurrences) (hb : b ∈ meanings c.program.occurrences)
    (hid : a.id = b.id) : a = b := by
  obtain ⟨syms, hsyms, hnodup⟩ := h.distinct
  have hmem {sym : Symbol} (hsym : sym ∈ meanings c.program.occurrences) : sym ∈ syms := by
    obtain ⟨o, ho, hosym⟩ := List.mem_filterMap.mp hsym
    obtain ⟨d, sym', hd, hdsym, hosym'⟩ := h.resolved o ho
    obtain rfl : sym' = sym := Option.some.inj (hosym'.symm.trans hosym)
    have hdeclared : d ∈ c.program.declarations := by
      rcases Option.or_eq_some_iff.mp hd with hview | ⟨-, hfun⟩
      · exact (Stmt.sees_list c.program.stmts o ho d (List.mem_of_find?_eq_some hview)).resolve_left
          List.not_mem_nil
      · obtain ⟨f, hf, rfl⟩ := List.mem_map.mp (List.mem_of_find?_eq_some hfun)
        rw [hfunctions] at hf
        exact Stmt.declarations_subset (mem_functionsOf.mp hf) List.mem_cons_self
    have hsome := List.mem_map_of_mem (f := Ident.sym) hdeclared
    rw [hsyms, hdsym] at hsome
    obtain ⟨x, hx, heq⟩ := List.mem_map.mp hsome
    exact Option.some.inj heq ▸ hx
  exact List.inj_on_of_nodup_map hnodup (hmem ha) (hmem hb) hid

/-- What the checker accepts keeps its lambdas, and each of them was finished. -/
theorem Program.allFinished_check {p : Program} {c : Checked} (h : p.check = .ok c) :
    c.functions = c.program.functions ∧ AllFinished p.lambdas c.program.lambdas := by
  obtain ⟨functions, stmts, s, hdecl, hlist, rfl⟩ := Program.check_eq_ok h
  have hdepth := depth_declareFunctions p.functions 1 ⟨.functions, []⟩ functions hdecl
    fun _ h => absurd h List.not_mem_nil
  have hbare : Bare ⟨⟨⟨.script, []⟩, [functions]⟩, 0, [], []⟩ :=
    ⟨rfl, by simpa [Scopes.symbols] using hdepth⟩
  have henv : Outermost ⟨functions, 0, none, .program, 0, 0⟩ := ⟨rfl, hdepth⟩
  obtain ⟨-, ss', hss, hfinished⟩ := (Stmt.finishes_checkList henv p.stmts [] _ hbare).of_ok hlist
  obtain rfl : stmts = ss' := by simpa using hss
  exact ⟨rfl, hfinished⟩

/-- In what the checker accepts, every lambda captures its free variables. -/
theorem Program.check_captures {p : Program} {c : Checked} (h : p.check = .ok c) :
    c.program.lambdas.map Lambda.tok = p.lambdas.map Lambda.tok ∧
      ∀ l ∈ c.program.lambdas, l.CapturesFree := by
  obtain ⟨hfunctions, hlambdas⟩ := Program.allFinished_check h
  have hlexical := Program.check_scopes h
  refine ⟨hlambdas.places, fun l hl => ?_⟩
  obtain ⟨depth, hl'⟩ := hlambdas.finished l hl
  have hused := Stmt.usedAmong_list [] c.program.stmts l hl
  exact hl'.capturesFree fun a ha b hb => hlexical.id_injective hfunctions (hused ha) (hused hb)

/-- A generator inside a lambda and one inside a template. The outer lambda captures for the inner one, `k`
stands before `base` in both, and the function is in neither. -/
theorem Program.check_captures_nested : ∃ (p : Program) (c : Checked),
    p.OfText ("val base = 100\nvar k = 2\nfun twice(n: Int): Int \x7b return n + n \x7d\n" ++
      "val outer = \x7b x: Int -> Array(2) \x7b i -> twice(k) + base + x + i + k \x7d \x7d\n" ++
      "println(\"$\x7bArray(1) \x7b j -> j + k \x7d\x7d\")").toList ∧ p.check = .ok c ∧
      c.program.lambdas.map (fun l => l.captures.map Symbol.name) = [["k", "base"], ["k", "base", "x"], ["k"]] ∧
      ∀ l ∈ c.program.lambdas, l.CapturesFree := by
  have hrun : ((Program.ofText? ("val base = 100\nvar k = 2\nfun twice(n: Int): Int \x7b return n + n \x7d\n" ++
      "val outer = \x7b x: Int -> Array(2) \x7b i -> twice(k) + base + x + i + k \x7d \x7d\n" ++
      "println(\"$\x7bArray(1) \x7b j -> j + k \x7d\x7d\")").toList).map fun p => p.check.toOption.map fun c =>
        c.program.lambdas.map fun l => l.captures.map Symbol.name) =
      some (some [["k", "base"], ["k", "base", "x"], ["k"]]) := by
    decide +kernel
  obtain ⟨p, hp, hc⟩ := Option.map_eq_some_iff.mp hrun
  obtain ⟨c, hc, hnames⟩ := Option.map_eq_some_iff.mp hc
  have hok : p.check = .ok c := by
    cases h : p.check with
    | error d => rw [h] at hc; cases hc
    | ok k => rw [h] at hc; exact congrArg _ (Option.some.inj hc)
  exact ⟨p, c, Program.ofText_of_eq_some hp, hok, hnames, (Program.check_captures hok).2⟩

end Kotlet

import Kotlet.Proofs.Accepted

/-!
# The statements of a program

* `Stmt.places` : the statements inside a statement, each with the variables in scope there;
* `Checked.places` : the statements of the script and of the functions;
* `Checked.Typed.of_mem_places` : each of them is well-typed where it stands.
-/

namespace Kotlet

mutual

/-- The statements inside a statement, itself first, each with the variables in scope there. -/
def Stmt.places (Γ : List Symbol) : Stmt → List (List Symbol × Stmt)
  | .ifElse tok cond a b =>
    (Γ, .ifElse tok cond a b) :: (a.places Γ ++ Block.optionPlaces Γ b)
  | .whileLoop tok cond body => (Γ, .whileLoop tok cond body) :: body.places Γ
  | .forLoop tok x header body =>
    (Γ, .forLoop tok x header body) :: body.places (x.sym.toList ++ Γ)
  | .block b => (Γ, .block b) :: b.places Γ
  | s => [(Γ, s)]

/-- The statements inside some statements in order. -/
def Stmt.listPlaces (Γ : List Symbol) : List Stmt → List (List Symbol × Stmt)
  | [] => []
  | s :: ss => s.places Γ ++ Stmt.listPlaces (s.extend Γ) ss

/-- The statements inside braces. -/
def Block.places (Γ : List Symbol) : Block → List (List Symbol × Stmt)
  | .mk _ ss _ => Stmt.listPlaces Γ ss

/-- The statements inside braces that may be absent. -/
def Block.optionPlaces (Γ : List Symbol) : Option Block → List (List Symbol × Stmt)
  | none => []
  | some b => b.places Γ

end

/-- The symbols of some parameters. -/
def Param.symbols (ps : List Param) : List Symbol := ps.filterMap fun p => p.name.sym

/-- The statements of a function. -/
def FunDecl.places (f : FunDecl) : List (List Symbol × Stmt) :=
  Stmt.listPlaces (Param.symbols f.params) f.body.stmts

/-- The statements of a program, each with the variables in scope there. -/
def Checked.places (c : Checked) : List (List Symbol × Stmt) :=
  Stmt.listPlaces [] c.program.script ++ c.functions.flatMap FunDecl.places

/-- A statement is well-typed where it stands, in some routine. -/
def Stmt.Sits (Φ : Signatures) (place : List Symbol × Stmt) : Prop :=
  ∃ (r : Nat) (result : Ty) (inLoop : Bool) (lo hi : Nat),
    Context r lo place.1 ∧ place.2.Typed Φ r result inLoop place.1 lo hi

section Sits

variable {Φ : Signatures} {r : Nat} {result : Ty} {place : List Symbol × Stmt}

mutual

theorem Stmt.sits_of_mem_places {inLoop : Bool} {Γ : List Symbol} {lo hi : Nat} : (s : Stmt) →
    s.Typed Φ r result inLoop Γ lo hi → Context r lo Γ → place ∈ s.places Γ → Stmt.Sits Φ place
  | .ifElse tok cond a b, h, hΓ, hmem => by
    rw [Stmt.places, List.mem_cons, List.mem_append] at hmem
    rcases hmem with rfl | ha | hb
    · exact ⟨r, result, inLoop, lo, hi, hΓ, h⟩
    all_goals
      obtain ⟨m, n, hcond, hthen, helse⟩ := h
      have hΓ' := hΓ.mono (Expr.typed_le cond hcond)
    · exact Block.sits_of_mem_places a hthen hΓ' ha
    · exact Block.sits_of_mem_optionPlaces b helse (hΓ'.mono (Block.typed_le a hthen)) hb
  | .whileLoop tok cond body, h, hΓ, hmem => by
    rw [Stmt.places, List.mem_cons] at hmem
    rcases hmem with rfl | hmem
    · exact ⟨r, result, inLoop, lo, hi, hΓ, h⟩
    · obtain ⟨m, hcond, hbody⟩ := h
      exact Block.sits_of_mem_places body hbody (hΓ.mono (Expr.typed_le cond hcond)) hmem
  | .forLoop tok x header body, h, hΓ, hmem => by
    rw [Stmt.places, List.mem_cons] at hmem
    rcases hmem with rfl | hmem
    · exact ⟨r, result, inLoop, lo, hi, hΓ, h⟩
    · obtain ⟨mid, sym, hx, hd, hheader, hbody⟩ := h
      rw [hx] at hmem
      exact Block.sits_of_mem_places body hbody ((hΓ.mono (Header.typed_le hheader)).cons hd) hmem
  | .block b, h, hΓ, hmem => by
    rw [Stmt.places, List.mem_cons] at hmem
    rcases hmem with rfl | hmem
    · exact ⟨r, result, inLoop, lo, hi, hΓ, h⟩
    · exact Block.sits_of_mem_places b h hΓ hmem
  | .decl .., h, hΓ, hmem => List.mem_singleton.mp hmem ▸ ⟨r, result, inLoop, lo, hi, hΓ, h⟩
  | .assign .., h, hΓ, hmem => List.mem_singleton.mp hmem ▸ ⟨r, result, inLoop, lo, hi, hΓ, h⟩
  | .compound .., h, hΓ, hmem => List.mem_singleton.mp hmem ▸ ⟨r, result, inLoop, lo, hi, hΓ, h⟩
  | .selfOp .., h, hΓ, hmem => List.mem_singleton.mp hmem ▸ ⟨r, result, inLoop, lo, hi, hΓ, h⟩
  | .print .., h, hΓ, hmem => List.mem_singleton.mp hmem ▸ ⟨r, result, inLoop, lo, hi, hΓ, h⟩
  | .function _, h, _, _ => h.elim
  | .call .., h, hΓ, hmem => List.mem_singleton.mp hmem ▸ ⟨r, result, inLoop, lo, hi, hΓ, h⟩
  | .ret .., h, hΓ, hmem => List.mem_singleton.mp hmem ▸ ⟨r, result, inLoop, lo, hi, hΓ, h⟩
  | .brk _, h, hΓ, hmem => List.mem_singleton.mp hmem ▸ ⟨r, result, inLoop, lo, hi, hΓ, h⟩
  | .cont _, h, hΓ, hmem => List.mem_singleton.mp hmem ▸ ⟨r, result, inLoop, lo, hi, hΓ, h⟩

theorem Stmt.sits_of_mem_listPlaces {inLoop : Bool} {Γ : List Symbol} {lo hi : Nat} :
    (ss : List Stmt) → Stmt.ListTyped Φ r result inLoop Γ lo hi ss → Context r lo Γ →
      place ∈ Stmt.listPlaces Γ ss → Stmt.Sits Φ place
  | [], _, _, hmem => nomatch hmem
  | s :: ss, ⟨mid, hs, hss⟩, hΓ, hmem => by
    rw [Stmt.listPlaces, List.mem_append] at hmem
    rcases hmem with hmem | hmem
    · exact Stmt.sits_of_mem_places s hs hΓ hmem
    · exact Stmt.sits_of_mem_listPlaces ss hss (hΓ.extend hs) hmem

theorem Block.sits_of_mem_places {inLoop : Bool} {Γ : List Symbol} {lo hi : Nat} : (b : Block) →
    b.Typed Φ r result inLoop Γ lo hi → Context r lo Γ → place ∈ b.places Γ → Stmt.Sits Φ place
  | .mk _ ss _, h, hΓ, hmem => Stmt.sits_of_mem_listPlaces ss h hΓ hmem

theorem Block.sits_of_mem_optionPlaces {inLoop : Bool} {Γ : List Symbol} {lo hi : Nat} :
    (b : Option Block) → Block.TypedOption Φ r result inLoop Γ lo hi b → Context r lo Γ →
      place ∈ Block.optionPlaces Γ b → Stmt.Sits Φ place
  | none, _, _, hmem => nomatch hmem
  | some b, h, hΓ, hmem => Block.sits_of_mem_places b h hΓ hmem

end

theorem Param.Declare.symbols_eq : ∀ {ps : List Param} {syms : List Symbol} {i : Nat},
    Param.Declare r i ps syms → Param.symbols ps = syms
  | [], [], _, _ => rfl
  | p :: ps, sym :: syms, _, h => by
    obtain ⟨hp, -, hps⟩ := h
    have hrest := Param.Declare.symbols_eq hps
    simp only [Param.symbols] at hrest ⊢
    rw [List.filterMap_cons_some (f := fun p : Param => p.name.sym) hp, hrest]
  | [], _ :: _, _, h => h.elim
  | _ :: _, [], _, h => h.elim

theorem FunDecl.Typed.sits_of_mem_places {f : FunDecl} (h : f.Typed Φ r) (hmem : place ∈ f.places) :
    Stmt.Sits Φ place := by
  obtain ⟨syms, hi, hps, -, hbody⟩ := h.body
  rw [FunDecl.places, hps.symbols_eq] at hmem
  have hctx := (Context.nil r 1).params hps
  rw [List.append_nil] at hctx
  exact Stmt.sits_of_mem_listPlaces _ hbody hctx hmem

end Sits

/-- Every statement of a well-typed program is well-typed where it stands. -/
theorem Checked.Typed.of_mem_places {c : Checked} (h : c.Typed) {place : List Symbol × Stmt}
    (hmem : place ∈ c.places) : Stmt.Sits (signatures c.functions) place := by
  rcases List.mem_append.mp hmem with hmem | hmem
  · obtain ⟨hi, hscript⟩ := h.script
    exact Stmt.sits_of_mem_listPlaces _ hscript (Context.nil 0 0) hmem
  · obtain ⟨f, hf, hmem⟩ := List.mem_flatMap.mp hmem
    obtain ⟨r, hr⟩ := h.routine f hf
    exact hr.sits_of_mem_places hmem

end Kotlet

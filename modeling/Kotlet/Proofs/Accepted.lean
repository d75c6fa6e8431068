import Kotlet.Proofs.Parse.WellFormed
import Kotlet.Proofs.Typing.Stmt

/-!
# Accepted source texts

* `Program.OfText`, `Checked.OfText` : the tree of a source text, and what checking makes of it;
* `Program.ofText?`, `Checked.ofText?` : compute them;
* `Checked.OfText.typed` : what the checker accepts is well-typed.
-/

namespace Kotlet

/-- The tree of a source text that is read from a file. -/
def Program.OfText (text : Text) (p : Program) : Prop :=
  ∃ (tokens : List Token) (q : Program) (file : String), Token.scan text = .ok tokens ∧
    Program.parse tokens = .ok q ∧ p = { q with file := file }

/-- What the checker makes of a source text. -/
def Checked.OfText (text : Text) (c : Checked) : Prop :=
  ∃ p : Program, p.OfText text ∧ p.check = .ok c

/-- Scans and parses. -/
def Program.ofText? (text : Text) : Option Program :=
  match Token.scan text with
  | .error _ => none
  | .ok tokens => (Program.parse tokens).toOption

theorem Program.ofText_of_eq_some {text : Text} {p : Program} (h : ofText? text = some p) : p.OfText text := by
  unfold ofText? at h
  cases hs : Token.scan text with
  | error d => rw [hs] at h; cases h
  | ok tokens =>
    simp only [hs] at h
    cases hp : Program.parse tokens with
    | error d => rw [hp] at h; cases h
    | ok q =>
      rw [hp] at h
      cases h
      exact ⟨tokens, p, p.file, hs, hp, rfl⟩

/-- Scans, parses and checks. -/
def Checked.ofText? (text : Text) : Option Checked :=
  match Token.scan text with
  | .error _ => none
  | .ok tokens =>
    match Program.parse tokens with
    | .error _ => none
    | .ok p => p.check.toOption

theorem Checked.ofText_of_eq_some {text : Text} {c : Checked} (h : ofText? text = some c) :
    c.OfText text := by
  unfold ofText? at h
  cases hs : Token.scan text with
  | error d => rw [hs] at h; cases h
  | ok tokens =>
    simp only [hs] at h
    cases hp : Program.parse tokens with
    | error d => rw [hp] at h; cases h
    | ok p =>
      simp only [hp] at h
      cases hc : p.check with
      | error d => rw [hc] at h; cases h
      | ok k =>
        rw [hc] at h
        cases h
        exact ⟨p, ⟨tokens, p, p.file, hs, hp, rfl⟩, hc⟩

theorem Program.OfText.wellFormed {text : Text} {p : Program} (h : p.OfText text) :
    p.WellFormed := by
  obtain ⟨tokens, q, file, hs, hp, rfl⟩ := h
  have hq : q.WellFormed := Program.wellFormed_of_parse hs hp
  exact hq

theorem Checked.OfText.typed {text : Text} {c : Checked} (h : c.OfText text) : c.Typed := by
  obtain ⟨p, hp, hc⟩ := h
  exact (Program.check_typed hp.wellFormed).1 c hc

end Kotlet

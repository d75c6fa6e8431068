import Kotlet.Proofs.Syntax.Written.Stmt

/-!
# Formatting

Formatted source is source: it reads as a program of the same outline, and formatting it once more
changes nothing. Templates are the exception, where a string inside them would end the string around
them.

* `trimLineEnds_lines` : the text of a program is its statements, each on lines of its own;
* `writes_program` : the text is scanned into tokens of which the grammar derives a program like it;
* `Program.parse_format` : so it is parsed.
-/

namespace Kotlet
namespace Written

open Token (Kind)
open Grammar Parse

/-- Lines end with a line end, which is the only one there. -/
theorem ends_lines {S' : Reading Stmt} {ss : List Stmt} (h : ∀ s ∈ ss, RendersStmt S' s) (hne : ss ≠ [])
    (level : Nat) : ∃ text, (String.join (Stmt.formatLines level ss)).toList = text ++ ['\n'] ∧ Ends text := by
  induction ss with
  | nil => exact absurd rfl hne
  | cons s ss ih =>
    obtain ⟨hends, -⟩ := h s List.mem_cons_self level
    cases ss with
    | nil => exact ⟨(indentation level).toList ++ (s.format level).toList,
        by simp [Stmt.formatLines, String.toList_append], hends.append _⟩
    | cons s' ss =>
      obtain ⟨text, htext, hends'⟩ := ih (fun t ht => h t (List.mem_cons_of_mem _ ht)) (List.cons_ne_nil _ _)
      refine ⟨(indentation level ++ s.format level ++ "\n").toList ++ text, ?_, hends'.append _⟩
      rw [Stmt.formatLines, String.join_cons, String.toList_append, htext, List.append_assoc]

theorem trimLineEnds_lines {S' : Reading Stmt} {ss : List Stmt} (h : ∀ s ∈ ss, RendersStmt S' s) (hne : ss ≠ []) :
    trimLineEnds (String.join (Stmt.formatLines 0 ss)) ++ "\n" = String.join (Stmt.formatLines 0 ss) := by
  obtain ⟨_, htext, cs, c, rfl, hc⟩ := ends_lines h hne 0
  rw [← String.toList_inj, String.toList_append, trimLineEnds, htext]
  simp [hc]

/-- The text of a program is scanned into tokens of which the grammar derives a program like it. -/
theorem writes_program {string : Token → Prop} {E E' : Reading Expr} (hE : Keeps true (Legible string) E E')
    {ts : List Token} {p : Program} (hts : ∀ t ∈ ts, Legible string t) (h : IsProgram E ts p.stmts) :
    ∃ us ss, Token.scan p.format.toList = .ok us ∧ IsProgram E' us ss ∧ List.Forall₂ SameStmt p.stmts ss := by
  obtain ⟨file, stmts⟩ := p
  cases h with
  | @mk seps us ss n _ hs =>
    have hrenders := renders_of_areStmts (renders_stmt hE n) (fun t ht => hts t (by simp [ht])) hs
    by_cases hne : stmts = []
    · subst hne
      obtain ⟨_, ⟨t, _, rfl, ht, rfl⟩, hscan⟩ := (writes_nil.lone (c := '\n') rfl nofun).scan
      have hprogram : IsProgram E' ([t] ++ []) [] := .mk (n := 0) (separators_newline ht.kind) .nil
      have hformat : (Program.format ⟨file, []⟩).toList = ['\n'] := by
        simp [Program.format, Stmt.formatLines, trimLineEnds]
      exact ⟨_, [], hformat ▸ hscan, hprogram, .nil⟩
    · obtain ⟨us, ⟨ss', hss', hsame⟩, hscan⟩ := (writes_lines hrenders 0).scan
      have hformat : Program.format ⟨file, stmts⟩ = String.join (Stmt.formatLines 0 stmts) :=
        trimLineEnds_lines hrenders hne
      exact ⟨us, ss', hformat ▸ hscan, .mk separators_nil hss', hsame⟩

theorem templateDepth_pos (tokens : List Token) : 0 < templateDepth tokens := by
  suffices ∀ n, n ≤ tokens.foldl (fun n t => max n t.literal.toText.length) n from this 1
  intro n
  induction tokens generalizing n with
  | nil => exact Nat.le_refl n
  | cons t tokens ih => exact Nat.le_trans (Nat.le_max_left n _) (ih _)

end Written

open Written Grammar Parse

/-- Every accepted source text is formatted as one that is accepted too, unless a template of it holds a
string: it is read as a program of the same outline, which is formatted as the same text. -/
theorem Program.parse_format {source : Text} {tokens : List Token} {p : Program}
    (hscan : Token.scan source = .ok tokens) (hparse : Program.parse tokens = .ok p)
    (hplain : ∀ t ∈ tokens, t.kind = .string → PlainTemplates t) :
    ∃ tokens' p', Token.scan p.format.toList = .ok tokens' ∧ Program.parse tokens' = .ok p' ∧
      p'.outline = p.outline ∧ p'.format = p.format := by
  obtain ⟨-, hprogram⟩ := Program.parse_iff_isProgram.mp hparse
  have hlegible := legible_of_scan hscan hplain
  have hwrites (depth : Nat) := writes_program
    (keeps_expr (keepsStrings (templateDepth tokens) depth) maxDepth) hlegible hprogram
  -- the depth of the templates is known only once the text is scanned
  obtain ⟨us, -, hus, -⟩ := hwrites 0
  obtain ⟨depth, hdepth⟩ : ∃ depth, templateDepth us = depth + 1 :=
    Nat.exists_eq_succ_of_ne_zero (Nat.ne_of_gt (templateDepth_pos us))
  obtain ⟨us', ss, hus', hread, hsame⟩ := hwrites depth
  obtain rfl : us = us' := Except.ok.inj (hus.symm.trans hus')
  rw [← hdepth] at hread
  refine ⟨us, ⟨"", ss⟩, hus, Program.parse_iff_isProgram.mpr ⟨rfl, hread⟩, ?_, ?_⟩
  · simp [Program.outline, outlines_of_same hsame]
  · simp [Program.format, formatLines_of_same hsame]

/-- Parentheses and blocks that are there for nothing, with a template and an escape. -/
def untidy : Text :=
  Text.ofString "val x=(1)-(2 - -3);if(x<0)\x7bprintln(\"$x\\n\")\x7delse if((x)==0)\x7b\x7d"

/-- How `untidy` is formatted. -/
def tidied : String :=
  "val x = 1 - (2 - -3)\nif (x < 0) \x7b\n    println(\"$\x7bx\x7d\\n\")\n\x7d else if (x == 0) \x7b\x7d\n"

theorem Program.parse_format_untidy : ∃ tokens p, Token.scan untidy = .ok tokens ∧
    Program.parse tokens = .ok p ∧
      p.format = tidied ∧ (∀ t ∈ tokens, t.kind = .string → PlainTemplates t) ∧
      ∃ tokens' p', Token.scan p.format.toList = .ok tokens' ∧ Program.parse tokens' = .ok p' ∧
        p'.outline = p.outline ∧ p'.format = p.format := by
  have hparses : (Token.scan untidy).toOption.any (fun tokens =>
      (Program.parse tokens).toOption.any (fun p => p.format = tidied) &&
        decide (∀ t ∈ tokens, t.kind = .string → PlainTemplates t)) = true := by decide +kernel
  cases hscan : Token.scan untidy with
  | error d =>
    rw [hscan] at hparses
    cases hparses
  | ok tokens =>
    rw [hscan] at hparses
    obtain ⟨hparsed, hplain⟩ := (Bool.and_eq_true _ _).mp hparses
    cases hparse : Program.parse tokens with
    | error d =>
      rw [hparse] at hparsed
      cases hparsed
    | ok p =>
      rw [hparse] at hparsed
      have hplain : ∀ t ∈ tokens, t.kind = .string → PlainTemplates t := of_decide_eq_true hplain
      exact ⟨tokens, p, rfl, hparse, of_decide_eq_true hparsed, hplain, Program.parse_format hscan hparse hplain⟩

end Kotlet

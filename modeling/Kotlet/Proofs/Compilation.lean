import Kotlet.Compilation
import Kotlet.Proofs.Accepted

/-!
# What a compilation notes down

A phase that fails ends the compilation. Whether a phase fails is said here without the failures
that are noted, and then compared with them.

* `Compilation.Step` : the phases that there are, and `Step.phase` : what each of them does;
* `Step.failure?` : what a phase fails with, if it does; `Step.repeats` : the one case in which it
  notes its failure twice;
* `errors_phase` : what one phase notes;
* `failures_noted` : what a whole compilation notes.
-/

namespace Kotlet

theorem Diagnostic.inFile_inFile (d : Diagnostic) (f : String) :
    (d.inFile f).inFile f = d.inFile f := by
  unfold inFile
  by_cases hd : d.file = ""
  · simp only [if_pos hd]
    split <;> rfl
  · simp only [if_neg hd]

namespace Compilation

/-- The phases that there are. A program is run by `eval`, or as a class by a launcher that cannot be
found. -/
inductive Step where
  | scan
  | parse
  | check
  | emit (major : UInt16) (omitSource : Bool)
  | eval
  | launch (launcher : String)

/-- The failure of a result. -/
def failureOf {α : Type} : Except Diagnostic α → Option Diagnostic
  | .ok _ => none
  | .error d => some d

/-- What is known of a tree: what was found out before, or else what checking finds out now. -/
def known (c : Compilation) (p : Program) : Except Diagnostic Checked :=
  match c.checked with
  | some k => .ok { k with program := p }
  | none => p.check

/-- The generator of the class. -/
def generator (c : Compilation) (major : UInt16) (omitSource : Bool) : Generator :=
  let g := Generator.start (if c.unit = "" then Source.unitName c.file else c.unit)
  { g with
    major := if major = 0 then g.major else major
    source := if omitSource then .omitted else .derived }

namespace Step

/-- What a step does. -/
def phase : Step → Phase
  | scan => Phase.scan
  | parse => Phase.parse
  | check => Phase.check
  | emit major omitSource => Phase.emit major omitSource
  | eval => Phase.eval
  | launch launcher => Phase.launch launcher

/-- What a step on a checked tree fails with: checking comes first. -/
def checkedFailure? (c : Compilation) (p : Program) (failure? : Checked → Option Diagnostic) :
    Option Diagnostic :=
  match c.known p with
  | .error d => some d
  | .ok k => failure? k

/-- What making the class of a tree fails with. -/
def emitFailure? (c : Compilation) (g : Generator) (p : Program) : Option Diagnostic :=
  checkedFailure? c p fun k => failureOf (g.classOf k)

/-- What a step fails with. Without a tree there is nothing to check, to make or to run; a class that
can be made cannot be launched. -/
def failure? (s : Step) (c : Compilation) : Option Diagnostic :=
  match s, c.program with
  | scan, _ => failureOf (Token.scan c.source)
  | parse, _ => failureOf (Program.parse c.tokens)
  | check, some p => failureOf p.check
  | emit major omitSource, some p => emitFailure? c (c.generator major omitSource) p
  | eval, some p => checkedFailure? c p fun k => k.run.failure
  | launch launcher, some p =>
    match c.cls with
    | some _ => some (Phase.noLauncher launcher)
    | none => some ((emitFailure? c (c.generator 0 false) p).getD (Phase.noLauncher launcher))
  | _, none => none

/-- Whether a step notes its failure twice: it launches a class that has to be made first, and that
fails. -/
def repeats (s : Step) (c : Compilation) : Bool :=
  match s, c.program, c.cls with
  | launch _, some p, none => (emitFailure? c (c.generator 0 false) p).isSome
  | _, _, _ => false

/-- What a step notes. -/
def noted (s : Step) (c : Compilation) : List Diagnostic :=
  match s.failure? c with
  | none => []
  | some d => List.replicate (if s.repeats c then 2 else 1) (d.inFile c.file)

end Step

/-! ## One phase -/

section Phases

variable {α : Type} {c : Compilation} (h : c.errors = [])
include h

theorem errors_fail (d : Diagnostic) : (c.fail (.diagnostic d)).errors = [d.inFile c.file] := by
  simp [fail, h]

theorem errors_after {x : Except Diagnostic α} {next : α → Compilation}
    (hnext : ∀ a, (next a).errors = []) :
    (c.after x next).errors = (failureOf x).toList.map (·.inFile c.file) := by
  cases x with
  | ok a => exact hnext a
  | error d => exact errors_fail h d

theorem errors_withChecked {p : Program} {next : Compilation → Checked → Compilation}
    {failure? : Checked → Option Diagnostic}
    (hnext : ∀ (c' : Compilation) (k : Checked), c'.errors = [] → c'.file = c.file → c'.unit = c.unit →
      (next c' k).errors = (failure? k).toList.map (·.inFile c.file)) :
    (c.withChecked p next).errors =
      (Step.checkedFailure? c p failure?).toList.map (·.inFile c.file) := by
  unfold withChecked Step.checkedFailure? known
  cases c.checked with
  | some k => exact hnext c _ h rfl rfl
  | none =>
    cases p.check with
    | error d => exact errors_fail h d
    | ok k => exact hnext _ k h rfl rfl

theorem errors_emit {p : Program} (hp : c.program = some p) (major : UInt16) (omitSource : Bool) :
    (Phase.emit major omitSource c).errors =
      (Step.emitFailure? c (c.generator major omitSource) p).toList.map (·.inFile c.file) := by
  unfold Phase.emit
  simp only [hp]
  refine errors_withChecked h fun c' k he hfile hunit => ?_
  have hgenerator : c'.generator major omitSource = c.generator major omitSource := by
    unfold generator
    rw [hfile, hunit]
  change (c'.after ((c'.generator major omitSource).classOf k) _).errors = _
  rw [hgenerator, hfile.symm]
  exact errors_after he fun _ => he

theorem errors_eval {p : Program} (hp : c.program = some p) :
    (Phase.eval c).errors =
      (Step.checkedFailure? c p fun k => k.run.failure).toList.map (·.inFile c.file) := by
  have hgo : c.failed = false := by simp [failed, h]
  unfold Phase.eval
  simp only [hp, hgo, Bool.false_eq_true, if_false]
  refine errors_withChecked h fun c' k he hfile _ => ?_
  rw [← hfile]
  cases k.run.failure with
  | none => exact he
  | some d => exact errors_fail (c := { c' with out := c'.out ++ k.run.out }) he d

end Phases

theorem file_after {α : Type} {c : Compilation} {x : Except Diagnostic α} {next : α → Compilation}
    (hnext : ∀ a, (next a).file = c.file) : (c.after x next).file = c.file := by
  cases x with
  | ok a => exact hnext a
  | error d => rfl

theorem file_withChecked {c : Compilation} {p : Program} {next : Compilation → Checked → Compilation}
    (hnext : ∀ c' k, (next c' k).file = c'.file) : (c.withChecked p next).file = c.file := by
  unfold withChecked
  cases c.checked with
  | some k => exact hnext c _
  | none => exact file_after fun k => hnext _ k

theorem file_emit (c : Compilation) (major : UInt16) (omitSource : Bool) :
    (Phase.emit major omitSource c).file = c.file := by
  unfold Phase.emit
  split
  · rfl
  · exact file_withChecked fun _ _ => file_after fun _ => rfl

/-- No phase changes the file. -/
theorem file_phase (s : Step) (c : Compilation) : (s.phase c).file = c.file := by
  cases s with
  | scan => exact file_after fun _ => rfl
  | parse => exact file_after fun _ => rfl
  | check =>
    simp only [Step.phase, Phase.check]
    split
    · rfl
    · exact file_after fun _ => rfl
  | emit major omitSource => exact file_emit c major omitSource
  | eval =>
    simp only [Step.phase, Phase.eval]
    split
    · rfl
    · split
      · rfl
      · refine file_withChecked fun c' k => ?_
        split <;> rfl
  | launch launcher =>
    simp only [Step.phase, Phase.launch]
    split
    · rfl
    · have hmade : (if c.cls.isSome then c else Phase.emit 0 false c).file = c.file := by
        split
        · rfl
        · exact file_emit c 0 false
      split <;> exact hmade

theorem errors_launch {c : Compilation} (h : c.errors = []) (launcher : String) :
    (Phase.launch launcher c).errors = (Step.launch launcher).noted c := by
  unfold Phase.launch Step.noted Step.failure? Step.repeats
  cases hp : c.program with
  | none => simp [h]
  | some p =>
    simp only [Option.isNone_some, failed, h, List.isEmpty_nil, Bool.not_true, Bool.or_self,
      Bool.false_eq_true, if_false]
    cases hcls : c.cls with
    | some cls => simpa [error?, h] using errors_fail h _
    | none =>
      have hmade := errors_emit h hp 0 false
      have hfile := file_emit c 0 false
      cases hf : Step.emitFailure? c (c.generator 0 false) p with
      | none =>
        rw [hf] at hmade
        simp [error?, fail, hmade, hfile, hf]
      | some d =>
        -- The failure is there already when it is noted once more.
        rw [hf] at hmade
        simp [error?, fail, hmade, hfile, hf, Diagnostic.inFile_inFile]

theorem Step.noted_once {s : Step} {c : Compilation} (h : s.repeats c = false) :
    s.noted c = (s.failure? c).toList.map (·.inFile c.file) := by
  rw [noted, h]
  cases s.failure? c <;> rfl

/-- What a phase notes is what it fails with. -/
theorem errors_phase {c : Compilation} (h : c.errors = []) (s : Step) :
    (s.phase c).errors = s.noted c := by
  cases s with
  | launch launcher => exact errors_launch h launcher
  | scan =>
    rw [Step.noted_once rfl]
    exact errors_after h fun _ => h
  | parse =>
    rw [Step.noted_once rfl]
    exact errors_after h fun _ => h
  | check =>
    rw [Step.noted_once rfl]
    simp only [Step.phase, Phase.check, Step.failure?]
    cases c.program with
    | none => exact h
    | some p => exact errors_after h fun _ => h
  | emit major omitSource =>
    rw [Step.noted_once rfl]
    simp only [Step.failure?]
    cases hp : c.program with
    | none => simpa [Step.phase, Phase.emit, hp] using h
    | some p => exact errors_emit h hp major omitSource
  | eval =>
    rw [Step.noted_once rfl]
    simp only [Step.failure?]
    cases hp : c.program with
    | none => simpa [Step.phase, Phase.eval, hp] using h
    | some p => exact errors_eval h hp

/-! ## Whole compilations -/

/-- The state after some steps. -/
def through (c : Compilation) (steps : List Step) : Compilation := c.run (steps.map Step.phase)

/-- None of the steps fails, one after the other. -/
def Passes (c : Compilation) (steps : List Step) : Prop :=
  ∀ before s rest, steps = before ++ s :: rest → s.failure? (c.through before) = none

theorem trace_cons (c : Compilation) (s : Step) (steps : List Step) :
    c.trace ((s :: steps).map Step.phase) = s.phase c ::
      (if (s.phase c).failed then [] else (s.phase c).trace (steps.map Step.phase)) := rfl

theorem through_cons {c : Compilation} {s : Step} (h : (s.phase c).errors = [])
    (steps : List Step) : c.through (s :: steps) = (s.phase c).through steps := by
  have hfailed : (s.phase c).failed = false := by simp [failed, h]
  unfold through run
  rw [trace_cons, hfailed]
  exact List.getLastD_cons ..

theorem passes_cons {c : Compilation} {s : Step} (h : (s.phase c).errors = [])
    (hs : s.failure? c = none) {steps : List Step} (hp : (s.phase c).Passes steps) :
    c.Passes (s :: steps) := by
  intro before t rest heq
  cases before with
  | nil =>
    cases heq
    exact hs
  | cons x before =>
    cases heq
    rw [through_cons h]
    exact hp before t rest rfl

/-- A compilation either passes all its phases and notes nothing, or it ends with the first phase
that fails. -/
theorem ends_with_failure (steps : List Step) (c : Compilation) (h : c.errors = []) :
    (c.Passes steps ∧ (c.trace (steps.map Step.phase)).length = steps.length ∧
        (c.through steps).errors = []) ∨
      ∃ before s rest d, steps = before ++ s :: rest ∧ c.Passes before ∧
        s.failure? (c.through before) = some d ∧
        c.trace (steps.map Step.phase) =
          c.trace (before.map Step.phase) ++ [s.phase (c.through before)] ∧
        (c.trace (before.map Step.phase)).length = before.length ∧
        (c.through steps).errors =
          List.replicate (if s.repeats (c.through before) then 2 else 1) (d.inFile c.file) := by
  induction steps generalizing c with
  | nil => exact .inl ⟨fun before s rest heq => by simp at heq, rfl, h⟩
  | cons s steps ih =>
    have hnoted := errors_phase h s
    cases hs : s.failure? c with
    | none =>
      rw [Step.noted, hs] at hnoted
      have hfailed : (s.phase c).failed = false := by simp [failed, hnoted]
      rw [through_cons hnoted]
      rcases ih (s.phase c) hnoted with ⟨hp, hlen, he⟩ | ⟨before, t, rest, d, rfl, hp, ht, htr, hlen, he⟩
      · refine .inl ⟨passes_cons hnoted hs hp, ?_, he⟩
        rw [trace_cons, hfailed]
        simpa using hlen
      · refine .inr ⟨s :: before, t, rest, d, rfl, passes_cons hnoted hs hp, ?_, ?_, ?_, ?_⟩
        · rw [through_cons hnoted]
          exact ht
        · rw [trace_cons, trace_cons, hfailed, through_cons hnoted]
          simpa using htr
        · rw [trace_cons, hfailed]
          simpa using hlen
        · rw [through_cons hnoted, ← file_phase s c]
          exact he
    | some d =>
      rw [Step.noted, hs] at hnoted
      have hfailed : (s.phase c).failed = true := by
        simp only [failed, hnoted]
        split <;> rfl
      have hthrough : c.through (s :: steps) = s.phase c := by
        unfold through run
        rw [trace_cons, hfailed]
        rfl
      refine .inr ⟨[], s, steps, d, rfl, fun _ _ _ heq => by simp at heq, hs, ?_, rfl, ?_⟩
      · rw [trace_cons, hfailed]
        rfl
      · rw [hthrough]
        exact hnoted

/-- What the compilation of a source text notes, for any phases in any order. If none of them fails
they all run, and nothing is noted. Otherwise the first one that fails is the last one that runs: its
failure is noted once, or twice if it launches a class that has to be made first and cannot be. -/
theorem failures_noted (source : Text) (file unit : String) (steps : List Step) :
    let c := start source file unit
    let states := c.trace (steps.map Step.phase)
    (c.Passes steps ∧ states.length = steps.length ∧ (c.through steps).errors = []) ∨
      ∃ before s rest d, steps = before ++ s :: rest ∧ c.Passes before ∧
        s.failure? (c.through before) = some d ∧ states.length = before.length + 1 ∧
        c.through steps = s.phase (c.through before) ∧
        (s.repeats (c.through before) = false ∧ (c.through steps).errors = [d.inFile file] ∨
          s.repeats (c.through before) = true ∧
            (c.through steps).errors = [d.inFile file, d.inFile file]) := by
  intro c states
  rcases ends_with_failure steps c rfl with hpass | ⟨before, s, rest, d, heq, hp, hs, htr, hlen, he⟩
  · exact .inl hpass
  · refine .inr ⟨before, s, rest, d, heq, hp, hs, ?_, ?_, ?_⟩
    · simp only [states, htr, List.length_append, hlen, List.length_singleton]
    · unfold through run
      rw [htr, List.getLastD_concat]
      rfl
    · rw [he]
      cases s.repeats (c.through before) with
      | false => exact .inl ⟨rfl, rfl⟩
      | true => exact .inr ⟨rfl, rfl⟩

/-- The failure of checking is noted twice when a class is launched that was not made before. -/
theorem failure_noted_twice :
    ((start "break" "" "").through [.scan, .parse, .launch "no-such-java-launcher"]).errors.map
      Diagnostic.text = ["1:1: ill-typed program [T010]: 'break' outside a loop",
        "1:1: ill-typed program [T010]: 'break' outside a loop"] := by
  decide +kernel

end Compilation
end Kotlet

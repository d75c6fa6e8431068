import Kotlet.Proofs.ClassFile.Call.Shown
import Kotlet.Proofs.Emit.Class
import Kotlet.Proofs.Emit.Room.Class

/-!
# Classes of accepted programs

* `Checked.Typed.classOf` : what becomes of a well-typed program: a class whose methods are all
  verified, or a limit of the format that is exceeded;
* `Checked.Typed.generate_of_room` : where there is room for the program, a class is made;
* `Program.OfText.fails_cleanly` : so a text that can be parsed is never the fault of the compiler;
* `Checked.OfText.generate_verified` : the methods of the classes that are made.
-/

namespace Kotlet

open ClassFile Emit

theorem Checked.Typed.knows {c : Checked} (h : c.Typed) {env : Env}
    (hf : env.functions = c.functions)
    (hd : env.declared = c.functions.map fun f => f.name.name) :
    env.Knows (Kotlet.signatures c.functions) where
  signatures := by rw [hf]
  declared f hmem := by
    rw [hd, List.contains_iff_mem]
    exact List.mem_map_of_mem (hf ▸ hmem)
  word f hmem := (h.routine f (hf ▸ hmem)).elim fun _ ht => ht.word
  types f hmem t ht := by
    obtain ⟨r, htyped⟩ := h.routine f (hf ▸ hmem)
    obtain ⟨syms, hi, hps, htypes, -⟩ := htyped.body
    rw [htypes] at ht
    obtain ⟨sym, hsym, rfl⟩ := List.mem_map.mp ht
    have hΓ := (Context.nil r 1).params hps
    rw [List.append_nil] at hΓ
    exact ⟨hΓ.complete sym hsym, hΓ.hasValue sym hsym⟩
  result f hmem := (h.routine f (hf ▸ hmem)).elim fun _ ht => ht.complete

/-- What becomes of a well-typed program. -/
theorem Checked.Typed.classOf {c : Checked} (h : c.Typed) (g : Generator) :
    (∀ d, g.classOf c = .error d → d.code = .formatLimit) ∧
      ∀ cls, g.classOf c = .ok cls →
        cls.pool.Sound Plain ∧ ∀ m ∈ cls.methods, m.Verified cls.pool := by
  obtain ⟨hi, hscript⟩ := h.script
  have hnames : (c.program.functions.map fun f => f.name.name) =
      c.functions.map fun f => f.name.name := by rw [h.functions]
  have hknows : Env.Knows (Kotlet.signatures c.functions)
      ⟨g.unit, c.functions, c.program.functions.map fun f => f.name.name, .unit, none⟩ :=
    h.knows rfl hnames
  have hends := ends_allMethods (p := c.program) hknows
    (fun f hmem => h.routine f (h.functions ▸ hmem))
    (fun f hmem => by rw [List.contains_iff_mem]; exact List.mem_map_of_mem hmem)
    (hnames ▸ h.names) hscript
  unfold Generator.classOf
  cases hrun : allMethods c.program
      ⟨g.unit, c.functions, c.program.functions.map fun f => f.name.name, .unit, none⟩ .start with
  | error d =>
    refine ⟨fun d' hd' => ?_, fun cls hcls => ?_⟩
    · simp only [bind, Except.bind, hrun] at hd'
      exact Except.error.inj hd' ▸ hends.of_error hrun
    · simp only [bind, Except.bind, hrun] at hcls
      cases hcls
  | ok res =>
    obtain ⟨⟨⟩, s⟩ := res
    refine ⟨fun d' hd' => ?_, fun cls hcls => ?_⟩
    · simp only [bind, Except.bind, hrun, pure, Except.pure] at hd'
      cases hd'
    · simp only [bind, Except.bind, hrun, pure, Except.pure] at hcls
      obtain ⟨hpool, -, hmethods⟩ := hends.of_ok hrun
      exact Except.ok.inj hcls ▸ ⟨hpool, hmethods⟩

/-- A class is made of every well-typed program for which there is room. -/
theorem Checked.Typed.generate_of_room {c : Checked} (h : c.Typed) (hroom : c.program.room ≤ most)
    {unit : String} (hunit : Pool.IsShort unit) (major : UInt16) (source : SourceNote) :
    ∃ cls, ((⟨unit, major, source, false⟩ : Generator).generate c).1 = .ok cls := by
  have hends := Program.ends_allMethods hroom hunit
  have hlimit := (h.classOf ⟨unit, major, source, false⟩).1
  show ∃ cls, (⟨unit, major, source, false⟩ : Generator).classOf c = .ok cls
  unfold Generator.classOf at hlimit ⊢
  rw [h.functions] at hlimit ⊢
  cases hrun : allMethods c.program
      ⟨unit, c.program.functions, c.program.functions.map fun f => f.name.name, .unit, none⟩
      .start with
  | error d =>
    simp only [bind, Except.bind, hrun] at hlimit
    exact (hends.of_error hrun (hlimit d rfl)).elim
  | ok res =>
    simp only [bind, Except.bind, hrun]
    exact ⟨_, rfl⟩

/-! ## All programs -/

/-- A text that can be parsed is accepted or found ill-typed by the checker; what it accepts becomes a
class, or exceeds a limit of the format. -/
theorem Program.OfText.fails_cleanly {text : Text} {p : Program} (h : p.OfText text) :
    ((∃ c, p.check = .ok c) ∨ ∃ d, p.check = .error d ∧ d.stage = .typecheck) ∧
      ∀ c, p.check = .ok c → ∀ unit major source,
        (∃ cls, ((⟨unit, major, source, false⟩ : Generator).generate c).1 = .ok cls) ∨
          ∃ d, ((⟨unit, major, source, false⟩ : Generator).generate c).1 = .error d ∧
            d.code = .formatLimit := by
  obtain ⟨hok, herror⟩ := Program.check_typed h.wellFormed
  refine ⟨?_, fun c hc unit major source => ?_⟩
  · cases hcheck : p.check with
    | ok c => exact .inl ⟨c, rfl⟩
    | error d => exact .inr ⟨d, rfl, herror d hcheck⟩
  · have hclass := (hok c hc).classOf ⟨unit, major, source, false⟩
    cases hrun : (⟨unit, major, source, false⟩ : Generator).classOf c with
    | ok cls => exact .inl ⟨cls, hrun⟩
    | error d => exact .inr ⟨d, hrun, hclass.1 d hrun⟩

/-- A script with a loop, a branch and a function that captures a variable. -/
def countdownText : Text :=
  .ofString ("val k = 2\nval add = \x7b a: Int -> a + k \x7d\nvar n = 3\n" ++
    "while (n > 0) \x7b\nif (n == 1) \x7b println(add(n)) \x7d\nn -= 1\n\x7d\n")

theorem exists_countdown : ∃ c : Checked, c.OfText countdownText ∧ c.program.room ≤ most := by
  have hrun : ((Checked.ofText? countdownText).map fun c => decide (c.program.room ≤ most)) =
      some true := by decide +kernel
  obtain ⟨c, hc, hroom⟩ := Option.map_eq_some_iff.mp hrun
  exact ⟨c, Checked.ofText_of_eq_some hc, of_decide_eq_true hroom⟩

/-- A text that is accepted. -/
theorem Program.OfText.fails_cleanly_countdown : ∃ (p : Program) (c : Checked),
    p.OfText countdownText ∧ p.check = .ok c ∧
      ((∃ cls, ((Generator.start "Main").generate c).1 = .ok cls) ∨
        ∃ d, ((Generator.start "Main").generate c).1 = .error d ∧ d.code = .formatLimit) := by
  obtain ⟨c, ⟨p, hp, hc⟩, -⟩ := exists_countdown
  exact ⟨p, c, hp, hc, (Program.OfText.fails_cleanly hp).2 c hc _ _ _⟩

/-- All methods of a class that is made of an accepted program have bodies that make sense: on all paths
the instructions find what they need. They are listed completely against the pool of the class,
whatever is still added to it, and against any other pool whose constants can be shown. -/
theorem Checked.OfText.generate_verified {text : Text} {c : Checked} (h : c.OfText text)
    {g : Generator} {cls : ClassFile} (hg : (g.generate c).1 = .ok cls) :
    ∀ m ∈ cls.methods, ∃ args result is F, descriptorKinds? m.desc = some (args, result) ∧
      m.code.Framed cls.pool (if m.access.has .isStatic then args else .ref :: args) result is F ∧
      (∀ q, cls.pool.Requested q → q.error = none → ∀ x : ParsedClass, q.ReadAs x.pool →
        ∃ lines, x.instructions m.code.bytes = .ok lines ∧ x.ShowsAll is lines) ∧
      ∀ x : ParsedClass, x.Lists is (x.instructions m.code.bytes) := by
  intro m hm
  have hrun : g.classOf c = .ok cls := by
    unfold Generator.generate at hg
    split at hg
    · cases hg
    · exact hg
  obtain ⟨hpool, hmethods⟩ := (h.typed.classOf g).2 cls hrun
  obtain ⟨args, result, is, F, hdesc, hframed⟩ := hmethods m hm
  have hlists := ParsedClass.instructions_shown hframed.decodes
  refine ⟨args, result, is, F, hdesc, hframed, fun q hq he x hx => ?_, hlists⟩
  exact (hq.showable (hpool.imp fun _ _ => trivial) he hx).lists (hlists x)

/-- The methods of a class that is made. -/
theorem Checked.OfText.generate_verified_countdown :
    ∃ c : Checked, c.OfText countdownText ∧
      ∃ cls, ((Generator.start "Main").generate c).1 = .ok cls ∧
        ∀ m ∈ cls.methods, ∃ args result is F, descriptorKinds? m.desc = some (args, result) ∧
          m.code.Framed cls.pool (if m.access.has .isStatic then args else .ref :: args) result is F ∧
          (∀ q, cls.pool.Requested q → q.error = none → ∀ x : ParsedClass, q.ReadAs x.pool →
            ∃ lines, x.instructions m.code.bytes = .ok lines ∧ x.ShowsAll is lines) ∧
          ∀ x : ParsedClass, x.Lists is (x.instructions m.code.bytes) := by
  obtain ⟨c, hc, hroom⟩ := exists_countdown
  obtain ⟨cls, hcls⟩ := hc.typed.generate_of_room hroom (by decide : Pool.IsShort "Main")
    Generator.defaultMajor .derived
  exact ⟨c, hc, cls, hcls, Checked.OfText.generate_verified hc hcls⟩

end Kotlet

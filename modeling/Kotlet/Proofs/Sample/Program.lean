import Kotlet.Proofs.Parse.WellFormed
import Kotlet.Proofs.Sample.Compound
import Kotlet.Proofs.Sample.Whole
import Kotlet.Proofs.Syntax.Reformat

/-!
# Sample programs are valid

Every sample program is scanned, parsed and accepted by the checker, and it runs without a fault,
whatever bytes its choices are read off.

* `reads_funDecl` : functions as texts;
* `declares_parameters`, `leads_function`, `leads_functions` : the choices of functions;
* `makes_lastLine` : what is printed at the end;
* `leads_program` : whole programs;
* `program_valid` : they are valid.
-/

namespace Kotlet
namespace Sample

open Token (IsSpelling Free free_cons free_nil)
open Written (IsName Is Then Writes writes_nil lineEnds_nil)
open Grammar

variable {F F' : Arities} {S S' : List Var} {d : Draft} {c depth i k n : Nat} {text v : String}
  {E : Reading Expr} {inner : Reading Stmt}

/-! ## Functions -/

theorem paramVars_eq (ps : List Param) (S : List Var) :
    paramVars ps S = (ps.map fun p => p.name.name).foldl (fun S v => ⟨v, .number, false⟩ :: S) S := by
  induction ps generalizing S with
  | nil => rfl
  | cons p ps ih => exact ih _

/-- Fresh parameters by their names. -/
structure AreParameters (F : Arities) (S S' : List Var) (names : List String) : Prop where
  vars : S' = names.foldl (fun S v => ⟨v, .number, false⟩ :: S) S
  distinct : names.Nodup
  named : ∀ v ∈ names, IsName v
  fresh : ∀ v ∈ names, IsFresh F S v

theorem declares_parameters (n : Nat) : Declares F S (parameters n) fun texts S' =>
    ∃ names : List String, texts = names.map (· ++ ": Int") ∧ names.length = n ∧ AreParameters F S S' names := by
  induction n generalizing S with
  | zero => exact .pure ⟨[], rfl, rfl, rfl, .nil, nofun, nofun⟩
  | succ n ih =>
    unfold parameters
    refine declares_fresh "p" rfl (by decide) fun p hp hfresh => ih.bind fun texts S' htexts => .pure ?_
    obtain ⟨names, rfl, rfl, hvars, hdistinct, hnamed, hnames⟩ := htexts
    have hother : ∀ v ∈ names, IsFresh F S v ∧ v ≠ p := by
      intro v hv
      obtain ⟨hvars, hfunctions⟩ := hnames v hv
      obtain ⟨hp, hvars⟩ := List.forall_mem_cons.mp hvars
      exact ⟨⟨hvars, hfunctions⟩, fun heq => hp heq.symm⟩
    refine ⟨p :: names, rfl, rfl, hvars, List.nodup_cons.mpr ⟨fun hmem => (hother p hmem).2 rfl, hdistinct⟩, ?_, ?_⟩
    · exact List.forall_mem_cons.mpr ⟨hp, hnamed⟩
    · exact List.forall_mem_cons.mpr ⟨hfresh, fun v hv => (hother v hv).1⟩

/-- Parameters of type `Int`. -/
theorem reads_params {names : List String} (h : ∀ v ∈ names, IsName v) :
    Reads (", ".intercalate (names.map (· ++ ": Int"))) AreParams fun ps =>
      (ps.map fun p => p.name.name) = names ∧ ∀ p ∈ ps, p.ty = some .int := by
  by_cases hne : names = []
  · subst hne
    refine (writes_nil.mono ?_).of_eq (by simp)
    rintro _ rfl
    exact ⟨[], .nil, rfl, List.forall_mem_nil _⟩
  · have hcomma (t : Token) (ht : t.kind = .comma) : CommaLines [t] := .mk ht lineEnds_nil
    refine Writes.mono (writes_commas hcomma hne fun v hv => reads_typedParam (h v hv)) ?_
    rintro us ⟨ps, hread, hps⟩
    have hty : ∀ p ∈ ps, p.ty = some .int := forall_of_forall₂ (hps.imp fun _ _ h => h.2)
    refine ⟨ps, Written.areParams_of_separated hread fun p hp => by simp [hty p hp], ?_, hty⟩
    clear hread hty hcomma hne h
    induction hps with
    | nil => rfl
    | cons hp _ ih => rw [List.map_cons, hp.1, ih]

theorem reads_funDecl {names : List String} {Q : Block → Prop} (hv : IsName v) (hnames : ∀ v ∈ names, IsName v)
    (hdistinct : names.Nodup) (hb : Reads text (IsBlock inner) Q) :
    Reads ("fun " ++ v ++ "(" ++ ", ".intercalate (names.map (· ++ ": Int")) ++ "): Int " ++ text)
      (IsStatement E inner) fun s => ∃ tok id ps blk, s = .function (.mk tok id ps .int blk) ∧ id.name = v ∧
        (ps.map fun p => p.name.name) = names ∧ (∀ p ∈ ps, p.ty = some .int) ∧ Q blk := by
  have hfun : IsSpelling "fun" := by decide
  have hint : IsSpelling "Int" := by decide
  have hresult := (((Writes.keyword hb hint nofun).blank.lone (c := ':') rfl nofun).lone (c := ')') rfl nofun)
  have hparams := (Writes.append (reads_params hnames) hresult (free_cons rfl (by decide))).lone (c := '(') rfl nofun
  have hall := (Writes.append (writes_name hv) hparams (free_cons rfl (by decide))).keyword hfun nofun
  refine (hall.mono ?_).of_eq (by simp)
  rintro _ ⟨t, _, rfl, ht, _, _, rfl, ⟨x, rfl, hx, hname⟩, o, _, rfl, ho, us, _, rfl, ⟨ps, hps, hmap, hty⟩, z, _, rfl,
    hz, u, _, rfl, hu, w, vs, rfl, hw, blk, hblk, hQ⟩
  have hscalar : Parse.scalar? w.kind = some .int := by rw [hw.kind]; decide
  have hdecl : IsStatement E inner _ _ := .function ht.kind hx ho.kind lineEnds_nil hps (hmap ▸ hdistinct) hz.kind
    (.some hu.kind (.scalar hscalar)) lineEnds_nil hblk
  exact ⟨_, hdecl, t, _, ps, blk, rfl, hname, hmap, hty, hQ⟩

theorem reads_return {P : Expr → Prop} (he : Reads text E P) : Reads ("return " ++ text) (IsStatement E inner) fun s =>
    ∃ tok e, s = .ret tok (some e) ∧ P e := by
  have hspelling : IsSpelling "return" := by decide
  refine ((Writes.keyword he hspelling nofun).mono ?_).of_eq (by simp)
  rintro _ ⟨t, us, rfl, ht, e, hread, hP⟩
  exact ⟨_, .retValue ht.kind hread, t, e, rfl, hP⟩

/-- A text that is read as a function, whatever text stands behind it. -/
def ReadsFunction (depth : Nat) (F : Arities) (name : String) (count : Nat) (text : String) : Prop :=
  ∀ n, 8 ≤ n → ReadsAhead text (IsStmt (expressions depth) n) fun ss =>
    ∃ f, ss = [.function f] ∧ f.name.name = name ∧ f.params.length = count ∧ IsFunction F 54 f

theorem readsFunction_of_parts {names : List String} {result : String} (hv : IsName v)
    (hnames : AreParameters F [] S names) (hb : ReadsLines depth 7 F false 54 46 S S' text)
    (hr : ReadsNumber (stringAt (depth + 1)) F S' 3 30 result) :
    ReadsFunction depth F v names.length ("fun " ++ v ++ "(" ++ ", ".intercalate (names.map (· ++ ": Int")) ++
      "): Int \x7b\n" ++ text ++ "return " ++ result ++ "\n\x7d" ++ "\n") := by
  intro n hn
  obtain ⟨n, rfl⟩ : ∃ j, n = j + 2 := ⟨n - 2, by omega⟩
  have hreturn : Reads ("return " ++ result) (IsStmt (expressions depth) (n + 1)) _ := reads_return hr.whole
  have hblock := reads_block ((hb (n + 1) (by omega)).append hreturn.line)
  have hread : Reads _ (IsStmt (expressions depth) (n + 2)) _ :=
    reads_funDecl hv hnames.named hnames.distinct hblock
  have htext : "fun " ++ v ++ "(" ++ ", ".intercalate (names.map (· ++ ": Int")) ++ "): Int \x7b\n" ++ text ++
      "return " ++ result ++ "\n\x7d" ++ "\n" = "fun " ++ v ++ "(" ++ ", ".intercalate (names.map (· ++ ": Int")) ++
        "): Int " ++ ("\x7b\n" ++ (text ++ ("return " ++ result ++ "\n")) ++ "\x7d") ++ "\n" := by
    rw [← String.toList_inj]
    simp
  rw [htext]
  refine hread.line.mono ?_
  rintro _ ⟨_, rfl, tok, id, ps, _, rfl, hname, hps, hty, brace, _, close, rfl, ss, _, rfl, hss, _, rfl, tok', e, rfl,
    he⟩
  have hvars : S = paramVars ps [] := by rw [paramVars_eq, hps, hnames.vars]
  have hfresh : ∀ p ∈ ps, IsFresh F [] p.name.name :=
    fun p hp => hnames.fresh _ (hps ▸ List.mem_map_of_mem hp)
  refine ⟨_, rfl, hname, ?_, .mk (by decide) (by decide) hty (hps ▸ hnames.distinct) hfresh (hvars ▸ hss) he⟩
  rw [← hps, List.length_map]
  rfl

/-- A function is known by a fresh name afterwards, with what else was known before. -/
theorem leads_function (depth : Nat) (hd : d.Tidy F []) (hin : d.scopes = []) : Leads function d fun text d' =>
    ∃ name count, d'.Tidy ((name, count) :: F) [] ∧ d'.scopes = [] ∧ (∀ g ∈ F, g.1 ≠ name) ∧
      ReadsFunction depth F name count (text ++ "\n") := by
  unfold function
  rw [leads_bind]
  refine (leads_fresh hd "g" rfl (by decide)).mono ?_
  rintro name d₁ ⟨hk₁, hfresh, hnumbered⟩
  rw [leads_bind]
  refine (makes_draw 3 d₁ hk₁.tidy).mono ?_
  rintro count d₂ ⟨hk₂, hcount⟩
  have hscopes : d₂.scopes = [] := hk₂.scopes.trans (hk₁.scopes.trans hin)
  simp only [leads_bind, leads_get, leads_modify, leads_pure]
  have htidy : Draft.Tidy { d₂ with scopes := [] } F [] :=
    ⟨hk₂.tidy.functions, rfl, hk₂.tidy.named, hk₂.tidy.known⟩
  have hbody : Declares F [] (do
      let params ← parameters count
      let n ← draw 3
      let body ← times statement n
      let result ← int
      return "fun " ++ name ++ "(" ++ ", ".intercalate params ++ "): Int \x7b\n" ++ lines body ++
        "return " ++ result ++ "\n\x7d") fun text _ => ReadsFunction depth F name count (text ++ "\n") := by
    refine (declares_parameters count).bind fun params S htexts => (makes_draw 3).bindDeclares fun n hn => ?_
    obtain ⟨names, rfl, rfl, hnames⟩ := htexts
    refine ((composes_statement depth F).times n).bind fun body S' hbody =>
      (makes_int (stringAt (depth + 1))).bindDeclares fun result hresult => .pure ?_
    have hlt := hn (by decide)
    exact readsFunction_of_parts (isName_of_isNumbered hnumbered) hnames
      (hbody.mono (Nat.le_refl 7) (by omega) (Nat.le_refl 46)) hresult
  refine (makes_inScope hbody _ htidy).mono ?_
  rintro text d₃ ⟨hk₃, htext⟩
  refine ⟨name, count, ⟨?_, by simp [hscopes], List.forall_mem_nil _, ?_⟩, hscopes, fun g hg => hfresh.functions g hg, htext⟩
  · simp [hk₃.tidy.functions]
  · have hnext : d₁.next ≤ d₃.next := Nat.le_trans hk₂.next hk₃.next
    exact List.forall_mem_cons.mpr ⟨hnumbered.mono hnext, hk₃.tidy.known⟩

theorem leads_functions (depth n : Nat) : ∀ {F : Arities} {d : Draft}, d.Tidy F [] → d.scopes = [] →
    Leads (times function n) d fun texts d' => ∃ F', d'.Tidy F' [] ∧ d'.scopes = [] ∧ ∀ m, 8 ≤ m →
      ReadsAhead (lines texts) (IsStmt (expressions depth) m) fun ss =>
        ∃ fs : List FunDecl, ss = fs.map .function ∧ fs.length = n ∧ AreFunctions 54 F fs F' := by
  induction n with
  | zero => exact fun {F d} hd hin => ⟨F, hd, hin, fun m _ => readsAhead_nil ⟨[], rfl, rfl, .nil⟩⟩
  | succ n ih =>
    intro F d hd hin
    unfold times
    rw [leads_bind]
    refine (leads_function depth hd hin).mono ?_
    rintro text d₁ ⟨name, count, hd₁, hin₁, hne, htext⟩
    rw [leads_bind]
    refine (ih hd₁ hin₁).mono ?_
    rintro texts d₂ ⟨F', hd₂, hin₂, htexts⟩
    rw [leads_pure]
    refine ⟨F', hd₂, hin₂, fun m hm => ?_⟩
    rw [lines_cons]
    refine ((htext m hm).append (htexts m hm)).mono ?_
    rintro _ ⟨_, _, rfl, ⟨f, rfl, rfl, rfl, hf⟩, fs, rfl, rfl, hfs⟩
    exact ⟨f :: fs, rfl, rfl, .cons hf hne hfs⟩

/-! ## Programs -/

section LastLine

open Template (pieces)

/-- The end of a program with the name and value of a variable. -/
def ending (v : String) : String := "end " ++ v ++ "=$" ++ v

theorem pieces_ending (hv : IsName v) : pieces (ending v).toList =
    "end ".toList.map .char ++ (v.toList.map .char ++ ("=".toList.map .char ++ [.code v.toList])) := by
  have htext : (ending v).toList = "end ".toList ++ (v.toList ++ ("=".toList ++ '$' :: (v.toList ++ []))) := by
    simp [ending]
  rw [htext, pieces_plain (by decide), pieces_plain (isPlain_of_isName hv), pieces_plain (by decide),
    pieces_name hv (by simp)]
  simp [pieces, Template.piecesFrom]

theorem reads_ending (hv : IsName v) (hscope : InScope S .number v) :
    Reads ("\"" ++ ending v ++ "\"") (IsUnary (stringAt (depth + 1)) n) (IsPrinted F S 2) := by
  have hname : ReadsNumber (stringAt depth) F S 0 1 v := readsNumber_name hv hscope
  have hplain : ∀ c ∈ (ending v).toList, c ≠ '"' ∧ c ≠ '\\' := by
    simp only [ending, String.toList_append, List.forall_mem_append]
    exact ⟨⟨⟨by simp, unquoted_of_isName hv⟩, by simp⟩, unquoted_of_isName hv⟩
  have hread : Reads ("\"" ++ ending v ++ "\"") (IsUnary (stringAt (depth + 1)) n) _ :=
    reads_string (P := IsNumber F S 1) hplain ?_ fun code hcode t => ?_
  · refine hread.mono ?_
    rintro _ ⟨m, text, splices, rfl, horder, hsplices⟩
    exact .template (Nat.lt_succ_self 1) horder hsplices
  · rw [pieces_ending hv]
    simp [-String.toList_append]
  · have hcode' : code = v.toList := by
      rw [pieces_ending hv] at hcode
      simpa [-String.toList_append] using hcode
    exact hcode' ▸ templateWithin_of_readsNumber hname t

theorem makes_lastLine (depth : Nat) : Makes F S lastLine (ReadsLines depth 1 F false 0 46 S S) := by
  unfold lastLine
  refine (makes_visible .number false).bind fun names hnames => ?_
  split
  · have hread : Reads ("\"" ++ "end" ++ "\"") (expressions depth) (IsPrinted F S 2) := by
      refine ((reads_plainString (by decide)).sum.comparison.logical).mono ?_
      rintro _ ⟨m, text, rfl⟩
      exact .template (k := 1) (by decide) (by simp [Template.InOrder]) nofun
    exact .pure (((readsStmt_print hread).nested Nat.one_pos).lines.mono (Nat.le_refl 1) (Nat.le_refl 0) (by decide))
  · rename_i v _
    obtain ⟨hv, w, hw, -⟩ := hnames v List.mem_cons_self
    have hread : Reads ("\"" ++ ending v ++ "\"") (expressions depth) (IsPrinted F S 2) :=
      (reads_ending hv ⟨w, hw⟩).sum.comparison.logical
    have hline := (((readsStmt_print (b := false) hread).nested Nat.one_pos).lines).mono (Nat.le_refl 1)
      (Nat.le_refl 0) (show 3 ≤ 46 by decide)
    have htext : "println(" ++ ("\"" ++ ending v ++ "\"") ++ ")" ++ "\n" =
        "println(\"end " ++ v ++ "=$" ++ v ++ "\")\n" := by
      rw [← String.toList_inj]
      simp [ending]
    exact .pure (htext ▸ hline)

end LastLine

/-- The statements of a program: functions, and a script that comes behind them. -/
structure IsScript (stmts : List Stmt) (fs : List FunDecl) (ss : List Stmt) : Prop where
  stmts : stmts = fs.map .function ++ ss
  few : fs.length ≤ 2
  shape : ∃ F S, AreFunctions 54 [] fs F ∧ Follows F false 162 46 [] ss S

theorem leads_program (depth : Nat) (data : List UInt8) : Leads program (.start data) fun text _ =>
    Reads text (IsProgram (expressions depth)) fun stmts => ∃ fs ss, IsScript stmts fs ss := by
  have hstart : (Draft.start data).Tidy [] [] := ⟨rfl, rfl, nofun, nofun⟩
  unfold program
  rw [leads_bind]
  refine (makes_draw 3 _ hstart).mono ?_
  rintro count d₁ ⟨hk₁, hcount⟩
  rw [leads_bind]
  refine (leads_functions depth count hk₁.tidy hk₁.scopes).mono ?_
  rintro functions d₂ ⟨F, hd₂, -, hfunctions⟩
  have hbody : Declares F [] (do
      let n ← draw 6
      let statements ← times statement (n + 1)
      return lines functions ++ lines statements ++ (← lastLine)) fun text _ =>
        Reads text (IsProgram (expressions depth)) fun stmts => ∃ fs ss, IsScript stmts fs ss := by
    refine (makes_draw 6).bindDeclares fun n hn => ((composes_statement depth F).times (n + 1)).bind fun statements S
      hstatements => (makes_lastLine depth).bindDeclares fun last hlast => .pure ?_
    have hle : (n + 1) * 27 ≤ 162 := by
      have hlt := hn (by decide)
      omega
    have hscript := (hstatements.mono (Nat.le_succ 7) hle (Nat.le_refl 46)).append
      (hlast.mono (show 1 ≤ 8 by decide) (Nat.le_refl 0) (Nat.le_refl 46))
    have hall := ((hfunctions 8 (Nat.le_refl 8)).append (hscript 8 (Nat.le_refl 8))).areStmts
    refine (Writes.of_eq hall (by simp)).mono ?_
    rintro us ⟨_, hread, _, ss, rfl, ⟨fs, rfl, rfl, hfs⟩, hss⟩
    have hlt := hcount (by decide)
    exact ⟨_, .mk Written.separators_nil hread, fs, ss, rfl, by omega, F, S, hfs, hss⟩
  refine (makes_inScope hbody d₂ hd₂).mono ?_
  rintro text _ ⟨-, htext⟩
  exact htext

/-- Whatever the bytes are, the program is scanned, parsed and accepted by the checker, and its run ends
without a fault. -/
theorem program_valid (data : List UInt8) : ∃ tokens p c,
    Token.scan (program.run (.start data)).1.toList = .ok tokens ∧ Program.parse tokens = .ok p ∧
      p.check = .ok c ∧ c.run.failure = none := by
  have hreads (depth : Nat) := Writes.scan (leads_program depth data)
  -- the depth of the templates is known only once the text is scanned
  obtain ⟨tokens, -, hscan⟩ := hreads 0
  obtain ⟨depth, hdepth⟩ : ∃ depth, Parse.templateDepth tokens = depth + 1 :=
    Nat.exists_eq_succ_of_ne_zero (Nat.ne_of_gt (Written.templateDepth_pos tokens))
  obtain ⟨us, ⟨stmts, hread, fs, ss, hstmts, hfew, F, S, hfs, hss⟩, hscan'⟩ := hreads depth
  obtain rfl : tokens = us := Except.ok.inj (hscan.symm.trans hscan')
  have hparse : Program.parse tokens = .ok ⟨"", stmts⟩ := by
    refine Program.parse_iff_isProgram.mpr ⟨rfl, ?_⟩
    rw [expressions, ← hdepth] at hread
    exact hread
  obtain ⟨c, hcheck, hruns⟩ := check_program (Program.wellFormed_of_parse hscan hparse) hstmts hfs hss
  have hcalls : fs.length * (54 + 1) + 162 ≤ 272 := by omega
  have hsteps : (fs.length * (54 + 1) + 162) * span ≤ 272 * span := Nat.mul_le_mul_right span hcalls
  have hroom : 272 ≤ Machine.maxDepth := by decide
  have hfuel : 46 + 272 * span ≤ Eval.ampleFuel := by decide
  exact ⟨tokens, _, c, hscan, hparse, hcheck, hruns Eval.ampleFuel (by omega) (by omega)⟩

end Sample
end Kotlet

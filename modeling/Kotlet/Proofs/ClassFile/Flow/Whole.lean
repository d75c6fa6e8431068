import Mathlib.Data.List.Nodup
import Kotlet.Proofs.ClassFile.Flow.Label

/-!
# Whole bodies

* `Story.framed` : a body that ends gives shapes to all its instructions;
* `Flows.finish` : so does one that passes the last checks, which fail for a limit only.
-/

namespace Kotlet
namespace ClassFile

open ParsedClass Instr

namespace Code

variable {p : Pool} {entry result : List Kind} {f : Flow} {c : Code} {T : List Entry}

/-- No two instructions stand at one place. -/
theorem nodup_of_chain {a b : Nat} {T : List Placed} (h : Placed.Chain a T b) :
    (T.map Placed.at_).Nodup := by
  induction T generalizing a with
  | nil => exact List.nodup_nil
  | cons x T ih =>
    obtain ⟨hx, hs, hT⟩ := h
    refine List.nodup_cons.mpr ⟨fun hmem => ?_, ih hT⟩
    obtain ⟨y, hy, heq⟩ := List.mem_map.mp hmem
    have := hT.bounds y hy
    omega

/-- The shape at a place of a trace. -/
def shapeAt (T : List Entry) (o : Nat) : Shape :=
  ((T.find? fun e => e.1.at_ == o).map Prod.snd).getD ⟨[], fun _ => none⟩

theorem shapeAt_eq (h : ((T.map Prod.fst).map Placed.at_).Nodup) {e : Entry} (he : e ∈ T) :
    shapeAt T e.1.at_ = e.2 := by
  have hfind : ∃ x, T.find? (fun x => x.1.at_ == e.1.at_) = some x := by
    rw [← Option.isSome_iff_exists, List.find?_isSome]
    exact ⟨e, he, by simp⟩
  obtain ⟨x, hx⟩ := hfind
  have hat : x.1.at_ = e.1.at_ := by simpa using List.find?_some hx
  rw [List.map_map] at h
  have hxe : x = e := List.inj_on_of_nodup_map h (List.mem_of_find?_eq_some hx) he hat
  rw [shapeAt, hx, hxe]
  rfl

/-- In a body that ends nothing lands behind the last instruction. -/
theorem Lands.inside {o : Nat} {s : Shape} (h : Lands T f c o s) (hr : c.reachable = false) :
    ∃ e ∈ T, e.1.at_ = o ∧ e.2.Le s := by
  rcases h with h | ⟨-, hr', -⟩
  · exact h
  · rw [hr] at hr'
    cases hr'

theorem resolve_falls (c : Code) (i : Instr) : (c.resolve i).falls = i.falls := by
  cases i <;> rfl

theorem resolve_slot? (c : Code) (i : Instr) : (c.resolve i).slot? = i.slot? := by
  cases i <;> rfl

theorem resolve_step? (c : Code) (p : Pool) (result : List Kind) (s : Shape) (i : Instr) :
    (c.resolve i).step? p result s = i.step? p result s := by
  cases i <;> rfl

theorem resolve_interface {c : Code} {i : Instr} {k : UInt16} {count : UInt8}
    (h : c.resolve i = .interface k count) : i = .interface k count := by
  cases i <;> first | exact h | cases h

/-- A story of a body that ends gives shapes to all instructions. -/
theorem Story.framed (h : c.Story p entry result f T) (hr : c.reachable = false)
    (hsettled : ∀ l, (c.label l).pending = []) :
    c.Framed p entry result (T.map fun e => (e.1.at_, c.resolve e.1.instr)) (shapeAt T) := by
  have hnodup := nodup_of_chain h.traced.chain
  have hmem : ∀ o i, (o, i) ∈ T.map (fun e => (e.1.at_, c.resolve e.1.instr)) →
      ∃ e ∈ T, e.1.at_ = o ∧ c.resolve e.1.instr = i := by
    intro o i hi
    obtain ⟨e, he, heq⟩ := List.mem_map.mp hi
    exact ⟨e, he, congrArg Prod.fst heq, congrArg Prod.snd heq⟩
  have hland : ∀ {o s}, Lands T f c o s →
      (∃ j, (o, j) ∈ T.map fun e => (e.1.at_, c.resolve e.1.instr)) ∧ (shapeAt T o).Le s := by
    intro o s hl
    obtain ⟨e, he, rfl, hle⟩ := hl.inside hr
    rw [shapeAt_eq hnodup he]
    exact ⟨⟨_, List.mem_map_of_mem he⟩, hle⟩
  refine ⟨?_, hland h.entry, fun o i hi => ?_, fun o i hi => ?_, fun o i hi slot hs => ?_,
    fun o i count hi => ?_⟩
  · rw [h.traced.decodeAll hsettled, List.map_map]
    rfl
  · obtain ⟨e, he, rfl, rfl⟩ := hmem o i hi
    obtain ⟨after, hs⟩ := h.sits e he
    rw [shapeAt_eq hnodup he]
    refine ⟨e.1.size, after, decode_resolve h.traced hsettled (List.mem_map_of_mem he),
      (resolve_step? ..).trans hs.step, fun next hnext => ?_⟩
    rcases List.mem_append.mp hnext with hnext | hnext
    · rw [resolve_falls] at hnext
      split at hnext
      · rename_i hf
        obtain rfl := List.mem_singleton.mp hnext
        exact hland (hs.falls hf)
      · cases hnext
    · cases hinstr : e.1.instr with
      | branch op l =>
        rw [hinstr] at hnext
        obtain rfl := List.mem_singleton.mp hnext
        obtain ⟨hd, mark, hmark, hle⟩ := hs.branches op l hinstr
        cases ho : (c.label l).offset with
        | none =>
          have := h.traced.pending e.1 (List.mem_map_of_mem he) op l hinstr ho
          rw [hsettled] at this
          cases this
        | some t =>
          obtain ⟨hj, hle'⟩ := hland (h.bound l mark t hmark ho hd)
          exact ⟨hj, hle'.trans hle⟩
      | _ =>
        rw [hinstr] at hnext
        cases hnext
  · obtain ⟨e, he, rfl, rfl⟩ := hmem o i hi
    obtain ⟨after, hs⟩ := h.sits e he
    rw [shapeAt_eq hnodup he]
    exact hs.stack
  · obtain ⟨e, he, rfl, rfl⟩ := hmem o i hi
    obtain ⟨after, hsits⟩ := h.sits e he
    rw [resolve_slot?] at hs
    exact hsits.locals slot hs
  · obtain ⟨e, he, rfl, heq⟩ := hmem o _ hi
    obtain ⟨after, hs⟩ := h.sits e he
    exact hs.counts i count (resolve_interface heq)

/-- The last checks of a body that ends and whose labels all have their places. -/
theorem Flows.finish (h : c.Flows p entry result f) (ho : f.opens = []) (hl : f.live = false) :
    (∀ e, (c.finish (List.range c.labels.size)).error = some e → e.isLimit = true) ∧
      ((c.finish (List.range c.labels.size)).error = none → p.error = none →
        ∃ is F, (c.finish (List.range c.labels.size)).Framed p entry result is F) := by
  have hr := h.live hl
  have hsettled : ∀ l, (c.label l).pending = [] := by
    intro l
    by_cases hlt : l < c.labels.size
    · refine h.labels.settled l fun hnone => ?_
      have := (h.labels.opens l).mpr ⟨h.labels.size ▸ hlt, hnone⟩
      rw [ho] at this
      cases this
    · have hd : c.label l = default := by simp [label, hlt]
      rw [hd]
      rfl
  have hpos := h.nonempty hr
  have hfinish : c.finish (List.range c.labels.size) =
      if 65535 < c.size then c.fail (.longBody c.size) else c := by
    have hany : ((List.range c.labels.size).any fun l => !(c.label l).pending.isEmpty) = false := by
      simp [hsettled]
    simp only [Code.finish, hany, Bool.false_eq_true, if_false,
      if_neg (show ¬ c.size = 0 by unfold size; omega)]
  rw [hfinish]
  by_cases hsize : 65535 < c.size
  · rw [if_pos hsize]
    have hlim := OnlyLimits.fail c (e := .longBody c.size) rfl
    exact ⟨fun e he => (hlim.2 e he).elim (h.limits e) id, fun he => absurd he (fail_error c _)⟩
  · rw [if_neg hsize]
    refine ⟨h.limits, fun he hp => ?_⟩
    obtain ⟨T, hT⟩ := h.story hp he
    exact ⟨_, _, hT.framed hr hsettled⟩

end Code
end ClassFile
end Kotlet

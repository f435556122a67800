import ServiceReach.Proofs.Index.Numbering
import ServiceReach.Proofs.Index.Shape
import ServiceReach.Proofs.Text.Lines
import ServiceReach.Proofs.Text.Words

/-
  The texts of instructions. Whatever a source file holds, the text of an instruction is one line:
  a stretch of source is squashed before it becomes one (`oneLine_squash`), and what is added to it
  holds no line break. Every step that a plan emits has such a text, so every body that is worked
  off has only such instructions.
-/

namespace ServiceReach

theorem Text.oneLine_squash (s : String) : OneLine (squash s) := by
  refine not_mem_intercalate (by decide) fun word hword hbreak => ?_
  have hvisible : '\n' ∈ visible s := by
    rw [← flatMap_toList_words]
    exact List.mem_flatMap.mpr ⟨word, hword, hbreak⟩
  exact absurd (List.mem_filter.mp hvisible).2 (by decide)

/-- Every instruction has a text of one line. -/
def OneLineTexts (code : List Instruction) : Prop :=
  ∀ i ∈ code, Text.OneLine i.text

theorem OneLineTexts.concat {code : List Instruction} {i : Instruction} (h : OneLineTexts code)
    (hi : Text.OneLine i.text) : OneLineTexts (code ++ [i]) :=
  List.forall_mem_append.mpr ⟨h, List.forall_mem_singleton.mpr hi⟩

namespace Index

open Source Trail

/-- If the step adds an instruction, the text of it is one line. -/
def Step.OneLine : Step → Prop
  | .emit _ text _ _ => Text.OneLine text
  | _ => True

theorem oneLine_visits (ts : List Tree) : ∀ s ∈ ts.map Step.visit, s.OneLine :=
  List.forall_mem_map.mpr fun _ _ => trivial

namespace Place

variable (p : Place)

theorem oneLine_emitNode (t : Tree) (kind : InstructionKind) : (p.emitNode t kind).OneLine :=
  Text.oneLine_squash _

theorem oneLine_doSteps (t : Tree) : ∀ s ∈ p.doSteps t, s.OneLine := by
  intro s hs
  rcases List.mem_append.mp hs with hs | hs
  · rcases List.mem_append.mp hs with hs | hs
    · rw [List.mem_singleton.mp hs]
      exact (by decide : Text.OneLine "do")
    · exact oneLine_visits _ s hs
  · rw [List.mem_singleton.mp hs]
    exact Text.oneLine_append.mpr ⟨by decide, Text.oneLine_squash _⟩

theorem oneLine_switchGroup {mark : String} (hmark : Text.OneLine mark) (t : Tree) :
    ∀ s ∈ p.switchGroup mark t, s.OneLine := by
  intro s hs
  rcases List.mem_append.mp hs with hs | hs
  · obtain ⟨label, _, rfl⟩ := List.mem_map.mp hs
    exact Text.oneLine_append.mpr ⟨Text.oneLine_squash _, hmark⟩
  · exact oneLine_visits _ s hs

theorem oneLine_headerVariables (t : Tree) : ∀ s ∈ p.headerVariables t, s.OneLine := by
  intro s hs
  rcases mem_headerVariables p hs with ⟨name, type, rfl⟩ | ⟨c, _, rfl⟩
  · trivial
  · trivial

theorem oneLine_plan (t : Tree) : ∀ s ∈ p.plan t, s.OneLine := by
  intro s hs
  unfold plan at hs
  split at hs
  case isTrue => exact oneLine_visits _ s hs
  case isFalse =>
    split at hs
    case isTrue => cases hs
    case isFalse =>
      split at hs
      case h_1 => exact oneLine_visits _ s hs
      case h_2 =>
        rcases List.mem_cons.mp hs with rfl | hs
        · exact p.oneLine_emitNode t _
        · rw [List.mem_singleton.mp hs]
          trivial
      case h_3 =>
        rw [List.mem_singleton.mp hs]
        exact p.oneLine_emitNode t _
      case h_4 => exact p.oneLine_doSteps t s hs
      case h_5 => exact p.oneLine_switchGroup (by decide) t s hs
      case h_6 => exact p.oneLine_switchGroup (by decide) t s hs
      case h_7 =>
        split at hs
        case h_1 =>
          rcases List.mem_cons.mp hs with rfl | hs
          · exact Text.oneLine_squash _
          · rcases List.mem_append.mp hs with hs | hs
            · exact p.oneLine_headerVariables t s hs
            · exact oneLine_visits _ s hs
        case h_2 =>
          rw [List.mem_singleton.mp hs]
          exact p.oneLine_emitNode t _

/-! ## Bodies -/

theorem emit_oneLineTexts {b : Body} (hb : OneLineTexts b.code) (line : Nat) {text : String}
    (htext : Text.OneLine text) (scan : List Tree) (kind : InstructionKind) :
    Ensures (p.emit b line text scan kind) fun b => OneLineTexts b.code :=
  (Ensures.trivial _).bind fun _ _ => Ensures.pure (hb.concat htext)

theorem run_oneLineTexts (fuel : Nat) {steps : List Step} (hsteps : ∀ s ∈ steps, s.OneLine)
    {b : Body} (hb : OneLineTexts b.code) :
    Ensures (p.run fuel steps b) fun b => OneLineTexts b.code := by
  induction fuel generalizing steps b with
  | zero => exact Ensures.pure hb
  | succ fuel ih =>
    cases steps with
    | nil => exact Ensures.pure hb
    | cons step rest =>
      rw [List.forall_mem_cons] at hsteps
      cases step with
      | visit t => exact ih (List.forall_mem_append.mpr ⟨p.oneLine_plan t, hsteps.2⟩) hb
      | emit line text scan kind =>
        exact (p.emit_oneLineTexts hb line hsteps.1 scan kind).bind fun _ hb' => ih hsteps.2 hb'
      | declare t =>
        exact (p.declare_code b t).bind fun b' hb' => ih hsteps.2 (hb' ▸ hb)
      | bind name type => exact ih hsteps.2 hb

theorem closeCode_oneLineTexts {code : List Instruction} (h : OneLineTexts code) (m : Method) :
    OneLineTexts (closeCode m code) := by
  unfold closeCode
  split
  case isTrue => exact h.concat (by decide : Text.OneLine "return")
  case isFalse => exact h

theorem lower_oneLineTexts (m : Method) (params : List (String × String)) (body : List Tree) :
    Ensures (p.lower m params body) OneLineTexts :=
  (p.run_oneLineTexts _ (oneLine_visits body) fun _ hi => absurd hi List.not_mem_nil).bind
    fun _ hb => Ensures.pure (closeCode_oneLineTexts hb m)

end Place

/-! ## Programs -/

namespace Catalog

theorem lowerMethod_oneLineTexts (c : Catalog) (p : Program) (d : Declaration) {m : LinkedMethod}
    (hm : m.method.code = []) : OneLineTexts (c.lowerMethod p d m).value.1.code := by
  rcases c.lowerMethod_cases p d m with heq | ⟨body, code, _, hlower, heq⟩
  · rw [heq, hm]
    exact fun _ hi => absurd hi List.not_mem_nil
  · rw [heq]
    exact (c.place p d m.method).lower_oneLineTexts m.method m.params body code hlower

/-- In the program of a catalog every instruction has a text of one line. -/
theorem oneLineTexts_build {c : Catalog} (h : c.names.Nodup) {m : Method}
    (hm : m ∈ c.build.program.methods) : OneLineTexts m.code := by
  obtain ⟨t, ht, hm⟩ := List.mem_flatMap.mp hm
  rw [types_build h] at ht
  obtain ⟨l, hl, rfl⟩ := List.mem_map.mp ht
  rw [methods_lowered] at hm
  obtain ⟨n, hn, rfl⟩ := List.mem_map.mp hm
  obtain ⟨d, _, rfl⟩ := List.mem_map.mp hl
  exact c.lowerMethod_oneLineTexts c.heads _ (d.code_link c c.scopes hn)

end Catalog
end Index
end ServiceReach

import Mathlib.Data.Finset.Card
import ServiceReach.Trace.Extraction

/-
  The walk over a call graph as a recursion. `walk` has no stack, no shared buffer and no step
  count: a method that is not open and has instructions appends them to the trace one by one,
  visits the callees of each with itself among the open methods, and completes a trace at each
  return. The graph may be cyclic. The recursion ends because every callee is a target of the graph
  and every level opens a signature that was not open (`depthLeft_lt`).
-/

namespace ServiceReach

/-! ## What a walk can meet -/

theorem CallGraph.mem_edges_of_mem_targets {g : CallGraph} {s : CallSite} {m : Method}
    (h : m ∈ g.targets s) : (s, m) ∈ g.edges := by
  unfold CallGraph.targets at h
  unfold CallGraph.edges
  cases hl : g.sites.lookup s with
  | none => simp [hl] at h
  | some ts =>
    rw [hl, Option.getD_some] at h
    obtain ⟨l₁, l₂, hsites, _⟩ := List.lookup_eq_some_iff.mp hl
    rw [List.mem_flatMap]
    refine ⟨(s, ts), ?_, List.mem_map.mpr ⟨m, h, rfl⟩⟩
    rw [hsites]
    simp

/-- The signatures of the methods that some call site of the graph may call. -/
def CallGraph.targetNames (g : CallGraph) : Finset String :=
  (g.edges.map fun e => e.2.signature).toFinset

theorem CallGraph.card_targetNames_le (g : CallGraph) : g.targetNames.card ≤ g.edges.length := by
  unfold CallGraph.targetNames
  have := List.toFinset_card_le (g.edges.map fun e => e.2.signature)
  rwa [List.length_map] at this

namespace Extraction

variable {v : View} {g : CallGraph}

theorem mem_callees {i : Instruction} {c : Method} :
    c ∈ callees v g i ↔
      (∃ s ∈ i.calls, c ∈ g.targets s) ∧ v.isApplication (some c.owner) = true := by
  unfold callees
  rw [List.mem_filter, List.mem_flatMap]

theorem mem_edges_of_mem_callees {i : Instruction} {c : Method} (h : c ∈ callees v g i) :
    ∃ s ∈ i.calls, (s, c) ∈ g.edges := by
  obtain ⟨⟨s, hs, hc⟩, _⟩ := mem_callees.mp h
  exact ⟨s, hs, CallGraph.mem_edges_of_mem_targets hc⟩

theorem signature_mem_targetNames {i : Instruction} {c : Method} (h : c ∈ callees v g i) :
    c.signature ∈ g.targetNames := by
  obtain ⟨s, _, hc⟩ := mem_edges_of_mem_callees h
  exact List.mem_toFinset.mpr (List.mem_map.mpr ⟨(s, c), hc, rfl⟩)

/-- A bound on how many methods deep a walk that is about to enter `m` can still go: the targets
    that are not open, and `m` itself if it is no target. -/
def depthLeft (g : CallGraph) (m : Method) (opened : List String) : Nat :=
  (g.targetNames \ opened.toFinset).card + if m.signature ∈ g.targetNames then 0 else 1

/-- Entering a method that is not open leaves less room to each of its callees. -/
theorem depthLeft_lt {m c : Method} {i : Instruction} {opened : List String}
    (hm : m.signature ∉ opened) (hc : c ∈ callees v g i) :
    depthLeft g c (m.signature :: opened) < depthLeft g m opened := by
  unfold depthLeft
  rw [if_pos (signature_mem_targetNames hc), Nat.add_zero, List.toFinset_cons]
  have hsub : g.targetNames \ insert m.signature opened.toFinset ⊆
      g.targetNames \ opened.toFinset :=
    Finset.sdiff_subset_sdiff (Finset.Subset.refl _) (Finset.subset_insert _ _)
  by_cases ht : m.signature ∈ g.targetNames
  · rw [if_pos ht, Nat.add_zero]
    refine Finset.card_lt_card (Finset.ssubset_iff_subset_ne.mpr ⟨hsub, ?_⟩)
    intro he
    have hmem : m.signature ∈ g.targetNames \ opened.toFinset := by
      simp [ht, hm]
    rw [← he] at hmem
    simp at hmem
  · rw [if_neg ht]
    have := Finset.card_le_card hsub
    omega

theorem depthLeft_pos {m : Method} {opened : List String} (hm : m.signature ∉ opened) :
    0 < depthLeft g m opened := by
  unfold depthLeft
  by_cases ht : m.signature ∈ g.targetNames
  · have hmem : m.signature ∈ g.targetNames \ opened.toFinset := by simp [ht, hm]
    have := Finset.card_pos.mpr ⟨_, hmem⟩
    omega
  · rw [if_neg ht]
    omega

theorem depthLeft_le (g : CallGraph) (entry m : Method) (opened : List String) :
    depthLeft g m opened ≤ (candidates g entry).length := by
  have h1 : (g.targetNames \ opened.toFinset).card ≤ g.targetNames.card :=
    Finset.card_le_card Finset.sdiff_subset
  have h2 := g.card_targetNames_le
  have h3 : (candidates g entry).length = g.edges.length + 1 := by simp [candidates]
  unfold depthLeft
  split <;> omega

/-! ## The recursion -/

/-- Goes through instructions: the text of each is appended to the trace, then it is visited. -/
def scan (visit : List String → Instruction → List Trace) :
    List String → List Instruction → List Trace
  | _, [] => []
  | trace, i :: rest =>
    visit (trace ++ [i.text]) i ++ scan visit (trace ++ [i.text]) rest

/-- The trace that the instruction `i` of `m` completes, if it is a return. -/
def completed (entry m : Method) (trace : List String) (i : Instruction) : List Trace :=
  if i.isReturn then [⟨entry, m, trace⟩] else []

/-- The traces of a walk that comes to `m` with a trace so far and some methods open. -/
def walk (v : View) (g : CallGraph) (entry m : Method) (trace opened : List String) :
    List Trace :=
  if _h : m.signature ∈ opened ∨ m.instructions = [] then []
  else
    scan (fun trace i =>
      ((callees v g i).attach.flatMap fun c => walk v g entry c.1 trace (m.signature :: opened)) ++
        completed entry m trace i) trace m.instructions
termination_by depthLeft g m opened
decreasing_by exact depthLeft_lt (fun hm => _h (Or.inl hm)) c.2

/-- What a walk does at one instruction of `m`: the callees in order, then the return. -/
def visit (v : View) (g : CallGraph) (entry m : Method) (opened : List String)
    (trace : List String) (i : Instruction) : List Trace :=
  ((callees v g i).flatMap fun c => walk v g entry c trace (m.signature :: opened)) ++
    completed entry m trace i

theorem walk_of_leaf {entry m : Method} {trace opened : List String}
    (h : m.signature ∈ opened ∨ m.instructions = []) : walk v g entry m trace opened = [] := by
  rw [walk, dif_pos h]

theorem walk_of_enter {entry m : Method} {trace opened : List String}
    (h : ¬ (m.signature ∈ opened ∨ m.instructions = [])) :
    walk v g entry m trace opened =
      scan (visit v g entry m opened) trace m.instructions := by
  rw [walk, dif_neg h]
  congr 1
  funext trace i
  unfold visit
  congr 1
  rw [List.flatMap_subtype (g := fun c => walk v g entry c trace (m.signature :: opened))
    (fun c hc => rfl), List.unattach_attach]

end Extraction
end ServiceReach

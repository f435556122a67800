import ServiceReach.Analysis
import ServiceReach.Proofs.CallGraph.Closure
import ServiceReach.Proofs.EntryPoint.Identify
import ServiceReach.Proofs.Index.Files
import ServiceReach.Proofs.Index.Numbering
import ServiceReach.Proofs.Model.Program
import ServiceReach.Proofs.Trace.Frames

/-
  What an analysis of an indexed program guarantees. Identification, the call graph and the walks
  meet in signatures: a call names its caller by signature, the graph holds the reached methods by
  signature, and a walk follows the edges of the calls that it meets. In an indexed program they
  agree: every call names the method that it stands in, so the source of every edge is a reached
  method, and the methods that are open while a walk goes on are reached methods too.
-/

namespace ServiceReach

/-! ## Explorations -/

namespace Program

variable {p : Program} {entries : List Method}

theorem traces_explore (p : Program) (entries : List Method) :
    (p.explore entries).traces =
      Extraction.extractAll (.ofProgram p) (CallGraph.build p entries) entries := by
  unfold Exploration.traces explore
  simp only [List.map_map]
  rfl

theorem count_explore (p : Program) (entries : List Method) :
    (p.explore entries).count =
      Extraction.extractAllCount (.ofProgram p) (CallGraph.build p entries) entries := by
  unfold explore
  simp only [List.foldl_map]
  rfl

theorem method?_build {m : Method} (h : m ∈ (CallGraph.build p entries).reachable) :
    (CallGraph.build p entries).method? m.signature = some m :=
  (find?_name_eq_some_iff (CallGraph.invariant_build p entries).distinct).mpr ⟨h, rfl⟩

theorem isReachable_of_mem_edges {s : CallSite} {t : Method}
    (h : (s, t) ∈ (CallGraph.build p entries).edges) :
    (CallGraph.build p entries).isReachable t = true := by
  have hleast := CallGraph.leastClosed_of_invariant (CallGraph.invariant_build p entries)
  obtain ⟨m, hm, hs, ht⟩ := hleast.sound s t h
  exact (hleast.closed m hm s hs t ht).2

end Program

/-! ## Results -/

/-- The result of an analysis of a program holds together. -/
structure Analysis.Coherent (p : Program) (a : Analysis) : Prop where
  nonempty : a.entries ≠ []
  distinct : Method.Distinct a.entries
  /-- Every edge starts at a call of a reached method, and the call names that method. -/
  source : ∀ s t, (s, t) ∈ a.exploration.graph.edges →
    ∃ m, s.caller = some m.signature ∧ a.exploration.graph.method? m.signature = some m ∧
      s ∈ m.sites
  /-- Every trace is completed in a state of the walk from one of the entry methods. The innermost
      method there is the terminus, and the methods that are open there are reached, each open
      once. -/
  trace : ∀ t ∈ a.exploration.traces, t.entry ∈ a.entries ∧
    a.exploration.graph.isReachable t.terminus = true ∧
    ∃ s f rest, Extraction.CompletedIn (.ofProgram p) a.exploration.graph t.entry t s ∧
      s.stack = f :: rest ∧ f.method = t.terminus ∧
      (∀ f ∈ s.stack, a.exploration.graph.isReachable f.method = true) ∧
      (s.stack.map fun f => f.method.signature).Nodup
  count : a.exploration.count = a.exploration.traces.length

theorem View.EntryMethods.coherent {p : Program} {entries : List Method}
    (h : View.EntryMethods p entries)
    (hcaller : ∀ m ∈ p.methods, ∀ s ∈ m.sites, s.caller = some m.signature)
    (diagnostics : List Diagnostic) (usedFallback : Bool) :
    Analysis.Coherent p ⟨entries, diagnostics, usedFallback, p.explore entries⟩ where
  nonempty := h.nonempty
  distinct := h.distinct
  source := by
    intro s t hedge
    have hinvariant := CallGraph.invariant_build p entries
    obtain ⟨m, hm, hs, _⟩ := (CallGraph.leastClosed_of_invariant hinvariant).sound s t hedge
    have hmethod : m ∈ p.methods := by
      rcases List.mem_append.mp (hinvariant.mem_pool hm) with hentry | hmethod
      · exact h.declared m hentry
      · exact hmethod
    exact ⟨m, hcaller m hmethod s hs, Program.method?_build hm, hs⟩
  trace := by
    intro t ht
    rw [Program.traces_explore, Extraction.extractAll_eq_flatMap] at ht
    obtain ⟨e, he, ht⟩ := List.mem_flatMap.mp ht
    obtain ⟨s, hs⟩ := Extraction.completedIn_of_mem_extract ht
    obtain ⟨rfl, f, rest, hstack, hterminus⟩ := hs.terminus
    -- The walk starts at a reached method and follows edges, whose targets are reached.
    have hentry : (CallGraph.build p entries).isReachable t.entry = true :=
      (CallGraph.leastClosed_of_invariant (CallGraph.invariant_build p entries)).entry _ he
    have hframed := hs.framed (S := fun m => (CallGraph.build p entries).isReachable m = true)
      hentry fun i c hc => by
        obtain ⟨site, _, hedge⟩ := Extraction.mem_edges_of_mem_callees hc
        exact Program.isReachable_of_mem_edges hedge
    refine ⟨he, ?_, s, f, rest, hs, hstack, hterminus.symm, hframed.inside,
      hframed.opened ▸ hframed.distinct⟩
    rw [hterminus]
    exact hframed.inside f (by rw [hstack]; exact List.mem_cons_self)
  count := by
    rw [Program.count_explore, Program.traces_explore, Extraction.extractAllCount_eq_length]

namespace Index.Indexer

theorem caller_of_mem_sites {room : Nat} {files : List File} {m : Method}
    (hm : m ∈ (ofFiles room files).build.1.program.methods) {s : CallSite} (hs : s ∈ m.sites) :
    s.caller = some m.signature := by
  rw [build_ofFiles] at hm
  exact (Catalog.isNumbered_build (nodup_names_ofFiles room files) hm).caller hs

/-- The analysis of an indexed program says that there are no entry methods, and then no strategy
    finds one and there are no graph and no traces, or it has a result that holds together. -/
theorem analyze_ofFiles (room : Nat) (files : List File) (h : Heuristics) :
    ((∀ s, ((View.ofProgram (ofFiles room files).build.1.program).collect h s).found = .ok []) ∧
      ∃ diagnostics, (ofFiles room files).build.1.program.analyze h =
        .error (.noEntryPoints diagnostics)) ∨
      ∃ a, (ofFiles room files).build.1.program.analyze h = .ok a ∧
        a.Coherent (ofFiles room files).build.1.program := by
  unfold Program.analyze
  rcases View.identify_entries (ofFiles room files).build.1.program h {} with
    ⟨hnothing, diagnostics, hnone⟩ | ⟨entries, hentries, hmethods⟩
  · simp only [hnone]
    refine Or.inl ⟨fun s => hnothing s ?_, diagnostics, rfl⟩
    cases s <;> decide
  · simp only [hentries]
    exact Or.inr ⟨_, rfl, hmethods.coherent (fun _ hm _ hs => caller_of_mem_sites hm hs) _ _⟩

end Index.Indexer
end ServiceReach

import ServiceReach.CallGraph.Build
import ServiceReach.EntryPoint.Identify
import ServiceReach.Trace.Extraction

/-
  The analysis of a program: entry methods are identified, the call graph is built from them, and
  the traces of each entry method are extracted. Without entry methods there is no graph and no
  trace.
-/

namespace ServiceReach

/-- The call graph from some entry methods on, and the traces of each of them. -/
structure Exploration where
  graph : CallGraph
  found : List (Method × List Trace)
  /-- The number of traces that the walks counted. -/
  count : Nat

/-- All traces, entry by entry. -/
def Exploration.traces (x : Exploration) : List Trace :=
  x.found.flatMap (·.2)

/-- Explores a program from some entry methods. -/
def Program.explore (p : Program) (entries : List Method) : Exploration :=
  let graph := CallGraph.build p entries
  let ends := entries.map fun e => (e, Extraction.finalState (.ofProgram p) graph e)
  { graph
    found := ends.map fun (e, s) => (e, s.emitted.reverse)
    count := ends.foldl (fun total (_, s) => total + s.count) 0 }

/-- What is said about an exploration before its traces are extracted. -/
def Exploration.openingRecords (x : Exploration) : List LogRecord :=
  [⟨.info, .analysis,
      "Building Call Graph for " ++ toString x.found.length ++ " entry points..."⟩,
   x.graph.buildRecord,
   ⟨.info, .analysis, "Starting Path Extraction..."⟩]

/-- What an analysis brings. -/
structure Analysis where
  entries : List Method
  diagnostics : List Diagnostic
  usedFallback : Bool
  exploration : Exploration

/-- Analyses a program. -/
def Program.analyze (p : Program) (h : Heuristics) : Except IdentifyError Analysis :=
  let i := (View.ofProgram p).identify h {}
  match i.entries with
  | .error e => .error e
  | .ok entries => .ok ⟨entries, i.diagnostics, i.usedFallback, p.explore entries⟩

end ServiceReach

import ServiceReach.Model.Basic

/-
  Call graphs. A graph knows the methods that can be reached, in the order in which they were
  reached, and for each call site the methods it may call. Two call sites are the same only if they
  agree in everything; a site never has two targets of one signature.
-/

namespace ServiceReach

/-- The reachable methods and the targets of call sites. -/
structure CallGraph where
  sites : List (CallSite × List Method) := []
  reachable : List Method := []

namespace CallGraph

/-- The list of sites with a target added to one of them. -/
def addTarget (site : CallSite) (target : Method) :
    List (CallSite × List Method) → List (CallSite × List Method)
  | [] => [(site, [target])]
  | (s, targets) :: rest =>
    if s = site then (s, Method.insertNew targets target) :: rest
    else (s, targets) :: addTarget site target rest

/-- Adds an edge, unless it is there. -/
def addEdge (g : CallGraph) (site : CallSite) (target : Method) : CallGraph :=
  { g with sites := addTarget site target g.sites }

/-- The reached method with a given signature. -/
def method? (g : CallGraph) (signature : String) : Option Method :=
  g.reachable.find? fun m => m.signature == signature

/-- Whether a method of this signature was reached. -/
def isReachable (g : CallGraph) (m : Method) : Bool :=
  g.reachable.any (·.same m)

/-- Marks a method as reached; the first method of a signature is kept. -/
def mark (g : CallGraph) (m : Method) : CallGraph :=
  { g with reachable := Method.insertNew g.reachable m }

/-- The targets of a call site. -/
def targets (g : CallGraph) (site : CallSite) : List Method :=
  (g.sites.lookup site).getD []

/-- All edges, site by site. -/
def edges (g : CallGraph) : List (CallSite × Method) :=
  g.sites.flatMap fun (site, targets) => targets.map (site, ·)

/-- The number of edges. -/
def size (g : CallGraph) : Nat :=
  g.edges.length

end CallGraph
end ServiceReach

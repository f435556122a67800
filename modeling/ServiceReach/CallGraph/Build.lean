import ServiceReach.CallGraph.Basic
import ServiceReach.Log
import ServiceReach.Model.Hierarchy

/-
  The call graph of a program by class hierarchy analysis. A virtual call may go to the
  implementation of its declared target on every concrete class at or below the receiver; if there
  is none, to the declared target. The graph holds what can be reached from the entry methods and
  nothing else. The methods still to be expanded wait in a queue, in which one may stand twice.
-/

namespace ServiceReach

namespace Program

/-- The implementations of a subsignature on those of the types that are concrete. -/
def implementations (p : Program) (sub : String) :
    List String → List Method → Trail (List Method)
  | [], found => pure found
  | name :: rest, found =>
    match (p.get? (some name)).filter TypeDecl.isConcrete with
    | none => p.implementations sub rest found
    | some t => do
      match ← p.implementation? t sub with
      | none => p.implementations sub rest found
      | some m => p.implementations sub rest (Method.insertNew found m)

/-- Whether a call goes to its declared target whatever the receiver is. -/
def isDirect (site : CallSite) (declared : Method) : Bool :=
  site.dispatch == .static || site.dispatch == .special || declared.isStatic

/-- The methods that a call site may call; none if its declared target is unknown. -/
def targets (p : Program) (site : CallSite) : Trail (List Method) :=
  match p.method? site.target with
  | none => pure []
  | some declared =>
    if isDirect site declared then pure [declared]
    else do
      let receiver := (present? site.receiver).getD declared.owner
      let found ← p.implementations declared.subsignature (receiver :: p.subtypes receiver) []
      return if found.isEmpty then [declared] else found

end Program

namespace CallGraph

/-- Adds an edge, and the target to the methods still to be expanded if it is new. -/
def addCall (site : CallSite) (state : CallGraph × List Method) (target : Method) :
    CallGraph × List Method :=
  let g := state.1.addEdge site target
  (g, if g.isReachable target then state.2 else state.2 ++ [target])

/-- Adds the edges of a call site. -/
def addSite (p : Program) (state : CallGraph × List Method) (site : CallSite) :
    CallGraph × List Method :=
  (p.targets site).value.foldl (addCall site) state

/-- One round on a queue of methods and a graph: the first method is taken from the queue and
    expanded, unless it was reached before; `none` when the queue is empty. -/
def round (p : Program) : List Method × CallGraph → Option (List Method × CallGraph)
  | ([], _) => none
  | (m :: queue, g) =>
    if g.isReachable m then some (queue, g)
    else
      let (g, found) := m.sites.foldl (addSite p) (g.mark m, [])
      some (queue ++ found, g)

/-- Rounds until the queue is empty, at most `fuel` of them. -/
def expand (p : Program) : Nat → List Method × CallGraph → List Method × CallGraph
  | 0, state => state
  | fuel + 1, state =>
    match round p state with
    | none => state
    | some state => expand p fuel state

/-- A bound on how often a method is taken from the queue. -/
def expandBound (p : Program) (entries : List Method) : Nat :=
  entries.length + ((entries ++ p.methods).flatMap Method.sites).length * (p.types.length + 1) + 1

/-- The call graph from the entry methods on. -/
def build (p : Program) (entries : List Method) : CallGraph :=
  (expand p (expandBound p entries) (entries, {})).2

/-- The undeclared names that building a graph looks up. -/
def lookups (p : Program) (g : CallGraph) : List String :=
  (g.reachable.flatMap Method.sites).flatMap fun site => (p.targets site).names

/-- What is said about a graph once it is built. -/
def buildRecord (g : CallGraph) : LogRecord :=
  ⟨.info, .callGraph, "Call graph: " ++ toString g.size ++ " edges over " ++
    toString g.reachable.length ++ " reachable methods"⟩

end CallGraph
end ServiceReach

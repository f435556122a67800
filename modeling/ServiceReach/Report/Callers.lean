import ServiceReach.CallGraph.Basic
import ServiceReach.Model.Program
import ServiceReach.Text.Lines

/-
  The call graph as text. Only calls between application methods are shown. The callees of a method
  stand in one group under it, each once, and a blank line ends the group.
-/

namespace ServiceReach

namespace CallGraph

/-- A caller and its callees, by their signatures. -/
structure Group where
  caller : String
  callees : List String
deriving DecidableEq, Repr

/-- The groups with a callee added to the group of its caller, unless it is there. -/
def addCallee (caller callee : String) : List Group → List Group
  | [] => [⟨caller, [callee]⟩]
  | group :: rest =>
    if group.caller == caller then
      { group with
        callees := if group.callees.contains callee then group.callees
          else group.callees ++ [callee] } :: rest
    else group :: addCallee caller callee rest

/-- The caller of a call site, if it was reached and belongs to the application. -/
def applicationCaller? (g : CallGraph) (p : Program) (site : CallSite) : Option String :=
  match site.caller.bind g.method? with
  | none => none
  | some m => if p.isApplication (some m.owner) then site.caller else none

/-- The calls between application methods, as pairs of signatures. -/
def applicationCalls (g : CallGraph) (p : Program) : List (String × String) :=
  g.edges.filterMap fun (site, target) =>
    if p.isApplication (some target.owner) then
      (g.applicationCaller? p site).map (·, target.signature)
    else none

/-- The calls between application methods, grouped by the caller. -/
def groups (g : CallGraph) (p : Program) : List Group :=
  (g.applicationCalls p).foldl (fun groups (caller, callee) => addCallee caller callee groups) []

/-- The lines of a group. -/
def Group.lines (group : Group) : List String :=
  ("CALLER: " ++ group.caller) :: group.callees.map ("    -> " ++ ·) ++ [""]

/-- The call graph of a program as text. -/
def render (g : CallGraph) (p : Program) : String :=
  Text.unlines ((g.groups p).flatMap Group.lines)

end CallGraph
end ServiceReach

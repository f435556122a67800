import ServiceReach.Json.Shown
import ServiceReach.Settings.Basic

/-
  What the search for entry methods goes by. A configuration file may hold values of any type, so
  the heuristics are read from a sheet: a list of names may be an array, an object, of which the
  keys count, or a text, of which the characters count; a value that is no text names nothing. What
  the names of types start with has to be a text.
-/

namespace ServiceReach

/-- A value that should be a name. -/
inductive Name where
  | text (name : String)
  /-- A value that is no text: it names nothing and is only shown. -/
  | other (value : Json)
deriving Inhabited, Repr

namespace Name

/-- The name that a value is. -/
def ofJson : Json → Name
  | .str s => .text s
  | value => .other value

/-- The name, if it is one. -/
def text? : Name → Option String
  | .text s => some s
  | .other _ => none

theorem text?_eq_some_iff {n : Name} {s : String} : n.text? = some s ↔ n = .text s := by
  cases n with
  | text t => simp [text?]
  | other value => simp [text?]

/-- The name as it is shown. -/
def shown : Name → String
  | .text s => s
  | .other value => value.shown

end Name

/-- The names that the search for entry methods looks for. -/
structure Heuristics where
  /-- The calls that publish a service. -/
  serviceCalls : List String
  /-- The calls that register a broadcast receiver. -/
  receiverCalls : List String
  /-- The method by which a receiver is called. -/
  receiverCallback : Name
  /-- The interface that all remote interfaces extend. -/
  remoteMarker : Name
  /-- The class that all services extend. -/
  binderRoot : Name
  /-- How the names of types on the server side start. -/
  serverNamespace : String
deriving Repr

/-- A setting whose value is of a type that cannot be used. -/
structure WrongType where
  setting : Setting
deriving DecidableEq, Repr

namespace Sheet

/-- What a value consists of, if it has parts. -/
def elements? : Json → Option (List Json)
  | .arr items => some items
  | .obj members => some (members.map fun m => .str m.1)
  | .str s => some (s.toList.map fun c => .str (String.singleton c))
  | _ => none

/-- Whether a value has no parts, a text apart. -/
def isSimple : Json → Bool
  | .arr _ | .obj _ => false
  | _ => true

/-- The names that a setting lists. -/
def names (sheet : Sheet) (s : Setting) : Except WrongType (List String) :=
  match elements? (sheet.value s) with
  | none => .error ⟨s⟩
  | some items => if items.all isSimple then .ok (items.filterMap Json.str?) else .error ⟨s⟩

/-- The name that a setting gives. -/
def name (sheet : Sheet) (s : Setting) : Name :=
  .ofJson (sheet.value s)

/-- The heuristics of a sheet. A server namespace that is no text is there as it is shown; a run
    that has to compare names with it stops. -/
def heuristics (sheet : Sheet) : Except WrongType Heuristics := do
  return {
    serviceCalls := ← sheet.names .serviceCalls
    receiverCalls := ← sheet.names .receiverCalls
    receiverCallback := sheet.name .receiverCallback
    remoteMarker := sheet.name .remoteMarker
    binderRoot := sheet.name .binderRoot
    serverNamespace := (sheet.name .serverNamespace).shown }

end Sheet
end ServiceReach

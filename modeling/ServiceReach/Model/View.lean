import ServiceReach.Model.Hierarchy
import ServiceReach.Model.Interfaces

/-
  Views of a program. The analysis sees a program through a view, in which looking some names up
  may fail. The superclass chain of a type is always known; interfaces are looked up one by one.
-/

namespace ServiceReach

/-- A name that a view could not look up. -/
structure Unresolvable where
  name : String
deriving DecidableEq, Repr

/-- What is said about a name that could not be looked up. -/
def Unresolvable.message (e : Unresolvable) : String :=
  "cannot resolve " ++ e.name

/-- A program as the analysis sees it. -/
structure View where
  program : Program
  /-- The names whose look-up fails. -/
  failing : List String := []
  /-- Whether application types are found by their key; otherwise the list of them is searched. -/
  keyed : Bool := true

/-- A computation that looks types up in a view. -/
abbrev Lookup := ExceptT Unresolvable Trail

namespace View

/-- The view of a whole program, in which nothing fails. -/
def ofProgram (p : Program) : View := { program := p }

/-- Looks a type up. -/
def resolve (v : View) (name : Option String) : Lookup (Option TypeDecl) :=
  match name with
  | none => pure none
  | some n => if v.failing.contains n then throw ⟨n⟩ else v.program.resolve (some n)

/-- Whether the name is that of an application type. -/
def isApplication (v : View) (name : Option String) : Bool :=
  if v.keyed then v.program.isApplication name
  else v.program.applicationTypes.any fun t => some t.name == name

/-- The interfaces declared along a walk, after those found. -/
def interfacesOn (v : View) (found : List TypeDecl) : List Visit → Lookup (List TypeDecl)
  | [] => pure found
  | visit :: rest => do
    let found ← visit.type.interfaces.foldlM (Interfaces.add v.resolve) found
    Trail.look (v.program.undeclared visit.looked)
    v.interfacesOn found rest

/-- The interfaces that a type and its superclasses declare, each once. -/
def interfaces (v : View) (t : TypeDecl) : Lookup (List TypeDecl) :=
  v.interfacesOn [] (v.program.chain t)

/-- Whether an interface is `marker` or extends it, directly or not. -/
def extendsMarker (v : View) (t : TypeDecl) (marker : Option String) : Lookup Bool :=
  Interfaces.extendsFrom v.resolve marker (v.program.parentCount t + 1) [] [t]

/-- Adds to `found` the implementation, on a service, of each of the methods of an interface. -/
def addImplementations (v : View) (service : TypeDecl) (found : List Method) :
    List Method → Lookup (List Method)
  | [] => pure found
  | m :: rest => do
    match ← v.program.implementation? service m.subsignature with
    | none => v.addImplementations service found rest
    | some i => v.addImplementations service (Method.insertNew found i) rest

/-- Adds to `found` the implementations of the methods of those interfaces that are remote. -/
def addRemote (v : View) (service : TypeDecl) (marker : Option String) (found : List Method) :
    List TypeDecl → Lookup (List Method)
  | [] => pure found
  | i :: rest => do
    if ← v.extendsMarker i marker then
      let found ← v.addImplementations service found i.methods
      v.addRemote service marker found rest
    else v.addRemote service marker found rest

/-- The methods of a service that implement its remote interfaces, those that extend `marker`. -/
def remoteMethods (v : View) (service : TypeDecl) (marker : Option String) :
    Lookup (List Method) := do
  v.addRemote service marker [] (← v.interfaces service)

end View
end ServiceReach

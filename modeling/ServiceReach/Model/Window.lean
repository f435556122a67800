import ServiceReach.Model.Store
import ServiceReach.Model.View

/-
  Windows on a store. The analysis asks a store through a window, in which looking some names up
  fails, as it sees a program through a view. What was looked up before a failure stays in the
  store.
-/

namespace ServiceReach

/-- A computation that asks a store and may meet a name that fails. -/
abbrev Probe := ExceptT Unresolvable Access

/-- The names whose look-up fails. -/
structure Window where
  failing : List String := []

namespace Window

/-- Looks a type up. -/
def resolve (w : Window) (name : Option String) : Probe (Option TypeDecl) :=
  match name with
  | none => return none
  | some n => if w.failing.contains n then throw ⟨n⟩ else Store.resolve (some n)

/-- The interfaces that a type and its superclasses declare, each once. The superclass chain is
    always known; an interface that fails ends the walk. -/
def interfaces (w : Window) (t : TypeDecl) : Probe (List TypeDecl) :=
  Store.interfacesBy w.resolve t

/-- Whether an interface is `marker` or extends it, directly or not. -/
def extendsMarker (w : Window) (t : TypeDecl) (marker : Option String) : Probe Bool :=
  Store.extendsMarkerBy w.resolve t marker

/-- Whether `root` is on the superclass chain of `t`. -/
def isSubclass (t : TypeDecl) (root : Option String) : Access Bool :=
  return (← Store.alongChain
    (Store.first fun u => if some u.name == root then some () else none) t none).isSome

/-- Adds to `found` the implementation, on a service, of each of the methods of an interface. -/
def addImplementations (service : TypeDecl) (found : List Method) :
    List Method → Access (List Method)
  | [] => return found
  | m :: rest => do
    match ← Store.implementation? service m.subsignature with
    | none => addImplementations service found rest
    | some i => addImplementations service (Method.insertNew found i) rest

/-- Adds to `found` the implementations of the methods of those interfaces that are remote. -/
def addRemote (w : Window) (service : TypeDecl) (marker : Option String) (found : List Method) :
    List TypeDecl → Probe (List Method)
  | [] => return found
  | i :: rest => do
    if ← w.extendsMarker i marker then
      let found ← addImplementations service found i.methods
      w.addRemote service marker found rest
    else w.addRemote service marker found rest

/-- The methods of a service that implement its remote interfaces, those that extend `marker`. -/
def remoteMethods (w : Window) (service : TypeDecl) (marker : Option String) :
    Probe (List Method) := do
  w.addRemote service marker [] (← w.interfaces service)

end Window
end ServiceReach

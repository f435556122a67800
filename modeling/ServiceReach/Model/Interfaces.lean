import ServiceReach.Model.Basic

/-
  The interfaces of types, in any kind of computation in which a type can be looked up by its name.
  A view, a store and a window on a store look names up in ways of their own; what is done with the
  types found is the same in all of them.
-/

namespace ServiceReach.Interfaces

variable {m : Type → Type} [Monad m]

/-- Adds an interface to those found, unless it is among them or there is no such type. -/
def add (look : Option String → m (Option TypeDecl)) (found : List TypeDecl) (name : String) :
    m (List TypeDecl) :=
  if found.any (·.name == name) then return found
  else return found ++ (← look (some name)).toList

/-- A visit of a walk that adds the interfaces of the type. -/
def visit (look : Option String → m (Option TypeDecl)) (found : List TypeDecl) (t : TypeDecl) :
    m (ForInStep (List TypeDecl)) :=
  return .yield (← t.interfaces.foldlM (add look) found)

/-- Puts the type of a name on a stack. -/
def push (look : Option String → m (Option TypeDecl)) (stack : List TypeDecl) (name : String) :
    m (List TypeDecl) :=
  return (← look (some name)).toList ++ stack

/-- Whether `marker` is met from a stack of interfaces, the last one pushed first. Without a marker
    all of them are looked at. -/
def extendsFrom (look : Option String → m (Option TypeDecl)) (marker : Option String) :
    Nat → List String → List TypeDecl → m Bool
  | 0, _, _ => return false
  | _ + 1, _, [] => return false
  | fuel + 1, seen, t :: stack =>
    if some t.name == marker then return true
    else if seen.contains t.name then extendsFrom look marker fuel seen stack
    else do
      let seen := t.name :: seen
      let stack ← (t.interfaces.filter fun n => !seen.contains n).foldlM (push look) stack
      extendsFrom look marker fuel seen stack

end ServiceReach.Interfaces

import ServiceReach.Model.Program
import ServiceReach.Model.Search

/-
  Walks over the type hierarchy: the superclass chain of a type, all its supertypes, the subtypes
  of a name, and what is found along them: the type of a field, the method a call means, the
  implementation of a method. The hierarchy may be cyclic; each walk meets a name at most once.
  A walk is a list of visits, and a visit carries the names that are looked up when the walk moves
  on, so what a search leaves behind depends on where it stops.
-/

namespace ServiceReach

/-- A type on a walk, with the names looked up on the way to the next one. -/
structure Visit where
  type : TypeDecl
  looked : List String

namespace Program

/-- The first answer along a walk. -/
def firstOn {β : Type} (p : Program) (answer : TypeDecl → Option β) :
    List Visit → Trail (Option β)
  | [] => pure none
  | v :: rest =>
    match answer v.type with
    | some b => pure (some b)
    | none => do
      Trail.look (p.undeclared v.looked)
      p.firstOn answer rest

/-- All types along a walk. -/
def allOn (p : Program) (visits : List Visit) : Trail (List TypeDecl) :=
  ⟨visits.map Visit.type, p.undeclared (visits.flatMap Visit.looked)⟩

/-- The superclass chain from a type on; it stops before a name that is in `seen`. -/
def chainFrom (p : Program) : Nat → List String → TypeDecl → List Visit
  | 0, _, _ => []
  | fuel + 1, seen, t =>
    if seen.contains t.name then []
    else
      match (present? t.superclass).filter isReferenceName with
      | none => [⟨t, []⟩]
      | some parent => ⟨t, [parent]⟩ :: p.chainFrom fuel (t.name :: seen) (p.lookup parent)

/-- The superclass chain of a type, the type first. -/
def chain (p : Program) (t : TypeDecl) : List Visit :=
  p.chainFrom (p.types.length + 2) [] t

/-- The number of times that some declared type, or `t`, names a parent. -/
def parentCount (p : Program) (t : TypeDecl) : Nat :=
  ((t :: p.types).flatMap TypeDecl.parents).length

/-- The type of a name on a walk that starts at `t`. -/
def typeOn (p : Program) (t : TypeDecl) (name : String) : TypeDecl :=
  if name == t.name then t else p.lookup name

/-- The supertypes of a type breadth first, the type first. -/
def supertypes (p : Program) (t : TypeDecl) : List Visit :=
  (Search.visits (fun n => (p.typeOn t n).supers) (p.parentCount t + 1) t.name).map
    fun (n, met) => ⟨p.typeOn t n, met⟩

/-- The declared types that name `name` as a parent. -/
def children (p : Program) (name : String) : List String :=
  (p.types.filter fun t => t.parents.contains name).map TypeDecl.name

/-- The declared types below a name, nearest first. -/
def subtypes (p : Program) (name : String) : List String :=
  (Search.reached p.children (p.types.length + 1) name).drop 1

/-- Whether `root` is on the superclass chain of `t`. -/
def isSubclass (p : Program) (t : TypeDecl) (root : Option String) : Trail Bool := do
  let found ← p.firstOn (fun u => if some u.name == root then some () else none) (p.chain t)
  return found.isSome

/-- The nearest method on the superclass chain that has a subsignature and is not abstract. -/
def implementation? (p : Program) (t : TypeDecl) (sub : String) : Trail (Option Method) :=
  p.firstOn (fun u => (u.declared? sub).filter fun m => !m.isAbstract) (p.chain t)

/-- The type of a field of a type, or of its nearest supertype that has the field. -/
def fieldType (p : Program) (type : Option String) (field : String) :
    Trail (Option String) := do
  match ← p.resolve type with
  | none => pure none
  | some t => p.firstOn (fun u => u.fields.lookup field) (p.supertypes t)

/-- The first of the methods with the greatest score. -/
def bestMatch (args : List (Option String)) : List Method → Option Method
  | [] => none
  | m :: rest =>
    some (rest.foldl (fun best n => if best.score args < n.score args then n else best) m)

/-- The method a call by name means on one type: the best match that takes the arguments. -/
def overload? (name : String) (args : List (Option String)) (t : TypeDecl) : Option Method :=
  bestMatch args (t.methods.filter fun m => m.name == name && m.accepts args.length)

/-- The method a call by name means on a type or on its nearest supertype with such a method. -/
def findMethod (p : Program) (type : Option String) (name : String)
    (args : List (Option String)) : Trail (Option Method) := do
  match ← p.resolve type with
  | none => pure none
  | some t => p.firstOn (overload? name args) (p.supertypes t)

end Program
end ServiceReach

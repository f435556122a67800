import ServiceReach.Model.Hierarchy
import ServiceReach.Model.Interfaces

/-
  Stores. A store is a program as it is kept while it grows: the declared types, the phantoms that
  stand for the undeclared names looked up so far, the methods by their signature, and the index of
  subtypes, which is built when it is first needed and dropped when a type is declared. Asking a
  store may add phantoms to it and build its index. Walks over the hierarchy look a type up only
  when they come to it, so a walk that ends early leaves fewer phantoms behind.
-/

namespace ServiceReach

/-! ## The index of subtypes -/

/-- For each name that a type has for a parent, the types that do, in order. -/
abbrev SubtypeIndex := List (String × List String)

namespace SubtypeIndex

/-- The index with a child added to those of a parent. -/
def add (parent child : String) : SubtypeIndex → SubtypeIndex
  | [] => [(parent, [child])]
  | (name, names) :: rest =>
    if name == parent then (name, names ++ [child]) :: rest
    else (name, names) :: add parent child rest

/-- The index with a type added to the children of each of its parents. -/
def addType (index : SubtypeIndex) (t : TypeDecl) : SubtypeIndex :=
  t.parents.foldl (fun index parent => index.add parent t.name) index

/-- The index of the types. -/
def ofTypes (types : List TypeDecl) : SubtypeIndex :=
  types.foldl addType []

/-- The types that have a name for a parent. -/
def children (index : SubtypeIndex) (name : String) : List String :=
  (index.lookup name).getD []

end SubtypeIndex

/-! ## Stores -/

/-- A program with its tables. -/
structure Store where
  program : Program
  phantoms : List TypeDecl
  methods : List (String × Method)
  index : Option SubtypeIndex

/-- A computation that asks a store. -/
abbrev Access := StateM Store

namespace Store

/-- The store of the program without types. -/
def empty : Store := ⟨.empty, [], [], none⟩

/-- The table with a method added, unless its signature is taken. -/
def addMethod (table : List (String × Method)) (m : Method) : List (String × Method) :=
  if (table.lookup m.signature).isSome then table else table ++ [(m.signature, m)]

/-- Declares a type, unless its name is taken. -/
def declare (s : Store) (t : TypeDecl) : Store :=
  match s.program.find? t.name with
  | some _ => s
  | none =>
    { program := s.program.declare t
      phantoms := s.phantoms.filter fun u => u.name != t.name
      methods := t.methods.foldl addMethod s.methods
      index := none }

/-- The store of the types, declared in order. -/
def ofTypes (types : List TypeDecl) : Store :=
  types.foldl declare empty

/-- The phantoms with that of a name, which is added unless it is there. -/
def addPhantom (phantoms : List TypeDecl) (name : String) : List TypeDecl :=
  if phantoms.any (·.name == name) then phantoms else phantoms ++ [.phantom name]

/-- The store with the phantoms of some names. -/
def remember (s : Store) (names : List String) : Store :=
  { s with phantoms := names.foldl addPhantom s.phantoms }

/-! ## Looking types up -/

/-- The phantom of a name, which is made unless there is one. -/
def phantomOf (name : String) : Access TypeDecl := fun s =>
  match s.phantoms.find? (·.name == name) with
  | some t => (t, s)
  | none => (.phantom name, { s with phantoms := s.phantoms ++ [.phantom name] })

/-- Looks a type up; primitives, arrays and unknown types have none. -/
def resolve (name : Option String) : Access (Option TypeDecl) :=
  match name.filter isReferenceName with
  | none => return none
  | some n => fun s =>
    match s.program.find? n with
    | some t => (some t, s)
    | none =>
      let (t, s) := phantomOf n s
      (some t, s)

/-! ## Walks -/

section Walks

variable {β : Type} {m : Type → Type} [Monad m] [MonadLiftT Access m]

/-- Goes up the superclass chain from a type on, until `visit` ends the walk or a name is in
    `seen`. A visit may do more than ask the store. -/
def climb (visit : β → TypeDecl → m (ForInStep β)) : Nat → List String → TypeDecl → β → m β
  | 0, _, _, b => return b
  | fuel + 1, seen, t, b =>
    if seen.contains t.name then return b
    else do
      match ← visit b t with
      | .done b => return b
      | .yield b =>
        match ← resolve (present? t.superclass) with
        | none => return b
        | some parent => climb visit fuel (t.name :: seen) parent b

/-- The rounds that a walk up a superclass chain is given. -/
def chainRounds : Access Nat :=
  return (← get).program.types.length + 2

/-- Visits the superclass chain of a type. -/
def alongChain (visit : β → TypeDecl → m (ForInStep β)) (t : TypeDecl) (b : β) : m β := do
  climb visit (← chainRounds) [] t b

/-- Adds a parent to the names seen and to the queue, unless it was seen. -/
def meet (found : List String × List TypeDecl) (name : String) :
    Access (List String × List TypeDecl) :=
  if found.1.contains name then return found
  else return (name :: found.1, found.2 ++ (← resolve (some name)).toList)

/-- Visits a queue of types and what they lead to, breadth first, until `visit` ends the walk. -/
def spread (visit : β → TypeDecl → Access (ForInStep β)) :
    Nat → List String → List TypeDecl → β → Access β
  | 0, _, _, b => return b
  | _ + 1, _, [], b => return b
  | fuel + 1, seen, t :: queue, b => do
    match ← visit b t with
    | .done b => return b
    | .yield b =>
      let found ← t.parents.foldlM meet (seen, queue)
      spread visit fuel found.1 found.2 b

/-- The rounds that a walk over the parents of types is given. -/
def parentRounds (t : TypeDecl) : Access Nat :=
  return (← get).program.parentCount t + 1

/-- Visits the supertypes of a type, the type first. -/
def alongSupertypes (visit : β → TypeDecl → Access (ForInStep β)) (t : TypeDecl) (b : β) :
    Access β := do
  spread visit (← parentRounds t) [t.name] [t] b

/-- A visit that ends the walk at the first answer. -/
def first (answer : TypeDecl → Option β) (_ : Option β) (t : TypeDecl) :
    Access (ForInStep (Option β)) :=
  return match answer t with
    | some b => .done (some b)
    | none => .yield none

/-- A visit that keeps the type. -/
def collect (found : List TypeDecl) (t : TypeDecl) : Access (ForInStep (List TypeDecl)) :=
  return .yield (found ++ [t])

/-- The interfaces that a type and its superclasses declare, each once, where interfaces are looked
    up by `look`. -/
def interfacesBy (look : Option String → m (Option TypeDecl)) (t : TypeDecl) :
    m (List TypeDecl) :=
  alongChain (Interfaces.visit look) t []

/-- Whether an interface is `marker` or extends it, directly or not, where interfaces are looked up
    by `look`. -/
def extendsMarkerBy (look : Option String → m (Option TypeDecl)) (t : TypeDecl)
    (marker : Option String) : m Bool := do
  Interfaces.extendsFrom look marker (← parentRounds t) [] [t]

end Walks

/-! ## Questions -/

/-- The superclass chain of a type. -/
def chain (t : TypeDecl) : Access (List TypeDecl) :=
  alongChain collect t []

/-- The supertypes of a type. -/
def supertypes (t : TypeDecl) : Access (List TypeDecl) :=
  alongSupertypes collect t []

/-- The nearest method on the superclass chain that has a subsignature and is not abstract. -/
def implementation? (t : TypeDecl) (sub : String) : Access (Option Method) :=
  alongChain (first fun u => (u.declared? sub).filter fun m => !m.isAbstract) t none

/-- The type of a field of a type, or of its nearest supertype that has the field. -/
def fieldType (type : Option String) (field : String) : Access (Option String) := do
  match ← resolve type with
  | none => return none
  | some t => alongSupertypes (first fun u => u.fields.lookup field) t none

/-- The method a call by name means on a type or on its nearest supertype with such a method. -/
def findMethod (type : Option String) (name : String) (args : List (Option String)) :
    Access (Option Method) := do
  match ← resolve type with
  | none => return none
  | some t => alongSupertypes (first (Program.overload? name args)) t none

/-- The interfaces that a type and its superclasses declare, each once. -/
def interfaces (t : TypeDecl) : Access (List TypeDecl) :=
  interfacesBy resolve t

/-- Whether an interface is `marker` or extends it, directly or not. -/
def extendsMarker (t : TypeDecl) (marker : Option String) : Access Bool :=
  extendsMarkerBy resolve t marker

/-- The index of subtypes, which is built unless there is one. -/
def subtypeIndex : Access SubtypeIndex := fun s =>
  match s.index with
  | some index => (index, s)
  | none =>
    let index := .ofTypes s.program.types
    (index, { s with index := some index })

/-- The declared types below a name, nearest first. -/
def subtypes (name : String) : Access (List String) := do
  let index ← subtypeIndex
  return (Search.reached index.children ((← get).program.types.length + 1) name).drop 1

end Store

/-- A question to a store. -/
inductive Query where
  | resolve (name : Option String)
  | get (name : Option String)
  | isApplication (name : Option String)
  | applicationTypes
  | method (signature : String)
  | methods
  | fieldType (type : Option String) (field : String)
  | findMethod (type : Option String) (name : String) (args : List (Option String))
  | subtypes (name : String)
  | chain (t : TypeDecl)
  | supertypes (t : TypeDecl)
  | interfaces (t : TypeDecl)
  | extendsMarker (t : TypeDecl) (marker : Option String)
  | implementation (t : TypeDecl) (sub : String)

/-- What a question is answered with. -/
def Query.Answer : Query → Type
  | .resolve _ | .get _ => Option TypeDecl
  | .isApplication _ | .extendsMarker _ _ => Bool
  | .applicationTypes | .chain _ | .supertypes _ | .interfaces _ => List TypeDecl
  | .method _ | .findMethod _ _ _ | .implementation _ _ => Option Method
  | .methods => List Method
  | .fieldType _ _ => Option String
  | .subtypes _ => List String

namespace Store

/-- Answers a question. -/
def answer : (q : Query) → Access q.Answer
  | .resolve name => resolve name
  | .get name => fun s => (s.program.get? name, s)
  | .isApplication name => fun s => (s.program.isApplication name, s)
  | .applicationTypes => fun s => (s.program.applicationTypes, s)
  | .method signature => fun s => (s.methods.lookup signature, s)
  | .methods => fun s => (s.program.methods, s)
  | .fieldType type field => fieldType type field
  | .findMethod type name args => findMethod type name args
  | .subtypes name => subtypes name
  | .chain t => chain t
  | .supertypes t => supertypes t
  | .interfaces t => interfaces t
  | .extendsMarker t marker => extendsMarker t marker
  | .implementation t sub => implementation? t sub

end Store
end ServiceReach

import ServiceReach.Index.Lowering
import ServiceReach.Model.Session

/-
  From a catalog to a program: all declarations are linked, then the bodies of application methods
  are lowered against the linked types. A body that is nested too deeply is left empty, with a
  warning. An indexer keeps the program it built until another file is added.
-/

namespace ServiceReach.Index

/-- A program built from a catalog. -/
structure Build where
  program : Program
  /-- The undeclared names that lowering looked up. -/
  names : List String
  log : List LogRecord

/-- The program of a build, with the names that lowering looked up. -/
def Build.session (b : Build) : Session :=
  (Session.ofProgram b.program).remember b.names

/-- What is said about a body that could not be lowered. -/
def tooDeepRecord (m : Method) : LogRecord :=
  ⟨.warning, .indexing, "Body of " ++ m.signature ++
    " is nested too deeply to lower; it is kept as a leaf"⟩

/-- Where the body of a method of a declaration stands. -/
def Catalog.place (c : Catalog) (p : Program) (d : Declaration) (m : Method) : Place :=
  { scopes := c.scopes
    anonymous := c.anonymous
    program := p
    entry := d.entry
    owner := d.name
    method := m.signature
    room := c.room }

/-- The method with its code, and what is said about it. -/
def Catalog.lowerMethod (c : Catalog) (p : Program) (d : Declaration) (m : LinkedMethod) :
    Trail (Method × List LogRecord) :=
  match m.body with
  | none => pure (m.method, [])
  | some body => do
    match ← ((c.place p d m.method).lower m.method m.params body).run with
    | .ok code => pure ({ m.method with code }, [])
    | .error .tooDeep => pure (m.method, [tooDeepRecord m.method])

/-- The type with the code of its methods, and what is said about them. -/
def Catalog.lowerType (c : Catalog) (p : Program) (t : LinkedType) :
    Trail (TypeDecl × List LogRecord) := do
  let lowered ← t.methods.mapM (c.lowerMethod p t.declaration)
  return ({ t.type with methods := lowered.map (·.1) }, lowered.flatMap (·.2))

/-- The program of a catalog. -/
def Catalog.build (c : Catalog) : Build :=
  let linked := c.link
  let heads := Program.ofTypes (linked.map LinkedType.type)
  let lowered := linked.mapM (c.lowerType heads)
  let program := Program.ofTypes (lowered.value.map (·.1))
  { program
    names := lowered.names
    log := lowered.value.flatMap (·.2) ++ [⟨.info, .indexing,
      "Indexed " ++ toString program.types.length ++ " types (" ++
        toString program.applicationTypes.length ++ " application) from " ++
        toString c.entries.length ++ " files"⟩] }

/-- A catalog, and the program built from it if no file was added since. -/
structure Indexer where
  catalog : Catalog
  built : Option Build := none

namespace Indexer

/-- The indexer without files. -/
def empty (room : Nat) : Indexer :=
  { catalog := { room } }

/-- Adds a file; a program built before is out of date. -/
def add (x : Indexer) (f : File) : Indexer × List LogRecord :=
  let scan := x.catalog.add f
  ({ catalog := scan.catalog }, scan.log)

/-- The program of the files so far, and whether it is the one built before. -/
def build (x : Indexer) : Build × Bool × Indexer :=
  match x.built with
  | some b => (b, true, x)
  | none =>
    let b := x.catalog.build
    (b, false, { x with built := some b })

end Indexer
end ServiceReach.Index

import ServiceReach.Index.Scope
import ServiceReach.Json.Basic
import ServiceReach.Log
import ServiceReach.Source.Text

/-
  The declarations of the indexed files. Adding a file records its package and imports and every
  type it declares: named types under their binary names, anonymous classes numbered within the
  type around them, in source order. The first declaration of a name is kept.
-/

namespace ServiceReach.Index

open Source

/-- A source file with its syntax tree. -/
structure File where
  /-- The path; a file without one is named after its place among the indexed files. -/
  path : Option String
  text : Array UInt8
  tree : Tree
  /-- Whether the tree holds syntax errors. -/
  hasError : Bool := false
  /-- Whether the file belongs to the application and not to a library. -/
  application : Bool := true

/-- An indexed file. -/
structure Entry where
  path : String
  text : Array UInt8
  tree : Tree
  application : Bool
  header : Header

/-- The text of a node of the file. -/
def Entry.textOf (e : Entry) (t : Tree) : String :=
  Source.textOf e.text t

/-- The text of a node that may be missing. -/
def Entry.textOf? (e : Entry) (t : Option Tree) : String :=
  match t with
  | none => ""
  | some t => e.textOf t

/-- What a declaration declares. -/
inductive DeclKind where
  | plain
  | interface
  | enum
  | record
  | anonymous
deriving DecidableEq, Repr

/-- The name of a kind of declaration. -/
def DeclKind.name : DeclKind → String
  | .plain => "class"
  | .interface => "interface"
  | .enum => "enum"
  | .record => "record"
  | .anonymous => "anonymous"

/-- What a node declares by name. -/
def DeclKind.ofNode? (kind : Kind) : Option DeclKind :=
  match kind with
  | .classDeclaration => some .plain
  | .interfaceDeclaration => some .interface
  | .enumDeclaration => some .enum
  | .recordDeclaration => some .record
  | _ => none

/-- A type declaration. -/
structure Declaration where
  /-- The binary name. -/
  name : String
  node : Tree
  entry : Entry
  kind : DeclKind
  /-- The name of the type around it. -/
  enclosing : Option String

/-- The indexed files and what they declare. -/
structure Catalog where
  /-- The room that the stack has for typing when bodies are lowered. -/
  room : Nat
  entries : List Entry := []
  declarations : List Declaration := []
  /-- The names of anonymous classes by file and first byte, latest first. -/
  anonymous : List ((String × Nat) × String) := []
  /-- The number of anonymous classes met so far in a type. -/
  counts : List (String × Nat) := []
  packages : List String := []

/-- The package, if a node declares it. -/
def Header.readPackage (e : Entry) (h : Header) (t : Tree) : Header :=
  match t.child? [.scopedIdentifier, .identifier] with
  | none => h
  | some name => { h with package := e.textOf name }

/-- The import, unless it imports static members. -/
def Header.readImport (e : Entry) (h : Header) (t : Tree) : Header :=
  match t.child? [.staticKeyword], t.child? [.scopedIdentifier, .identifier] with
  | none, some name =>
    let imported := e.textOf name
    if (t.child? [.asterisk]).isSome then { h with onDemand := h.onDemand ++ [imported] }
    else { h with imports := Json.setMember (Text.afterLast '.' imported) imported h.imports }
  | _, _ => h

/-- What a top-level node says about package and imports. -/
def Header.readNode (e : Entry) (h : Header) (t : Tree) : Header :=
  match t.kind with
  | .packageDeclaration => h.readPackage e t
  | .importDeclaration => h.readImport e t
  | _ => h

/-- The package and imports of a file. -/
def Header.read (e : Entry) : Header :=
  e.tree.constructs.foldl (Header.readNode e) {}

/-- The catalog and the records written while a file is added to it. -/
structure Scan where
  catalog : Catalog
  log : List LogRecord := []

namespace Scan

/-- Whether a type of this name is declared. -/
def declares (s : Scan) (name : String) : Bool :=
  s.catalog.declarations.any fun d => d.name == name

/-- Adds a declaration, unless its name is declared. -/
def register (s : Scan) (d : Declaration) : Scan :=
  if s.declares d.name then
    { s with log := s.log ++ [⟨.debug, .indexing,
        "Type " ++ d.name ++ " declared again in " ++ d.entry.path ++ "; keeping the first"⟩] }
  else { s with catalog := { s.catalog with declarations := s.catalog.declarations ++ [d] } }

/-- The name of the next anonymous class in a type. -/
def nextAnonymous (s : Scan) (owner : String) : Nat :=
  (s.catalog.counts.lookup owner).getD 0 + 1

/-- Adds an anonymous class, an object creation with a body, to the type around it. -/
def registerAnonymous (s : Scan) (e : Entry) (owner : String) (node : Tree) : String × Scan :=
  let count := s.nextAnonymous owner
  let name := owner ++ "$" ++ toString count
  let catalog := { s.catalog with
    counts := Json.setMember owner count s.catalog.counts
    anonymous := ((e.path, node.start), name) :: s.catalog.anonymous }
  (name, { s with catalog }.register ⟨name, node, e, .anonymous, some owner⟩)

/-- The name of a type declared as `simple` inside `owner`, or at the top of a file. -/
def memberName (e : Entry) (owner : Option String) (simple : String) : String :=
  match present? owner with
  | some owner => owner ++ "$" ++ simple
  | none => inPackage e.header.package simple

/-- What a node declares, and the type around each of its children by their numbers. -/
def enter (s : Scan) (e : Entry) (owner : Option String) (node : Tree) :
    (Nat → Option String) × Scan :=
  match DeclKind.ofNode? node.kind with
  | some kind =>
    match node.field? .name with
    | none => (fun _ => owner, s)
    | some simple =>
      let name := memberName e owner (e.textOf simple)
      (fun _ => some name, s.register ⟨name, node, e, kind, owner⟩)
  | none =>
    if node.kind == .objectCreationExpression then
      match present? owner, node.child? [.classBody] with
      | some owner, some body =>
        let (name, s) := s.registerAnonymous e owner node
        (fun id => if id == body.id then some name else some owner, s)
      | _, _ => (fun _ => owner, s)
    else (fun _ => owner, s)

end Scan

mutual

/-- Records the declarations of a tree, in source order. -/
def scanTree (e : Entry) (owner : Option String) : Tree → Scan → Scan
  | .node label children, s =>
    let (owners, s) := s.enter e owner (.node label children)
    scanTrees e owners children s

/-- Records the declarations of sibling trees, each with the type around it. -/
def scanTrees (e : Entry) (owners : Nat → Option String) : List Tree → Scan → Scan
  | [], s => s
  | t :: rest, s => scanTrees e owners rest (scanTree e (owners t.id) t s)

end

namespace Catalog

/-- The path of a file, or its place among the indexed files. -/
def pathOf (c : Catalog) (f : File) : String :=
  (present? f.path).getD ("<source-" ++ toString c.entries.length ++ ">")

/-- The entry of a file. -/
def entryOf (c : Catalog) (f : File) : Entry :=
  let bare : Entry := ⟨c.pathOf f, f.text, f.tree, f.application, {}⟩
  { bare with header := Header.read bare }

/-- What is said about a file with syntax errors. -/
def errorRecords (e : Entry) (f : File) : List LogRecord :=
  if f.hasError then
    [⟨.debug, .indexing, "Syntax errors in " ++ e.path ++ "; indexing what parsed"⟩]
  else []

/-- The catalog with an entry whose declarations are not recorded yet. -/
def withEntry (c : Catalog) (e : Entry) : Catalog :=
  let package := e.header.package
  { c with
    packages := if package.isEmpty || c.packages.contains package then c.packages
      else c.packages ++ [package]
    entries := c.entries ++ [e] }

/-- Adds a file. -/
def add (c : Catalog) (f : File) : Scan :=
  let e := c.entryOf f
  scanTree e none e.tree ⟨c.withEntry e, errorRecords e f⟩

/-- The declared names, for resolving names. -/
def scopes (c : Catalog) : Scopes :=
  ⟨c.declarations.map fun d => (d.name, d.enclosing)⟩

/-- The declaration of a name. -/
def find? (c : Catalog) (name : String) : Option Declaration :=
  c.declarations.find? fun d => d.name == name

end Catalog
end ServiceReach.Index

import ServiceReach.Index.Build
import ServiceReach.Workspace.Basic

/-
  Indexing directories. All source files below a directory are indexed, those of a directory itself
  before those of its subdirectories, both in the order of their names. A file that cannot be read
  is passed over.
-/

namespace ServiceReach.Workspace

/-- Whether a file comes no later than another, by their paths from one directory. -/
def comesBefore : List String → List String → Bool
  | [], _ => true
  | _, [] => false
  | [a], [b] => decide (a ≤ b)
  | [_], _ => true
  | _, [_] => false
  | a :: as, b :: bs => if a == b then comesBefore as bs else decide (a < b)

/-- Whether a path ends in the name of a source file. -/
def isSourcePath (path : List String) : Bool :=
  match path.getLast? with
  | none => false
  | some name => Text.endsWith ".java" name

/-- The source files below a place, with their paths from there, in the order of indexing. -/
def sources (w : Workspace) (place : Location) : List (List String × Entry) :=
  let found := w.entries.filterMap fun (path, entry) =>
    match entry, Path.below? place path with
    | .directory, _ | _, none => none
    | _, some rest => if isSourcePath rest then some (rest, entry) else none
  found.mergeSort fun a b => comesBefore a.1 b.1

/-- The path of a file below a directory. -/
def join (directory : String) (rest : List String) : String :=
  directory ++ (if Text.endsWith "/" directory then "" else "/") ++ "/".intercalate rest

/-- The text of a source file as it is read: malformed bytes replaced and line ends unified. -/
def sourceText (content : List UInt8) : Array UInt8 :=
  (Text.Utf8.encode (Text.Utf8.joinLines (Text.Utf8.decode content))).toArray

/-- The indexed file of a source file. -/
def sourceFile (path : String) (application : Bool) (content : List UInt8)
    (parsed : Option Source.Parsed) : Index.File :=
  { path := some path
    text := sourceText content
    tree := (parsed.map Source.Parsed.tree).getD (Source.Tree.node { kind := .other "program" } [])
    hasError := (parsed.map Source.Parsed.hasError).getD false
    application }

/-- A directory being indexed: the indexer, the number of files so far, and what is said. -/
structure Sweep where
  indexer : Index.Indexer
  count : Nat := 0
  log : List LogRecord := []

/-- Indexes a source file. -/
def Sweep.add (application : Bool) (path : String) (s : Sweep) (entry : Entry) : Sweep :=
  match entry with
  | .directory | .sink => s
  | .dangling =>
    { s with log := s.log ++ [⟨.warning, .directories, "Failed to read " ++ path ++ ": " ++
        PathError.missing.message path⟩] }
  | .file content parsed =>
    let (indexer, log) := s.indexer.add (sourceFile path application content parsed)
    ⟨indexer, s.count + 1, s.log ++ log⟩

/-- What is said about something that should be a directory and is none. -/
def notDirectoryRecord (shown : String) : LogRecord :=
  ⟨.warning, .directories, "Source root " ++ shown ++ " is not a directory; skipping"⟩

/-- Indexes the source files below a directory. -/
def indexDirectory (w : Workspace) (application : Bool) (x : Index.Indexer) (root : String) :
    Index.Indexer × List LogRecord :=
  match w.isDirectory root, w.locate root with
  | true, .ok place =>
    let s : Sweep := (w.sources place).foldl
      (fun s (rest, entry) => s.add application (join root rest) entry) { indexer := x }
    (s.indexer, s.log ++ [⟨.info, .directories, "Indexed " ++ toString s.count ++ " " ++
      (if application then "application" else "library") ++ " files under " ++ root⟩])
  | _, _ => (x, [notDirectoryRecord root])

end ServiceReach.Workspace

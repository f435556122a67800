import ServiceReach.Source.Tree
import ServiceReach.Text.Utf8
import ServiceReach.Workspace.Path

/-
  The files of a run. Each part of a path but the last has to name a directory. A directory is
  there if it is listed or if something lies below it. Of what lies outside of the working
  directory little is known.
-/

namespace ServiceReach

/-- The syntax tree of a source file, made by a parser from the text as it is read. -/
structure Source.Parsed where
  tree : Tree
  hasError : Bool := false

/-- What stands at a place. -/
inductive Workspace.Entry where
  | directory
  | file (content : List UInt8) (parsed : Option Source.Parsed)
  /-- A link that leads nowhere. -/
  | dangling
  /-- A device that takes everything and holds nothing. -/
  | sink

/-- Files and directories, by where they stand. -/
structure Workspace where
  /-- The working directory. -/
  directory : Location := []
  entries : List (Location × Workspace.Entry) := []

namespace Workspace

/-- The directories that stand at the top. -/
def topDirectories : List String :=
  ["bin", "boot", "dev", "etc", "home", "lib", "media", "mnt", "opt", "proc", "root", "run", "sbin",
   "srv", "sys", "tmp", "usr", "var"]

/-- What is known of the places outside of the working directory. -/
def surroundings : List (Location × Entry) :=
  topDirectories.map (fun name => ([name], .directory)) ++ [(["dev", "null"], .sink)]

/-- What stands at a place. -/
def lookup (w : Workspace) (place : Location) : Option Entry :=
  match w.entries.lookup place with
  | some entry => some entry
  | none =>
    if place.isPrefixOf w.directory || w.entries.any fun e => place.isPrefixOf e.1 then
      some .directory
    else surroundings.lookup place

/-- Follows the parts of a path from a directory, up to its last part if that is a name. -/
def follow (w : Workspace) :
    Location → List String → Except PathError (Location × Option String)
  | place, [] => .ok (place, none)
  | place, "." :: rest => w.follow place rest
  | place, ".." :: rest => w.follow place.dropLast rest
  | place, [last] => .ok (place, some last)
  | place, part :: rest =>
    if Path.maxPart < part.utf8ByteSize then .error .tooLong
    else
      match w.lookup (place ++ [part]) with
      | some .directory => w.follow (place ++ [part]) rest
      | some (.file _ _) | some .sink => .error .notDirectory
      | some .dangling | none => .error .missing

/-- Follows a path up to its last part if that is a name. -/
def approach (w : Workspace) (path : String) : Except PathError (Location × Option String) :=
  if path.toList.contains (Char.ofNat 0) then .error .nul
  else if Path.maxPath ≤ path.utf8ByteSize then .error .tooLong
  else if path == "" then .error .missing
  else w.follow (if Path.isAbsolute path then [] else w.directory) (Path.parts path)

/-- Where the last part of a path leads. -/
def arrive (place : Location) (last : Option String) : Except PathError Location :=
  match last with
  | none => .ok place
  | some part =>
    if Path.maxPart < part.utf8ByteSize then .error .tooLong else .ok (place ++ [part])

/-- The location that a path names. -/
def locate (w : Workspace) (path : String) : Except PathError Location := do
  let (place, last) ← w.approach path
  arrive place last

/-- Whether a path names a directory. -/
def isDirectory (w : Workspace) (path : String) : Bool :=
  match w.locate path with
  | .error _ => false
  | .ok place =>
    match w.lookup place with
    | some .directory => true
    | _ => false

/-- The content of a file. -/
def read (w : Workspace) (path : String) : Except PathError (List UInt8) := do
  let place ← w.locate path
  let isFile := !Path.namesDirectory path
  match w.lookup place with
  | some .directory => throw .isDirectory
  | some .dangling | none => throw .missing
  | some (.file content _) => if isFile then return content else throw .notDirectory
  | some .sink => if isFile then return [] else throw .notDirectory

/-- The workspace with a file at a place, in place of what stood there. -/
def put (w : Workspace) (place : Location) (content : List UInt8) : Workspace :=
  { w with entries := w.entries.filter (·.1 != place) ++ [(place, .file content none)] }

/-- The workspace with the content of a file changed; what is no file stays as it is. -/
def update (w : Workspace) (place : Location) (next : List UInt8 → List UInt8) : Workspace :=
  match w.lookup place with
  | some (.file content _) => w.put place (next content)
  | _ => w

/-- Opens a file for writing; it is created if it is not there. -/
def openFile (w : Workspace) (path : String) : Except PathError (Location × Workspace) := do
  let (place, last) ← w.approach path
  if Path.namesDirectory path then throw .isDirectory
  let place ← arrive place last
  match w.lookup place with
  | some .directory => throw .isDirectory
  | some .dangling => throw .missing
  | some (.file _ _) | some .sink => return (place, w)
  | none => return (place, w.put place [])

/-- Writes a text into an open file from an offset on, over what stands there. -/
def overwrite (w : Workspace) (place : Location) (offset : Nat) (bytes : List UInt8) : Workspace :=
  w.update place fun content =>
    content.take offset ++ bytes ++ content.drop (offset + bytes.length)

/-- Writes a text to the end of an open file. -/
def append (w : Workspace) (place : Location) (bytes : List UInt8) : Workspace :=
  w.update place (· ++ bytes)

/-- Opens a file for writing and empties it. -/
def create (w : Workspace) (path : String) : Except PathError (Location × Workspace) := do
  let (place, w) ← w.openFile path
  return (place, w.update place fun _ => [])

/-- Writes a text to a file, in place of what it held. -/
def write (w : Workspace) (path text : String) : Except PathError Workspace := do
  let (place, w) ← w.create path
  return w.append place (Text.Utf8.encode text)

/-- The files of the working directory, by their paths. -/
def files (w : Workspace) : List (String × List UInt8) :=
  w.entries.filterMap fun (place, entry) =>
    match entry with
    | .file content _ =>
      (Path.below? w.directory place).map fun parts => ("/".intercalate parts, content)
    | _ => none

/-- The files that are in `after` and not here. -/
def newFiles (w after : Workspace) : List (String × List UInt8) :=
  after.files.filter fun f => !w.files.any (·.1 == f.1)

/-- The files of `after` that are not here, or not with that content. -/
def changedFiles (w after : Workspace) : List (String × List UInt8) :=
  after.files.filter fun f => !w.files.contains f

end Workspace
end ServiceReach

import ServiceReach.Source.Listing
import ServiceReach.Text.Hex
import ServiceReach.Workspace.Basic

/-
  Workspaces as JSON. A bundle lists the files and the empty directories. A file has a path, its
  content as a text or as hexadecimal digits, and, if it is a source file, its syntax tree.
-/

namespace ServiceReach.Workspace

/-- The text of a member of an object. -/
def member? (j : Json) (key : String) : Option String :=
  (j.get? key).bind Json.str?

/-- The items of a member of an object; none if it is no array. -/
def items? (j : Json) (key : String) : Option (List Json) :=
  (j.get? key).bind Json.arr?

/-- Whether a member of an object is true. -/
def isSet (j : Json) (key : String) : Bool :=
  ((j.get? key).bind Json.bool?).getD false

/-- The content of a file of a bundle. -/
def contentOf (file : Json) : List UInt8 :=
  match member? file "hex" with
  | some digits => (Text.unhex? digits.toList).getD []
  | none => Text.Utf8.encode ((member? file "text").getD "")

/-- A file of a bundle. -/
def entryOf (file : Json) : Entry :=
  if isSet file "dangling" then .dangling
  else
    .file (contentOf file) ((items? file "tree").map fun rows =>
      { tree := Source.Tree.ofJson rows, hasError := isSet file "has_error" })

/-- Entries with one more, in place of one that stood there. -/
def addEntry (entries : List (Location × Entry)) (e : Location × Entry) : List (Location × Entry) :=
  entries.filter (·.1 != e.1) ++ [e]

/-- The workspace of a bundle that stands in a directory. Of two files at one place the later one
counts. -/
def ofJson (directory : Location) (bundle : Json) : Workspace :=
  let files := ((items? bundle "files").getD []).map fun f =>
    (Path.resolve directory ((member? f "path").getD ""), entryOf f)
  let directories := ((items? bundle "dirs").getD []).filterMap fun d =>
    d.str?.map fun path => (Path.resolve directory path, Entry.directory)
  { directory, entries := files.foldl addEntry [] ++ directories }

end ServiceReach.Workspace

import ServiceReach.Text.Part
import ServiceReach.Text.Quoted

/-
  Paths. A path is divided into parts by slashes. Where a path leads is a location: the names of
  the directories from the top down to it. A path that starts with a slash leads there from the
  top, any other from the working directory.
-/

namespace ServiceReach

/-- Why a path cannot be read or written. -/
inductive PathError where
  | missing
  | notDirectory
  | isDirectory
  /-- A part of the path, or the path, is longer than it may be. -/
  | tooLong
  /-- The path is the number of a file that is not open. -/
  | notOpen
  /-- The path has a character that no path may have. -/
  | nul
deriving DecidableEq, Repr

/-- The number and the meaning of an error. -/
def PathError.reason : PathError → String
  | .missing => "[Errno 2] No such file or directory"
  | .notDirectory => "[Errno 20] Not a directory"
  | .isDirectory => "[Errno 21] Is a directory"
  | .tooLong => "[Errno 36] File name too long"
  | .notOpen => "[Errno 9] Bad file descriptor"
  | .nul => "embedded null byte"

/-- What is said about a path that cannot be read or written. -/
def PathError.message (e : PathError) (path : String) : String :=
  match e with
  | .notOpen | .nul => e.reason
  | _ => e.reason ++ ": " ++ Text.quoted path

/-- Where something stands, by the names that lead there from the top. -/
abbrev Location := List String

namespace Path

/-- The parts of a path. -/
def parts (path : String) : List String :=
  (Text.split '/' path).filter (· != "")

/-- Whether a path can only name a directory. -/
def namesDirectory (path : String) : Bool :=
  Text.endsWith "/" path

/-- Whether a path does not depend on the working directory. -/
def isAbsolute (path : String) : Bool :=
  Text.startsWith "/" path

/-- The greatest number of bytes in a part of a path. -/
def maxPart : Nat := 255

/-- The number of bytes from which on a path is too long. -/
def maxPath : Nat := 4096

/-- Where a path leads from a directory, by itself: `.` leads nowhere and `..` undoes the part
before it. -/
def resolve (directory : Location) (path : String) : Location :=
  (parts path).foldl (fun place part =>
    if part == "." then place else if part == ".." then place.dropLast else place ++ [part])
    (if isAbsolute path then [] else directory)

/-- What the full form of a path starts with: a slash, or two if the path starts with just two. -/
def leadingSlashes (path : String) : String :=
  if (path.toList.takeWhile (· == '/')).length == 2 then "//" else "/"

/-- The path in its full form: from the top, and without detours. -/
def full (directory : Location) (path : String) : String :=
  leadingSlashes path ++ "/".intercalate (resolve directory path)

/-- The names that lead from a location to another one below it. -/
def below? (place target : Location) : Option (List String) :=
  if place.isPrefixOf target then some (target.drop place.length) else none

end Path
end ServiceReach

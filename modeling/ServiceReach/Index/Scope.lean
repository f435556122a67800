import ServiceReach.Index.TypeText
import ServiceReach.Model.Basic
import ServiceReach.Text.LetterCase

/-
  From type names as written to binary names. A simple name is looked for in the enclosing types,
  then among the single-type imports, in the package, among the on-demand imports and in
  `java.lang`. A name that nobody declares gets the binary name it most likely has.
-/

namespace ServiceReach.Index

/-- The package and the imports of a source file. -/
structure Header where
  package : String := ""
  /-- Imported types by simple name, as dotted names. -/
  imports : List (String × String) := []
  /-- The packages and types imported on demand. -/
  onDemand : List String := []
deriving Repr

/-- The declared types, each with the name of the type around it. -/
structure Scopes where
  entries : List (String × Option String)

/-- Types of `java.lang` that are known without being declared. -/
def langTypes : List String :=
  ["AutoCloseable", "Boolean", "Byte", "CharSequence", "Character", "Class", "ClassLoader",
   "Cloneable", "Comparable", "Deprecated", "Double", "Enum", "Error", "Exception", "Float",
   "IllegalArgumentException", "IllegalStateException", "IndexOutOfBoundsException", "Integer",
   "InterruptedException", "Iterable", "Long", "Math", "NullPointerException", "Number",
   "Object", "Override", "Process", "Record", "Runnable", "Runtime", "RuntimeException",
   "SecurityException", "Short", "String", "StringBuffer", "StringBuilder", "SuppressWarnings",
   "System", "Thread", "Throwable", "UnsupportedOperationException", "Void"]

/-- A name inside a package; an empty package adds nothing. -/
def inPackage (package name : String) : String :=
  if package.isEmpty then name else package ++ "." ++ name

/-- The dotted name whose segments from `parts` are nested types after the first `n`. -/
def nestAfter (n : Nat) (parts : List String) : String :=
  ".".intercalate (parts.take n) ++ String.join ((parts.drop n).map ("$" ++ ·))

namespace Scopes

/-- Whether a type of this name is declared. -/
def declares (s : Scopes) (name : String) : Bool :=
  s.entries.any fun e => e.1 == name

/-- The type around a declared type. -/
def enclosing? (s : Scopes) (name : String) : Option String :=
  (s.entries.find? fun e => e.1 == name).bind (·.2)

/-- The scopes from one outwards, at most `fuel` of them. -/
def aroundFrom (s : Scopes) : Nat → Option String → List String
  | 0, _ => []
  | fuel + 1, scope =>
    match present? scope with
    | none => []
    | some name => name :: s.aroundFrom fuel (s.enclosing? name)

/-- A scope and the scopes around it, innermost first. -/
def around (s : Scopes) (scope : Option String) : List String :=
  s.aroundFrom (s.entries.length + 1) scope

/-- The longest of the first `n` leading parts that is declared, with the rest nested in it. -/
def nestedIn? (s : Scopes) (parts : List String) : Nat → Option String
  | 0 => none
  | n + 1 =>
    if s.declares (".".intercalate (parts.take (n + 1))) then some (nestAfter (n + 1) parts)
    else s.nestedIn? parts n

/--
The binary name of a dotted name: nested in the longest leading part that is declared; else, if it
is not declared itself, nested in the part that ends with the first capitalised segment.
-/
def toBinary (s : Scopes) (dotted : String) : String :=
  let parts := Text.split '.' dotted
  match s.nestedIn? parts (parts.length - 1) with
  | some name => name
  | none =>
    if s.declares dotted then dotted
    else
      match parts.findIdx? Text.startsUpper with
      | some i => nestAfter (i + 1) parts
      | none => dotted

/-- The type that a simple name means in a scope: the scope itself or a member of it. -/
def memberOf? (s : Scopes) (name scope : String) : Option String :=
  if simpleName scope == name then some scope
  else
    let member := scope ++ "$" ++ name
    if s.declares member then some member else none

/-- A type imported on demand. -/
def importedOnDemand? (s : Scopes) (name package : String) : Option String :=
  let candidate := s.toBinary (package ++ "." ++ name)
  if s.declares candidate then some candidate else none

/-- The name itself, if it is declared. -/
def ifDeclared (s : Scopes) (name : String) : Option String :=
  if s.declares name then some name else none

/-- The type that a simple name means, if something in reach declares or imports it. -/
def simple? (s : Scopes) (h : Header) (scope : Option String) (name : String) : Option String :=
  ((s.around scope).findSome? (s.memberOf? name)).or <|
  ((h.imports.lookup name).map s.toBinary).or <|
  (s.ifDeclared (inPackage h.package name)).or <|
  (h.onDemand.findSome? (s.importedOnDemand? name)).or <|
  s.ifDeclared ("java.lang." ++ name)

/-- The binary name of a class name, dotted or simple. -/
def resolveClass (s : Scopes) (h : Header) (scope : Option String) (name : String) : String :=
  let head := Text.beforeFirst '.' name
  let rest := Text.afterFirst '.' name
  match s.simple? h scope head with
  | some outer => if rest.isEmpty then outer else outer ++ "$" ++ Text.replaceChar '.' '$' rest
  | none =>
    if !rest.isEmpty then s.toBinary name
    else if langTypes.contains head then "java.lang." ++ head
    else inPackage h.package head

/-- The type that a written type means; `var` and an empty text mean none. -/
def resolve (s : Scopes) (h : Header) (scope : Option String) (raw : String) : Option String :=
  let (base, dims) := readType raw
  if base.isEmpty || base == "var" then none
  else if primitiveTypes.contains base then some (withDims base dims)
  else some (withDims (s.resolveClass h scope base) dims)

end Scopes
end ServiceReach.Index

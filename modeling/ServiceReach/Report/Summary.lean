import ServiceReach.Model.Program
import ServiceReach.Text.Lines

/-
  The summary of a program: the packages of the application types, and each of these types with its
  methods and the calls in their bodies. Lines and columns are counted from one.
-/

namespace ServiceReach

namespace Program

/-- The packages of the application types, each once, in ascending order. -/
def packages (p : Program) : List String :=
  Text.sorted ((p.applicationTypes.map TypeDecl.package).filter (· != "")).eraseDups

end Program

namespace Summary

/-- The lines about a method. -/
def methodLines (m : Method) : List String :=
  ("  - " ++ m.subsignature ++ "  @ " ++ toString (m.line + 1) ++ ":" ++ toString (m.col + 1)) ::
    (m.code.flatMap Instruction.calls).map fun site =>
      "      calls: " ++ site.target ++ "  @ " ++ toString site.line

/-- The line that introduces a type. -/
def headLine (t : TypeDecl) : String :=
  "[" ++ t.name ++ "] " ++ (if t.isInterface then "interface" else "class") ++
    "  (line " ++ toString (t.line + 1) ++ ", col " ++ toString (t.col + 1) ++ ")"

/-- The line about the superclass, if there is one. -/
def extendsLines (t : TypeDecl) : List String :=
  (present? t.superclass).toList.map ("  extends " ++ ·)

/-- The line about the interfaces, if there are any. -/
def implementsLines (t : TypeDecl) : List String :=
  if t.interfaces.isEmpty then [] else ["  implements " ++ ", ".intercalate t.interfaces]

/-- The lines about a type. -/
def typeLines (t : TypeDecl) : List String :=
  ["", headLine t] ++ extendsLines t ++ implementsLines t ++ t.methods.flatMap methodLines

/-- The application types in ascending order of their names. -/
def sortedTypes (p : Program) : List TypeDecl :=
  p.applicationTypes.mergeSort fun s t => decide (s.name ≤ t.name)

/-- The lines of the summary. -/
def lines (p : Program) : List String :=
  ["", "=== PACKAGES ==="] ++ p.packages.map (" - " ++ ·) ++
    ["", "=== CLASSES & METHODS ==="] ++ (sortedTypes p).flatMap typeLines

end Summary

/-- The summary of a program. -/
def Program.summary (p : Program) : String :=
  Text.unlines (Summary.lines p)

end ServiceReach

import ServiceReach.Json.Printer
import ServiceReach.Report.Summary

/-
  The application part of a program as JSON. Lines and columns are counted from zero, except the
  lines of calls.
-/

namespace ServiceReach

/-- A call site as JSON. -/
def CallSite.toJson (site : CallSite) : Json :=
  .obj [("name", .str site.name), ("target", .str site.target), ("kind", .str site.dispatch.name),
    ("argCount", .ofNat site.args.length), ("line", .int site.line)]

/-- A method as JSON. -/
def Method.toJson (m : Method) : Json :=
  .obj [("signature", .str m.signature), ("name", .str m.name), ("params", .ofStrings m.params),
    ("returnType", .str m.returnType), ("modifiers", .ofStrings (Text.sorted m.modifiers)),
    ("line", .int m.line), ("col", .int m.col),
    ("calls", .arr ((m.code.flatMap Instruction.calls).map CallSite.toJson))]

/-- A type as JSON. -/
def TypeDecl.toJson (t : TypeDecl) : Json :=
  .obj [("fqcn", .str t.name), ("simpleName", .str (simpleName t.name)),
    ("superclass", .ofOption t.superclass), ("interfaces", .ofStrings t.interfaces),
    ("isInterface", .bool t.isInterface), ("sourceFile", .ofOption t.file),
    ("line", .int t.line), ("col", .int t.col), ("methods", .arr (t.methods.map Method.toJson))]

/-- The packages and application types of a program as JSON. -/
def Program.toJson (p : Program) : Json :=
  .obj [("packages", .ofStrings p.packages),
    ("classes", .arr (p.applicationTypes.map TypeDecl.toJson))]

end ServiceReach

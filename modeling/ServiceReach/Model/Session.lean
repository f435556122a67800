import ServiceReach.Model.View

/-
  Sessions. A session is a program that grows by declarations and remembers, in order, the names
  that were looked up without being declared. Declaring a remembered name forgets it.
-/

namespace ServiceReach

/-- A program and the undeclared names looked up in it. -/
structure Session where
  program : Program
  phantoms : List String

namespace Session

/-- A session in which nothing was looked up yet. -/
def ofProgram (p : Program) : Session := ⟨p, []⟩

/-- The names with one more, unless it is among them. -/
def addName (known : List String) (name : String) : List String :=
  if known.contains name then known else known ++ [name]

/-- Remembers names, each once. -/
def remember (s : Session) (names : List String) : Session :=
  { s with phantoms := names.foldl addName s.phantoms }

/-- Declares a type. -/
def declare (s : Session) (t : TypeDecl) : Session :=
  match s.program.find? t.name with
  | some _ => s
  | none => ⟨s.program.declare t, s.phantoms.filter (· != t.name)⟩

/-- An answer and the session after it. -/
def ask {α : Type} (s : Session) (answer : Trail α) : α × Session :=
  (answer.value, s.remember answer.names)

end Session
end ServiceReach

import ServiceReach.Log

/-
  Strategies for finding entry methods, and what they bring: methods or types, diagnostics about
  calls that could not be used, and log records.
-/

namespace ServiceReach

/-- A call that the search for entry methods could not use. -/
structure Diagnostic where
  /-- The signature of the method that contains the call. -/
  method : String
  line : Int
  message : String
deriving DecidableEq, Repr

/-- The text of a diagnostic. -/
def Diagnostic.text (d : Diagnostic) : String :=
  d.method ++ ":" ++ toString d.line ++ ": " ++ d.message

/-- A way to find entry methods. -/
inductive Strategy where
  /-- Objects published as services. -/
  | services
  /-- Receivers registered without a permission. -/
  | receivers
  /-- Subclasses of the binder class. -/
  | binders
deriving DecidableEq, Repr

/-- The name of a way to find entry methods. -/
def Strategy.name : Strategy → String
  | .services => "service-registration"
  | .receivers => "receiver-registration"
  | .binders => "binder-subclass"

/-- The way to find entry methods with a given name. -/
def Strategy.ofName? (name : String) : Option Strategy :=
  [Strategy.services, .receivers, .binders].find? fun s => s.name == name

/-- What a search for entry methods brings. -/
structure Findings (α : Type) where
  found : α
  diagnostics : List Diagnostic := []
  log : List LogRecord := []

/-- What is said about a diagnostic when it is recorded. -/
def Diagnostic.record (d : Diagnostic) : LogRecord :=
  ⟨.warning, .entryPoints, " [DEBUG] " ++ d.text⟩

/-- Adds a diagnostic to what was found. -/
def Findings.diagnose {α : Type} (f : Findings α) (d : Diagnostic) : Findings α :=
  { f with diagnostics := f.diagnostics ++ [d], log := f.log ++ [d.record] }

end ServiceReach

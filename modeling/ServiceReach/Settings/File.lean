import ServiceReach.Json.Parser
import ServiceReach.Json.Printer
import ServiceReach.Log
import ServiceReach.Settings.Basic

/-
  Configuration files. A file holds a JSON object; a key that is no setting is ignored, with a
  warning. Writing a sheet and reading it back gives the same sheet and no warning.
-/

namespace ServiceReach

namespace Sheet

/-- A configuration file that cannot be used. -/
inductive LoadError where
  /-- The text is not JSON. -/
  | notJson
  /-- The text has an integer of more digits than an integer may have. -/
  | tooLong (digits : Nat)
  /-- The value is not an object. -/
  | notObject (path : String)
deriving DecidableEq, Repr

/-- What is said about a configuration file that cannot be used. -/
def LoadError.message : LoadError → String
  | .notJson => "the text is not JSON"
  | .tooLong digits => Text.tooManyDigits digits
  | .notObject path => "Config file " ++ path ++ " must hold a JSON object"

/-- What is said about a key that is no setting. -/
def unknownKey (key : String) : LogRecord :=
  ⟨.warning, .settings, "Ignoring unknown config key: " ++ key⟩

/-- The sheet of the members of an object, with the initial value for each setting not given. -/
def ofMembers (members : List (String × Json)) : Sheet :=
  members.foldl (fun sheet (key, value) =>
    match Setting.ofKey? key with
    | some s => sheet.set s value
    | none => sheet) initial

/-- What is said about the keys of an object that are no settings. -/
def warnings (members : List (String × Json)) : List LogRecord :=
  (members.filter fun m => (Setting.ofKey? m.1).isNone).map fun m => unknownKey m.1

/-- The sheet that a file of a given path and text holds, and what is said about its keys. -/
def parse (path text : String) : Except LoadError (Sheet × List LogRecord) :=
  match Json.parse text with
  | .error .invalid => .error .notJson
  | .error (.tooLong digits) => .error (.tooLong digits)
  | .ok (.obj members) => .ok (ofMembers members, warnings members)
  | .ok _ => .error (.notObject path)

/-- The text of the file that holds a sheet. -/
def render (sheet : Sheet) : String :=
  sheet.toJson.pretty

end Sheet
end ServiceReach

import ServiceReach.Command.Arguments
import ServiceReach.Settings.File
import ServiceReach.Workspace.Basic

/-
  The settings of a command line: those of the configuration file, if one is named, and over them
  those that the arguments give. An empty argument gives nothing.
-/

namespace ServiceReach.Command

/-- Why there are no settings. -/
inductive SettingsError where
  /-- The configuration file cannot be read. -/
  | unreadable (e : PathError)
  /-- The configuration file is not UTF-8. -/
  | notText
  /-- The configuration file holds no settings. -/
  | invalid (e : Sheet.LoadError)
deriving DecidableEq, Repr

/-- The sheet of a configuration file, and what is said about it. -/
def loadSheet (w : Workspace) (path : String) : Except SettingsError (Sheet × List LogRecord) :=
  match w.read path with
  | .error e => .error (.unreadable e)
  | .ok content =>
    match Text.Utf8.decode? content with
    | none => .error .notText
    | some text =>
      match Sheet.parse path text with
      | .error e => .error (.invalid e)
      | .ok loaded => .ok loaded

/-- The sheet with a text in place of a value, unless the text is missing or empty. -/
def override (setting : Setting) (value : Option String) (sheet : Sheet) : Sheet :=
  match value.filter (· != "") with
  | none => sheet
  | some text => sheet.set setting (.str text)

/-- The value of the library directories; an empty array stands for one that is left out. -/
def libraryValue (libraries : List (Option String)) : Json :=
  .arr (libraries.map fun l => (l.map Json.str).getD (.arr []))

/-- The sheet with the values that arguments give. -/
def Arguments.apply (a : Arguments) (sheet : Sheet) : Sheet :=
  let sheet := sheet.set .appRoots (.ofStrings a.roots)
  let sheet :=
    if a.libraries.isEmpty then sheet
    else sheet.set .libraryRoots (libraryValue a.libraries)
  let sheet := override .pathsFile a.pathsFile sheet
  let sheet := override .callGraphFile a.callGraphFile sheet
  let sheet := override .indexFile a.indexFile sheet
  let sheet := if a.noConsole then sheet.set .console (.bool false) else sheet
  override .logFile a.logFile (override .logLevel a.logLevel sheet)

/-- The settings that arguments lead to: those of the configuration file, then their own. -/
def Arguments.sheet (a : Arguments) (w : Workspace) :
    Except SettingsError (Sheet × List LogRecord) := do
  match a.config.filter (· != "") with
  | none => return (a.apply .initial, [])
  | some path =>
    let (sheet, log) ← loadSheet w path
    return (a.apply sheet, log)

end ServiceReach.Command

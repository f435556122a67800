import ServiceReach.Analysis
import ServiceReach.Command.Settings
import ServiceReach.Report.Callers
import ServiceReach.Report.Export
import ServiceReach.Settings.Heuristics
import ServiceReach.Settings.LogLevel
import ServiceReach.Trace.Printer
import ServiceReach.Workspace.Sources

/-
  The command: it indexes the sources, analyses them and writes what the settings ask for. A run
  works on a workspace. What it says is shown and, if there is a log file, written to the end of
  that file at once, so the log and an output may share a file. The outputs for traces are opened
  only once there are entry methods. A setting of a wrong type stops the run where it is used.
-/

namespace ServiceReach.Command

/-- Why a run ends before it is complete. -/
inductive Fault where
  /-- A value is of a type that cannot be used. -/
  | wrongType (e : WrongType)
  /-- A path has a character that no path may have. -/
  | nulInPath
  /-- A path is a negative number. -/
  | negativeFile
  /-- A directory is a number that is too large. -/
  | hugeDirectory
deriving DecidableEq, Repr

/-- What is said about a run that ends before it is complete. -/
def Fault.message : Fault → String
  | .wrongType e => "the value of " ++ e.setting.key ++ " cannot be used"
  | .nulInPath => PathError.nul.reason
  | .negativeFile => "negative file descriptor"
  | .hugeDirectory => "fd is greater than maximum"

/-- What a run has done so far. -/
structure Run where
  workspace : Workspace
  /-- The time of the run. -/
  time : Moment
  /-- The room that the stack has for typing. -/
  room : Nat
  /-- The level from which on records are shown. -/
  level : Nat
  /-- The log file, once it is open. -/
  logFile : Option Location := none
  printed : String := ""
  log : String := ""

/-- A part of a run. -/
abbrev Job := ExceptT Fault (StateM Run)

/-- Records as text, as far as they are shown at a level. -/
def logText (time : Moment) (level : Nat) (records : List LogRecord) : String :=
  Text.unlines ((records.filter (LogRecord.shownAt level)).map (LogRecord.line time))

/-- The workspace with a text at the end of the log file, if there is one. -/
def saveLog (w : Workspace) (logFile : Option Location) (text : String) : Workspace :=
  match logFile with
  | none => w
  | some place => w.append place (Text.Utf8.encode text)

/-- Says several things. -/
def say (records : List LogRecord) : Job Unit :=
  modify fun r =>
    let text := logText r.time r.level records
    { r with log := r.log ++ text, workspace := saveLog r.workspace r.logFile text }

/-- Prints a text. -/
def print (text : String) : Job Unit :=
  modify fun r => { r with printed := r.printed ++ text }

/-- Whether a number can be that of a file. -/
def isFileNumber (n : Int) : Bool :=
  -2147483648 ≤ n && n < 2147483648

/-- The number that a value is. -/
def number? : Json → Option Int
  | .int n => some n
  | .bool b => some (if b then 1 else 0)
  | _ => none

/-- Opens the file of a setting and empties it, or says why not. -/
def openOutput (s : Setting) (output : Name) : Job (Except PathError Location) := do
  match output with
  | .text path =>
    match (← get).workspace.create path with
    | .ok (place, w) =>
      modify fun r => { r with workspace := w }
      return .ok place
    | .error .nul => throw .nulInPath
    | .error e => return .error e
  | .other value =>
    match (number? value).filter isFileNumber with
    | none => throw (.wrongType ⟨s⟩)
    | some n => if n < 0 then throw .negativeFile else return .error .notOpen

/-- Writes a text to the file of a setting, or says why not. -/
def save (s : Setting) (output : Name) (text : String) : Job (Option PathError) := do
  match ← openOutput s output with
  | .error e => return some e
  | .ok place =>
    modify fun r => { r with workspace := r.workspace.append place (Text.Utf8.encode text) }
    return none

/-- The output that a setting asks for. -/
def output? (sheet : Sheet) (s : Setting) : Option Name :=
  if sheet.isSet s then some (sheet.name s) else none

/-- Indexes a directory; a number is none. -/
def indexRoot (application : Bool) (x : Index.Indexer) (root : Name) : Job Index.Indexer := do
  match root with
  | .text path =>
    let (x, log) := (← get).workspace.indexDirectory application x path
    say log
    return x
  | .other value =>
    match number? value with
    | none => throw (.wrongType ⟨.libraryRoots⟩)
    | some n =>
      unless isFileNumber n do throw .hugeDirectory
      say [Workspace.notDirectoryRecord root.shown]
      return x

/-- Indexes library directories. -/
def indexLibraries : List Name → Index.Indexer → Job Index.Indexer
  | [], x => return x
  | root :: rest, x => do
    say [⟨.info, .analysis,
      "Including " ++ root.shown ++ " in analysis for better type resolution."⟩]
    indexLibraries rest (← indexRoot false x root)

/-- The program of the sources. -/
def load (roots : List String) (sheet : Sheet) : Job Program := do
  let x ← roots.foldlM (fun x root => indexRoot true x (.text root)) (.empty (← get).room)
  unless sheet.isSet .libraryRoots do
    say [⟨.warning, .analysis,
      "No library roots given. Type resolution might be incomplete."⟩]
  match Sheet.elements? (sheet.value .libraryRoots) with
  | none => throw (.wrongType ⟨.libraryRoots⟩)
  | some libraries =>
    let built := (← indexLibraries (libraries.map Name.ofJson) x).catalog.build
    say built.log
    return built.program

/-- Writes the program as JSON. -/
def saveIndex (p : Program) (output : Name) : Job Unit := do
  let path := output.shown
  match ← save .indexFile output p.toJson.pretty with
  | none => say [⟨.info, .analysis, "Index written to " ++ path⟩]
  | some e =>
    say [⟨.error, .analysis, "Failed to write " ++ path ++ ": " ++ e.message path⟩]

/-- What is said when a file for traces is opened. -/
def openedRecord (path : String) : LogRecord :=
  ⟨.info, .reports, "Call stacks will be dumped to " ++ path⟩

/-- What is said when a file for traces is complete. -/
def closedRecord (path : String) : LogRecord :=
  ⟨.info, .reports, "Finished writing call stacks to " ++ path⟩

/-- A file that traces are written to. -/
structure PathsFile where
  path : String
  place : Location
  /-- The number of bytes written so far. -/
  offset : Nat := 0

/-- Opens the file for traces. -/
def openPaths (output : Option Name) : Job (Option PathsFile) := do
  match output with
  | none => return none
  | some output =>
    let path := output.shown
    match ← openOutput .pathsFile output with
    | .ok place =>
      say [openedRecord path]
      return some { path, place }
    | .error e =>
      say [⟨.error, .analysis, "Failed to open " ++ path ++ " for writing: " ++ e.message path⟩]
      return none

/-- Writes traces to the file for them, after those written before. -/
def PathsFile.save (file : PathsFile) (traces : List Trace) : Job PathsFile := do
  let bytes := Text.Utf8.encode (Trace.render traces)
  modify fun r => { r with workspace := r.workspace.overwrite file.place file.offset bytes }
  return { file with offset := file.offset + bytes.length }

/-- Shows traces on the console. -/
def showTraces (traces : List Trace) : Job Unit :=
  match Trace.consoleText [Trace.consoleLimit] traces with
  | .ok text => print text
  | .error _ => return

/-- Shows and writes the traces of each entry method. -/
def reportTraces (console : Bool) :
    List (Method × List Trace) → Option PathsFile → Job (Option PathsFile)
  | [], file => return file
  | (entry, traces) :: rest, file => do
    if console then showTraces traces
    let file ← file.mapM (·.save traces)
    say [Extraction.extractRecord entry traces]
    reportTraces console rest file

/-- What is said about the file of a call graph. -/
def callGraphRecord (path : String) : Option PathError → LogRecord
  | none => ⟨.info, .reports, "Plain call graph written to " ++ path⟩
  | some e => ⟨.error, .reports, "Error writing call graph to " ++ path ++ ": " ++ e.message path⟩

/-- Writes the call graph. -/
def saveCallGraph (g : CallGraph) (p : Program) (output : Name) : Job Unit := do
  say [callGraphRecord output.shown (← save .callGraphFile output (g.render p))]

/-- Explores the program from its entry methods and writes what is found. -/
def report (sheet : Sheet) (p : Program) (entries : List Method) : Job Nat := do
  let file ← openPaths (output? sheet .pathsFile)
  let x := p.explore entries
  say x.openingRecords
  let file ← reportTraces (sheet.isSet .console) x.found file
  say [Extraction.totalRecord x.found]
  match file with
  | none => pure ()
  | some file => say [closedRecord file.path]
  match output? sheet .callGraphFile with
  | none => pure ()
  | some output => saveCallGraph x.graph p output
  return x.count

/-- Whether an identification has to compare a class with a server namespace that is no text. -/
def lacksNamespace (sheet : Sheet) (p : Program) (i : Identification) : Bool :=
  (sheet.name .serverNamespace).text?.isNone && i.usedFallback &&
    p.applicationTypes.any TypeDecl.isRealClass

/-- Identifies the entry methods. -/
def identify (sheet : Sheet) (p : Program) : Job Identification := do
  match sheet.heuristics with
  | .error e => throw (.wrongType e)
  | .ok h =>
    let i := (View.ofProgram p).identify h {}
    if lacksNamespace sheet p i then
      -- The run stops at the first such class, right after it turned to the fallback.
      say (((View.ofProgram p).identify h { fallback := [] }).log ++ View.fallbackRecords h)
      throw (.wrongType ⟨.serverNamespace⟩)
    say i.log
    return i

/-- Runs the analysis; the exit code tells whether there are entry methods. -/
def analyze (roots : List String) (sheet : Sheet) : Job Nat := do
  let p ← load roots sheet
  if sheet.isSet .console then print p.summary
  match output? sheet .indexFile with
  | none => pure ()
  | some output => saveIndex p output
  let i ← identify sheet p
  match i.entries with
  | .error e =>
    say [⟨.critical, .command, e.message⟩]
    return 1
  | .ok entries =>
    let traces ← report sheet p entries
    say [⟨.info, .command, "Done: " ++ toString entries.length ++ " entry points, " ++
      toString traces ++ " traces, " ++ toString i.diagnostics.length ++ " diagnostics"⟩]
    return 0

/-- Opens the log file, by its path in full. -/
def openLog (sheet : Sheet) : Job Unit := do
  match output? sheet .logFile with
  | none => return
  | some (.other _) => throw (.wrongType ⟨.logFile⟩)
  | some (.text path) =>
    let w := (← get).workspace
    let path := Path.full w.directory path
    match w.openFile path with
    | .ok (place, w) => modify fun r => { r with workspace := w, logFile := some place }
    | .error .nul => throw .nulInPath
    | .error e => say [⟨.warning, .root, "Failed to setup file logging: " ++ e.message path⟩]

/-- What a run leaves behind. -/
structure Outcome where
  /-- The exit code, or why there is none. -/
  result : Except Fault Nat
  printed : String
  log : String
  workspace : Workspace

/-- What is left behind when a run is over. -/
def Run.outcome (r : Run) (result : Except Fault Nat) : Outcome :=
  ⟨result, r.printed, r.log, r.workspace⟩

/-- A run that starts at a time in a workspace, after `early` was said. -/
def Run.start (time : Moment) (room : Nat) (w : Workspace) (level : Nat)
    (early : List LogRecord) : Run :=
  { workspace := w, time, room, level, log := Text.unlines (early.map LogRecord.message) }

/-- Runs the command with some settings, after `early` was said. -/
def runSheet (time : Moment) (room : Nat) (w : Workspace) (roots : List String) (sheet : Sheet)
    (level : Nat) (early : List LogRecord) : Outcome :=
  let (result, r) := (openLog sheet *> analyze roots sheet).run (.start time room w level early)
  r.outcome result

/-- Runs the command at a time and with room for typing, unless there is nothing to run. -/
def run (time : Moment) (room : Nat) (argv : List String) (w : Workspace) :
    Except Stop Outcome := do
  let arguments ← Arguments.parse argv
  match arguments.sheet w with
  | .error _ => throw .usage
  | .ok (sheet, early) =>
    match sheet.name .logLevel with
    | .other _ =>
      return (Run.start time room w 0 early).outcome (.error (.wrongType ⟨.logLevel⟩))
    | .text text =>
      match parseLevel text with
      | .error _ => throw .usage
      | .ok level => return runSheet time room w arguments.roots sheet level early

end ServiceReach.Command

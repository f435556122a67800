/-
  Log records. Every step of the analysis answers with the records it writes, in order, whatever
  their level; a level decides only which of them are shown. A record names the part of the tool
  that wrote it. A line of the log starts with the time.
-/

namespace ServiceReach

/-- How much a record matters. -/
inductive Level where
  | debug
  | info
  | warning
  | error
  | critical
deriving DecidableEq, Repr

/-- The name of a level. -/
def Level.name : Level → String
  | .debug => "DEBUG"
  | .info => "INFO"
  | .warning => "WARNING"
  | .error => "ERROR"
  | .critical => "CRITICAL"

/-- The number of a level; greater is graver. -/
def Level.number : Level → Nat
  | .debug => 10
  | .info => 20
  | .warning => 30
  | .error => 40
  | .critical => 50

/-- The part of the tool that writes a record. -/
inductive Channel where
  | settings
  | directories
  | indexing
  | entryPoints
  | callGraph
  | paths
  | reports
  | analysis
  | command
  /-- The set-up of the log itself. -/
  | root
deriving DecidableEq, Repr

/-- The name under which a part writes. -/
def Channel.name : Channel → String
  | .settings => "config"
  | .directories => "inputs.directory_scanning"
  | .indexing => "indexer"
  | .entryPoints => "entry_points"
  | .callGraph => "callgraph"
  | .paths => "path_extractor"
  | .reports => "outputs.output"
  | .analysis => "analysis"
  | .command => "main"
  | .root => "root"

/-- The name under which a part writes to the log. -/
def Channel.fullName (c : Channel) : String :=
  if c == .root then c.name else "framework_surface.src.framework_surface." ++ c.name

/-- A time of day on a date. -/
structure Moment where
  year : Nat := 0
  month : Nat := 0
  day : Nat := 0
  hour : Nat := 0
  minute : Nat := 0
  second : Nat := 0
deriving DecidableEq, Repr

/-- A number with zeros before it up to a width. -/
def Moment.padded (width n : Nat) : String :=
  let digits := Nat.toDigits 10 n
  String.ofList (List.replicate (width - digits.length) '0' ++ digits)

/-- A time as text: the date from the year to the day, then the time of day. -/
def Moment.text (t : Moment) : String :=
  "-".intercalate [padded 4 t.year, padded 2 t.month, padded 2 t.day] ++ " " ++
    ":".intercalate [padded 2 t.hour, padded 2 t.minute, padded 2 t.second]

/-- A log record. -/
structure LogRecord where
  level : Level
  channel : Channel
  message : String
deriving DecidableEq, Repr

namespace LogRecord

/-- A record as a line of the log. -/
def line (t : Moment) (r : LogRecord) : String :=
  t.text ++ " - " ++ r.channel.fullName ++ " - " ++ r.level.name ++ " - " ++ r.message

/-- Whether the record is shown at a level. -/
def shownAt (level : Nat) (r : LogRecord) : Bool :=
  level ≤ r.level.number

end LogRecord
end ServiceReach

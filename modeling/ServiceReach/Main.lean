import ServiceReach.Command.Run
import ServiceReach.Json.Parser
import ServiceReach.Workspace.Bundle
import Std.Time.Format

/-
  The command line. The workspace, source files with their syntax trees, is read as a JSON bundle
  from standard input; the files that a run writes are written to the working directory.
-/

open ServiceReach

namespace ServiceReach.Command

/-- How the command is called. -/
def usage : String :=
  "usage: framework-surface [-h] [--lib DIR] [--config FILE] [--paths-out FILE] " ++
    "[--callgraph-out FILE] [--index-json FILE] [--no-console] [--log-level LEVEL] " ++
    "[--log-file FILE] APP_ROOT [APP_ROOT ...]"

/-- Tells how the command is called: on request, or as an error. -/
def tellUsage : Stop → IO Unit
  | .help => IO.println usage
  | .usage => IO.eprintln usage

/-- Writes the files of a workspace that a run has changed. -/
def writeFiles (before after : Workspace) : IO Unit :=
  for (path, content) in before.changedFiles after do
    IO.FS.writeBinFile path ⟨content.toArray⟩

/-- The room for typing. Of a thousand calls that may be one inside the other, some are made before
    an expression is typed, and some are left for looking names up. -/
def room : Nat := 1000 - 20

/-- The time on the clock. -/
def now : IO Moment := do
  let t ← Std.Time.PlainDateTime.now
  return { year := t.year.toInt.toNat, month := t.month.toNat, day := t.day.toNat,
           hour := t.hour.toNat, minute := t.minute.toNat, second := t.second.toNat }

end ServiceReach.Command

def main (argv : List String) : IO UInt32 := do
  let bundle ← (← IO.getStdin).readToEnd
  let directory := Path.resolve [] (← IO.currentDir).toString
  let workspace := Workspace.ofJson directory ((Json.parse bundle).toOption.getD .null)
  match Command.run (← Command.now) Command.room argv workspace with
  | .error stop =>
    Command.tellUsage stop
    return stop.exit.toUInt32
  | .ok outcome =>
    IO.print outcome.printed
    IO.eprint outcome.log
    Command.writeFiles workspace outcome.workspace
    match outcome.result with
    | .ok exit => return exit.toUInt32
    | .error fault =>
      IO.eprintln fault.message
      return 1

import ServiceReach.Text.Lines
import ServiceReach.Text.Quoted
import ServiceReach.Trace.Extraction

/-
  Traces as text. A file holds every trace in full: a header, the terminus, the steps and a blank
  line. The console shows a trace in full only if it is short, and otherwise its first and last
  step.
-/

namespace ServiceReach

namespace Trace

/-- The lines of a trace in a file. -/
def lines (t : Trace) : List String :=
  ["=== Core Path for " ++ t.entry.signature ++ " ===", "  # ends in " ++ t.terminus.signature] ++
    t.steps.map ("  " ++ ·) ++ [""]

/-- The text of the file that holds the traces. -/
def render (traces : List Trace) : String :=
  Text.unlines (traces.flatMap lines)

/-- The number of steps up to which the console shows a trace in full. -/
def consoleLimit : Int := 5

/-- A trace without steps, of which the first and last step were to be shown. -/
inductive NoSteps where
  | noSteps
deriving DecidableEq, Repr

/-- The lines of a trace on the console. -/
def consoleLines (limit : Int) (t : Trace) : Except NoSteps (List String) :=
  let header := "--- Core Path Found for " ++ t.entry.name ++ " ---"
  if limit < t.steps.length then
    match t.steps.head?, t.steps.getLast? with
    | some first, some last =>
      .ok [header, first,
        "... (" ++ toString ((t.steps.length : Int) - 2) ++ " steps) ...", last]
    | _, _ => .error .noSteps
  else .ok [header, Text.quotedList t.steps]

/-- What consoles with the given limits show of traces, trace by trace. -/
def consoleText (limits : List Int) (traces : List Trace) : Except NoSteps String := do
  let lines ← (traces.flatMap fun t => limits.map (consoleLines · t)).mapM id
  return Text.unlines lines.flatten

/-- The traces that end in the method with a given signature. -/
def endingIn (signature : String) (traces : List Trace) : List Trace :=
  traces.filter fun t => t.terminus.signature == signature

end Trace
end ServiceReach

import ServiceReach.CallGraph.Basic
import ServiceReach.Log
import ServiceReach.Model.View

/-
  Traces. A walk from an entry method goes through the instructions of each method in order and
  enters, at a call, the application methods it may call. Every return that the walk meets, nested
  ones included, completes a trace: all instructions from the entry up to it. A method that is
  already open on the walk is not entered again. The walk is a machine with a stack of frames; one
  text buffer and one list of open methods serve all frames.
-/

namespace ServiceReach

/-- A call chain from an entry method down to a return. -/
structure Trace where
  entry : Method
  /-- The method to which the return belongs. -/
  terminus : Method
  /-- The texts of the instructions, in order. -/
  steps : List String
deriving DecidableEq, Repr

namespace Extraction

/-- A method the walk is in. -/
structure Frame where
  method : Method
  code : List Instruction
  /-- The length of the buffer when the method was entered. -/
  saved : Nat
  /-- The index of the current instruction. -/
  index : Nat := 0
  /-- The methods that the current instruction calls and that are not visited yet. -/
  pending : Option (List Method) := none

/-- The walk between two steps. -/
structure State where
  /-- The methods the walk is in, innermost first. -/
  stack : List Frame := []
  /-- The texts of the instructions on the way, in order. -/
  buffer : List String := []
  /-- The signatures of the methods the walk is in. -/
  opened : List String := []
  /-- The completed traces, latest first. -/
  emitted : List Trace := []
  /-- The number of completed traces. -/
  count : Nat := 0

/-- The application methods that an instruction may call, in order. -/
def callees (v : View) (g : CallGraph) (i : Instruction) : List Method :=
  (i.calls.flatMap g.targets).filter fun m => v.isApplication (some m.owner)

/-- Enters a method, unless it is open or has no instructions. -/
def enter (s : State) (m : Method) : State :=
  if s.opened.contains m.signature || m.instructions.isEmpty then s
  else
    { s with
      stack := ⟨m, m.instructions, s.buffer.length, 0, none⟩ :: s.stack
      opened := m.signature :: s.opened }

/-- Completes a trace in the method `m`, if the instruction is a return. -/
def complete (entry m : Method) (i : Instruction) (s : State) : State :=
  if i.isReturn then
    { s with
      emitted := ⟨entry, m, s.buffer⟩ :: s.emitted
      count := s.count + 1 }
  else s

/-- One step of the walk; `none` when it is over. -/
def step (v : View) (g : CallGraph) (entry : Method) (s : State) : Option State :=
  match s.stack with
  | [] => none
  | f :: rest =>
    match f.code[f.index]? with
    | none =>
      -- The method is done: leave it and forget its part of the buffer.
      some { s with
        stack := rest
        buffer := s.buffer.take f.saved
        opened := s.opened.erase f.method.signature }
    | some i =>
      match f.pending with
      | some (callee :: pending) =>
        some (enter { s with stack := { f with pending := some pending } :: rest } callee)
      | some [] =>
        some (complete entry f.method i
          { s with stack := { f with pending := none, index := f.index + 1 } :: rest })
      | none =>
        let s := { s with buffer := s.buffer ++ [i.text] }
        if i.calls.isEmpty then
          some (complete entry f.method i
            { s with stack := { f with index := f.index + 1 } :: rest })
        else some { s with stack := { f with pending := some (callees v g i) } :: rest }

/-- Steps until the walk is over, at most `fuel` times. -/
def run (v : View) (g : CallGraph) (entry : Method) : Nat → State → State
  | 0, s => s
  | fuel + 1, s =>
    match step v g entry s with
    | none => s
    | some s => run v g entry fuel s

/-- The methods a walk from `entry` can meet. -/
def candidates (g : CallGraph) (entry : Method) : List Method :=
  entry :: g.edges.map (·.2)

/-- The number of steps spent in a method itself, the methods it calls apart. -/
def ownSteps (v : View) (g : CallGraph) (m : Method) : Nat :=
  m.instructions.foldr (fun i total => (callees v g i).length + 2 + total) 1

/-- A bound on the number of steps of a walk: at each depth, no more than in the longest method. -/
def stepBound (v : View) (g : CallGraph) (entry : Method) : Nat :=
  let methods := candidates g entry
  Nat.pow (((methods.map (ownSteps v g)).max?).getD 0 + 1) (methods.length + 1)

/-- The state in which the walk from an entry method ends. -/
def finalState (v : View) (g : CallGraph) (entry : Method) : State :=
  run v g entry (stepBound v g entry) (enter {} entry)

/-- The traces of an entry method, in the order in which they are completed. -/
def extract (v : View) (g : CallGraph) (entry : Method) : List Trace :=
  (finalState v g entry).emitted.reverse

/-- The number of traces that the walk from an entry method counts. -/
def extractCount (v : View) (g : CallGraph) (entry : Method) : Nat :=
  (finalState v g entry).count

/-- The traces of each of several entry methods. -/
def extractEach (v : View) (g : CallGraph) (entries : List Method) : List (Method × List Trace) :=
  entries.map fun e => (e, extract v g e)

/-- The traces of several entry methods, one entry after the other. -/
def extractAll (v : View) (g : CallGraph) (entries : List Method) : List Trace :=
  (extractEach v g entries).flatMap (·.2)

/-- The number of traces that the walks from several entry methods count. -/
def extractAllCount (v : View) (g : CallGraph) (entries : List Method) : Nat :=
  entries.foldl (fun total e => total + extractCount v g e) 0

/-- What is said about the traces of an entry method. -/
def extractRecord (entry : Method) (traces : List Trace) : LogRecord :=
  ⟨.debug, .paths, entry.signature ++ ": " ++ toString traces.length ++ " traces"⟩

/-- What is said once the traces of all entry methods are extracted. -/
def totalRecord (found : List (Method × List Trace)) : LogRecord :=
  ⟨.info, .paths, "Extracted " ++ toString (found.flatMap (·.2)).length ++ " traces"⟩

/-- What is said about the traces of several entry methods. -/
def extractRecords (found : List (Method × List Trace)) : List LogRecord :=
  found.map (fun (entry, traces) => extractRecord entry traces) ++ [totalRecord found]

end Extraction
end ServiceReach

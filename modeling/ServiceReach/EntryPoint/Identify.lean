import ServiceReach.EntryPoint.Collect

/-
  Identification of entry methods. The primary strategies run in order and their findings are
  united; only if they find nothing, the fallback strategies run. If nothing is found at all, the
  analysis cannot go on.
-/

namespace ServiceReach

/-- Why identification brings no entry methods. -/
inductive IdentifyError where
  /-- No strategy found an entry method; the diagnostics are carried along. -/
  | noEntryPoints (diagnostics : List Diagnostic)
  /-- A name could not be looked up. -/
  | unresolvable (e : Unresolvable)
deriving DecidableEq, Repr

/-- What is said if there are no entry methods and some calls could not be used. -/
def noEntryPointsMessage (diagnostics : Nat) : String :=
  "No entry points found; the analysis cannot proceed" ++
    if diagnostics == 0 then ""
    else " (" ++ toString diagnostics ++ " call sites could not be resolved)"

/-- What is said about an identification that failed. -/
def IdentifyError.message : IdentifyError → String
  | .noEntryPoints diagnostics => noEntryPointsMessage diagnostics.length
  | .unresolvable e => e.message

/-- The outcome of an identification. -/
structure Identification where
  entries : Except IdentifyError (List Method)
  diagnostics : List Diagnostic
  usedFallback : Bool
  log : List LogRecord

/-- The strategies of an identification. -/
structure Strategies where
  primary : List Strategy := [.services, .receivers]
  fallback : List Strategy := [.binders]

namespace View

/-- What is said about the methods a strategy found. -/
def strategyRecord (s : Strategy) (methods : List Method) : LogRecord :=
  ⟨.debug, .entryPoints, "Strategy " ++ s.name ++ " produced " ++ toString methods.length ++
    " candidates"⟩

/-- Runs strategies in order and unites what they find. -/
def runStrategies (v : View) (h : Heuristics) (f : Findings (List Method)) :
    List Strategy → Findings (Except Unresolvable (List Method))
  | [] => { f with found := .ok f.found }
  | s :: rest =>
    let next := v.collect h s
    let diagnostics := f.diagnostics ++ next.diagnostics
    match next.found with
    | .error e => ⟨.error e, diagnostics, f.log ++ next.log⟩
    | .ok methods =>
      v.runStrategies h
        ⟨methods.foldl Method.insertNew f.found, diagnostics,
          f.log ++ next.log ++ [strategyRecord s methods]⟩ rest

/-- What is said when the fallback strategies are to run. -/
def fallbackRecords (h : Heuristics) : List LogRecord :=
  [⟨.warning, .entryPoints,
      "Strict registration logic found 0 entries. Switching to fallback heuristic"⟩,
   ⟨.info, .entryPoints, "Scanning for classes in '" ++ h.serverNamespace ++ "' that extend " ++
      h.binderRoot.shown ++ "..."⟩]

/-- The identification that ends with some findings. -/
def conclude (usedFallback : Bool) (f : Findings (Except Unresolvable (List Method))) :
    Identification :=
  match f.found with
  | .error e => ⟨.error (.unresolvable e), f.diagnostics, usedFallback, f.log⟩
  | .ok [] => ⟨.error (.noEntryPoints f.diagnostics), f.diagnostics, usedFallback, f.log⟩
  | .ok entries =>
    ⟨.ok entries, f.diagnostics, usedFallback, f.log ++ [⟨.info, .entryPoints,
      "Total Entry Points Found: " ++ toString entries.length⟩]⟩

/-- Identifies the entry methods of a program. -/
def identify (v : View) (h : Heuristics) (strategies : Strategies) : Identification :=
  let start : Findings (List Method) :=
    ⟨[], [], [⟨.info, .entryPoints, "Identifying API Entry Points..."⟩]⟩
  let f := v.runStrategies h start strategies.primary
  match f.found with
  | .ok [] =>
    if strategies.fallback.isEmpty then conclude false f
    else
      conclude true (v.runStrategies h ⟨[], f.diagnostics, f.log ++ fallbackRecords h⟩
        strategies.fallback)
  | _ => conclude false f

end View
end ServiceReach

import ServiceReach.EntryPoint.Identify
import ServiceReach.Model.Window

/-
  Identifiers. An identifier asks a store for the entry methods, as often as it is told to. It keeps
  the diagnostics of its last run and whether the fallback strategies ran; a run drops what the run
  before left behind, and adds to the diagnostics as it meets calls that it cannot use. The store
  keeps the phantoms of all runs.
-/

namespace ServiceReach

/-- What a run reads and changes. -/
structure Inquiry where
  store : Store
  diagnostics : List Diagnostic
  usedFallback : Bool
  log : List LogRecord := []

/-- A part of a run; a name that fails may end it. -/
abbrev Inquire := ExceptT Unresolvable (StateM Inquiry)

namespace Inquire

variable {α : Type}

/-- Asks the store. -/
def ask (x : Access α) : Inquire α := fun s =>
  let (a, store) := x s.store
  (.ok a, { s with store })

/-- Asks the store through a window. -/
def probe (x : Probe α) : Inquire α := do
  match ← ask x.run with
  | .ok a => return a
  | .error e => throw e

/-- Writes records into the log. -/
def say (records : List LogRecord) : Inquire Unit :=
  modify fun s => { s with log := s.log ++ records }

/-- Records a call that cannot be used. -/
def diagnose (d : Diagnostic) : Inquire Unit :=
  modify fun s => { s with diagnostics := s.diagnostics ++ [d], log := s.log ++ [d.record] }

end Inquire

namespace Window

open Inquire

/-! ## Registrations -/

/-- The service that a registration publishes: its second argument. -/
def inspectService (w : Window) (site : CallSite) : Access (Inspection TypeDecl) :=
  match site.args with
  | _ :: binder :: _ =>
    if binder.isReference then do
      match ← (w.resolve binder.type).run with
      | .error e => return .unusable (failedMessage site e)
      | .ok (some t) => return .found t
      | .ok none => return .unusable (View.notReferenceMessage site binder)
    else return .unusable (View.notReferenceMessage site binder)
  | _ => return .nothing

/-- The callback of a receiver that a registration leaves unprotected. -/
def inspectReceiver (w : Window) (h : Heuristics) (site : CallSite) : Access (Inspection Method) :=
  match (View.unprotectedReceiver? site.args).filter Argument.isReference with
  | none => return .nothing
  | some receiver => do
    match ← (w.resolve receiver.type).run with
    | .error e => return .unusable (failedMessage site e)
    | .ok none => return .nothing
    | .ok (some t) =>
      match h.receiverCallback.text?.bind t.declared? with
      | none => return .nothing
      | some m => return .found m

/-- Looks at a registration, and keeps what it brings unless `known` says it is there. -/
def addRegistration {α : Type} (known : List α → α → Bool) (label : α → String)
    (inspect : CallSite → Access (Inspection α)) (found : List α) :
    Method × CallSite → Inquire (List α)
  | (m, site) => do
    match ← ask (inspect site) with
    | .nothing => return found
    | .unusable message =>
      diagnose ⟨m.signature, site.line, message⟩
      return found
    | .found a =>
      if known found a then return found
      else
        say [⟨.info, .entryPoints, " [MATCH] Found " ++ label a⟩]
        return found ++ [a]

/-- The call sites with one of the names in the bodies of application classes, in order. -/
def sitesNamed (names : List String) : Inquire (List (Method × CallSite)) :=
  return (View.ofProgram (← get).store.program).registrationSites.filter
    fun s => names.contains s.2.name

/-- The services that are published, each once. -/
def services (w : Window) (h : Heuristics) : Inquire (List TypeDecl) := do
  (← sitesNamed h.serviceCalls).foldlM (addRegistration (fun ts t => ts.any (·.name == t.name))
    (fun t => "Service Registration: " ++ t.name) w.inspectService) []

/-- The callbacks of unprotected receivers, each once. -/
def receivers (w : Window) (h : Heuristics) : Inquire (List Method) := do
  (← sitesNamed h.receiverCalls).foldlM (addRegistration (fun ms m => ms.any (·.same m))
    (fun m => "Unprotected Receiver: " ++ m.owner) (w.inspectReceiver h)) []

/-! ## Strategies -/

/-- The methods of a service that implement its remote interfaces. -/
def exposedMethods (w : Window) (h : Heuristics) (t : TypeDecl) : Probe (List Method) :=
  w.remoteMethods t h.remoteMarker.text?

/-- The remote methods of several services, each once. -/
def remoteMethodsOf (w : Window) (h : Heuristics) (found : List Method) :
    List TypeDecl → Probe (List Method)
  | [] => return found
  | t :: rest => do
    let methods ← w.exposedMethods h t
    w.remoteMethodsOf h (methods.foldl Method.insertNew found) rest

/-- Whether a type may be a service although it is not registered. -/
def isLikelyService (h : Heuristics) (t : TypeDecl) : Access Bool :=
  if t.isRealClass && Text.startsWith h.serverNamespace t.name then
    isSubclass t h.binderRoot.text?
  else return false

/-- The remote methods of those of the types that may be services, each once. -/
def likelyMethods (w : Window) (h : Heuristics) (found : List Method) :
    List TypeDecl → Inquire (List Method)
  | [] => return found
  | t :: rest => do
    if ← ask (isLikelyService h t) then
      match ← probe (w.exposedMethods h t) with
      | [] => w.likelyMethods h found rest
      | methods =>
        say [⟨.info, .entryPoints, " [FALLBACK] Found likely service: " ++ t.name⟩]
        w.likelyMethods h (methods.foldl Method.insertNew found) rest
    else w.likelyMethods h found rest

/-- The entry methods that a strategy finds. -/
def collect (w : Window) (h : Heuristics) : Strategy → Inquire (List Method)
  | .services => do
    let types ← w.services h
    probe (w.remoteMethodsOf h [] types)
  | .receivers => w.receivers h
  | .binders => do
    w.likelyMethods h [] (← get).store.program.applicationTypes

/-- Runs strategies in order and unites what they find. -/
def runStrategies (w : Window) (h : Heuristics) (found : List Method) :
    List Strategy → Inquire (List Method)
  | [] => return found
  | s :: rest => do
    let methods ← w.collect h s
    say [View.strategyRecord s methods]
    w.runStrategies h (methods.foldl Method.insertNew found) rest

end Window

/-- An identifier: what it goes by, and what its last run left behind. -/
structure Identifier where
  heuristics : Heuristics
  strategies : Strategies
  diagnostics : List Diagnostic := []
  usedFallback : Bool := false

namespace Identifier

open Inquire

/-- What is said when a run starts. -/
def startRecord : LogRecord :=
  ⟨.info, .entryPoints, "Identifying API Entry Points..."⟩

/-- Drops what the last run left behind. -/
def start : Inquire Unit :=
  modify fun s => { s with diagnostics := [], usedFallback := false, log := s.log ++ [startRecord] }

/-- Turns to the fallback strategies. -/
def turnToFallback (h : Heuristics) : Inquire Unit :=
  modify fun s => { s with usedFallback := true, log := s.log ++ View.fallbackRecords h }

/-- Looks for entry methods, with the fallback strategies only if the primary ones find none. -/
def seek (x : Identifier) (w : Window) : Inquire (List Method) := do
  match ← w.runStrategies x.heuristics [] x.strategies.primary with
  | [] =>
    if x.strategies.fallback.isEmpty then return []
    else
      turnToFallback x.heuristics
      w.runStrategies x.heuristics [] x.strategies.fallback
  | entries => return entries

/-- A run. -/
def search (x : Identifier) (w : Window) : Inquire (List Method) := do
  start
  x.seek w

/-- What a run brings that ended in this state. -/
def conclude (found : Except Unresolvable (List Method)) (s : Inquiry) : Identification :=
  View.conclude s.usedFallback ⟨found, s.diagnostics, s.log⟩

/-- Identifies the entry methods: what comes of it, and the identifier afterwards. -/
def identify (x : Identifier) (w : Window) : Access (Identification × Identifier) := fun store =>
  let (found, s) := (x.search w).run ⟨store, x.diagnostics, x.usedFallback, []⟩
  ((conclude found s, { x with diagnostics := s.diagnostics, usedFallback := s.usedFallback }),
    s.store)

end Identifier
end ServiceReach

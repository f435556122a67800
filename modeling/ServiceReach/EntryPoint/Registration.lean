import ServiceReach.EntryPoint.Basic
import ServiceReach.Model.View
import ServiceReach.Settings.Heuristics

/-
  Registrations. A call may publish its second argument as a service, or register its first one as
  a receiver; a receiver is open to everybody if the call asks for no permission. A registration
  that cannot be used is recorded as a diagnostic.
-/

namespace ServiceReach

/-- The call sites in the bodies of application classes, in order. -/
def View.registrationSites (v : View) : List (Method × CallSite) :=
  (v.program.applicationTypes.filter TypeDecl.isRealClass).flatMap fun t =>
    t.methods.flatMap fun m => m.sites.map (m, ·)

/-- What came of looking at a registration. -/
inductive Inspection (α : Type) where
  /-- Nothing of interest. -/
  | nothing
  /-- Something that can be called from outside. -/
  | found (a : α)
  /-- A registration that cannot be used, and why. -/
  | unusable (message : String)

/-- The message about a registration whose types cannot be looked up. -/
def failedMessage (site : CallSite) (e : Unresolvable) : String :=
  "Could not inspect " ++ site.name ++ ": " ++ e.message

namespace View

/-- The message about a registration whose second argument can be no service. -/
def notReferenceMessage (site : CallSite) (binder : Argument) : String :=
  "Found " ++ site.name ++ " but arg1 was not a reference type. Type: " ++
    (present? binder.type).getD "unknown"

/-- The service that a registration publishes: its second argument. -/
def inspectService (v : View) (site : CallSite) : Inspection TypeDecl :=
  match site.args with
  | _ :: binder :: _ =>
    if binder.isReference then
      match (v.resolve binder.type).run.value with
      | .error e => .unusable (failedMessage site e)
      | .ok (some t) => .found t
      | .ok none => .unusable (notReferenceMessage site binder)
    else .unusable (notReferenceMessage site binder)
  | _ => .nothing

/-- The receiver of a registration that asks for no permission. -/
def unprotectedReceiver? (args : List Argument) : Option Argument :=
  match args with
  | [receiver, _] => some receiver
  | receiver :: _ :: permission :: _ :: _ => if permission.isNull then some receiver else none
  | _ => none

/-- The callback of a receiver that a registration leaves unprotected. -/
def inspectReceiver (v : View) (h : Heuristics) (site : CallSite) : Inspection Method :=
  match (unprotectedReceiver? site.args).filter Argument.isReference with
  | none => .nothing
  | some receiver =>
    match (v.resolve receiver.type).run.value with
    | .error e => .unusable (failedMessage site e)
    | .ok none => .nothing
    | .ok (some t) =>
      match h.receiverCallback.text?.bind t.declared? with
      | none => .nothing
      | some m => .found m

/-- Adds what came of a registration to what was found, unless `known` says it is there. -/
def addInspection {α : Type} (known : List α → α → Bool) (label : α → String)
    (f : Findings (List α)) (m : Method) (site : CallSite) (i : Inspection α) :
    Findings (List α) :=
  match i with
  | .nothing => f
  | .unusable message => f.diagnose ⟨m.signature, site.line, message⟩
  | .found a =>
    if known f.found a then f
    else
      { f with
        found := f.found ++ [a]
        log := f.log ++ [⟨.info, .entryPoints, " [MATCH] Found " ++ label a⟩] }

/-- The services that are published, each once. -/
def services (v : View) (h : Heuristics) : Findings (List TypeDecl) :=
  (v.registrationSites.filter fun s => h.serviceCalls.contains s.2.name).foldl
    (fun f (m, site) =>
      addInspection (fun ts t => ts.any (·.name == t.name))
        (fun t => "Service Registration: " ++ t.name) f m site (v.inspectService site))
    { found := [] }

/-- The callbacks of unprotected receivers, each once. -/
def receivers (v : View) (h : Heuristics) : Findings (List Method) :=
  (v.registrationSites.filter fun s => h.receiverCalls.contains s.2.name).foldl
    (fun f (m, site) =>
      addInspection (fun ms m => ms.any (·.same m))
        (fun m => "Unprotected Receiver: " ++ m.owner) f m site (v.inspectReceiver h site))
    { found := [] }

end View
end ServiceReach

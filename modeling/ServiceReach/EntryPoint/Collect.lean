import ServiceReach.EntryPoint.Registration

/-
  The entry methods that each strategy finds. The methods by which a published service implements
  its remote interfaces can be called from outside, and so can the callbacks of unprotected
  receivers. Where nothing is registered, subclasses of the binder class on the server side are
  taken for services.
-/

namespace ServiceReach.View

/-- The methods of a service that implement its remote interfaces. -/
def exposedMethods (v : View) (h : Heuristics) (t : TypeDecl) :
    Except Unresolvable (List Method) :=
  (v.remoteMethods t h.remoteMarker.text?).run.value

/-- The remote methods of several services, each once. -/
def remoteMethodsOf (v : View) (h : Heuristics) (found : List Method) :
    List TypeDecl → Except Unresolvable (List Method)
  | [] => .ok found
  | t :: rest => do
    let methods ← v.exposedMethods h t
    v.remoteMethodsOf h (methods.foldl Method.insertNew found) rest

/-- Whether a type lies on the server side and extends the binder class. -/
def isServerBinder (v : View) (h : Heuristics) (t : TypeDecl) : Bool :=
  Text.startsWith h.serverNamespace t.name && (v.program.isSubclass t h.binderRoot.text?).value

/-- Whether a type may be a service although it is not registered. -/
def isLikelyService (v : View) (h : Heuristics) (t : TypeDecl) : Bool :=
  t.isRealClass && v.isServerBinder h t

/-- The remote methods of likely services, each once, up to a type that cannot be looked at. -/
def likelyMethods (v : View) (h : Heuristics) (f : Findings (List Method)) :
    List TypeDecl → Findings (Except Unresolvable (List Method))
  | [] => { f with found := .ok f.found }
  | t :: rest =>
    match v.exposedMethods h t with
    | .error e => { f with found := .error e }
    | .ok [] => v.likelyMethods h f rest
    | .ok methods =>
      v.likelyMethods h
        { f with
          found := methods.foldl Method.insertNew f.found
          log := f.log ++ [⟨.info, .entryPoints, " [FALLBACK] Found likely service: " ++ t.name⟩] }
        rest

/-- The entry methods that a strategy finds; a name that cannot be looked up may stop it. -/
def collect (v : View) (h : Heuristics) (s : Strategy) :
    Findings (Except Unresolvable (List Method)) :=
  match s with
  | .services =>
    let f := v.services h
    { f with found := v.remoteMethodsOf h [] f.found }
  | .receivers =>
    let f := v.receivers h
    { f with found := .ok f.found }
  | .binders =>
    v.likelyMethods h { found := [] } (v.program.applicationTypes.filter (v.isLikelyService h))

end ServiceReach.View

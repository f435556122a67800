import ServiceReach.Json.Basic

/-
  The settings of a run: where the sources are, which names the heuristics look for, and what is
  written. `Settings` have their proper types. A `Sheet` holds the settings as the values of a
  configuration file, whatever their types.
-/

namespace ServiceReach

/-- The inputs, heuristics and outputs of a run. -/
structure Settings where
  /-- The directories that are searched for entry points. -/
  appRoots : List String := []
  /-- The directories that are used for resolving types only. -/
  libraryRoots : List String := []
  /-- The calls that publish a service. -/
  serviceCalls : List String := ["addService", "publishBinderService"]
  /-- The calls that register a broadcast receiver. -/
  receiverCalls : List String := ["registerReceiver", "registerReceiverAsUser"]
  /-- The method by which a receiver is called. -/
  receiverCallback : String := "void onReceive(android.content.Context,android.content.Intent)"
  /-- The interface that all remote interfaces extend. -/
  remoteMarker : String := "android.os.IInterface"
  /-- The class that all services extend. -/
  binderRoot : String := "android.os.Binder"
  /-- How the names of types on the server side start. -/
  serverNamespace : String := "com.android.server"
  pathsFile : Option String := some "core_paths.txt"
  callGraphFile : Option String := some "callgraph.txt"
  indexFile : Option String := none
  /-- Whether a summary and the traces are shown on the console. -/
  console : Bool := true
  logLevel : String := "INFO"
  logFile : Option String := none
deriving DecidableEq, Repr

/-- A setting. -/
inductive Setting where
  | appRoots
  | libraryRoots
  | serviceCalls
  | receiverCalls
  | receiverCallback
  | remoteMarker
  | binderRoot
  | serverNamespace
  | pathsFile
  | callGraphFile
  | indexFile
  | console
  | logLevel
  | logFile
deriving DecidableEq, Repr

namespace Setting

/-- The settings in the order in which they are written. -/
def all : List Setting :=
  [.appRoots, .libraryRoots, .serviceCalls, .receiverCalls, .receiverCallback, .remoteMarker,
   .binderRoot, .serverNamespace, .pathsFile, .callGraphFile, .indexFile, .console, .logLevel,
   .logFile]

/-- The key of a setting in a configuration file. -/
def key : Setting → String
  | .appRoots => "app_roots"
  | .libraryRoots => "library_roots"
  | .serviceCalls => "service_registration_methods"
  | .receiverCalls => "receiver_registration_methods"
  | .receiverCallback => "receiver_callback_subsignature"
  | .remoteMarker => "remote_interface_marker"
  | .binderRoot => "binder_root"
  | .serverNamespace => "server_namespace"
  | .pathsFile => "paths_file"
  | .callGraphFile => "callgraph_file"
  | .indexFile => "index_json_file"
  | .console => "console_summary"
  | .logLevel => "log_level"
  | .logFile => "log_file"

/-- The setting with a given key. -/
def ofKey? (key : String) : Option Setting :=
  all.find? fun s => s.key == key

end Setting

/-- The value of each setting, as in a configuration file. -/
structure Sheet where
  value : Setting → Json

/-- The settings as values. -/
def Settings.toSheet (c : Settings) : Sheet where
  value
    | .appRoots => .ofStrings c.appRoots
    | .libraryRoots => .ofStrings c.libraryRoots
    | .serviceCalls => .ofStrings c.serviceCalls
    | .receiverCalls => .ofStrings c.receiverCalls
    | .receiverCallback => .str c.receiverCallback
    | .remoteMarker => .str c.remoteMarker
    | .binderRoot => .str c.binderRoot
    | .serverNamespace => .str c.serverNamespace
    | .pathsFile => .ofOption c.pathsFile
    | .callGraphFile => .ofOption c.callGraphFile
    | .indexFile => .ofOption c.indexFile
    | .console => .bool c.console
    | .logLevel => .str c.logLevel
    | .logFile => .ofOption c.logFile

namespace Sheet

/-- The sheet of a run for which nothing is set. -/
def initial : Sheet := ({} : Settings).toSheet

/-- The sheet with one value replaced. -/
def set (sheet : Sheet) (setting : Setting) (value : Json) : Sheet :=
  ⟨fun s => if s = setting then value else sheet.value s⟩

/-- The object that a configuration file holds. -/
def toJson (sheet : Sheet) : Json :=
  .obj (Setting.all.map fun s => (s.key, sheet.value s))

/-- Whether a value counts as nothing: null, false, zero, or something empty. -/
def isVoid : Json → Bool
  | .null | .bool false | .int 0 | .str "" | .arr [] | .obj [] => true
  | .real x => x.isZero
  | _ => false

/-- Whether a setting is on, or set to something. -/
def isSet (sheet : Sheet) (s : Setting) : Bool :=
  !isVoid (sheet.value s)

end Sheet
end ServiceReach

import ServiceReach.Text.Digit
import ServiceReach.Text.Part

/-
  Command lines. The roots stand together, before, between or after the options. An option may be
  shortened as long as only one option starts that way, and its value may follow it or stand after
  an equals sign, where `--` is no value at all. After `--` everything is a root. Arguments are
  first told apart, which fails for a shortened option that could be several, and then read from
  left to right; asking for help ends the reading.
-/

namespace ServiceReach.Command

/-- An option. -/
inductive Flag where
  | help
  | library
  | config
  | pathsFile
  | callGraphFile
  | indexFile
  | noConsole
  | logLevel
  | logFile
deriving DecidableEq, Repr

/-- The long names of the options. -/
def flagNames : List (String × Flag) :=
  [("--help", .help), ("--lib", .library), ("--config", .config), ("--paths-out", .pathsFile),
   ("--callgraph-out", .callGraphFile), ("--index-json", .indexFile),
   ("--no-console", .noConsole), ("--log-level", .logLevel), ("--log-file", .logFile)]

/-- Whether an option has a value. -/
def Flag.hasValue : Flag → Bool
  | .help | .noConsole => false
  | _ => true

/-- What an argument is. -/
inductive Word where
  /-- A root, or the value of an option. -/
  | plain (text : String)
  /-- The end of the options. -/
  | separator
  /-- An option, with its value if that stands in the same argument. -/
  | flag (flag : Flag) (value : Option String)
  /-- The short option for help, with the rest of the argument. -/
  | short (rest : List Char)
  /-- An option that there is not. -/
  | unknown
deriving DecidableEq, Repr

/-- Why there are no arguments to go by. -/
inductive Stop where
  /-- The command line is wrong. -/
  | usage
  /-- Help was asked for. -/
  | help
deriving DecidableEq, Repr

/-- The exit code of a command line that is not run. -/
def Stop.exit : Stop → Nat
  | .usage => 2
  | .help => 0

/-- The options that a name, perhaps shortened, stands for. -/
def flagsNamed (name : String) : List Flag :=
  match flagNames.lookup name with
  | some flag => [flag]
  | none => (flagNames.filter fun f => Text.startsWith name f.1).map (·.2)

/-- Whether characters are decimal digits, at least one. -/
def areDecimals (cs : List Char) : Bool :=
  !cs.isEmpty && cs.all fun c => (Text.decimalValue? c).isSome

/-- Whether characters write a negative number, perhaps with a line end after it. -/
def isNegativeNumber (cs : List Char) : Bool :=
  match cs with
  | '-' :: rest =>
    let rest := if rest.getLast? == some '\n' then rest.dropLast else rest
    areDecimals rest ||
      ((rest.takeWhile (· != '.')).all fun c => (Text.decimalValue? c).isSome) &&
        areDecimals ((rest.dropWhile (· != '.')).drop 1)
  | _ => false

/-- What an argument is that starts with a dash but names no option. -/
def unnamed (text : String) : Word :=
  if isNegativeNumber text.toList || text.toList.contains ' ' then .plain text else .unknown

/-- What an argument that starts with two dashes is. -/
def longWord (text : String) : Except Stop Word :=
  let value := if text.toList.contains '=' then some (Text.afterFirst '=' text) else none
  match flagsNamed (Text.beforeFirst '=' text) with
  | [] => .ok (unnamed text)
  | [flag] => .ok (.flag flag value)
  | _ => .error .usage

/-- What an argument is that stands before the end of the options. -/
def word (text : String) : Except Stop Word :=
  match text.toList with
  | '-' :: '-' :: _ => longWord text
  | '-' :: 'h' :: rest => .ok (.short rest)
  | ['-'] => .ok (.plain text)
  | '-' :: _ => .ok (unnamed text)
  | _ => .ok (.plain text)

/-- Tells the arguments apart. -/
def words : List String → Except Stop (List Word)
  | [] => .ok []
  | "--" :: rest => .ok (.separator :: rest.map .plain)
  | text :: rest => do
    let first ← word text
    return first :: (← words rest)

/-- The arguments of a command line. -/
structure Arguments where
  roots : List String := []
  /-- The library directories; an option without a value leaves a place empty. -/
  libraries : List (Option String) := []
  config : Option String := none
  pathsFile : Option String := none
  callGraphFile : Option String := none
  indexFile : Option String := none
  noConsole : Bool := false
  logLevel : Option String := none
  logFile : Option String := none
deriving DecidableEq, Repr

/-- The arguments with an option added, in place of an earlier one. -/
def Arguments.set (a : Arguments) (flag : Flag) (value : Option String) : Arguments :=
  match flag with
  | .help => a
  | .library => { a with libraries := a.libraries ++ [value] }
  | .config => { a with config := value }
  | .pathsFile => { a with pathsFile := value }
  | .callGraphFile => { a with callGraphFile := value }
  | .indexFile => { a with indexFile := value }
  | .noConsole => { a with noConsole := true }
  | .logLevel => { a with logLevel := value }
  | .logFile => { a with logFile := value }

/-- How far the roots have been read. -/
inductive Roots where
  | ahead
  | here
  | past
deriving DecidableEq, Repr

/-- A command line being read. -/
structure Reading where
  arguments : Arguments := {}
  roots : Roots := .ahead
  /-- Whether something stands on the command line that does not belong there. -/
  extra : Bool := false

namespace Reading

/-- Notes that an option stands here. -/
def atOption (r : Reading) : Reading :=
  if r.roots = .here then { r with roots := .past } else r

/-- Reads an option with its value. -/
def set (r : Reading) (flag : Flag) (value : Option String) : Reading :=
  { r.atOption with arguments := r.arguments.set flag value }

/-- Reads a root. -/
def root (r : Reading) (text : String) : Reading :=
  if r.roots = .past then { r with extra := true }
  else { r with roots := .here, arguments.roots := r.arguments.roots ++ [text] }

/-- Reads the end of the options. -/
def separator (r : Reading) : Reading :=
  if r.roots = .past then { r with extra := true } else r

/-- The arguments at the end of the command line. -/
def finish (r : Reading) : Except Stop Arguments :=
  if r.roots = .ahead || r.extra then .error .usage else .ok r.arguments

end Reading

/-- What comes of further short options in the same argument: help is the only one there is. -/
def furtherHelp (options : List Char) : Stop :=
  if !options.isEmpty && options.all (· == 'h') then .help else .usage

/-- What comes of the short option for help, by the rest of its argument. -/
def shortHelp (rest : List Char) : Stop :=
  match rest with
  | [] => .help
  | '=' :: options => furtherHelp options
  | options => furtherHelp options

/-- Reads the arguments from left to right. -/
def readWords : List Word → Reading → Except Stop Arguments
  | [], r => r.finish
  | .plain text :: rest, r => readWords rest (r.root text)
  | .separator :: rest, r => readWords rest r.separator
  | .unknown :: rest, r => readWords rest { r.atOption with extra := true }
  | .short tail :: _, _ => .error (shortHelp tail)
  | .flag flag (some value) :: rest, r =>
    if flag.hasValue then readWords rest (r.set flag (if value == "--" then none else some value))
    else .error .usage
  | .flag .help none :: _, _ => .error .help
  | .flag .noConsole none :: rest, r => readWords rest (r.set .noConsole none)
  | .flag flag none :: .plain value :: rest, r => readWords rest (r.set flag (some value))
  | .flag _ none :: _, _ => .error .usage

/-- The arguments of a command line. -/
def Arguments.parse (argv : List String) : Except Stop Arguments := do
  readWords (← words argv) {}

end ServiceReach.Command

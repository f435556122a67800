import ServiceReach.Index.Plan

/-
  Lowering: a method body becomes a list of instructions. `run` works a list of steps off,
  replacing a nested statement by its plan; a body that can be left at its end gets a return there.
-/

namespace ServiceReach.Index

open Source

/-- A body lowered in part. -/
structure Body where
  locals : Locals
  known : Resolved := []
  code : List Instruction := []

namespace Place

/-- The calls at some nodes, after those in `done`, and all calls resolved with them. -/
def callSites (p : Place) (locals : Locals) (position : Nat) :
    List Tree → List CallSite → Resolved → Typing (List CallSite × Resolved)
  | [], done, known => pure (done, known)
  | t :: rest, done, known => do
    let (site, i) ← p.callSite locals known position done.length t
    p.callSites locals position rest (done ++ [site]) ((t.id, i) :: known)

/-- Adds an instruction. -/
def emit (p : Place) (b : Body) (line : Nat) (text : String) (scan : List Tree)
    (kind : InstructionKind) : Typing Body := do
  let position := b.code.length
  let (calls, known) ← p.callSites b.locals position (scan.flatMap callNodes) [] b.known
  return { b with known, code := b.code ++ [⟨position, text, kind, calls, line⟩] }

/-- Whether the type of a variable is that of its value and not the declared one. -/
def typedByValue (declared : Option String) (value : Tree) : Bool :=
  declared.isNone || value.kind == .objectCreationExpression

/-- Enters the variable of a declarator. -/
def declareVariable (p : Place) (declared : Option String) (b : Body) (t : Tree) :
    Typing Body := do
  match t.field? .name with
  | none => pure b
  | some name =>
    let type ← match t.field? .value with
      | none => pure declared
      | some value =>
        if typedByValue declared value then do
          let found ← p.typeOf b.locals b.known value
          pure ((present? found).or declared)
        else pure declared
    return { b with locals := (p.entry.textOf name, type) :: b.locals }

/-- Enters the variables of a local variable declaration. -/
def declare (p : Place) (b : Body) (t : Tree) : Typing Body :=
  (t.fields .declarator).foldlM (p.declareVariable (p.resolveNode (t.field? .type))) b

/-- Works steps off, at most `fuel` of them. -/
def run (p : Place) : Nat → List Step → Body → Typing Body
  | 0, _, b => pure b
  | _ + 1, [], b => pure b
  | fuel + 1, .visit t :: rest, b => p.run fuel (p.plan t ++ rest) b
  | fuel + 1, .emit line text scan kind :: rest, b => do
    let b ← p.emit b line text scan kind
    p.run fuel rest b
  | fuel + 1, .declare t :: rest, b => do
    let b ← p.declare b t
    p.run fuel rest b
  | fuel + 1, .bind name type :: rest, b =>
    p.run fuel rest { b with locals := (name, type) :: b.locals }

end Place

mutual

/-- A bound on the number of steps that lowering a tree takes. -/
def weight : Tree → Nat
  | .node _ children => 4 * weightOf children + 4

/-- A bound on the number of steps that lowering several trees takes. -/
def weightOf : List Tree → Nat
  | [] => 0
  | t :: rest => weight t + weightOf rest

end

/-- Whether a body cannot be left at its end. -/
def endsInExit (code : List Instruction) : Bool :=
  match code.getLast? with
  | none => false
  | some last => last.isReturn || Text.startsWith "throw " last.text

/-- The code of a method, with a return where it can be left at its end. -/
def closeCode (m : Method) (code : List Instruction) : List Instruction :=
  if m.returnType == "void" && !endsInExit code then
    let line := match code.getLast? with
      | none => m.line + 1
      | some last => last.line
    code ++ [⟨code.length, "return", .return, [], line⟩]
  else code

/-- The code of a method from the statements of its body. -/
def Place.lower (p : Place) (m : Method) (params : List (String × String)) (body : List Tree) :
    Typing (List Instruction) := do
  let start : Body := { locals := (params.map fun (name, type) => (name, some type)).reverse }
  let lowered ← p.run (weightOf body) (body.map .visit) start
  return closeCode m lowered.code

end ServiceReach.Index

import ServiceReach.Index.Invocation

/-
  What a statement consists of. A simple statement is one instruction; a control-flow statement is
  a header followed by the statements nested in it. Lambda bodies and the members of anonymous
  classes belong to other methods. `plan` lists the steps of one statement in order, with nested
  statements still to be visited.
-/

namespace ServiceReach.Index

open Source

/-- A step of lowering a body. -/
inductive Step where
  /-- Lower a statement. -/
  | visit (t : Tree)
  /-- Add an instruction whose calls are those in the trees `scan`. -/
  | emit (line : Nat) (text : String) (scan : List Tree) (kind : InstructionKind)
  /-- Enter the variables of a local variable declaration. -/
  | declare (t : Tree)
  /-- Enter a variable of known type. -/
  | bind (name : String) (type : Option String)

/-- Whether a node is a call. -/
def isCall (kind : Kind) : Bool :=
  match kind with
  | .methodInvocation | .objectCreationExpression | .explicitConstructorInvocation => true
  | _ => false

/-- Whether the code inside a node belongs to another method. -/
def isOpaque (kind : Kind) : Bool :=
  match kind with
  | .lambdaExpression | .classBody => true
  | _ => false

mutual

/-- The calls in a tree, arguments and receivers before the call that uses them. -/
def callNodes : Tree → List Tree
  | .node label children =>
    if isOpaque label.kind then []
    else callNodesOf children ++ (if isCall label.kind then [.node label children] else [])

/-- The calls in those of several trees that are constructs. -/
def callNodesOf : List Tree → List Tree
  | [] => []
  | t :: rest => (if t.isConstruct then callNodes t else []) ++ callNodesOf rest

end

/-- Whether a statement only holds other statements. -/
def isContainer (kind : Kind) : Bool :=
  match kind with
  | .block | .constructorBody | .switchBlock => true
  | _ => false

/-- The parts of a control-flow statement. -/
structure Parts where
  /-- What the header evaluates. -/
  scan : List Tree
  /-- The nested statements. -/
  bodies : List Tree

/-- The parts of a control-flow statement other than `do`; `none` for all other statements. -/
def parts? (t : Tree) : Option Parts :=
  let field := fun f => (t.field? f).toList
  match t.kind with
  | .ifStatement => some ⟨field .condition, field .consequence ++ field .alternative⟩
  | .whileStatement | .switchExpression | .switchStatement =>
    some ⟨field .condition, field .body⟩
  | .forStatement =>
    some ⟨t.constructs.filter fun c => (t.field? .body).map Tree.id != some c.id, field .body⟩
  | .enhancedForStatement => some ⟨field .value, field .body⟩
  | .synchronizedStatement =>
    some ⟨(t.child? [.parenthesizedExpression]).toList, field .body⟩
  | .tryStatement => some ⟨[], field .body ++ clauses⟩
  | .tryWithResourcesStatement => some ⟨field .resources, field .body ++ clauses⟩
  | .catchClause => some ⟨[], field .body⟩
  | .finallyClause => some ⟨[], (t.child? [.block]).toList⟩
  | _ => none
where
  clauses : List Tree :=
    t.constructs.filter fun c => c.kind == .catchClause || c.kind == .finallyClause

/-- The text of a header: the statement up to the first of its bodies. -/
def headerText (text : Array UInt8) (t : Tree) (bodies : List Tree) : String :=
  Text.squash (sliceText text t.start (((bodies.map Tree.start).min?).getD t.stop))

namespace Place

/-- The line of a node, counted from 1. -/
def line (p : Place) (t : Tree) : Nat :=
  lineOf p.entry.text t + 1

/-- A node as an instruction. -/
def emitNode (p : Place) (t : Tree) (kind : InstructionKind) : Step :=
  .emit (p.line t) (Text.squash (p.entry.textOf t)) [t] kind

/-- The variable that a node with fields for name and type declares. -/
def bindNode (p : Place) (t : Tree) : List Step :=
  match t.field? .name with
  | none => []
  | some name => [.bind (p.entry.textOf name) (p.resolveNode (t.field? .type))]

/-- The variable of a catch clause; of several types the first counts. -/
def bindCaught (p : Place) (t : Tree) : List Step :=
  match t.child? [.catchFormalParameter] with
  | none => []
  | some param =>
    match param.field? .name, param.child? [.catchType] with
    | some name, some type =>
      [.bind (p.entry.textOf name) (p.resolve (Text.beforeFirst '|' (p.entry.textOf type)))]
    | _, _ => []

/-- The variables that the header of a control-flow statement declares. -/
def headerVariables (p : Place) (t : Tree) : List Step :=
  match t.kind with
  | .forStatement =>
    ((t.fields .init).filter fun c => c.kind == .localVariableDeclaration).map .declare
  | .enhancedForStatement => p.bindNode t
  | .catchClause => p.bindCaught t
  | .tryWithResourcesStatement =>
    match t.field? .resources with
    | none => []
    | some resources => resources.constructs.flatMap p.bindNode
  | _ => []

/-- The labels of a group of a switch, then its statements. -/
def switchGroup (p : Place) (mark : String) (t : Tree) : List Step :=
  let isLabel := fun c : Tree => c.kind == .switchLabel
  ((t.constructs.filter isLabel).map fun c =>
      .emit (p.line c) (Text.squash (p.entry.textOf c) ++ mark) [] .branch) ++
    (t.constructs.filter fun c => !isLabel c).map .visit

/-- The steps of a `do` statement. -/
def doSteps (p : Place) (t : Tree) : List Step :=
  let condition := t.field? .condition
  [.emit (p.line t) "do" [] .branch] ++ (t.field? .body).toList.map .visit ++
    [.emit (p.line t) ("while " ++ Text.squash (p.entry.textOf? condition)) condition.toList
      .branch]

/-- What a statement consists of, in order. -/
def plan (p : Place) (t : Tree) : List Step :=
  if isContainer t.kind then t.constructs.map .visit
  else if (DeclKind.ofNode? t.kind).isSome then []
  else
    match t.kind with
    | .labeledStatement => (t.constructs.filter fun c => c.kind != .identifier).map .visit
    | .localVariableDeclaration => [p.emitNode t .statement, .declare t]
    | .returnStatement => [p.emitNode t .return]
    | .doStatement => p.doSteps t
    | .switchBlockStatementGroup => p.switchGroup ":" t
    | .switchRule => p.switchGroup " ->" t
    | _ =>
      match parts? t with
      | some parts =>
        .emit (p.line t) (headerText p.entry.text t parts.bodies) parts.scan .branch ::
          (p.headerVariables t ++ parts.bodies.map .visit)
      | none => [p.emitNode t .statement]

end Place
end ServiceReach.Index

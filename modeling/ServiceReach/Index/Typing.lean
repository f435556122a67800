import ServiceReach.Index.Link
import ServiceReach.Model.Hierarchy

/-
  Static types of expressions. The type of an expression is found as far as the declarations tell;
  where they do not, it is unknown. Calls are resolved in order of evaluation, so the calls inside
  an expression are known when the expression is typed. Typing calls itself for the parts of an
  expression, as often as there is room on the stack; an expression nested deeper is given up. A
  binary expression takes one more call, but its left operands are walked through in that call.
-/

namespace ServiceReach.Index

open Source

/-- Where a body stands: the file, the type around it, and all declarations. -/
structure Place where
  scopes : Scopes
  /-- The names of anonymous classes by file and first byte. -/
  anonymous : List ((String × Nat) × String)
  program : Program
  entry : Entry
  /-- The type whose member the body is. -/
  owner : String
  /-- The signature of the method whose body it is. -/
  method : String
  /-- The number of calls, one inside the other, for which the stack has room when typing starts.
      What a call needs besides for looking names up is not counted: it does not grow with the
      expression. -/
  room : Nat

/-- The local variables with their types, latest first. -/
abbrev Locals := List (String × Option String)

/-- What a call means. -/
structure Invocation where
  /-- The static type on which the call is dispatched. -/
  receiver : Option String
  dispatch : Dispatch
  /-- The method that overload resolution selects. -/
  target : Option Method
  name : String

/-- The resolved calls, by the numbers of their nodes. -/
abbrev Resolved := List (Nat × Invocation)

/-- An expression is nested too deeply to be typed. -/
inductive TooDeep where
  | tooDeep
deriving DecidableEq, Repr

/-- A computation that looks types up and may give up. -/
abbrev Typing := ExceptT TooDeep Trail

/-- The type of a literal; `null` has none. -/
def literalType? (kind : Kind) : Option (Option String) :=
  match kind with
  | .decimalIntegerLiteral | .hexIntegerLiteral | .octalIntegerLiteral | .binaryIntegerLiteral =>
    some (some "int")
  | .decimalFloatingPointLiteral | .hexFloatingPointLiteral => some (some "double")
  | .trueLiteral | .falseLiteral => some (some "boolean")
  | .characterLiteral => some (some "char")
  | .stringLiteral | .textBlock => some (some "java.lang.String")
  | .nullLiteral => some none
  | _ => none

/-- The operators whose result is a truth value. -/
def comparisons : List String := ["==", "!=", "<", ">", "<=", ">=", "&&", "||"]

/-- Where the left operands of a binary expression end. -/
inductive SpineEnd where
  /-- An operand is missing. -/
  | missing
  /-- An operator with a truth value. -/
  | comparison
  /-- An operand that is not a binary expression. -/
  | operand (t : Tree)

/-- The operator of a binary expression. -/
def operatorOf (t : Tree) : String :=
  match t.field? .operator with
  | none => ""
  | some op => op.kind.symbol

/-- The operators and right operands along the left operands, innermost first. -/
def leftSpine : Nat → Option Tree → List (String × Option Tree) →
    List (String × Option Tree) × SpineEnd
  | _, none, above => (above, .missing)
  | 0, some _, above => (above, .missing)
  | fuel + 1, some t, above =>
    if t.kind == .binaryExpression then
      let op := operatorOf t
      if comparisons.contains op then (above, .comparison)
      else leftSpine fuel (t.field? .left) ((op, t.field? .right) :: above)
    else (above, .operand t)

namespace Place

/-- The type a written type means at this place. -/
def resolve (p : Place) (raw : String) : Option String :=
  p.scopes.resolve p.entry.header (some p.owner) raw

/-- The type that a node writes. -/
def resolveNode (p : Place) (t : Option Tree) : Option String :=
  match t with
  | none => none
  | some t => p.resolve (p.entry.textOf t)

/-- The superclass of the type around the body. -/
def ownSuperclass (p : Place) : Option String :=
  (p.program.get? (some p.owner)).bind TypeDecl.superclass

/-- The types around the body, innermost first. -/
def around (p : Place) : List String :=
  p.scopes.around (some p.owner)

/-- The first answer in the types around the body. -/
def firstAround {β : Type} (ask : String → Trail (Option β)) :
    List String → Trail (Option (String × β))
  | [] => pure none
  | scope :: rest => do
    match ← ask scope with
    | some b => pure (some (scope, b))
    | none => firstAround ask rest

/-- The type of a variable: a local one, or else a field of a type around the body. -/
def variableType (p : Place) (locals : Locals) (name : String) : Trail (Option String) :=
  match locals.lookup name with
  | some type => pure type
  | none => do
    let found ← firstAround (fun scope => p.program.fieldType (some scope) name) p.around
    return found.map (·.2)

/-- The type of a created object: an anonymous class, or the type named. -/
def createdType (p : Place) (t : Tree) : Option String :=
  let named := p.resolveNode (t.field? .type)
  if (t.child? [.classBody]).isSome then
    match p.anonymous.lookup (p.entry.path, t.start) with
    | some name => some name
    | none => named
  else named

/-- The type that a name in front of a member means, if it looks like the name of a type. -/
def typeReference (p : Place) (t : Tree) : Option String :=
  match t.kind with
  | .identifier | .fieldAccess | .scopedIdentifier =>
    let text := String.join (Text.words (p.entry.textOf t))
    if (Text.split '.' text).any Text.startsUpper then p.resolve text else none
  | _ => none

/-- The type of a field of an expression of a given type. -/
def memberType (p : Place) (type : Option String) (field : String) : Trail (Option String) :=
  match present? type with
  | none => pure none
  | some type =>
    if Text.endsWith "[]" type then pure (if field == "length" then some "int" else none)
    else p.program.fieldType (some type) field

/-- The type of the items of an array type. -/
def itemType (type : Option String) : Option String :=
  match present? type with
  | none => none
  | some type => if Text.endsWith "[]" type then some (Text.dropLast 2 type) else none

/-- The type of a binary expression from that of its left operand. -/
def joinType (left right : Option String) : Option String :=
  if left == some "java.lang.String" || right == some "java.lang.String" then
    some "java.lang.String"
  else left

/-- The types of an expression's operators applied in turn, from the innermost left operand. -/
def foldSpine (operand : Tree → Typing (Option String)) :
    List (String × Option Tree) → Option String → Typing (Option String)
  | [], type => pure type
  | (op, right) :: above, type =>
    if op == "+" then
      match right with
      | none => foldSpine operand above type
      | some right => do
        let other ← operand right
        foldSpine operand above (joinType type other)
    else foldSpine operand above type

/-- The type of an expression that may be missing. -/
def typeOfOption (operand : Tree → Typing (Option String)) (t : Option Tree) :
    Typing (Option String) :=
  match t with
  | none => pure none
  | some t => operand t

/-- The static type of an expression, given how its parts are typed. -/
def typeWith (p : Place) (locals : Locals) (known : Resolved)
    (operand : Tree → Typing (Option String)) (t : Tree) : Typing (Option String) :=
  match literalType? t.kind with
  | some type => pure type
  | none =>
    match t.kind with
    | .identifier => p.variableType locals (p.entry.textOf t)
    | .thisExpression => pure (some p.owner)
    | .parenthesizedExpression => typeOfOption operand t.constructs.head?
    | .castExpression => pure (p.resolveNode (t.field? .type))
    | .objectCreationExpression => pure (p.createdType t)
    | .arrayCreationExpression =>
      pure ((present? (p.resolveNode (t.field? .type))).map (· ++ "[]"))
    | .methodInvocation =>
      pure (((known.lookup t.id).bind Invocation.target).map Method.returnType)
    | .fieldAccess =>
      match t.field? .object with
      | none => pure none
      | some object => do
        let field := p.entry.textOf? (t.field? .field)
        match object.kind with
        | .thisExpression => p.memberType (some p.owner) field
        | .superExpression => p.memberType p.ownSuperclass field
        | _ =>
          match present? (← operand object) with
          | some type => p.memberType (some type) field
          | none => p.memberType (p.typeReference object) field
    | .arrayAccess => do
      let array ← typeOfOption operand (t.field? .array)
      pure (itemType array)
    | .ternaryExpression => do
      match present? (← typeOfOption operand (t.field? .consequence)) with
      | some type => pure (some type)
      | none => typeOfOption operand (t.field? .alternative)
    | .assignmentExpression => typeOfOption operand (t.field? .left)
    | .instanceofExpression => pure (some "boolean")
    | .classLiteral => pure (some "java.lang.Class")
    | .binaryExpression => do
      let (operators, bottom) := leftSpine t.size (some t) []
      let innermost ← match bottom with
        | .missing => pure none
        | .comparison => pure (some "boolean")
        | .operand u => operand u
      foldSpine operand operators innermost
    | _ => pure none

/-- The static type of an expression, typed with room for so many calls. One call is for the
    expression, and one more for the operands of a binary expression. -/
def typeOfAt (p : Place) (locals : Locals) (known : Resolved) :
    Nat → Tree → Typing (Option String)
  | 0, _ => throw .tooDeep
  | room + 1, t =>
    if t.kind == .binaryExpression then
      match room with
      | 0 => throw .tooDeep
      | room + 1 => p.typeWith locals known (p.typeOfAt locals known room) t
    else p.typeWith locals known (p.typeOfAt locals known room) t

/-- The static type of an expression. -/
def typeOf (p : Place) (locals : Locals) (known : Resolved) (t : Tree) :
    Typing (Option String) :=
  p.typeOfAt locals known p.room t

end Place
end ServiceReach.Index

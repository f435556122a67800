import ServiceReach.Index.Typing

/-
  What calls mean. A call with a receiver is looked for on the static type of the receiver, or on
  the type that the receiver names; a call without one in the types around the body, innermost
  first. A call whose target is unknown is recorded with what is known of it.
-/

namespace ServiceReach.Index

open Source

namespace Place

/-- The actual arguments of a call. -/
def argumentNodes (t : Tree) : List Tree :=
  match t.field? .arguments with
  | none => []
  | some list => list.constructs

/-- An actual argument. -/
def argument (p : Place) (locals : Locals) (known : Resolved) (t : Tree) : Typing Argument := do
  let type ← p.typeOf locals known t
  return ⟨Text.squash (p.entry.textOf t), type, t.kind == .nullLiteral⟩

/-- A call on a type; a virtual call of a static method is a static call. -/
def invokeOn (p : Place) (receiver : Option String) (dispatch : Dispatch) (name : String)
    (args : List (Option String)) : Trail Invocation := do
  let target ← match present? receiver with
    | none => pure none
    | some type => p.program.findMethod (some type) name args
  let isStatic := match target with
    | none => false
    | some m => m.isStatic
  return ⟨receiver, if dispatch == .virtual && isStatic then .static else dispatch, target, name⟩

/-- A call without receiver: of the first type around the body that has such a method. -/
def invokeUnqualified (p : Place) (name : String) (args : List (Option String)) :
    Trail Invocation := do
  match ← firstAround (fun scope => p.program.findMethod (some scope) name args) p.around with
  | some (scope, m) => return ⟨some scope, if m.isStatic then .static else .virtual, some m, name⟩
  | none => return ⟨some p.owner, .virtual, none, name⟩

/-- What a call means, given the types of its arguments. -/
def invocation (p : Place) (locals : Locals) (known : Resolved) (t : Tree)
    (args : List (Option String)) : Typing Invocation :=
  match t.kind with
  | .objectCreationExpression => p.invokeOn (p.createdType t) .special "<init>" args
  | .explicitConstructorInvocation =>
    match (t.field? .constructor).map Tree.kind with
    | some .thisExpression => p.invokeOn (some p.owner) .special "<init>" args
    | _ => p.invokeOn p.ownSuperclass .special "<init>" args
  | _ =>
    let name := p.entry.textOf? (t.field? .name)
    match t.field? .object with
    | none => p.invokeUnqualified name args
    | some object =>
      if object.kind == .superExpression then p.invokeOn p.ownSuperclass .special name args
      else do
        match ← p.typeOf locals known object with
        | some type => p.invokeOn (some type) .virtual name args
        | none =>
          match p.typeReference object with
          | some type => p.invokeOn (some type) .static name args
          | none => p.invokeOn none .virtual name args

/-- The signature recorded for a call: that of its target, or what is known of it. -/
def targetSignature (i : Invocation) (args : List Argument) : String :=
  match i.target with
  | some m => m.signature
  | none =>
    let types := args.map fun a => (present? a.type).getD "?"
    "<" ++ (present? i.receiver).getD "?" ++ ": ? " ++ i.name ++ "(" ++ ",".intercalate types ++ ")>"

/-- A call, as the `ordinal`-th of the instruction at `position`. -/
def callSite (p : Place) (locals : Locals) (known : Resolved) (position ordinal : Nat) (t : Tree) :
    Typing (CallSite × Invocation) := do
  let args ← (argumentNodes t).mapM (p.argument locals known)
  let i ← p.invocation locals known t (args.map Argument.type)
  return (
    { caller := some p.method
      position
      ordinal
      name := i.name
      args
      receiver := i.receiver
      dispatch := i.dispatch
      target := targetSignature i args
      line := lineOf p.entry.text t + 1 }, i)

end Place
end ServiceReach.Index

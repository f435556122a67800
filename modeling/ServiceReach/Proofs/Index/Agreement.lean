import ServiceReach.Proofs.Index.Depth
import ServiceReach.Proofs.Model.Order

/-
  What lowering a body depends on. Two tables of scopes agree if they declare the same names with
  the same types around them; the order in which they hold the names does not matter. Two places
  agree if they stand in the same method of the same file, their scopes agree, their programs have
  the same types, they name the anonymous classes of the file alike, and they have the same room for
  typing. Agreeing places resolve every name, type every expression and lower every body in the same
  way (`lower_congr`).
-/

namespace ServiceReach.Index

open Source

/-- The same names are declared, with the same types around them. -/
structure Scopes.Agree (s r : Scopes) : Prop where
  declares : ∀ name, s.declares name = r.declares name
  enclosing : ∀ name, s.enclosing? name = r.enclosing? name
  length : s.entries.length = r.entries.length

namespace Scopes

theorem agree_of_perm {s r : Scopes} (h : s.entries.Perm r.entries)
    (hnodup : (s.entries.map (·.1)).Nodup) : s.Agree r where
  declares := fun _ => h.any_eq
  enclosing := fun name => by
    unfold enclosing?
    rw [find?_name_of_perm hnodup h]
  length := h.length_eq

section

variable {s r : Scopes} (h : s.Agree r)

include h

theorem around_congr (scope : Option String) : s.around scope = r.around scope := by
  have hfrom : ∀ fuel scope, s.aroundFrom fuel scope = r.aroundFrom fuel scope := by
    intro fuel
    induction fuel with
    | zero => exact fun _ => rfl
    | succ fuel ih =>
      intro scope
      simp only [aroundFrom, h.enclosing, ih]
  rw [around, around, h.length, hfrom]

theorem toBinary_congr (dotted : String) : s.toBinary dotted = r.toBinary dotted := by
  have hnested : ∀ parts n, s.nestedIn? parts n = r.nestedIn? parts n := by
    intro parts n
    induction n with
    | zero => rfl
    | succ n ih => simp only [nestedIn?, h.declares, ih]
  simp only [toBinary, hnested, h.declares]

theorem simple?_congr (header : Header) (scope : Option String) (name : String) :
    s.simple? header scope name = r.simple? header scope name := by
  have hmember : s.memberOf? name = r.memberOf? name := by
    funext scope
    simp only [memberOf?, h.declares]
  have hdemand : s.importedOnDemand? name = r.importedOnDemand? name := by
    funext package
    simp only [importedOnDemand?, toBinary_congr h, h.declares]
  have hbinary : s.toBinary = r.toBinary := funext (toBinary_congr h)
  simp only [simple?, around_congr h, hmember, hdemand, hbinary, ifDeclared, h.declares]

theorem resolve_congr (header : Header) (scope : Option String) (raw : String) :
    s.resolve header scope raw = r.resolve header scope raw := by
  simp only [resolve, resolveClass, simple?_congr h, toBinary_congr h]

end

end Scopes

namespace Place

/-- The places are the same apart from the order in which declarations are listed. -/
structure Agree (p q : Place) : Prop where
  scopes : p.scopes.Agree q.scopes
  anonymous : ∀ start,
    p.anonymous.lookup (p.entry.path, start) = q.anonymous.lookup (q.entry.path, start)
  program : p.program.types.Perm q.program.types
  entry : p.entry = q.entry
  owner : p.owner = q.owner
  method : p.method = q.method
  room : p.room = q.room

variable {p q : Place} (h : p.Agree q)

include h

/-! ## Types -/

theorem resolve_congr (raw : String) : p.resolve raw = q.resolve raw := by
  simp only [resolve, Scopes.resolve_congr h.scopes, h.entry, h.owner]

theorem resolveNode_congr (t : Option Tree) : p.resolveNode t = q.resolveNode t := by
  simp only [resolveNode, resolve_congr h, h.entry]

theorem ownSuperclass_congr : p.ownSuperclass = q.ownSuperclass := by
  simp only [ownSuperclass, Program.get?_of_perm h.program, h.owner]

theorem around_congr : p.around = q.around := by
  simp only [around, Scopes.around_congr h.scopes, h.owner]

theorem createdType_congr (t : Tree) : p.createdType t = q.createdType t := by
  simp only [createdType, resolveNode_congr h, h.anonymous]

theorem typeReference_congr (t : Tree) : p.typeReference t = q.typeReference t := by
  simp only [typeReference, resolve_congr h, h.entry]

theorem variableType_congr (locals : Locals) (name : String) :
    p.variableType locals name = q.variableType locals name := by
  simp only [variableType, Program.fieldType_of_perm h.program, around_congr h]

theorem memberType_congr (type : Option String) (field : String) :
    p.memberType type field = q.memberType type field := by
  simp only [memberType, Program.fieldType_of_perm h.program]

theorem typeWith_congr (locals : Locals) (known : Resolved)
    (operand : Tree → Typing (Option String)) (t : Tree) :
    p.typeWith locals known operand t = q.typeWith locals known operand t := by
  simp only [typeWith, variableType_congr h, resolveNode_congr h, createdType_congr h,
    memberType_congr h, typeReference_congr h, ownSuperclass_congr h, h.entry, h.owner]

theorem typeOf_congr (locals : Locals) (known : Resolved) (t : Tree) :
    p.typeOf locals known t = q.typeOf locals known t := by
  have hrooms : ∀ room t, p.typeOfAt locals known room t = q.typeOfAt locals known room t := by
    intro room
    induction room using Nat.strongRecOn with
    | ind room ih =>
      intro t
      have hpos := Tree.ownFrames_pos t.kind
      rw [typeOfAt_eq, typeOfAt_eq]
      split
      · rfl
      · rw [typeWith_congr h, funext (ih (room - Tree.ownFrames t.kind) (by omega))]
  rw [typeOf, typeOf, hrooms, h.room]

/-! ## Calls -/

theorem argument_congr (locals : Locals) (known : Resolved) (t : Tree) :
    p.argument locals known t = q.argument locals known t := by
  simp only [argument, typeOf_congr h, h.entry]

theorem invokeOn_congr (receiver : Option String) (dispatch : Dispatch) (name : String)
    (args : List (Option String)) :
    p.invokeOn receiver dispatch name args = q.invokeOn receiver dispatch name args := by
  simp only [invokeOn, Program.findMethod_of_perm h.program]

theorem invokeUnqualified_congr (name : String) (args : List (Option String)) :
    p.invokeUnqualified name args = q.invokeUnqualified name args := by
  simp only [invokeUnqualified, Program.findMethod_of_perm h.program, around_congr h, h.owner]

theorem invocation_congr (locals : Locals) (known : Resolved) (t : Tree)
    (args : List (Option String)) :
    p.invocation locals known t args = q.invocation locals known t args := by
  simp only [invocation, invokeOn_congr h, invokeUnqualified_congr h, createdType_congr h,
    ownSuperclass_congr h, typeOf_congr h, typeReference_congr h, h.entry, h.owner]

theorem callSite_congr (locals : Locals) (known : Resolved) (position ordinal : Nat) (t : Tree) :
    p.callSite locals known position ordinal t = q.callSite locals known position ordinal t := by
  have hargument : p.argument locals known = q.argument locals known :=
    funext (argument_congr h locals known)
  simp only [callSite, hargument, invocation_congr h, h.entry, h.method]

theorem callSites_congr (locals : Locals) (position : Nat) (nodes : List Tree)
    (done : List CallSite) (known : Resolved) :
    p.callSites locals position nodes done known =
      q.callSites locals position nodes done known := by
  induction nodes generalizing done known with
  | nil => rfl
  | cons t nodes ih => simp only [callSites, callSite_congr h, ih]

/-! ## Bodies -/

theorem emit_congr (b : Body) (line : Nat) (text : String) (scan : List Tree)
    (kind : InstructionKind) : p.emit b line text scan kind = q.emit b line text scan kind := by
  simp only [emit, callSites_congr h]

theorem declare_congr (b : Body) (t : Tree) : p.declare b t = q.declare b t := by
  have hvariable : p.declareVariable = q.declareVariable := by
    funext declared b t
    simp only [declareVariable, typeOf_congr h, h.entry]
  simp only [declare, hvariable, resolveNode_congr h]

theorem plan_congr (t : Tree) : p.plan t = q.plan t := by
  have hbind : p.bindNode = q.bindNode := by
    funext t
    simp only [bindNode, resolveNode_congr h, h.entry]
  have hvariables : p.headerVariables t = q.headerVariables t := by
    simp only [headerVariables, bindCaught, hbind, resolve_congr h, h.entry]
  simp only [plan, emitNode, doSteps, switchGroup, line, hvariables, h.entry]

theorem run_congr (fuel : Nat) (steps : List Step) (b : Body) :
    p.run fuel steps b = q.run fuel steps b := by
  induction fuel generalizing steps b with
  | zero => rfl
  | succ fuel ih =>
    cases steps with
    | nil => rfl
    | cons step rest =>
      cases step with
      | visit t => rw [run, run, plan_congr h, ih]
      | emit line text scan kind => simp only [run, emit_congr h, ih]
      | declare t => simp only [run, declare_congr h, ih]
      | bind name type => rw [run, run, ih]

/-- Agreeing places lower a body in the same way. -/
theorem lower_congr (m : Method) (params : List (String × String)) (body : List Tree) :
    p.lower m params body = q.lower m params body := by
  simp only [lower, run_congr h]

end Place
end ServiceReach.Index

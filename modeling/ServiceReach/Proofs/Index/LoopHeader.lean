import ServiceReach.Proofs.Index.Course
import ServiceReach.Proofs.Index.Receivers

/-
  The variables of a loop. The header of a `for` statement is one instruction, and the variables
  that it declares are entered after it. So a call in the header sees the variables as they are
  before the loop: `v.ok()` in the condition is dispatched on what `v` means outside, a variable met
  earlier, a field or nothing. In the body of the loop `v` has the type that the header declares.
-/

namespace ServiceReach.Index

open Source Tree Trail Relation

variable {p : Place} {t : Tree} {b b' : Body}

/-! ## Calls of variables -/

/-- A call of a method of what an identifier means. -/
structure IsVariableCall (c o : Tree) : Prop where
  kind : c.kind = .methodInvocation
  object : c.field? .object = some o
  identifier : o.kind = .identifier

/-- The type on which a method of an identifier is called: that of the variable, or the type that
    the identifier names. -/
def Place.receiverOf (p : Place) (locals : Locals) (o : Tree) : Option String :=
  (p.variableType locals (p.entry.textOf o)).value.or (p.typeReference o)

theorem typeOf_identifier {locals : Locals} {known : Resolved} {o : Tree}
    (h : o.kind = .identifier) :
    Ensures (p.typeOf locals known o) fun type =>
      type = (p.variableType locals (p.entry.textOf o)).value := by
  have hliteral : literalType? o.kind = none := by
    rw [h]
    rfl
  unfold Place.typeOf
  rw [Place.typeOfAt_eq]
  split
  · exact fun type htype => by cases htype
  · unfold Place.typeWith
    rw [hliteral]
    simp only [h]
    exact Ensures.lift rfl

theorem receiver_invokeOn (p : Place) (receiver : Option String) (dispatch : Dispatch)
    (name : String) (args : List (Option String)) :
    (p.invokeOn receiver dispatch name args).value.receiver = receiver := by
  obtain ⟨d, hvalue⟩ := p.value_invokeOn receiver dispatch name args
  rw [hvalue]

/-- A method of an identifier is called on what it means among the variables at that moment. -/
theorem receiver_of_variableCall {c o : Tree} (hc : IsVariableCall c o) {locals : Locals}
    {s : CallSite} (hs : p.RecordsWith locals s c) : s.receiver = p.receiverOf locals o := by
  obtain ⟨known, position, ordinal, i, hsite⟩ := hs
  have hsuper : ¬ (o.kind == .superExpression) = true := by
    rw [hc.identifier]
    decide
  have hinvocation : ∀ args, Ensures (p.invocation locals known c args) fun i =>
      i.receiver = p.receiverOf locals o := by
    intro args
    unfold Place.invocation
    simp only [hc.kind, hc.object]
    rw [if_neg hsuper]
    refine (typeOf_identifier hc.identifier).bind fun type htype => ?_
    unfold Place.receiverOf
    rw [← htype]
    cases type with
    | some type => exact Ensures.lift (receiver_invokeOn p _ _ _ _)
    | none =>
      cases hreference : p.typeReference o with
      | some type => exact Ensures.lift (receiver_invokeOn p _ _ _ _)
      | none => exact Ensures.lift (receiver_invokeOn p _ _ _ _)
  have hreceiver : Ensures (p.callSite locals known position ordinal c) fun r =>
      r.1.receiver = p.receiverOf locals o :=
    (Ensures.trivial _).bind fun args _ => (hinvocation _).bind fun i hi => Ensures.pure hi
  exact hreceiver (s, i) hsite

/-! ## Declarations -/

/-- The variable is not given its type by a `new` expression. -/
def KeepsType (v : Tree) : Prop :=
  ∀ value, v.field? .value = some value → value.kind ≠ .objectCreationExpression

theorem declareVariable_typed {v : Tree} (hv : KeepsType v) (T : String) (b : Body) :
    Ensures (p.declareVariable (some T) b v) fun b' =>
      (∀ n, b.locals.lookup n = some (some T) → b'.locals.lookup n = some (some T)) ∧
        ∀ name, v.field? .name = some name →
          b'.locals.lookup (p.entry.textOf name) = some (some T) := by
  have hadded : ∀ name n : String, b.locals.lookup n = some (some T) →
      ((name, some T) :: b.locals).lookup n = some (some T) := by
    intro name n hn
    rw [List.lookup_cons]
    split
    · rfl
    · exact hn
  unfold Place.declareVariable
  cases hname : v.field? .name with
  | none => exact Ensures.pure ⟨fun n hn => hn, fun name h => by cases h⟩
  | some name =>
    have hentered : Ensures (pure { b with locals := (p.entry.textOf name, some T) :: b.locals } :
        Typing Body) fun b' =>
        (∀ n, b.locals.lookup n = some (some T) → b'.locals.lookup n = some (some T)) ∧
          ∀ name', some name = some name' →
            b'.locals.lookup (p.entry.textOf name') = some (some T) := by
      refine Ensures.pure ⟨hadded _, fun name' h => ?_⟩
      cases h
      rw [List.lookup_cons, beq_self_eq_true]
    dsimp only
    cases hvalue : v.field? .value with
    | none => exact hentered
    | some value =>
      have hkept : Place.typedByValue (some T) value = false := by
        rw [Place.typedByValue, beq_eq_false_iff_ne.mpr (hv value hvalue)]
        rfl
      dsimp only
      rw [hkept]
      exact hentered

/-- The variables of a declaration have the declared type after it. -/
theorem declare_typed {d : Tree} {T : String} (hT : p.resolveNode (d.field? .type) = some T)
    (hvars : ∀ v ∈ d.fields .declarator, KeepsType v) (b : Body) :
    Ensures (p.declare b d) fun b' => ∀ v ∈ d.fields .declarator, ∀ name,
      v.field? .name = some name → b'.locals.lookup (p.entry.textOf name) = some (some T) := by
  have hfold : ∀ (vs : List Tree), (∀ v ∈ vs, KeepsType v) → ∀ b : Body,
      Ensures (vs.foldlM (p.declareVariable (some T)) b) fun b' =>
        (∀ n, b.locals.lookup n = some (some T) → b'.locals.lookup n = some (some T)) ∧
          ∀ v ∈ vs, ∀ name, v.field? .name = some name →
            b'.locals.lookup (p.entry.textOf name) = some (some T) := by
    intro vs
    induction vs with
    | nil => exact fun _ b => Ensures.pure ⟨fun n hn => hn, fun v hv => absurd hv List.not_mem_nil⟩
    | cons v vs ih =>
      intro hvs b
      obtain ⟨hv, hvs⟩ := List.forall_mem_cons.mp hvs
      rw [List.foldlM_cons]
      refine (declareVariable_typed hv T b).bind fun b₁ hb₁ => (ih hvs b₁).imp fun b' hb' => ?_
      refine ⟨fun n hn => hb'.1 n (hb₁.1 n hn), List.forall_mem_cons.mpr ⟨?_, hb'.2⟩⟩
      exact fun name hname => hb'.1 _ (hb₁.2 name hname)
  unfold Place.declare
  rw [hT]
  exact (hfold _ hvars b).imp fun b' hb' => hb'.2

/-! ## Loops -/

/-- What the header of a `for` statement evaluates: all of it but the body. -/
def headerTrees (t : Tree) : List Tree :=
  t.constructs.filter fun c => (t.field? .body).map Tree.id != some c.id

/-- The declarations in the header of a `for` statement. -/
def headerDeclarations (t : Tree) : List Tree :=
  (t.fields .init).filter fun c => c.kind == .localVariableDeclaration

theorem plan_for (p : Place) (h : t.kind = .forStatement) :
    ∃ text, p.plan t = (.emit (p.line t) text (headerTrees t) .branch ::
      (headerDeclarations t).map .declare) ++ (t.field? .body).toList.map .visit := by
  refine ⟨headerText p.entry.text t (t.field? .body).toList, ?_⟩
  simp [Place.plan, isContainer, DeclKind.ofNode?, parts?, Place.headerVariables, h, headerTrees,
    headerDeclarations]

theorem moves_frame {c c' : List Step × Body} (h : p.Moves c c') (rest : List Step) :
    p.Moves (c.1 ++ rest, c.2) (c'.1 ++ rest, c'.2) := by
  induction h with
  | refl => exact .refl
  | tail _ hmove ih =>
    refine ih.tail ?_
    cases hmove with
    | visit t steps b =>
      dsimp only
      rw [List.append_assoc]
      exact .visit t (steps ++ rest) b
    | emit hemit steps => exact .emit hemit (steps ++ rest)
    | declare hdeclare steps => exact .declare hdeclare (steps ++ rest)
    | bind name type steps b => exact .bind name type (steps ++ rest) b

/-- What lowering does with a loop that it comes to: `b` is the body so far, `code` the code in the
    end. -/
structure Place.LowersLoop (p : Place) (t : Tree) (rest : List Step) (b : Body)
    (code : List Instruction) : Prop where
  /-- The calls of the header are those of one instruction, and see the variables before the loop. -/
  header : ∃ i, code[b.code.length]? = some i ∧
    List.Forall₂ (fun s c => ∀ o, IsVariableCall c o → s.receiver = p.receiverOf b.locals o)
      i.calls ((headerTrees t).flatMap callNodes)
  /-- In the body of the loop the variables have the types that the header declares. -/
  body : ∀ loop, t.field? .body = some loop →
    ∃ b', p.Moves (.visit t :: rest, b) (.visit loop :: rest, b') ∧
      ∀ d T, headerDeclarations t = [d] → p.resolveNode (d.field? .type) = some T →
        (∀ v ∈ d.fields .declarator, KeepsType v) →
        ∀ v ∈ d.fields .declarator, ∀ name, v.field? .name = some name →
          b'.locals.lookup (p.entry.textOf name) = some (some T)

theorem closeCode_prefix (m : Method) (code : List Instruction) : code <+: closeCode m code := by
  unfold closeCode
  split
  · exact List.prefix_append _ _
  · exact List.prefix_rfl

theorem getElem?_of_prefix {code code' : List Instruction} {i : Instruction}
    (h : code ++ [i] <+: code') : code'[code.length]? = some i := by
  obtain ⟨tail, rfl⟩ := h
  simp

/-- The header of a loop is one instruction; then come its variables, and then its body. -/
theorem moves_for (hkind : t.kind = .forStatement) {rest : List Step}
    (h : p.Moves (.visit t :: rest, b) ([], b')) :
    ∃ text b₁ b₂, (p.emit b (p.line t) text (headerTrees t) .branch).run.value = .ok b₁ ∧
      p.Moves ((headerDeclarations t).map .declare, b₁) ([], b₂) ∧
      p.Moves (.visit t :: rest, b) ((t.field? .body).toList.map .visit ++ rest, b₂) ∧
      p.Moves ((t.field? .body).toList.map .visit ++ rest, b₂) ([], b') := by
  obtain ⟨text, hplan⟩ := plan_for p hkind
  have hmoves := moves_visit h
  rw [hplan, List.append_assoc] at hmoves
  obtain ⟨b₂, hfront, hlater⟩ := moves_append hmoves
  have hbody : p.Moves (.visit t :: rest, b)
      ((t.field? .body).toList.map .visit ++ rest, b₂) := by
    refine .head (.visit t rest b) ?_
    rw [hplan, List.append_assoc]
    exact moves_frame hfront _
  rcases ReflTransGen.cases_head hfront with heq | ⟨c, hmove, hdeclares⟩
  · cases heq
  · cases hmove with
    | emit hemit => exact ⟨text, _, b₂, hemit, hdeclares, hbody, hlater⟩

theorem moves_declare_typed {d : Tree} {T : String} (hT : p.resolveNode (d.field? .type) = some T)
    (hvars : ∀ v ∈ d.fields .declarator, KeepsType v)
    (h : p.Moves ([d].map .declare, b) ([], b')) :
    ∀ v ∈ d.fields .declarator, ∀ name, v.field? .name = some name →
      b'.locals.lookup (p.entry.textOf name) = some (some T) := by
  rcases ReflTransGen.cases_head h with heq | ⟨c, hmove, hend⟩
  · cases heq
  · cases hmove with
    | declare hdeclare =>
      rw [moves_nil hend]
      exact declare_typed hT hvars b _ hdeclare

/-- The header of a loop sees the variables before it, its body those that the header declares. -/
theorem moves_loop (hkind : t.kind = .forStatement) {rest : List Step}
    (h : p.Moves (.visit t :: rest, b) ([], b')) {code : List Instruction}
    (hcode : b'.code <+: code) : p.LowersLoop t rest b code := by
  obtain ⟨text, b₁, b₂, hemit, hdeclares, hbody, hlater⟩ := moves_for hkind h
  obtain ⟨_, calls, hadded, hrecords⟩ := p.emit_adds _ _ _ _ _ _ hemit
  constructor
  · have hkept : b₁.code <+: b₂.code := hdeclares.code_prefix
    have hprefix : b₁.code <+: code := (hkept.trans hlater.code_prefix).trans hcode
    rw [hadded] at hprefix
    refine ⟨_, getElem?_of_prefix hprefix, ?_⟩
    exact hrecords.imp fun s c hs o hc => receiver_of_variableCall hc hs
  · intro loop hloop
    rw [hloop] at hbody
    refine ⟨b₂, hbody, fun d T hd hT hvars => ?_⟩
    rw [hd] at hdeclares
    exact moves_declare_typed hT hvars hdeclares

/-- Lowering comes to each `for` statement of a body. The calls of its header are resolved with the
    variables in force before the loop, and in its body the variables that the header declares have
    their declared types. -/
theorem Place.lower_loop_header (p : Place) (m : Method) (params : List (String × String))
    {body : List Tree} (h : Grammatical body) {code : List Instruction}
    (hcode : (p.lower m params body).run.value = .ok code) {t : Tree} (ht : StatementIn body t)
    (hkind : t.kind = .forStatement) :
    ∃ rest b, p.Moves (body.map .visit, Body.ofParams params) (.visit t :: rest, b) ∧
      p.LowersLoop t rest b code := by
  obtain ⟨b', hmoves, hclosed⟩ := lower_moves p m params h code hcode
  obtain ⟨rest, b, hbefore, hafter⟩ := ht.met hmoves
  exact ⟨rest, b, hbefore, moves_loop hkind hafter (hclosed ▸ closeCode_prefix m b'.code)⟩

/-! ## A field of the same name -/

/-- The loop `for (C v = c; v.ok(); ) {}`. -/
def loopTree : Tree :=
  .node ⟨.forStatement, true, 22, 29, 55, none⟩
    [.node ⟨.localVariableDeclaration, true, 25, 34, 42, some .init⟩
      [.node ⟨.other "type_identifier", true, 26, 34, 35, some .type⟩ [],
       .node ⟨.variableDeclarator, true, 27, 36, 41, some .declarator⟩
        [.node ⟨.identifier, true, 28, 36, 37, some .name⟩ [],
         .node ⟨.identifier, true, 30, 40, 41, some .value⟩ []]],
     .node ⟨.methodInvocation, true, 32, 43, 49, some .condition⟩
      [.node ⟨.identifier, true, 33, 43, 44, some .object⟩ [],
       .node ⟨.identifier, true, 35, 45, 47, some .name⟩ [],
       .node ⟨.other "argument_list", true, 36, 47, 49, some .arguments⟩ []],
     .node ⟨.block, true, 41, 53, 55, some .body⟩ []]

/-- The place of the loop in `class A { B v; void f(C c) { for (C v = c; v.ok(); ) {} } }`. -/
def loopPlace : Place :=
  { scopes := ⟨[("A", none)]⟩
    anonymous := []
    program := Program.ofTypes [{ name := "A", fields := [("v", "B")] }]
    entry := ⟨"A.java", "class A { B v; void f(C c) { for (C v = c; v.ok(); ) {} } }".toUTF8.data,
      loopTree, true, {}⟩
    owner := "A"
    method := "<A: void f(C)>"
    room := 1000 }

/-- The method with the loop. -/
def loopMethod : Method :=
  { owner := "A", name := "f", params := ["C"], hasBody := true }

theorem lower_loopTree :
    ∃ code, (loopPlace.lower loopMethod [("c", "C")] [loopTree]).run.value = .ok code ∧
      code.map (fun i => i.calls.map fun s => (s.name, s.receiver)) = [[("ok", some "B")], []] := by
  refine exists_ok_of_map ?_
  decide +kernel

theorem lower_loop_header_field :
    Grammatical [loopTree] ∧ StatementIn [loopTree] loopTree ∧
      loopTree.kind = .forStatement ∧
      ∃ code rest b, (loopPlace.lower loopMethod [("c", "C")] [loopTree]).run.value = .ok code ∧
        loopPlace.Moves ([loopTree].map .visit, Body.ofParams [("c", "C")])
          (.visit loopTree :: rest, b) ∧
        loopPlace.LowersLoop loopTree rest b code := by
  have hgrammatical : Grammatical [loopTree] := by decide
  have hstatement : StatementIn [loopTree] loopTree := .root List.mem_cons_self
  obtain ⟨code, hcode, _⟩ := lower_loopTree
  obtain ⟨rest, b, hb⟩ :=
    loopPlace.lower_loop_header loopMethod _ hgrammatical hcode hstatement rfl
  exact ⟨hgrammatical, hstatement, rfl, code, rest, b, hcode, hb⟩

/-- The header declares `v` with another type than a field of that name, and the call in the
    condition goes to the type of the field. -/
theorem lower_loop_header_sees_field :
    (headerDeclarations loopTree).map (fun d => loopPlace.resolveNode (d.field? .type)) =
        [some "C"] ∧
      ∃ code, (loopPlace.lower loopMethod [("c", "C")] [loopTree]).run.value = .ok code ∧
        code.map (fun i => i.calls.map fun s => (s.name, s.receiver)) =
          [[("ok", some "B")], []] :=
  ⟨by decide +kernel, lower_loopTree⟩

end ServiceReach.Index

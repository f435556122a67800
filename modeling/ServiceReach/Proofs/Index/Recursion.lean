import ServiceReach.Proofs.Index.Course

/-
  Lowering as a recursion. `lowerStatement` goes down into a statement: a control-flow statement is
  its header and then its nested statements, a `do` statement its body between two instructions, a
  group of a switch its labels and then the rest, a block or a label what it holds, and any other
  statement one instruction; the body so far, with its variables, is handed on from left to right.
  The steps that are worked off one by one do the same (`perform_plan` for one statement,
  `run_eq_perform` for whatever is left to do), so lowering a body is this recursion, closed with a
  return where the body can be left at its end.
-/

namespace ServiceReach.Index

open Source Trail

/-- The body with one more variable. -/
def Body.bind (b : Body) (name : String) (type : Option String) : Body :=
  { b with locals := (name, type) :: b.locals }

namespace Place

/-! ## The recursion -/

/-- Adds a statement as one instruction. -/
def emitWhole (p : Place) (kind : InstructionKind) (t : Tree) (b : Body) : Typing Body :=
  p.emit b (p.line t) (Text.squash (p.entry.textOf t)) [t] kind

/-- Adds the label of a group of a switch. -/
def emitLabel (p : Place) (mark : String) (b : Body) (t : Tree) : Typing Body :=
  p.emit b (p.line t) (Text.squash (p.entry.textOf t) ++ mark) [] .branch

/-- Enters the variable of a node with fields for name and type. -/
def enterNamed (p : Place) (b : Body) (t : Tree) : Body :=
  match t.field? .name with
  | none => b
  | some name => b.bind (p.entry.textOf name) (p.resolveNode (t.field? .type))

/-- Enters the variable of a catch clause, of the first of its types. -/
def enterCaught (p : Place) (b : Body) (t : Tree) : Body :=
  match t.child? [.catchFormalParameter] with
  | none => b
  | some param =>
    match param.field? .name, param.child? [.catchType] with
    | some name, some type =>
      b.bind (p.entry.textOf name) (p.resolve (Text.beforeFirst '|' (p.entry.textOf type)))
    | _, _ => b

/-- Enters the variables that the header of a control-flow statement declares. -/
def enterHeader (p : Place) (t : Tree) (b : Body) : Typing Body :=
  match t.kind with
  | .forStatement =>
    ((t.fields .init).filter fun c => c.kind == .localVariableDeclaration).foldlM p.declare b
  | .enhancedForStatement => pure (p.enterNamed b t)
  | .catchClause => pure (p.enterCaught b t)
  | .tryWithResourcesStatement =>
    match t.field? .resources with
    | none => pure b
    | some resources => pure (resources.constructs.foldl p.enterNamed b)
  | _ => pure b

mutual

/-- Lowers a statement, and in it the statements nested in it. -/
def lowerStatement (p : Place) (t : Tree) (b : Body) : Typing Body :=
  if isContainer t.kind then p.lowerEach t.constructs b
  else if (DeclKind.ofNode? t.kind).isSome then pure b
  else
    match t.kind with
    | .labeledStatement => p.lowerEach (t.constructs.filter fun c => c.kind != .identifier) b
    | .localVariableDeclaration => do
      let b ← p.emitWhole .statement t b
      p.declare b t
    | .returnStatement => p.emitWhole .return t b
    | .doStatement => do
      let b ← p.emit b (p.line t) "do" [] .branch
      let b ← p.lowerEach (t.field? .body).toList b
      p.emit b (p.line t) ("while " ++ Text.squash (p.entry.textOf? (t.field? .condition)))
        (t.field? .condition).toList .branch
    | .switchBlockStatementGroup => do
      let b ← (t.constructs.filter fun c => c.kind == .switchLabel).foldlM (p.emitLabel ":") b
      p.lowerEach (t.constructs.filter fun c => c.kind != .switchLabel) b
    | .switchRule => do
      let b ← (t.constructs.filter fun c => c.kind == .switchLabel).foldlM (p.emitLabel " ->") b
      p.lowerEach (t.constructs.filter fun c => c.kind != .switchLabel) b
    | _ =>
      match _hparts : parts? t with
      | some parts => do
        let b ← p.emit b (p.line t) (headerText p.entry.text t parts.bodies) parts.scan .branch
        let b ← p.enterHeader t b
        p.lowerEach parts.bodies b
      | none => p.emitWhole .statement t b
termination_by (weight t, 0)
decreasing_by
  all_goals
    refine Prod.Lex.left _ _ ?_
    rw [weight_eq]
  · have hle : weightOf t.constructs ≤ weightOf t.children :=
      weightOf_le_of_sublist List.filter_sublist
    omega
  · have hle := weightOf_constructs_filter_le t fun c => c.kind != .identifier
    omega
  · have hle := weightOf_toList_le (t := t) fun c hc => Tree.mem_children_of_field? (f := .body) hc
    omega
  · have hle := weightOf_constructs_filter_le t fun c => c.kind != .switchLabel
    omega
  · have hle := weightOf_constructs_filter_le t fun c => c.kind != .switchLabel
    omega
  · have hle := weightOf_bodies_le _hparts
    omega

/-- Lowers statements one after the other. -/
def lowerEach (p : Place) : List Tree → Body → Typing Body
  | [], b => pure b
  | t :: rest, b => do
    let b ← p.lowerStatement t b
    p.lowerEach rest b
termination_by ts => (weightOf ts, 1)
decreasing_by
  · rw [weightOf]
    rcases Nat.eq_zero_or_pos (weightOf rest) with hzero | hpos
    · rw [hzero]
      exact Prod.Lex.right _ Nat.zero_lt_one
    · exact Prod.Lex.left _ _ (by omega)
  · refine Prod.Lex.left _ _ ?_
    rw [weightOf, weight_eq]
    omega

end

/-! ## The steps -/

/-- What a step does to a body. -/
def perform (p : Place) (b : Body) : Step → Typing Body
  | .visit t => p.lowerStatement t b
  | .emit line text scan kind => p.emit b line text scan kind
  | .declare t => p.declare b t
  | .bind name type => pure (b.bind name type)

variable (p : Place) (t : Tree) (b : Body)

theorem perform_visits (ts : List Tree) :
    (ts.map Step.visit).foldlM p.perform b = p.lowerEach ts b := by
  induction ts generalizing b with
  | nil => rw [lowerEach]; rfl
  | cons t ts ih =>
    rw [List.map_cons, List.foldlM_cons, lowerEach]
    exact bind_congr fun b' => ih b'

theorem perform_bindNode : (p.bindNode t).foldlM p.perform b = pure (p.enterNamed b t) := by
  unfold bindNode enterNamed
  cases t.field? .name with
  | none => rfl
  | some name => exact bind_pure _

theorem perform_bindCaught : (p.bindCaught t).foldlM p.perform b = pure (p.enterCaught b t) := by
  unfold bindCaught enterCaught
  cases t.child? [.catchFormalParameter] with
  | none => rfl
  | some param =>
    dsimp only
    cases param.field? .name with
    | none => rfl
    | some name =>
      cases param.child? [.catchType] with
      | none => rfl
      | some type => exact bind_pure _

theorem perform_bindNodes (ts : List Tree) :
    (ts.flatMap p.bindNode).foldlM p.perform b = pure (ts.foldl p.enterNamed b) := by
  induction ts generalizing b with
  | nil => rfl
  | cons t ts ih =>
    rw [List.flatMap_cons, List.foldlM_append, perform_bindNode, pure_bind, ih, List.foldl_cons]

theorem perform_declares (ts : List Tree) :
    (ts.map Step.declare).foldlM p.perform b = ts.foldlM p.declare b := by
  rw [List.foldlM_map]
  rfl

theorem enterHeader_of_other (hfor : t.kind ≠ .forStatement)
    (heach : t.kind ≠ .enhancedForStatement) (hcatch : t.kind ≠ .catchClause)
    (htry : t.kind ≠ .tryWithResourcesStatement) : p.enterHeader t b = pure b := by
  unfold enterHeader
  split
  · exact absurd ‹_› hfor
  · exact absurd ‹_› heach
  · exact absurd ‹_› hcatch
  · exact absurd ‹_› htry
  · rfl

theorem perform_headerVariables :
    (p.headerVariables t).foldlM p.perform b = p.enterHeader t b := by
  unfold headerVariables
  split
  · rename_i hkind
    rw [enterHeader, hkind]
    exact p.perform_declares b _
  · rename_i hkind
    rw [enterHeader, hkind]
    exact p.perform_bindNode t b
  · rename_i hkind
    rw [enterHeader, hkind]
    exact p.perform_bindCaught t b
  · rename_i hkind
    rw [enterHeader, hkind]
    dsimp only
    cases t.field? .resources with
    | none => rfl
    | some resources => exact p.perform_bindNodes b _
  · rename_i hfor heach hcatch htry
    exact (p.enterHeader_of_other t b hfor heach hcatch htry).symm

theorem perform_switchGroup (mark : String) :
    (p.switchGroup mark t).foldlM p.perform b = (do
      let b ← (t.constructs.filter fun c => c.kind == .switchLabel).foldlM (p.emitLabel mark) b
      p.lowerEach (t.constructs.filter fun c => c.kind != .switchLabel) b) := by
  unfold switchGroup
  rw [List.foldlM_append, List.foldlM_map]
  exact bind_congr fun b' => p.perform_visits b' _

theorem perform_doSteps :
    (p.doSteps t).foldlM p.perform b = (do
      let b ← p.emit b (p.line t) "do" [] .branch
      let b ← p.lowerEach (t.field? .body).toList b
      p.emit b (p.line t) ("while " ++ Text.squash (p.entry.textOf? (t.field? .condition)))
        (t.field? .condition).toList .branch) := by
  unfold doSteps
  rw [List.foldlM_append, List.foldlM_append, List.foldlM_cons, bind_assoc]
  refine bind_congr fun b' => ?_
  rw [perform_visits]
  exact bind_congr fun b'' => bind_pure _

/-- The header of a compound statement, its variables and its bodies are performed in turn. -/
theorem perform_compound (parts : Parts) :
    (Step.emit (p.line t) (headerText p.entry.text t parts.bodies) parts.scan .branch ::
        (p.headerVariables t ++ parts.bodies.map .visit)).foldlM p.perform b = (do
      let b ← p.emit b (p.line t) (headerText p.entry.text t parts.bodies) parts.scan .branch
      let b ← p.enterHeader t b
      p.lowerEach parts.bodies b) := by
  rw [List.foldlM_cons]
  refine bind_congr fun b' => ?_
  rw [List.foldlM_append, perform_headerVariables]
  exact bind_congr fun b'' => p.perform_visits b'' _

/-- A statement of no kind that is treated by itself is compound, or one instruction. -/
theorem lowerStatement_of_ordinary (hcontainer : ¬ isContainer t.kind = true)
    (hdecl : ¬ (DeclKind.ofNode? t.kind).isSome = true) (hordinary : IsOrdinary t.kind)
    (hlocal : t.kind ≠ .localVariableDeclaration) (hreturn : t.kind ≠ .returnStatement) :
    p.lowerStatement t b = match parts? t with
      | some parts => do
        let b ← p.emit b (p.line t) (headerText p.entry.text t parts.bodies) parts.scan .branch
        let b ← p.enterHeader t b
        p.lowerEach parts.bodies b
      | none => p.emitWhole .statement t b := by
  obtain ⟨hlabeled, hdo, hgroup, hrule⟩ := hordinary
  rw [lowerStatement, if_neg hcontainer, if_neg hdecl]
  split
  · exact absurd ‹_› hlabeled
  · exact absurd ‹_› hlocal
  · exact absurd ‹_› hreturn
  · exact absurd ‹_› hdo
  · exact absurd ‹_› hgroup
  · exact absurd ‹_› hrule
  · split
    · rename_i parts hparts
      rw [hparts]
    · rename_i hparts
      rw [hparts]

/-- Performing the plan of a statement is lowering the statement. -/
theorem perform_plan : (p.plan t).foldlM p.perform b = p.lowerStatement t b := by
  unfold plan
  by_cases hcontainer : isContainer t.kind = true
  · rw [if_pos hcontainer, lowerStatement, if_pos hcontainer]
    exact p.perform_visits b _
  rw [if_neg hcontainer]
  by_cases hdecl : (DeclKind.ofNode? t.kind).isSome = true
  · rw [if_pos hdecl, lowerStatement, if_neg hcontainer, if_pos hdecl]
    rfl
  rw [if_neg hdecl]
  split
  · rename_i hkind
    rw [lowerStatement, if_neg hcontainer, if_neg hdecl, hkind]
    exact p.perform_visits b _
  · rename_i hkind
    rw [lowerStatement, if_neg hcontainer, if_neg hdecl, hkind]
    exact bind_congr fun b' => bind_pure _
  · rename_i hkind
    rw [lowerStatement, if_neg hcontainer, if_neg hdecl, hkind]
    exact bind_pure _
  · rename_i hkind
    rw [lowerStatement, if_neg hcontainer, if_neg hdecl, hkind]
    exact p.perform_doSteps t b
  · rename_i hkind
    rw [lowerStatement, if_neg hcontainer, if_neg hdecl, hkind]
    exact p.perform_switchGroup t b ":"
  · rename_i hkind
    rw [lowerStatement, if_neg hcontainer, if_neg hdecl, hkind]
    exact p.perform_switchGroup t b " ->"
  · rename_i hlabeled hlocal hreturn hdo hgroup hrule
    rw [p.lowerStatement_of_ordinary t b hcontainer hdecl ⟨hlabeled, hdo, hgroup, hrule⟩ hlocal
      hreturn]
    cases parts? t with
    | some parts => exact p.perform_compound t b parts
    | none => exact bind_pure _

/-- With as much fuel as they cost, the steps are performed one after the other. -/
theorem run_eq_perform {fuel : Nat} {steps : List Step} (hfuel : cost steps ≤ fuel) :
    p.run fuel steps b = steps.foldlM p.perform b := by
  induction fuel generalizing steps b with
  | zero =>
    cases steps with
    | nil => rfl
    | cons s rest =>
      have hpos := s.cost_pos
      rw [cost] at hfuel
      omega
  | succ fuel ih =>
    cases steps with
    | nil => rfl
    | cons s rest =>
      have hpos := s.cost_pos
      have hrest : cost rest ≤ fuel := by
        rw [cost] at hfuel
        omega
      rw [List.foldlM_cons]
      cases s with
      | visit t =>
        have hplan := cost_plan_append_lt p t rest
        rw [run, ih b (by omega), List.foldlM_append, perform_plan]
        rfl
      | emit line text scan kind => exact bind_congr fun b' => ih b' hrest
      | declare t => exact bind_congr fun b' => ih b' hrest
      | bind name type =>
        rw [perform, pure_bind]
        exact ih _ hrest

end Place

/-- The return that is added to the code of a method that can be left at its end is one instruction
    after it. -/
theorem closeCode_eq (m : Method) (code : List Instruction) :
    closeCode m code = code ∨
      ∃ line, closeCode m code = code ++ [⟨code.length, "return", .return, [], line⟩] := by
  unfold closeCode
  split
  · exact Or.inr ⟨_, rfl⟩
  · exact Or.inl rfl

/-- Working the steps of a body off is the recursion over its statements: the instructions before
    the return that may be added at the end are those of the recursion, in order, and lowering gives
    up where the recursion does. -/
theorem Place.lower_eq_recursion (p : Place) (m : Method) (params : List (String × String))
    (body : List Tree) :
    (p.lower m params body = do
      let b ← p.lowerEach body (Body.ofParams params)
      return closeCode m b.code) ∧
    ∀ code, closeCode m code = code ∨
      ∃ line, closeCode m code = code ++ [⟨code.length, "return", .return, [], line⟩] := by
  refine ⟨?_, closeCode_eq m⟩
  rw [← perform_visits, ← p.run_eq_perform _ (Nat.le_of_eq (cost_visits body))]
  rfl

end ServiceReach.Index

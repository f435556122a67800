import ServiceReach.Proofs.Index.LoopHeader

/-
  The scope of local variables. A body is lowered with one table of variables, the latest first, and
  nothing is taken out of the table at the end of a statement. So what a block, a loop, a catch
  clause or a try statement declares stays in force after it: an identifier used later has the type
  of the last declaration of its name that was lowered before, whether or not its block has ended,
  and what it meant before the statement only if the statement declares nothing of that name
  (`Place.lower_keeps_variables`).
-/

namespace ServiceReach.Index

open Source Tree Trail Relation

variable {p : Place} {t u : Tree} {b b' : Body} {steps : List Step}

/-! ## Courses of any body -/

/-- Lowering that does not give up works all steps off, whatever the trees look like. -/
theorem run_moves {fuel : Nat} (hfuel : cost steps ≤ fuel) (b : Body) :
    Ensures (p.run fuel steps b) fun b' => p.Moves (steps, b) ([], b') := by
  induction fuel generalizing steps b with
  | zero =>
    cases steps with
    | nil => exact Ensures.pure .refl
    | cons s rest =>
      have hpos := s.cost_pos
      rw [cost] at hfuel
      omega
  | succ fuel ih =>
    cases steps with
    | nil => exact Ensures.pure .refl
    | cons s rest =>
      have hrest : cost rest ≤ fuel := by
        have hpos := s.cost_pos
        rw [cost] at hfuel
        omega
      cases s with
      | visit t =>
        have hplan : cost (p.plan t ++ rest) ≤ fuel := by
          have hlt := cost_plan_append_lt p t rest
          omega
        exact (ih hplan b).imp fun b' hmoves => .head (.visit t rest b) hmoves
      | emit line text scan kind =>
        have hemit : Ensures (p.emit b line text scan kind) fun b₁ =>
            (p.emit b line text scan kind).run.value = .ok b₁ := fun _ hb₁ => hb₁
        exact hemit.bind fun b₁ hb₁ => (ih hrest b₁).imp fun b' hmoves =>
          .head (.emit hb₁ rest) hmoves
      | declare t =>
        have hdeclare : Ensures (p.declare b t) fun b₁ =>
            (p.declare b t).run.value = .ok b₁ := fun _ hb₁ => hb₁
        exact hdeclare.bind fun b₁ hb₁ => (ih hrest b₁).imp fun b' hmoves =>
          .head (.declare hb₁ rest) hmoves
      | bind name type =>
        exact (ih hrest _).imp fun b' hmoves => .head (.bind name type rest b) hmoves

/-- A configuration leads to one other at most. -/
theorem Place.Move.unique {c c₁ c₂ : List Step × Body} (h₁ : p.Move c c₁) (h₂ : p.Move c c₂) :
    c₁ = c₂ := by
  cases h₁ with
  | visit t rest b =>
    cases h₂
    rfl
  | emit h rest =>
    cases h₂ with
    | emit h' =>
      cases h.symm.trans h'
      rfl
  | declare h rest =>
    cases h₂ with
    | declare h' =>
      cases h.symm.trans h'
      rfl
  | bind name type rest b =>
    cases h₂
    rfl

/-- Lowering that gets through goes on to the end from wherever it comes. -/
theorem Place.Moves.rest {c c₁ : List Step × Body} (h : p.Moves c c₁)
    (hend : p.Moves c ([], b')) : p.Moves c₁ ([], b') := by
  have hunique : Relator.RightUnique p.Move := fun _ _ _ h₁ h₂ => h₁.unique h₂
  rcases ReflTransGen.total_of_right_unique hunique h hend with hrest | hback
  · exact hrest
  · rcases ReflTransGen.cases_head hback with heq | ⟨_, hmove, _⟩
    · rw [heq]
      exact .refl
    · cases hmove

/-! ## Variables of statements -/

/-- A variable as it is declared. -/
structure Variable where
  name : String
  /-- The type written for it. -/
  written : Option String
  /-- Its value, where the type of the value counts. -/
  value : Option Tree

namespace Place

/-- The variable of a declarator. -/
def declarator? (p : Place) (written : Option String) (v : Tree) : Option Variable :=
  (v.field? .name).map fun name =>
    ⟨p.entry.textOf name, written, (v.field? .value).filter (typedByValue written)⟩

/-- The variables of a local variable declaration. -/
def declarators (p : Place) (d : Tree) : List Variable :=
  (d.fields .declarator).filterMap (p.declarator? (p.resolveNode (d.field? .type)))

/-- The variable of a node with fields for name and type, such as a resource of a try statement. It
    has the type that is written for it, whatever its value is. -/
def named? (p : Place) (t : Tree) : Option Variable :=
  (t.field? .name).map fun name =>
    ⟨p.entry.textOf name, p.resolveNode (t.field? .type), none⟩

/-- The variable of a catch clause, with the first of its types. -/
def caught? (p : Place) (t : Tree) : Option Variable :=
  (t.child? [.catchFormalParameter]).bind fun param =>
    (param.field? .name).bind fun name => (param.child? [.catchType]).map fun type =>
      ⟨p.entry.textOf name, p.resolve (Text.beforeFirst '|' (p.entry.textOf type)), none⟩

/-- The variables that a statement declares itself. -/
def ownVariables (p : Place) (t : Tree) : List Variable :=
  match t.kind with
  | .localVariableDeclaration => p.declarators t
  | .forStatement => (headerDeclarations t).flatMap p.declarators
  | .enhancedForStatement => (p.named? t).toList
  | .catchClause => (p.caught? t).toList
  | .tryWithResourcesStatement =>
    (t.field? .resources).toList.flatMap fun resources => resources.constructs.filterMap p.named?
  | _ => []

/-- The variables that a statement and those nested in it declare, in the order of lowering. -/
def declared (p : Place) (t : Tree) : List Variable :=
  p.ownVariables t ++ (nested t).attach.flatMap fun c => p.declared c.1
termination_by t.depth
decreasing_by exact depth_lt_of_mem_children (nested_subset t c.2)

/-- The variables that are entered when the step is worked off. -/
def variablesOf (p : Place) : Step → List Variable
  | .visit t => p.declared t
  | .emit _ _ _ _ => []
  | .declare d => p.declarators d
  | .bind name type => [⟨name, type, none⟩]

theorem declared_eq (p : Place) (t : Tree) :
    p.declared t = p.ownVariables t ++ (nested t).flatMap p.declared := by
  rw [declared, ← List.flatMap_map, List.attach_map_subtype_val]

end Place

/-! ## Variables of plans -/

theorem flatMap_visits (p : Place) (ts : List Tree) :
    (ts.map Step.visit).flatMap p.variablesOf = ts.flatMap p.declared := by
  rw [List.flatMap_map]
  rfl

theorem flatMap_bindNode (p : Place) (t : Tree) :
    (p.bindNode t).flatMap p.variablesOf = (p.named? t).toList := by
  unfold Place.bindNode Place.named?
  cases t.field? .name with
  | none => rfl
  | some name => rfl

theorem flatMap_bindCaught (p : Place) (t : Tree) :
    (p.bindCaught t).flatMap p.variablesOf = (p.caught? t).toList := by
  unfold Place.bindCaught Place.caught?
  cases t.child? [.catchFormalParameter] with
  | none => rfl
  | some param =>
    rw [Option.bind_some]
    dsimp only
    cases param.field? .name with
    | none => rfl
    | some name =>
      cases param.child? [.catchType] with
      | none => rfl
      | some type => rfl

theorem flatMap_headerVariables (h : t.kind ≠ .localVariableDeclaration) :
    (p.headerVariables t).flatMap p.variablesOf = p.ownVariables t := by
  unfold Place.headerVariables Place.ownVariables
  split
  · rename_i hkind
    simp only [hkind, headerDeclarations, List.flatMap_map]
    rfl
  · rename_i hkind
    simp only [hkind, flatMap_bindNode]
  · rename_i hkind
    simp only [hkind, flatMap_bindCaught]
  · rename_i hkind
    simp only [hkind]
    cases t.field? .resources with
    | none => rfl
    | some resources =>
      simp only [Option.toList_some, List.flatMap_singleton, List.flatMap_assoc, flatMap_bindNode,
        List.filterMap_eq_flatMap_toList]
  · simp

theorem ownVariables_of_container (h : isContainer t.kind = true) : p.ownVariables t = [] := by
  unfold isContainer at h
  split at h
  all_goals simp_all [Place.ownVariables]

theorem ownVariables_of_declaration (h : (DeclKind.ofNode? t.kind).isSome = true) :
    p.ownVariables t = [] := by
  unfold DeclKind.ofNode? at h
  split at h
  all_goals simp_all [Place.ownVariables]

theorem ownVariables_of_simple (h : parts? t = none) (hlocal : t.kind ≠ .localVariableDeclaration) :
    p.ownVariables t = [] := by
  unfold Place.ownVariables
  split
  · exact absurd ‹_› hlocal
  · simp [parts?, *] at h
  · simp [parts?, *] at h
  · simp [parts?, *] at h
  · simp [parts?, *] at h
  · rfl

theorem flatMap_switchGroup {mark : String}
    (hnested : nested t = t.constructs.filter fun c => !(c.kind == .switchLabel)) :
    (p.switchGroup mark t).flatMap p.variablesOf = (nested t).flatMap p.declared := by
  have hlabels : ∀ labels : List Tree, (labels.map fun c => Step.emit (p.line c)
      (Text.squash (p.entry.textOf c) ++ mark) [] .branch).flatMap p.variablesOf = [] := by
    intro labels
    rw [List.flatMap_map]
    exact List.flatMap_eq_nil_iff.mpr fun _ _ => rfl
  unfold Place.switchGroup
  dsimp only
  rw [← hnested, List.flatMap_append, hlabels, List.nil_append, flatMap_visits]

/-- The steps of a plan enter the variables that the statement and those nested in it declare. -/
theorem flatMap_plan (p : Place) (t : Tree) :
    (p.plan t).flatMap p.variablesOf = p.declared t := by
  rw [p.declared_eq]
  unfold Place.plan
  split
  · rename_i hcontainer
    have hnested : nested t = t.constructs := if_pos hcontainer
    rw [ownVariables_of_container hcontainer, flatMap_visits, hnested, List.nil_append]
  · rename_i hcontainer
    split
    · rename_i hdecl
      rw [ownVariables_of_declaration hdecl, nested_of_declaration hdecl]
      rfl
    · split
      · rename_i hkind
        have hnested : nested t = t.constructs.filter fun c => c.kind != .identifier := by
          simp [nested, hkind, isContainer]
        rw [← hnested, flatMap_visits]
        simp [Place.ownVariables, hkind]
      · rename_i hkind
        simp [nested, isContainer, parts?, Place.ownVariables, hkind, Place.variablesOf,
          Place.emitNode]
      · rename_i hkind
        simp [nested, isContainer, parts?, Place.ownVariables, hkind, Place.variablesOf,
          Place.emitNode]
      · rename_i hkind
        have hnested : nested t = (t.field? .body).toList := by simp [nested, hkind, isContainer]
        simp [Place.doSteps, Place.ownVariables, hkind, hnested, Place.variablesOf, flatMap_visits]
      · rename_i hkind
        rw [flatMap_switchGroup (by simp [nested, hkind, isContainer])]
        simp [Place.ownVariables, hkind]
      · rename_i hkind
        rw [flatMap_switchGroup (by simp [nested, hkind, isContainer])]
        simp [Place.ownVariables, hkind]
      · rename_i hlabeled hlocal hreturn hdo hgroup hrule
        have hnested := nested_of_ordinary hcontainer ⟨hlabeled, hdo, hgroup, hrule⟩
        rw [hnested]
        cases hparts : parts? t with
        | none =>
          rw [ownVariables_of_simple hparts hlocal]
          rfl
        | some parts =>
          dsimp only [Option.map_some, Option.getD_some]
          rw [List.flatMap_cons, List.flatMap_append, flatMap_headerVariables hlocal,
            flatMap_visits]
          rfl

/-! ## Entries -/

namespace Place

/-- The type of a variable that is entered after those in the table `l`: the written one, or that of
    the value, typed with what is known of calls so far. -/
def Gives (p : Place) (known : Resolved) (l : Locals) (x : Variable) (type : Option String) :
    Prop :=
  match x.value with
  | none => type = x.written
  | some value => ∃ sofar found, sofar <:+ known ∧
      (p.typeOf l sofar value).run.value = .ok found ∧ type = (present? found).or x.written

/-- The entries for variables that are entered in turn, after those in the table `l`. The entry of
    the last variable comes first. -/
inductive Enters (p : Place) (known : Resolved) (l : Locals) : List Variable → Locals → Prop
  | nil : Enters p known l [] []
  | snoc {xs : List Variable} {entered : Locals} {x : Variable} {type : Option String}
      (h : Enters p known l xs entered) (htype : p.Gives known (entered ++ l) x type) :
      Enters p known l (xs ++ [x]) ((x.name, type) :: entered)

/-- From one body to the other the variables were entered in turn, and nothing else. -/
structure Extends (p : Place) (b b' : Body) (xs : List Variable) : Prop where
  known : b.known <:+ b'.known
  locals : ∃ entered, b'.locals = entered ++ b.locals ∧ p.Enters b'.known b.locals xs entered

variable {known known' : Resolved} {l entered : Locals} {xs ys : List Variable} {x : Variable}

theorem Gives.mono {type : Option String} (h : p.Gives known l x type) (hknown : known <:+ known') :
    p.Gives known' l x type := by
  unfold Gives at h ⊢
  cases hvalue : x.value with
  | none =>
    rw [hvalue] at h
    exact h
  | some value =>
    rw [hvalue] at h
    obtain ⟨sofar, found, hsofar, hfound, htype⟩ := h
    exact ⟨sofar, found, hsofar.trans hknown, hfound, htype⟩

theorem Enters.mono (h : p.Enters known l xs entered) (hknown : known <:+ known') :
    p.Enters known' l xs entered := by
  induction h with
  | nil => exact .nil
  | snoc _ htype ih => exact ih.snoc (htype.mono hknown)

theorem Enters.append {entered' : Locals} (h : p.Enters known l xs entered)
    (h' : p.Enters known (entered ++ l) ys entered') :
    p.Enters known l (xs ++ ys) (entered' ++ entered) := by
  induction h' with
  | nil =>
    rw [List.append_nil]
    exact h
  | snoc _ htype ih =>
    rw [← List.append_assoc] at htype ⊢
    exact ih.snoc htype

theorem Extends.of_locals_eq (hknown : b.known <:+ b'.known) (hlocals : b'.locals = b.locals) :
    p.Extends b b' [] :=
  ⟨hknown, [], hlocals, .nil⟩

theorem Extends.single {type : Option String} (hknown : b'.known = b.known)
    (hlocals : b'.locals = (x.name, type) :: b.locals) (htype : p.Gives b.known b.locals x type) :
    p.Extends b b' [x] := by
  refine ⟨hknown ▸ List.suffix_rfl, [(x.name, type)], hlocals, ?_⟩
  rw [hknown]
  exact Enters.nil.snoc htype

theorem Extends.trans {b₁ : Body} (h : p.Extends b b₁ xs) (h' : p.Extends b₁ b' ys) :
    p.Extends b b' (xs ++ ys) := by
  obtain ⟨hknown, entered, hlocals, henters⟩ := h
  obtain ⟨hknown', entered', hlocals', henters'⟩ := h'
  rw [hlocals] at henters'
  refine ⟨hknown.trans hknown', entered' ++ entered, ?_, (henters.mono hknown').append henters'⟩
  rw [hlocals', hlocals, List.append_assoc]

end Place

/-- A declarator enters its variable. -/
theorem declareVariable_extends (written : Option String) (b : Body) (v : Tree) :
    Ensures (p.declareVariable written b v) fun b' =>
      p.Extends b b' (p.declarator? written v).toList := by
  unfold Place.declareVariable Place.declarator?
  cases v.field? .name with
  | none => exact Ensures.pure (.of_locals_eq List.suffix_rfl rfl)
  | some name =>
    rw [Option.map_some]
    dsimp only
    cases v.field? .value with
    | none => exact Ensures.pure (.single rfl rfl rfl)
    | some value =>
      rw [Option.filter_some]
      dsimp only
      split
      · have hvalue : Ensures (p.typeOf b.locals b.known value) fun found =>
            (p.typeOf b.locals b.known value).run.value = .ok found := fun _ hfound => hfound
        exact hvalue.bind fun found hfound =>
          Ensures.pure (.single rfl rfl ⟨b.known, found, List.suffix_rfl, hfound, rfl⟩)
      · exact Ensures.pure (.single rfl rfl rfl)

/-- A declaration enters the variables of its declarators. -/
theorem declare_extends (b : Body) (d : Tree) :
    Ensures (p.declare b d) fun b' => p.Extends b b' (p.declarators d) := by
  unfold Place.declare Place.declarators
  generalize p.resolveNode (d.field? .type) = written
  induction d.fields .declarator generalizing b with
  | nil => exact Ensures.pure (.of_locals_eq List.suffix_rfl rfl)
  | cons v vs ih =>
    rw [List.foldlM_cons]
    refine (declareVariable_extends written b v).bind fun b₁ hb₁ => (ih b₁).imp fun b' hb' => ?_
    rw [List.filterMap_eq_flatMap_toList, List.flatMap_cons, ← List.filterMap_eq_flatMap_toList]
    exact hb₁.trans hb'

/-- Resolving calls adds to what is known of calls. -/
theorem callSites_known (locals : Locals) (position : Nat) (nodes : List Tree)
    (done : List CallSite) (known : Resolved) :
    Ensures (p.callSites locals position nodes done known) fun r => known <:+ r.2 := by
  induction nodes generalizing done known with
  | nil => exact Ensures.pure List.suffix_rfl
  | cons t nodes ih =>
    refine (Ensures.trivial _).bind fun r _ => (ih _ _).imp fun r' hr' => ?_
    exact (List.suffix_cons _ known).trans hr'

/-- An instruction enters no variable. -/
theorem emit_extends (b : Body) (line : Nat) (text : String) (scan : List Tree)
    (kind : InstructionKind) :
    Ensures (p.emit b line text scan kind) fun b' => p.Extends b b' [] :=
  (callSites_known b.locals b.code.length _ [] b.known).bind fun _ hknown =>
    Ensures.pure (.of_locals_eq hknown rfl)

/-- Each move enters the variables of the step that it works off. -/
theorem Place.Move.extends {c c' : List Step × Body} (h : p.Move c c') :
    ∃ xs, p.Extends c.2 c'.2 xs ∧
      c.1.flatMap p.variablesOf = xs ++ c'.1.flatMap p.variablesOf := by
  cases h with
  | visit t rest b =>
    refine ⟨[], .of_locals_eq List.suffix_rfl rfl, ?_⟩
    rw [List.flatMap_cons, List.flatMap_append, flatMap_plan]
    rfl
  | emit hemit rest => exact ⟨[], emit_extends _ _ _ _ _ _ hemit, rfl⟩
  | declare hdeclare rest => exact ⟨_, declare_extends _ _ _ hdeclare, rfl⟩
  | bind name type rest b => exact ⟨[⟨name, type, none⟩], .single rfl rfl rfl, rfl⟩

/-- What has been worked off has entered its variables. -/
theorem Place.Moves.extends {c c' : List Step × Body} (h : p.Moves c c') :
    ∃ xs, p.Extends c.2 c'.2 xs ∧
      c.1.flatMap p.variablesOf = xs ++ c'.1.flatMap p.variablesOf := by
  induction h with
  | refl => exact ⟨[], .of_locals_eq List.suffix_rfl rfl, rfl⟩
  | tail _ hmove ih =>
    obtain ⟨xs, hxs, hbefore⟩ := ih
    obtain ⟨ys, hys, hafter⟩ := hmove.extends
    refine ⟨xs ++ ys, hxs.trans hys, ?_⟩
    rw [hbefore, hafter, List.append_assoc]

/-! ## Types of names -/

/-- What a name means after the variables were entered: its type is that of the last of them that
    has the name; without one it is what it was. -/
inductive Place.TypeAfter (p : Place) (known : Resolved) (l : Locals) (n : String) :
    List Variable → Option String → Prop
  | old {xs : List Variable} (hxs : ∀ x ∈ xs, x.name ≠ n) :
      TypeAfter p known l n xs (p.variableType l n).value
  | last {before after : List Variable} {x : Variable} {entered : Locals} {type : Option String}
      (hname : x.name = n) (hafter : ∀ y ∈ after, y.name ≠ n)
      (hbefore : p.Enters known l before entered) (htype : p.Gives known (entered ++ l) x type) :
      TypeAfter p known l n (before ++ x :: after) type

theorem Place.TypeAfter.append {known : Resolved} {l : Locals} {n : String} {xs ys : List Variable}
    {type : Option String} (h : p.TypeAfter known l n xs type) (hys : ∀ y ∈ ys, y.name ≠ n) :
    p.TypeAfter known l n (xs ++ ys) type := by
  cases h with
  | old hxs => exact .old (List.forall_mem_append.mpr ⟨hxs, hys⟩)
  | last hname hafter hbefore htype =>
    rw [List.append_assoc, List.cons_append]
    exact .last hname (List.forall_mem_append.mpr ⟨hafter, hys⟩) hbefore htype

end ServiceReach.Index

import Mathlib.Logic.Relation
import ServiceReach.Proofs.Index.CallSites

/-
  The course of lowering. A configuration is what is left to do, and the body so far; `Move` says
  what working one step off does to it. Lowering a grammatical body that does not give up moves from
  its statements to an empty list (`Scans.run_moves`). The moves for a list of steps are those for
  its parts, one after the other (`moves_append`), instructions stay where they are, and lowering
  comes to every nested statement (`StatementIn.met`).
-/

namespace ServiceReach.Index

open Source Tree Trail Relation

/-! ## Moves -/

/-- One step is worked off. -/
inductive Place.Move (p : Place) : List Step × Body → List Step × Body → Prop
  | visit (t : Tree) (rest : List Step) (b : Body) :
      Move p (.visit t :: rest, b) (p.plan t ++ rest, b)
  | emit {line : Nat} {text : String} {scan : List Tree} {kind : InstructionKind} {b b' : Body}
      (h : (p.emit b line text scan kind).run.value = .ok b') (rest : List Step) :
      Move p (.emit line text scan kind :: rest, b) (rest, b')
  | declare {t : Tree} {b b' : Body} (h : (p.declare b t).run.value = .ok b')
      (rest : List Step) : Move p (.declare t :: rest, b) (rest, b')
  | bind (name : String) (type : Option String) (rest : List Step) (b : Body) :
      Move p (.bind name type :: rest, b) (rest, { b with locals := (name, type) :: b.locals })

/-- Steps are worked off, one after the other. -/
def Place.Moves (p : Place) : List Step × Body → List Step × Body → Prop :=
  ReflTransGen p.Move

variable {p : Place} {t u : Tree} {b b' : Body} {steps steps' : List Step}

/-- Lowering that does not give up goes from the steps to an empty list. -/
theorem Scans.run_moves {scans : List (List Tree)} (h : Scans p steps scans) (hs : Sane steps)
    {fuel : Nat} (hfuel : cost steps ≤ fuel) (b : Body) :
    Ensures (p.run fuel steps b) fun b' => p.Moves (steps, b) ([], b') := by
  induction h generalizing fuel b with
  | nil =>
    cases fuel with
    | zero => exact Ensures.pure .refl
    | succ fuel => exact Ensures.pure .refl
  | visit _ ih =>
    obtain ⟨n, rfl, hn⟩ := fuel_visit hfuel p
    exact (ih (hs.plan p) hn b).imp fun b' hmoves => .head (.visit _ _ _) hmoves
  | @emit line text scan kind rest _ _ ih =>
    obtain ⟨n, rfl, hn⟩ := fuel_of_cost_le rfl hfuel
    have hemit : Ensures (p.emit b line text scan kind) fun b' =>
        (p.emit b line text scan kind).run.value = .ok b' := fun _ hb' => hb'
    exact hemit.bind fun b₁ hb₁ => (ih hs.tail hn b₁).imp fun b' hmoves =>
      .head (.emit hb₁ rest) hmoves
  | @declare t rest _ _ ih =>
    obtain ⟨n, rfl, hn⟩ := fuel_of_cost_le rfl hfuel
    have hdeclare : Ensures (p.declare b t) fun b' => (p.declare b t).run.value = .ok b' :=
      fun _ hb' => hb'
    exact hdeclare.bind fun b₁ hb₁ => (ih hs.tail hn b₁).imp fun b' hmoves =>
      .head (.declare hb₁ rest) hmoves
  | bind _ ih =>
    obtain ⟨n, rfl, hn⟩ := fuel_of_cost_le rfl hfuel
    exact (ih hs.tail hn _).imp fun b' hmoves => .head (.bind _ _ _ _) hmoves

/-- Working steps off is working their parts off, one after the other. -/
theorem moves_append (h : p.Moves (steps ++ steps', b) ([], b')) :
    ∃ b₁, p.Moves (steps, b) ([], b₁) ∧ p.Moves (steps', b₁) ([], b') := by
  generalize hc : (steps ++ steps', b) = c at h
  induction h using ReflTransGen.head_induction_on generalizing steps b with
  | refl =>
    obtain ⟨hsteps, rfl⟩ := Prod.mk.inj hc
    obtain ⟨rfl, rfl⟩ := List.append_eq_nil_iff.mp hsteps
    exact ⟨b, .refl, .refl⟩
  | head hmove hrest ih =>
    cases steps with
    | nil =>
      cases hc
      exact ⟨b, .refl, .head hmove hrest⟩
    | cons s steps =>
      cases hc
      cases hmove with
      | visit t =>
        have hassoc : ((p.plan t ++ steps) ++ steps', b) = (p.plan t ++ (steps ++ steps'), b) := by
          rw [List.append_assoc]
        obtain ⟨b₁, hfirst, hsecond⟩ := ih hassoc
        exact ⟨b₁, .head (.visit t steps b) hfirst, hsecond⟩
      | emit hemit =>
        obtain ⟨b₁, hfirst, hsecond⟩ := ih rfl
        exact ⟨b₁, .head (.emit hemit steps) hfirst, hsecond⟩
      | declare hdeclare =>
        obtain ⟨b₁, hfirst, hsecond⟩ := ih rfl
        exact ⟨b₁, .head (.declare hdeclare steps) hfirst, hsecond⟩
      | bind name type =>
        obtain ⟨b₁, hfirst, hsecond⟩ := ih rfl
        exact ⟨b₁, .head (.bind name type steps b) hfirst, hsecond⟩

theorem moves_nil (h : p.Moves ([], b) ([], b')) : b' = b := by
  rcases ReflTransGen.cases_head h with heq | ⟨c, hmove, _⟩
  · cases heq
    rfl
  · cases hmove

/-- A statement at the front is replaced by its steps. -/
theorem moves_visit (h : p.Moves (.visit t :: steps, b) ([], b')) :
    p.Moves (p.plan t ++ steps, b) ([], b') := by
  rcases ReflTransGen.cases_head h with heq | ⟨c, hmove, hrest⟩
  · cases heq
  · cases hmove
    exact hrest

/-- Instructions stay where they are. -/
theorem Place.Moves.code_prefix {c c' : List Step × Body} (h : p.Moves c c') :
    c.2.code <+: c'.2.code := by
  induction h with
  | refl => exact List.prefix_rfl
  | tail _ hmove ih =>
    refine ih.trans ?_
    cases hmove with
    | visit => exact List.prefix_rfl
    | emit hemit =>
      obtain ⟨_, calls, hcode, _⟩ := p.emit_adds _ _ _ _ _ _ hemit
      exact ⟨_, hcode.symm⟩
    | declare hdeclare =>
      exact ⟨[], (List.append_nil _).trans (p.declare_code _ _ _ hdeclare).symm⟩
    | bind => exact List.prefix_rfl

/-! ## Nested statements -/

/-- The statements nested in a statement, in order. -/
def nested (t : Tree) : List Tree :=
  if isContainer t.kind then t.constructs
  else
    match t.kind with
    | .labeledStatement => t.constructs.filter fun c => c.kind != .identifier
    | .doStatement => (t.field? .body).toList
    | .switchBlockStatementGroup | .switchRule =>
      t.constructs.filter fun c => !(c.kind == .switchLabel)
    | _ => ((parts? t).map Parts.bodies).getD []

theorem nested_subset (t : Tree) : nested t ⊆ t.children := by
  unfold nested
  split
  · exact List.filter_sublist.subset
  · split
    · exact constructs_filter_subset t _
    · exact toList_field_subset t _
    · exact constructs_filter_subset t _
    · exact constructs_filter_subset t _
    · cases hparts : parts? t with
      | none => exact List.nil_subset _
      | some parts => exact (parts_subset hparts).2

/-- A statement of a body, or one nested in such a statement. -/
inductive StatementIn (body : List Tree) : Tree → Prop
  | root {t : Tree} (h : t ∈ body) : StatementIn body t
  | inner {t c : Tree} (h : StatementIn body t) (hc : c ∈ nested t) : StatementIn body c

/-- Whether a statement leaves an instruction of its own, besides those of nested statements. -/
def leavesOwn (t : Tree) : Bool :=
  if isContainer t.kind || (DeclKind.ofNode? t.kind).isSome then false
  else
    match t.kind with
    | .labeledStatement => false
    | .switchBlockStatementGroup | .switchRule => t.constructs.any fun c => c.kind == .switchLabel
    | _ => true

/-- Whether an instruction leaves the method. -/
def isExit (kind : InstructionKind) (text : String) : Bool :=
  kind == .return || Text.startsWith "throw " text

/-- The text of the last label of a group of a switch. -/
def Place.labelText (p : Place) (mark : String) (t : Tree) : String :=
  Text.squash (p.entry.textOf? (t.constructs.filter fun c => c.kind == .switchLabel).getLast?) ++ mark

/-- The text of the last instruction that a statement leaves of its own. -/
def Place.ownText (p : Place) (t : Tree) : String :=
  match t.kind with
  | .doStatement => "while " ++ Text.squash (p.entry.textOf? (t.field? .condition))
  | .switchBlockStatementGroup => p.labelText ":" t
  | .switchRule => p.labelText " ->" t
  | _ =>
    match parts? t with
    | some parts => headerText p.entry.text t parts.bodies
    | none => Text.squash (p.entry.textOf t)

/-- Whether the last instruction that a statement leaves of its own is that of a return or starts
    like a throw. -/
def Place.exits (p : Place) (t : Tree) : Bool :=
  t.kind == .returnStatement || Text.startsWith "throw " (p.ownText t)

theorem isExit_branch (text : String) : isExit .branch text = Text.startsWith "throw " text := rfl

theorem Place.exits_of_ne (p : Place) {t : Tree} (h : t.kind ≠ .returnStatement) :
    p.exits t = isExit .branch (p.ownText t) := by
  rw [exits, isExit_branch, beq_eq_false_iff_ne.mpr h, Bool.false_or]

/-- Steps that only enter variables. -/
def Step.Mute : Step → Prop
  | .declare _ | .bind _ _ => True
  | .visit _ | .emit _ _ _ _ => False

/-- The last instruction of some steps is followed only by variables; `e` says whether it leaves
    the method. -/
def LastEmit (steps : List Step) (e : Bool) : Prop :=
  ∃ before line text scan kind after, steps = before ++ .emit line text scan kind :: after ∧
    (∀ s ∈ after, s.Mute) ∧ isExit kind text = e

/-- How the own steps of a statement stand around the visits of the statements nested in it. -/
inductive Place.Frames (p : Place) (t : Tree) : List Step → Prop
  | bare (hown : leavesOwn t = false) : Frames p t ((nested t).map .visit)
  | before {front back : List Step} (hown : leavesOwn t = true) (hdo : t.kind ≠ .doStatement)
      (hfront : LastEmit front (p.exits t)) (hback : ∀ s ∈ back, s.Mute) :
      Frames p t (front ++ (nested t).map .visit ++ back)
  | around {front back : List Step} (hdo : t.kind = .doStatement)
      (hback : LastEmit back (p.exits t)) : Frames p t (front ++ (nested t).map .visit ++ back)

/-- The kind is neither that of a label, of a `do` statement nor of a group of a switch. -/
def IsOrdinary (kind : Kind) : Prop :=
  kind ≠ .labeledStatement ∧ kind ≠ .doStatement ∧ kind ≠ .switchBlockStatementGroup ∧
    kind ≠ .switchRule

theorem nested_of_ordinary (hcontainer : ¬ isContainer t.kind = true) (h : IsOrdinary t.kind) :
    nested t = ((parts? t).map Parts.bodies).getD [] := by
  obtain ⟨hlabeled, hdo, hgroup, hrule⟩ := h
  rw [nested, if_neg hcontainer]
  split
  · exact absurd ‹_› hlabeled
  · exact absurd ‹_› hdo
  · exact absurd ‹_› hgroup
  · exact absurd ‹_› hrule
  · rfl

theorem leavesOwn_of_ordinary (hcontainer : ¬ isContainer t.kind = true)
    (hdecl : ¬ (DeclKind.ofNode? t.kind).isSome = true) (h : IsOrdinary t.kind) :
    leavesOwn t = true := by
  obtain ⟨hlabeled, hdo, hgroup, hrule⟩ := h
  rw [leavesOwn, if_neg (by simp [hcontainer, hdecl])]
  split
  · exact absurd ‹_› hlabeled
  · exact absurd ‹_› hgroup
  · exact absurd ‹_› hrule
  · rfl

theorem ownText_of_ordinary (p : Place) (h : IsOrdinary t.kind) :
    p.ownText t = match parts? t with
      | some parts => headerText p.entry.text t parts.bodies
      | none => Text.squash (p.entry.textOf t) := by
  obtain ⟨_, hdo, hgroup, hrule⟩ := h
  unfold Place.ownText
  split
  · exact absurd ‹_› hdo
  · exact absurd ‹_› hgroup
  · exact absurd ‹_› hrule
  · rfl

theorem nested_of_declaration (h : (DeclKind.ofNode? t.kind).isSome = true) : nested t = [] := by
  unfold DeclKind.ofNode? at h
  split at h
  all_goals simp_all [nested, isContainer, parts?]

theorem lastEmit_singleton (line : Nat) (text : String) (scan : List Tree)
    (kind : InstructionKind) : LastEmit [.emit line text scan kind] (isExit kind text) :=
  ⟨[], line, text, scan, kind, [], rfl, fun _ hs => absurd hs List.not_mem_nil, rfl⟩

/-- A statement without nested ones is one instruction. -/
theorem frames_emitNode (hcontainer : ¬ isContainer t.kind = true)
    (hdecl : ¬ (DeclKind.ofNode? t.kind).isSome = true) (h : IsOrdinary t.kind)
    (hparts : parts? t = none) {kind : InstructionKind}
    (hkind : (kind == .return) = (t.kind == .returnStatement)) {back : List Step}
    (hback : ∀ s ∈ back, s.Mute) : p.Frames t (p.emitNode t kind :: back) := by
  have hnested : nested t = [] := by
    rw [nested_of_ordinary hcontainer h, hparts]
    rfl
  have hexit : isExit kind (Text.squash (p.entry.textOf t)) = p.exits t := by
    rw [isExit, Place.exits, ownText_of_ordinary p h, hparts, hkind]
  have hlast : LastEmit [p.emitNode t kind] (p.exits t) := by
    rw [← hexit]
    exact lastEmit_singleton _ _ _ _
  have hframes := Place.Frames.before (leavesOwn_of_ordinary hcontainer hdecl h) h.2.1 hlast hback
  rw [hnested] at hframes
  exact hframes

/-- The labels of a group of a switch come before its statements. -/
theorem frames_switchGroup {mark : String}
    (hnested : nested t = t.constructs.filter fun c => !(c.kind == .switchLabel))
    (hown : leavesOwn t = t.constructs.any fun c => c.kind == .switchLabel)
    (hdo : t.kind ≠ .doStatement) (hexit : p.exits t = isExit .branch (p.labelText mark t)) :
    p.Frames t (p.switchGroup mark t) := by
  unfold Place.switchGroup
  dsimp only
  rw [← hnested]
  cases hlast : (t.constructs.filter fun c => c.kind == .switchLabel).getLast? with
  | none =>
    have hempty := List.getLast?_eq_none_iff.mp hlast
    have hbare : leavesOwn t = false := by
      rw [hown, List.any_eq_false]
      exact List.filter_eq_nil_iff.mp hempty
    rw [hempty]
    exact .bare hbare
  | some label =>
    obtain ⟨before, hlabels⟩ := List.getLast?_eq_some_iff.mp hlast
    have hmem : label ∈ t.constructs.filter fun c => c.kind == .switchLabel := by
      rw [hlabels]
      exact List.mem_append_right _ List.mem_cons_self
    obtain ⟨hlabel, hkind⟩ := List.mem_filter.mp hmem
    have htext : p.labelText mark t = Text.squash (p.entry.textOf label) ++ mark := by
      rw [Place.labelText, hlast]
      rfl
    have hfront : LastEmit ((t.constructs.filter fun c => c.kind == .switchLabel).map fun c =>
        .emit (p.line c) (Text.squash (p.entry.textOf c) ++ mark) [] .branch) (p.exits t) := by
      rw [hlabels, hexit, htext, List.map_append]
      exact ⟨_, _, _, _, _, [], rfl, fun _ hs => absurd hs List.not_mem_nil, rfl⟩
    have hframes := Place.Frames.before (hown ▸ List.any_eq_true.mpr ⟨label, hlabel, hkind⟩) hdo
      hfront fun _ hs => absurd hs List.not_mem_nil
    rw [List.append_nil] at hframes
    exact hframes

/-- The condition of a `do` statement comes after its body. -/
theorem frames_doSteps (h : t.kind = .doStatement) : p.Frames t (p.doSteps t) := by
  have hnested : nested t = (t.field? .body).toList := by simp [nested, h, isContainer]
  have hexit : p.exits t = isExit .branch ("while " ++
      Text.squash (p.entry.textOf? (t.field? .condition))) := by
    rw [p.exits_of_ne (by simp [h])]
    simp only [Place.ownText, h]
  unfold Place.doSteps
  dsimp only
  rw [← hnested]
  refine .around h ?_
  rw [hexit]
  exact lastEmit_singleton _ _ _ _

/-- The header of a compound statement and its variables come before the bodies. -/
theorem frames_compound (hcontainer : ¬ isContainer t.kind = true)
    (hdecl : ¬ (DeclKind.ofNode? t.kind).isSome = true) (h : IsOrdinary t.kind)
    (hreturn : t.kind ≠ .returnStatement) {parts : Parts} (hparts : parts? t = some parts) :
    p.Frames t (.emit (p.line t) (headerText p.entry.text t parts.bodies) parts.scan .branch ::
      p.headerVariables t ++ parts.bodies.map .visit) := by
  have hnested : nested t = parts.bodies := by
    rw [nested_of_ordinary hcontainer h, hparts]
    rfl
  have hexit : isExit .branch (headerText p.entry.text t parts.bodies) = p.exits t := by
    rw [p.exits_of_ne hreturn, ownText_of_ordinary p h, hparts]
  have hmute : ∀ s ∈ p.headerVariables t, s.Mute := by
    intro s hs
    rcases mem_headerVariables p hs with ⟨name, type, rfl⟩ | ⟨c, _, rfl⟩
    · exact True.intro
    · exact True.intro
  have hframes := Place.Frames.before (leavesOwn_of_ordinary hcontainer hdecl h) h.2.1
    ⟨[], p.line t, _, parts.scan, .branch, p.headerVariables t, rfl, hmute, hexit⟩
    fun _ hs => absurd hs List.not_mem_nil
  rw [List.append_nil, hnested] at hframes
  exact hframes

theorem plan_frames (p : Place) (t : Tree) : p.Frames t (p.plan t) := by
  unfold Place.plan
  split
  · rename_i hcontainer
    have hnested : nested t = t.constructs := if_pos hcontainer
    rw [← hnested]
    exact .bare (by simp [leavesOwn, hcontainer])
  · rename_i hcontainer
    split
    · rename_i hdecl
      have hbare : p.Frames t ((nested t).map .visit) := .bare (by simp [leavesOwn, hdecl])
      rw [nested_of_declaration hdecl] at hbare
      exact hbare
    · rename_i hdecl
      split
      · rename_i hkind
        have hnested : nested t = t.constructs.filter fun c => c.kind != .identifier := by
          simp [nested, hkind, isContainer]
        rw [← hnested]
        exact .bare (by simp [leavesOwn, hkind])
      · rename_i hkind
        refine frames_emitNode hcontainer hdecl ?_ ?_ ?_ ?_
        · simp [IsOrdinary, hkind]
        · simp [parts?, hkind]
        · rw [hkind]
          rfl
        · exact List.forall_mem_singleton.mpr True.intro
      · rename_i hkind
        refine frames_emitNode hcontainer hdecl ?_ ?_ ?_ fun _ hs => absurd hs List.not_mem_nil
        · simp [IsOrdinary, hkind]
        · simp [parts?, hkind]
        · rw [hkind]
          rfl
      · rename_i hkind
        exact frames_doSteps hkind
      · rename_i hkind
        refine frames_switchGroup ?_ ?_ ?_ ?_
        · simp [nested, hkind, isContainer]
        · simp [leavesOwn, hkind, isContainer, DeclKind.ofNode?]
        · simp [hkind]
        · rw [p.exits_of_ne (by simp [hkind])]
          simp only [Place.ownText, hkind]
      · rename_i hkind
        refine frames_switchGroup ?_ ?_ ?_ ?_
        · simp [nested, hkind, isContainer]
        · simp [leavesOwn, hkind, isContainer, DeclKind.ofNode?]
        · simp [hkind]
        · rw [p.exits_of_ne (by simp [hkind])]
          simp only [Place.ownText, hkind]
      · rename_i hlabeled hlocal hreturn hdo hgroup hrule
        have hordinary : IsOrdinary t.kind := ⟨hlabeled, hdo, hgroup, hrule⟩
        cases hparts : parts? t with
        | none =>
          refine frames_emitNode hcontainer hdecl hordinary hparts ?_ fun _ hs =>
            absurd hs List.not_mem_nil
          rw [beq_eq_false_iff_ne.mpr hreturn]
          rfl
        | some parts => exact frames_compound hcontainer hdecl hordinary hreturn hparts

theorem visit_mem_plan (p : Place) (h : u ∈ nested t) : .visit u ∈ p.plan t := by
  have hmem : Step.visit u ∈ (nested t).map .visit := List.mem_map_of_mem h
  have hframes := plan_frames p t
  generalize p.plan t = steps at hframes ⊢
  cases hframes with
  | bare => exact hmem
  | before => exact List.mem_append_left _ (List.mem_append_right _ hmem)
  | around => exact List.mem_append_left _ (List.mem_append_right _ hmem)

/-- If lowering gets through, it comes to each statement that is to be visited. -/
theorem moves_met {c : List Step × Body} (h : p.Moves c ([], b')) (ht : .visit t ∈ c.1) :
    ∃ rest b, p.Moves c (.visit t :: rest, b) ∧ p.Moves (.visit t :: rest, b) ([], b') := by
  induction h using ReflTransGen.head_induction_on with
  | refl => cases ht
  | @head c c₁ hmove hrest ih =>
    by_cases hhead : c.1.head? = some (.visit t)
    · obtain ⟨rest, hc⟩ := List.head?_eq_some_iff.mp hhead
      obtain ⟨steps, b⟩ := c
      cases hc
      exact ⟨rest, b, .refl, .head hmove hrest⟩
    · have hlater : .visit t ∈ c₁.1 := by
        cases hmove with
        | visit u rest b =>
          rcases List.mem_cons.mp ht with heq | ht
          · exact absurd (congrArg some heq.symm) hhead
          · exact List.mem_append_right _ ht
        | emit _ rest =>
          rcases List.mem_cons.mp ht with heq | ht
          · cases heq
          · exact ht
        | declare _ rest =>
          rcases List.mem_cons.mp ht with heq | ht
          · cases heq
          · exact ht
        | bind name type rest b =>
          rcases List.mem_cons.mp ht with heq | ht
          · cases heq
          · exact ht
      obtain ⟨rest, b, hbefore, hafter⟩ := ih hlater
      exact ⟨rest, b, .head hmove hbefore, hafter⟩

/-- If lowering a body gets through, it comes to each of its statements. -/
theorem StatementIn.met {body : List Tree} (ht : StatementIn body t)
    (h : p.Moves (body.map .visit, b) ([], b')) :
    ∃ rest b₁, p.Moves (body.map .visit, b) (.visit t :: rest, b₁) ∧
      p.Moves (.visit t :: rest, b₁) ([], b') := by
  induction ht with
  | root ht => exact moves_met h (List.mem_map_of_mem ht)
  | @inner t c _ hc ih =>
    obtain ⟨rest, b₁, hbefore, hafter⟩ := ih
    have hplan := moves_visit hafter
    have hvisit : .visit c ∈ p.plan t ++ rest := List.mem_append_left _ (visit_mem_plan p hc)
    obtain ⟨rest', b₂, hto, hfrom⟩ := moves_met hplan hvisit
    exact ⟨rest', b₂, hbefore.trans (.head (.visit t rest b₁) hto), hfrom⟩

/-! ## Bodies -/

/-- The body before anything is lowered. -/
def Body.ofParams (params : List (String × String)) : Body :=
  { locals := (params.map fun (name, type) => (name, some type)).reverse }

/-- Lowering a grammatical body works its statements off and closes what they leave. -/
theorem lower_moves (p : Place) (m : Method) (params : List (String × String)) {body : List Tree}
    (h : Grammatical body) :
    Ensures (p.lower m params body) fun code =>
      ∃ b, p.Moves (body.map .visit, Body.ofParams params) ([], b) ∧ code = closeCode m b.code := by
  have hsane := sane_visits h
  obtain ⟨scans, hscans⟩ := exists_scans p hsane
  exact (hscans.run_moves hsane (Nat.le_of_eq (cost_visits body)) _).bind fun b hb =>
    Ensures.pure ⟨b, hb, rfl⟩

end ServiceReach.Index

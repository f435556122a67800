import ServiceReach.Index.Lowering
import ServiceReach.Proofs.Index.Shape
import ServiceReach.Proofs.Model.Outcome
import ServiceReach.Proofs.Model.Simulation

/-
  When typing gives up. Typing an expression makes calls for parts of it, one inside the other.
  `frames` counts how many may be open at once: one for an expression and one more for a binary
  expression, while the binary expressions along left operands share theirs. Typing does not give
  up an expression for which there is room (`typeOfAt_answers`). So a call, a declaration and a
  whole body are lowered if there is room for each expression in them (`FitsIn`).
-/

namespace ServiceReach.Source.Tree

/-- Whether the type of an expression of the given kind may depend on that of a child. -/
def asks (kind : Kind) (c : Tree) : Bool :=
  match kind with
  | .parenthesizedExpression => true
  | .fieldAccess => c.label.field == some .object
  | .arrayAccess => c.label.field == some .array
  | .ternaryExpression =>
    c.label.field == some .consequence || c.label.field == some .alternative
  | .assignmentExpression => c.label.field == some .left
  | .binaryExpression => c.label.field == some .left || c.label.field == some .right
  | _ => false

/-- Whether a child is the next binary expression along the left operands of its parent. -/
def prolongs (kind : Kind) (c : Tree) : Bool :=
  kind == .binaryExpression && c.kind == .binaryExpression && c.label.field == some .left

/-- The number of calls for an expression of the given kind, those for its parts apart. -/
def ownFrames (kind : Kind) : Nat :=
  if kind == .binaryExpression then 2 else 1

mutual

/-- The number of calls that may be open at once when an expression is typed. -/
def frames : Tree → Nat
  | .node label children => framesBelow label.kind children + ownFrames label.kind

/-- The number of calls that may be open at once for parts of an expression of the given kind. -/
def framesBelow (kind : Kind) : List Tree → Nat
  | [] => 0
  | c :: rest =>
    let own := if prolongs kind c then c.frames - ownFrames kind else c.frames
    max (if asks kind c then own else 0) (framesBelow kind rest)

end

variable {t c u : Tree} {kind : Kind} {room : Nat}

theorem ownFrames_pos (kind : Kind) : 0 < ownFrames kind := by
  unfold ownFrames
  split <;> omega

theorem frames_eq (t : Tree) : t.frames = framesBelow t.kind t.children + ownFrames t.kind := by
  cases t
  rfl

theorem framesBelow_ge {ts : List Tree} (h : c ∈ ts) (hasks : asks kind c = true) :
    (if prolongs kind c then c.frames - ownFrames kind else c.frames) ≤ framesBelow kind ts := by
  induction ts with
  | nil => cases h
  | cons t ts ih =>
    rw [framesBelow]
    rcases List.mem_cons.mp h with rfl | h
    · rw [if_pos hasks]
      exact Nat.le_max_left _ _
    · exact Nat.le_trans (ih h) (Nat.le_max_right _ _)

theorem frames_add_le (h : c ∈ t.children) (hasks : asks t.kind c = true)
    (hc : ¬ prolongs t.kind c = true) : c.frames + ownFrames t.kind ≤ t.frames := by
  have hle := framesBelow_ge h hasks
  rw [if_neg hc] at hle
  rw [t.frames_eq]
  omega

theorem frames_le_of_prolongs (h : c ∈ t.children) (hc : prolongs t.kind c = true) :
    c.frames ≤ t.frames := by
  have hkinds := hc
  simp only [prolongs, Bool.and_eq_true, beq_iff_eq] at hkinds
  have hasks : asks t.kind c = true := by
    rw [hkinds.1.1, asks, hkinds.2]
    rfl
  have hle := framesBelow_ge h hasks
  rw [if_pos hc] at hle
  rw [t.frames_eq]
  omega

/-! ## Trees with room for all their expressions -/

/-- There is room for each expression in the tree. -/
def FitsIn (t : Tree) (room : Nat) : Prop :=
  ∀ u ∈ t.nodes, u.frames ≤ room

instance (t : Tree) (room : Nat) : Decidable (t.FitsIn room) :=
  inferInstanceAs (Decidable (∀ u ∈ t.nodes, u.frames ≤ room))

theorem FitsIn.frames_le (h : t.FitsIn room) : t.frames ≤ room :=
  h t (mem_nodes_self t)

theorem FitsIn.of_mem_nodes (h : t.FitsIn room) (hu : u ∈ t.nodes) : u.FitsIn room :=
  fun v hv => h v ((nodes_sublist hu).subset hv)

theorem FitsIn.of_mem_children (h : t.FitsIn room) (hc : c ∈ t.children) : c.FitsIn room :=
  h.of_mem_nodes (mem_nodes_of_mem_children hc)

theorem FitsIn.of_field? {f : Field} (h : t.FitsIn room) (hu : t.field? f = some u) :
    u.FitsIn room :=
  h.of_mem_children (mem_children_of_field? hu)

end ServiceReach.Source.Tree

namespace ServiceReach.Index

open Source Tree Trail

/-- Typing does not give up. -/
def Answers {α : Type} (x : Typing α) : Prop :=
  Returns x fun _ => True

section Rules

variable {α β : Type}

theorem answers_pure (a : α) : Answers (pure a) :=
  Returns.pure True.intro

theorem answers_lift (t : Trail α) : Answers (liftM t) :=
  Returns.lift True.intro

theorem Answers.bind {x : Typing α} {f : α → Typing β} (hx : Answers x)
    (hf : ∀ a, Answers (f a)) : Answers (x >>= f) :=
  Returns.bind hx fun a _ => hf a

theorem answers_mapM {f : α → Typing β} {l : List α} (h : ∀ a ∈ l, Answers (f a)) :
    Answers (l.mapM f) := by
  induction l with
  | nil =>
    rw [List.mapM_nil]
    exact answers_pure []
  | cons a l ih =>
    rw [List.mapM_cons]
    exact (h a List.mem_cons_self).bind fun b =>
      (ih fun c hc => h c (List.mem_cons_of_mem a hc)).bind fun bs => answers_pure (b :: bs)

theorem answers_foldlM {f : α → β → Typing α} {l : List β} (h : ∀ a, ∀ b ∈ l, Answers (f a b))
    (a : α) : Answers (l.foldlM f a) :=
  Returns.foldlM (fun a b hb _ => h a b hb) True.intro

end Rules

/-! ## Expressions -/

/-- The type of `t` may depend on that of `u`, which takes a call inside those for `t`: a part of
    `t` or, if `t` is a binary expression, what ends its left operands without being one, or a right
    operand along them. -/
inductive OneDown : Tree → Tree → Prop
  | part {t u : Tree} (hkind : t.kind ≠ .binaryExpression) (hu : u ∈ t.children)
      (hasks : asks t.kind u = true) : OneDown t u
  | left {t u : Tree} (hkind : t.kind = .binaryExpression) (hu : t.field? .left = some u)
      (hend : u.kind ≠ .binaryExpression) : OneDown t u
  | right {t u : Tree} (hkind : t.kind = .binaryExpression) (hu : t.field? .right = some u) :
      OneDown t u
  | along {t u v : Tree} (hkind : t.kind = .binaryExpression) (hv : t.field? .left = some v)
      (hbinary : v.kind = .binaryExpression) (h : OneDown v u) : OneDown t u

theorem OneDown.depth_lt {t u : Tree} (h : OneDown t u) : u.depth < t.depth := by
  induction h with
  | part _ hu _ => exact depth_lt_of_mem_children hu
  | left _ hu _ => exact depth_lt_of_mem_children (mem_children_of_field? hu)
  | right _ hu => exact depth_lt_of_mem_children (mem_children_of_field? hu)
  | along _ hv _ _ ih =>
    exact Nat.lt_trans ih (depth_lt_of_mem_children (mem_children_of_field? hv))

theorem field_of_field? {t u : Tree} {f : Field} (h : t.field? f = some u) :
    u.label.field = some f := by
  simpa using List.find?_some h

/-- The calls for what is one down come on top of those for the expression. -/
theorem OneDown.frames_add_le {t u : Tree} (h : OneDown t u) :
    u.frames + ownFrames t.kind ≤ t.frames := by
  induction h with
  | part hkind hu hasks =>
    refine Tree.frames_add_le hu hasks fun hprolongs => hkind ?_
    simp only [prolongs, Bool.and_eq_true, beq_iff_eq] at hprolongs
    exact hprolongs.1.1
  | left hkind hu hend =>
    refine Tree.frames_add_le (mem_children_of_field? hu) ?_ fun hprolongs => hend ?_
    · rw [hkind, asks, field_of_field? hu]
      rfl
    · simp only [prolongs, Bool.and_eq_true, beq_iff_eq] at hprolongs
      exact hprolongs.1.2
  | right hkind hu =>
    refine Tree.frames_add_le (mem_children_of_field? hu) ?_ fun hprolongs => ?_
    · rw [hkind, asks, field_of_field? hu]
      rfl
    · simp only [prolongs, field_of_field? hu, Bool.and_eq_true, beq_iff_eq] at hprolongs
      cases hprolongs.2
  | @along t u v hkind hv hbinary _ ih =>
    have hprolongs : prolongs t.kind v = true := by
      simp only [prolongs, hkind, hbinary, field_of_field? hv, BEq.rfl, Bool.and_self]
    have hle := frames_le_of_prolongs (mem_children_of_field? hv) hprolongs
    rw [hbinary] at ih
    rw [hkind]
    omega

/-- The operands that a walk along the left operands meets are one down from any expression that
    the walk may have come from. -/
theorem oneDown_leftSpine {t : Tree} (fuel : Nat) {start : Option Tree}
    {above : List (String × Option Tree)}
    (hend : ∀ v, start = some v → v.kind ≠ .binaryExpression → OneDown t v)
    (hgoes : ∀ v, start = some v → v.kind = .binaryExpression → ∀ u, OneDown v u → OneDown t u)
    (habove : ∀ e ∈ above, ∀ u, e.2 = some u → OneDown t u) :
    (∀ e ∈ (leftSpine fuel start above).1, ∀ u, e.2 = some u → OneDown t u) ∧
      ∀ u, (leftSpine fuel start above).2 = .operand u → OneDown t u := by
  induction fuel generalizing start above with
  | zero =>
    cases start with
    | none => exact ⟨habove, fun u hu => nomatch hu⟩
    | some v => exact ⟨habove, fun u hu => nomatch hu⟩
  | succ fuel ih =>
    cases start with
    | none => exact ⟨habove, fun u hu => nomatch hu⟩
    | some v =>
      rw [leftSpine]
      by_cases hbinary : v.kind = .binaryExpression
      · rw [if_pos (beq_iff_eq.mpr hbinary)]
        have hdown := hgoes v rfl hbinary
        dsimp only
        split
        · exact ⟨habove, fun u hu => nomatch hu⟩
        · refine ih (fun w hw hkind => hdown w (.left hbinary hw hkind))
            (fun w hw hkind u hu => hdown u (.along hbinary hw hkind hu)) fun e he u hu => ?_
          rcases List.mem_cons.mp he with rfl | he
          · exact hdown u (.right hbinary hu)
          · exact habove e he u hu
      · rw [if_neg (mt beq_iff_eq.mp hbinary)]
        refine ⟨habove, fun u hu => ?_⟩
        cases hu
        exact hend v rfl hbinary

/-- The operands along the left operands of a binary expression are one down from it. -/
theorem oneDown_of_leftSpine {t : Tree} (hbinary : t.kind = .binaryExpression) (fuel : Nat) :
    (∀ e ∈ (leftSpine fuel (some t) []).1, ∀ u, e.2 = some u → OneDown t u) ∧
      ∀ u, (leftSpine fuel (some t) []).2 = .operand u → OneDown t u := by
  refine oneDown_leftSpine fuel (fun v hv hkind => ?_) (fun v hv _ u hu => ?_) fun e he => ?_
  · cases hv
    exact absurd hbinary hkind
  · cases hv
    exact hu
  · cases he

/-! ## Typing from the types of the parts -/

namespace Place

section Parts

variable (S : Simulation Typing Typing) {f g : Tree → Typing (Option String)}

theorem typeOfOption_rel {o : Option Tree} (h : ∀ u, o = some u → S.Rel (f u) (g u)) :
    S.Rel (typeOfOption f o) (typeOfOption g o) := by
  cases o with
  | none => exact S.pure none
  | some u => exact h u rfl

theorem foldSpine_rel {above : List (String × Option Tree)}
    (h : ∀ e ∈ above, ∀ u, e.2 = some u → S.Rel (f u) (g u)) (type : Option String) :
    S.Rel (foldSpine f above type) (foldSpine g above type) := by
  induction above generalizing type with
  | nil => exact S.pure type
  | cons e above ih =>
    obtain ⟨op, right⟩ := e
    have hrest := ih fun e he => h e (List.mem_cons_of_mem _ he)
    unfold foldSpine
    split
    · cases right with
      | none => exact hrest type
      | some u => exact S.bind (h (op, some u) List.mem_cons_self u rfl) fun other => hrest _
    · exact hrest type

variable (p : Place) (locals : Locals) (known : Resolved) {t : Tree}

/-- The type at the end of the left operands. -/
def endType (operand : Tree → Typing (Option String)) : SpineEnd → Typing (Option String)
  | .missing => pure none
  | .comparison => pure (some "boolean")
  | .operand u => operand u

theorem typeWith_binary (hkind : t.kind = .binaryExpression) :
    p.typeWith locals known f t =
      endType f (leftSpine t.size (some t) []).2 >>=
        foldSpine f (leftSpine t.size (some t) []).1 := by
  unfold typeWith
  rw [hkind]
  dsimp only [literalType?]
  generalize leftSpine t.size (some t) [] = spine
  obtain ⟨operators, bottom⟩ := spine
  cases bottom with
  | missing => rfl
  | comparison => rfl
  | operand u => rfl

/-- Typing an expression asks for the types of what is one down only. -/
theorem typeWith_rel (hlift : ∀ x : Trail (Option String), S.Rel (liftM x) (liftM x))
    (h : ∀ u, OneDown t u → S.Rel (f u) (g u)) :
    S.Rel (p.typeWith locals known f t) (p.typeWith locals known g t) := by
  by_cases hbinary : t.kind = .binaryExpression
  · obtain ⟨hrights, hend⟩ := oneDown_of_leftSpine hbinary t.size
    -- The walk itself types nothing, so it is the same on both sides.
    rw [typeWith_binary p locals known hbinary, typeWith_binary p locals known hbinary]
    refine S.bind ?_ fun type => foldSpine_rel S (fun e he u hu => h u (hrights e he u hu)) type
    generalize (leftSpine t.size (some t) []).2 = bottom at hend
    cases bottom with
    | missing => exact S.pure none
    | comparison => exact S.pure _
    | operand u => exact h u (hend u rfl)
  have hpart : ∀ k, (∀ u, u.label.field = some k → asks t.kind u = true) →
      ∀ u, t.field? k = some u → S.Rel (f u) (g u) := fun k hasks u hu =>
    h u (.part hbinary (mem_children_of_field? hu) (hasks u (field_of_field? hu)))
  unfold typeWith
  split
  · exact S.pure _
  · split
    · exact hlift _
    · exact S.pure _
    · rename_i hkind
      refine typeOfOption_rel S fun u hu => h u (.part hbinary ?_ (by rw [hkind]; rfl))
      exact (List.mem_filter.mp (List.mem_of_mem_head? hu)).1
    · exact S.pure _
    · exact S.pure _
    · exact S.pure _
    · exact S.pure _
    · rename_i hkind
      have hobject := hpart .object fun u hu => by rw [hkind, asks, hu]; rfl
      split
      · exact S.pure _
      · rename_i object hfield
        split
        · exact hlift _
        · exact hlift _
        · refine S.bind (hobject object hfield) fun type => ?_
          split
          · exact hlift _
          · exact hlift _
    · rename_i hkind
      exact S.bind (typeOfOption_rel S (hpart .array fun u hu => by rw [hkind, asks, hu]; rfl))
        fun array => S.pure _
    · rename_i hkind
      refine S.bind (typeOfOption_rel S (hpart .consequence fun u hu => by
        rw [hkind, asks, hu]; rfl)) fun type => ?_
      split
      · exact S.pure _
      · exact typeOfOption_rel S (hpart .alternative fun u hu => by rw [hkind, asks, hu]; rfl)
    · rename_i hkind
      exact typeOfOption_rel S (hpart .left fun u hu => by rw [hkind, asks, hu]; rfl)
    · exact S.pure _
    · exact S.pure _
    · exact absurd ‹_› hbinary
    · exact S.pure _

end Parts

/-! ## Room for calls -/

variable (p : Place) (locals : Locals) (known : Resolved) {t : Tree}

/-- Typing gives up if there is no room for the calls of an expression itself; otherwise its parts
    have the room that these calls leave. -/
theorem typeOfAt_eq (room : Nat) (t : Tree) :
    p.typeOfAt locals known room t =
      if room < ownFrames t.kind then throw .tooDeep
      else p.typeWith locals known (p.typeOfAt locals known (room - ownFrames t.kind)) t := by
  unfold typeOfAt ownFrames
  by_cases hbinary : (t.kind == .binaryExpression) = true
  · rw [if_pos hbinary]
    match room with
    | 0 => rfl
    | 1 => exact if_pos hbinary
    | room + 2 => exact if_pos hbinary
  · rw [if_neg hbinary]
    cases room with
    | zero => rfl
    | succ room => exact if_neg hbinary

/-- The computation does not give up, whatever it goes along with. -/
def answers : Simulation Typing Typing where
  Rel x _ := Answers x
  pure := answers_pure
  bind := Answers.bind

/-- An expression for which there is room is typed. -/
theorem typeOfAt_answers {room : Nat} (h : t.frames ≤ room) :
    Answers (p.typeOfAt locals known room t) := by
  induction room using Nat.strongRecOn generalizing t with
  | ind room ih =>
    have hpos := ownFrames_pos t.kind
    have hroom : ownFrames t.kind ≤ room := Nat.le_trans (by rw [t.frames_eq]; omega) h
    rw [typeOfAt_eq, if_neg (Nat.not_lt.mpr hroom)]
    refine p.typeWith_rel answers locals known (g := fun _ => pure none) answers_lift fun u hu => ?_
    have hdown := hu.frames_add_le
    exact ih _ (by omega) (by omega)

theorem typeOf_answers (h : t.FitsIn p.room) : Answers (p.typeOf locals known t) :=
  p.typeOfAt_answers locals known h.frames_le

/-! ## Calls and declarations -/

theorem argument_answers (h : t.FitsIn p.room) : Answers (p.argument locals known t) :=
  (p.typeOf_answers locals known h).bind fun _ => answers_pure _

theorem invocation_answers (h : t.FitsIn p.room) (args : List (Option String)) :
    Answers (p.invocation locals known t args) := by
  unfold invocation
  split
  · exact answers_lift _
  · split
    · exact answers_lift _
    · exact answers_lift _
  · dsimp only
    split
    · exact answers_lift _
    · rename_i object hobject
      split
      · exact answers_lift _
      · refine (p.typeOf_answers locals known (h.of_field? hobject)).bind fun type => ?_
        split
        · exact answers_lift _
        · split
          · exact answers_lift _
          · exact answers_lift _

theorem callSite_answers (h : t.FitsIn p.room) (position ordinal : Nat) :
    Answers (p.callSite locals known position ordinal t) := by
  refine Answers.bind (answers_mapM fun a ha => p.argument_answers locals known ?_) fun args =>
    (p.invocation_answers locals known h _).bind fun i => answers_pure _
  unfold argumentNodes at ha
  split at ha
  · cases ha
  · rename_i list hlist
    exact (h.of_field? hlist).of_mem_children (List.mem_filter.mp ha).1

theorem callSites_answers {nodes : List Tree} (h : ∀ t ∈ nodes, t.FitsIn p.room)
    (position : Nat) (done : List CallSite) :
    Answers (p.callSites locals position nodes done known) := by
  induction nodes generalizing done known with
  | nil => exact answers_pure _
  | cons t nodes ih =>
    exact (p.callSite_answers locals known (h t List.mem_cons_self) position _).bind fun r =>
      ih _ (fun u hu => h u (List.mem_cons_of_mem t hu)) _

theorem emit_answers (b : Body) {scan : List Tree}
    (h : ∀ t ∈ scan.flatMap callNodes, t.FitsIn p.room) (line : Nat) (text : String)
    (kind : InstructionKind) : Answers (p.emit b line text scan kind) :=
  (p.callSites_answers b.locals b.known h _ []).bind fun _ => answers_pure _

theorem declare_answers (b : Body) (h : t.FitsIn p.room) : Answers (p.declare b t) := by
  refine answers_foldlM (fun b d hd => ?_) b
  have hd := h.of_mem_children (List.mem_filter.mp hd).1
  unfold declareVariable
  split
  · exact answers_pure _
  · dsimp only
    split
    · exact (answers_pure _).bind fun _ => answers_pure _
    · rename_i value hvalue
      split
      · exact (p.typeOf_answers b.locals b.known (hd.of_field? hvalue)).bind fun _ =>
          (answers_pure _).bind fun _ => answers_pure _
      · exact (answers_pure _).bind fun _ => answers_pure _

/-! ## Bodies -/

/-- There is room for each expression that the steps read. -/
def StepsFit (room : Nat) (steps : List Step) : Prop :=
  ∀ s ∈ steps, ∀ t ∈ s.reads, t.FitsIn room

variable {room : Nat} {steps : List Step}

theorem stepsFit_visits {body : List Tree} (h : ∀ t ∈ body, t.FitsIn room) :
    StepsFit room (body.map .visit) := by
  intro s hs t ht
  obtain ⟨u, hu, rfl⟩ := List.mem_map.mp hs
  rw [List.mem_singleton.mp ht]
  exact h u hu

/-- A plan reads the statement and its children only. -/
theorem stepsFit_plan (ht : t.FitsIn room) : StepsFit room (p.plan t) := by
  intro s hs c hc
  rcases List.mem_cons.mp (reads_plan_subset p t s hs hc) with rfl | hc
  · exact ht
  · exact ht.of_mem_children hc

/-- Lowering gets through steps that read no expression for which there is no room. -/
theorem run_answers (fuel : Nat) (h : StepsFit p.room steps) (b : Body) :
    Answers (p.run fuel steps b) := by
  induction fuel generalizing steps b with
  | zero => exact answers_pure b
  | succ fuel ih =>
    cases steps with
    | nil => exact answers_pure b
    | cons s rest =>
      obtain ⟨hs, hrest⟩ := List.forall_mem_cons.mp h
      cases s with
      | visit t =>
        have hplan := p.stepsFit_plan (hs t List.mem_cons_self)
        exact ih (List.forall_mem_append.mpr ⟨hplan, hrest⟩) b
      | emit line text scan kind =>
        refine (p.emit_answers b (fun u hu => ?_) _ _ _).bind fun b' => ih hrest b'
        obtain ⟨c, hc, hu⟩ := List.mem_flatMap.mp hu
        exact (hs c hc).of_mem_nodes (callNodes_subset c hu)
      | declare t =>
        exact (p.declare_answers b (hs t List.mem_cons_self)).bind fun b' => ih hrest b'
      | bind name type => exact ih hrest _

/-- A body is lowered if there is room for each expression in it, grammatical or not. -/
theorem lower_answers (m : Method) (params : List (String × String)) {body : List Tree}
    (h : ∀ t ∈ body, t.FitsIn p.room) : Answers (p.lower m params body) :=
  (p.run_answers _ (stepsFit_visits h) _).bind fun _ => answers_pure _

end Place
end ServiceReach.Index

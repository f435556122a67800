import ServiceReach.Proofs.Index.Depth
import ServiceReach.Proofs.Index.Numbering
import ServiceReach.Proofs.Index.Shape

/-
  The steps of lowering. Plans cost less than the statements they are for, so the steps of a body
  come to an end. `Scans` says which trees their instructions scan, without a bound on the number of
  steps, and `run` does what it says with any fuel that covers the cost (`Scans.run_eq`,
  `Scans.run_records`). In a grammatical body no node is scanned twice (`Scans.subperm`), what one
  instruction scans is in post-order (`Scans.sublist`), and every call is scanned (`Scans.calls`).
-/

namespace ServiceReach.Index

open Source Tree Trail

open scoped List

/-! ## The number of steps -/

theorem weight_eq (t : Tree) : weight t = 4 * weightOf t.children + 4 := by
  cases t
  rfl

theorem length_le_weightOf (ts : List Tree) : ts.length ≤ weightOf ts := by
  induction ts with
  | nil => exact Nat.le_refl 0
  | cons t ts ih =>
    rw [weightOf, weight_eq, List.length_cons]
    omega

theorem weightOf_le_of_sublist {ts us : List Tree} (h : ts <+ us) : weightOf ts ≤ weightOf us := by
  induction h with
  | slnil => exact Nat.le_refl 0
  | cons t _ ih =>
    rw [weightOf]
    omega
  | cons_cons t _ ih =>
    rw [weightOf, weightOf]
    omega

theorem weight_le_of_mem {t : Tree} {ts : List Tree} (h : t ∈ ts) : weight t ≤ weightOf ts := by
  have hsub := weightOf_le_of_sublist (List.singleton_sublist.mpr h)
  simpa only [weightOf, Nat.add_zero] using hsub

/-- A bound on the number of steps that follow from a step. -/
def Step.cost : Step → Nat
  | .visit t => weight t
  | .emit _ _ _ _ | .declare _ | .bind _ _ => 1

theorem Step.cost_pos (s : Step) : 0 < s.cost := by
  cases s with
  | visit t =>
    rw [Step.cost, weight_eq]
    omega
  | emit | declare | bind => exact Nat.one_pos

/-- A bound on the number of steps that follow from several. -/
def cost : List Step → Nat
  | [] => 0
  | s :: rest => s.cost + cost rest

theorem cost_append (steps rest : List Step) : cost (steps ++ rest) = cost steps + cost rest := by
  induction steps with
  | nil => rw [List.nil_append, cost, Nat.zero_add]
  | cons s steps ih =>
    rw [List.cons_append, cost, cost, ih]
    omega

theorem cost_visits (ts : List Tree) : cost (ts.map .visit) = weightOf ts := by
  induction ts with
  | nil => rfl
  | cons t ts ih => rw [List.map_cons, cost, ih, weightOf, Step.cost]

theorem weightOf_append (ts us : List Tree) : weightOf (ts ++ us) = weightOf ts + weightOf us := by
  rw [← cost_visits, List.map_append, cost_append, cost_visits, cost_visits]

theorem cost_of_forall_eq_one {steps : List Step} (h : ∀ s ∈ steps, s.cost = 1) :
    cost steps = steps.length := by
  induction steps with
  | nil => rfl
  | cons s steps ih =>
    obtain ⟨hs, hsteps⟩ := List.forall_mem_cons.mp h
    rw [cost, hs, ih hsteps, List.length_cons, Nat.add_comm]

variable {t u : Tree}

theorem length_bindNode_le (p : Place) (t : Tree) : (p.bindNode t).length ≤ 1 := by
  unfold Place.bindNode
  split
  · exact Nat.zero_le 1
  · exact Nat.le_refl 1

theorem length_headerVariables_le (p : Place) (t : Tree) :
    (p.headerVariables t).length ≤ weightOf t.children + 1 := by
  have hchildren := length_le_weightOf t.children
  unfold Place.headerVariables
  split
  · rw [List.length_map]
    have hfields := List.length_filter_le (fun c => c.kind == .localVariableDeclaration)
      (t.fields .init)
    have hinit := List.length_filter_le (fun c => c.label.field == some .init) t.children
    unfold Tree.fields at hfields ⊢
    omega
  · have hbind := length_bindNode_le p t
    omega
  · unfold Place.bindCaught
    split
    · exact Nat.zero_le _
    · split
      · exact Nat.le_add_left 1 _
      · exact Nat.zero_le _
  · split
    · exact Nat.zero_le _
    · rename_i resources hresources
      have hflat : (resources.constructs.flatMap p.bindNode).length ≤
          resources.constructs.length := by
        induction resources.constructs with
        | nil => exact Nat.le_refl 0
        | cons c cs ih =>
          have hbind := length_bindNode_le p c
          rw [List.flatMap_cons, List.length_append, List.length_cons]
          omega
      have hconstructs := List.length_filter_le Tree.isConstruct resources.children
      have hweight := length_le_weightOf resources.children
      have hmem := weight_le_of_mem (mem_children_of_field? hresources)
      rw [weight_eq] at hmem
      unfold Tree.constructs at hflat ⊢
      omega
  · exact Nat.zero_le _

theorem cost_headerVariables_le (p : Place) (t : Tree) :
    cost (p.headerVariables t) ≤ weightOf t.children + 1 := by
  rw [cost_of_forall_eq_one]
  · exact length_headerVariables_le p t
  · intro s hs
    rcases mem_headerVariables p hs with ⟨name, type, rfl⟩ | ⟨c, _, rfl⟩
    · rfl
    · rfl

theorem weightOf_constructs_filter_le (t : Tree) (keep : Tree → Bool) :
    weightOf (t.constructs.filter keep) ≤ weightOf t.children :=
  weightOf_le_of_sublist (List.filter_sublist.trans List.filter_sublist)

theorem weightOf_toList_le {o : Option Tree} (h : ∀ c, o = some c → c ∈ t.children) :
    weightOf o.toList ≤ weightOf t.children :=
  weightOf_le_of_sublist (toList_sublist_children h)

theorem cost_switchGroup_le (p : Place) (mark : String) (t : Tree) :
    cost (p.switchGroup mark t) ≤ 2 * weightOf t.children := by
  unfold Place.switchGroup
  dsimp only
  have hlabels := weightOf_constructs_filter_le t fun c => c.kind == .switchLabel
  have hlength := length_le_weightOf (t.constructs.filter fun c => c.kind == .switchLabel)
  have hrest := weightOf_constructs_filter_le t fun c => !(c.kind == .switchLabel)
  rw [cost_append, cost_visits, cost_of_forall_eq_one, List.length_map]
  · omega
  · intro s hs
    obtain ⟨c, _, rfl⟩ := List.mem_map.mp hs
    rfl

theorem cost_doSteps_le (p : Place) (t : Tree) :
    cost (p.doSteps t) ≤ weightOf t.children + 2 := by
  unfold Place.doSteps
  have hbody := weightOf_toList_le (t := t) fun c hc => mem_children_of_field? (f := .body) hc
  rw [cost_append, cost_append, cost_visits]
  simp only [cost, Step.cost]
  omega

/-- A clause may be counted twice: as the body of a statement and among its clauses. -/
theorem weightOf_bodies_le {parts : Parts} (h : parts? t = some parts) :
    weightOf parts.bodies ≤ 2 * weightOf t.children := by
  have hfield : ∀ f, weightOf (t.field? f).toList ≤ weightOf t.children := fun f =>
    weightOf_toList_le fun c hc => mem_children_of_field? hc
  have hchild : ∀ kinds, weightOf (t.child? kinds).toList ≤ weightOf t.children := fun kinds =>
    weightOf_toList_le fun c hc => List.mem_of_find?_eq_some hc
  have hclauses : weightOf (parts?.clauses t) ≤ weightOf t.children :=
    weightOf_constructs_filter_le t _
  have hbody := hfield .body
  unfold parts? at h
  split at h
  case h_1 =>
    cases h
    have hconsequence := hfield .consequence
    have halternative := hfield .alternative
    dsimp only
    rw [weightOf_append]
    omega
  case h_8 | h_9 =>
    cases h
    dsimp only
    rw [weightOf_append]
    omega
  case h_11 =>
    cases h
    have hblock := hchild [.block]
    dsimp only
    omega
  case h_12 => cases h
  all_goals
    cases h
    dsimp only
    omega

/-- The steps of a plan take less than the statement was given. -/
theorem cost_plan_lt (p : Place) (t : Tree) : cost (p.plan t) < weight t := by
  rw [weight_eq]
  have hconstructs : weightOf t.constructs ≤ weightOf t.children :=
    weightOf_le_of_sublist List.filter_sublist
  unfold Place.plan
  split
  · rw [cost_visits]
    omega
  · split
    · rw [cost]
      omega
    · split
      · have hfilter := weightOf_constructs_filter_le t fun c => c.kind != .identifier
        rw [cost_visits]
        omega
      · simp only [cost, Step.cost, Place.emitNode]
        omega
      · simp only [cost, Step.cost, Place.emitNode]
        omega
      · have hdo := cost_doSteps_le p t
        omega
      · have hgroup := cost_switchGroup_le p ":" t
        omega
      · have hgroup := cost_switchGroup_le p " ->" t
        omega
      · split
        · rename_i parts hparts
          have hheader := cost_headerVariables_le p t
          have hbodies := weightOf_bodies_le hparts
          rw [cost, cost_append, cost_visits, Step.cost]
          omega
        · simp only [cost, Step.cost, Place.emitNode]
          omega

theorem cost_plan_append_lt (p : Place) (t : Tree) (rest : List Step) :
    cost (p.plan t ++ rest) < cost (.visit t :: rest) := by
  rw [cost_append, cost, Step.cost]
  exact Nat.add_lt_add_right (cost_plan_lt p t) _

/-! ## What is scanned -/

/-- The trees that the instructions scan to which steps lead. -/
inductive Scans (p : Place) : List Step → List (List Tree) → Prop
  | nil : Scans p [] []
  | visit {t : Tree} {rest : List Step} {scans : List (List Tree)}
      (h : Scans p (p.plan t ++ rest) scans) : Scans p (.visit t :: rest) scans
  | emit {line : Nat} {text : String} {scan : List Tree} {kind : InstructionKind}
      {rest : List Step} {scans : List (List Tree)} (h : Scans p rest scans) :
      Scans p (.emit line text scan kind :: rest) (scan :: scans)
  | declare {t : Tree} {rest : List Step} {scans : List (List Tree)} (h : Scans p rest scans) :
      Scans p (.declare t :: rest) scans
  | bind {name : String} {type : Option String} {rest : List Step} {scans : List (List Tree)}
      (h : Scans p rest scans) : Scans p (.bind name type :: rest) scans

/-- All trees of the steps are grammatical. -/
def Sane (steps : List Step) : Prop :=
  ∀ s ∈ steps, ∀ c ∈ s.trees, Grammatical [c]

variable {p : Place} {steps rest : List Step} {s : Step} {scans : List (List Tree)}

theorem Sane.tail (h : Sane (s :: rest)) : Sane rest :=
  fun r hr => h r (List.mem_cons_of_mem s hr)

theorem Sane.root (h : Sane (.visit t :: rest)) : Grammatical [t] :=
  h (.visit t) List.mem_cons_self t List.mem_cons_self

theorem Sane.plan (h : Sane (.visit t :: rest)) (p : Place) : Sane (p.plan t ++ rest) := by
  intro s hs
  rcases List.mem_append.mp hs with hs | hs
  · exact grammatical_plan p h.root s hs
  · exact h.tail s hs

/-- Lowering a grammatical body comes to an end. -/
theorem exists_scans (p : Place) (h : Sane steps) : ∃ scans, Scans p steps scans := by
  induction hn : cost steps using Nat.strongRecOn generalizing steps with
  | ind n ih =>
    cases steps with
    | nil => exact ⟨[], .nil⟩
    | cons s rest =>
      have hrest : s.cost ≠ 0 → ∃ scans, Scans p rest scans := by
        intro hs
        rw [cost] at hn
        exact ih (cost rest) (by omega) h.tail rfl
      cases s with
      | visit t =>
        obtain ⟨scans, hscans⟩ := ih _ (hn ▸ cost_plan_append_lt p t rest) (h.plan p) rfl
        exact ⟨scans, .visit hscans⟩
      | emit line text scan kind =>
        obtain ⟨scans, hscans⟩ := hrest Nat.one_ne_zero
        exact ⟨scan :: scans, .emit hscans⟩
      | declare t =>
        obtain ⟨scans, hscans⟩ := hrest Nat.one_ne_zero
        exact ⟨scans, .declare hscans⟩
      | bind name type =>
        obtain ⟨scans, hscans⟩ := hrest Nat.one_ne_zero
        exact ⟨scans, .bind hscans⟩

theorem outsideAll_append (stop : Kind → Bool) (ts us : List Tree) :
    outsideAll stop (ts ++ us) = outsideAll stop ts ++ outsideAll stop us := by
  rw [outsideAll_eq, outsideAll_eq, outsideAll_eq, List.flatMap_append]

theorem Scans.sane (h : Scans p steps scans) (hs : Sane steps) :
    ∀ scan ∈ scans, ∀ c ∈ scan, Grammatical [c] := by
  induction h with
  | nil => exact fun scan hscan => nomatch hscan
  | visit _ ih => exact ih (hs.plan p)
  | emit _ ih => exact List.forall_mem_cons.mpr ⟨hs _ List.mem_cons_self, ih hs.tail⟩
  | declare _ ih => exact ih hs.tail
  | bind _ ih => exact ih hs.tail

/-- No node is scanned twice. -/
theorem Scans.subperm (h : Scans p steps scans) (hs : Sane steps) :
    outsideAll isOpaque scans.flatten <+~ outsideAll isOpaque (steps.flatMap Step.trees) := by
  induction h with
  | nil => exact List.Subperm.refl _
  | visit _ ih =>
    refine (ih (hs.plan p)).trans ?_
    rw [List.flatMap_append, outsideAll_append, List.flatMap_cons, outsideAll_append, Step.trees,
      outsideAll_singleton]
    exact (List.subperm_append_right _).mpr (plan_subperm p hs.root)
  | emit _ ih =>
    rw [List.flatten_cons, outsideAll_append, List.flatMap_cons, outsideAll_append]
    exact (List.subperm_append_left _).mpr (ih hs.tail)
  | declare _ ih => exact ih hs.tail
  | bind _ ih => exact ih hs.tail

/-- What an instruction scans is in post-order. -/
theorem Scans.sublist (h : Scans p steps scans) (hs : Sane steps) {scan : List Tree}
    (hscan : scan ∈ scans) :
    ∃ s ∈ steps, outsideAll isOpaque scan <+ outsideAll isOpaque s.trees := by
  induction h with
  | nil => cases hscan
  | @visit t rest scans _ ih =>
    obtain ⟨s, hmem, hsub⟩ := ih (hs.plan p) hscan
    rcases List.mem_append.mp hmem with hmem | hmem
    · refine ⟨.visit t, List.mem_cons_self, hsub.trans ?_⟩
      rw [Step.trees, outsideAll_singleton]
      exact plan_sublist p hs.root hmem
    · exact ⟨s, List.mem_cons_of_mem _ hmem, hsub⟩
  | emit _ ih =>
    rcases List.mem_cons.mp hscan with rfl | hscan
    · exact ⟨_, List.mem_cons_self, List.Sublist.refl _⟩
    · obtain ⟨s, hmem, hsub⟩ := ih hs.tail hscan
      exact ⟨s, List.mem_cons_of_mem _ hmem, hsub⟩
  | declare _ ih =>
    obtain ⟨s, hmem, hsub⟩ := ih hs.tail hscan
    exact ⟨s, List.mem_cons_of_mem _ hmem, hsub⟩
  | bind _ ih =>
    obtain ⟨s, hmem, hsub⟩ := ih hs.tail hscan
    exact ⟨s, List.mem_cons_of_mem _ hmem, hsub⟩

/-- Every call is scanned. -/
theorem Scans.calls (h : Scans p steps scans) (hs : Sane steps) :
    steps.flatMap Step.calls ⊆ scans.flatten.flatMap callNodes := by
  induction h with
  | nil => exact List.Subset.refl _
  | visit _ ih =>
    intro u hu
    refine ih (hs.plan p) ?_
    rw [List.flatMap_cons, List.mem_append] at hu
    rw [List.flatMap_append, List.mem_append]
    refine hu.imp_left fun hu => ?_
    obtain ⟨hu, hcall⟩ := List.mem_filter.mp hu
    exact plan_calls p hs.root hu hcall
  | emit _ ih =>
    rw [List.flatMap_cons, List.flatten_cons, List.flatMap_append]
    exact List.append_subset.mpr ⟨List.subset_append_left _ _,
      List.Subset.trans (ih hs.tail) (List.subset_append_right _ _)⟩
  | declare _ ih => exact ih hs.tail
  | bind _ ih => exact ih hs.tail

/-! ## Fuel -/

theorem fuel_visit {fuel : Nat} (hfuel : cost (.visit t :: rest) ≤ fuel) (p : Place) :
    ∃ n, fuel = n + 1 ∧ cost (p.plan t ++ rest) ≤ n := by
  have hlt := cost_plan_append_lt p t rest
  exact ⟨fuel - 1, by omega, by omega⟩

theorem fuel_of_cost_le {fuel : Nat} (hs : s.cost = 1) (hfuel : cost (s :: rest) ≤ fuel) :
    ∃ n, fuel = n + 1 ∧ cost rest ≤ n := by
  rw [cost, hs] at hfuel
  exact ⟨fuel - 1, by omega, by omega⟩

/-- With as much fuel as the steps cost, more fuel changes nothing. -/
theorem Scans.run_eq (h : Scans p steps scans) (hs : Sane steps) {fuel fuel' : Nat}
    (hfuel : cost steps ≤ fuel) (hfuel' : cost steps ≤ fuel') (b : Body) :
    p.run fuel steps b = p.run fuel' steps b := by
  induction h generalizing fuel fuel' b with
  | nil => cases fuel <;> cases fuel' <;> rfl
  | visit _ ih =>
    obtain ⟨n, rfl, hn⟩ := fuel_visit hfuel p
    obtain ⟨n', rfl, hn'⟩ := fuel_visit hfuel' p
    exact ih (hs.plan p) hn hn' b
  | emit _ ih =>
    obtain ⟨n, rfl, hn⟩ := fuel_of_cost_le rfl hfuel
    obtain ⟨n', rfl, hn'⟩ := fuel_of_cost_le rfl hfuel'
    rw [Place.run, Place.run]
    exact bind_congr fun b' => ih hs.tail hn hn' b'
  | declare _ ih =>
    obtain ⟨n, rfl, hn⟩ := fuel_of_cost_le rfl hfuel
    obtain ⟨n', rfl, hn'⟩ := fuel_of_cost_le rfl hfuel'
    rw [Place.run, Place.run]
    exact bind_congr fun b' => ih hs.tail hn hn' b'
  | bind _ ih =>
    obtain ⟨n, rfl, hn⟩ := fuel_of_cost_le rfl hfuel
    obtain ⟨n', rfl, hn'⟩ := fuel_of_cost_le rfl hfuel'
    exact ih hs.tail hn hn' _

/-! ## What is recorded -/

namespace Place

/-- The call site is that of a node. -/
def Records (p : Place) (site : CallSite) (t : Tree) : Prop :=
  ∃ locals known position ordinal i,
    (p.callSite locals known position ordinal t).run.value = .ok (site, i)

/-- The calls of the instruction are those in some trees, in their order. -/
def RecordsAll (p : Place) (i : Instruction) (scan : List Tree) : Prop :=
  List.Forall₂ p.Records i.calls (scan.flatMap callNodes)

/-- The call site is that of a node, resolved while certain variables are known. -/
def RecordsWith (p : Place) (locals : Locals) (site : CallSite) (t : Tree) : Prop :=
  ∃ known position ordinal i,
    (p.callSite locals known position ordinal t).run.value = .ok (site, i)

theorem callSites_records (p : Place) (locals : Locals) (position : Nat) (nodes : List Tree)
    (done : List CallSite) (known : Resolved) :
    Ensures (p.callSites locals position nodes done known) fun r =>
      ∃ new, r.1 = done ++ new ∧ List.Forall₂ (p.RecordsWith locals) new nodes := by
  induction nodes generalizing done known with
  | nil => exact Ensures.pure ⟨[], (List.append_nil done).symm, .nil⟩
  | cons t nodes ih =>
    have hsite : Ensures (p.callSite locals known position done.length t) fun r =>
        p.RecordsWith locals r.1 t := fun r hr => ⟨_, _, _, r.2, hr⟩
    refine hsite.bind fun r hr => (ih _ _).imp ?_
    rintro found ⟨new, hnew, hrecords⟩
    exact ⟨r.1 :: new, by rw [hnew, List.append_assoc]; rfl, .cons hr hrecords⟩

/-- An instruction is added at the end; the variables stay, and its calls are resolved with
    them. -/
theorem emit_adds (p : Place) (b : Body) (line : Nat) (text : String) (scan : List Tree)
    (kind : InstructionKind) :
    Ensures (p.emit b line text scan kind) fun b' => b'.locals = b.locals ∧
      ∃ calls, b'.code = b.code ++ [⟨b.code.length, text, kind, calls, line⟩] ∧
        List.Forall₂ (p.RecordsWith b.locals) calls (scan.flatMap callNodes) := by
  refine (p.callSites_records b.locals b.code.length _ [] b.known).bind ?_
  rintro r ⟨new, hnew, hrecords⟩
  refine Ensures.pure ⟨rfl, r.1, rfl, ?_⟩
  rw [hnew]
  exact hrecords

theorem emit_records (p : Place) (b : Body) (line : Nat) (text : String) (scan : List Tree)
    (kind : InstructionKind) :
    Ensures (p.emit b line text scan kind) fun b' =>
      ∃ i, b'.code = b.code ++ [i] ∧ p.RecordsAll i scan := by
  refine (p.emit_adds b line text scan kind).imp ?_
  rintro b' ⟨_, calls, hcode, hrecords⟩
  refine ⟨_, hcode, hrecords.imp fun site t => ?_⟩
  rintro ⟨known, position, ordinal, i, hi⟩
  exact ⟨b.locals, known, position, ordinal, i, hi⟩

end Place

/-- The instructions that steps add have the calls in the trees they scan. -/
theorem Scans.run_records (h : Scans p steps scans) (hs : Sane steps) {fuel : Nat}
    (hfuel : cost steps ≤ fuel) (b : Body) :
    Ensures (p.run fuel steps b) fun b' =>
      ∃ new, b'.code = b.code ++ new ∧ List.Forall₂ p.RecordsAll new scans := by
  induction h generalizing fuel b with
  | nil =>
    have hdone : ∃ new, b.code = b.code ++ new ∧ List.Forall₂ p.RecordsAll new [] :=
      ⟨[], (List.append_nil b.code).symm, .nil⟩
    cases fuel with
    | zero => exact Ensures.pure hdone
    | succ fuel => exact Ensures.pure hdone
  | visit _ ih =>
    obtain ⟨n, rfl, hn⟩ := fuel_visit hfuel p
    exact ih (hs.plan p) hn b
  | emit _ ih =>
    obtain ⟨n, rfl, hn⟩ := fuel_of_cost_le rfl hfuel
    refine (p.emit_records b _ _ _ _).bind ?_
    rintro b' ⟨i, hi, hrecords⟩
    refine (ih hs.tail hn b').imp ?_
    rintro b'' ⟨new, hnew, hall⟩
    exact ⟨i :: new, by rw [hnew, hi, List.append_assoc]; rfl, .cons hrecords hall⟩
  | declare _ ih =>
    obtain ⟨n, rfl, hn⟩ := fuel_of_cost_le rfl hfuel
    refine (p.declare_code b _).bind fun b' hb' => ?_
    rw [← hb']
    exact ih hs.tail hn b'
  | bind _ ih =>
    obtain ⟨n, rfl, hn⟩ := fuel_of_cost_le rfl hfuel
    exact ih hs.tail hn _

end ServiceReach.Index

import ServiceReach.Proofs.Index.Receivers
import ServiceReach.Proofs.Index.Shape

/-
  What lowering records about the calls of a body. While a body is lowered, the types of the
  variables and the results of the calls met so far hold no space (`Place.Faithful`); so what is
  found out about the next call is what `invocation_means` says, and the call site has it.
-/

namespace ServiceReach.Source.Tree

variable {v : Tree}

theorem nodes_subset_nodesAll {ts : List Tree} (h : v ∈ nodesAll ts) : v.nodes ⊆ nodesAll ts := by
  rw [nodesAll_eq] at h
  obtain ⟨t, ht, hv⟩ := List.mem_flatMap.mp h
  exact List.Subset.trans (nodes_sublist hv).subset (nodes_sublist_nodesAll ht).subset

end ServiceReach.Source.Tree

namespace ServiceReach.Index

open Source Tree Trail

variable {p : Place} {t : Tree}

/-! ## One call -/

/-- The call site is what lowering records for a node, with what it found out about the call. -/
structure Place.Stands (p : Place) (t : Tree) (s : CallSite) (i : Invocation) : Prop where
  recorded : ∃ locals known position ordinal,
    (p.callSite locals known position ordinal t).run.value = .ok (s, i)
  means : p.Means t (s.args.map Argument.type) i

theorem Place.Stands.site {s : CallSite} {i : Invocation} (h : p.Stands t s i) :
    s.name = i.name ∧ s.receiver = i.receiver ∧ s.target = targetSignature i s.args := by
  obtain ⟨locals, known, position, ordinal, hsite⟩ := h.recorded
  have hfields : Ensures (p.callSite locals known position ordinal t) fun r =>
      r.1.name = r.2.name ∧ r.1.receiver = r.2.receiver ∧
        r.1.target = targetSignature r.2 r.1.args :=
    (Ensures.trivial _).bind fun _ _ => (Ensures.trivial _).bind fun _ _ =>
      Ensures.pure ⟨rfl, rfl, rfl⟩
  exact hfields (s, i) hsite

theorem callSite_stands {locals : Locals} {known : Resolved} (h : p.Spaceless)
    (hlocals : locals.Clear) (hknown : known.Clear) (position ordinal : Nat) (t : Tree) :
    Ensures (p.callSite locals known position ordinal t) fun r => p.Stands t r.1 r.2 := by
  have hmeans : Ensures (p.callSite locals known position ordinal t) fun r =>
      p.Means t (r.1.args.map Argument.type) r.2 :=
    (Ensures.trivial _).bind fun _ _ =>
      (Place.invocation_means h hlocals hknown t _).bind fun _ hi => Ensures.pure hi
  exact fun r hr => ⟨⟨locals, known, position, ordinal, hr⟩, hmeans r hr⟩

theorem Resolved.Clear.cons {known : Resolved} (hknown : known.Clear) (h : p.Spaceless)
    {args : List (Option String)} {i : Invocation} (hi : p.Means t args i) (id : Nat) :
    Resolved.Clear ((id, i) :: known) := by
  refine List.forall_mem_cons.mpr ⟨fun m hm => ?_, hknown⟩
  exact h.program.findMethod (hi.target.symm.trans hm)

/-- The call sites stand for calls at some nodes. -/
def Place.StandsIn (p : Place) (nodes : List Tree) (sites : List CallSite) : Prop :=
  ∀ s ∈ sites, ∃ t ∈ nodes, ∃ i, p.Stands t s i

theorem callSites_stand {locals : Locals} {all : List Tree} (h : p.Spaceless)
    (hlocals : locals.Clear) (position : Nat) {nodes : List Tree} (hnodes : nodes ⊆ all)
    {done : List CallSite} (hdone : p.StandsIn all done) {known : Resolved}
    (hknown : known.Clear) :
    Ensures (p.callSites locals position nodes done known) fun r =>
      p.StandsIn all r.1 ∧ r.2.Clear := by
  induction nodes generalizing done known with
  | nil => exact Ensures.pure ⟨hdone, hknown⟩
  | cons t nodes ih =>
    obtain ⟨ht, hrest⟩ := List.cons_subset.mp hnodes
    refine (callSite_stands h hlocals hknown position done.length t).bind fun r hr => ?_
    refine ih hrest (fun s hs => ?_) (hknown.cons h hr.means t.id)
    rcases List.mem_append.mp hs with hs | hs
    · exact hdone s hs
    · rw [List.mem_singleton.mp hs]
      exact ⟨t, ht, r.2, hr⟩

/-! ## The steps of a body -/

/-- What a step visits or scans lies among some nodes, and what it binds has a type without a
    space. -/
def Step.Within (nodes : List Tree) : Step → Prop
  | .visit t => t ∈ nodes
  | .emit _ _ scan _ => scan ⊆ nodes
  | .declare _ => True
  | .bind _ type => Clear type

theorem Step.Within.mono {nodes nodes' : List Tree} {s : Step} (h : s.Within nodes)
    (hsub : nodes ⊆ nodes') : s.Within nodes' := by
  cases s with
  | visit t => exact hsub h
  | emit line text scan kind => exact List.Subset.trans h hsub
  | declare t => exact True.intro
  | bind name type => exact h

theorem visits_within {ts : List Tree} (h : ts ⊆ t.children) :
    ∀ s ∈ ts.map Step.visit, s.Within t.nodes := by
  intro s hs
  obtain ⟨c, hc, rfl⟩ := List.mem_map.mp hs
  exact mem_nodes_of_mem_children (h hc)

namespace Place.Spaceless

theorem bindNode_within (h : p.Spaceless) (nodes : List Tree) :
    ∀ s ∈ p.bindNode t, s.Within nodes := by
  intro s hs
  unfold Place.bindNode at hs
  split at hs
  · cases hs
  · rw [List.mem_singleton.mp hs]
    exact h.resolveNode _

theorem headerVariables_within (h : p.Spaceless) (nodes : List Tree) :
    ∀ s ∈ p.headerVariables t, s.Within nodes := by
  intro s hs
  unfold Place.headerVariables at hs
  split at hs
  · obtain ⟨c, _, rfl⟩ := List.mem_map.mp hs
    exact True.intro
  · exact h.bindNode_within nodes s hs
  · unfold Place.bindCaught at hs
    split at hs
    · cases hs
    · split at hs
      · rw [List.mem_singleton.mp hs]
        exact h.resolve _
      · cases hs
  · split at hs
    · cases hs
    · obtain ⟨c, _, hs⟩ := List.mem_flatMap.mp hs
      exact h.bindNode_within nodes s hs
  · cases hs

/-- The steps of a statement are about nodes of it. -/
theorem plan_within (h : p.Spaceless) (t : Tree) : ∀ s ∈ p.plan t, s.Within t.nodes := by
  have hself : ∀ kind, (p.emitNode t kind).Within t.nodes := fun kind c hc =>
    List.mem_singleton.mp hc ▸ mem_nodes_self t
  have hscan : ∀ {ts : List Tree}, ts ⊆ t.children → ts ⊆ t.nodes := fun hts c hc =>
    mem_nodes_of_mem_children (hts hc)
  have hgroup : ∀ mark, ∀ s ∈ p.switchGroup mark t, s.Within t.nodes := by
    intro mark
    refine List.forall_mem_append.mpr ⟨fun s hs => ?_, ?_⟩
    · obtain ⟨c, _, rfl⟩ := List.mem_map.mp hs
      exact List.nil_subset _
    · exact visits_within (constructs_filter_subset t _)
  unfold Place.plan
  split
  · exact visits_within List.filter_sublist.subset
  · split
    · exact fun s hs => by cases hs
    · split
      · exact visits_within (constructs_filter_subset t _)
      · exact List.forall_mem_cons.mpr ⟨hself _, List.forall_mem_singleton.mpr True.intro⟩
      · exact List.forall_mem_singleton.mpr (hself _)
      · refine List.forall_mem_append.mpr ⟨List.forall_mem_cons.mpr ⟨List.nil_subset _, ?_⟩, ?_⟩
        · exact visits_within (toList_field_subset t _)
        · exact List.forall_mem_singleton.mpr (hscan (toList_field_subset t _))
      · exact hgroup _
      · exact hgroup _
      · split
        · rename_i parts hparts
          obtain ⟨hheader, hbodies⟩ := parts_subset hparts
          refine List.forall_mem_cons.mpr ⟨hscan hheader, List.forall_mem_append.mpr ⟨?_, ?_⟩⟩
          · exact h.headerVariables_within _
          · exact visits_within hbodies
        · exact List.forall_mem_singleton.mpr (hself _)

end Place.Spaceless

/-! ## A body -/

/-- A body lowered in part, from some trees: what it knows of types holds no space, and its call
    sites stand for calls in the trees. -/
structure Place.Faithful (p : Place) (body : List Tree) (b : Body) : Prop where
  locals : b.locals.Clear
  known : b.known.Clear
  sites : ∀ i ∈ b.code, p.StandsIn (nodesAll body) i.calls

namespace Place.Faithful

variable {body : List Tree} {b : Body}

theorem bind (hb : p.Faithful body b) {type : Option String} (htype : Clear type)
    (name : String) : p.Faithful body { b with locals := (name, type) :: b.locals } :=
  ⟨List.forall_mem_cons.mpr ⟨htype, hb.locals⟩, hb.known, hb.sites⟩

theorem emit (hb : p.Faithful body b) (h : p.Spaceless) (line : Nat) (text : String)
    {scan : List Tree} (hscan : scan ⊆ nodesAll body) (kind : InstructionKind) :
    Ensures (p.emit b line text scan kind) (p.Faithful body) := by
  have hnodes : scan.flatMap callNodes ⊆ nodesAll body := by
    intro u hu
    obtain ⟨c, hc, hu⟩ := List.mem_flatMap.mp hu
    exact nodes_subset_nodesAll (hscan hc) (callNodes_subset c hu)
  refine (callSites_stand h hb.locals b.code.length hnodes (fun s hs => by cases hs)
    hb.known).bind fun r hr => Ensures.pure ⟨hb.locals, hr.2, ?_⟩
  exact List.forall_mem_append.mpr ⟨hb.sites, List.forall_mem_singleton.mpr hr.1⟩

theorem declare (hb : p.Faithful body b) (h : p.Spaceless) (t : Tree) :
    Ensures (p.declare b t) (p.Faithful body) := by
  have hdeclared := h.resolveNode (t.field? .type)
  refine Ensures.foldlM (fun b d hb => ?_) _ hb
  unfold declareVariable
  split
  · exact Ensures.pure hb
  · dsimp only
    split
    · exact (Ensures.pure hdeclared).bind fun type htype => Ensures.pure (hb.bind htype _)
    · rename_i value hvalue
      split
      · refine (h.typeOf hb.locals hb.known value).bind fun found hfound => ?_
        have htype : Clear ((present? found).or (p.resolveNode (t.field? .type))) :=
          hfound.present.or hdeclared
        exact (Ensures.pure htype).bind fun type htype => Ensures.pure (hb.bind htype _)
      · exact (Ensures.pure hdeclared).bind fun type htype => Ensures.pure (hb.bind htype _)

/-- Steps within a body keep it faithful. -/
theorem run (h : p.Spaceless) (fuel : Nat) {steps : List Step}
    (hsteps : ∀ s ∈ steps, s.Within (nodesAll body)) (hb : p.Faithful body b) :
    Ensures (p.run fuel steps b) (p.Faithful body) := by
  induction fuel generalizing steps b with
  | zero => exact Ensures.pure hb
  | succ fuel ih =>
    cases steps with
    | nil => exact Ensures.pure hb
    | cons s rest =>
      obtain ⟨hs, hrest⟩ := List.forall_mem_cons.mp hsteps
      cases s with
      | visit t =>
        refine ih (List.forall_mem_append.mpr ⟨fun s hs' => ?_, hrest⟩) hb
        exact (h.plan_within t s hs').mono (nodes_subset_nodesAll hs)
      | emit line text scan kind =>
        exact (hb.emit h line text hs kind).bind fun b' hb' => ih hrest hb'
      | declare t => exact (hb.declare h t).bind fun b' hb' => ih hrest hb'
      | bind name type => exact ih hrest (hb.bind hs name)

end Place.Faithful

/-- The call sites of a lowered body stand for calls in it. -/
theorem lower_stands (h : p.Spaceless) (m : Method) {params : List (String × String)}
    (hparams : ∀ e ∈ params, Text.Spaceless e.2) (body : List Tree) :
    Ensures (p.lower m params body) fun code =>
      ∀ i ∈ code, p.StandsIn (nodesAll body) i.calls := by
  have hsteps : ∀ s ∈ body.map Step.visit, s.Within (nodesAll body) := by
    intro s hs
    obtain ⟨t, ht, rfl⟩ := List.mem_map.mp hs
    exact (sublist_nodesAll body).subset ht
  refine (Place.Faithful.run h (weightOf body) hsteps ⟨?locals, ?known, ?sites⟩).bind
    fun b hb => Ensures.pure ?_
  case locals =>
    intro e he
    obtain ⟨param, hparam, rfl⟩ := List.mem_map.mp (List.mem_reverse.mp he)
    exact clear_some (hparams param hparam)
  case known => exact fun e he => by cases he
  case sites => exact fun i hi => by cases hi
  unfold closeCode
  split
  · refine List.forall_mem_append.mpr ⟨hb.sites, List.forall_mem_singleton.mpr ?_⟩
    exact fun s hs => by cases hs
  · exact hb.sites

end ServiceReach.Index

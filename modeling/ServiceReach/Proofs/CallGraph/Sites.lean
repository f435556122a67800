import ServiceReach.Proofs.CallGraph.Targets

/-
  What a graph records about call sites. Adding the edges of a site leaves the reached methods
  alone, queues the targets that were not reached, and records the targets of the site: after any
  list of sites has been added, in any order and with repetitions, the graph holds for each of them
  exactly its targets, and nothing else (`Records`).
-/

namespace ServiceReach.CallGraph

variable {p : Program}

/-! ## Adding targets -/

theorem addTarget_of_key {sites : List (CallSite × List Method)} {s : CallSite}
    {targets : List Method} {t : Method} (hkeys : (sites.map Prod.fst).Nodup)
    (hs : (s, targets) ∈ sites) (ht : t ∈ targets) : addTarget s t sites = sites := by
  induction sites with
  | nil => cases hs
  | cons e sites ih =>
    obtain ⟨s', targets'⟩ := e
    rw [List.map_cons, List.nodup_cons] at hkeys
    rw [addTarget]
    rcases List.mem_cons.mp hs with he | hs
    · injection he with h1 h2
      subst h1 h2
      rw [if_pos rfl, Method.insertNew_of_any (Method.any_same_of_mem ht)]
    · have hne : s' ≠ s := by
        intro he
        exact hkeys.1 (he ▸ List.mem_map.mpr ⟨_, hs, rfl⟩)
      rw [if_neg hne, ih hkeys.2 hs]

theorem addTarget_append {sites rest : List (CallSite × List Method)} {s : CallSite}
    (t : Method) (hs : s ∉ sites.map Prod.fst) :
    addTarget s t (sites ++ rest) = sites ++ addTarget s t rest := by
  induction sites with
  | nil => rfl
  | cons e sites ih =>
    obtain ⟨s', targets'⟩ := e
    rw [List.map_cons, List.mem_cons, not_or] at hs
    rw [List.cons_append, addTarget, if_neg (Ne.symm hs.1), ih hs.2, List.cons_append]

theorem foldl_addTarget_append {sites : List (CallSite × List Method)} {s : CallSite}
    (hs : s ∉ sites.map Prod.fst) (targets added : List Method) :
    added.foldl (fun l t => addTarget s t l) (sites ++ [(s, targets)]) =
      sites ++ [(s, added.foldl Method.insertNew targets)] := by
  induction added generalizing targets with
  | nil => rfl
  | cons t added ih =>
    rw [List.foldl_cons, addTarget_append t hs, addTarget, if_pos rfl, ih, List.foldl_cons]

/-- The list of sites with the targets of a site added. -/
def record (p : Program) (sites : List (CallSite × List Method)) (s : CallSite) :
    List (CallSite × List Method) :=
  (p.targets s).value.foldl (fun l t => addTarget s t l) sites

theorem record_of_key {sites : List (CallSite × List Method)} {s : CallSite}
    (hkeys : (sites.map Prod.fst).Nodup) (hs : (s, (p.targets s).value) ∈ sites) :
    record p sites s = sites := by
  have hstep : ∀ added : List Method, (∀ t ∈ added, t ∈ (p.targets s).value) →
      added.foldl (fun l t => addTarget s t l) sites = sites := by
    intro added
    induction added with
    | nil => intro _; rfl
    | cons t added ih =>
      intro hsub
      rw [List.foldl_cons, addTarget_of_key hkeys hs (hsub t List.mem_cons_self)]
      exact ih fun u hu => hsub u (List.mem_cons_of_mem t hu)
  exact hstep _ fun t ht => ht

theorem record_of_not_key {sites : List (CallSite × List Method)} {s : CallSite}
    (hs : s ∉ sites.map Prod.fst) :
    record p sites s =
      sites ++ if (p.targets s).value = [] then [] else [(s, (p.targets s).value)] := by
  have hdistinct := p.distinct_targets s
  unfold record
  cases htargets : (p.targets s).value with
  | nil => simp
  | cons t targets =>
    rw [htargets] at hdistinct
    have hfirst : addTarget s t sites = sites ++ [(s, [t])] := by
      conv_lhs => rw [← List.append_nil sites, addTarget_append t hs]
      rfl
    rw [List.foldl_cons, hfirst, foldl_addTarget_append hs,
      Method.foldl_insertNew_of_distinct hdistinct, if_neg (List.cons_ne_nil t targets)]
    rfl

/-! ## What is recorded -/

/-- The sites of a graph hold the targets of exactly the sites in `done`. -/
structure Records (p : Program) (done : List CallSite) (sites : List (CallSite × List Method)) :
    Prop where
  keys : (sites.map Prod.fst).Nodup
  sound : ∀ s targets, (s, targets) ∈ sites → s ∈ done ∧ targets = (p.targets s).value
  complete : ∀ s ∈ done, (p.targets s).value ≠ [] → (s, (p.targets s).value) ∈ sites

theorem Records.nil (p : Program) : Records p [] [] :=
  ⟨List.nodup_nil, fun _ _ h => absurd h List.not_mem_nil, fun _ h => absurd h List.not_mem_nil⟩

theorem Records.of_key {done : List CallSite} {sites : List (CallSite × List Method)}
    {s : CallSite} (h : Records p done sites) (hs : (s, (p.targets s).value) ∈ sites) :
    Records p (done ++ [s]) sites := by
  refine ⟨h.keys, ?_, ?_⟩
  · intro s' targets hmem
    obtain ⟨hdone, heq⟩ := h.sound s' targets hmem
    exact ⟨List.mem_append_left _ hdone, heq⟩
  · intro s' hs' hne
    rcases List.mem_append.mp hs' with hs' | hs'
    · exact h.complete s' hs' hne
    · rwa [List.mem_singleton.mp hs']

theorem Records.of_not_key {done : List CallSite} {sites : List (CallSite × List Method)}
    {s : CallSite} (h : Records p done sites) (hs : s ∉ sites.map Prod.fst) :
    Records p (done ++ [s])
      (sites ++ if (p.targets s).value = [] then [] else [(s, (p.targets s).value)]) := by
  have hnew : ∀ s' targets, (s', targets) ∈
      (if (p.targets s).value = [] then [] else [(s, (p.targets s).value)]) →
      s' = s ∧ targets = (p.targets s).value := by
    intro s' targets hmem
    split at hmem
    · cases hmem
    · injection List.mem_singleton.mp hmem with h1 h2
      exact ⟨h1, h2⟩
  refine ⟨?_, ?_, ?_⟩
  · split
    · rw [List.append_nil]
      exact h.keys
    · rw [List.map_append, List.map_singleton]
      exact h.keys.append (List.nodup_singleton s) (List.disjoint_singleton.mpr hs)
  · intro s' targets hmem
    rcases List.mem_append.mp hmem with hmem | hmem
    · obtain ⟨hdone, heq⟩ := h.sound s' targets hmem
      exact ⟨List.mem_append_left _ hdone, heq⟩
    · obtain ⟨rfl, rfl⟩ := hnew s' targets hmem
      exact ⟨List.mem_append_right _ List.mem_cons_self, rfl⟩
  · intro s' hs' hne
    rcases List.mem_append.mp hs' with hs' | hs'
    · exact List.mem_append_left _ (h.complete s' hs' hne)
    · rw [List.mem_singleton.mp hs'] at hne ⊢
      rw [if_neg hne]
      exact List.mem_append_right _ List.mem_cons_self

theorem Records.record {done : List CallSite} {sites : List (CallSite × List Method)}
    (h : Records p done sites) (s : CallSite) :
    Records p (done ++ [s]) (CallGraph.record p sites s) := by
  by_cases hs : s ∈ sites.map Prod.fst
  · obtain ⟨⟨s', targets⟩, hmem, rfl⟩ := List.mem_map.mp hs
    have heq := (h.sound s' targets hmem).2
    rw [heq] at hmem
    rw [record_of_key h.keys hmem]
    exact h.of_key hmem
  · rw [record_of_not_key hs]
    exact h.of_not_key hs

theorem Records.foldl_record {done : List CallSite} {sites : List (CallSite × List Method)}
    (h : Records p done sites) (added : List CallSite) :
    Records p (done ++ added) (added.foldl (CallGraph.record p) sites) := by
  induction added generalizing done sites with
  | nil => rwa [List.append_nil]
  | cons s added ih =>
    rw [List.append_cons]
    exact ih (h.record s)

/-! ## Edges and targets of a graph -/

theorem mem_edges_iff {g : CallGraph} {done : List CallSite} (h : Records p done g.sites)
    {s : CallSite} {t : Method} :
    (s, t) ∈ g.edges ↔ s ∈ done ∧ t ∈ (p.targets s).value := by
  unfold edges
  rw [List.mem_flatMap]
  constructor
  · rintro ⟨⟨s', targets⟩, hmem, ht⟩
    obtain ⟨t', ht', heq⟩ := List.mem_map.mp ht
    injection heq with h1 h2
    subst h1 h2
    obtain ⟨hdone, rfl⟩ := h.sound s' targets hmem
    exact ⟨hdone, ht'⟩
  · rintro ⟨hs, ht⟩
    exact ⟨_, h.complete s hs (List.ne_nil_of_mem ht), List.mem_map.mpr ⟨t, ht, rfl⟩⟩

theorem targets_eq {g : CallGraph} {done : List CallSite} (h : Records p done g.sites)
    {s : CallSite} (hs : s ∈ done) : g.targets s = (p.targets s).value := by
  unfold targets
  cases hl : g.sites.lookup s with
  | some targets =>
    obtain ⟨l₁, l₂, hsites, _⟩ := List.lookup_eq_some_iff.mp hl
    have hmem : (s, targets) ∈ g.sites := by rw [hsites]; simp
    exact (h.sound s targets hmem).2
  | none =>
    -- A site of `done` without an entry has no targets.
    rw [Option.getD_none]
    by_contra hne
    have hmem := h.complete s hs (Ne.symm hne)
    have := List.lookup_eq_none_iff.mp hl _ hmem
    simp at this

/-- No call site has two edges to targets of one signature. -/
theorem nodup_edges {g : CallGraph} {done : List CallSite} (h : Records p done g.sites) :
    (g.edges.map fun e => (e.1, e.2.signature)).Nodup := by
  unfold edges
  rw [List.map_flatMap, List.nodup_flatMap]
  constructor
  · rintro ⟨s, targets⟩ hmem
    have hdistinct : (targets.map Method.signature).Nodup := by
      rw [(h.sound s targets hmem).2]
      exact p.distinct_targets s
    dsimp only
    rw [List.map_map]
    have : ((targets.map Method.signature).map fun name => (s, name)).Nodup :=
      hdistinct.map fun a b hab => (Prod.mk.inj hab).2
    rwa [List.map_map] at this
  · have hkeys : g.sites.Pairwise fun a b => a.1 ≠ b.1 := List.pairwise_map.mp h.keys
    refine hkeys.imp ?_
    rintro ⟨s, targets⟩ ⟨s', targets'⟩ hne
    intro e he he'
    simp only [List.map_map, List.mem_map] at he he'
    obtain ⟨t, _, rfl⟩ := he
    obtain ⟨t', _, heq⟩ := he'
    exact hne (Prod.mk.inj heq).1.symm

/-! ## Adding the edges of call sites -/

theorem foldl_addCall (s : CallSite) (targets : List Method) (g : CallGraph)
    (found : List Method) :
    targets.foldl (addCall s) (g, found) =
      ({ g with sites := targets.foldl (fun l t => addTarget s t l) g.sites },
        found ++ targets.filter fun t => !g.isReachable t) := by
  induction targets generalizing g found with
  | nil => simp
  | cons t targets ih =>
    rw [List.foldl_cons, addCall, ih, List.foldl_cons, List.filter_cons]
    have hreach : ∀ u, (g.addEdge s t).isReachable u = g.isReachable u := fun _ => rfl
    simp only [hreach]
    cases g.isReachable t with
    | true => rfl
    | false => simp [addEdge]

theorem foldl_addSite (p : Program) (added : List CallSite) (g : CallGraph)
    (found : List Method) :
    added.foldl (addSite p) (g, found) =
      ({ g with sites := added.foldl (record p) g.sites },
        found ++ (added.flatMap fun s => (p.targets s).value).filter fun t => !g.isReachable t) := by
  induction added generalizing g found with
  | nil => simp
  | cons s added ih =>
    rw [List.foldl_cons, addSite, foldl_addCall, ih, List.foldl_cons, List.flatMap_cons,
      List.filter_append, List.append_assoc]
    rfl

end ServiceReach.CallGraph

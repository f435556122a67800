import Mathlib.Data.List.Flatten
import Mathlib.Data.List.Perm.Subperm
import Mathlib.Logic.Relation
import ServiceReach.Proofs.CallGraph.Sites

/-
  The graph that is built from entry methods is the least closed one. The invariant of the rounds
  (`Invariant`) ties queue, reached methods and recorded sites together: a method that is queued or
  reached follows from an entry method, and what a reached method calls is queued or reached. A
  method is reached by its signature but expanded as the object that was queued first; nothing is
  assumed about two methods of one signature. Each round either drops a method from the queue or
  reaches a new one, which queues no more methods than it has call sites and targets for them, so
  the rounds come to an end within `expandBound`.
-/

namespace ServiceReach

/-- The method `m` has a call site that may call `t`. -/
def Program.Calls (p : Program) (m t : Method) : Prop :=
  ∃ s ∈ m.sites, t ∈ (p.targets s).value

namespace CallGraph

variable {p : Program} {entries queue : List Method} {g : CallGraph}

theorem isReachable_iff {m : Method} :
    g.isReachable m = true ↔ ∃ n ∈ g.reachable, n.signature = m.signature :=
  Method.any_same_iff

theorem isReachable_of_mem {m : Method} (h : m ∈ g.reachable) : g.isReachable m = true :=
  Method.any_same_of_mem h

/-- The step of a chain: from a method that was reached to one that it may call. -/
def Leads (p : Program) (g : CallGraph) (m t : Method) : Prop :=
  m ∈ g.reachable ∧ p.Calls m t

/-! ## One round -/

/-- The graph in which `m` is reached and its call sites are recorded. -/
def expanded (p : Program) (g : CallGraph) (m : Method) : CallGraph where
  sites := m.sites.foldl (record p) g.sites
  reachable := g.reachable ++ [m]

/-- The methods that are queued when `m` is expanded. -/
def queued (p : Program) (g : CallGraph) (m : Method) : List Method :=
  (m.sites.flatMap fun s => (p.targets s).value).filter fun t => !(expanded p g m).isReachable t

/-- A round drops the first method of the queue, if its signature was reached, or expands it. -/
theorem round_cases {state state' : List Method × CallGraph} (h : round p state = some state') :
    ∃ m queue g, state = (m :: queue, g) ∧
      ((g.isReachable m = true ∧ state' = (queue, g)) ∨
        (¬ g.isReachable m = true ∧ state' = (queue ++ queued p g m, expanded p g m))) := by
  obtain ⟨queue, g⟩ := state
  cases queue with
  | nil => cases h
  | cons m queue =>
    refine ⟨m, queue, g, rfl, ?_⟩
    rw [round] at h
    by_cases hm : g.isReachable m = true
    · rw [if_pos hm] at h
      exact Or.inl ⟨hm, (Option.some.inj h).symm⟩
    · rw [if_neg hm, foldl_addSite] at h
      have hmark : (g.mark m).reachable = g.reachable ++ [m] := Method.insertNew_of_not_any hm
      have hreach : ∀ t, (g.mark m).isReachable t = (expanded p g m).isReachable t := by
        intro t
        unfold isReachable
        rw [hmark]
        rfl
      refine Or.inr ⟨hm, ?_⟩
      rw [← Option.some.inj h]
      simp only [hreach, List.nil_append, hmark]
      rfl

theorem mem_queued {m t : Method} :
    t ∈ queued p g m ↔ p.Calls m t ∧ ¬ (expanded p g m).isReachable t = true := by
  unfold queued Program.Calls
  rw [List.mem_filter, List.mem_flatMap, Bool.not_eq_true', Bool.not_eq_true]

theorem length_queued_le (p : Program) (g : CallGraph) (m : Method) :
    (queued p g m).length ≤ m.sites.length * (p.types.length + 1) := by
  have htargets : ∀ sites : List CallSite,
      (sites.flatMap fun s => (p.targets s).value).length ≤
        sites.length * (p.types.length + 1) := by
    intro sites
    induction sites with
    | nil => simp
    | cons s sites ih =>
      have := p.length_targets_le s
      rw [List.flatMap_cons, List.length_append, List.length_cons, Nat.succ_mul]
      omega
  exact Nat.le_trans (List.length_filter_le _ _) (htargets m.sites)

/-! ## The invariant -/

/-- What holds between two rounds. -/
structure Invariant (p : Program) (entries : List Method) (state : List Method × CallGraph) :
    Prop where
  distinct : Method.Distinct state.2.reachable
  records : Records p (state.2.reachable.flatMap Method.sites) state.2.sites
  started : ∀ e ∈ entries, e ∈ state.1 ∨ state.2.isReachable e = true
  derived : ∀ m, m ∈ state.1 ∨ m ∈ state.2.reachable →
    ∃ e ∈ entries, Relation.ReflTransGen (Leads p state.2) e m
  closed : ∀ m ∈ state.2.reachable, ∀ t, p.Calls m t → t ∈ state.1 ∨ state.2.isReachable t = true

theorem invariant_start (p : Program) (entries : List Method) :
    Invariant p entries (entries, {}) where
  distinct := Method.distinct_nil
  records := Records.nil p
  started := fun e he => Or.inl he
  derived := by
    intro m hm
    rcases hm with hm | hm
    · exact ⟨m, hm, .refl⟩
    · cases hm
  closed := fun m hm => absurd hm List.not_mem_nil

theorem Invariant.skip {m : Method} (h : Invariant p entries (m :: queue, g))
    (hm : g.isReachable m = true) : Invariant p entries (queue, g) where
  distinct := h.distinct
  records := h.records
  started := by
    intro e he
    rcases h.started e he with hq | hr
    · rcases List.mem_cons.mp hq with rfl | hq
      · exact Or.inr hm
      · exact Or.inl hq
    · exact Or.inr hr
  derived := by
    intro n hn
    rcases hn with hn | hn
    · exact h.derived n (Or.inl (List.mem_cons_of_mem m hn))
    · exact h.derived n (Or.inr hn)
  closed := by
    intro n hn t ht
    rcases h.closed n hn t ht with hq | hr
    · rcases List.mem_cons.mp hq with rfl | hq
      · exact Or.inr hm
      · exact Or.inl hq
    · exact Or.inr hr

theorem mem_expanded {m n : Method} :
    n ∈ (expanded p g m).reachable ↔ n ∈ g.reachable ∨ n = m := by
  simp [expanded]

theorem isReachable_expanded {m t : Method} (h : g.isReachable t = true) :
    (expanded p g m).isReachable t = true := by
  obtain ⟨n, hn, heq⟩ := isReachable_iff.mp h
  exact isReachable_iff.mpr ⟨n, mem_expanded.mpr (Or.inl hn), heq⟩

/-- A chain of the graph is one of the graph in which `m` is reached too. -/
theorem leads_expanded {m e n : Method} (h : Relation.ReflTransGen (Leads p g) e n) :
    Relation.ReflTransGen (Leads p (expanded p g m)) e n :=
  Relation.ReflTransGen.mono (fun _ _ hl => ⟨mem_expanded.mpr (Or.inl hl.1), hl.2⟩) _ _ h

theorem Invariant.visit {m : Method} (h : Invariant p entries (m :: queue, g))
    (hm : ¬ g.isReachable m = true) :
    Invariant p entries (queue ++ queued p g m, expanded p g m) where
  distinct := Method.distinct_append_singleton.mpr ⟨h.distinct, hm⟩
  records := by
    have hrec := h.records.foldl_record m.sites
    have hdone : (expanded p g m).reachable.flatMap Method.sites =
        g.reachable.flatMap Method.sites ++ m.sites := by
      simp [expanded]
    rw [hdone]
    exact hrec
  started := by
    intro e he
    rcases h.started e he with hq | hr
    · rcases List.mem_cons.mp hq with rfl | hq
      · exact Or.inr (isReachable_of_mem (mem_expanded.mpr (Or.inr rfl)))
      · exact Or.inl (List.mem_append_left _ hq)
    · exact Or.inr (isReachable_expanded hr)
  derived := by
    obtain ⟨e, he, hchain⟩ := h.derived m (Or.inl List.mem_cons_self)
    intro n hn
    rcases hn with hn | hn
    · rcases List.mem_append.mp hn with hn | hn
      · obtain ⟨e', he', hchain'⟩ := h.derived n (Or.inl (List.mem_cons_of_mem m hn))
        exact ⟨e', he', leads_expanded hchain'⟩
      · refine ⟨e, he, (leads_expanded hchain).tail ⟨?_, (mem_queued.mp hn).1⟩⟩
        exact mem_expanded.mpr (Or.inr rfl)
    · rcases mem_expanded.mp hn with hn | rfl
      · obtain ⟨e', he', hchain'⟩ := h.derived n (Or.inr hn)
        exact ⟨e', he', leads_expanded hchain'⟩
      · exact ⟨e, he, leads_expanded hchain⟩
  closed := by
    intro n hn t ht
    by_cases hreach : (expanded p g m).isReachable t = true
    · exact Or.inr hreach
    · -- Only `m` left the queue, and `m` is reached now.
      refine Or.inl ?_
      rcases mem_expanded.mp hn with hn | rfl
      · rcases h.closed n hn t ht with hq | hr
        · rcases List.mem_cons.mp hq with rfl | hq
          · exact absurd (isReachable_of_mem (mem_expanded.mpr (Or.inr rfl))) hreach
          · exact List.mem_append_left _ hq
        · exact absurd (isReachable_expanded hr) hreach
      · exact List.mem_append_right _ (mem_queued.mpr ⟨ht, hreach⟩)

theorem Invariant.round {state state' : List Method × CallGraph} (h : Invariant p entries state)
    (hround : CallGraph.round p state = some state') : Invariant p entries state' := by
  obtain ⟨m, queue, g, rfl, ⟨hm, rfl⟩ | ⟨hm, rfl⟩⟩ := round_cases hround
  · exact h.skip hm
  · exact h.visit hm

/-! ## The rounds come to an end -/

/-- Rounds lead from one queue and graph to another. -/
def Rounds (p : Program) : List Method × CallGraph → List Method × CallGraph → Prop :=
  Relation.ReflTransGen fun state state' => CallGraph.round p state = some state'

theorem rounds_expand (p : Program) (fuel : Nat) (state : List Method × CallGraph) :
    Rounds p state (expand p fuel state) := by
  induction fuel generalizing state with
  | zero => exact .refl
  | succ fuel ih =>
    rw [expand]
    cases hround : CallGraph.round p state with
    | none => exact .refl
    | some state' => exact .head hround (ih state')

theorem Invariant.rounds {state state' : List Method × CallGraph} (h : Invariant p entries state)
    (hrounds : Rounds p state state') : Invariant p entries state' := by
  induction hrounds with
  | refl => exact h
  | tail _ hround ih => exact ih.round hround

/-- How many methods the expansion of some methods can queue at most. -/
def room (p : Program) (methods : List Method) : Nat :=
  (methods.flatMap Method.sites).length * (p.types.length + 1)

theorem room_expanded (p : Program) (g : CallGraph) (m : Method) :
    room p (expanded p g m).reachable =
      room p g.reachable + m.sites.length * (p.types.length + 1) := by
  unfold room expanded
  rw [List.flatMap_append, List.flatMap_singleton, List.length_append, Nat.add_mul]

/-- A method that was reached is an entry method or one of the program. -/
theorem Invariant.mem_pool {state : List Method × CallGraph} (h : Invariant p entries state)
    {m : Method} (hm : m ∈ state.2.reachable) : m ∈ entries ++ p.methods := by
  obtain ⟨e, he, hchain⟩ := h.derived m (Or.inr hm)
  cases hchain with
  | refl => exact List.mem_append_left _ he
  | tail _ hlast =>
    obtain ⟨_, s, _, ht⟩ := hlast
    exact List.mem_append_right _ (Program.mem_methods_of_mem_targets ht)

theorem Invariant.room_le {state : List Method × CallGraph} (h : Invariant p entries state) :
    room p state.2.reachable ≤ room p (entries ++ p.methods) := by
  have hsub : List.Subperm state.2.reachable (entries ++ p.methods) :=
    List.Nodup.subperm h.distinct.nodup fun _ hm => h.mem_pool hm
  obtain ⟨l, hperm, hl⟩ := hsub
  have h1 := (hperm.flatMap_right Method.sites).length_eq
  have h2 := (hl.flatMap Method.sites).length_le
  exact Nat.mul_le_mul_right _ (h1 ▸ h2)

/-- A queue is worked off if the fuel is more than its length and what can still be queued. -/
theorem expand_queue_nil {fuel : Nat} {state : List Method × CallGraph}
    (h : Invariant p entries state)
    (hfuel : state.1.length + room p (entries ++ p.methods) <
      fuel + room p state.2.reachable) : (expand p fuel state).1 = [] := by
  induction fuel generalizing state with
  | zero =>
    -- What the reached methods can have queued is part of what all methods can queue.
    have := h.room_le
    omega
  | succ fuel ih =>
    rw [expand]
    cases hround : CallGraph.round p state with
    | none =>
      obtain ⟨queue, g⟩ := state
      cases queue with
      | nil => rfl
      | cons m queue =>
        rw [CallGraph.round] at hround
        split at hround
        · cases hround
        · cases hround
    | some state' =>
      refine ih (h.round hround) ?_
      obtain ⟨m, queue, g, rfl, ⟨_, rfl⟩ | ⟨_, rfl⟩⟩ := round_cases hround
      · dsimp only at hfuel ⊢
        rw [List.length_cons] at hfuel
        omega
      · have hlen := length_queued_le p g m
        dsimp only at hfuel ⊢
        rw [List.length_cons] at hfuel
        rw [List.length_append, room_expanded]
        omega

/-- The rounds from the entry methods on empty the queue and leave the built graph. -/
theorem rounds_build (p : Program) (entries : List Method) :
    Rounds p (entries, {}) ([], build p entries) := by
  have hnil : (expand p (expandBound p entries) (entries, {})).1 = [] := by
    refine expand_queue_nil (invariant_start p entries) ?_
    unfold expandBound room
    dsimp only
    omega
  have hrounds := rounds_expand p (expandBound p entries) (entries, {})
  have hstate : expand p (expandBound p entries) (entries, {}) = ([], build p entries) :=
    Prod.ext hnil rfl
  rwa [hstate] at hrounds

theorem invariant_build (p : Program) (entries : List Method) :
    Invariant p entries ([], build p entries) :=
  (invariant_start p entries).rounds (rounds_build p entries)

/-! ## The built graph -/

/-- The graph holds what follows from the entry methods and nothing else. -/
structure LeastClosed (p : Program) (entries : List Method) (g : CallGraph) : Prop where
  /-- Every entry method is reached. -/
  entry : ∀ e ∈ entries, g.isReachable e = true
  /-- Every call of a reached method has its edges, and their targets are reached. -/
  closed : ∀ m ∈ g.reachable, ∀ s ∈ m.sites, ∀ t ∈ (p.targets s).value,
    (s, t) ∈ g.edges ∧ g.isReachable t = true
  /-- Every reached method is the end of a chain of calls from an entry method. -/
  derived : ∀ m ∈ g.reachable, ∃ e ∈ entries, Relation.ReflTransGen (Leads p g) e m
  /-- Every edge is that of a call of a reached method. -/
  sound : ∀ s t, (s, t) ∈ g.edges → ∃ m ∈ g.reachable, s ∈ m.sites ∧ t ∈ (p.targets s).value
  /-- No call site has two edges to targets of one signature. -/
  nodup : (g.edges.map fun e => (e.1, e.2.signature)).Nodup

theorem leastClosed_of_invariant (h : Invariant p entries ([], g)) : LeastClosed p entries g where
  entry := by
    intro e he
    rcases h.started e he with hq | hr
    · cases hq
    · exact hr
  closed := by
    intro m hm s hs t ht
    refine ⟨(mem_edges_iff h.records).mpr ⟨List.mem_flatMap.mpr ⟨m, hm, hs⟩, ht⟩, ?_⟩
    rcases h.closed m hm t ⟨s, hs, ht⟩ with hq | hr
    · cases hq
    · exact hr
  derived := fun m hm => h.derived m (Or.inr hm)
  sound := by
    intro s t hedge
    obtain ⟨hs, ht⟩ := (mem_edges_iff h.records).mp hedge
    obtain ⟨m, hm, hs⟩ := List.mem_flatMap.mp hs
    exact ⟨m, hm, hs, ht⟩
  nodup := nodup_edges h.records

/-- Building a graph comes to an end, whatever the calls of the program are, and the graph is the
    least closed one. -/
theorem build_terminates_leastClosed (p : Program) (entries : List Method) :
    Rounds p (entries, {}) ([], build p entries) ∧ LeastClosed p entries (build p entries) :=
  ⟨rounds_build p entries, leastClosed_of_invariant (invariant_build p entries)⟩

end CallGraph
end ServiceReach

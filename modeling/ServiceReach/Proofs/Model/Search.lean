import Mathlib.Data.List.Nodup
import Mathlib.Logic.Relation
import ServiceReach.Model.Search

/-
  Breadth-first search reaches exactly what can be reached. Every node that a search visits follows
  from one in its queue (`reaches_of_mem_visitsFrom`). If the nodes that can be met lie in a list
  that is no longer than the number of visits, the search is never cut short: the nodes seen are
  those visited and those in the queue, each once, so when the visits are used up the queue is empty
  (`visitsFrom_closed`). Nothing is assumed of the neighbours, which may lead back.
-/

namespace ServiceReach.Search

variable {α : Type} [DecidableEq α] {next : α → List α}

/-- A path of neighbours leads from one node to another. -/
def Reaches (next : α → List α) : α → α → Prop :=
  Relation.ReflTransGen fun a b => b ∈ next a

/-! ## Fresh nodes -/

theorem nodup_eraseDups (l : List α) : l.eraseDups.Nodup := by
  -- On the length: what follows the first node is filtered before its duplicates are erased.
  induction hn : l.length using Nat.strongRecOn generalizing l with
  | ind n ih =>
    cases l with
    | nil => exact List.nodup_nil
    | cons a l =>
      rw [List.eraseDups_cons, List.nodup_cons]
      have hlen := List.length_filter_le (fun b => !b == a) l
      rw [List.length_cons] at hn
      refine ⟨?_, ih _ (by omega) _ rfl⟩
      simp [List.mem_eraseDups]

theorem mem_fresh {seen nodes : List α} {n : α} :
    n ∈ fresh seen nodes ↔ n ∈ nodes ∧ n ∉ seen := by
  unfold fresh
  simp [List.mem_eraseDups]

theorem nodup_append_fresh {seen : List α} (h : seen.Nodup) (nodes : List α) :
    (seen ++ fresh seen nodes).Nodup := by
  refine h.append (nodup_eraseDups _) ?_
  intro n hseen hfresh
  exact (mem_fresh.mp hfresh).2 hseen

theorem fresh_cons_of_mem {seen : List α} {n : α} (h : n ∈ seen) (nodes : List α) :
    fresh seen (n :: nodes) = fresh seen nodes := by
  unfold fresh
  rw [List.filter_cons_of_neg (by simpa using h)]

theorem fresh_cons_of_not_mem {seen : List α} {n : α} (h : n ∉ seen) (nodes : List α) :
    fresh seen (n :: nodes) = n :: fresh (n :: seen) nodes := by
  unfold fresh
  rw [List.filter_cons_of_pos (by simpa using h), List.eraseDups_cons, List.filter_filter]
  congr 2
  refine List.filter_congr fun m _ => ?_
  simp [Bool.not_or, Bool.beq_eq_decide_eq]

theorem fresh_append_of_subset {seen l : List α} (h : l ⊆ seen) (nodes : List α) :
    fresh seen (l ++ nodes) = fresh seen nodes := by
  induction l with
  | nil => rfl
  | cons n l ih =>
    rw [List.cons_append, fresh_cons_of_mem (h List.mem_cons_self), ih (List.subset_of_cons_subset h)]

/-! ## Visited nodes -/

theorem visitsFrom_congr {next next' : α → List α}
    (h : ∀ seen n, fresh seen (next n) = fresh seen (next' n)) (fuel : Nat)
    (seen queue : List α) : visitsFrom next fuel seen queue = visitsFrom next' fuel seen queue := by
  induction fuel generalizing seen queue with
  | zero => rfl
  | succ fuel ih =>
    cases queue with
    | nil => rfl
    | cons n queue => simp only [visitsFrom, h, ih]

theorem reaches_of_mem_visitsFrom {fuel : Nat} {seen queue : List α} {n : α}
    (h : n ∈ (visitsFrom next fuel seen queue).map (·.1)) :
    ∃ q ∈ queue, Reaches next q n := by
  induction fuel generalizing seen queue with
  | zero => cases h
  | succ fuel ih =>
    cases queue with
    | nil => cases h
    | cons q queue =>
      rw [visitsFrom, List.map_cons, List.mem_cons] at h
      rcases h with rfl | h
      · exact ⟨n, List.mem_cons_self, .refl⟩
      · obtain ⟨q', hq', hreach⟩ := ih h
        rcases List.mem_append.mp hq' with hq' | hq'
        · exact ⟨q', List.mem_cons_of_mem q hq', hreach⟩
        · exact ⟨q, List.mem_cons_self, .head (mem_fresh.mp hq').1 hreach⟩

/-- The search visits its queue and, from every visited node, all neighbours it has not seen. The
    nodes seen so far are the `done` ones that were visited and those in the queue. -/
theorem visitsFrom_closed {nodes : List α} (hnodes : ∀ n ∈ nodes, ∀ k ∈ next n, k ∈ nodes)
    (fuel done : Nat) {seen : List α} (queue : List α) (hseen : seen.Nodup)
    (hsub : ∀ n ∈ seen, n ∈ nodes) (hqueue : ∀ q ∈ queue, q ∈ seen)
    (hdone : seen.length = done + queue.length) (hfuel : nodes.length ≤ fuel + done) :
    (∀ q ∈ queue, q ∈ (visitsFrom next fuel seen queue).map (·.1)) ∧
      ∀ n ∈ (visitsFrom next fuel seen queue).map (·.1), ∀ k ∈ next n,
        k ∈ seen ∨ k ∈ (visitsFrom next fuel seen queue).map (·.1) := by
  induction fuel generalizing done seen queue with
  | zero =>
    have hlen := hseen.length_le_of_subset hsub
    have hempty : queue = [] := List.eq_nil_of_length_eq_zero (by omega)
    subst hempty
    exact ⟨fun q hq => absurd hq List.not_mem_nil, fun n hn => absurd hn List.not_mem_nil⟩
  | succ fuel ih =>
    cases queue with
    | nil => exact ⟨fun q hq => absurd hq List.not_mem_nil, fun n hn => absurd hn List.not_mem_nil⟩
    | cons q queue =>
      have hq : q ∈ nodes := hsub q (hqueue q List.mem_cons_self)
      have hstep := ih (done + 1) (queue ++ fresh seen (next q))
        (nodup_append_fresh hseen (next q)) ?_ ?_ ?_ (by omega)
      · obtain ⟨hvisit, hclosed⟩ := hstep
        rw [visitsFrom, List.map_cons]
        refine ⟨fun r hr => ?_, fun n hn k hk => ?_⟩
        · rcases List.mem_cons.mp hr with rfl | hr
          · exact List.mem_cons_self
          · exact List.mem_cons_of_mem _ (hvisit r (List.mem_append_left _ hr))
        · -- A neighbour was seen before, or is fresh at `q` and hence in the new queue.
          have hmet : k ∈ seen ++ fresh seen (next q) → k ∈ seen ∨ k ∈ q ::
              (visitsFrom next fuel (seen ++ fresh seen (next q))
                (queue ++ fresh seen (next q))).map (·.1) := by
            intro hk
            rcases List.mem_append.mp hk with hk | hk
            · exact Or.inl hk
            · exact Or.inr (List.mem_cons_of_mem _ (hvisit k (List.mem_append_right _ hk)))
          rcases List.mem_cons.mp hn with rfl | hn
          · refine hmet ?_
            by_cases hold : k ∈ seen
            · exact List.mem_append_left _ hold
            · exact List.mem_append_right _ (mem_fresh.mpr ⟨hk, hold⟩)
          · rcases hclosed n hn k hk with hk | hk
            · exact hmet hk
            · exact Or.inr (List.mem_cons_of_mem _ hk)
      · intro n hn
        rcases List.mem_append.mp hn with hn | hn
        · exact hsub n hn
        · exact hnodes q hq n (mem_fresh.mp hn).1
      · intro r hr
        rcases List.mem_append.mp hr with hr | hr
        · exact List.mem_append_left _ (hqueue r (List.mem_cons_of_mem q hr))
        · exact List.mem_append_right _ hr
      · rw [List.length_append, List.length_append, hdone, List.length_cons]
        omega

/-- A search with at least as many visits as there are nodes reaches what can be reached. -/
theorem mem_reached_iff {nodes : List α} (hnodes : ∀ n ∈ nodes, ∀ k ∈ next n, k ∈ nodes)
    {fuel : Nat} (hfuel : nodes.length ≤ fuel) {start n : α} (hstart : start ∈ nodes) :
    n ∈ reached next fuel start ↔ Reaches next start n := by
  unfold reached visits
  constructor
  · intro h
    obtain ⟨q, hq, hreach⟩ := reaches_of_mem_visitsFrom h
    rwa [List.mem_singleton.mp hq] at hreach
  · intro h
    obtain ⟨hvisit, hclosed⟩ := visitsFrom_closed hnodes fuel 0 [start]
      (List.nodup_singleton start)
      (fun n hn => List.mem_singleton.mp hn ▸ hstart) (fun q hq => hq) rfl hfuel
    have hmem := hvisit start List.mem_cons_self
    induction h with
    | refl => exact hmem
    | tail _ hk ih =>
      rcases hclosed _ ih _ hk with hk | hk
      · rwa [List.mem_singleton.mp hk]
      · exact hk

end ServiceReach.Search

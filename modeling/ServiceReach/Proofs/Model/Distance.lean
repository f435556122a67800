import Mathlib.Data.Nat.Find
import ServiceReach.Proofs.Model.Search

/-
  Breadth-first search goes outward. `Steps` counts the steps to neighbours that lead from one node
  to another. While a search runs, its queue holds what is left of one layer and, behind that, what
  it has met of the next one (`Layered`). So it visits the nodes in the order of their distance from
  the start (`reached_outward`), and none of them twice (`nodup_reached`). With at least as many
  visits as there are nodes it ends by itself, and further visits bring nothing (`visits_of_le`).
-/

namespace ServiceReach.Search

variable {α β : Type} {next : α → List α} {a b c : α} {n : Nat}

/-! ## Steps -/

/-- That many steps to neighbours lead from `a` to a node. -/
inductive Steps (next : α → List α) (a : α) : Nat → α → Prop
  | none : Steps next a 0 a
  | more {n : Nat} {b c : α} (h : Steps next a n b) (hc : c ∈ next b) : Steps next a (n + 1) c

/-- The node `b` is no farther from `a` than `c`. -/
def NoFarther (next : α → List α) (a b c : α) : Prop :=
  ∀ n, Steps next a n c → ∃ k, k ≤ n ∧ Steps next a k b

/-- That many steps lead from `a` to `b`, and not fewer. -/
def Distance (next : α → List α) (a : α) (n : Nat) (b : α) : Prop :=
  Steps next a n b ∧ ∀ k, Steps next a k b → n ≤ k

theorem reaches_iff_steps : Reaches next a b ↔ ∃ n, Steps next a n b := by
  constructor
  · intro h
    induction h with
    | refl => exact ⟨0, .none⟩
    | tail _ hstep ih =>
      obtain ⟨n, hn⟩ := ih
      exact ⟨n + 1, hn.more hstep⟩
  · rintro ⟨n, h⟩
    induction h with
    | none => exact .refl
    | more _ hc ih => exact ih.tail hc

theorem exists_distance (h : Reaches next a b) : ∃ n, Distance next a n b := by
  classical
  have hsteps : ∃ n, Steps next a n b := reaches_iff_steps.mp h
  exact ⟨Nat.find hsteps, Nat.find_spec hsteps, fun _ hk => Nat.find_min' hsteps hk⟩

theorem Distance.noFarther {i j : Nat} (hb : Distance next a i b) (hc : Distance next a j c)
    (hij : i ≤ j) : NoFarther next a b c :=
  fun n hn => ⟨i, Nat.le_trans hij (hc.2 n hn), hb.1⟩

/-- Where the neighbours of an image are the images of the neighbours, steps from an image are the
    images of steps. -/
theorem steps_map {f : α → β} {next' : β → List β} (hf : ∀ a, next' (f a) = (next a).map f)
    {b : β} : Steps next' (f a) n b ↔ ∃ c, Steps next a n c ∧ b = f c := by
  constructor
  · intro h
    induction h with
    | none => exact ⟨a, .none, rfl⟩
    | more _ hmem ih =>
      obtain ⟨c, hc, rfl⟩ := ih
      rw [hf] at hmem
      obtain ⟨d, hd, rfl⟩ := List.mem_map.mp hmem
      exact ⟨d, hc.more hd, rfl⟩
  · rintro ⟨c, hc, rfl⟩
    induction hc with
    | none => exact .none
    | more _ hmem ih =>
      refine ih.more ?_
      rw [hf]
      exact List.mem_map_of_mem hmem

theorem reaches_map {f : α → β} {next' : β → List β} (hf : ∀ a, next' (f a) = (next a).map f)
    {b : β} : Reaches next' (f a) b ↔ ∃ c, Reaches next a c ∧ b = f c := by
  simp only [reaches_iff_steps, steps_map hf]
  constructor
  · rintro ⟨n, c, hc, hb⟩
    exact ⟨c, ⟨n, hc⟩, hb⟩
  · rintro ⟨c, ⟨n, hc⟩, hb⟩
    exact ⟨n, c, hc, hb⟩

/-- Where moreover nodes have different images, the order of distances is that of the images. -/
theorem NoFarther.map {f : α → β} {next' : β → List β} (hf : ∀ a, next' (f a) = (next a).map f)
    (hinj : Function.Injective f) (h : NoFarther next a b c) :
    NoFarther next' (f a) (f b) (f c) := by
  intro n hn
  obtain ⟨d, hd, heq⟩ := (steps_map hf).mp hn
  obtain ⟨k, hk, hb⟩ := h n (hinj heq ▸ hd)
  exact ⟨k, hk, (steps_map hf).mpr ⟨b, hb, rfl⟩⟩

/-- A node without neighbours leads nowhere else. -/
theorem reaches_of_next_nil (h : next a = []) : Reaches next a b ↔ b = a := by
  constructor
  · intro hreach
    rcases Relation.ReflTransGen.cases_head hreach with heq | ⟨c, hc, _⟩
    · exact heq.symm
    · rw [h] at hc
      cases hc
  · rintro rfl
    exact .refl

/-! ## Lists of nodes, nearer ones first -/

/-- The nodes are at least as far away as `d`, and none is farther than one behind it. -/
structure Outward (next : α → List α) (start : α) (d : Nat) (nodes : List α) : Prop where
  far : ∀ n ∈ nodes, ∃ k, d ≤ k ∧ Distance next start k n
  sorted : nodes.Pairwise (NoFarther next start)

theorem outward_nil (next : α → List α) (start : α) (d : Nat) : Outward next start d [] :=
  ⟨fun _ hn => absurd hn List.not_mem_nil, List.Pairwise.nil⟩

theorem Outward.cons {start q : α} {d : Nat} {nodes : List α} (h : Outward next start d nodes)
    (hq : Distance next start d q) : Outward next start d (q :: nodes) := by
  refine ⟨List.forall_mem_cons.mpr ⟨⟨d, Nat.le_refl d, hq⟩, h.far⟩,
    List.pairwise_cons.mpr ⟨fun n hn => ?_, h.sorted⟩⟩
  obtain ⟨k, hk, hn⟩ := h.far n hn
  exact hq.noFarther hn hk

theorem Outward.of_succ {start : α} {d : Nat} {nodes : List α}
    (h : Outward next start (d + 1) nodes) : Outward next start d nodes := by
  refine ⟨fun n hn => ?_, h.sorted⟩
  obtain ⟨k, hk, hn⟩ := h.far n hn
  exact ⟨k, by omega, hn⟩

/-! ## Layers -/

/-- In a search from `start`, the queue is made up of what is left of the layer at distance `d` and
    of what was met of the layer behind it. Everything nearer than that was seen, and all neighbours
    of the nodes seen that are no longer in the queue were seen, too. -/
structure Layered (next : α → List α) (start : α) (d : Nat) (seen layer behind : List α) :
    Prop where
  here : ∀ n ∈ layer, Distance next start d n
  beyond : ∀ n ∈ behind, Distance next start (d + 1) n
  near : ∀ k n, k ≤ d → Steps next start k n → n ∈ seen
  closed : ∀ n ∈ seen, n ∈ layer ∨ n ∈ behind ∨ ∀ m ∈ next n, m ∈ seen

theorem layered_start (next : α → List α) (start : α) :
    Layered next start 0 [start] [start] [] := by
  have hstart : ∀ n, Steps next start 0 n → n = start := by
    intro n hn
    cases hn
    rfl
  refine ⟨fun n hn => ?_, fun n hn => absurd hn List.not_mem_nil, fun k n hk hn => ?_,
    fun n hn => Or.inl hn⟩
  · rw [List.mem_singleton.mp hn]
    exact ⟨.none, fun k _ => Nat.zero_le k⟩
  · obtain rfl : k = 0 := by omega
    rw [hstart n hn]
    exact List.mem_singleton_self start

variable [DecidableEq α]

/-- Visiting a node adds what it meets to the layer behind. -/
theorem Layered.visit {start : α} {d : Nat} {seen layer behind : List α} {q : α}
    (h : Layered next start d seen (q :: layer) behind) :
    Layered next start d (seen ++ fresh seen (next q)) layer (behind ++ fresh seen (next q)) := by
  have hq := h.here q List.mem_cons_self
  refine ⟨fun n hn => h.here n (List.mem_cons_of_mem q hn), fun n hn => ?_,
    fun k n hk hn => List.mem_append_left _ (h.near k n hk hn), fun n hn => ?_⟩
  · rcases List.mem_append.mp hn with hn | hn
    · exact h.beyond n hn
    · obtain ⟨hnext, hnew⟩ := mem_fresh.mp hn
      -- A node that was not seen is not near.
      refine ⟨hq.1.more hnext, fun k hk => ?_⟩
      by_contra hless
      exact hnew (h.near k n (by omega) hk)
  · rcases List.mem_append.mp hn with hn | hn
    · rcases h.closed n hn with hlayer | hbehind | hclosed
      · rcases List.mem_cons.mp hlayer with rfl | hlayer
        · refine Or.inr (Or.inr fun m hm => ?_)
          by_cases hold : m ∈ seen
          · exact List.mem_append_left _ hold
          · exact List.mem_append_right _ (mem_fresh.mpr ⟨hm, hold⟩)
        · exact Or.inl hlayer
      · exact Or.inr (Or.inl (List.mem_append_left _ hbehind))
      · exact Or.inr (Or.inr fun m hm => List.mem_append_left _ (hclosed m hm))
    · exact Or.inr (Or.inl (List.mem_append_right _ hn))

/-- When a layer is used up, everything in the layer behind it was met, and the search goes on
    there. -/
theorem Layered.advance {start : α} {d : Nat} {seen behind : List α}
    (h : Layered next start d seen [] behind) : Layered next start (d + 1) seen behind [] := by
  have hleft : ∀ n ∈ seen, n ∈ behind ∨ ∀ m ∈ next n, m ∈ seen := by
    intro n hn
    rcases h.closed n hn with hnone | hrest
    · cases hnone
    · exact hrest
  refine ⟨h.beyond, fun n hn => absurd hn List.not_mem_nil, fun k n hk hn => ?_, fun n hn => ?_⟩
  · rcases Nat.lt_or_ge k (d + 1) with hless | hge
    · exact h.near k n (by omega) hn
    · obtain rfl : k = d + 1 := by omega
      cases hn with
      | more hb hnext =>
        rename_i b
        rcases hleft b (h.near d b (Nat.le_refl d) hb) with hbehind | hclosed
        · have := (h.beyond b hbehind).2 d hb
          omega
        · exact hclosed n hnext
  · rcases hleft n hn with hbehind | hclosed
    · exact Or.inl hbehind
    · exact Or.inr (Or.inr hclosed)

/-- From a layer on, the search visits nodes that are at least as far away, nearer ones first. -/
theorem Layered.outward {start : α} {d : Nat} {seen layer behind : List α}
    (h : Layered next start d seen layer behind) (fuel : Nat) :
    Outward next start d ((visitsFrom next fuel seen (layer ++ behind)).map (·.1)) := by
  induction fuel generalizing d seen layer behind with
  | zero => exact outward_nil next start d
  | succ fuel ih =>
    cases layer with
    | cons q layer =>
      have hrest := ih h.visit
      rw [← List.append_assoc] at hrest
      exact hrest.cons (h.here q List.mem_cons_self)
    | nil =>
      cases behind with
      | nil => exact outward_nil next start d
      | cons q behind =>
        -- The layer is used up, so the next node is the first one of the layer behind.
        have hnext := h.advance
        have hrest := ih hnext.visit
        rw [List.nil_append] at hrest
        exact (hrest.cons (hnext.here q List.mem_cons_self)).of_succ

/-- A search visits nearer nodes first. -/
theorem reached_outward (next : α → List α) (fuel : Nat) (start : α) :
    (reached next fuel start).Pairwise (NoFarther next start) :=
  ((layered_start next start).outward fuel).sorted

/-! ## No node twice -/

theorem mem_queue_of_mem_visitsFrom {fuel : Nat} {seen queue : List α} {n : α}
    (h : n ∈ (visitsFrom next fuel seen queue).map (·.1)) : n ∈ queue ∨ n ∉ seen := by
  induction fuel generalizing seen queue with
  | zero => cases h
  | succ fuel ih =>
    cases queue with
    | nil => cases h
    | cons q queue =>
      rw [visitsFrom, List.map_cons, List.mem_cons] at h
      rcases h with rfl | h
      · exact Or.inl List.mem_cons_self
      · rcases ih h with hqueue | hnew
        · rcases List.mem_append.mp hqueue with hqueue | hfresh
          · exact Or.inl (List.mem_cons_of_mem q hqueue)
          · exact Or.inr (mem_fresh.mp hfresh).2
        · exact Or.inr fun hseen => hnew (List.mem_append_left _ hseen)

theorem nodup_visitsFrom {fuel : Nat} {seen queue : List α} (hqueue : queue.Nodup)
    (hseen : queue ⊆ seen) : ((visitsFrom next fuel seen queue).map (·.1)).Nodup := by
  induction fuel generalizing seen queue with
  | zero => exact List.nodup_nil
  | succ fuel ih =>
    cases queue with
    | nil => exact List.nodup_nil
    | cons q queue =>
      obtain ⟨hq, hqueue⟩ := List.nodup_cons.mp hqueue
      obtain ⟨hqseen, hseen⟩ := List.cons_subset.mp hseen
      rw [visitsFrom, List.map_cons, List.nodup_cons]
      refine ⟨fun hmem => ?_, ih ?_ ?_⟩
      · rcases mem_queue_of_mem_visitsFrom hmem with hmem | hnew
        · rcases List.mem_append.mp hmem with hmem | hfresh
          · exact hq hmem
          · exact (mem_fresh.mp hfresh).2 hqseen
        · exact hnew (List.mem_append_left _ hqseen)
      · refine hqueue.append (nodup_eraseDups _) fun n hn hfresh => ?_
        exact (mem_fresh.mp hfresh).2 (hseen hn)
      · refine List.append_subset.mpr ⟨fun n hn => List.mem_append_left _ (hseen hn), ?_⟩
        exact List.subset_append_right _ _

theorem nodup_reached (next : α → List α) (fuel : Nat) (start : α) :
    (reached next fuel start).Nodup :=
  nodup_visitsFrom (List.nodup_singleton start) (List.Subset.refl _)

/-! ## Enough visits -/

/-- A search that has as many visits as there are nodes left ends by itself. The nodes seen so far
    are the `done` ones that were visited and those in the queue. -/
theorem visitsFrom_of_le {nodes : List α} (hnodes : ∀ n ∈ nodes, ∀ k ∈ next n, k ∈ nodes)
    (fuel done : Nat) {seen : List α} (queue : List α) (hseen : seen.Nodup)
    (hsub : ∀ n ∈ seen, n ∈ nodes) (hqueue : ∀ q ∈ queue, q ∈ seen)
    (hdone : seen.length = done + queue.length) (hfuel : nodes.length ≤ fuel + done)
    {fuel' : Nat} (hle : fuel ≤ fuel') :
    visitsFrom next fuel' seen queue = visitsFrom next fuel seen queue := by
  induction fuel generalizing done seen queue fuel' with
  | zero =>
    have hlen := hseen.length_le_of_subset hsub
    obtain rfl : queue = [] := List.eq_nil_of_length_eq_zero (by omega)
    cases fuel' with
    | zero => rfl
    | succ fuel' => rfl
  | succ fuel ih =>
    obtain ⟨fuel', rfl⟩ := Nat.exists_eq_add_of_le hle
    rw [Nat.add_right_comm]
    cases queue with
    | nil => rfl
    | cons q queue =>
      have hq : q ∈ nodes := hsub q (hqueue q List.mem_cons_self)
      rw [visitsFrom, visitsFrom]
      congr 1
      refine ih (done + 1) _ (nodup_append_fresh hseen (next q)) ?_ ?_ ?_ (by omega) (by omega)
      · intro n hn
        rcases List.mem_append.mp hn with hn | hn
        · exact hsub n hn
        · exact hnodes q hq n (mem_fresh.mp hn).1
      · intro r hr
        rcases List.mem_append.mp hr with hr | hr
        · exact List.mem_append_left _ (hqueue r (List.mem_cons_of_mem q hr))
        · exact List.mem_append_right _ hr
      · rw [List.length_append, List.length_append, hdone, List.length_cons]
        omega

theorem visits_of_le {nodes : List α} (hnodes : ∀ n ∈ nodes, ∀ k ∈ next n, k ∈ nodes)
    {fuel fuel' : Nat} (hfuel : nodes.length ≤ fuel) {start : α} (hstart : start ∈ nodes)
    (hle : fuel ≤ fuel') : visits next fuel' start = visits next fuel start :=
  visitsFrom_of_le hnodes fuel 0 [start] (List.nodup_singleton start)
    (fun _ hn => List.mem_singleton.mp hn ▸ hstart) (fun _ hq => hq) rfl hfuel hle

theorem visits_of_next_nil {start : α} (h : next start = []) (fuel : Nat) :
    visits next (fuel + 1) start = [(start, [])] := by
  have hfresh : fresh [start] (next start) = [] := by
    rw [h]
    rfl
  unfold visits
  rw [visitsFrom, hfresh, List.append_nil, List.append_nil]
  cases fuel with
  | zero => rfl
  | succ fuel => rfl

end ServiceReach.Search

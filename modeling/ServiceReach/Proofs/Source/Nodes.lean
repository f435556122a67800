import Mathlib.Data.List.Flatten
import Mathlib.Data.List.Nodup
import Mathlib.Data.List.Pairwise
import Mathlib.Data.List.Perm.Subperm
import ServiceReach.Source.Tree

/-
  The nodes of a tree, in post-order. `outside stop` lists the nodes that are not inside a node of
  a kind at which to stop; the nodes at which it stops are listed themselves. Where the numbers of
  the nodes are distinct, what is inside such a node and what is outside of all have no number in
  common (`Distinct.setsApart`), and a node comes after what is inside it (`Distinct.pair_sublist`).
-/

namespace ServiceReach.Source.Tree

open scoped List

mutual

/-- The nodes that are not inside a node of a kind at which to stop, in post-order. -/
def outside (stop : Kind → Bool) : Tree → List Tree
  | .node label children =>
    (if stop label.kind then [] else outsideAll stop children) ++ [.node label children]

/-- The nodes of several trees that are not inside a node of a kind at which to stop. -/
def outsideAll (stop : Kind → Bool) : List Tree → List Tree
  | [] => []
  | t :: rest => outside stop t ++ outsideAll stop rest

end

/-- All nodes of a tree, in post-order. -/
def nodes (t : Tree) : List Tree :=
  t.outside fun _ => false

/-- All nodes of several trees, in post-order. -/
def nodesAll (ts : List Tree) : List Tree :=
  outsideAll (fun _ => false) ts

mutual

/-- The number of levels of a tree. -/
def depth : Tree → Nat
  | .node _ children => depthAll children + 1

/-- The number of levels of the deepest of several trees. -/
def depthAll : List Tree → Nat
  | [] => 0
  | t :: rest => max t.depth (depthAll rest)

end

variable {stop : Kind → Bool} {t u v w : Tree}

/-- What holds of a tree if it holds of its children holds of all trees. -/
@[elab_as_elim]
theorem forall_of_children {motive : Tree → Prop}
    (h : ∀ t : Tree, (∀ c ∈ t.children, motive c) → motive t) : ∀ t, motive t
  | .node label children => h (.node label children) fun c hc =>
    have hlt : sizeOf c < sizeOf (Tree.node label children) := by
      have hmem : sizeOf c < sizeOf children := List.sizeOf_lt_of_mem hc
      simp only [node.sizeOf_spec]
      omega
    forall_of_children h c
termination_by t => sizeOf t
decreasing_by exact hlt

/-- Induction over a tree and the lists of its children together. -/
theorem forall_of_forest {P : Tree → Prop} {Q : List Tree → Prop} (nil : Q [])
    (cons : ∀ t ts, P t → Q ts → Q (t :: ts)) (node : ∀ t : Tree, Q t.children → P t) (t : Tree) :
    P t := by
  induction t using forall_of_children with
  | h t ih =>
    refine node t ?_
    have hpart : ∀ ts ⊆ t.children, Q ts := by
      intro ts
      induction ts with
      | nil => exact fun _ => nil
      | cons c ts ihts =>
        intro hts
        obtain ⟨hc, hts⟩ := List.cons_subset.mp hts
        exact cons c ts (ih c hc) (ihts hts)
    exact hpart t.children (List.Subset.refl _)

theorem outsideAll_eq (stop : Kind → Bool) (ts : List Tree) :
    outsideAll stop ts = ts.flatMap (outside stop) := by
  induction ts with
  | nil => rfl
  | cons t ts ih => rw [outsideAll, ih, List.flatMap_cons]

theorem outside_eq (stop : Kind → Bool) (t : Tree) :
    t.outside stop = (if stop t.kind then [] else outsideAll stop t.children) ++ [t] := by
  cases t
  rfl

theorem nodes_eq (t : Tree) : t.nodes = nodesAll t.children ++ [t] := by
  cases t
  rfl

theorem nodesAll_eq (ts : List Tree) : nodesAll ts = ts.flatMap nodes :=
  outsideAll_eq _ ts

theorem mem_nodes_self (t : Tree) : t ∈ t.nodes := by
  rw [nodes_eq]
  exact List.mem_append_right _ List.mem_cons_self

theorem mem_nodes_iff : u ∈ t.nodes ↔ u = t ∨ ∃ c ∈ t.children, u ∈ c.nodes := by
  rw [nodes_eq, List.mem_append, List.mem_singleton, nodesAll_eq, List.mem_flatMap, or_comm]

theorem mem_nodes_of_mem_children (h : u ∈ t.children) : u ∈ t.nodes :=
  mem_nodes_iff.mpr (Or.inr ⟨u, h, mem_nodes_self u⟩)

/-! ## Nodes outside -/

/-- The further out it stops, the fewer nodes are outside. -/
theorem outside_sublist {stop' : Kind → Bool} (h : ∀ k, stop k = true → stop' k = true)
    (t : Tree) : t.outside stop' <+ t.outside stop := by
  induction t using forall_of_children with
  | h t ih =>
    rw [outside_eq, outside_eq]
    refine List.Sublist.append ?_ (List.Sublist.refl _)
    by_cases hstop' : stop' t.kind = true
    · rw [if_pos hstop']
      exact List.nil_sublist _
    · rw [if_neg hstop', if_neg (mt (h t.kind) hstop'), outsideAll_eq, outsideAll_eq]
      exact List.Sublist.flatMap_right _ ih

theorem outside_sublist_nodes (stop : Kind → Bool) (t : Tree) : t.outside stop <+ t.nodes := by
  unfold nodes
  exact outside_sublist (fun _ h => absurd h Bool.false_ne_true) t

theorem outsideAll_sublist_nodesAll (stop : Kind → Bool) (ts : List Tree) :
    outsideAll stop ts <+ nodesAll ts := by
  rw [outsideAll_eq, nodesAll_eq]
  exact List.Sublist.flatMap_right _ fun t _ => outside_sublist_nodes stop t

theorem mem_outside (hu : u ∈ t.nodes)
    (h : ∀ v ∈ t.nodes, stop v.kind = true → u ∉ nodesAll v.children) : u ∈ t.outside stop := by
  induction t using forall_of_children with
  | h t ih =>
    rw [outside_eq]
    rcases mem_nodes_iff.mp hu with rfl | ⟨c, hc, hu⟩
    · exact List.mem_append_right _ List.mem_cons_self
    · have hinside : u ∈ nodesAll t.children := by
        rw [nodesAll_eq]
        exact List.mem_flatMap.mpr ⟨c, hc, hu⟩
      have hopen : ¬ stop t.kind = true := fun hstop => h t (mem_nodes_self t) hstop hinside
      rw [if_neg hopen, outsideAll_eq]
      refine List.mem_append_left _ (List.mem_flatMap.mpr ⟨c, hc, ih c hc hu fun v hv => ?_⟩)
      exact h v (mem_nodes_iff.mpr (Or.inr ⟨c, hc, hv⟩))

/-! ## Nodes inside -/

theorem nodes_sublist_nodesAll {ts : List Tree} (h : t ∈ ts) : t.nodes <+ nodesAll ts := by
  rw [nodesAll_eq, List.flatMap_def]
  exact List.sublist_flatten_of_mem (List.mem_map_of_mem h)

theorem sublist_nodesAll (ts : List Tree) : ts <+ nodesAll ts := by
  have hsingle : ts.flatMap (fun t => [t]) <+ nodesAll ts := by
    rw [nodesAll_eq]
    exact List.Sublist.flatMap_right ts fun t _ => List.singleton_sublist.mpr (mem_nodes_self t)
  rwa [List.flatMap_singleton'] at hsingle

theorem nodesAll_children_sublist (t : Tree) : nodesAll t.children <+ t.nodes := by
  rw [nodes_eq]
  exact List.sublist_append_left _ _

theorem nodes_sublist (hv : v ∈ t.nodes) : v.nodes <+ t.nodes := by
  induction t using forall_of_children with
  | h t ih =>
    rcases mem_nodes_iff.mp hv with rfl | ⟨c, hc, hv⟩
    · exact List.Sublist.refl _
    · exact ((ih c hc hv).trans (nodes_sublist_nodesAll hc)).trans (nodesAll_children_sublist t)

theorem mem_nodesAll_of_inside {ts : List Tree} (hv : v ∈ nodesAll ts)
    (hu : u ∈ nodesAll v.children) : u ∈ nodesAll ts := by
  rw [nodesAll_eq] at hv
  obtain ⟨t, ht, hv⟩ := List.mem_flatMap.mp hv
  exact (nodes_sublist_nodesAll ht).subset
    ((nodes_sublist hv).subset ((nodesAll_children_sublist v).subset hu))

/-- The numbers of the nodes are distinct. -/
def Distinct (ts : List Tree) : Prop :=
  ((nodesAll ts).map id).Nodup

theorem Distinct.eq {ts : List Tree} (h : Distinct ts) (hu : u ∈ nodesAll ts)
    (hv : v ∈ nodesAll ts) (hid : u.id = v.id) : u = v :=
  List.inj_on_of_nodup_map h hu hv hid

theorem Distinct.nodup {ts : List Tree} (h : Distinct ts) : (nodesAll ts).Nodup :=
  List.Nodup.of_map id h

theorem Distinct.nodup_roots {ts : List Tree} (h : Distinct ts) : ts.Nodup :=
  h.nodup.sublist (sublist_nodesAll ts)

theorem Distinct.of_mem {ts : List Tree} (h : Distinct ts) (ht : t ∈ ts) : Distinct [t] := by
  unfold Distinct at *
  rw [nodesAll_eq, List.flatMap_singleton]
  exact h.sublist ((nodes_sublist_nodesAll ht).map id)

theorem Distinct.children (h : Distinct [t]) : Distinct t.children := by
  unfold Distinct at *
  rw [nodesAll_eq, List.flatMap_singleton] at h
  exact h.sublist ((nodesAll_children_sublist t).map id)

/-- No node outside has the number of a node inside one at which to stop. -/
def SetsApart (stop : Kind → Bool) (ts : List Tree) : Prop :=
  ∀ v ∈ nodesAll ts, stop v.kind = true → ∀ w ∈ nodesAll v.children, ∀ u ∈ outsideAll stop ts,
    w.id ≠ u.id

theorem Distinct.setsApart_of_each {ts : List Tree} (h : Distinct ts)
    (heach : ∀ t ∈ ts, SetsApart stop [t]) : SetsApart stop ts := by
  intro v hv hstop w hw u hu hid
  have hwu : w = u := h.eq (mem_nodesAll_of_inside hv hw)
    ((outsideAll_sublist_nodesAll stop ts).subset hu) hid
  rw [nodesAll_eq] at hv
  obtain ⟨t, ht, hv⟩ := List.mem_flatMap.mp hv
  rw [outsideAll_eq] at hu
  obtain ⟨t', ht', hu⟩ := List.mem_flatMap.mp hu
  by_cases hsame : t = t'
  · subst hsame
    refine heach t ht v ?_ hstop w hw u ?_ hid
    · rwa [nodesAll_eq, List.flatMap_singleton]
    · rwa [outsideAll_eq, List.flatMap_singleton]
  · -- The two trees have no node in common.
    have hnodup := h.nodup
    rw [nodesAll_eq, List.nodup_flatMap] at hnodup
    have hsymm : Std.Symm (Function.onFun List.Disjoint nodes) := ⟨fun _ _ hd _ ha hb => hd hb ha⟩
    have hwt := (nodes_sublist hv).subset ((nodesAll_children_sublist v).subset hw)
    exact hnodup.2.forall ht ht' hsame hwt (hwu ▸ (outside_sublist_nodes stop t').subset hu)

theorem Distinct.setsApart_singleton (h : Distinct [t]) : SetsApart stop [t] := by
  induction t using forall_of_children with
  | h t ih =>
    have hchildren : SetsApart stop t.children :=
      h.children.setsApart_of_each fun c hc => ih c hc (h.children.of_mem hc)
    intro v hv hstop w hw u hu
    rw [nodesAll_eq, List.flatMap_singleton, nodes_eq, List.mem_append, List.mem_singleton] at hv
    have hinside : w ∈ nodesAll t.children := by
      rcases hv with hv | rfl
      · exact mem_nodesAll_of_inside hv hw
      · exact hw
    rw [outsideAll_eq, List.flatMap_singleton, outside_eq, List.mem_append,
      List.mem_singleton] at hu
    rcases hu with hu | rfl
    · split at hu
      · cases hu
      · rename_i hopen
        rcases hv with hv | rfl
        · exact hchildren v hv hstop w hw u hu
        · exact absurd hstop hopen
    · unfold Distinct at h
      rw [nodesAll_eq, List.flatMap_singleton, nodes_eq, List.map_append, List.nodup_append] at h
      exact h.2.2 w.id (List.mem_map_of_mem hinside) u.id (List.mem_map_of_mem List.mem_cons_self)

/-- No node outside has the number of a node inside one at which to stop. -/
theorem Distinct.setsApart {ts : List Tree} (h : Distinct ts) (stop : Kind → Bool) :
    SetsApart stop ts :=
  h.setsApart_of_each fun _ ht => (h.of_mem ht).setsApart_singleton

theorem outsideAll_subperm {cs ts : List Tree} (h : cs <+~ ts) (stop : Kind → Bool) :
    outsideAll stop cs <+~ outsideAll stop ts := by
  obtain ⟨l, hperm, hsub⟩ := h
  rw [outsideAll_eq, outsideAll_eq]
  exact ⟨l.flatMap (outside stop), hperm.flatMap_right _, hsub.flatMap _⟩

/-! ## Post-order -/

/-- A node comes after what is inside it. -/
theorem pair_sublist_nodesAll {ts : List Tree} (hw : w ∈ nodesAll ts)
    (hu : u ∈ nodesAll w.children) : [u, w] <+ nodesAll ts := by
  rw [nodesAll_eq] at hw
  obtain ⟨t, ht, hw⟩ := List.mem_flatMap.mp hw
  refine List.Sublist.trans ?_ ((nodes_sublist hw).trans (nodes_sublist_nodesAll ht))
  rw [nodes_eq]
  exact List.Sublist.append (List.singleton_sublist.mpr hu) (List.Sublist.refl [w])

theorem Sublist.pair_of_nodup {α : Type} {l l' : List α} {a b : α} (h : l <+ l')
    (hnodup : l'.Nodup) (hab : [a, b] <+ l') (ha : a ∈ l) (hb : b ∈ l) : [a, b] <+ l := by
  induction h with
  | slnil => cases ha
  | @cons l l' c h ih =>
    obtain ⟨hc, hnodup⟩ := List.nodup_cons.mp hnodup
    refine ih hnodup ?_ ha hb
    cases hab with
    | cons _ hab => exact hab
    | cons_cons => exact absurd (h.subset ha) hc
  | @cons_cons l l' c h ih =>
    obtain ⟨hc, hnodup⟩ := List.nodup_cons.mp hnodup
    cases hab with
    | cons _ hab =>
      have hne : ∀ d ∈ l', d ≠ c := fun d hd heq => hc (heq ▸ hd)
      have ha' : a ∈ l := (List.mem_cons.mp ha).resolve_left (hne a (hab.subset (by simp)))
      have hb' : b ∈ l := (List.mem_cons.mp hb).resolve_left (hne b (hab.subset (by simp)))
      exact (ih hnodup hab ha' hb').cons c
    | cons_cons _ hab =>
      have hne : b ≠ a := fun heq => hc (heq ▸ List.singleton_sublist.mp hab)
      exact (List.singleton_sublist.mpr ((List.mem_cons.mp hb).resolve_left hne)).cons_cons a

/-- Among some of the nodes, in post-order, a node comes after what is inside it. -/
theorem Distinct.pair_sublist {ts l : List Tree} (h : Distinct ts) (hl : l <+ nodesAll ts)
    (hu : u ∈ l) (hw : w ∈ l) (hinside : u ∈ nodesAll w.children) : [u, w] <+ l :=
  Sublist.pair_of_nodup hl h.nodup (pair_sublist_nodesAll (hl.subset hw) hinside) hu hw

/-! ## Levels -/

theorem depth_le_depthAll {c : Tree} {ts : List Tree} (h : c ∈ ts) : c.depth ≤ depthAll ts := by
  induction ts with
  | nil => cases h
  | cons t ts ih =>
    rw [depthAll]
    rcases List.mem_cons.mp h with rfl | h
    · exact Nat.le_max_left _ _
    · exact Nat.le_trans (ih h) (Nat.le_max_right _ _)

theorem depth_lt_of_mem_children {c : Tree} (h : c ∈ t.children) : c.depth < t.depth := by
  cases t with
  | node label children =>
    rw [depth]
    exact Nat.lt_succ_of_le (depth_le_depthAll h)

theorem depth_le_of_mem_nodes (h : u ∈ t.nodes) : u.depth ≤ t.depth := by
  induction t using forall_of_children with
  | h t ih =>
    rcases mem_nodes_iff.mp h with rfl | ⟨c, hc, hu⟩
    · exact Nat.le_refl u.depth
    · exact Nat.le_trans (ih c hc hu) (Nat.le_of_lt (depth_lt_of_mem_children hc))

theorem mem_children_of_field? {f : Field} {c : Tree} (h : t.field? f = some c) :
    c ∈ t.children :=
  List.mem_of_find?_eq_some h

end ServiceReach.Source.Tree

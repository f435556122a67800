import ServiceReach.Proofs.Model.Hierarchy
import ServiceReach.Proofs.Model.Program
import ServiceReach.Proofs.Model.Search

/-
  Inheritance. `Extends` is the step from a declared type to a parent that it names, and the
  subtypes of a name are the declared types from which such steps lead to it
  (`mem_subtypes_iff`). `Implements` says without a walk which method a class has for a
  subsignature: its own declaration, unless that is missing or abstract, else that of its
  superclass. `implementation?` finds exactly that method (`implementation?_eq_some_iff`): the
  number of classes that are passed on the way up falls with each step, so no name is met twice
  before the method is found, and every class that is passed is declared. Both hold in cyclic
  hierarchies.
-/

namespace ServiceReach.Program

variable {p : Program}

/-! ## Subtypes -/

/-- The type `child` is declared and names `parent` as its superclass or as an interface. -/
def Extends (p : Program) (child parent : String) : Prop :=
  ∃ t ∈ p.types, t.name = child ∧ parent ∈ t.parents

/-- Steps to parents lead from `name` to `top`, or the two are the same. -/
def AtOrBelow (p : Program) (name top : String) : Prop :=
  Relation.ReflTransGen p.Extends name top

theorem mem_children_iff {name child : String} :
    child ∈ p.children name ↔ p.Extends child name := by
  unfold children Extends
  simp only [List.mem_map, List.mem_filter, List.contains_iff_mem]
  constructor
  · rintro ⟨t, ⟨ht, hp⟩, hn⟩
    exact ⟨t, ht, hn, hp⟩
  · rintro ⟨t, ht, hn, hp⟩
    exact ⟨t, ⟨ht, hp⟩, hn⟩

theorem cons_subtypes (p : Program) (name : String) :
    name :: p.subtypes name = Search.reached p.children (p.types.length + 1) name := rfl

/-- A name and its subtypes are the names from which steps to parents lead to it. -/
theorem mem_subtypes_iff {name top : String} :
    name ∈ top :: p.subtypes top ↔ p.AtOrBelow name top := by
  have hnodes : ∀ n ∈ top :: p.types.map TypeDecl.name, ∀ k ∈ p.children n,
      k ∈ top :: p.types.map TypeDecl.name := by
    intro n _ k hk
    obtain ⟨t, ht, rfl, _⟩ := mem_children_iff.mp hk
    exact List.mem_cons_of_mem top (List.mem_map.mpr ⟨t, ht, rfl⟩)
  have hswap : (fun a b => b ∈ p.children a) = Function.swap p.Extends := by
    funext a b
    exact propext mem_children_iff
  rw [cons_subtypes, Search.mem_reached_iff hnodes (by simp) List.mem_cons_self]
  unfold Search.Reaches AtOrBelow
  rw [hswap]
  exact Relation.reflTransGen_swap

/-! ## Implementations -/

/-- The class `t` has the method `m` for a subsignature, declared `n` classes further up. -/
inductive ImplementsAt (p : Program) (sub : String) : Nat → TypeDecl → Method → Prop
  | own {t : TypeDecl} {m : Method} (hm : t.declared? sub = some m)
      (hc : m.isAbstract = false) : ImplementsAt p sub 0 t m
  | inherited {n : Nat} {t : TypeDecl} {parent : String} {m : Method}
      (hown : ∀ k, t.declared? sub = some k → k.isAbstract = true)
      (hsuper : present? t.superclass = some parent) (href : isReferenceName parent = true)
      (h : ImplementsAt p sub n (p.lookup parent) m) : ImplementsAt p sub (n + 1) t m

/-- The class `t` has the method `m` for a subsignature: the nearest declaration on the way up the
    superclasses that is not abstract. -/
def Implements (p : Program) (sub : String) (t : TypeDecl) (m : Method) : Prop :=
  ∃ n, ImplementsAt p sub n t m

/-- What a class declares itself for a subsignature, if it is not abstract. -/
def ownImplementation (sub : String) (t : TypeDecl) : Option Method :=
  (t.declared? sub).filter fun m => !m.isAbstract

theorem ownImplementation_eq_some {sub : String} {t : TypeDecl} {m : Method} :
    ownImplementation sub t = some m ↔ t.declared? sub = some m ∧ m.isAbstract = false := by
  unfold ownImplementation
  rw [Option.filter_eq_some_iff, Bool.not_eq_true']

theorem ownImplementation_eq_none {sub : String} {t : TypeDecl} :
    ownImplementation sub t = none ↔ ∀ k, t.declared? sub = some k → k.isAbstract = true := by
  unfold ownImplementation
  rw [Option.filter_eq_none_iff]
  simp

theorem ImplementsAt.unique {sub : String} {n n' : Nat} {t : TypeDecl} {m m' : Method}
    (h : ImplementsAt p sub n t m) (h' : ImplementsAt p sub n' t m') : n = n' ∧ m = m' := by
  induction h generalizing n' m' with
  | own hm hc =>
    cases h' with
    | own hm' _ => exact ⟨rfl, Option.some.inj (hm.symm.trans hm')⟩
    | inherited hown => rw [hown _ hm] at hc; cases hc
  | inherited hown hsuper _ _ ih =>
    cases h' with
    | own hm' hc' => rw [hown _ hm'] at hc'; cases hc'
    | inherited _ hsuper' _ h' =>
      rw [Option.some.inj (hsuper.symm.trans hsuper')] at ih
      obtain ⟨rfl, rfl⟩ := ih h'
      exact ⟨rfl, rfl⟩

/-- The classes that are passed on the way up are declared, and no two of them are the same. -/
theorem ImplementsAt.passed {sub : String} {n : Nat} {t : TypeDecl} {m : Method}
    (h : ImplementsAt p sub n t m) (ht : p.lookup t.name = t) :
    ∃ passed : List TypeDecl, passed.length = n ∧ passed.Nodup ∧ (∀ u ∈ passed, u ∈ p.types) ∧
      ∀ u ∈ passed, ∃ k, k ≤ n ∧ 0 < k ∧ ImplementsAt p sub k u m := by
  induction h with
  | own => exact ⟨[], rfl, List.nodup_nil, by simp, by simp⟩
  | @inherited n t parent m hown hsuper href h ih =>
    obtain ⟨passed, hlen, hnodup, hmem, hdepth⟩ := ih (by rw [lookup_name])
    have hdeclared : t ∈ p.types := by
      unfold lookup at ht
      cases hf : p.find? t.name with
      | some u =>
        rw [hf, Option.getD_some] at ht
        exact ht ▸ (find?_eq_some_iff.mp hf).1
      | none =>
        -- A phantom has no superclass.
        rw [hf, Option.getD_none] at ht
        rw [← ht] at hsuper
        cases hsuper
    have hnew : t ∉ passed := by
      intro hin
      obtain ⟨k, hk, _, hat⟩ := hdepth t hin
      have := (hat.unique (.inherited hown hsuper href h)).1
      omega
    refine ⟨t :: passed, by rw [List.length_cons, hlen], List.nodup_cons.mpr ⟨hnew, hnodup⟩, ?_, ?_⟩
    · intro u hu
      rcases List.mem_cons.mp hu with rfl | hu
      · exact hdeclared
      · exact hmem u hu
    · intro u hu
      rcases List.mem_cons.mp hu with rfl | hu
      · exact ⟨n + 1, Nat.le_refl _, Nat.succ_pos n, .inherited hown hsuper href h⟩
      · obtain ⟨k, hk, hpos, hat⟩ := hdepth u hu
        exact ⟨k, Nat.le_succ_of_le hk, hpos, hat⟩

theorem ImplementsAt.le_length {sub : String} {n : Nat} {t : TypeDecl} {m : Method}
    (h : ImplementsAt p sub n t m) (ht : p.lookup t.name = t) : n ≤ p.types.length := by
  obtain ⟨passed, rfl, hnodup, hmem, _⟩ := h.passed ht
  exact hnodup.length_le_of_subset hmem

theorem implementsAt_of_chainFrom {sub : String} {fuel : Nat} {seen : List String}
    {t : TypeDecl} {m : Method}
    (h : ((p.chainFrom fuel seen t).map Visit.type).findSome? (ownImplementation sub) = some m) :
    p.Implements sub t m := by
  induction fuel generalizing seen t with
  | zero => cases h
  | succ fuel ih =>
    rw [chainFrom] at h
    split at h
    · cases h
    · cases hown : ownImplementation sub t with
      | some k =>
        obtain ⟨hk, hc⟩ := ownImplementation_eq_some.mp hown
        have hm : m = k := by
          split at h
          · simpa [hown, eq_comm] using h
          · simpa [hown, eq_comm] using h
        exact ⟨0, .own (hm ▸ hk) (hm ▸ hc)⟩
      | none =>
        split at h
        · simp [hown] at h
        · rename_i parent hparent
          rw [List.map_cons, List.findSome?_cons, hown] at h
          obtain ⟨n, hat⟩ := ih h
          obtain ⟨hsuper, href⟩ := Option.filter_eq_some_iff.mp hparent
          exact ⟨n + 1, .inherited (ownImplementation_eq_none.mp hown) hsuper href hat⟩

/-- The walk up finds the method if it goes far enough and no class that it passed comes again:
    the classes in `seen` are further away from the method. -/
theorem ImplementsAt.chainFrom {sub : String} {n : Nat} {t : TypeDecl} {m : Method}
    (h : ImplementsAt p sub n t m) (ht : p.lookup t.name = t) {fuel : Nat} (hfuel : n < fuel)
    {seen : List String}
    (hseen : ∀ s ∈ seen, ∀ k k', ImplementsAt p sub k (p.lookup s) k' → n < k) :
    ((p.chainFrom fuel seen t).map Visit.type).findSome? (ownImplementation sub) = some m := by
  have hfresh : ¬ seen.contains t.name = true := by
    intro hin
    exact Nat.lt_irrefl n (hseen _ (List.contains_iff_mem.mp hin) n m (ht.symm ▸ h))
  induction h generalizing fuel seen with
  | @own t m hm hc =>
    obtain ⟨fuel, rfl⟩ := Nat.exists_eq_succ_of_ne_zero (Nat.ne_of_gt hfuel)
    have hown := ownImplementation_eq_some.mpr ⟨hm, hc⟩
    rw [Program.chainFrom, if_neg hfresh]
    split
    · simp [hown]
    · simp [hown]
  | @inherited n t parent m hown hsuper href h ih =>
    obtain ⟨fuel, rfl⟩ := Nat.exists_eq_succ_of_ne_zero (Nat.ne_of_gt (Nat.zero_lt_of_lt hfuel))
    have hparent : (present? t.superclass).filter isReferenceName = some parent :=
      Option.filter_eq_some_iff.mpr ⟨hsuper, href⟩
    rw [Program.chainFrom, if_neg hfresh, hparent]
    dsimp only
    rw [List.map_cons, List.findSome?_cons, ownImplementation_eq_none.mpr hown]
    have hname : p.lookup (p.lookup parent).name = p.lookup parent := by rw [lookup_name]
    have hseen' : ∀ s ∈ t.name :: seen, ∀ k k', ImplementsAt p sub k (p.lookup s) k' → n < k := by
      intro s hs k k' hat
      rcases List.mem_cons.mp hs with rfl | hs
      · rw [ht] at hat
        have := (hat.unique (.inherited hown hsuper href h)).1
        omega
      · have := hseen s hs k k' hat
        omega
    refine ih hname (Nat.lt_of_succ_lt_succ hfuel) hseen' fun hin => ?_
    exact Nat.lt_irrefl n (hseen' _ (List.contains_iff_mem.mp hin) n m (hname.symm ▸ h))

/-- The implementation of a subsignature on a type that a name stands for is the method that the
    type declares or inherits for it. -/
theorem implementation?_eq_some_iff {sub : String} {t : TypeDecl} (ht : p.lookup t.name = t)
    {m : Method} : (p.implementation? t sub).value = some m ↔ p.Implements sub t m := by
  unfold implementation? chain
  rw [value_firstOn]
  constructor
  · exact implementsAt_of_chainFrom
  · rintro ⟨n, h⟩
    have hlen := h.le_length ht
    exact h.chainFrom ht (by omega) (fun s hs => absurd hs List.not_mem_nil)

end ServiceReach.Program

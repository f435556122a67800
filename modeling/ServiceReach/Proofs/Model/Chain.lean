import Mathlib.Data.List.Flatten
import Mathlib.Logic.Relation
import ServiceReach.Proofs.Model.Hierarchy
import ServiceReach.Proofs.Model.Program

/-
  The superclass chain. `OnChain` says by steps from a class to its superclass which classes lie above
  a type; the walk `chain` visits exactly these (`mem_chain_iff`). The walk stops at a name it has
  met, and then everything above that name has been visited. It is not cut short either: only
  declared types have a superclass, so every step takes one of them from those that remain.
-/

namespace ServiceReach.Program

variable {p : Program}

/-- The class `parent` is what the superclass of `t` stands for. -/
def Superclass (p : Program) (t parent : TypeDecl) : Prop :=
  ∃ name, present? t.superclass = some name ∧ isReferenceName name = true ∧ parent = p.lookup name

/-- The class `c` is `t` or lies above it. -/
def OnChain (p : Program) (t c : TypeDecl) : Prop :=
  Relation.ReflTransGen p.Superclass t c

/-- A type that its name stands for is declared, or has no parents and members. -/
theorem declared_or_phantom {t : TypeDecl} (ht : p.lookup t.name = t) :
    t ∈ p.types ∨ t = .phantom t.name := by
  unfold lookup at ht
  cases hf : p.find? t.name with
  | some u =>
    rw [hf, Option.getD_some] at ht
    exact Or.inl (ht ▸ mem_types_of_find hf)
  | none =>
    rw [hf, Option.getD_none] at ht
    exact Or.inr ht.symm

theorem lookup_lookup (p : Program) (name : String) :
    p.lookup (p.lookup name).name = p.lookup name := by
  rw [lookup_name]

theorem Superclass.lookup_eq {t c : TypeDecl} (h : p.Superclass t c) : p.lookup c.name = c := by
  obtain ⟨name, _, _, rfl⟩ := h
  exact p.lookup_lookup name

/-! ## Types that remain -/

/-- The declared types whose names have not been met. -/
def remaining (p : Program) (seen : List String) : List TypeDecl :=
  p.types.filter fun t => !seen.contains t.name

theorem remaining_nil (p : Program) : p.remaining [] = p.types := by
  unfold remaining
  exact List.filter_eq_self.mpr fun _ _ => rfl

/-- Meeting a declared type takes its share away from what remains. -/
theorem length_flatMap_remaining {α : Type} (f : TypeDecl → List α) {seen : List String}
    {t : TypeDecl} (ht : t ∈ p.types) (hnew : t.name ∉ seen) :
    ((p.remaining (t.name :: seen)).flatMap f).length + (f t).length ≤
      ((p.remaining seen).flatMap f).length := by
  have hfilter : p.remaining (t.name :: seen) =
      (p.remaining seen).filter fun u => !(u.name == t.name) := by
    unfold remaining
    rw [List.filter_filter]
    refine List.filter_congr fun u _ => ?_
    rw [List.contains_cons, Bool.not_or]
  have hmem : t ∈ p.remaining seen := List.mem_filter.mpr ⟨ht, by simpa using hnew⟩
  obtain ⟨before, after, hsplit⟩ := List.append_of_mem hmem
  rw [hfilter, hsplit, List.filter_append, List.filter_cons_of_neg (by simp)]
  have hle : ∀ l : List TypeDecl, ((l.filter fun u => !(u.name == t.name)).flatMap f).length ≤
      (l.flatMap f).length := fun l => (List.filter_sublist.flatMap f).length_le
  have hbefore := hle before
  have hafter := hle after
  simp only [List.flatMap_append, List.flatMap_cons, List.length_append]
  omega

theorem length_remaining_lt {seen : List String} {t : TypeDecl} (ht : t ∈ p.types)
    (hnew : t.name ∉ seen) :
    (p.remaining (t.name :: seen)).length < (p.remaining seen).length := by
  have h := length_flatMap_remaining (fun u => [u]) ht hnew
  simp only [List.flatMap_singleton', List.length_singleton] at h
  omega

/-! ## The walk -/

theorem onChain_of_mem_chainFrom {fuel : Nat} {seen : List String} {t c : TypeDecl}
    (h : c ∈ (p.chainFrom fuel seen t).map Visit.type) : p.OnChain t c := by
  induction fuel generalizing seen t with
  | zero => cases h
  | succ fuel ih =>
    rw [chainFrom] at h
    split at h
    · cases h
    · split at h
      · rw [List.map_singleton, List.mem_singleton] at h
        rw [h]
        exact .refl
      · rename_i parent hparent
        obtain ⟨hsuper, href⟩ := Option.filter_eq_some_iff.mp hparent
        rw [List.map_cons, List.mem_cons] at h
        rcases h with h | h
        · rw [h]
          exact .refl
        · exact .head ⟨parent, hsuper, href, rfl⟩ (ih h)

/-- A walk does not go on to a name that was met. -/
theorem chainFrom_of_mem {fuel : Nat} {seen : List String} {name : String} (h : name ∈ seen) :
    p.chainFrom fuel seen (p.lookup name) = [] := by
  cases fuel with
  | zero => rfl
  | succ fuel =>
    rw [chainFrom, if_pos]
    rw [lookup_name]
    exact List.contains_iff_mem.mpr h

/-- The walk visits the type it starts from, and from every class it visits the superclass, unless
    that was met before. -/
theorem chainFrom_closed {fuel : Nat} {seen : List String} {t : TypeDecl}
    (ht : p.lookup t.name = t) (hnew : t.name ∉ seen)
    (hfuel : (p.remaining seen).length < fuel) :
    t ∈ (p.chainFrom fuel seen t).map Visit.type ∧
      ∀ c ∈ (p.chainFrom fuel seen t).map Visit.type, ∀ d, p.Superclass c d →
        d.name ∈ seen ∨ d ∈ (p.chainFrom fuel seen t).map Visit.type := by
  induction fuel generalizing seen t with
  | zero => omega
  | succ fuel ih =>
    rw [chainFrom, if_neg (by simpa using hnew)]
    split
    · rename_i hnone
      refine ⟨List.mem_cons_self, fun c hc d hd => ?_⟩
      rw [List.map_singleton, List.mem_singleton] at hc
      obtain ⟨name, hsuper, href, _⟩ := hc ▸ hd
      rw [Option.filter_eq_some_iff.mpr ⟨hsuper, href⟩] at hnone
      cases hnone
    · rename_i parent hparent
      obtain ⟨hsuper, href⟩ := Option.filter_eq_some_iff.mp hparent
      have hdeclared : t ∈ p.types := by
        rcases declared_or_phantom ht with hmem | hphantom
        · exact hmem
        · rw [hphantom] at hsuper
          cases hsuper
      have hone : ∀ d, p.Superclass t d → d = p.lookup parent := by
        rintro d ⟨name, hname, _, rfl⟩
        rw [Option.some.inj (hname.symm.trans hsuper)]
      rw [List.map_cons]
      refine ⟨List.mem_cons_self, fun c hc d hd => ?_⟩
      by_cases hmet : parent ∈ t.name :: seen
      · -- The walk ends here: the superclass is the type itself or was met before.
        rw [chainFrom_of_mem hmet, List.map_nil, List.mem_singleton] at hc ⊢
        rw [hc] at hd
        rw [hone d hd, lookup_name]
        rcases List.mem_cons.mp hmet with hself | hseen
        · rw [hself]
          exact Or.inr ht
        · exact Or.inl hseen
      · have hless := length_remaining_lt hdeclared hnew
        obtain ⟨hfirst, hclosed⟩ := ih (p.lookup_lookup parent)
          (by rwa [lookup_name]) (by omega)
        rcases List.mem_cons.mp hc with rfl | hc
        · rw [hone d hd]
          exact Or.inr (List.mem_cons_of_mem _ hfirst)
        · rcases hclosed c hc d hd with hseen | hvisited
          · rcases List.mem_cons.mp hseen with hself | hseen
            · rw [← hd.lookup_eq, hself, ht]
              exact Or.inr List.mem_cons_self
            · exact Or.inl hseen
          · exact Or.inr (List.mem_cons_of_mem _ hvisited)

/-- The superclass chain of a type that its name stands for consists of the type and the classes
    above it. -/
theorem mem_chain_iff {t c : TypeDecl} (ht : p.lookup t.name = t) :
    c ∈ (p.chain t).map Visit.type ↔ p.OnChain t c := by
  constructor
  · exact onChain_of_mem_chainFrom
  · intro h
    have hfuel : (p.remaining []).length < p.types.length + 2 := by
      rw [remaining_nil]
      omega
    obtain ⟨hfirst, hclosed⟩ := chainFrom_closed ht List.not_mem_nil hfuel
    induction h with
    | refl => exact hfirst
    | tail _ hstep ih =>
      rcases hclosed _ ih _ hstep with hseen | hvisited
      · cases hseen
      · exact hvisited

end ServiceReach.Program

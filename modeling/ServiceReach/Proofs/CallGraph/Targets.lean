import ServiceReach.CallGraph.Build
import ServiceReach.Proofs.Model.Hierarchy
import ServiceReach.Proofs.Model.Method

/-
  The targets of a call site. No two of them have the same signature, each is a method of the
  program, and there are no more of them than declared types and one. Nothing is assumed of the
  hierarchy, which may be cyclic, or of the signatures in the program, which may repeat.
-/

namespace ServiceReach.Program

/-- The implementation that a name brings, if it is that of a concrete declared type. -/
def implementationOn (p : Program) (sub name : String) : Option Method :=
  ((p.get? (some name)).filter TypeDecl.isConcrete).bind fun t => (p.implementation? t sub).value

theorem value_implementations (p : Program) (sub : String) (names : List String)
    (found : List Method) :
    (p.implementations sub names found).value =
      (names.filterMap (p.implementationOn sub)).foldl Method.insertNew found := by
  induction names generalizing found with
  | nil => rfl
  | cons name names ih =>
    rw [implementations, List.filterMap_cons]
    unfold implementationOn
    cases (p.get? (some name)).filter TypeDecl.isConcrete with
    | none => exact ih found
    | some t =>
      rw [Option.bind_some]
      simp only [Trail.value_bind]
      cases (p.implementation? t sub).value with
      | none => exact ih found
      | some m => exact ih (Method.insertNew found m)

/-- The implementations that a virtual call may go to. -/
def virtualTargets (p : Program) (site : CallSite) (declared : Method) : List Method :=
  let receiver := (present? site.receiver).getD declared.owner
  ((receiver :: p.subtypes receiver).filterMap
    (p.implementationOn declared.subsignature)).foldl Method.insertNew []

/-- What the targets of a call site can be: none, the declared target alone, or implementations. -/
theorem targets_cases (p : Program) (site : CallSite) :
    (p.targets site).value = [] ∨
      ∃ declared, p.method? site.target = some declared ∧
        ((p.targets site).value = [declared] ∨
          (p.targets site).value = p.virtualTargets site declared) := by
  unfold targets
  cases hd : p.method? site.target with
  | none => exact Or.inl rfl
  | some declared =>
    refine Or.inr ⟨declared, rfl, ?_⟩
    dsimp only
    split
    · exact Or.inl rfl
    · simp only [Trail.value_bind, Trail.value_pure, value_implementations]
      split
      · exact Or.inl rfl
      · exact Or.inr rfl

theorem mem_methods_of_implementationOn {p : Program} {sub name : String} {m : Method}
    (h : p.implementationOn sub name = some m) : m ∈ p.methods := by
  obtain ⟨t, ht, hm⟩ := Option.bind_eq_some_iff.mp h
  have howns := owns_of_mem (mem_types_of_get (Option.filter_eq_some_iff.mp ht).1)
  exact mem_methods_of_implementation howns hm

theorem distinct_targets (p : Program) (site : CallSite) :
    Method.Distinct (p.targets site).value := by
  rcases p.targets_cases site with h | ⟨declared, _, h | h⟩
  · rw [h]
    exact Method.distinct_nil
  · rw [h]
    exact List.nodup_singleton _
  · rw [h]
    exact Method.distinct_nil.foldl_insertNew _

theorem mem_methods_of_mem_targets {p : Program} {site : CallSite} {t : Method}
    (h : t ∈ (p.targets site).value) : t ∈ p.methods := by
  rcases p.targets_cases site with he | ⟨declared, hd, he | he⟩
  · rw [he] at h
    cases h
  · rw [he] at h
    rw [List.mem_singleton.mp h]
    exact mem_methods_of_method hd
  · rw [he] at h
    rcases Method.mem_of_mem_foldl_insertNew h with h | h
    · cases h
    · obtain ⟨name, _, hname⟩ := List.mem_filterMap.mp h
      exact mem_methods_of_implementationOn hname

theorem length_targets_le (p : Program) (site : CallSite) :
    (p.targets site).value.length ≤ p.types.length + 1 := by
  rcases p.targets_cases site with h | ⟨declared, _, h | h⟩
  · rw [h]
    exact Nat.zero_le _
  · rw [h, List.length_singleton]
    omega
  · rw [h]
    unfold virtualTargets
    dsimp only
    generalize (present? site.receiver).getD declared.owner = receiver
    have h1 := Method.length_foldl_insertNew_le []
      ((receiver :: p.subtypes receiver).filterMap (p.implementationOn declared.subsignature))
    have h2 := List.length_filterMap_le (p.implementationOn declared.subsignature)
      (receiver :: p.subtypes receiver)
    have h3 := p.length_subtypes_le receiver
    rw [List.length_nil, Nat.zero_add] at h1
    rw [List.length_cons] at h2
    omega

end ServiceReach.Program

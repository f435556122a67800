import ServiceReach.Proofs.CallGraph.Dispatch

/-
  The targets of a virtual call, exactly. They are the methods that the concrete classes at or below
  the receiver have for the subsignature of the declared target, one for each signature; if no such
  class has one, the declared target stands alone (`targets_lists_overrides`). The hierarchy may be
  cyclic and may name types that nobody declares. A class whose name is empty is never looked up, so
  what it overrides is not among the targets.
-/

namespace ServiceReach.Program

variable {p : Program} {site : CallSite} {declared : Method}

/-- A concrete class with a name, at or below the receiver, has `m` for the subsignature of the
    declared target. -/
def Overrides (p : Program) (site : CallSite) (declared m : Method) : Prop :=
  ∃ t ∈ p.types, t.name ≠ "" ∧ t.isInterface = false ∧ t.isAbstract = false ∧
    p.AtOrBelow t.name (receiverType site declared) ∧ p.Implements declared.subsignature t m

theorem get?_name_eq_some_iff {t : TypeDecl} :
    p.get? (some t.name) = some t ↔ t ∈ p.types ∧ t.name ≠ "" := by
  have hpresent : present? (some t.name) = if t.name = "" then none else some t.name := by
    unfold present?
    rw [Option.filter_some]
    by_cases hempty : t.name = "" <;> simp [hempty]
  unfold get?
  rw [hpresent]
  by_cases hempty : t.name = ""
  · simp [hempty]
  · simp [hempty, find?_eq_some_iff]

theorem mem_virtualTargets_overrides {m : Method} (h : m ∈ p.virtualTargets site declared) :
    p.Overrides site declared m := by
  have hfound := Method.mem_of_mem_foldl_insertNew h
  rw [or_iff_right List.not_mem_nil] at hfound
  obtain ⟨name, hname, hm⟩ := List.mem_filterMap.mp hfound
  obtain ⟨t, ht, hconcrete, himplements⟩ := implementationOn_eq_some_iff.mp hm
  have hsame : name = t.name := Option.some.inj (find?_of_get? ht).1
  subst hsame
  have hdeclared := get?_name_eq_some_iff.mp ht
  simp only [TypeDecl.isConcrete, Bool.and_eq_true, Bool.not_eq_true'] at hconcrete
  exact ⟨t, hdeclared.1, hdeclared.2, hconcrete.1, hconcrete.2, mem_subtypes_iff.mp hname,
    himplements⟩

theorem Overrides.exists_mem {m : Method} (h : p.Overrides site declared m) :
    ∃ n ∈ p.virtualTargets site declared, n.signature = m.signature := by
  obtain ⟨t, ht, hname, hinterface, habstract, hbelow, himplements⟩ := h
  have hget := get?_name_eq_some_iff.mpr ⟨ht, hname⟩
  have hconcrete : t.isConcrete = true := by simp [TypeDecl.isConcrete, hinterface, habstract]
  have hmem := signature_mem_virtualTargets_iff.mpr
    ⟨t, m, ⟨hget, hconcrete, hbelow⟩, himplements, rfl⟩
  exact List.mem_map.mp hmem

/-- The targets of a virtual call are the methods that the concrete classes at or below the receiver
    have for the subsignature of the declared target, one for each signature; the declared target is
    the only one if there are none. -/
theorem targets_lists_overrides (htarget : p.method? site.target = some declared)
    (hvirtual : site.dispatch = .virtual) (hstatic : declared.isStatic = false) :
    Method.Lists (p.targets site).value fun m =>
      p.Overrides site declared m ∨ ((∀ n, ¬ p.Overrides site declared n) ∧ m = declared) := by
  have hdistinct := p.distinct_targets site
  have htargets := targets_of_virtual htarget hvirtual hstatic
  by_cases hempty : (p.virtualTargets site declared).isEmpty = true
  · rw [if_pos hempty] at htargets
    have hnone : ∀ n, ¬ p.Overrides site declared n := by
      intro n hn
      obtain ⟨k, hk, _⟩ := hn.exists_mem
      rw [List.isEmpty_iff.mp hempty] at hk
      exact List.not_mem_nil hk
    refine ⟨hdistinct, ?_, ?_⟩
    · intro m hm
      rw [htargets] at hm
      exact Or.inr ⟨hnone, List.mem_singleton.mp hm⟩
    · intro m hm
      have hm : m = declared := (hm.resolve_left (hnone m)).2
      rw [htargets, hm]
      exact ⟨declared, List.mem_singleton_self declared, rfl⟩
  · rw [if_neg hempty] at htargets
    refine ⟨hdistinct, ?_, ?_⟩
    · intro m hm
      rw [htargets] at hm
      exact Or.inl (mem_virtualTargets_overrides hm)
    · intro m hm
      obtain ⟨first, hfirst⟩ := List.exists_mem_of_ne_nil _ (mt List.isEmpty_iff.mpr hempty)
      have hsome := mem_virtualTargets_overrides hfirst
      have hm : p.Overrides site declared m := hm.resolve_right fun h => h.1 first hsome
      rw [htargets]
      exact hm.exists_mem

/-! ## Two classes that extend each other -/

/-- A method `void turn()` of a type. -/
def turnIn (owner : String) (modifiers : List String) : Method where
  owner := owner
  name := "turn"
  modifiers := modifiers
  hasBody := true

/-- Two classes that name each other as superclass; one declares the method abstract. -/
def wheel : Program where
  types :=
    [{ name := "Hub", superclass := some "Rim", methods := [turnIn "Hub" ["abstract"]] },
     { name := "Rim", superclass := some "Hub", methods := [turnIn "Rim" []] }]
  nodup := by decide

/-- A call of `turn()` with a receiver of unknown type. -/
def turnSite : CallSite where
  caller := none
  position := 0
  ordinal := 0
  name := "turn"
  args := []
  receiver := none
  dispatch := .virtual
  target := "<Hub: void turn()>"

/-- Both classes have the one method that is not abstract. -/
theorem targets_wheel :
    wheel.method? turnSite.target = some (turnIn "Hub" ["abstract"]) ∧
      turnSite.dispatch = .virtual ∧ (turnIn "Hub" ["abstract"]).isStatic = false ∧
      (wheel.targets turnSite).value = [turnIn "Rim" []] ∧
      wheel.Overrides turnSite (turnIn "Hub" ["abstract"]) (turnIn "Rim" []) := by
  have htarget : wheel.method? turnSite.target = some (turnIn "Hub" ["abstract"]) := by
    decide +kernel
  have hstatic : (turnIn "Hub" ["abstract"]).isStatic = false := by decide
  have hvalue : (wheel.targets turnSite).value = [turnIn "Rim" []] := by decide +kernel
  have hlists := targets_lists_overrides htarget rfl hstatic
  have hrim := hlists.sound (turnIn "Rim" []) (by rw [hvalue]; exact List.mem_singleton_self _)
  refine ⟨htarget, rfl, hstatic, hvalue, hrim.resolve_right fun h => ?_⟩
  have hne : turnIn "Rim" [] ≠ turnIn "Hub" ["abstract"] := by decide
  exact hne h.2

/-! ## A class without a name -/

/-- An abstract class, and a concrete subclass whose name is empty. -/
def unnamed : Program where
  types :=
    [{ name := "Hub", isAbstract := true, methods := [turnIn "Hub" ["abstract"]] },
     { name := "", superclass := some "Hub", methods := [turnIn "" []] }]
  nodup := by decide

/-- The subclass without a name is declared and concrete, lies below the receiver and implements the
    method, but its method is not among the targets. -/
theorem turn_unnamed_not_mem_targets :
    unnamed.method? turnSite.target = some (turnIn "Hub" ["abstract"]) ∧
      (∃ t ∈ unnamed.types, t.isInterface = false ∧ t.isAbstract = false ∧
        unnamed.AtOrBelow t.name (receiverType turnSite (turnIn "Hub" ["abstract"])) ∧
        unnamed.Implements (turnIn "Hub" ["abstract"]).subsignature t (turnIn "" [])) ∧
      (turnIn "" []).signature ∉ (unnamed.targets turnSite).value.map Method.signature := by
  refine ⟨by decide +kernel, ⟨unnamed.lookup "", by decide +kernel, by decide +kernel,
    by decide +kernel, ?_, ⟨0, .own (by decide +kernel) (by decide +kernel)⟩⟩, by decide +kernel⟩
  exact .single ⟨unnamed.lookup "", by decide +kernel, rfl, by decide +kernel⟩

end ServiceReach.Program

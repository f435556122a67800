import ServiceReach.Proofs.CallGraph.Targets
import ServiceReach.Proofs.Model.Inheritance

/-
  Virtual calls and the methods that run. `Dispatches` says which method runs on an instance of a
  class: the one that the class implements, or else the default method of the one interface above
  it that has one. The targets of a virtual call are the methods that the concrete classes at or
  below the receiver implement; only if there are none, it is the declared target
  (`signature_mem_targets_iff`). So the method that runs is always among the targets if the class
  implements it. A default method is among them only if no class at or below the receiver
  implements the subsignature, and the default method is the declared target itself: one class
  that overrides a default method hides it from all the classes that inherit it.
-/

namespace ServiceReach

namespace Program

variable {p : Program} {site : CallSite} {declared : Method}

/-! ## The targets of a virtual call -/

/-- The type on whose instances a virtual call is made. -/
def receiverType (site : CallSite) (declared : Method) : String :=
  (present? site.receiver).getD declared.owner

/-- The type `t` is a declared class that can have instances, and is `top` or below it. -/
structure ConcreteAtOrBelow (p : Program) (top : String) (t : TypeDecl) : Prop where
  declared : p.get? (some t.name) = some t
  concrete : t.isConcrete = true
  below : p.AtOrBelow t.name top

theorem find?_of_get? {name : Option String} {t : TypeDecl} (h : p.get? name = some t) :
    name = some t.name ∧ p.find? t.name = some t := by
  obtain ⟨n, hn, hf⟩ := Option.bind_eq_some_iff.mp h
  obtain rfl := (find?_eq_some_iff.mp hf).2
  exact ⟨(Option.filter_eq_some_iff.mp hn).1, hf⟩

theorem implementationOn_eq_some_iff {sub name : String} {m : Method} :
    p.implementationOn sub name = some m ↔
      ∃ t, p.get? (some name) = some t ∧ t.isConcrete = true ∧ p.Implements sub t m := by
  unfold implementationOn
  rw [Option.bind_eq_some_iff]
  simp only [Option.filter_eq_some_iff, and_assoc]
  refine exists_congr fun t => and_congr_right fun ht => and_congr_right fun _ => ?_
  exact implementation?_eq_some_iff (lookup_of_mem (mem_types_of_get ht))

/-- The implementations that a virtual call may go to are those of the concrete classes at or below
    the receiver. -/
theorem signature_mem_virtualTargets_iff {signature : String} :
    signature ∈ (p.virtualTargets site declared).map Method.signature ↔
      ∃ t m, p.ConcreteAtOrBelow (receiverType site declared) t ∧
        p.Implements declared.subsignature t m ∧ m.signature = signature := by
  unfold virtualTargets
  rw [Method.signature_mem_foldl_insertNew, List.map_nil, or_iff_right List.not_mem_nil,
    List.mem_map]
  simp only [List.mem_filterMap]
  constructor
  · rintro ⟨m, ⟨name, hname, hm⟩, rfl⟩
    obtain ⟨t, ht, hc, himp⟩ := implementationOn_eq_some_iff.mp hm
    obtain rfl := Option.some.inj (find?_of_get? ht).1
    exact ⟨t, m, ⟨ht, hc, mem_subtypes_iff.mp hname⟩, himp, rfl⟩
  · rintro ⟨t, m, ht, himp, rfl⟩
    refine ⟨m, ⟨t.name, mem_subtypes_iff.mpr ht.below, ?_⟩, rfl⟩
    exact implementationOn_eq_some_iff.mpr ⟨t, ht.declared, ht.concrete, himp⟩

theorem targets_of_virtual (htarget : p.method? site.target = some declared)
    (hvirtual : site.dispatch = .virtual) (hstatic : declared.isStatic = false) :
    (p.targets site).value =
      if (p.virtualTargets site declared).isEmpty then [declared]
      else p.virtualTargets site declared := by
  have hdirect : ¬ isDirect site declared = true := by
    simp [isDirect, hvirtual, hstatic]
  unfold targets
  rw [htarget]
  dsimp only
  rw [if_neg hdirect]
  simp only [Trail.value_bind, Trail.value_pure, value_implementations]
  rfl

/-- The targets of a virtual call: the methods that the concrete classes at or below the receiver
    implement, and the declared target if there are none. -/
theorem signature_mem_targets_iff (htarget : p.method? site.target = some declared)
    (hvirtual : site.dispatch = .virtual) (hstatic : declared.isStatic = false)
    (signature : String) :
    signature ∈ (p.targets site).value.map Method.signature ↔
      (∃ t m, p.ConcreteAtOrBelow (receiverType site declared) t ∧
        p.Implements declared.subsignature t m ∧ m.signature = signature) ∨
      ((∀ t m, p.ConcreteAtOrBelow (receiverType site declared) t →
        ¬ p.Implements declared.subsignature t m) ∧ declared.signature = signature) := by
  rw [targets_of_virtual htarget hvirtual hstatic]
  cases htargets : p.virtualTargets site declared with
  | nil =>
    have hnone : ∀ t m, p.ConcreteAtOrBelow (receiverType site declared) t →
        ¬ p.Implements declared.subsignature t m := by
      intro t m ht himp
      have := signature_mem_virtualTargets_iff.mpr ⟨t, m, ht, himp, rfl⟩
      rw [htargets] at this
      cases this
    rw [List.isEmpty_nil, if_pos rfl, List.map_singleton, List.mem_singleton]
    constructor
    · exact fun h => Or.inr ⟨hnone, h.symm⟩
    · rintro (⟨t, m, ht, himp, _⟩ | ⟨_, h⟩)
      · exact absurd himp (hnone t m ht)
      · exact h.symm
  | cons m ms =>
    have hfirst : m.signature ∈ (p.virtualTargets site declared).map Method.signature := by
      rw [htargets]
      exact List.mem_cons_self
    obtain ⟨t, m', ht, himp, _⟩ := signature_mem_virtualTargets_iff.mp hfirst
    rw [List.isEmpty_cons, if_neg Bool.false_ne_true, ← htargets,
      signature_mem_virtualTargets_iff]
    refine (or_iff_left ?_).symm
    exact fun h => h.1 t m' ht himp

/-! ## The method that runs -/

/-- Steps to parents lead from the type `t` to the type `u`, or the two are the same. -/
def IsSupertype (p : Program) : TypeDecl → TypeDecl → Prop :=
  Relation.ReflTransGen fun t u => ∃ parent ∈ t.supers, u = p.lookup parent

/-- The method `m` is the default method that the interface `i` above `t` has for a
    subsignature. -/
structure DefaultFrom (p : Program) (sub : String) (t i : TypeDecl) (m : Method) : Prop where
  above : p.IsSupertype t i
  interface : i.isInterface = true
  declared : i.declared? sub = some m
  concrete : m.isAbstract = false

/-- The method `m` runs when the subsignature is called on an instance of the class `t`. -/
inductive Dispatches (p : Program) (sub : String) (t : TypeDecl) (m : Method) : Prop
  /-- The class declares or inherits the method. -/
  | implemented (h : p.Implements sub t m)
  /-- The class inherits it from the one interface that has a default method. -/
  | default (i : TypeDecl) (hnone : ∀ n, ¬ p.Implements sub t n) (h : p.DefaultFrom sub t i m)
      (hone : ∀ j n, p.DefaultFrom sub t j n → j = i)

/-- The method that runs on an instance of a concrete class at or below the receiver is a target of
    the call if the class implements it. If it is a default method, it is a target exactly if some
    other class implements a method of that signature, or if no class implements the subsignature
    and the default method is the declared target. -/
theorem dispatched_mem_targets_iff (htarget : p.method? site.target = some declared)
    (hvirtual : site.dispatch = .virtual) (hstatic : declared.isStatic = false) {t : TypeDecl}
    (ht : p.ConcreteAtOrBelow (receiverType site declared) t) {m : Method}
    (hm : p.Dispatches declared.subsignature t m) :
    (p.Implements declared.subsignature t m ∧
        m.signature ∈ (p.targets site).value.map Method.signature) ∨
      ((∀ n, ¬ p.Implements declared.subsignature t n) ∧
        (m.signature ∈ (p.targets site).value.map Method.signature ↔
          (∃ u n, p.ConcreteAtOrBelow (receiverType site declared) u ∧
            p.Implements declared.subsignature u n ∧ n.signature = m.signature) ∨
          ((∀ u n, p.ConcreteAtOrBelow (receiverType site declared) u →
            ¬ p.Implements declared.subsignature u n) ∧
            declared.signature = m.signature))) := by
  have htargets := signature_mem_targets_iff htarget hvirtual hstatic m.signature
  cases hm with
  | implemented h => exact Or.inl ⟨h, htargets.mpr (Or.inl ⟨t, m, ht, h, rfl⟩)⟩
  | default i hnone _ _ => exact Or.inr ⟨hnone, htargets⟩

/-! ## A default method that one class overrides -/

/-- A method `void greet()` with an empty body. -/
def greetIn (owner : String) : Method where
  owner := owner
  name := "greet"
  modifiers := ["public"]
  hasBody := true

/-- An interface with a default method, a class that overrides it and a class that inherits it. -/
def greeters : Program where
  types :=
    [{ name := "Greeter", isInterface := true, isAbstract := true, methods := [greetIn "Greeter"] },
     { name := "Polite", superclass := some "java.lang.Object", interfaces := ["Greeter"],
       methods := [greetIn "Polite"] },
     { name := "Shy", superclass := some "java.lang.Object", interfaces := ["Greeter"] }]
  nodup := by decide

/-- The call of `greet()` on an instance of the interface. -/
def greetSite : CallSite where
  caller := none
  position := 0
  ordinal := 0
  name := "greet"
  args := []
  receiver := some "Greeter"
  dispatch := .virtual
  target := "<Greeter: void greet()>"

theorem greeters_atOrBelow {child : String} (h : greeters.Extends child "Greeter") :
    greeters.AtOrBelow child (receiverType greetSite (greetIn "Greeter")) :=
  .single h

/-- The call of the overridden method is sound for the class that overrides it. -/
theorem greet_polite_mem_targets :
    greeters.Dispatches "void greet()" (greeters.lookup "Polite") (greetIn "Polite") ∧
      (greetIn "Polite").signature ∈ (greeters.targets greetSite).value.map Method.signature := by
  have himp : greeters.Implements "void greet()" (greeters.lookup "Polite") (greetIn "Polite") :=
    ⟨0, .own (by decide +kernel) (by decide +kernel)⟩
  have hbelow : greeters.ConcreteAtOrBelow (receiverType greetSite (greetIn "Greeter"))
      (greeters.lookup "Polite") :=
    ⟨by decide +kernel, by decide +kernel,
      greeters_atOrBelow ⟨greeters.lookup "Polite", by decide +kernel, rfl, by decide +kernel⟩⟩
  have hsub : (greetIn "Greeter").subsignature = "void greet()" := by decide +kernel
  have htarget : greeters.method? greetSite.target = some (greetIn "Greeter") := by decide +kernel
  have h := dispatched_mem_targets_iff htarget rfl (by decide +kernel) hbelow
    (by rw [hsub]; exact .implemented himp)
  rw [hsub] at h
  rcases h with h | h
  · exact ⟨.implemented himp, h.2⟩
  · exact absurd himp (h.1 _)

/-- The default method runs on instances of the class that inherits it, and is not among the
    targets, because the other class overrides it. -/
theorem greet_shy_not_mem_targets :
    greeters.ConcreteAtOrBelow (receiverType greetSite (greetIn "Greeter"))
        (greeters.lookup "Shy") ∧
      greeters.Dispatches (greetIn "Greeter").subsignature (greeters.lookup "Shy")
        (greetIn "Greeter") ∧
      (greetIn "Greeter").signature ∉ (greeters.targets greetSite).value.map Method.signature := by
  have hsub : (greetIn "Greeter").subsignature = "void greet()" := by decide +kernel
  refine ⟨⟨by decide +kernel, by decide +kernel,
    greeters_atOrBelow ⟨greeters.lookup "Shy", by decide +kernel, rfl, by decide +kernel⟩⟩, ?_,
    by decide +kernel⟩
  rw [hsub]
  -- Nothing but the interface and the phantom superclass lies above the class.
  have hclosed : ∀ u ∈ ["Shy", "java.lang.Object", "Greeter"].map greeters.lookup,
      ∀ parent ∈ u.supers,
        greeters.lookup parent ∈ ["Shy", "java.lang.Object", "Greeter"].map greeters.lookup := by
    decide +kernel
  have habove : ∀ u, greeters.IsSupertype (greeters.lookup "Shy") u →
      u ∈ ["Shy", "java.lang.Object", "Greeter"].map greeters.lookup := by
    intro u hu
    induction hu with
    | refl => exact List.mem_cons_self
    | tail _ hstep ih =>
      obtain ⟨parent, hparent, rfl⟩ := hstep
      exact hclosed _ ih parent hparent
  have hinterface : ∀ u ∈ ["Shy", "java.lang.Object", "Greeter"].map greeters.lookup,
      u.isInterface = true → u = greeters.lookup "Greeter" := by
    decide +kernel
  refine .default (greeters.lookup "Greeter") ?_ ?_ ?_
  · intro n himp
    have hnone :
        (greeters.implementation? (greeters.lookup "Shy") "void greet()").value = none := by
      decide +kernel
    rw [(implementation?_eq_some_iff (by decide +kernel)).mpr himp] at hnone
    cases hnone
  · exact ⟨.single ⟨"Greeter", by decide +kernel, rfl⟩, by decide +kernel, by decide +kernel,
      by decide +kernel⟩
  · exact fun j n hj => hinterface j (habove j hj.above) hj.interface

end Program
end ServiceReach

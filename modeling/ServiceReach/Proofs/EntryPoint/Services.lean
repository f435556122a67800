import ServiceReach.EntryPoint.Collect
import ServiceReach.Proofs.EntryPoint.Registrations
import ServiceReach.Proofs.Model.Remote

/-
  What published services expose. On a whole program the strategy for services returns, without
  repeating a signature, exactly the remote methods of the published types, and it records a
  diagnostic for every registration whose second argument is no object (`collect_services_exact`).
  Where names may fail, the search through several services answers with all their remote methods,
  or it stops at a failing name among the interfaces that one of them mentions.
-/

namespace ServiceReach

open Trail

namespace Program

/-- The type has `m` for a method of one of its remote interfaces. -/
def ExposedBy (p : Program) (h : Heuristics) (t : TypeDecl) (m : Method) : Prop :=
  ∃ marker, h.remoteMarker = .text marker ∧ p.RemoteMethod marker t m

/-- A published service has `m` for a method of one of its remote interfaces. -/
def Exposes (p : Program) (h : Heuristics) (m : Method) : Prop :=
  ∃ service, p.Publishes h service ∧ p.ExposedBy h (p.lookup service) m

end Program

namespace View

variable {v : View} {h : Heuristics}

/-- An interface that the type or a class above it declares fails. -/
def Stuck (v : View) (t : TypeDecl) : Prop :=
  ∃ c, v.program.OnChain t c ∧ ∃ n ∈ c.interfaces, n ∈ v.failing

theorem exposedMethods_settles {t : TypeDecl} (ht : v.program.lookup t.name = t) :
    Settles (v.exposedMethods h t)
      (fun methods => Method.Lists methods (v.program.ExposedBy h t) ∧ ¬ v.Stuck t)
      (fun e => e.name ∈ v.failing ∧ v.program.Mentions t e.name) := by
  refine Settles.imp (remoteMethods_yields ht h.remoteMarker.text?) (fun methods hm => ⟨?_, ?_⟩)
    fun _ he => he
  · refine hm.1.congr fun m => ?_
    unfold Program.ExposedBy
    simp only [Name.text?_eq_some_iff]
  · rintro ⟨c, hc, n, hn, hfailing⟩
    exact hm.2 c hc n hn hfailing

/-- The search through several services lists the remote methods of all of them, and none of them
    is stuck; otherwise it stops at a failing name that one of them mentions. -/
theorem remoteMethodsOf_settles {services : List TypeDecl}
    (hs : ∀ t ∈ services, v.program.lookup t.name = t) {found : List Method} {S : Method → Prop}
    (hf : Method.Lists found S) :
    Settles (v.remoteMethodsOf h found services)
      (fun methods =>
        Method.Lists methods (fun m => S m ∨ ∃ t ∈ services, v.program.ExposedBy h t m) ∧
          ∀ t ∈ services, ¬ v.Stuck t)
      (fun e => e.name ∈ v.failing ∧ ∃ t ∈ services, v.program.Mentions t e.name) := by
  induction services generalizing found S with
  | nil => exact ⟨hf.congr fun m => by simp, fun t ht => absurd ht List.not_mem_nil⟩
  | cons t services ih =>
    have hexposed := exposedMethods_settles (h := h) (hs t List.mem_cons_self)
    rw [remoteMethodsOf]
    cases hmethods : v.exposedMethods h t with
    | error e =>
      rw [hmethods] at hexposed
      exact ⟨hexposed.1, t, List.mem_cons_self, hexposed.2⟩
    | ok methods =>
      rw [hmethods] at hexposed
      obtain ⟨hlists, hfree⟩ := hexposed
      refine Settles.imp (ih (fun u hu => hs u (List.mem_cons_of_mem t hu))
        (hf.union hlists.sound hlists.complete)) (fun all hall => ⟨?_, ?_⟩) fun e he => ?_
      · refine hall.1.congr fun m => ?_
        simp only [List.mem_cons, exists_eq_or_imp, or_assoc]
      · exact List.forall_mem_cons.mpr ⟨hfree, hall.2⟩
      · obtain ⟨hfailing, u, hu, hmentions⟩ := he
        exact ⟨hfailing, u, List.mem_cons_of_mem t hu, hmentions⟩

/-- The strategy for services lists the remote methods of the published types that can be looked
    up, or stops at a failing name that one of these mentions. -/
theorem collect_services_settles (v : View) (h : Heuristics) :
    Settles (v.collect h .services).found
      (fun methods =>
        Method.Lists methods (fun m => ∃ name, v.program.Publishes h name ∧ name ∉ v.failing ∧
          v.program.ExposedBy h (v.program.lookup name) m) ∧
        ∀ name, v.program.Publishes h name → name ∉ v.failing →
          ¬ v.Stuck (v.program.lookup name))
      (fun e => e.name ∈ v.failing ∧ ∃ name, v.program.Publishes h name ∧ name ∉ v.failing ∧
        v.program.Mentions (v.program.lookup name) e.name) := by
  have hs : ∀ t ∈ (v.services h).found, v.program.lookup t.name = t := by
    intro t ht
    obtain ⟨name, _, _, rfl⟩ := mem_services_iff.mp ht
    exact v.program.lookup_lookup name
  refine Settles.imp (remoteMethodsOf_settles hs
    (Method.lists_nil (S := fun _ => False) fun _ hm => hm)) (fun methods hm => ⟨?_, ?_⟩) ?_
  · refine hm.1.congr fun m => ?_
    rw [false_or]
    constructor
    · rintro ⟨t, ht, hexposed⟩
      obtain ⟨name, hpublished, hfine, rfl⟩ := mem_services_iff.mp ht
      exact ⟨name, hpublished, hfine, hexposed⟩
    · rintro ⟨name, hpublished, hfine, hexposed⟩
      exact ⟨_, mem_services_iff.mpr ⟨name, hpublished, hfine, rfl⟩, hexposed⟩
  · exact fun name hpublished hfine =>
      hm.2 _ (mem_services_iff.mpr ⟨name, hpublished, hfine, rfl⟩)
  · rintro e ⟨hfailing, t, ht, hmentions⟩
    obtain ⟨name, hpublished, hfine, rfl⟩ := mem_services_iff.mp ht
    exact ⟨hfailing, name, hpublished, hfine, hmentions⟩

/-! ## Whole programs -/

/-- The diagnostic about a registration whose second argument is no object: its type is unknown,
    primitive or an array. -/
def rejection? (m : Method) (site : CallSite) : Option Diagnostic :=
  (site.args[1]?.filter fun binder => !binder.isReference).map fun binder =>
    ⟨m.signature, site.line, notReferenceMessage site binder⟩

theorem diagnostic?_inspectService (p : Program) (m : Method) (site : CallSite) :
    diagnostic? m site ((ofProgram p).inspectService site) = rejection? m site := by
  unfold rejection?
  rcases (ofProgram p).inspectService_cases site with
    ⟨hargs, hi⟩ | ⟨binder, hargs, ⟨href, hi⟩ | ⟨name, htype, href, hi⟩⟩
  · rw [hargs, hi]
    rfl
  · rw [hargs, hi, Option.filter_some, href]
    rfl
  · have hbinder : binder.isReference = true := by
      rw [Argument.isReference, htype, isReference, href]
    have hfine : name ∉ (ofProgram p).failing := List.not_mem_nil
    rw [hargs, hi, if_neg hfine, Option.filter_some, hbinder]
    rfl

/-- On a whole program the strategy for services returns the remote methods of the published types,
    one for each signature, and records one diagnostic, in the order of the calls, for each
    registration whose second argument is no object. -/
theorem collect_services_exact (p : Program) (h : Heuristics) :
    (∃ methods, ((ofProgram p).collect h .services).found = .ok methods ∧
      Method.Lists methods (p.Exposes h)) ∧
    ((ofProgram p).collect h .services).diagnostics =
      ((ofProgram p).registrationSites.filter fun s => h.serviceCalls.contains s.2.name).filterMap
        fun s => rejection? s.1 s.2 := by
  constructor
  · have hsettles := collect_services_settles (ofProgram p) h
    cases hfound : ((ofProgram p).collect h .services).found with
    | error e =>
      rw [hfound] at hsettles
      exact absurd hsettles.1 List.not_mem_nil
    | ok methods =>
      rw [hfound] at hsettles
      refine ⟨methods, rfl, hsettles.1.congr fun m => ?_⟩
      unfold Program.Exposes
      constructor
      · rintro ⟨name, hpublished, _, hexposed⟩
        exact ⟨name, hpublished, hexposed⟩
      · rintro ⟨name, hpublished, hexposed⟩
        exact ⟨name, hpublished, List.not_mem_nil, hexposed⟩
  · have hdiagnostics : ((ofProgram p).services h).diagnostics = _ :=
      diagnostics_foldl_addInspection (ofProgram p).inspectService _ _
    refine hdiagnostics.trans ?_
    rw [List.nil_append]
    exact List.filterMap_congr fun s _ => diagnostic?_inspectService p s.1 s.2

end View
end ServiceReach

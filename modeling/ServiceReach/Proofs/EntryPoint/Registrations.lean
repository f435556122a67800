import ServiceReach.EntryPoint.Registration
import ServiceReach.Proofs.Model.Method
import ServiceReach.Proofs.Model.Program

/-
  What the registrations of a program bring, in a view in which looking names up may fail.
  `Publishes` and `Receives` say which types are published as services and which methods are
  callbacks of unprotected receivers, without a word on how they are looked for or what fails. The
  scan of all registrations finds exactly those whose type can be looked up (`mem_services_iff`,
  `receivers_lists`), and its diagnostics are those of the single registrations, in order.
-/

namespace ServiceReach

namespace Program

/-- The call is in the body of a method of an application class. -/
def ApplicationCall (p : Program) (site : CallSite) : Prop :=
  ∃ t ∈ p.types, t.isApplication = true ∧ t.isInterface = false ∧ t.isPhantom = false ∧
    ∃ m ∈ t.methods, site ∈ m.sites

/-- A call publishes the type `service`, a class or interface, as its second argument. -/
def Publishes (p : Program) (h : Heuristics) (service : String) : Prop :=
  ∃ site, p.ApplicationCall site ∧ site.name ∈ h.serviceCalls ∧
    ∃ binder, site.args[1]? = some binder ∧ binder.type = some service ∧
      isReferenceName service = true

/-- A call registers the type `receiver` without a permission, and `m` is the callback that the
    type declares. -/
def Receives (p : Program) (h : Heuristics) (receiver : String) (m : Method) : Prop :=
  ∃ site, p.ApplicationCall site ∧ site.name ∈ h.receiverCalls ∧
    ∃ argument, View.unprotectedReceiver? site.args = some argument ∧
      argument.type = some receiver ∧ isReferenceName receiver = true ∧
      ∃ sub, h.receiverCallback = .text sub ∧ (p.lookup receiver).declared? sub = some m

end Program

namespace View

variable {v : View}

theorem exists_mem_registrationSites {site : CallSite} :
    (∃ m, (m, site) ∈ v.registrationSites) ↔ v.program.ApplicationCall site := by
  unfold registrationSites Program.ApplicationCall Program.applicationTypes
  simp only [List.mem_flatMap, List.mem_filter, List.mem_map, Prod.mk.injEq]
  constructor
  · rintro ⟨m, t, ⟨⟨ht, happ⟩, hreal⟩, n, hn, s, hs, rfl, rfl⟩
    simp only [TypeDecl.isRealClass, Bool.and_eq_true, Bool.not_eq_true'] at hreal
    exact ⟨t, ht, happ, hreal.1, hreal.2, n, hn, hs⟩
  · rintro ⟨t, ht, happ, hclass, hreal, m, hm, hs⟩
    refine ⟨m, t, ⟨⟨ht, happ⟩, ?_⟩, m, hm, site, hs, rfl, rfl⟩
    simp only [TypeDecl.isRealClass, hclass, hreal, Bool.not_false, Bool.and_self]

/-! ## Looking at one registration -/

/-- Looking up the type of an argument that is known to be an object. -/
theorem value_resolve_type {a : Argument} (ha : a.isReference = true) :
    ∃ name, a.type = some name ∧ isReferenceName name = true ∧
      (v.resolve a.type).run.value =
        if name ∈ v.failing then .error ⟨name⟩ else .ok (some (v.program.lookup name)) := by
  unfold Argument.isReference isReference at ha
  cases htype : a.type with
  | none =>
    rw [htype] at ha
    cases ha
  | some name =>
    rw [htype] at ha
    refine ⟨name, rfl, ha, ?_⟩
    unfold resolve
    dsimp only
    rw [List.contains_eq_mem]
    by_cases hfailing : name ∈ v.failing
    · rw [if_pos hfailing, if_pos (decide_eq_true hfailing)]
      rfl
    · rw [if_neg hfailing, if_neg (by simpa using hfailing)]
      have hvalue : (v.program.resolve (some name)).value = some (v.program.lookup name) := by
        unfold Program.resolve
        rw [Option.filter_some, if_pos ha]
      exact congrArg Except.ok hvalue

/-- What looking at a call brings, by its second argument. -/
theorem inspectService_cases (v : View) (site : CallSite) :
    (site.args[1]? = none ∧ v.inspectService site = .nothing) ∨
      ∃ binder, site.args[1]? = some binder ∧
        ((binder.isReference = false ∧
            v.inspectService site = .unusable (notReferenceMessage site binder)) ∨
          ∃ name, binder.type = some name ∧ isReferenceName name = true ∧
            v.inspectService site =
              if name ∈ v.failing then .unusable (failedMessage site ⟨name⟩)
              else .found (v.program.lookup name)) := by
  unfold inspectService
  match site.args with
  | [] => exact Or.inl ⟨rfl, rfl⟩
  | [_] => exact Or.inl ⟨rfl, rfl⟩
  | first :: binder :: rest =>
    refine Or.inr ⟨binder, rfl, ?_⟩
    dsimp only
    split
    · rename_i hreference
      obtain ⟨name, htype, href, hvalue⟩ := value_resolve_type (v := v) hreference
      refine Or.inr ⟨name, htype, href, ?_⟩
      rw [hvalue]
      by_cases hfailing : name ∈ v.failing
      · rw [if_pos hfailing, if_pos hfailing]
      · rw [if_neg hfailing, if_neg hfailing]
    · rename_i hreference
      exact Or.inl ⟨by simpa using hreference, rfl⟩

theorem inspectService_eq_found_iff {site : CallSite} {t : TypeDecl} :
    v.inspectService site = .found t ↔ ∃ binder name, site.args[1]? = some binder ∧
      binder.type = some name ∧ isReferenceName name = true ∧ name ∉ v.failing ∧
      t = v.program.lookup name := by
  constructor
  · intro hfound
    rcases v.inspectService_cases site with
      ⟨_, hi⟩ | ⟨binder, hargs, ⟨_, hi⟩ | ⟨name, htype, href, hi⟩⟩
    · rw [hi] at hfound
      cases hfound
    · rw [hi] at hfound
      cases hfound
    · rw [hi] at hfound
      split at hfound
      · cases hfound
      · rename_i hfine
        cases hfound
        exact ⟨binder, name, hargs, htype, href, hfine, rfl⟩
  · rintro ⟨binder, name, hargs, htype, href, hfine, rfl⟩
    rcases v.inspectService_cases site with
      ⟨hnone, _⟩ | ⟨binder', hargs', ⟨hreference, _⟩ | ⟨name', htype', _, hi⟩⟩
    · rw [hargs] at hnone
      cases hnone
    · cases hargs.symm.trans hargs'
      rw [Argument.isReference, htype, isReference, href] at hreference
      cases hreference
    · cases hargs.symm.trans hargs'
      cases htype.symm.trans htype'
      rw [hi, if_neg hfine]

theorem inspectReceiver_eq_found_iff {h : Heuristics} {site : CallSite} {m : Method} :
    v.inspectReceiver h site = .found m ↔ ∃ argument name,
      unprotectedReceiver? site.args = some argument ∧ argument.type = some name ∧
      isReferenceName name = true ∧ name ∉ v.failing ∧
      ∃ sub, h.receiverCallback = .text sub ∧ (v.program.lookup name).declared? sub = some m := by
  unfold inspectReceiver
  cases hreceiver : (unprotectedReceiver? site.args).filter Argument.isReference with
  | none =>
    refine iff_of_false (fun h => by cases h) ?_
    rintro ⟨argument, name, hargument, htype, href, _⟩
    have hreference : argument.isReference = true := by
      rw [Argument.isReference, htype, isReference, href]
    rw [Option.filter_eq_some_iff.mpr ⟨hargument, hreference⟩] at hreceiver
    cases hreceiver
  | some argument =>
    obtain ⟨hargument, hreference⟩ := Option.filter_eq_some_iff.mp hreceiver
    obtain ⟨name, htype, href, hvalue⟩ := value_resolve_type (v := v) hreference
    dsimp only
    rw [hvalue]
    by_cases hfailing : name ∈ v.failing
    · rw [if_pos hfailing]
      refine iff_of_false (fun h => by cases h) ?_
      rintro ⟨_, name', hargument', htype', _, hfine, _⟩
      cases hargument.symm.trans hargument'
      cases htype.symm.trans htype'
      exact hfine hfailing
    · rw [if_neg hfailing]
      dsimp only
      constructor
      · intro hfound
        split at hfound
        · cases hfound
        · rename_i n hcallback
          cases hfound
          obtain ⟨sub, hsub, hdeclared⟩ := Option.bind_eq_some_iff.mp hcallback
          exact ⟨argument, name, hargument, htype, href, hfailing, sub,
            Name.text?_eq_some_iff.mp hsub, hdeclared⟩
      · rintro ⟨_, name', hargument', htype', _, _, sub, hsub, hdeclared⟩
        cases hargument.symm.trans hargument'
        cases htype.symm.trans htype'
        rw [hsub, Name.text?, Option.bind_some, hdeclared]

/-! ## Looking at all registrations -/

/-- The diagnostic that looking at a registration brings. -/
def diagnostic? {α : Type} (m : Method) (site : CallSite) : Inspection α → Option Diagnostic
  | .unusable message => some ⟨m.signature, site.line, message⟩
  | _ => none

section

variable {α : Type} {known : List α → α → Bool} {label : α → String}
  (inspect : CallSite → Inspection α)

theorem diagnostics_foldl_addInspection (sites : List (Method × CallSite))
    (f : Findings (List α)) :
    (sites.foldl (fun f (m, site) => addInspection known label f m site (inspect site))
        f).diagnostics =
      f.diagnostics ++ sites.filterMap fun (m, site) => diagnostic? m site (inspect site) := by
  induction sites generalizing f with
  | nil => rw [List.foldl_nil, List.filterMap_nil, List.append_nil]
  | cons s sites ih =>
    rw [List.foldl_cons, ih, List.filterMap_cons]
    dsimp only [addInspection]
    cases inspect s.2 with
    | nothing => rfl
    | unusable message => exact List.append_assoc _ _ _
    | found a =>
      dsimp only [diagnostic?]
      split
      · rfl
      · rfl

theorem found_subset_addInspection (f : Findings (List α)) (m : Method) (site : CallSite)
    (i : Inspection α) : f.found ⊆ (addInspection known label f m site i).found := by
  unfold addInspection
  split
  · exact List.Subset.refl _
  · exact List.Subset.refl _
  · split
    · exact List.Subset.refl _
    · exact List.subset_append_left _ _

theorem exists_site_of_mem_foldl_addInspection {sites : List (Method × CallSite)}
    {f : Findings (List α)} {a : α}
    (ha : a ∈ (sites.foldl (fun f (m, site) =>
      addInspection known label f m site (inspect site)) f).found) :
    a ∈ f.found ∨ ∃ s ∈ sites, inspect s.2 = .found a := by
  induction sites generalizing f with
  | nil => exact Or.inl ha
  | cons s sites ih =>
    rcases ih ha with ha | ⟨s', hs', hi⟩
    · dsimp only [addInspection] at ha
      split at ha
      · exact Or.inl ha
      · exact Or.inl ha
      · rename_i b hb
        split at ha
        · exact Or.inl ha
        · rcases List.mem_append.mp ha with ha | ha
          · exact Or.inl ha
          · exact Or.inr ⟨s, List.mem_cons_self, List.mem_singleton.mp ha ▸ hb⟩
    · exact Or.inr ⟨s', List.mem_cons_of_mem s hs', hi⟩

/-- Everything that is found has its key among what is found in the end. -/
theorem exists_mem_foldl_addInspection {key : α → String}
    (hknown : ∀ l a, known l a = true → ∃ b ∈ l, key b = key a) {sites : List (Method × CallSite)}
    {m : Method} {site : CallSite} (hsite : (m, site) ∈ sites) {a : α}
    (ha : inspect site = .found a) (f : Findings (List α)) :
    ∃ b ∈ (sites.foldl (fun f (m, site) => addInspection known label f m site (inspect site))
        f).found, key b = key a := by
  have hkeep : ∀ (sites : List (Method × CallSite)) (f : Findings (List α)),
      f.found ⊆ (sites.foldl (fun f (m, site) =>
        addInspection known label f m site (inspect site)) f).found := by
    intro sites
    induction sites with
    | nil => exact fun f => List.Subset.refl _
    | cons s sites ih =>
      exact fun f => List.Subset.trans (found_subset_addInspection f s.1 s.2 _) (ih _)
  induction sites generalizing f with
  | nil => cases hsite
  | cons s sites ih =>
    rcases List.mem_cons.mp hsite with rfl | hsite
    · have hone : ∃ b ∈ (addInspection known label f m site (inspect site)).found,
          key b = key a := by
        rw [ha]
        dsimp only [addInspection]
        split
        · rename_i hthere
          exact hknown f.found a hthere
        · exact ⟨a, List.mem_append_right _ (List.mem_singleton_self a), rfl⟩
      obtain ⟨b, hb, hkey⟩ := hone
      exact ⟨b, hkeep sites _ hb, hkey⟩
    · exact ih hsite _

/-- No key comes twice among what is found. -/
theorem nodup_foldl_addInspection {key : α → String}
    (hknown : ∀ l a, (∃ b ∈ l, key b = key a) → known l a = true)
    (sites : List (Method × CallSite)) {f : Findings (List α)} (hf : (f.found.map key).Nodup) :
    ((sites.foldl (fun f (m, site) =>
      addInspection known label f m site (inspect site)) f).found.map key).Nodup := by
  induction sites generalizing f with
  | nil => exact hf
  | cons s sites ih =>
    refine ih ?_
    dsimp only [addInspection]
    split
    · exact hf
    · exact hf
    · rename_i a _
      split
      · exact hf
      · rename_i hnew
        have hkey : key a ∉ f.found.map key := fun hmem =>
          hnew (hknown f.found a (List.mem_map.mp hmem))
        rw [List.map_append, List.map_singleton]
        exact hf.append (List.nodup_singleton _) (List.disjoint_singleton.mpr hkey)

end

theorem mem_filter_registrationSites {calls : List String} {s : Method × CallSite} :
    s ∈ v.registrationSites.filter (fun s => calls.contains s.2.name) ↔
      s ∈ v.registrationSites ∧ s.2.name ∈ calls := by
  rw [List.mem_filter, List.contains_iff_mem]

/-- The services found are the published types whose names can be looked up. -/
theorem mem_services_iff {h : Heuristics} {t : TypeDecl} :
    t ∈ (v.services h).found ↔ ∃ name, v.program.Publishes h name ∧ name ∉ v.failing ∧
      t = v.program.lookup name := by
  have hsound : ∀ t ∈ (v.services h).found, ∃ name, v.program.Publishes h name ∧
      name ∉ v.failing ∧ t = v.program.lookup name := by
    intro t ht
    rcases exists_site_of_mem_foldl_addInspection v.inspectService ht with hnone | ⟨s, hs, hi⟩
    · cases hnone
    · obtain ⟨hsite, hname⟩ := mem_filter_registrationSites.mp hs
      obtain ⟨binder, name, hargs, htype, href, hfine, rfl⟩ := inspectService_eq_found_iff.mp hi
      exact ⟨name, ⟨s.2, exists_mem_registrationSites.mp ⟨s.1, hsite⟩, hname, binder, hargs, htype,
        href⟩, hfine, rfl⟩
  refine ⟨hsound t, ?_⟩
  rintro ⟨name, ⟨site, hcalls, hname, binder, hargs, htype, href⟩, hfine, rfl⟩
  obtain ⟨m, hm⟩ := exists_mem_registrationSites.mpr hcalls
  have hknown : ∀ (l : List TypeDecl) (t : TypeDecl), (l.any fun u => u.name == t.name) = true →
      ∃ u ∈ l, u.name = t.name := by
    intro l t hany
    obtain ⟨u, hu, hname⟩ := List.any_eq_true.mp hany
    exact ⟨u, hu, beq_iff_eq.mp hname⟩
  have hfound : ∃ u ∈ (v.services h).found, u.name = (v.program.lookup name).name :=
    exists_mem_foldl_addInspection v.inspectService hknown
      (mem_filter_registrationSites.mpr ⟨hm, hname⟩)
      (inspectService_eq_found_iff.mpr ⟨binder, name, hargs, htype, href, hfine, rfl⟩)
      { found := [] }
  obtain ⟨u, hu, hkey⟩ := hfound
  -- Types found have the contents that their names stand for.
  obtain ⟨_, _, _, hlookup⟩ := hsound u hu
  rw [hlookup, Program.lookup_name, Program.lookup_name] at hkey
  rw [← hkey, ← hlookup]
  exact hu

/-- The callbacks found are those of unprotected receivers whose types can be looked up. -/
theorem receivers_lists (v : View) (h : Heuristics) :
    Method.Lists (v.receivers h).found fun m =>
      ∃ name, name ∉ v.failing ∧ v.program.Receives h name m := by
  refine ⟨?_, fun m hm => ?_, ?_⟩
  · exact nodup_foldl_addInspection (v.inspectReceiver h)
      (fun _ _ hsome => Method.any_same_iff.mpr hsome) _ List.nodup_nil
  · rcases exists_site_of_mem_foldl_addInspection (v.inspectReceiver h) hm with hnone | ⟨s, hs, hi⟩
    · cases hnone
    · obtain ⟨hsite, hname⟩ := mem_filter_registrationSites.mp hs
      obtain ⟨argument, name, hargument, htype, href, hfine, hcallback⟩ :=
        inspectReceiver_eq_found_iff.mp hi
      exact ⟨name, hfine, s.2, exists_mem_registrationSites.mp ⟨s.1, hsite⟩, hname, argument,
        hargument, htype, href, hcallback⟩
  · rintro m ⟨name, hfine, site, hcalls, hname, argument, hargument, htype, href, hcallback⟩
    obtain ⟨caller, hcaller⟩ := exists_mem_registrationSites.mpr hcalls
    exact exists_mem_foldl_addInspection (v.inspectReceiver h)
      (fun _ _ hany => Method.any_same_iff.mp hany)
      (mem_filter_registrationSites.mpr ⟨hcaller, hname⟩)
      (inspectReceiver_eq_found_iff.mpr
        ⟨argument, name, hargument, htype, href, hfine, hcallback⟩) { found := [] }

end View
end ServiceReach

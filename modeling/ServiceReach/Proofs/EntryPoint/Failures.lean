import ServiceReach.EntryPoint.Identify
import ServiceReach.Proofs.EntryPoint.Services

/-
  Identification where looking names up may fail. A registration whose type cannot be looked up is
  set aside with a diagnostic. The interfaces of services and of likely services are looked up
  outside that guard: a failing name among them ends the identification. `Finds` says what each
  strategy finds, `Considers` whose interfaces it looks at. Identification ends with a failing name
  only if a type under consideration mentions that name, and it does end so if an interface declared
  by a published service or a class above it fails; in all other cases every service and receiver
  whose own name can be looked up contributes what it contributes when no name fails
  (`identify_with_failing_names`).
-/

namespace ServiceReach.View

open Trail

variable {v : View} {h : Heuristics}

/-- The strategy finds the method, provided that nothing stops it. -/
def Finds (v : View) (h : Heuristics) (s : Strategy) (m : Method) : Prop :=
  match s with
  | .services => ∃ name, v.program.Publishes h name ∧ name ∉ v.failing ∧
      v.program.ExposedBy h (v.program.lookup name) m
  | .receivers => ∃ name, name ∉ v.failing ∧ v.program.Receives h name m
  | .binders => ∃ t ∈ v.program.applicationTypes, v.isLikelyService h t = true ∧
      v.program.ExposedBy h t m

/-- The strategy looks at the interfaces of the type. -/
def Considers (v : View) (h : Heuristics) (s : Strategy) (t : TypeDecl) : Prop :=
  match s with
  | .services => ∃ name, v.program.Publishes h name ∧ name ∉ v.failing ∧ t = v.program.lookup name
  | .receivers => False
  | .binders => t ∈ v.program.applicationTypes ∧ v.isLikelyService h t = true

/-! ## One strategy -/

theorem found_likelyMethods (v : View) (h : Heuristics) (f : Findings (List Method))
    (types : List TypeDecl) :
    (v.likelyMethods h f types).found = v.remoteMethodsOf h f.found types := by
  induction types generalizing f with
  | nil => rfl
  | cons t types ih =>
    rw [likelyMethods, remoteMethodsOf]
    cases v.exposedMethods h t with
    | error e => rfl
    | ok methods =>
      cases methods with
      | nil => exact ih f
      | cons m methods => exact ih _

theorem collect_binders_settles (v : View) (h : Heuristics) :
    Settles (v.collect h .binders).found
      (fun methods => Method.Lists methods (v.Finds h .binders) ∧
        ∀ t, v.Considers h .binders t → ¬ v.Stuck t)
      (fun e => e.name ∈ v.failing ∧
        ∃ t, v.Considers h .binders t ∧ v.program.Mentions t e.name) := by
  have hfound : (v.collect h .binders).found =
      v.remoteMethodsOf h [] (v.program.applicationTypes.filter (v.isLikelyService h)) :=
    found_likelyMethods v h _ _
  have hlookup : ∀ t ∈ v.program.applicationTypes.filter (v.isLikelyService h),
      v.program.lookup t.name = t := fun t ht =>
    Program.lookup_of_mem (List.mem_filter.mp (List.mem_filter.mp ht).1).1
  rw [hfound]
  refine Settles.imp (remoteMethodsOf_settles hlookup
    (Method.lists_nil (S := fun _ => False) fun _ hm => hm)) (fun methods hm => ⟨?_, ?_⟩) ?_
  · refine hm.1.congr fun m => ?_
    simp only [Finds, List.mem_filter, false_or, and_assoc]
  · exact fun t ht => hm.2 t (List.mem_filter.mpr ht)
  · rintro e ⟨hfailing, t, ht, hmentions⟩
    exact ⟨hfailing, t, List.mem_filter.mp ht, hmentions⟩

/-- A strategy lists what it finds, and then no type it considers is stuck; or it stops at a failing
    name that a type it considers mentions. -/
theorem collect_settles (v : View) (h : Heuristics) (s : Strategy) :
    Settles (v.collect h s).found
      (fun methods => Method.Lists methods (v.Finds h s) ∧
        ∀ t, v.Considers h s t → ¬ v.Stuck t)
      (fun e => e.name ∈ v.failing ∧ ∃ t, v.Considers h s t ∧ v.program.Mentions t e.name) := by
  cases s with
  | services =>
    refine Settles.imp (collect_services_settles v h) (fun methods hm => ⟨hm.1, ?_⟩) ?_
    · rintro t ⟨name, hpublished, hfine, rfl⟩
      exact hm.2 name hpublished hfine
    · rintro e ⟨hfailing, name, hpublished, hfine, hmentions⟩
      exact ⟨hfailing, _, ⟨name, hpublished, hfine, rfl⟩, hmentions⟩
  | receivers => exact ⟨receivers_lists v h, fun _ hnone => hnone.elim⟩
  | binders => exact collect_binders_settles v h

/-! ## Several strategies -/

theorem runStrategies_settles (strategies : List Strategy) {f : Findings (List Method)}
    {S : Method → Prop} (hf : Method.Lists f.found S) :
    Settles (v.runStrategies h f strategies).found
      (fun methods =>
        Method.Lists methods (fun m => S m ∨ ∃ s ∈ strategies, v.Finds h s m) ∧
          ∀ s ∈ strategies, ∀ t, v.Considers h s t → ¬ v.Stuck t)
      (fun e => e.name ∈ v.failing ∧
        ∃ s ∈ strategies, ∃ t, v.Considers h s t ∧ v.program.Mentions t e.name) := by
  induction strategies generalizing f S with
  | nil => exact ⟨hf.congr fun m => by simp, fun s hs => absurd hs List.not_mem_nil⟩
  | cons s strategies ih =>
    have hone := v.collect_settles h s
    simp only [runStrategies]
    cases hfound : (v.collect h s).found with
    | error e =>
      rw [hfound] at hone
      exact ⟨hone.1, s, List.mem_cons_self, hone.2⟩
    | ok methods =>
      rw [hfound] at hone
      obtain ⟨hlists, hfree⟩ := hone
      refine Settles.imp (ih (hf.union hlists.sound hlists.complete))
        (fun all hall => ⟨?_, ?_⟩) fun e he => ?_
      · refine hall.1.congr fun m => ?_
        simp only [List.mem_cons, exists_eq_or_imp, or_assoc]
      · exact List.forall_mem_cons.mpr ⟨hfree, hall.2⟩
      · obtain ⟨hfailing, s', hs', hmentions⟩ := he
        exact ⟨hfailing, s', List.mem_cons_of_mem s hs', hmentions⟩

theorem run_settles (v : View) (h : Heuristics) (strategies : List Strategy)
    (diagnostics : List Diagnostic) (log : List LogRecord) :
    Settles (v.runStrategies h ⟨[], diagnostics, log⟩ strategies).found
      (fun methods => Method.Lists methods (fun m => ∃ s ∈ strategies, v.Finds h s m) ∧
        ∀ s ∈ strategies, ∀ t, v.Considers h s t → ¬ v.Stuck t)
      (fun e => e.name ∈ v.failing ∧
        ∃ s ∈ strategies, ∃ t, v.Considers h s t ∧ v.program.Mentions t e.name) := by
  refine Settles.imp (runStrategies_settles strategies (f := ⟨[], diagnostics, log⟩)
    (Method.lists_nil (S := fun _ => False) fun _ hm => hm)) (fun methods hm => ⟨?_, hm.2⟩)
    fun _ he => he
  exact hm.1.congr fun m => by rw [false_or]

/-! ## Identification -/

/-- What an outcome of identification says about the strategies. -/
def Accounts (v : View) (h : Heuristics) (strategies : Strategies) :
    Except IdentifyError (List Method) → Prop
  | .ok entries => entries ≠ [] ∧
      (Method.Lists entries (fun m => ∃ s ∈ strategies.primary, v.Finds h s m) ∨
        (∀ s ∈ strategies.primary, ∀ m, ¬ v.Finds h s m) ∧
          Method.Lists entries fun m => ∃ s ∈ strategies.fallback, v.Finds h s m)
  | .error (.noEntryPoints _) =>
      ∀ s ∈ strategies.primary ++ strategies.fallback, ∀ m, ¬ v.Finds h s m
  | .error (.unresolvable e) => e.name ∈ v.failing ∧
      ∃ s ∈ strategies.primary ++ strategies.fallback, ∃ t, v.Considers h s t ∧
        v.program.Mentions t e.name

theorem identify_accounts (v : View) (h : Heuristics) (strategies : Strategies) :
    Accounts v h strategies (v.identify h strategies).entries := by
  have hnothing : ∀ {strategies : List Strategy},
      Method.Lists [] (fun m => ∃ s ∈ strategies, v.Finds h s m) →
        ∀ s ∈ strategies, ∀ m, ¬ v.Finds h s m := by
    intro strategies hlists s hs m hm
    obtain ⟨n, hn, _⟩ := hlists.complete m ⟨s, hs, hm⟩
    cases hn
  have hprimary := v.run_settles h strategies.primary []
    [⟨.info, .entryPoints, "Identifying API Entry Points..."⟩]
  unfold identify
  dsimp only
  generalize v.runStrategies h _ strategies.primary = f at hprimary ⊢
  rcases hf : f.found with e | _ | ⟨m, methods⟩
  · rw [hf] at hprimary
    obtain ⟨hfailing, s, hs, hmentions⟩ := hprimary
    simp only [conclude, hf]
    exact ⟨hfailing, s, List.mem_append_left _ hs, hmentions⟩
  · rw [hf] at hprimary
    have hnone := hnothing hprimary.1
    dsimp only
    split
    · rename_i hempty
      simp only [conclude, hf]
      rw [Accounts, List.isEmpty_iff.mp hempty, List.append_nil]
      exact hnone
    · have hfallback := v.run_settles h strategies.fallback f.diagnostics
        (f.log ++ fallbackRecords h)
      generalize v.runStrategies h _ strategies.fallback = g at hfallback ⊢
      rcases hg : g.found with e | _ | ⟨m, methods⟩
      · rw [hg] at hfallback
        obtain ⟨hfailing, s, hs, hmentions⟩ := hfallback
        simp only [conclude, hg]
        exact ⟨hfailing, s, List.mem_append_right _ hs, hmentions⟩
      · rw [hg] at hfallback
        simp only [conclude, hg]
        exact List.forall_mem_append.mpr ⟨hnone, hnothing hfallback.1⟩
      · rw [hg] at hfallback
        simp only [conclude, hg]
        exact ⟨List.cons_ne_nil m methods, Or.inr ⟨hnone, hfallback.1⟩⟩
  · rw [hf] at hprimary
    simp only [conclude, hf]
    exact ⟨List.cons_ne_nil m methods, Or.inl hprimary.1⟩

theorem identify_of_stuck {strategies : Strategies} {s : Strategy} (hs : s ∈ strategies.primary)
    {t : TypeDecl} (ht : v.Considers h s t) (hstuck : v.Stuck t) :
    ∃ e, (v.identify h strategies).entries = .error (.unresolvable e) := by
  have hprimary := v.run_settles h strategies.primary []
    [⟨.info, .entryPoints, "Identifying API Entry Points..."⟩]
  unfold identify
  dsimp only
  generalize v.runStrategies h _ strategies.primary = f at hprimary ⊢
  cases hf : f.found with
  | ok methods =>
    rw [hf] at hprimary
    exact absurd hstuck (hprimary.2 s hs t ht)
  | error e =>
    refine ⟨e, ?_⟩
    simp only [conclude, hf]

/-- Identification brings what the primary strategies find, or what the fallback finds if that is
    nothing, or says that no strategy finds anything. It ends with a failing name only if a type
    that a strategy considers mentions it, and it does so if a type that a primary strategy
    considers is stuck. -/
theorem identify_with_failing_names (v : View) (h : Heuristics) (strategies : Strategies) :
    Accounts v h strategies (v.identify h strategies).entries ∧
      ∀ s ∈ strategies.primary, ∀ t, v.Considers h s t → v.Stuck t →
        ∃ e, (v.identify h strategies).entries = .error (.unresolvable e) :=
  ⟨v.identify_accounts h strategies, fun _ hs _ ht hstuck => identify_of_stuck hs ht hstuck⟩

/-! ## A service whose interface fails -/

/-- A call that publishes an object of a type. -/
def publishing (type : String) (ordinal : Int) : CallSite where
  caller := some "<app.Boot: void start()>"
  position := 0
  ordinal := ordinal
  name := "addService"
  args := [⟨"name", some "java.lang.String", false⟩, ⟨"service", some type, false⟩]
  receiver := none
  dispatch := .virtual
  target := "<?: ? addService(java.lang.String,?)>"

/-- The method `void tick()` of a type. -/
def tickIn (owner : String) (hasBody : Bool) : Method where
  owner := owner
  name := "tick"
  modifiers := if hasBody then ["public"] else ["public", "abstract"]
  hasBody := hasBody

/-- The method that publishes a clock and another service. -/
def bootStart : Method where
  owner := "app.Boot"
  name := "start"
  hasBody := true
  code := [⟨0, "publish", .statement, [publishing "app.Clock" 0, publishing "app.Other" 1], 0⟩]

/-- A program that publishes a clock and another service. -/
def clockProgram : Program where
  types :=
    [{ name := "app.Boot", isApplication := true, methods := [bootStart] },
     { name := "app.Clock", isApplication := true, interfaces := ["app.IClock"],
       methods := [tickIn "app.Clock" true] },
     { name := "app.IClock", isApplication := true, isInterface := true, isAbstract := true,
       interfaces := ["android.os.IInterface"], methods := [tickIn "app.IClock" false] },
     { name := "app.Other", isApplication := true, interfaces := ["lib.IOther"] }]
  nodup := by decide

/-- The names that the search goes by if nothing is set. -/
def usualHeuristics : Heuristics :=
  let settings : Settings := {}
  { serviceCalls := settings.serviceCalls
    receiverCalls := settings.receiverCalls
    receiverCallback := .text settings.receiverCallback
    remoteMarker := .text settings.remoteMarker
    binderRoot := .text settings.binderRoot
    serverNamespace := settings.serverNamespace }

/-- The clock alone is an entry method, as long as no name fails. If the interface of the other
    service fails, identification ends there and the clock, which mentions no failing name, is
    lost. -/
theorem identify_clock_lost :
    ((ofProgram clockProgram).identify usualHeuristics {}).entries =
        .ok [tickIn "app.Clock" true] ∧
      (View.identify { program := clockProgram, failing := ["lib.IOther"] }
        usualHeuristics {}).entries = .error (.unresolvable ⟨"lib.IOther"⟩) := by
  decide +kernel

end ServiceReach.View

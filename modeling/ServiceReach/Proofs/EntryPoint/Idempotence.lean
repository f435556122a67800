import ServiceReach.EntryPoint.Identifier
import ServiceReach.Proofs.Model.Window

/-
  Identification is idempotent. What a part of a run `Brings` does not depend on what was recorded
  before it: it answers, adds diagnostics and records, and leaves a sound store of the program. Each
  part brings what the view of the program with the same failing names brings, and a run starts by
  dropping what the run before left behind. So identifying tells the same on every sound store,
  whatever the identifier found before. Any number of identifiers may share a store; whatever they
  were told to do and whatever was asked in between, an identifier finds what a new one finds
  (`outcome_after_history`).
-/

namespace ServiceReach

open Store

/-! ## Findings behind others -/

namespace Findings

variable {α : Type}

/-- The findings with diagnostics and records before them. -/
def behind (f : Findings α) (diagnostics : List Diagnostic) (log : List LogRecord) : Findings α :=
  { f with diagnostics := diagnostics ++ f.diagnostics, log := log ++ f.log }

@[simp]
theorem found_behind (f : Findings α) (ds : List Diagnostic) (log : List LogRecord) :
    (f.behind ds log).found = f.found := rfl

@[simp]
theorem behind_mk (a : α) (ds ds' : List Diagnostic) (log log' : List LogRecord) :
    behind ⟨a, ds', log'⟩ ds log = ⟨a, ds ++ ds', log ++ log'⟩ := rfl

theorem eq_behind (f : Findings α) : f = behind ⟨f.found, [], []⟩ f.diagnostics f.log := by
  rw [behind_mk, List.append_nil, List.append_nil]

/-- The findings with something else found. -/
def map {β : Type} (f : Findings α) (g : α → β) : Findings β :=
  { f with found := g f.found }

theorem behind_behind (f : Findings α) (ds ds' : List Diagnostic) (log log' : List LogRecord) :
    (f.behind ds' log').behind ds log = f.behind (ds ++ ds') (log ++ log') := by
  unfold behind
  simp only [List.append_assoc]

end Findings

namespace View

variable {α : Type}

theorem addInspection_behind (known : List α → α → Bool) (label : α → String)
    (f : Findings (List α)) (ds : List Diagnostic) (log : List LogRecord) (m : Method)
    (site : CallSite) (i : Inspection α) :
    addInspection known label (f.behind ds log) m site i =
      (addInspection known label f m site i).behind ds log := by
  unfold addInspection
  cases i with
  | nothing => rfl
  | unusable message =>
    simp only [Findings.diagnose, Findings.behind, List.append_assoc]
  | found a =>
    rw [Findings.found_behind]
    by_cases hknown : known f.found a = true
    · simp only [if_pos hknown]
    · simp only [if_neg hknown, Findings.behind, List.append_assoc]

theorem likelyMethods_behind (v : View) (h : Heuristics) (f : Findings (List Method))
    (ds : List Diagnostic) (log : List LogRecord) (types : List TypeDecl) :
    v.likelyMethods h (f.behind ds log) types = (v.likelyMethods h f types).behind ds log := by
  induction types generalizing f with
  | nil => rfl
  | cons t types ih =>
    rw [likelyMethods, likelyMethods]
    rcases v.exposedMethods h t with e | _ | ⟨m, methods⟩
    · rfl
    · exact ih f
    · rw [← ih]
      simp only [Findings.behind, List.append_assoc]

theorem runStrategies_behind (v : View) (h : Heuristics) (f : Findings (List Method))
    (ds : List Diagnostic) (log : List LogRecord) (strategies : List Strategy) :
    v.runStrategies h (f.behind ds log) strategies =
      (v.runStrategies h f strategies).behind ds log := by
  induction strategies generalizing f with
  | nil => rfl
  | cons s strategies ih =>
    rw [runStrategies, runStrategies]
    cases (v.collect h s).found with
    | error e => simp only [Findings.behind, List.append_assoc]
    | ok methods =>
      dsimp only
      rw [← ih]
      simp only [Findings.behind, List.append_assoc]

theorem identify_eq (v : View) (h : Heuristics) (strategies : Strategies)
    {f : Findings (Except Unresolvable (List Method))}
    (hf : v.runStrategies h ⟨[], [], [Identifier.startRecord]⟩ strategies.primary = f) :
    v.identify h strategies =
      match f.found with
      | .ok [] =>
        if strategies.fallback.isEmpty then conclude false f
        else
          conclude true (v.runStrategies h ⟨[], f.diagnostics, f.log ++ fallbackRecords h⟩
            strategies.fallback)
      | _ => conclude false f := by
  subst hf
  rfl

end View

/-! ## Parts of a run -/

section Brings

variable {p : Program} {α β : Type}

/-- On every sound store of the program this part of a run answers with what was found, adds the
    diagnostics and the records, and leaves a sound store of the program behind. -/
def Brings (p : Program) (x : Inquire α) (f : Findings (Except Unresolvable α)) : Prop :=
  ∀ s : Inquiry, s.store.Sound → s.store.program = p →
    ∃ store : Store, store.Sound ∧ store.program = p ∧
      x.run s = (f.found, ⟨store, s.diagnostics ++ f.diagnostics, s.usedFallback, s.log ++ f.log⟩)

theorem run_bind (x : Inquire α) (f : α → Inquire β) (s : Inquiry) :
    (x >>= f).run s =
      match x.run s with
      | (.ok a, s) => (f a).run s
      | (.error e, s) => (.error e, s) := by
  change ExceptT.bindCont f (x.run s).1 (x.run s).2 = _
  generalize x.run s = r
  obtain ⟨r, s⟩ := r
  cases r with
  | error e => rfl
  | ok a => rfl

theorem brings_pure (a : α) : Brings p (pure a) ⟨.ok a, [], []⟩ := by
  intro s hs hp
  refine ⟨s.store, hs, hp, ?_⟩
  simp only [List.append_nil]
  rfl

theorem Brings.bind {x : Inquire α} {a : α} {ds : List Diagnostic} {log : List LogRecord}
    {f : α → Inquire β} {g : Findings (Except Unresolvable β)}
    (hx : Brings p x ⟨.ok a, ds, log⟩) (hf : Brings p (f a) g) :
    Brings p (x >>= f) (g.behind ds log) := by
  intro s hs hp
  obtain ⟨store, hsound, hprogram, hrun⟩ := hx s hs hp
  obtain ⟨store', hsound', hprogram', hrun'⟩ :=
    hf ⟨store, s.diagnostics ++ ds, s.usedFallback, s.log ++ log⟩ hsound hprogram
  refine ⟨store', hsound', hprogram', ?_⟩
  rw [run_bind, hrun]
  simp only [hrun', Findings.behind, List.append_assoc]

theorem Brings.bind_of_error {x : Inquire α} {e : Unresolvable} {ds : List Diagnostic}
    {log : List LogRecord} (hx : Brings p x ⟨.error e, ds, log⟩) (f : α → Inquire β) :
    Brings p (x >>= f) ⟨.error e, ds, log⟩ := by
  intro s hs hp
  obtain ⟨store, hsound, hprogram, hrun⟩ := hx s hs hp
  refine ⟨store, hsound, hprogram, ?_⟩
  rw [run_bind, hrun]

/-- A part that answers without diagnostics and records leaves it to the rest what is added. -/
theorem Brings.bind_quiet {x : Inquire α} {a : α} {f : α → Inquire β}
    {g : Findings (Except Unresolvable β)} (hx : Brings p x ⟨.ok a, [], []⟩)
    (hf : Brings p (f a) g) : Brings p (x >>= f) g :=
  hx.bind hf

theorem brings_get {f : Inquiry → Inquire α} {g : Findings (Except Unresolvable α)}
    (h : ∀ s : Inquiry, s.store.program = p → Brings p (f s) g) : Brings p (get >>= f) g :=
  fun s hs hp => h s hp s hs hp

theorem brings_ask {x : Access α} {a : α} (h : Tells p x a) :
    Brings p (Inquire.ask x) ⟨.ok a, [], []⟩ := by
  intro s hs hp
  obtain ⟨hanswer, hsound, hprogram⟩ := h s.store hs hp
  refine ⟨(x s.store).2, hsound, hprogram, ?_⟩
  simp only [List.append_nil, ← hanswer]
  rfl

theorem brings_probe {x : Probe α} {r : Except Unresolvable α} (h : Tells p x.run r) :
    Brings p (Inquire.probe x) ⟨r, [], []⟩ := by
  refine (brings_ask h).bind_quiet ?_
  cases r with
  | ok a => exact brings_pure a
  | error e =>
    intro s hs hp
    refine ⟨s.store, hs, hp, ?_⟩
    simp only [List.append_nil]
    rfl

theorem brings_say (records : List LogRecord) :
    Brings p (Inquire.say records) ⟨.ok (), [], records⟩ := by
  intro s hs hp
  refine ⟨s.store, hs, hp, ?_⟩
  simp only [List.append_nil]
  rfl

theorem brings_diagnose (d : Diagnostic) :
    Brings p (Inquire.diagnose d) ⟨.ok (), [d], [d.record]⟩ :=
  fun s hs hp => ⟨s.store, hs, hp, rfl⟩

/-- A fold whose steps bring the steps of another. -/
theorem Brings.foldlM {x : α → β → Inquire α} {g : Findings α → β → Findings α}
    (hstep : ∀ a b, Brings p (x a b) ((g ⟨a, [], []⟩ b).map .ok))
    (hbehind : ∀ f ds log b, g (f.behind ds log) b = (g f b).behind ds log) (l : List β) (a : α) :
    Brings p (l.foldlM x a) ((l.foldl g ⟨a, [], []⟩).map .ok) := by
  induction l generalizing a with
  | nil => exact brings_pure a
  | cons b l ih =>
    rw [List.foldlM_cons, List.foldl_cons]
    generalize hg : g ⟨a, [], []⟩ b = f
    have hfold : l.foldl g f = (l.foldl g ⟨f.found, [], []⟩).behind f.diagnostics f.log := by
      conv_lhs => rw [f.eq_behind]
      exact List.foldl_hom (fun f' => f'.behind f.diagnostics f.log) fun f' b =>
        hbehind f' f.diagnostics f.log b
    have hfirst := hstep a b
    rw [hg] at hfirst
    rw [hfold]
    exact hfirst.bind (f := fun a => l.foldlM x a) (ih f.found)

end Brings

namespace Window

variable (w : Window) (p : Program) (h : Heuristics)

/-! ## Registrations -/

theorem inspectService_tells (site : CallSite) :
    Tells p (w.inspectService site) ((w.view p).inspectService site) := by
  unfold inspectService View.inspectService
  rcases site.args with _ | ⟨_, _ | ⟨binder, _⟩⟩
  · exact tells_pure _
  · exact tells_pure _
  · dsimp only
    by_cases hreference : binder.isReference = true
    · rw [if_pos hreference, if_pos hreference]
      refine Tells.bind (w.resolve_shows p binder.type) ?_
      rcases ((w.view p).resolve binder.type).run.value with e | _ | t
      · exact tells_pure _
      · exact tells_pure _
      · exact tells_pure _
    · rw [if_neg hreference, if_neg hreference]
      exact tells_pure _

theorem inspectReceiver_tells (site : CallSite) :
    Tells p (w.inspectReceiver h site) ((w.view p).inspectReceiver h site) := by
  unfold inspectReceiver View.inspectReceiver
  cases (View.unprotectedReceiver? site.args).filter Argument.isReference with
  | none => exact tells_pure _
  | some receiver =>
    dsimp only
    refine Tells.bind (w.resolve_shows p receiver.type) ?_
    rcases ((w.view p).resolve receiver.type).run.value with e | _ | t
    · exact tells_pure _
    · exact tells_pure _
    · dsimp only
      cases h.receiverCallback.text?.bind t.declared? with
      | none => exact tells_pure _
      | some m => exact tells_pure _

theorem addRegistration_brings {α : Type} (known : List α → α → Bool) (label : α → String)
    {inspect : CallSite → Access (Inspection α)} {i : Inspection α} {site : CallSite}
    (hinspect : Tells p (inspect site) i) (found : List α) (m : Method) :
    Brings p (addRegistration known label inspect found (m, site))
      ((View.addInspection known label ⟨found, [], []⟩ m site i).map .ok) := by
  refine (brings_ask hinspect).bind_quiet ?_
  unfold View.addInspection
  cases i with
  | nothing => exact brings_pure found
  | unusable message =>
    exact (brings_diagnose _).bind (f := fun _ => pure found) (brings_pure found)
  | found a =>
    dsimp only
    by_cases hknown : known found a = true
    · rw [if_pos hknown, if_pos hknown]
      exact brings_pure found
    · rw [if_neg hknown, if_neg hknown]
      exact (brings_say _).bind (f := fun _ => pure (found ++ [a])) (brings_pure (found ++ [a]))

theorem sitesNamed_brings (names : List String) :
    Brings p (sitesNamed names)
      ⟨.ok ((w.view p).registrationSites.filter fun s => names.contains s.2.name), [], []⟩ := by
  refine brings_get fun s hp => ?_
  rw [hp]
  exact brings_pure _

theorem services_brings : Brings p (w.services h) (((w.view p).services h).map .ok) := by
  refine (w.sitesNamed_brings p h.serviceCalls).bind_quiet ?_
  exact Brings.foldlM (fun found (m, site) =>
      addRegistration_brings p _ _ (w.inspectService_tells p site) found m)
    (fun f ds log (m, site) => View.addInspection_behind _ _ f ds log m site _) _ []

theorem receivers_brings : Brings p (w.receivers h) (((w.view p).receivers h).map .ok) := by
  refine (w.sitesNamed_brings p h.receiverCalls).bind_quiet ?_
  exact Brings.foldlM (fun found (m, site) =>
      addRegistration_brings p _ _ (w.inspectReceiver_tells p h site) found m)
    (fun f ds log (m, site) => View.addInspection_behind _ _ f ds log m site _) _ []

/-! ## Strategies -/

theorem exposedMethods_tells (t : TypeDecl) :
    Tells p (w.exposedMethods h t).run ((w.view p).exposedMethods h t) :=
  w.remoteMethods_shows p t h.remoteMarker.text?

theorem remoteMethodsOf_tells (found : List Method) (types : List TypeDecl) :
    Tells p (w.remoteMethodsOf h found types).run ((w.view p).remoteMethodsOf h found types) := by
  induction types generalizing found with
  | nil => exact tells_pure (Except.ok found)
  | cons t types ih =>
    rw [remoteMethodsOf, View.remoteMethodsOf]
    exact Tells.probe_bind (w.exposedMethods_tells p h t) fun methods => ih _

theorem isLikelyService_tells (t : TypeDecl) :
    Tells p (isLikelyService h t) ((w.view p).isLikelyService h t) := by
  unfold isLikelyService View.isLikelyService View.isServerBinder
  rw [← Bool.and_assoc]
  cases t.isRealClass && Text.startsWith h.serverNamespace t.name with
  | false => exact tells_pure false
  | true =>
    rw [Bool.true_and]
    exact isSubclass_tells p t h.binderRoot.text?

theorem likelyMethods_brings (found : List Method) (types : List TypeDecl) :
    Brings p (w.likelyMethods h found types)
      ((w.view p).likelyMethods h ⟨found, [], []⟩
        (types.filter ((w.view p).isLikelyService h))) := by
  induction types generalizing found with
  | nil => exact brings_pure found
  | cons t types ih =>
    refine (brings_ask (w.isLikelyService_tells p h t)).bind_quiet ?_
    cases hlikely : (w.view p).isLikelyService h t with
    | false =>
      rw [List.filter_cons_of_neg (by simp [hlikely])]
      exact ih found
    | true =>
      rw [List.filter_cons_of_pos hlikely, View.likelyMethods]
      have hexposed := brings_probe (w.exposedMethods_tells p h t)
      rcases hmethods : (w.view p).exposedMethods h t with e | _ | ⟨m, methods⟩
      · rw [hmethods] at hexposed
        exact hexposed.bind_of_error _
      · rw [hmethods] at hexposed
        exact hexposed.bind_quiet (ih found)
      · rw [hmethods] at hexposed
        refine hexposed.bind_quiet ?_
        have hsaid := (brings_say (p := p) [⟨.info, .entryPoints,
          " [FALLBACK] Found likely service: " ++ t.name⟩]).bind
          (f := fun _ => w.likelyMethods h ((m :: methods).foldl Method.insertNew found) types) (ih _)
        rw [← View.likelyMethods_behind] at hsaid
        exact hsaid

theorem collect_brings (s : Strategy) : Brings p (w.collect h s) ((w.view p).collect h s) := by
  cases s with
  | services =>
    have hcollect := (w.services_brings p h).bind
      (f := fun types => Inquire.probe (w.remoteMethodsOf h [] types))
      (brings_probe (w.remoteMethodsOf_tells p h [] _))
    rw [Findings.behind_mk, List.append_nil, List.append_nil] at hcollect
    exact hcollect
  | receivers => exact w.receivers_brings p h
  | binders =>
    refine brings_get fun s hp => ?_
    rw [hp]
    exact w.likelyMethods_brings p h [] p.applicationTypes

/-! ## Runs -/

theorem runStrategies_brings (found : List Method) (strategies : List Strategy) :
    Brings p (w.runStrategies h found strategies)
      ((w.view p).runStrategies h ⟨found, [], []⟩ strategies) := by
  induction strategies generalizing found with
  | nil => exact brings_pure found
  | cons s strategies ih =>
    have hcollect := w.collect_brings p h s
    rw [View.runStrategies]
    generalize (w.view p).collect h s = f at hcollect ⊢
    obtain ⟨r, ds, log⟩ := f
    cases r with
    | error e => exact hcollect.bind_of_error _
    | ok methods =>
      have hrest := (brings_say (p := p) [View.strategyRecord s methods]).bind
        (f := fun _ => w.runStrategies h (methods.foldl Method.insertNew found) strategies) (ih _)
      have hrun := hcollect.bind
        (f := fun methods => do
          Inquire.say [View.strategyRecord s methods]
          w.runStrategies h (methods.foldl Method.insertNew found) strategies) hrest
      rw [Findings.behind_behind, ← View.runStrategies_behind, Findings.behind_mk] at hrun
      simp only [List.append_nil, List.nil_append] at hrun ⊢
      exact hrun

end Window

namespace Identifier

variable (x : Identifier) (w : Window) (p : Program)

/-- The identifier after an identification. -/
def afterwards (x : Identifier) (found : Identification) : Identifier :=
  { x with diagnostics := found.diagnostics, usedFallback := found.usedFallback }

/-- Where the search for entry methods ends that starts without diagnostics. -/
theorem run_seek {store : Store} (hs : store.Sound) (hp : store.program = p) :
    ∃ found : Except Unresolvable (List Method), ∃ s : Inquiry,
      (x.seek w).run ⟨store, [], false, [startRecord]⟩ = (found, s) ∧
        s.store.Sound ∧ s.store.program = p ∧
        conclude found s = (w.view p).identify x.heuristics x.strategies := by
  have hprimary := w.runStrategies_brings p x.heuristics [] x.strategies.primary
  obtain ⟨store, hsound, hprogram, hrun⟩ := hprimary ⟨store, [], false, [startRecord]⟩ hs hp
  have hidentify := (w.view p).identify_eq x.heuristics x.strategies
    ((w.view p).runStrategies_behind x.heuristics ⟨[], [], []⟩ [] [startRecord] x.strategies.primary)
  generalize (w.view p).runStrategies x.heuristics ⟨[], [], []⟩ x.strategies.primary = f
    at hrun hidentify
  obtain ⟨r, ds, log⟩ := f
  rw [seek, run_bind, hrun, hidentify]
  rcases r with e | _ | ⟨m, entries⟩
  · exact ⟨_, _, rfl, hsound, hprogram, rfl⟩
  · by_cases hempty : x.strategies.fallback.isEmpty = true
    · simp only [if_pos hempty]
      exact ⟨_, _, rfl, hsound, hprogram, rfl⟩
    · simp only [if_neg hempty]
      obtain ⟨store', hsound', hprogram', hrun'⟩ :=
        w.runStrategies_brings p x.heuristics [] x.strategies.fallback
          ⟨store, [] ++ ds, true, [startRecord] ++ log ++ View.fallbackRecords x.heuristics⟩ hsound
          hprogram
      refine ⟨_, _, hrun', hsound', hprogram', ?_⟩
      rw [Findings.behind_mk, Findings.eq_behind ⟨([] : List Method), [] ++ ds, _⟩,
        View.runStrategies_behind]
      rfl
  · exact ⟨_, _, rfl, hsound, hprogram, rfl⟩

theorem diagnostics_conclude (usedFallback : Bool)
    (f : Findings (Except Unresolvable (List Method))) :
    (View.conclude usedFallback f).diagnostics = f.diagnostics := by
  unfold View.conclude
  split <;> rfl

theorem usedFallback_conclude (usedFallback : Bool)
    (f : Findings (Except Unresolvable (List Method))) :
    (View.conclude usedFallback f).usedFallback = usedFallback := by
  unfold View.conclude
  split <;> rfl

/-- What comes of identifying depends on the program and on what the identifier goes by. -/
theorem identify_tells :
    Tells p (x.identify w)
      ((w.view p).identify x.heuristics x.strategies,
        x.afterwards ((w.view p).identify x.heuristics x.strategies)) := by
  intro store hs hp
  obtain ⟨found, s, hrun, hsound, hprogram, hconclude⟩ := x.run_seek w p hs hp
  have hsearch : (x.search w).run ⟨store, x.diagnostics, x.usedFallback, []⟩ = (found, s) := hrun
  rw [identify, hsearch, ← hconclude]
  refine ⟨?_, hsound, hprogram⟩
  rw [conclude, afterwards, diagnostics_conclude, usedFallback_conclude]
  rfl

end Identifier

/-! ## Histories -/

/-- Identifiers that share a store. -/
structure Team where
  store : Store
  members : List Identifier

/-- What may happen while identifiers share a store. -/
inductive Event where
  /-- The store is asked something. -/
  | ask (q : Query)
  /-- A new identifier joins. -/
  | join (heuristics : Heuristics) (strategies : Strategies)
  /-- An identifier is told to identify the entry methods. -/
  | identify (member : Nat)

/-- The identifier that joins, if one does. -/
def Event.joined? : Event → Option Identifier
  | .join heuristics strategies => some { heuristics, strategies }
  | _ => none

namespace Team

variable (w : Window)

/-- What comes of telling a member to identify the entry methods: what it finds, and the member
    afterwards. -/
def outcome (t : Team) (member : Nat) : Option (Identification × Identifier) :=
  t.members[member]?.map fun x => (x.identify w t.store).1

/-- The identifiers and their store after an event. -/
def step (t : Team) : Event → Team
  | .ask q => { t with store := (answer q t.store).2 }
  | .join heuristics strategies => { t with members := t.members ++ [{ heuristics, strategies }] }
  | .identify member =>
    match t.members[member]? with
    | none => t
    | some x =>
      let ((_, x), store) := x.identify w t.store
      ⟨store, t.members.set member x⟩

/-- The identifiers and their store after a history of events. -/
def after (store : Store) (events : List Event) : Team :=
  events.foldl (step w) ⟨store, []⟩

/-- The identifier as it was when it was new. -/
def renewed (x : Identifier) : Identifier :=
  { heuristics := x.heuristics, strategies := x.strategies }

/-- The store is a sound store of the program, and the members were these when they were new. -/
structure Stands (p : Program) (newcomers : List Identifier) (t : Team) : Prop where
  sound : t.store.Sound
  program : t.store.program = p
  members : t.members.map renewed = newcomers

variable {w} {p : Program} {newcomers : List Identifier} {t : Team}

theorem Stands.step (h : Stands p newcomers t) (e : Event) :
    Stands p (newcomers ++ e.joined?.toList) (t.step w e) := by
  cases e with
  | ask q =>
    obtain ⟨_, hsteady⟩ := answer_steady q p
    obtain ⟨_, hsound, hprogram⟩ := hsteady t.store h.sound h.program
    refine ⟨hsound, hprogram, ?_⟩
    exact h.members.trans (List.append_nil newcomers).symm
  | join heuristics strategies =>
    refine ⟨h.sound, h.program, ?_⟩
    rw [← h.members]
    exact List.map_append
  | identify member =>
    have hnone : newcomers ++ (Event.identify member).joined?.toList = newcomers :=
      List.append_nil newcomers
    rw [hnone, Team.step]
    cases hx : t.members[member]? with
    | none => exact h
    | some x =>
      obtain ⟨hvalue, hsound, hprogram⟩ := x.identify_tells w p t.store h.sound h.program
      refine ⟨hsound, hprogram, ?_⟩
      have hrenewed : renewed (x.identify w t.store).1.2 = renewed x := by
        rw [hvalue]
        rfl
      obtain ⟨hmember, rfl⟩ := List.getElem?_eq_some_iff.mp hx
      rw [← h.members]
      change (t.members.set member (Identifier.identify _ w t.store).1.2).map renewed = _
      rw [List.map_set, hrenewed, ← List.map_set, List.set_getElem_self]

theorem Stands.foldl (w : Window) (h : Stands p newcomers t) (events : List Event) :
    Stands p (newcomers ++ events.filterMap Event.joined?) (events.foldl (Team.step w) t) := by
  induction events generalizing newcomers t with
  | nil =>
    rw [List.filterMap_nil, List.append_nil]
    exact h
  | cons e events ih =>
    have hrest := ih (h.step (w := w) e)
    have hjoined : (e :: events).filterMap Event.joined? =
        e.joined?.toList ++ events.filterMap Event.joined? := by
      rw [List.filterMap_cons]
      cases e.joined? with
      | none => rfl
      | some x => rfl
    rw [hjoined, ← List.append_assoc]
    exact hrest

/-- Whatever was declared and asked before, and whatever identifiers joined, identified and asked
    since: an identifier finds what it finds when it is new and nothing has happened yet. That is
    what the view of the program brings, with its diagnostics and its records. -/
theorem outcome_after_history (w : Window) (operations : List Operation) (events : List Event)
    (member : Nat) :
    (Team.after w (Store.after operations) events).outcome w member =
        (events.filterMap Event.joined?)[member]?.map
          (fun x => (x.identify w (Store.after operations)).1) ∧
      ∀ x : Identifier, (x.identify w (Store.after operations)).1 =
        ((w.view (Store.after operations).program).identify x.heuristics x.strategies,
          x.afterwards ((w.view (Store.after operations).program).identify
            x.heuristics x.strategies)) := by
  obtain ⟨hsound, _⟩ := sound_empty.foldl_perform operations
  have hnew : ∀ x : Identifier, _ := fun x =>
    (x.identify_tells w (Store.after operations).program (Store.after operations) hsound rfl).1
  have hstands : Stands (Store.after operations).program ([] ++ events.filterMap Event.joined?)
      (Team.after w (Store.after operations) events) :=
    Stands.foldl w (t := ⟨Store.after operations, []⟩) ⟨hsound, rfl, rfl⟩ events
  refine ⟨?_, hnew⟩
  rw [List.nil_append] at hstands
  rw [← hstands.members, List.getElem?_map, Option.map_map, outcome]
  refine congrFun (congrArg Option.map (funext fun x => ?_)) _
  exact ((x.identify_tells w _ _ hstands.sound hstands.program).1).trans (hnew (renewed x)).symm

end Team
end ServiceReach

import ServiceReach.Proofs.EntryPoint.Failures
import ServiceReach.Proofs.EntryPoint.Idempotence

/-
  The two stages of identification, for strategies of any kind. A `Scout` is any search for entry
  methods that may ask the store, record diagnostics and write to the log. `Reports` says what
  several of them bring when they run one after the other: their results behind each other, and
  their diagnostics in that order. Identification keeps the first method of each signature. It turns
  to the second stage only if the first one brings nothing, and fails only if both do
  (`identify_stages`). The identifier is the case of the strategies that there are.
-/

namespace ServiceReach

/-! ## The first method of each signature -/

/-- Inserting methods one by one keeps the first of each signature. -/
theorem Method.foldl_insertNew_eq_eraseDupsBy (others methods : List Method) :
    others.foldl insertNew methods =
      methods ++ (others.filter fun m => !methods.any (·.same m)).eraseDupsBy same := by
  induction others generalizing methods with
  | nil => exact (List.append_nil methods).symm
  | cons m others ih =>
    rw [List.foldl_cons, ih]
    by_cases hany : methods.any (·.same m) = true
    · rw [insertNew_of_any hany, List.filter_cons_of_neg (by simpa using hany)]
    · rw [insertNew_of_not_any hany, List.filter_cons_of_pos (by simpa using hany),
        List.eraseDupsBy_cons, List.filter_filter, List.append_assoc, List.singleton_append]
      congr 3
      refine List.filter_congr fun n _ => ?_
      have hsymm : m.same n = n.same m := BEq.comm
      rw [List.any_append, List.any_cons, List.any_nil, Bool.or_false, hsymm, Bool.not_or,
        Bool.and_comm]
      cases n.same m with
      | true => rfl
      | false => rfl

theorem Method.foldl_insertNew_nil (methods : List Method) :
    methods.foldl insertNew [] = methods.eraseDupsBy same := by
  have hall : methods.filter (fun m => !([] : List Method).any (·.same m)) = methods :=
    List.filter_eq_self.mpr fun _ _ => rfl
  rw [foldl_insertNew_eq_eraseDupsBy, hall, List.nil_append]

theorem Method.eraseDupsBy_ne_nil {methods : List Method} (h : methods ≠ []) :
    methods.eraseDupsBy same ≠ [] := by
  rw [← foldl_insertNew_nil]
  exact fun hnil => h (foldl_insertNew_eq_nil hnil).2

/-! ## Scouts -/

/-- A search for entry methods, with its name. -/
structure Scout where
  name : String
  collect : Inquire (List Method)

/-- The strategy, as it searches through a window. -/
def Window.scout (w : Window) (h : Heuristics) (s : Strategy) : Scout :=
  ⟨s.name, w.collect h s⟩

namespace Scout

/-- What is said about the methods a scout found. -/
def record (x : Scout) (methods : List Method) : LogRecord :=
  ⟨.debug, .entryPoints, "Strategy " ++ x.name ++ " produced " ++ toString methods.length ++
    " candidates"⟩

/-- Runs scouts in order and unites what they find. -/
def runAll (found : List Method) : List Scout → Inquire (List Method)
  | [] => return found
  | x :: rest => do
    let methods ← x.collect
    Inquire.say [x.record methods]
    runAll (methods.foldl Method.insertNew found) rest

/-- Looks for entry methods, with the fallback scouts only if the primary ones find none. -/
def seek (h : Heuristics) (primary fallback : List Scout) : Inquire (List Method) := do
  let entries ← runAll [] primary
  if entries.isEmpty && !fallback.isEmpty then
    Identifier.turnToFallback h
    runAll [] fallback
  else return entries

/-- Identifies the entry methods that scouts find: what comes of it, and the state afterwards. -/
def identify (h : Heuristics) (primary fallback : List Scout) (s : Inquiry) :
    Identification × Inquiry :=
  let (found, s) := (do Identifier.start; seek h primary fallback : Inquire (List Method)).run s
  (Identifier.conclude found s, s)

theorem runAll_scout (w : Window) (h : Heuristics) (found : List Method)
    (strategies : List Strategy) :
    runAll found (strategies.map (w.scout h)) = w.runStrategies h found strategies := by
  induction strategies generalizing found with
  | nil => rfl
  | cons s strategies ih =>
    rw [List.map_cons, runAll, Window.runStrategies]
    simp only [ih]
    rfl

theorem seek_scout (w : Window) (x : Identifier) :
    seek x.heuristics (x.strategies.primary.map (w.scout x.heuristics))
      (x.strategies.fallback.map (w.scout x.heuristics)) = x.seek w := by
  unfold seek Identifier.seek
  simp only [runAll_scout, List.isEmpty_map]
  refine congrArg _ (funext fun entries => ?_)
  cases entries with
  | cons m entries => rfl
  | nil =>
    cases x.strategies.fallback with
    | nil => rfl
    | cons t fallback => rfl

/-- An identifier runs its strategies as scouts. -/
theorem identify_scout (w : Window) (x : Identifier) (store : Store) :
    x.identify w store =
      let r := identify x.heuristics (x.strategies.primary.map (w.scout x.heuristics))
        (x.strategies.fallback.map (w.scout x.heuristics))
        ⟨store, x.diagnostics, x.usedFallback, []⟩
      ((r.1, { x with diagnostics := r.2.diagnostics, usedFallback := r.2.usedFallback }),
        r.2.store) := by
  unfold identify
  rw [seek_scout]
  rfl

end Scout

/-! ## Reports -/

namespace Inquiry

/-- The state in which the primary scouts start. -/
def started (s : Inquiry) : Inquiry :=
  { s with diagnostics := [], usedFallback := false, log := s.log ++ [Identifier.startRecord] }

/-- The state in which the fallback scouts start. -/
def turned (h : Heuristics) (s : Inquiry) : Inquiry :=
  { s with usedFallback := true, log := s.log ++ View.fallbackRecords h }

/-- The state with one more record in the log. -/
def noting (s : Inquiry) (record : LogRecord) : Inquiry :=
  { s with log := s.log ++ [record] }

end Inquiry

/-- Run one after the other, the scouts return. They find the methods, in order, and record the
    diagnostics behind those that are there. -/
inductive Reports : List Scout → Inquiry → List Method → List Diagnostic → Inquiry → Prop
  | none {s : Inquiry} : Reports [] s [] [] s
  | more {x : Scout} {rest : List Scout} {s s₁ s₂ : Inquiry} {methods found : List Method}
      {ds ds' : List Diagnostic} (hrun : x.collect.run s = (.ok methods, s₁))
      (hdiagnostics : s₁.diagnostics = s.diagnostics ++ ds)
      (hfallback : s₁.usedFallback = s.usedFallback)
      (hrest : Reports rest (s₁.noting (x.record methods)) found ds' s₂) :
      Reports (x :: rest) s (methods ++ found) (ds ++ ds') s₂

namespace Reports

variable {scouts : List Scout} {s s' : Inquiry} {found : List Method} {ds : List Diagnostic}

theorem run_runAll (h : Reports scouts s found ds s') (before : List Method) :
    (Scout.runAll before scouts).run s = (.ok (found.foldl Method.insertNew before), s') := by
  induction h generalizing before with
  | none => rfl
  | more hrun _ _ _ ih =>
    rw [Scout.runAll, run_bind, hrun]
    dsimp only
    rw [run_bind, List.foldl_append]
    exact ih _

theorem diagnostics_eq (h : Reports scouts s found ds s') :
    s'.diagnostics = s.diagnostics ++ ds := by
  induction h with
  | none => exact (List.append_nil _).symm
  | more _ hdiagnostics _ _ ih =>
    rw [ih, ← List.append_assoc, ← hdiagnostics]
    rfl

theorem usedFallback_eq (h : Reports scouts s found ds s') :
    s'.usedFallback = s.usedFallback := by
  induction h with
  | none => rfl
  | more _ _ hfallback _ ih => exact ih.trans hfallback

end Reports

/-- On every sound store the strategies report what they collect, if nothing stops them. -/
theorem Window.reports (w : Window) (h : Heuristics) {p : Program} {strategies : List Strategy}
    {found : List (List Method)}
    (hfound : strategies.mapM (fun t => ((w.view p).collect h t).found) = .ok found)
    {s : Inquiry} (hs : s.store.Sound) (hp : s.store.program = p) :
    ∃ s', Reports (strategies.map (w.scout h)) s found.flatten
      (strategies.flatMap fun t => ((w.view p).collect h t).diagnostics) s' ∧
      s'.store.Sound ∧ s'.store.program = p := by
  induction strategies generalizing found s with
  | nil =>
    cases hfound
    exact ⟨s, .none, hs, hp⟩
  | cons t strategies ih =>
    rw [List.mapM_cons] at hfound
    obtain ⟨store, hsound, hprogram, hrun⟩ := w.collect_brings p h t s hs hp
    cases ht : ((w.view p).collect h t).found with
    | error e =>
      rw [ht] at hfound
      cases hfound
    | ok methods =>
      cases hrest : strategies.mapM (fun t => ((w.view p).collect h t).found) with
      | error e =>
        rw [ht, hrest] at hfound
        cases hfound
      | ok others =>
        rw [ht, hrest] at hfound
        cases hfound
        rw [ht] at hrun
        obtain ⟨s', hreports, hafter⟩ := ih hrest
          (s := Inquiry.noting ⟨store, _, _, _⟩ ((w.scout h t).record methods)) hsound hprogram
        exact ⟨s', .more hrun rfl rfl hreports, hafter⟩

/-! ## Identification -/

section Identify

variable {h : Heuristics} {primary fallback : List Scout} {s s₁ s₂ : Inquiry}
  {found others : List Method} {ds ds' : List Diagnostic}

theorem identify_eq_conclude {r : Except Unresolvable (List Method)}
    (hrun : (Scout.seek h primary fallback).run s.started = (r, s₁)) :
    Scout.identify h primary fallback s = (Identifier.conclude r s₁, s₁) := by
  have hstart : (do Identifier.start; Scout.seek h primary fallback :
      Inquire (List Method)).run s = (r, s₁) := hrun
  unfold Scout.identify
  rw [hstart]

/-- What the primary scouts find ends the search. -/
theorem identify_of_found (hP : Reports primary s.started found ds s₁) (hfound : found ≠ []) :
    Scout.identify h primary fallback s =
      (Identifier.conclude (.ok (found.eraseDupsBy Method.same)) s₁, s₁) := by
  refine identify_eq_conclude ?_
  rw [Scout.seek, run_bind, hP.run_runAll, Method.foldl_insertNew_nil]
  dsimp only
  rw [List.isEmpty_eq_false_iff.mpr (Method.eraseDupsBy_ne_nil hfound), Bool.false_and]
  rfl

theorem identify_of_nothing (hP : Reports primary s.started [] ds s₁) :
    Scout.identify h primary [] s = (Identifier.conclude (.ok []) s₁, s₁) := by
  refine identify_eq_conclude ?_
  rw [Scout.seek, run_bind, hP.run_runAll]
  rfl

theorem identify_of_fallback (hP : Reports primary s.started [] ds s₁) (hfallback : fallback ≠ [])
    (hF : Reports fallback (s₁.turned h) others ds' s₂) :
    Scout.identify h primary fallback s =
      (Identifier.conclude (.ok (others.eraseDupsBy Method.same)) s₂, s₂) := by
  refine identify_eq_conclude ?_
  rw [Scout.seek, run_bind, hP.run_runAll, ← Method.foldl_insertNew_nil, ← hF.run_runAll]
  dsimp only
  rw [List.isEmpty_eq_false_iff.mpr hfallback]
  rfl

/-- Where the primary scouts find nothing, what the fallback scouts find decides; without any of
    them that is nothing. -/
theorem identify_of_none (hP : Reports primary s.started [] ds s₁)
    (hF : Reports fallback (s₁.turned h) others ds' s₂) :
    ∃ s', Scout.identify h primary fallback s =
        (Identifier.conclude (.ok (others.eraseDupsBy Method.same)) s', s') ∧
      s'.diagnostics = ds ++ ds' ∧ (s'.usedFallback = true ↔ fallback ≠ []) := by
  have hds : s₁.diagnostics = ds := hP.diagnostics_eq
  by_cases hfallback : fallback = []
  · subst hfallback
    cases hF
    have hflag : s₁.usedFallback = false := hP.usedFallback_eq
    refine ⟨s₁, identify_of_nothing hP, ?_, ?_⟩
    · rw [hds, List.append_nil]
    · simp [hflag]
  · have hflag : s₂.usedFallback = true := hF.usedFallback_eq
    refine ⟨s₂, identify_of_fallback hP hfallback hF, ?_, iff_of_true hflag hfallback⟩
    rw [hF.diagnostics_eq, ← hds]
    rfl

theorem entries_conclude (hfound : found ≠ []) (s : Inquiry) :
    (Identifier.conclude (.ok (found.eraseDupsBy Method.same)) s).entries =
      .ok (found.eraseDupsBy Method.same) := by
  cases hentries : found.eraseDupsBy Method.same with
  | nil => exact absurd hentries (Method.eraseDupsBy_ne_nil hfound)
  | cons m entries => rfl

theorem entries_conclude_iff {carried : List Diagnostic} :
    (Identifier.conclude (.ok (found.eraseDupsBy Method.same)) s).entries =
        .error (.noEntryPoints carried) ↔ found = [] ∧ carried = s.diagnostics := by
  constructor
  · intro hentries
    by_cases hfound : found = []
    · subst hfound
      cases hentries
      exact ⟨rfl, rfl⟩
    · rw [entries_conclude hfound] at hentries
      cases hentries
  · rintro ⟨rfl, rfl⟩
    rfl

end Identify

/-- What comes of identification, if the primary scouts find `P` and, where that is nothing, the
    fallback scouts find `F`. It brings `P` with the first method of each signature, and then no
    fallback scout has run; else it brings `F` in the same way; it fails for want of entry methods,
    with the diagnostics of all scouts in order, exactly if there is neither. The flag says whether
    the fallback scouts were turned to. An identifier does this with the strategies it has. -/
theorem identify_stages (h : Heuristics) {primary fallback : List Scout} {s s₁ s₂ : Inquiry}
    {P F : List Method} {ds ds' : List Diagnostic} (hP : Reports primary s.started P ds s₁)
    (hF : P = [] → Reports fallback (s₁.turned h) F ds' s₂) :
    let r := Scout.identify h primary fallback s
    (P ≠ [] → r.1.entries = .ok (P.eraseDupsBy Method.same) ∧ r.1.diagnostics = ds ∧ r.2 = s₁) ∧
      (P = [] → F ≠ [] →
        r.1.entries = .ok (F.eraseDupsBy Method.same) ∧ r.1.diagnostics = ds ++ ds') ∧
      (∀ carried, r.1.entries = .error (.noEntryPoints carried) ↔
        P = [] ∧ (fallback = [] ∨ F = []) ∧ carried = ds ++ ds') ∧
      (r.1.usedFallback = true ↔ P = [] ∧ fallback ≠ []) ∧
      ∀ (w : Window) (x : Identifier) (store : Store),
        x.identify w store =
          let r := Scout.identify x.heuristics (x.strategies.primary.map (w.scout x.heuristics))
            (x.strategies.fallback.map (w.scout x.heuristics))
            ⟨store, x.diagnostics, x.usedFallback, []⟩
          ((r.1, { x with diagnostics := r.2.diagnostics, usedFallback := r.2.usedFallback }),
            r.2.store) := by
  intro r
  by_cases hfound : P = []
  · subst hfound
    have hnone : fallback = [] → F = [] := by
      rintro rfl
      cases hF rfl
      rfl
    obtain ⟨s', hr, hds, hflag⟩ := identify_of_none hP (hF rfl)
    have hr : r = (Identifier.conclude (.ok (F.eraseDupsBy Method.same)) s', s') := hr
    rw [hr]
    refine ⟨fun hne => absurd rfl hne, fun _ hne => ⟨entries_conclude hne s', ?_⟩,
      fun carried => ?_, ?_, Scout.identify_scout⟩
    · rw [Identifier.conclude, Identifier.diagnostics_conclude, hds]
    · rw [entries_conclude_iff, hds, or_iff_right_of_imp hnone, eq_self, true_and]
    · rw [Identifier.conclude, Identifier.usedFallback_conclude, hflag, eq_self, true_and]
  · have hr : r = (Identifier.conclude (.ok (P.eraseDupsBy Method.same)) s₁, s₁) :=
      identify_of_found hP hfound
    have hflag : s₁.usedFallback = false := hP.usedFallback_eq
    rw [hr]
    refine ⟨fun _ => ⟨entries_conclude hfound s₁, ?_, rfl⟩, fun hnil => absurd hnil hfound,
      fun carried => ?_, ?_, Scout.identify_scout⟩
    · rw [Identifier.conclude, Identifier.diagnostics_conclude]
      exact hP.diagnostics_eq
    · rw [entries_conclude_iff]
      simp [hfound]
    · rw [Identifier.conclude, Identifier.usedFallback_conclude, hflag]
      simp [hfound]

/-- A store with a published clock. -/
def clockStore : Store :=
  Store.ofTypes View.clockProgram.types

/-- Receivers find nothing here. The second stage finds the clock twice, and it is kept once. -/
theorem identify_stages_clock :
    ∃ s₁ s₂,
      Reports ([Strategy.receivers].map (Window.scout ⟨[]⟩ View.usualHeuristics))
        (Inquiry.started ⟨clockStore, [], false, []⟩) [] [] s₁ ∧
      Reports ([Strategy.services, .services].map (Window.scout ⟨[]⟩ View.usualHeuristics))
        (s₁.turned View.usualHeuristics)
        [View.tickIn "app.Clock" true, View.tickIn "app.Clock" true] [] s₂ ∧
      (Scout.identify View.usualHeuristics
        ([Strategy.receivers].map (Window.scout ⟨[]⟩ View.usualHeuristics))
        ([Strategy.services, .services].map (Window.scout ⟨[]⟩ View.usualHeuristics))
        ⟨clockStore, [], false, []⟩).1.entries = .ok [View.tickIn "app.Clock" true] := by
  have hsound : clockStore.Sound := by
    have h := (Store.sound_empty.foldl_perform
      (View.clockProgram.types.map Store.Operation.declare)).1
    rwa [List.foldl_map] at h
  have hprogram : clockStore.program = View.clockProgram := Program.ext (by decide +kernel)
  have hreceivers : [Strategy.receivers].mapM (fun t =>
      ((Window.view ⟨[]⟩ View.clockProgram).collect View.usualHeuristics t).found) = .ok [[]] := by
    decide +kernel
  have hservices : [Strategy.services, .services].mapM (fun t =>
      ((Window.view ⟨[]⟩ View.clockProgram).collect View.usualHeuristics t).found) =
        .ok [[View.tickIn "app.Clock" true], [View.tickIn "app.Clock" true]] := by
    decide +kernel
  obtain ⟨s₁, hP, hsound₁, hprogram₁⟩ := Window.reports ⟨[]⟩ View.usualHeuristics hreceivers
    (s := Inquiry.started ⟨clockStore, [], false, []⟩) hsound hprogram
  obtain ⟨s₂, hF, _⟩ := Window.reports ⟨[]⟩ View.usualHeuristics hservices
    (s := s₁.turned View.usualHeuristics) hsound₁ hprogram₁
  have hds : ([Strategy.receivers].flatMap fun t =>
      ((Window.view ⟨[]⟩ View.clockProgram).collect View.usualHeuristics t).diagnostics) = [] := by
    decide +kernel
  have hds' : ([Strategy.services, .services].flatMap fun t =>
      ((Window.view ⟨[]⟩ View.clockProgram).collect View.usualHeuristics t).diagnostics) = [] := by
    decide +kernel
  rw [hds] at hP
  rw [hds'] at hF
  obtain ⟨_, hfallback, _⟩ := identify_stages View.usualHeuristics hP fun _ => hF
  refine ⟨s₁, s₂, hP, hF, (hfallback rfl (List.cons_ne_nil _ _)).1.trans ?_⟩
  decide +kernel

end ServiceReach

import ServiceReach.Proofs.EntryPoint.Failures
import ServiceReach.Proofs.EntryPoint.Idempotence
import ServiceReach.Proofs.Text.Parts

/-
  The server side. A type lies under a namespace if its name is the namespace, a dot and more. The
  strategy for likely services goes by the characters of the namespace alone, so it also takes in
  the types beside it, those of a package whose name goes on after these characters. On a whole
  program it returns the remote methods of the binder classes under and beside the namespace
  (`collect_binders_exact`). These are the methods of the server side if there is nothing to find
  beside it; otherwise a class of another package counts (`clock_beside_server_found`).
-/

namespace ServiceReach

/-! ## Names and namespaces -/

/-- The name is the namespace, a dot and more. -/
def LiesUnder (server name : String) : Prop :=
  ∃ more, more ≠ "" ∧ name = server ++ "." ++ more

/-- The name begins with the characters of the namespace, but does not lie under it. -/
def LiesBeside (server name : String) : Prop :=
  (∃ rest, name = server ++ rest) ∧ ¬ LiesUnder server name

theorem liesUnder_iff {server name : String} :
    LiesUnder server name ↔
      Text.startsWith (server ++ ".") name = true ∧ name ≠ server ++ "." := by
  rw [Text.startsWith_iff]
  constructor
  · rintro ⟨more, hmore, rfl⟩
    refine ⟨⟨more, rfl⟩, fun heq => hmore ?_⟩
    have hlength := congrArg String.length heq
    rw [String.length_append] at hlength
    exact String.length_eq_zero_iff.mp (by omega)
  · rintro ⟨⟨more, rfl⟩, hne⟩
    refine ⟨more, fun hempty => hne ?_, rfl⟩
    rw [hempty, String.append_empty]

instance (server name : String) : Decidable (LiesUnder server name) :=
  decidable_of_iff _ liesUnder_iff.symm

theorem startsWith_iff_liesUnder_or_liesBeside {server name : String} :
    Text.startsWith server name = true ↔ LiesUnder server name ∨ LiesBeside server name := by
  rw [Text.startsWith_iff]
  constructor
  · intro hstarts
    by_cases hunder : LiesUnder server name
    · exact Or.inl hunder
    · exact Or.inr ⟨hstarts, hunder⟩
  · rintro (⟨more, _, rfl⟩ | ⟨hstarts, _⟩)
    · exact ⟨"." ++ more, String.append_assoc⟩
    · exact hstarts

/-! ## Binder classes -/

namespace Program

variable {p : Program} {h : Heuristics}

/-- A class of the application whose name is at a place that the server namespace gives, and that is
    the binder class or lies below it. -/
structure ServerBinder (p : Program) (h : Heuristics) (place : String → String → Prop)
    (t : TypeDecl) : Prop where
  declared : t ∈ p.types
  application : t.isApplication = true
  noInterface : t.isInterface = false
  noPhantom : t.isPhantom = false
  server : place h.serverNamespace t.name
  binder : ∃ root, h.binderRoot = .text root ∧ ∃ c, p.OnChain t c ∧ c.name = root

/-- A binder class at such a place has `m` for a method of one of its remote interfaces. -/
def BinderMethod (p : Program) (h : Heuristics) (place : String → String → Prop) (m : Method) :
    Prop :=
  ∃ t, p.ServerBinder h place t ∧ p.ExposedBy h t m

theorem isSubclass_iff {t : TypeDecl} (ht : t ∈ p.types) {root : Option String} :
    (p.isSubclass t root).value = true ↔ ∃ c, p.OnChain t c ∧ some c.name = root := by
  unfold isSubclass
  rw [Trail.value_bind, value_firstOn]
  show (((p.chain t).map Visit.type).findSome? _).isSome = true ↔ _
  rw [List.findSome?_isSome_iff]
  simp only [mem_chain_iff (lookup_of_mem ht), beq_iff_eq]
  refine exists_congr fun c => and_congr_right fun _ => ?_
  by_cases hname : some c.name = root
  · simp [hname]
  · simp [hname]

theorem isServerBinder_iff {t : TypeDecl} (ht : t ∈ p.types) :
    (View.ofProgram p).isServerBinder h t = true ↔
      (LiesUnder h.serverNamespace t.name ∨ LiesBeside h.serverNamespace t.name) ∧
      ∃ root, h.binderRoot = .text root ∧ ∃ c, p.OnChain t c ∧ c.name = root := by
  unfold View.isServerBinder
  rw [Bool.and_eq_true, startsWith_iff_liesUnder_or_liesBeside]
  refine and_congr_right fun _ => (isSubclass_iff ht).trans ?_
  constructor
  · rintro ⟨c, hc, hroot⟩
    exact ⟨c.name, Name.text?_eq_some_iff.mp hroot.symm, c, hc, rfl⟩
  · rintro ⟨_, hroot, c, hc, rfl⟩
    exact ⟨c, hc, (Name.text?_eq_some_iff.mpr hroot).symm⟩

/-- The types that the strategy takes for services are the binder classes under the server
    namespace and those beside it. -/
theorem isLikelyService_iff {t : TypeDecl} :
    (t ∈ p.applicationTypes ∧ (View.ofProgram p).isLikelyService h t = true) ↔
      p.ServerBinder h LiesUnder t ∨ p.ServerBinder h LiesBeside t := by
  unfold View.isLikelyService TypeDecl.isRealClass applicationTypes
  simp only [List.mem_filter, Bool.and_eq_true, Bool.not_eq_true']
  constructor
  · rintro ⟨⟨ht, happlication⟩, ⟨hinterface, hphantom⟩, hbinder⟩
    obtain ⟨hunder | hbeside, hroot⟩ := (isServerBinder_iff ht).mp hbinder
    · exact Or.inl ⟨ht, happlication, hinterface, hphantom, hunder, hroot⟩
    · exact Or.inr ⟨ht, happlication, hinterface, hphantom, hbeside, hroot⟩
  · rintro (hbinder | hbinder)
    all_goals
      refine ⟨⟨hbinder.declared, hbinder.application⟩, ⟨hbinder.noInterface, hbinder.noPhantom⟩,
        (isServerBinder_iff hbinder.declared).mpr ⟨?_, hbinder.binder⟩⟩
    · exact Or.inl hbinder.server
    · exact Or.inr hbinder.server

end Program

/-! ## The strategy -/

namespace View

theorem diagnostics_likelyMethods (v : View) (h : Heuristics) (f : Findings (List Method))
    (types : List TypeDecl) : (v.likelyMethods h f types).diagnostics = f.diagnostics := by
  induction types generalizing f with
  | nil => rfl
  | cons t types ih =>
    rw [likelyMethods]
    cases v.exposedMethods h t with
    | error e => rfl
    | ok methods =>
      cases methods with
      | nil => exact ih f
      | cons m methods => exact ih _

/-- What the strategy finds on a whole program. -/
theorem finds_binders_iff {p : Program} {h : Heuristics} {m : Method} :
    (ofProgram p).Finds h .binders m ↔
      p.BinderMethod h LiesUnder m ∨ p.BinderMethod h LiesBeside m := by
  have hfinds : (ofProgram p).Finds h .binders m ↔
      ∃ t, (t ∈ p.applicationTypes ∧ (ofProgram p).isLikelyService h t = true) ∧
        p.ExposedBy h t m :=
    exists_congr fun _ => and_assoc.symm
  simp only [hfinds, Program.isLikelyService_iff, or_and_right, exists_or]
  rfl

/-- On a whole program the strategy for likely services returns, without a diagnostic, the remote
    methods of the binder classes under the server namespace and of those beside it, one for each
    signature; these are the methods of the former alone if the latter have none. On a shared store
    it answers the same. -/
theorem collect_binders_exact (p : Program) (h : Heuristics) :
    ∃ methods log,
      (ofProgram p).collect h .binders = ⟨.ok methods, [], log⟩ ∧
      Method.Lists methods
        (fun m => p.BinderMethod h LiesUnder m ∨ p.BinderMethod h LiesBeside m) ∧
      ((∀ m, ¬ p.BinderMethod h LiesBeside m) →
        Method.Lists methods (p.BinderMethod h LiesUnder)) ∧
      ServiceReach.Brings p (Window.collect ⟨[]⟩ h .binders) ⟨.ok methods, [], log⟩ := by
  have hsettles := collect_binders_settles (ofProgram p) h
  cases hfound : ((ofProgram p).collect h .binders).found with
  | error e =>
    rw [hfound] at hsettles
    exact absurd hsettles.1 List.not_mem_nil
  | ok methods =>
    rw [hfound] at hsettles
    have hdiagnostics : ((ofProgram p).collect h .binders).diagnostics = [] :=
      diagnostics_likelyMethods _ _ _ _
    have hcollect : (ofProgram p).collect h .binders =
        ⟨.ok methods, [], ((ofProgram p).collect h .binders).log⟩ := by
      rw [← hfound, ← hdiagnostics]
    have hlists := hsettles.1.congr fun m => finds_binders_iff
    refine ⟨methods, _, hcollect, hlists, fun hnone => ?_, ?_⟩
    · exact hlists.congr fun m => or_iff_left (hnone m)
    · have hbrings := Window.collect_brings ⟨[]⟩ p h .binders
      have hview : (Window.view ⟨[]⟩ p).collect h .binders = (ofProgram p).collect h .binders := rfl
      rw [hview, hcollect] at hbrings
      exact hbrings

/-! ## A class beside the server namespace -/

/-- A binder class of a package whose name only begins as that of the server side does. -/
def besideProgram : Program where
  types :=
    [{ name := "com.android.serverx.Clock", superclass := some "android.os.Binder",
       isApplication := true, interfaces := ["app.IClock"],
       methods := [tickIn "com.android.serverx.Clock" true] },
     { name := "app.IClock", isApplication := true, isInterface := true, isAbstract := true,
       interfaces := ["android.os.IInterface"], methods := [tickIn "app.IClock" false] }]
  nodup := by decide

/-- No type lies under the server namespace, but the strategy finds a method. -/
theorem clock_beside_server_found :
    (∀ m, ¬ besideProgram.BinderMethod usualHeuristics LiesUnder m) ∧
      ((ofProgram besideProgram).collect usualHeuristics .binders).found =
        .ok [tickIn "com.android.serverx.Clock" true] := by
  have hnone : ∀ t ∈ besideProgram.types, ¬ LiesUnder "com.android.server" t.name := by
    decide +kernel
  refine ⟨?_, by decide +kernel⟩
  rintro m ⟨t, hbinder, _⟩
  exact hnone t hbinder.declared hbinder.server

end View
end ServiceReach

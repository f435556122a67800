import ServiceReach.Proofs.EntryPoint.Failures

/-
  What identification brings on a whole program. No look-up fails there, so identification has two
  outcomes: it brings a list of methods of the program without repeated signatures, which is not
  empty, or no strategy finds a method and it says that there are no entry methods.
-/

namespace ServiceReach

open Trail

variable {p : Program} {h : Heuristics}

/-! ## Strategies -/

theorem Program.mem_methods_of_exposedBy {t : TypeDecl} {m : Method} (ht : p.lookup t.name = t)
    (hm : p.ExposedBy h t m) : m ∈ p.methods := by
  obtain ⟨_, _, _, _, _, k, _, himplements⟩ := hm
  exact mem_methods_of_implementation (ht ▸ p.owns_lookup t.name)
    ((implementation?_eq_some_iff ht).mpr himplements)

namespace View

theorem mem_methods_of_finds {s : Strategy} {m : Method} (hm : (ofProgram p).Finds h s m) :
    m ∈ p.methods := by
  cases s with
  | services =>
    obtain ⟨name, _, _, hexposed⟩ := hm
    exact Program.mem_methods_of_exposedBy (p.lookup_lookup name) hexposed
  | receivers =>
    obtain ⟨name, _, _, _, _, _, _, _, _, sub, _, hdeclared⟩ := hm
    exact Program.mem_methods_of_declared (p.owns_lookup name) hdeclared
  | binders =>
    obtain ⟨t, ht, _, hexposed⟩ := hm
    exact Program.mem_methods_of_exposedBy
      (Program.lookup_of_mem (List.mem_filter.mp ht).1) hexposed

/-- None of the strategies finds a method. -/
def FindNothing (p : Program) (h : Heuristics) (strategies : List Strategy) : Prop :=
  ∀ s ∈ strategies, ((ofProgram p).collect h s).found = .ok []

theorem findNothing_of_not_finds {strategies : List Strategy}
    (hnone : ∀ s ∈ strategies, ∀ m, ¬ (ofProgram p).Finds h s m) :
    FindNothing p h strategies := by
  intro s hs
  have hsettles := (ofProgram p).collect_settles h s
  cases hfound : ((ofProgram p).collect h s).found with
  | error e =>
    rw [hfound] at hsettles
    exact absurd hsettles.1 List.not_mem_nil
  | ok methods =>
    rw [hfound] at hsettles
    rw [List.eq_nil_iff_forall_not_mem.mpr fun m hm => hnone s hs m (hsettles.1.sound m hm)]

/-! ## Identification -/

/-- The entry methods are methods of the program, at least one, no two of one signature. -/
structure EntryMethods (p : Program) (entries : List Method) : Prop where
  nonempty : entries ≠ []
  distinct : Method.Distinct entries
  declared : ∀ m ∈ entries, m ∈ p.methods

theorem entryMethods_of_lists {entries : List Method} {strategies : List Strategy}
    (hne : entries ≠ [])
    (hlists : Method.Lists entries fun m => ∃ s ∈ strategies, (ofProgram p).Finds h s m) :
    EntryMethods p entries := by
  refine ⟨hne, hlists.distinct, fun m hm => ?_⟩
  obtain ⟨_, _, hfinds⟩ := hlists.sound m hm
  exact mem_methods_of_finds hfinds

/-- Identification on a whole program brings entry methods, or says that there are none, and then
    no strategy finds a method. -/
theorem identify_entries (p : Program) (h : Heuristics) (strategies : Strategies) :
    (FindNothing p h (strategies.primary ++ strategies.fallback) ∧
      ∃ diagnostics, ((ofProgram p).identify h strategies).entries =
        .error (.noEntryPoints diagnostics)) ∨
      ∃ entries, ((ofProgram p).identify h strategies).entries = .ok entries ∧
        EntryMethods p entries := by
  have haccounts := (ofProgram p).identify_accounts h strategies
  rcases hentries : ((ofProgram p).identify h strategies).entries with
    (diagnostics | e) | entries
  · rw [hentries] at haccounts
    exact Or.inl ⟨findNothing_of_not_finds haccounts, diagnostics, rfl⟩
  · rw [hentries] at haccounts
    exact absurd haccounts.1 List.not_mem_nil
  · rw [hentries] at haccounts
    obtain ⟨hne, hlists | ⟨_, hlists⟩⟩ := haccounts
    · exact Or.inr ⟨entries, rfl, entryMethods_of_lists hne hlists⟩
    · exact Or.inr ⟨entries, rfl, entryMethods_of_lists hne hlists⟩

end View
end ServiceReach

import ServiceReach.Proofs.Index.FileOrder

/-
  Adding a file again. The declarations that were there stay, each of them the first of its name.
  A file in which no anonymous class is met declares a fixed list of types, whatever was recorded
  before (`scanTree_eq_foldl_register`). All of them are declared when it comes a second time, so
  nothing changes. Anonymous classes, on the other hand, are counted on and get new names:
  the second copy of a file declares them once more.
-/

namespace ServiceReach.Index

open Source Catalog Relation

/-! ## Scans without anonymous classes -/

namespace Scan

variable {s : Scan} {d : Declaration}

theorem anonymous_foldl_register (ds : List Declaration) (s : Scan) :
    (ds.foldl register s).catalog.anonymous = s.catalog.anonymous := by
  induction ds generalizing s with
  | nil => rfl
  | cons d ds ih => rw [List.foldl_cons, ih, anonymous_register]

theorem names_subset_register {n : String} (h : n ∈ s.catalog.names) :
    n ∈ (s.register d).catalog.names :=
  Grown.names_mono (register_grown rfl) h

theorem mem_names_foldl_register {ds : List Declaration} (hd : d ∈ ds) (s : Scan) :
    d.name ∈ (ds.foldl register s).catalog.names := by
  have hkept : ∀ (ds : List Declaration) (s : Scan) (n : String), n ∈ s.catalog.names →
      n ∈ (ds.foldl register s).catalog.names := by
    intro ds
    induction ds with
    | nil => exact fun _ _ h => h
    | cons d ds ih => exact fun s n h => ih _ n (names_subset_register h)
  induction ds generalizing s with
  | nil => cases hd
  | cons d' ds ih =>
    rw [List.foldl_cons]
    rcases List.mem_cons.mp hd with rfl | hd
    · exact hkept ds _ _ mem_names_register
    · exact ih hd _

theorem foldl_register_of_mem {ds : List Declaration} {s : Scan}
    (h : ∀ d ∈ ds, d.name ∈ s.catalog.names) : (ds.foldl register s).catalog = s.catalog := by
  induction ds generalizing s with
  | nil => rfl
  | cons d ds ih =>
    have hfirst := register_of_mem (h d List.mem_cons_self)
    rw [List.foldl_cons, ih, hfirst]
    intro d' hd'
    rw [hfirst]
    exact h d' (List.mem_cons_of_mem d hd')

end Scan

theorem anonymous_suffix {e : Entry} {c c' : Catalog} (h : ReflTransGen (Grown e) c c') :
    c.anonymous <:+ c'.anonymous := by
  obtain ⟨new, heq, _⟩ := Grown.anonymous_eq_append h
  exact ⟨new, heq.symm⟩

mutual

/-- A tree in which a scan meets no anonymous class declares a fixed list of types. -/
theorem scanTree_eq_foldl_register (e : Entry) (owner : Option String) :
    (t : Tree) → (s : Scan) → s.catalog.Knows owner →
      (scanTree e owner t s).catalog.anonymous = s.catalog.anonymous →
      ∃ ds : List Declaration, ∀ s, scanTree e owner t s = ds.foldl Scan.register s
  | .node label children, s, h, hsame => by
    obtain ⟨_, hknows⟩ := Scan.enter_grown (e := e) h (.node label children)
    rw [scanTree] at hsame
    simp only [scanTree]
    rcases Scan.enter_cases e owner (.node label children) with
      henter | ⟨d, _, henter⟩ | ⟨o, body, _, henter⟩ <;>
      simp only [henter] at hsame hknows ⊢
    · exact scanTrees_eq_foldl_register e _ children s hknows hsame
    · obtain ⟨ds, hds⟩ := scanTrees_eq_foldl_register e _ children _ hknows
        (hsame.trans Scan.anonymous_register.symm)
      exact ⟨d :: ds, fun s => hds (s.register d)⟩
    · -- The anonymous class stays recorded, so the table cannot be the same as before.
      have hsuffix := anonymous_suffix (scanTrees_grown e _ children _ hknows)
      have hlength := hsuffix.length_le
      rw [hsame, Scan.anonymous_registerAnonymous, List.length_cons] at hlength
      omega

theorem scanTrees_eq_foldl_register (e : Entry) (owners : Nat → Option String) :
    (ts : List Tree) → (s : Scan) → (∀ id, s.catalog.Knows (owners id)) →
      (scanTrees e owners ts s).catalog.anonymous = s.catalog.anonymous →
      ∃ ds : List Declaration, ∀ s, scanTrees e owners ts s = ds.foldl Scan.register s
  | [], _, _, _ => ⟨[], fun _ => rfl⟩
  | t :: rest, s, h, hsame => by
    have hgrown := scanTree_grown e (owners t.id) t s (h t.id)
    have hknows := fun id => Grown.knows_mono hgrown (h id)
    rw [scanTrees] at hsame
    have hrest := anonymous_suffix (scanTrees_grown e owners rest _ hknows)
    rw [hsame] at hrest
    have hfirst := hrest.eq_of_length_le (anonymous_suffix hgrown).length_le
    obtain ⟨ds, hds⟩ := scanTree_eq_foldl_register e (owners t.id) t s (h t.id) hfirst
    obtain ⟨ds', hds'⟩ := scanTrees_eq_foldl_register e owners rest _ hknows
      (hsame.trans hfirst.symm)
    refine ⟨ds ++ ds', fun s => ?_⟩
    rw [scanTrees, hds, hds', List.foldl_append]

end

/-! ## A file that comes again -/

namespace Indexer

theorem mem_entries_concat {room : Nat} {files : List File} {f : File} {e : Entry} :
    e ∈ (ofFiles room (files ++ [f])).catalog.entries ↔
      e ∈ (ofFiles room files).catalog.entries ∨ e = (ofFiles room files).catalog.entryOf f := by
  rw [ofFiles_concat, add, Grown.entries_eq (add_grown _ f), withEntry, List.mem_append,
    List.mem_singleton]

/-- What an indexed entry without anonymous classes declares is declared. -/
theorem mem_names_of_mem_entries {room : Nat} {files : List File} {e : Entry}
    {ds : List Declaration} (he : e ∈ (ofFiles room files).catalog.entries)
    (hds : ∀ s, scanTree e none e.tree s = ds.foldl Scan.register s) {d : Declaration}
    (hd : d ∈ ds) : d.name ∈ (ofFiles room files).catalog.names := by
  induction files using List.reverseRecOn with
  | nil => cases he
  | append_singleton files f ih =>
    have hgrown := add_grown (ofFiles room files).catalog f
    rcases mem_entries_concat.mp he with he | rfl
    · rw [ofFiles_concat]
      exact Grown.names_mono hgrown (ih he)
    · rw [ofFiles_concat, add, Catalog.add, hds]
      exact Scan.mem_names_foldl_register hd _

theorem add_catalog_of_mem_entries {room : Nat} {files : List File} {f : File}
    (he : (ofFiles room files).catalog.entryOf f ∈ (ofFiles room files).catalog.entries)
    (hanon : ((ofFiles room files).catalog.entryOf f).alone.anonymous = []) :
    ((ofFiles room files).add f).1.catalog =
      (ofFiles room files).catalog.withEntry ((ofFiles room files).catalog.entryOf f) := by
  obtain ⟨ds, hds⟩ := scanTree_eq_foldl_register _ none _ ⟨{ room := 0 }, []⟩ (knows_none _) hanon
  rw [add, Catalog.add, hds]
  exact Scan.foldl_register_of_mem fun d hd => mem_names_of_mem_entries he hds hd

theorem anonymous_add_eq_iff (x : Indexer) (f : File) :
    (x.add f).1.catalog.anonymous = x.catalog.anonymous ↔
      (x.catalog.entryOf f).alone.anonymous = [] := by
  constructor
  · intro hsame
    obtain ⟨ds, hds⟩ := scanTree_eq_foldl_register _ none _
      ⟨x.catalog.withEntry (x.catalog.entryOf f), _⟩ (knows_none _) hsame
    rw [Entry.alone, hds, Scan.anonymous_foldl_register]
  · intro hanon
    obtain ⟨ds, hds⟩ := scanTree_eq_foldl_register _ none _ ⟨{ room := 0 }, []⟩ (knows_none _) hanon
    rw [add, Catalog.add, hds, Scan.anonymous_foldl_register]
    rfl

theorem build_withEntry (room : Nat) (files : List File) (e : Entry) :
    ((ofFiles room files).catalog.withEntry e).build.program =
        (ofFiles room files).catalog.build.program ∧
      ((ofFiles room files).catalog.withEntry e).build.names =
        (ofFiles room files).catalog.build.names := by
  have hagree : ((ofFiles room files).catalog.withEntry e).Agree (ofFiles room files).catalog :=
    ⟨.refl _, nodup_names_ofFiles room files, fun _ _ => rfl, rfl⟩
  have hlink : ((ofFiles room files).catalog.withEntry e).link =
      (ofFiles room files).catalog.link := by
    simp only [link, hagree.link_eq]
    rfl
  refine ⟨Program.ext ?_, ?_⟩
  · rw [types_build hagree.nodup, types_build hagree.nodup_right, hagree.lowered_eq, hlink]
  · simp only [names_build, hagree.lowerType_eq, hlink]

/-- Adding a file again keeps all declarations, each of them the first of its name. If the file
    holds no anonymous class, that is all: nothing is declared and the program is the same. Its
    anonymous classes, if there are any, are numbered once more. -/
theorem add_again {room : Nat} {files : List File} {f : File}
    (h : (ofFiles room files).catalog.entryOf f ∈ (ofFiles room files).catalog.entries) :
    (ofFiles room files).catalog.declarations <+:
        ((ofFiles room files).add f).1.catalog.declarations ∧
      (((ofFiles room files).catalog.entryOf f).alone.anonymous = [] →
        ((ofFiles room files).add f).1.catalog.declarations =
          (ofFiles room files).catalog.declarations ∧
        ((ofFiles room files).add f).1.build.1.program = (ofFiles room files).build.1.program ∧
        ((ofFiles room files).add f).1.build.1.names = (ofFiles room files).build.1.names) ∧
      (((ofFiles room files).add f).1.catalog.anonymous = (ofFiles room files).catalog.anonymous ↔
        ((ofFiles room files).catalog.entryOf f).alone.anonymous = []) := by
  have hkept := Grown.declarations_kept (add_grown (ofFiles room files).catalog f)
  refine ⟨hkept, fun hanon => ?_, anonymous_add_eq_iff _ f⟩
  have hcatalog := add_catalog_of_mem_entries h hanon
  have hbuild : ((ofFiles room files).add f).1.build.1 =
      ((ofFiles room files).add f).1.catalog.build := by
    rw [← ofFiles_concat, build_ofFiles]
  rw [hbuild, build_ofFiles, hcatalog]
  exact ⟨rfl, build_withEntry room files _⟩

/-- The file of a class without anonymous classes comes again, after another file. -/
theorem add_again_low :
    (ofFiles 100 [lowFile, highFile]).catalog.entryOf lowFile ∈
        (ofFiles 100 [lowFile, highFile]).catalog.entries ∧
      ((ofFiles 100 [lowFile, highFile]).catalog.entryOf lowFile).alone.anonymous = [] ∧
      ((ofFiles 100 [lowFile, highFile]).add lowFile).1.build.1.program =
        (ofFiles 100 [lowFile, highFile]).build.1.program := by
  have hentry : (ofFiles 100 [lowFile, highFile]).catalog.entryOf lowFile ∈
      (ofFiles 100 [lowFile, highFile]).catalog.entries := List.mem_cons_self
  have hanon : ((ofFiles 100 [lowFile, highFile]).catalog.entryOf lowFile).alone.anonymous =
      [] := by decide +kernel
  exact ⟨hentry, hanon, ((add_again hentry).2.1 hanon).2.1⟩

/-- The anonymous class of a file that comes again is declared under a second name. -/
theorem add_again_high_declares :
    (ofFiles 100 [highFile]).catalog.entryOf highFile ∈ (ofFiles 100 [highFile]).catalog.entries ∧
      (ofFiles 100 [highFile]).build.1.program.types.map TypeDecl.name = ["High", "High$1"] ∧
      ((ofFiles 100 [highFile]).add highFile).1.build.1.program.types.map TypeDecl.name =
        ["High", "High$1", "High$2"] :=
  ⟨List.mem_cons_self, by decide +kernel, by decide +kernel⟩

end Indexer
end ServiceReach.Index

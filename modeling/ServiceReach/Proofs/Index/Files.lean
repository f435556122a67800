import Mathlib.Data.List.Induction
import Mathlib.Data.List.Nodup
import ServiceReach.Index.Build
import ServiceReach.Proofs.Index.Scan

/-
  The catalog of several files. Whatever the files, no name is declared twice and only declared
  types have counts. Of separate files, which have paths of their own and no declared name in
  common, the catalog is made up file by file: of what each of them declares by itself.
-/

namespace ServiceReach.Index

open Source Relation

/-- The indexer to which some files were added, in order. -/
def Indexer.ofFiles (room : Nat) (files : List File) : Indexer :=
  files.foldl (fun x f => (x.add f).1) (.empty room)

/-- What an entry declares by itself. No body is lowered, so no room is needed. -/
def Entry.alone (e : Entry) : Catalog :=
  (scanTree e none e.tree ⟨{ room := 0 }, []⟩).catalog

/-- The entry of a file that has a path. -/
def File.entry (f : File) : Entry :=
  ({ room := 0 } : Catalog).entryOf f

/-- The names of the types that a file declares by itself. -/
def File.declaredNames (f : File) : List String :=
  f.entry.alone.names

/-- Files with paths of their own, of which no two declare the same name. -/
structure Separate (files : List File) : Prop where
  present : ∀ f ∈ files, (present? f.path).isSome
  paths : (files.map File.path).Nodup
  names : files.Pairwise fun f g => List.Disjoint f.declaredNames g.declaredNames

/-! ## Adding a file -/

namespace Catalog

variable {c : Catalog} {f : File}

theorem knows_none (c : Catalog) : c.Knows none :=
  fun o ho => by cases ho

theorem add_grown (c : Catalog) (f : File) :
    ReflTransGen (Grown (c.entryOf f)) (c.withEntry (c.entryOf f)) (c.add f).catalog :=
  scanTree_grown (c.entryOf f) none f.tree ⟨c.withEntry (c.entryOf f), _⟩ (knows_none _)

theorem alone_grown (e : Entry) : ReflTransGen (Grown e) { room := 0 } e.alone :=
  scanTree_grown e none e.tree ⟨{ room := 0 }, []⟩ (knows_none _)

theorem entryOf_eq (h : (present? f.path).isSome) (c : Catalog) : c.entryOf f = f.entry := by
  obtain ⟨path, hpath⟩ := Option.isSome_iff_exists.mp h
  simp only [File.entry, entryOf, pathOf, hpath, Option.getD_some]

theorem path_entry (h : (present? f.path).isSome) : f.path = some f.entry.path := by
  obtain ⟨path, hpath⟩ := Option.isSome_iff_exists.mp h
  have hentry : f.entry.path = path := by
    simp only [File.entry, entryOf, pathOf, hpath, Option.getD_some]
  rw [hentry]
  exact (Option.filter_eq_some_iff.mp hpath).1

/-- A file that declares no name of the catalog adds what it declares by itself. -/
theorem add_eq_after (hc : c.Counted)
    (hfresh : List.Disjoint (c.entryOf f).alone.names c.names) :
    c.add f = (scanTree (c.entryOf f) none (c.entryOf f).tree ⟨{ room := 0 }, []⟩).after
      ⟨c.withEntry (c.entryOf f), errorRecords (c.entryOf f) f⟩ := by
  have hafter : scanTree (c.entryOf f) none f.tree ((⟨{ room := 0 }, []⟩ : Scan).after
        ⟨c.withEntry (c.entryOf f), errorRecords (c.entryOf f) f⟩) = _ :=
    scanTree_after hc _ none f.tree ⟨{ room := 0 }, []⟩ (knows_none _) hfresh
  rwa [Scan.empty_after] at hafter

end Catalog

/-! ## Files in a row -/

namespace Indexer

variable {room : Nat} {files files' : List File}

theorem ofFiles_concat (room : Nat) (files : List File) (f : File) :
    ofFiles room (files ++ [f]) = ((ofFiles room files).add f).1 := by
  rw [ofFiles, List.foldl_append]
  rfl

theorem build_ofFiles (room : Nat) (files : List File) :
    (ofFiles room files).build.1 = (ofFiles room files).catalog.build := by
  have hbuilt : (ofFiles room files).built = none := by
    induction files using List.reverseRecOn with
    | nil => rfl
    | append_singleton files f _ => rw [ofFiles_concat]; rfl
  rw [build, hbuilt]

theorem nodup_names_ofFiles (room : Nat) (files : List File) :
    (ofFiles room files).catalog.names.Nodup := by
  induction files using List.reverseRecOn with
  | nil => exact List.nodup_nil
  | append_singleton files f ih =>
    rw [ofFiles_concat]
    exact Catalog.Grown.nodup_names (Catalog.add_grown _ f) ih

theorem room_ofFiles (room : Nat) (files : List File) :
    (ofFiles room files).catalog.room = room := by
  induction files using List.reverseRecOn with
  | nil => rfl
  | append_singleton files f ih =>
    rw [ofFiles_concat]
    exact (Catalog.Grown.room_eq (Catalog.add_grown _ f)).trans ih

theorem counted_ofFiles (room : Nat) (files : List File) :
    (ofFiles room files).catalog.Counted := by
  induction files using List.reverseRecOn with
  | nil => exact fun k hk => absurd hk List.not_mem_nil
  | append_singleton files f ih =>
    rw [ofFiles_concat]
    exact Catalog.Grown.counted (Catalog.add_grown _ f) ih

end Indexer

/-! ## Separate files -/

namespace Separate

variable {room : Nat} {files files' : List File}

theorem of_append {f : File} (h : Separate (files ++ [f])) :
    Separate files ∧ (present? f.path).isSome ∧
      ∀ g ∈ files, List.Disjoint g.declaredNames f.declaredNames := by
  obtain ⟨hpresent, hpaths, hnames⟩ := h
  rw [List.map_append] at hpaths
  rw [List.pairwise_append] at hnames
  refine ⟨⟨fun g hg => hpresent g (List.mem_append_left _ hg), hpaths.of_append_left, hnames.1⟩,
    hpresent f (List.mem_append_right _ List.mem_cons_self), ?_⟩
  exact fun g hg => hnames.2.2 g hg f List.mem_cons_self

theorem perm (h : Separate files) (hperm : files.Perm files') : Separate files' where
  present := fun f hf => h.present f (hperm.mem_iff.mpr hf)
  paths := (hperm.map File.path).nodup_iff.mp h.paths
  names := (hperm.pairwise_iff List.disjoint_symm).mp h.names

theorem nodup_entry_paths (h : Separate files) : (files.map (·.entry.path)).Nodup := by
  have hpaths : files.map File.path = (files.map (·.entry.path)).map some := by
    rw [List.map_map]
    exact List.map_congr_left fun f hf => Catalog.path_entry (h.present f hf)
  exact List.Nodup.of_map some (hpaths ▸ h.paths)

/-- The catalog of separate files is made up of what each of them declares by itself. -/
theorem catalog_ofFiles (h : Separate files) :
    (Indexer.ofFiles room files).catalog.declarations =
        files.flatMap (·.entry.alone.declarations) ∧
      (Indexer.ofFiles room files).catalog.anonymous =
        files.reverse.flatMap (·.entry.alone.anonymous) := by
  induction files using List.reverseRecOn with
  | nil => exact ⟨rfl, rfl⟩
  | append_singleton files f ih =>
    obtain ⟨hfiles, hpath, hdisjoint⟩ := h.of_append
    obtain ⟨hdecl, hanon⟩ := ih hfiles
    have hentry := Catalog.entryOf_eq hpath (Indexer.ofFiles room files).catalog
    have hfresh : List.Disjoint f.entry.alone.names (Indexer.ofFiles room files).catalog.names := by
      intro n hn hmem
      unfold Catalog.names at hmem
      rw [hdecl, List.map_flatMap] at hmem
      obtain ⟨g, hg, hmem⟩ := List.mem_flatMap.mp hmem
      exact hdisjoint g hg hmem hn
    have hadd := Catalog.add_eq_after (Indexer.counted_ofFiles room files) (hentry ▸ hfresh)
    rw [Indexer.ofFiles_concat, Indexer.add]
    simp only [hadd, Scan.after, hentry, Catalog.withEntry, hdecl, hanon, List.flatMap_append,
      List.flatMap_singleton, List.reverse_append, List.reverse_singleton]
    exact ⟨rfl, rfl⟩

end Separate

/-- An anonymous class is found among those of the file with its path. -/
theorem lookup_flatMap_anonymous {files : List File}
    (h : (files.map (·.entry.path)).Nodup) (path : String) (start : Nat) :
    (files.flatMap (·.entry.alone.anonymous)).lookup (path, start) =
      (files.find? fun f => f.entry.path == path).bind
        (·.entry.alone.anonymous.lookup (path, start)) := by
  have hother : ∀ f : File, f.entry.path ≠ path →
      f.entry.alone.anonymous.lookup (path, start) = none := by
    intro f hne
    obtain ⟨new, heq, hpath⟩ := Catalog.Grown.anonymous_eq_append (Catalog.alone_grown f.entry)
    rw [heq, List.append_nil, List.lookup_eq_none_iff]
    intro x hx
    simpa using fun hk : (path, start) = x.1 => hne (by rw [← hpath x hx, ← hk])
  induction files with
  | nil => rfl
  | cons f files ih =>
    rw [List.map_cons, List.nodup_cons] at h
    rw [List.flatMap_cons, List.lookup_append, ih h.2]
    by_cases hpath : f.entry.path = path
    · have hnone : files.find? (fun g => g.entry.path == path) = none := by
        rw [List.find?_eq_none]
        intro g hg
        simpa using fun hk : g.entry.path = path =>
          h.1 (List.mem_map.mpr ⟨g, hg, hk.trans hpath.symm⟩)
      rw [hnone, List.find?_cons_of_pos (by simpa using hpath)]
      simp only [Option.bind_none, Option.or_none, Option.bind_some]
    · rw [hother f hpath, Option.none_or, List.find?_cons_of_neg (by simpa using hpath)]

end ServiceReach.Index
